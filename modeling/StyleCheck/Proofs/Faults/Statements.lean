import StyleCheck.Proofs.Faults.Expressions
import StyleCheck.Syntax.Module

/-! # What Statements Blame

    The parsers of statements stay in front of the end marker too, and
    with them the parser of a module: it fails at a token up to the first
    end marker, or at an expression that starts at one.

    * `expressionStatement_stays`: assignments, which fail at expressions
      that have been read.
    * `Grammar.StatementsStay`: the references of the grammar to itself.
    * `Module.parser_stays`: modules.
-/

namespace StyleCheck

open StyleCheck.Parser

namespace Grammar

variable {good : Position → Prop} {ts : List Token}

/-! ## Section 1: Small statements -/

theorem skipSquare_stays (depth : Nat) : StaysAny good (skipSquare depth) :=
  .stepwise skipSquare_stepwise depth

theorem typeParameters_stays : StaysAny good typeParameters := by
  unfold typeParameters
  exact .bind (.accept _) fun _ _ => .ite (skipSquare_stays 0) (.pure trivial)

theorem nextName_stays (separator : Symbol) : StaysAny good (nextName separator) :=
  .bind .name fun _ _ => .accept _

theorem names_stays (separator : Symbol) : StaysAny good (names separator) :=
  .repeatWhile (nextName_spends separator) (nextName_stays separator)

theorem asName_stays : StaysAny good asName := by
  unfold asName
  exact .bind (.acceptKeyword _) fun _ _ => .ite (.bind .name fun _ _ => .pure trivial)
    (.pure trivial)

theorem nextImport_stays : StaysAny good nextImport :=
  .bind (names_stays _) fun _ _ => .bind asName_stays fun _ _ => .accept _

theorem imports_stays : StaysAny good imports := .repeatWhile nextImport_spends nextImport_stays

theorem nextImportedName_stays (parenthesized : Bool) :
    StaysAny good (nextImportedName parenthesized) := by
  unfold nextImportedName
  refine .bind (.atSymbol _) fun _ _ => .ite (.pure trivial) ?_
  exact .bind .name fun _ _ => .bind asName_stays fun _ _ => .accept _

theorem importedNames_stays (parenthesized : Bool) : StaysAny good (importedNames parenthesized) :=
  .repeatWhile (nextImportedName_spends parenthesized) (nextImportedName_stays parenthesized)

theorem importsFrom_stays : StaysAny good importsFrom := by
  have hnames : StaysAny good (do
      expectKeyword .import_ .invalidSyntax
      unless ← accept .star do
        let parenthesized ← accept (.opening .round)
        importedNames parenthesized
        if parenthesized then expect (.closing .round)) := by
    refine .bind (.expectKeyword _ _) fun _ _ => .bind (.accept _) fun _ _ => .ite (.pure trivial) ?_
    exact .bind (.accept _) fun _ _ => .bind (importedNames_stays _) fun _ _ =>
      .ite (.expect _) (.pure trivial)
  have hfail : StaysAny good (fail .invalidSyntax : Parser Unit) := .fail _
  unfold importsFrom
  refine .bind .peek fun _ _ => .bind (.repeatWhile (.acceptIf rfl) (.acceptIf rfl)) fun _ _ =>
    .bind (.atKeyword _) fun _ _ => .ite (.ite hnames (.bind hfail fun _ _ => hnames)) ?_
  exact .bind (names_stays _) fun _ _ => hnames

theorem assigned_stays : StaysSited good assigned := by
  intro ts
  unfold assigned
  refine .atKeyword (.ite (fun hyield => ?_) fun _ => starExpressions_stays (grammar_stay good) ts)
  exact yieldExpression_stays (grammar_stay good) (by simp [of_decide_eq_true hyield])

/-- Of several targets, the first bad one is where the parser fails. -/
theorem checkTargets_stays {targets : List Expr} (h : ∀ target ∈ targets, good target.position) :
    StaysAny good (checkTargets targets) := by
  induction targets with
  | nil => exact .pure trivial
  | cons target targets ih =>
    obtain ⟨hfirst, hothers⟩ := List.forall_mem_cons.mp h
    unfold checkTargets
    split
    · exact .failAt _ hfirst
    · exact ih hothers

/-- The targets that have been read, and the value behind them. -/
def ValuesGood (good : Position → Prop) (read : List Expr × Expr) : Prop :=
  (∀ target ∈ read.1, good target.position) ∧ good read.2.position

/-- They stay at good positions. -/
theorem nextValue_stays {read : List Expr × Expr} (hread : ValuesGood good read) :
    Stays good (nextValue read) (Next.Meets (ValuesGood good) (ValuesGood good)) := by
  unfold nextValue
  refine .bind (.accept _) fun _ _ => .ite (.bind assigned_stays fun next hnext => ?_) (.pure hread)
  refine .pure ⟨fun target hmem => ?_, hnext⟩
  rcases List.mem_append.mp hmem with hmem | hmem
  · exact hread.1 target hmem
  · exact List.mem_singleton.mp hmem ▸ hread.2

theorem assignment_stays (line : Nat) {first : Expr} (hfirst : good first.position) :
    StaysAny good (assignment line first) := by
  have hloop : Stays good (loop nextValue ([], first)) (ValuesGood good) :=
    .loop (ValuesGood good) nextValue_spends ⟨by simp, hfirst⟩ fun _ hread => nextValue_stays hread
  unfold assignment
  exact .bind hloop fun read hread => .bind (checkTargets_stays hread.1) fun _ _ => .pure trivial

theorem expressionStatement_stays : StaysAny good expressionStatement := by
  have hexpression := (grammar_stay good).expression
  unfold expressionStatement
  refine .bind .line fun _ _ => .bind assigned_stays fun first hfirst ts => .peek ?_
  split
  case h_1 => exact assignment_stays _ hfirst ts
  case h_2 hcolon =>
    -- The expression in front of the colon is blamed where it starts.
    refine .ite (fun _ => .advance (by simp [hcolon]) ?_) fun _ => Stays.failAt _ hfirst ts
    refine .bind (hexpression _) fun _ _ => .bind (.accept _) fun _ _ => ?_
    exact .ite (.bind assigned_stays fun _ _ => .pure trivial) (.pure trivial)
  case h_3 hsymbol =>
    refine .ite (fun _ => .ite (fun _ => ?_) fun _ => Stays.failAt _ hfirst ts) fun _ => .pure trivial
    exact .advance (by simp [hsymbol]) (.bind (assigned_stays _) fun _ _ => .pure trivial)
  case h_4 => exact .pure trivial

theorem optionalExpressions_stays : StaysAny good optionalExpressions := by
  unfold optionalExpressions
  exact .bind .peek fun _ _ => .ite
    (.bind (starExpressions_stays (grammar_stay good)) fun _ _ => .pure trivial) (.pure trivial)

theorem afterKeyword?_stays {word : Keyword} {parser : Parser SimpleKind}
    (h : afterKeyword? word = some parser) : StaysAny good parser := by
  have hexpression := (grammar_stay good).expression
  unfold afterKeyword? at h
  split at h
  case h_1 | h_2 | h_3 =>
    cases h
    exact .pure trivial
  case h_4 =>
    cases h
    exact .bind optionalExpressions_stays fun _ _ => .pure trivial
  case h_5 =>
    cases h
    refine .bind .peek fun _ _ => .ite (.bind hexpression fun _ _ => ?_) (.pure trivial)
    exact .bind (.acceptKeyword _) fun _ _ =>
      .ite (.bind hexpression fun _ _ => .pure trivial) (.pure trivial)
  case h_6 | h_7 =>
    cases h
    exact .bind (names_stays _) fun _ _ => .pure trivial
  case h_8 =>
    cases h
    exact .bind (starExpressions_stays (grammar_stay good)) fun _ _ => .pure trivial
  case h_9 =>
    cases h
    refine .bind hexpression fun _ _ => .bind (.accept _) fun _ _ => ?_
    exact .ite (.bind hexpression fun _ _ => .pure trivial) (.pure trivial)
  case h_10 =>
    cases h
    exact .bind imports_stays fun _ _ => .pure trivial
  case h_11 =>
    cases h
    exact .bind importsFrom_stays fun _ _ => .pure trivial
  case h_12 => cases h

theorem typeAlias_stays (hmore : (front ts).lexeme ≠ .endMarker) :
    StaysFrom good ts typeAlias fun _ => True := by
  unfold typeAlias
  refine .advance hmore (.bind (Stays.name _) fun _ _ => .bind typeParameters_stays fun _ _ => ?_)
  exact .bind (.expect _) fun _ _ => .bind (grammar_stay good).expression fun _ _ => .pure trivial

theorem smallStatement_stays : StaysAny good smallStatement := by
  intro ts
  obtain ⟨found, hlook⟩ := atTypeAlias_eq_ok ts
  unfold smallStatement
  refine .line (.look hlook (.ite (fun halias => ?_) fun _ => .peek ?_))
  · obtain ⟨p, name, q, us, rfl⟩ := names_of_atTypeAlias (halias ▸ hlook)
    exact .bind (typeAlias_stays nofun) fun _ _ => .pure trivial
  split
  case h_1 rest hrest =>
    unfold keywordStatement? at hrest
    split at hrest
    case h_1 word hword =>
      refine .advance (by simp [hword]) ?_
      exact .bind (afterKeyword?_stays hrest _) fun _ _ => .pure trivial
    case h_2 => cases hrest
  case h_2 => exact expressionStatement_stays ts

theorem nextSmall_stays (read : List Stmt) : StaysAny good (nextSmall read) := by
  unfold nextSmall
  refine .bind smallStatement_stays fun _ _ => .bind (.accept _) fun _ _ => .ite ?_ (.pure trivial)
  exact .bind .peek fun _ _ => .ite (.pure trivial) (.pure trivial)

theorem simpleStatements_stays : StaysAny good simpleStatements := by
  have hloop : StaysAny good (loop nextSmall []) := .loopAny nextSmall_spends nextSmall_stays _
  unfold simpleStatements
  exact .bind hloop fun _ _ => .bind (.expectNewline _) fun _ _ => .pure trivial

/-! ## Section 2: Compound statements -/

theorem nextStatement_stays {statement : Parser (List Stmt)} (ends : Lexeme → Bool)
    (h : StaysAny good statement) (read : List Stmt) :
    StaysAny good (nextStatement ends statement read) := by
  unfold nextStatement
  exact .bind .peek fun _ _ => .ite (.pure trivial) (.bind h fun _ _ => .pure trivial)

/-- Statements that end at an end marker at the latest. -/
theorem statementsUntil_stays {statement : Parser (List Stmt)} {ends : Lexeme → Bool}
    (hends : ends .endMarker = true) (hadvances : Advances statement)
    (h : StaysAny good statement) : StaysAny good (statementsUntil ends statement) :=
  .loopAny (nextStatement_spends hends hadvances) (nextStatement_stays ends h) []

/-- The parsers that are referred back to keep to what they are given, and
    stay in front of the end marker. -/
structure StatementsStay (good : Position → Prop) (p : StatementParsers) : Prop where
  keep : p.Keep
  statement : StaysAny good p.statement
  conditional : ∀ ts, (front ts).lexeme ≠ .endMarker →
    StaysFrom good ts p.conditional fun _ => True

variable {p : StatementParsers} (hp : StatementsStay good p)

include hp

theorem suite_stays : StaysAny good (suite p) := by
  unfold suite
  refine .bind (.acceptIf rfl) fun _ _ => .ite ?_ simpleStatements_stays
  refine .bind (.acceptIf rfl) fun _ _ => .ite ?_ (.fail _)
  have hstatements : StaysAny good (statementsUntil endsBlock p.statement) :=
    statementsUntil_stays rfl hp.keep.statement_advances hp.statement
  exact .bind hstatements fun _ _ => .bind (.acceptIf rfl) fun _ _ => .pure trivial

theorem body_stays : StaysAny good (body p) := by
  unfold body
  exact .bind (.expect _) fun _ _ => suite_stays hp

theorem optionalBody_stays (keyword : Keyword) : StaysAny good (optionalBody p keyword) := by
  unfold optionalBody
  exact .bind (.acceptKeyword _) fun _ _ =>
    .ite (.bind (body_stays hp) fun _ _ => .pure trivial) (.pure trivial)

theorem alternative_stays : StaysAny good (alternative p) := by
  intro ts
  unfold alternative
  refine .atKeyword (.ite (fun helif => ?_) fun _ => ?_)
  · have hmore : (front ts).lexeme ≠ .endMarker := by simp [of_decide_eq_true helif]
    exact .bind (hp.conditional ts hmore) fun _ _ => .pure trivial
  · exact .bind (optionalBody_stays hp _ ts) fun _ _ => .pure trivial

/-- A body and what hangs on it. -/
theorem hanging_stays {α : Type} {hanging : Parser α} {make : List Stmt → α → Stmt}
    (h : StaysAny good hanging) : StaysAny good (do
      let first ← body p
      let last ← hanging
      pure (make first last)) :=
  .bind (body_stays hp) fun _ _ => .bind h fun _ _ => .pure trivial

theorem conditional_stays (hmore : (front ts).lexeme ≠ .endMarker) :
    StaysFrom good ts (conditional p) fun _ => True := by
  unfold conditional
  refine .line (.advance hmore (.bind (namedExpression_stays (grammar_stay good) _) fun _ _ => ?_))
  exact hanging_stays hp (alternative_stays hp)

theorem whileLoop_stays (hmore : (front ts).lexeme ≠ .endMarker) :
    StaysFrom good ts (whileLoop p) fun _ => True := by
  unfold whileLoop
  refine .line (.advance hmore (.bind (namedExpression_stays (grammar_stay good) _) fun _ _ => ?_))
  exact hanging_stays hp (optionalBody_stays hp _)

theorem forLoop_stays (line : Nat) (isAsync : Bool) (hmore : (front ts).lexeme ≠ .endMarker) :
    StaysFrom good ts (forLoop p line isAsync) fun _ => True := by
  unfold forLoop
  refine .advance hmore (.bind (targets_stays (grammar_stay good) _) fun _ _ => ?_)
  refine .bind (.expectKeyword _ _) fun _ _ =>
    .bind (starExpressions_stays (grammar_stay good)) fun _ _ => ?_
  exact hanging_stays hp (optionalBody_stays hp _)

theorem handler_stays (hmore : (front ts).lexeme ≠ .endMarker) :
    StaysFrom good ts (handler p) fun _ => True := by
  have hhandled : ∀ line star, StaysAny good (do
      let handled ← body p
      pure (Stmt.block line .handler handled, (star : Bool))) :=
    fun _ _ => .bind (body_stays hp) fun _ _ => .pure trivial
  unfold handler
  refine .line (.advance hmore (.bind (Stays.accept _ _) fun _ _ => .bind (.atSymbol _) fun _ _ => ?_))
  refine .ite (hhandled _ _) (.bind (grammar_stay good).expression fun _ _ => ?_)
  exact .bind asName_stays fun _ _ => hhandled _ _

theorem nextHandler_stays (read : List Stmt × Bool) : StaysAny good (nextHandler p read) := by
  intro ts
  unfold nextHandler
  refine .atKeyword (.ite (fun hexcept => ?_) fun _ => .pure trivial)
  have hmore : (front ts).lexeme ≠ .endMarker := by simp [of_decide_eq_true hexcept]
  exact .bind (handler_stays hp hmore) fun _ _ => .pure trivial

theorem handlers_stays : StaysAny good (loop (nextHandler p) ([], false)) :=
  .loopAny (nextHandler_spends hp.keep) (nextHandler_stays hp) _

theorem tryBlock_stays (hmore : (front ts).lexeme ≠ .endMarker) :
    StaysFrom good ts (tryBlock p) fun _ => True := by
  have hnone : StaysAny good (pure none : Parser (Option (List Stmt))) := .pure trivial
  unfold tryBlock
  refine .line (.advance hmore (.bind (body_stays hp _) fun _ _ => ?_))
  -- Without a handler, no alternative is looked for.
  refine .bind (handlers_stays hp) fun _ _ => .ite ?_ ?_
  · exact .bind hnone fun _ _ => .bind (optionalBody_stays hp _) fun _ _ =>
      .ite (.fail _) (.pure trivial)
  · exact .bind (optionalBody_stays hp _) fun _ _ => .bind (optionalBody_stays hp _) fun _ _ =>
      .ite (.fail _) (.pure trivial)

omit hp in
theorem withItem_stays : StaysAny good withItem := by
  unfold withItem
  refine .bind (grammar_stay good).expression fun _ _ => .bind (.acceptKeyword _) fun _ _ => ?_
  exact .ite (.bind (grammar_stay good).operand fun _ _ => .pure trivial) (.pure trivial)

omit hp in
theorem nextWithItem_stays : StaysAny good nextWithItem :=
  .bind withItem_stays fun _ _ => .accept _

omit hp in
theorem nextGroupedItem_stays : StaysAny good nextGroupedItem :=
  .bind (.atSymbol _) fun _ _ => .ite (.pure trivial) nextWithItem_stays

omit hp in
theorem withItems_stays : StaysAny good withItems := by
  intro ts
  have hgrouped : StaysAny good (repeatWhile nextGroupedItem) :=
    .repeatWhile nextGroupedItem_spends nextGroupedItem_stays
  unfold withItems
  refine .remaining (.atSymbol (.ite (fun hopened => ?_) fun _ => ?_))
  · simp only [Bool.and_eq_true, decide_eq_true_eq] at hopened
    exact .advance (by simp [hopened.1]) (.bind (hgrouped _) fun _ _ => .expect _)
  · exact Stays.repeatWhile nextWithItem_spends nextWithItem_stays ts

theorem withBlock_stays (line : Nat) (isAsync : Bool) (hmore : (front ts).lexeme ≠ .endMarker) :
    StaysFrom good ts (withBlock p line isAsync) fun _ => True := by
  unfold withBlock
  exact .advance hmore (.bind (withItems_stays _) fun _ _ =>
    .bind (body_stays hp) fun _ _ => .pure trivial)

theorem functionDef_stays (line : Nat) (isAsync : Bool) (hmore : (front ts).lexeme ≠ .endMarker) :
    StaysFrom good ts (functionDef p line isAsync) fun _ => True := by
  unfold functionDef
  refine .advance hmore (.bind (Stays.name _) fun _ _ => .bind typeParameters_stays fun _ _ => ?_)
  refine .bind (.expect _) fun _ _ => .bind (parameters_stays (grammar_stay good) _ _) fun _ _ => ?_
  refine .bind (.expect _) fun _ _ => .bind (.accept _) fun _ _ => .ite ?_ ?_
  · exact .bind (grammar_stay good).expression fun _ _ => .bind (body_stays hp) fun _ _ =>
      .pure trivial
  · exact .bind (body_stays hp) fun _ _ => .pure trivial

theorem classDef_stays (line : Nat) (hmore : (front ts).lexeme ≠ .endMarker) :
    StaysFrom good ts (classDef p line) fun _ => True := by
  unfold classDef
  refine .advance hmore (.bind (Stays.name _) fun _ _ => .bind typeParameters_stays fun _ _ => ?_)
  refine .bind (.atSymbol _) fun _ _ => .ite ?_ (.bind (body_stays hp) fun _ _ => .pure trivial)
  exact .bind (arguments_stays (grammar_stay good)) fun _ _ => .bind (body_stays hp) fun _ _ =>
    .pure trivial

omit hp in
theorem nextDecorator_stays : StaysAny good nextDecorator := by
  unfold nextDecorator
  refine .bind (.accept _) fun _ _ => .ite ?_ (.pure trivial)
  exact .bind (namedExpression_stays (grammar_stay good)) fun _ _ =>
    .bind (.expectNewline _) fun _ _ => .pure trivial

theorem decorated_stays : StaysAny good (decorated p) := by
  have hdecorators : StaysAny good (repeatWhile nextDecorator) :=
    .repeatWhile nextDecorator_spends nextDecorator_stays
  unfold decorated
  refine .bind hdecorators fun _ _ ts => ?_
  refine .line (.peekSecond (.peek ?_))
  split
  case h_1 hfront => exact functionDef_stays hp _ _ (by simp [hfront])
  case h_2 hfront => exact classDef_stays hp _ (by simp [hfront])
  case h_3 hfront =>
    refine .ite (fun hsecond => .advance (by simp [hfront]) ?_) fun _ => .fail _
    exact functionDef_stays hp _ _ (by simp [beq_iff_eq.mp hsecond])
  case h_4 => exact .fail _

theorem asyncStatement_stays (hmore : (front ts).lexeme ≠ .endMarker) :
    StaysFrom good ts (asyncStatement p) fun _ => True := by
  unfold asyncStatement
  refine .line (.advance hmore (.peek ?_))
  split
  case h_1 hfront => exact functionDef_stays hp _ _ (by simp [hfront])
  case h_2 hfront => exact forLoop_stays hp _ _ (by simp [hfront])
  case h_3 hfront => exact withBlock_stays hp _ _ (by simp [hfront])
  case h_4 => exact .fail _

/-! ## Section 3: Matching -/

omit hp in
theorem skipPattern_stays (isEmpty : Bool) (depth : Int) :
    StaysAny good (skipPattern isEmpty depth) :=
  .stepwise skipPattern_stepwise (isEmpty, depth)

theorem matchCase_stays (hmore : (front ts).lexeme ≠ .endMarker) :
    StaysFrom good ts (matchCase p) fun _ => True := by
  unfold matchCase
  exact .line (.advance hmore (.bind (skipPattern_stays _ _ _) fun _ _ =>
    .bind (suite_stays hp) fun _ _ => .pure trivial))

theorem nextCase_stays (read : List Stmt) : StaysAny good (nextCase p read) := by
  intro ts
  unfold nextCase
  refine .peek (.ite (fun hcase => ?_) fun _ => .pure trivial)
  exact .bind (matchCase_stays hp (by simp [beq_iff_eq.mp hcase])) fun _ _ => .pure trivial

theorem cases_stays : StaysAny good (loop (nextCase p) []) :=
  .loopAny (nextCase_spends hp.keep) (nextCase_stays hp) []

theorem matchBlock_stays (hmore : (front ts).lexeme ≠ .endMarker) :
    StaysFrom good ts (matchBlock p) fun _ => True := by
  unfold matchBlock
  refine .line (.advance hmore (.bind (starExpressions_stays (grammar_stay good) _) fun _ _ => ?_))
  refine .bind (.expect _) fun _ _ => .bind (.expectNewline _) fun _ _ =>
    .bind (.acceptIf rfl) fun _ _ => .ite ?_ (.fail _)
  refine .bind (cases_stays hp) fun _ _ => .ite (.fail _) (.bind (.acceptIf rfl) fun _ _ => ?_)
  exact .ite (.pure trivial) (.fail _)

/-! ## Section 4: The knot -/

theorem compound?_stays {parser : Parser Stmt}
    (hparser : compound? p (front ts).lexeme = some parser) :
    StaysFrom good ts parser fun _ => True := by
  unfold compound? at hparser
  split at hparser
  case h_1 hfront =>
    cases hparser
    exact conditional_stays hp (by simp [hfront])
  case h_2 hfront =>
    cases hparser
    exact whileLoop_stays hp (by simp [hfront])
  case h_3 hfront =>
    cases hparser
    exact .line (forLoop_stays hp _ _ (by simp [hfront]))
  case h_4 hfront =>
    cases hparser
    exact tryBlock_stays hp (by simp [hfront])
  case h_5 hfront =>
    cases hparser
    exact .line (withBlock_stays hp _ _ (by simp [hfront]))
  case h_6 hfront =>
    cases hparser
    exact .line (functionDef_stays hp _ _ (by simp [hfront]))
  case h_7 hfront =>
    cases hparser
    exact .line (classDef_stays hp _ (by simp [hfront]))
  case h_8 hfront =>
    cases hparser
    exact asyncStatement_stays hp (by simp [hfront])
  case h_9 =>
    cases hparser
    exact decorated_stays hp ts
  case h_10 =>
    cases hparser
    exact .fail _
  case h_11 => cases hparser

theorem statement_stays : StaysAny good (statement p) := by
  intro ts
  obtain ⟨found, hlook, hfound⟩ := atMatch_eq_ok ts
  unfold statement
  refine .look hlook (.ite (fun hmatch => ?_) fun _ => .peek ?_)
  · obtain ⟨at_, us, rfl, _⟩ := hfound hmatch
    exact .bind (matchBlock_stays hp nofun) fun _ _ => .pure trivial
  split
  case h_1 parser hparser => exact .bind (compound?_stays hp hparser) fun _ _ => .pure trivial
  case h_2 => exact simpleStatements_stays ts

/-- References that are not followed, but fail. -/
def failingStatements : StatementParsers where
  statement := fail .invalidSyntax
  conditional := fail .invalidSyntax

omit hp in
theorem failingStatements_keep : failingStatements.Keep := ⟨.fail _, .fail _⟩

omit hp in
/-- The grammar over references that fail never runs out of fuel. -/
theorem statementsOver_failing_stay (fuel : List Token) :
    StatementsStay good (statementsOver failingStatements fuel) := by
  induction fuel with
  | nil => exact ⟨failingStatements_keep, .fail _, fun _ _ => .fail _⟩
  | cons _ fuel ih =>
    exact ⟨statementsOver_keep failingStatements_keep _, statement_stays ih,
      fun _ => conditional_stays ih⟩

end Grammar

/-- The parsers of the grammar of statements stay in front of the end
    marker. -/
theorem statementGrammar_stay (good : Position → Prop) :
    Grammar.StatementsStay good statementGrammar := by
  have hstay : ∀ ts : List Token, Grammar.StatementsStay good
      (Grammar.statementsOver Grammar.failingStatements (front ts :: ts)) :=
    fun ts => Grammar.statementsOver_failing_stay _
  have h : ∀ ts : List Token,
      (Grammar.statementsOver Grammar.failingStatements (front ts :: ts)).Agree ts.length
        statementGrammar := fun ts =>
    Grammar.statementsOver_agree_statementGrammar Grammar.failingStatements_keep
      (Nat.lt_succ_self _)
  have hle := fun ts : List Token => Nat.le_refl ts.length
  exact ⟨statementGrammar_keep,
    fun ts => ((hstay ts).statement ts).congr ((h ts).statement.same ts (hle ts)).symm,
    fun ts hmore =>
      ((hstay ts).conditional ts hmore).congr ((h ts).conditional.same ts (hle ts)).symm⟩

/-- The parser of a module stays in front of the end marker, and fails at a
    token up to it. -/
theorem Module.parser_stays (good : Position → Prop) : StaysAny good Module.parser :=
  Grammar.statementsUntil_stays rfl statementGrammar_advances (statementGrammar_stay good).statement

end StyleCheck
