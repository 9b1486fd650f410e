import StyleCheck.Proofs.Faults.Sources

/-! # How Parsing Goes On

    Any tokens at all are parsed to an end: with a tree, or with the first
    error, which is at a token up to the first end marker.  On the way
    the parsers only go forward, and none goes over that end marker,
    whether it succeeds or fails.

    * `Grammar.Round`, `Grammar.Looped`: the loops of the grammar.
      `Grammar.looped_ends`: none of them runs forever.
    * `Grammar.Part`: the parsers of the grammar, and which of them read a
      token.  `Grammar.part_moves`: what each does to a stream.
    * `Module.ofTokens_progresses`: the parse of a token stream.
-/

namespace StyleCheck

open StyleCheck.Parser

/-! ## Section 1: Streams with an end marker -/

namespace Parser

variable {before behind : List Token} {marker : Token}

/-- Up to its first end marker, a stream has the positions that it has. -/
theorem Within.of_append {good : Position → Prop} (hmarker : marker.lexeme = .endMarker)
    (hbefore : ∀ token ∈ before, token.lexeme ≠ .endMarker)
    (hgood : ∀ token ∈ before ++ [marker], good token.position) :
    Within good (before ++ marker :: behind) := by
  induction before with
  | nil => exact .stop hmarker (hgood marker (List.mem_singleton_self _))
  | cons token before ih =>
    obtain ⟨hmore, hothers⟩ := List.forall_mem_cons.mp hbefore
    obtain ⟨hfirst, hrest⟩ := List.forall_mem_cons.mp hgood
    exact .more hmore hfirst (ih hothers hrest)

/-- What has been read stood before the end marker. -/
theorem Passes.exists_ahead {rest : List Token} (hmarker : marker.lexeme = .endMarker)
    (h : Passes (before ++ marker :: behind) rest) :
    ∃ ahead, ahead <:+ before ∧ rest = ahead ++ marker :: behind := by
  obtain ⟨read, heq, hread⟩ := h
  rcases List.append_eq_append_iff.mp heq with ⟨more, rfl, hmore⟩ | ⟨ahead, rfl, rfl⟩
  · cases more with
    | nil => exact ⟨[], List.nil_suffix, hmore.symm⟩
    | cons token more =>
      obtain ⟨rfl, -⟩ := List.cons.inj hmore
      exact absurd hmarker (hread marker (by simp))
  · exact ⟨ahead, List.suffix_append read ahead, rfl⟩

end Parser

namespace Grammar

/-! ## Section 2: The loops of the grammar -/

/-- What the grammar repeats as long as it is there. -/
inductive Round : Parser Bool → Prop where
  | starExpression : Round (nextStarExpression grammar)
  | element (closer : Bracket) : Round (nextElement grammar closer)
  | target : Round (nextTarget grammar)
  | condition : Round (nextCondition grammar)
  | clause : Round (nextClause grammar)
  | argument : Round (nextArgument grammar)
  | slice : Round (nextSlice grammar)
  | item : Round (nextItem grammar)
  | name (separator : Symbol) : Round (nextName separator)
  | imported : Round nextImport
  | importedName (parenthesized : Bool) : Round (nextImportedName parenthesized)
  | dots : Round (acceptIf isDots)
  | withItem : Round nextWithItem
  | groupedItem : Round nextGroupedItem
  | decorator : Round nextDecorator

/-- The bodies of the loops of the grammar. -/
inductive Looped : {σ α : Type} → (σ → Parser (Next σ α)) → Prop where
  | round {body : Parser Bool} (h : Round body) : Looped (whileTrue body)
  | parameter (closer : Symbol) (annotated : Bool) : Looped (parameter grammar closer annotated)
  | string : Looped nextString
  | trailer (start : Position) : Looped (nextTrailer grammar start)
  | binary (level : List Symbol) (tighter : List (List Symbol)) (start : Position) :
      Looped (nextOperand (acceptIf (isOneOf level)) (binary grammar tighter) start)
  | comparison (start : Position) :
      Looped (nextOperand acceptComparison (operand grammar) start)
  | conjunction (start : Position) :
      Looped (nextOperand (acceptKeyword .and_) (inversion grammar) start)
  | disjunction (start : Position) :
      Looped (nextOperand (acceptKeyword .or_) (conjunction grammar) start)
  | value : Looped nextValue
  | small : Looped nextSmall
  | statement : Looped (nextStatement (· == .endMarker) statementGrammar.statement)
  | inner : Looped (nextStatement endsBlock statementGrammar.statement)
  | handler : Looped (nextHandler statementGrammar)
  | case : Looped (nextCase statementGrammar)

theorem round_spends {body : Parser Bool} (h : Round body) : Spends (· = true) body := by
  have hg := grammar_keep
  cases h with
  | starExpression => exact nextStarExpression_spends hg
  | element closer => exact nextElement_spends hg closer
  | target => exact nextTarget_spends hg
  | condition => exact nextCondition_spends hg
  | clause => exact nextClause_spends hg
  | argument => exact nextArgument_spends hg
  | slice => exact nextSlice_spends hg
  | item => exact nextItem_spends hg
  | name separator => exact nextName_spends separator
  | imported => exact nextImport_spends
  | importedName parenthesized => exact nextImportedName_spends parenthesized
  | dots => exact .acceptIf rfl
  | withItem => exact nextWithItem_spends
  | groupedItem => exact nextGroupedItem_spends
  | decorator => exact nextDecorator_spends

/-- Every round but the last reads a token. -/
theorem looped_spends {σ α : Type} {body : σ → Parser (Next σ α)} (h : Looped body) (state : σ) :
    Spends Next.IsAgain (body state) := by
  have hg := grammar_keep
  cases h with
  | round h => exact whileTrue_spends (round_spends h) state
  | parameter closer annotated => exact parameter_spends hg closer annotated state
  | string => exact nextString_spends state
  | trailer start => exact nextTrailer_spends hg start state
  | binary level tighter start =>
    exact nextOperand_spends (.acceptIf rfl) (binary_advances hg tighter).keeps start state
  | comparison start =>
    exact nextOperand_spends acceptComparison_spends (binary_advances hg _).keeps start state
  | conjunction start =>
    exact nextOperand_spends (.acceptIf rfl) (inversion_advances hg).keeps start state
  | disjunction start =>
    exact nextOperand_spends (.acceptIf rfl) (conjunction_advances hg).keeps start state
  | value => exact nextValue_spends state
  | small => exact nextSmall_spends state
  | statement => exact nextStatement_spends rfl statementGrammar_advances state
  | inner => exact nextStatement_spends rfl statementGrammar_advances state
  | handler => exact nextHandler_spends statementGrammar_keep state
  | case => exact nextCase_spends statementGrammar_keep state

theorem round_stays {body : Parser Bool} (h : Round body) : StaysAny (fun _ => True) body := by
  have hg := grammar_stay fun _ => True
  cases h with
  | starExpression => exact nextStarExpression_stays hg
  | element closer => exact nextElement_stays hg closer
  | target => exact nextTarget_stays hg
  | condition => exact nextCondition_stays hg
  | clause => exact nextClause_stays hg
  | argument => exact nextArgument_stays hg
  | slice => exact nextSlice_stays hg
  | item => exact nextItem_stays hg
  | name separator => exact nextName_stays separator
  | imported => exact nextImport_stays
  | importedName parenthesized => exact nextImportedName_stays parenthesized
  | dots => exact .acceptIf rfl
  | withItem => exact nextWithItem_stays
  | groupedItem => exact nextGroupedItem_stays
  | decorator => exact nextDecorator_stays

/-- No round reads an end marker, and none runs out of fuel. -/
theorem looped_stays {σ α : Type} {body : σ → Parser (Next σ α)} (h : Looped body) (state : σ) :
    StaysAny (fun _ => True) (body state) := by
  have hg := grammar_stay fun _ => True
  have hp := statementGrammar_stay fun _ => True
  -- Where the operands stand does not matter here.
  have hoperand : ∀ {operator : Parser Bool} {operand : Parser Expr} {start : Position}
      {read : Expr}, StaysAny (fun _ => True) operator → StaysSited (fun _ => True) operand →
        StaysAny (fun _ => True) (nextOperand operator operand start read) :=
    fun hoperator hoperand => (nextOperand_stays hoperator hoperand trivial trivial).any
  cases h with
  | round h => exact .whileTrue (round_stays h) state
  | parameter closer annotated => exact parameter_stays hg closer annotated state
  | string => exact nextString_stays state
  | trailer start => exact (nextTrailer_stays hg trivial trivial).any
  | binary level tighter start => exact hoperand (.acceptIf rfl) (binary_stays hg tighter)
  | comparison start => exact hoperand acceptComparison_stays (binary_stays hg _)
  | conjunction start => exact hoperand (.acceptKeyword _) (inversion_stays hg)
  | disjunction start => exact hoperand (.acceptKeyword _) (conjunction_stays hg)
  | value => exact (nextValue_stays ⟨fun _ _ => trivial, trivial⟩).any
  | small => exact nextSmall_stays state
  | statement => exact nextStatement_stays _ hp.statement state
  | inner => exact nextStatement_stays _ hp.statement state
  | handler => exact nextHandler_stays hp state
  | case => exact nextCase_stays hp state

/-- **No loop of the grammar runs forever**: each goes on for some rounds,
    which read tokens, and then is done or fails, in front of the end
    marker. -/
theorem looped_ends {σ α : Type} {body : σ → Parser (Next σ α)} (h : Looped body) (state : σ)
    {ts : List Token} (hend : Within (fun _ => True) ts) :
    ∃ rest, Passes ts rest ∧
      ((∃ a, Rounds body state ts a rest) ∨ ∃ e, Fails body state ts e rest) := by
  rcases Stays.rounds_or_fails (fun _ => True) (looped_spends h)
    (fun state _ => (looped_stays h state).meets) state trivial hend with
    ⟨a, rest, hrounds, -, hpasses⟩ | ⟨e, rest, hfails, -, hpasses⟩
  · exact ⟨rest, hpasses, .inl ⟨a, hrounds⟩⟩
  · exact ⟨rest, hpasses, .inr ⟨e, hfails⟩⟩

/-! ## Section 3: The parsers of the grammar -/

/-- How far a parser goes when it succeeds. -/
inductive Pace where
  /-- It may read nothing. -/
  | slack
  /-- It reads a token at least. -/
  | forward
  /-- It is only run where its first token has been seen, and reads it. -/
  | headed

/-- The parsers of the grammar. -/
inductive Part : Pace → {α : Type} → Parser α → Prop where
  -- Lists and clauses.
  | starExpression : Part .forward (starExpression grammar)
  | starExpressions : Part .forward (starExpressions grammar)
  | namedExpression : Part .forward (namedExpression grammar)
  | element : Part .forward (element grammar)
  | moreElements (closer : Bracket) : Part .slack (moreElements grammar closer)
  | target : Part .forward (target grammar)
  | targets : Part .forward (targets grammar)
  | atComprehension : Part .slack atComprehension
  | acceptFor : Part .slack acceptFor
  | clause : Part .slack (clause grammar)
  | comprehension : Part .forward (comprehension grammar)
  | argument : Part .slack (argument grammar)
  | arguments : Part .forward (arguments grammar)
  | laterBounds : Part .slack (laterBounds grammar)
  | slice : Part .slack (slice grammar)
  | slices : Part .slack (slices grammar)
  | typeHint (annotated starred : Bool) : Part .slack (typeHint grammar annotated starred)
  | parameter (closer : Symbol) (annotated : Bool) (read : Parameters) :
      Part .slack (parameter grammar closer annotated read)
  | parameters (closer : Symbol) (annotated : Bool) :
      Part .slack (parameters grammar closer annotated)
  -- Atoms.
  | strings : Part .slack strings
  | yieldExpression : Part .headed (yieldExpression grammar)
  | parenthesized : Part .headed (parenthesized grammar)
  | listDisplay : Part .headed (listDisplay grammar)
  | item : Part .slack (item grammar)
  | moreItems : Part .slack (moreItems grammar)
  | braceDisplay : Part .headed (braceDisplay grammar)
  | atom : Part .forward (atom grammar)
  | primary : Part .forward (primary grammar)
  -- Operators.
  | power : Part .forward (power grammar)
  | factor : Part .forward (factor grammar)
  | binary (levels : List (List Symbol)) : Part .forward (binary grammar levels)
  | acceptComparison : Part .slack acceptComparison
  | comparison : Part .forward (comparison grammar)
  | inversion : Part .forward (inversion grammar)
  | conjunction : Part .forward (conjunction grammar)
  | disjunction : Part .forward (disjunction grammar)
  | lambda : Part .headed (lambda grammar)
  | expression : Part .forward (expression grammar)
  -- Small statements.
  | skipSquare (depth : Nat) : Part .slack (skipSquare depth)
  | typeParameters : Part .slack typeParameters
  | names (separator : Symbol) : Part .slack (names separator)
  | asName : Part .slack asName
  | imports : Part .slack imports
  | importedNames (parenthesized : Bool) : Part .slack (importedNames parenthesized)
  | importsFrom : Part .slack importsFrom
  | assigned : Part .forward assigned
  | checkTargets (targets : List Expr) : Part .slack (checkTargets targets)
  | assignment (line : Nat) (first : Expr) : Part .slack (assignment line first)
  | expressionStatement : Part .forward expressionStatement
  | atTypeAlias : Part .slack atTypeAlias
  | typeAlias : Part .headed typeAlias
  | optionalExpressions : Part .slack optionalExpressions
  | afterKeyword {word : Keyword} {rest : Parser SimpleKind} (h : afterKeyword? word = some rest) :
      Part .slack rest
  | smallStatement : Part .forward smallStatement
  | simpleStatements : Part .forward simpleStatements
  -- Compound statements.
  | statementsUntil (ends : Lexeme → Bool) (h : ends .endMarker = true) :
      Part .slack (statementsUntil ends statementGrammar.statement)
  | suite : Part .forward (suite statementGrammar)
  | body : Part .forward (body statementGrammar)
  | optionalBody (keyword : Keyword) : Part .slack (optionalBody statementGrammar keyword)
  | alternative : Part .slack (alternative statementGrammar)
  | conditional : Part .headed (conditional statementGrammar)
  | whileLoop : Part .headed (whileLoop statementGrammar)
  | forLoop (line : Nat) (isAsync : Bool) : Part .headed (forLoop statementGrammar line isAsync)
  | handler : Part .headed (handler statementGrammar)
  | tryBlock : Part .headed (tryBlock statementGrammar)
  | withItem : Part .slack withItem
  | withItems : Part .slack withItems
  | withBlock (line : Nat) (isAsync : Bool) : Part .headed (withBlock statementGrammar line isAsync)
  | functionDef (line : Nat) (isAsync : Bool) :
      Part .headed (functionDef statementGrammar line isAsync)
  | classDef (line : Nat) : Part .headed (classDef statementGrammar line)
  | decorated : Part .forward (decorated statementGrammar)
  | asyncStatement : Part .headed (asyncStatement statementGrammar)
  | atMatch : Part .slack atMatch
  | skipPattern (isEmpty : Bool) (depth : Int) : Part .slack (skipPattern isEmpty depth)
  | matchCase : Part .headed (matchCase statementGrammar)
  | matchBlock : Part .headed (matchBlock statementGrammar)
  | statement : Part .forward (statement statementGrammar)
  -- The rounds of the loops.
  | round {body : Parser Bool} (h : Round body) : Part .slack body
  | looped {σ α : Type} {body : σ → Parser (Next σ α)} (h : Looped body) (state : σ) :
      Part .slack (body state)

/-- No parser of the grammar reads an end marker. -/
theorem part_stays {pace : Pace} {α : Type} {p : Parser α} (h : Part pace p) {ts : List Token}
    (hhead : pace = .headed → (front ts).lexeme ≠ .endMarker) :
    StaysFrom (fun _ => True) ts p fun _ => True := by
  have hg := grammar_stay fun _ => True
  have hp := statementGrammar_stay fun _ => True
  have hsited : ∀ {p : Parser Expr}, StaysSited (fun _ => True) p →
      StaysFrom (fun _ => True) ts p fun _ => True := fun h => (h ts).mono fun _ _ => trivial
  cases h with
  | starExpression => exact hsited (starExpression_stays hg)
  | starExpressions => exact hsited (starExpressions_stays hg)
  | namedExpression => exact hsited (namedExpression_stays hg)
  | element => exact hsited (element_stays hg)
  | moreElements => exact moreElements_stays hg _ ts
  | target => exact hsited (target_stays hg)
  | targets => exact hsited (targets_stays hg)
  | atComprehension => exact atComprehension_stays ts
  | acceptFor => exact acceptFor_stays ts
  | clause => exact clause_stays hg ts
  | comprehension => exact comprehension_stays hg ts
  | argument => exact argument_stays hg ts
  | arguments => exact arguments_stays hg ts
  | laterBounds => exact laterBounds_stays hg ts
  | slice => exact slice_stays hg ts
  | slices => exact slices_stays hg ts
  | typeHint => exact typeHint_stays hg _ _ ts
  | parameter => exact parameter_stays hg _ _ _ ts
  | parameters => exact parameters_stays hg _ _ ts
  | strings => exact hsited strings_stays
  | yieldExpression => exact yieldExpression_stays hg (hhead rfl)
  | parenthesized => exact parenthesized_stays hg (hhead rfl)
  | listDisplay => exact listDisplay_stays hg (hhead rfl)
  | item => exact item_stays hg ts
  | moreItems => exact moreItems_stays hg ts
  | braceDisplay => exact braceDisplay_stays hg (hhead rfl)
  | atom => exact hsited (atom_stays hg)
  | primary => exact hsited (primary_stays hg)
  | power => exact hsited (power_stays hg)
  | factor => exact hsited (factor_stays hg)
  | binary => exact hsited (binary_stays hg _)
  | acceptComparison => exact acceptComparison_stays ts
  | comparison => exact hsited (comparison_stays hg)
  | inversion => exact hsited (inversion_stays hg)
  | conjunction => exact hsited (conjunction_stays hg)
  | disjunction => exact hsited (disjunction_stays hg)
  | lambda => exact lambda_stays hg (hhead rfl)
  | expression => exact hsited (expression_stays hg)
  | skipSquare => exact skipSquare_stays _ ts
  | typeParameters => exact typeParameters_stays ts
  | names => exact names_stays _ ts
  | asName => exact asName_stays ts
  | imports => exact imports_stays ts
  | importedNames => exact importedNames_stays _ ts
  | importsFrom => exact importsFrom_stays ts
  | assigned => exact hsited assigned_stays
  | checkTargets => exact checkTargets_stays (fun _ _ => trivial) ts
  | assignment => exact assignment_stays _ trivial ts
  | expressionStatement => exact expressionStatement_stays ts
  | atTypeAlias =>
    obtain ⟨found, hlook⟩ := atTypeAlias_eq_ok ts
    exact .of_ok hlook trivial fun _ => .refl ts
  | typeAlias => exact typeAlias_stays (hhead rfl)
  | optionalExpressions => exact optionalExpressions_stays ts
  | afterKeyword h => exact afterKeyword?_stays h ts
  | smallStatement => exact smallStatement_stays ts
  | simpleStatements => exact simpleStatements_stays ts
  | statementsUntil ends h =>
    exact statementsUntil_stays h statementGrammar_advances hp.statement ts
  | suite => exact suite_stays hp ts
  | body => exact body_stays hp ts
  | optionalBody => exact optionalBody_stays hp _ ts
  | alternative => exact alternative_stays hp ts
  | conditional => exact conditional_stays hp (hhead rfl)
  | whileLoop => exact whileLoop_stays hp (hhead rfl)
  | forLoop => exact forLoop_stays hp _ _ (hhead rfl)
  | handler => exact handler_stays hp (hhead rfl)
  | tryBlock => exact tryBlock_stays hp (hhead rfl)
  | withItem => exact withItem_stays ts
  | withItems => exact withItems_stays ts
  | withBlock => exact withBlock_stays hp _ _ (hhead rfl)
  | functionDef => exact functionDef_stays hp _ _ (hhead rfl)
  | classDef => exact classDef_stays hp _ (hhead rfl)
  | decorated => exact decorated_stays hp ts
  | asyncStatement => exact asyncStatement_stays hp (hhead rfl)
  | atMatch =>
    obtain ⟨found, hlook, -⟩ := atMatch_eq_ok ts
    exact .of_ok hlook trivial fun _ => .refl ts
  | skipPattern => exact skipPattern_stays _ _ ts
  | matchCase => exact matchCase_stays hp (hhead rfl)
  | matchBlock => exact matchBlock_stays hp (hhead rfl)
  | statement => exact statement_stays hp ts
  | round h => exact round_stays h ts
  | looped h state => exact looped_stays h state ts

/-- A block is behind a newline, and there is a statement on a line. -/
theorem suite_advances : Advances (suite statementGrammar) := by
  have hinner : ∀ read, Keeps (nextStatement endsBlock statementGrammar.statement read) :=
    fun read => (looped_spends .inner read).keeps
  have hblock : Keeps (do
      if ← acceptIf (· == .indent) then
        let body ← statementsUntil endsBlock statementGrammar.statement
        let _ ← acceptIf (· == .dedent)
        pure body
      else fail .missingBlock) :=
    .bind (.acceptIf _) fun _ => .ite (.bind (.loop hinner _) fun _ =>
      .bind (.acceptIf _) fun _ => .pure _) (.fail _)
  unfold suite
  refine ⟨.bind ?_ fun _ => hblock.tidy.ite simpleStatements_advances.tidy, fun ts => ?_⟩
  · exact (Keeps.acceptIf _).tidy
  refine (ensures_bind _ _).mpr ((ensures_acceptIf _).mpr ⟨fun _ => ?_, fun _ => ?_⟩)
  · exact hblock.suffix ts.tail
  · exact simpleStatements_advances.suffix_tail ts

/-- All but those that may read nothing read a token. -/
theorem part_advances {pace : Pace} {α : Type} {p : Parser α} (h : Part pace p)
    (hpace : pace ≠ .slack) : Advances p := by
  have hg := grammar_keep
  have hp := statementGrammar_keep.agree 0
  cases h with
  | starExpression => exact starExpression_advances hg
  | starExpressions => exact starExpressions_advances hg
  | namedExpression => exact namedExpression_advances hg
  | element => exact element_advances hg
  | target => exact target_advances hg
  | targets => exact targets_advances hg
  | comprehension => exact comprehension_advances hg
  | arguments => exact arguments_advances hg
  | yieldExpression => exact yieldExpression_advances hg
  | parenthesized => exact parenthesized_advances hg
  | listDisplay => exact listDisplay_advances hg
  | braceDisplay => exact braceDisplay_advances hg
  | atom => exact atom_advances hg
  | primary => exact primary_advances hg
  | power => exact power_advances hg
  | factor => exact factor_advances hg
  | binary => exact binary_advances hg _
  | comparison => exact comparison_advances hg
  | inversion => exact inversion_advances hg
  | conjunction => exact conjunction_advances hg
  | disjunction => exact disjunction_advances hg
  | lambda => exact lambda_advances hg
  | expression => exact expression_advances hg
  | assigned => exact assigned_advances
  | expressionStatement => exact expressionStatement_advances
  | typeAlias => exact typeAlias_advances
  | smallStatement => exact smallStatement_advances
  | simpleStatements => exact simpleStatements_advances
  | suite => exact suite_advances
  | body => exact .bind (.expect _) fun _ => suite_advances.keeps
  | conditional => exact (conditional_enters hp).advances
  | whileLoop => exact (whileLoop_enters hp).advances
  | forLoop => exact (forLoop_enters hp _ _).advances
  | handler => exact (handler_enters hp).advances
  | tryBlock => exact (tryBlock_enters hp).advances
  | withBlock => exact (withBlock_enters hp _ _).advances
  | functionDef => exact (functionDef_enters hp _ _).advances
  | classDef => exact (classDef_enters hp _).advances
  | decorated => exact (decorated_enters hp).advances
  | asyncStatement => exact (asyncStatement_enters hp).advances
  | matchCase => exact (matchCase_enters hp).advances
  | matchBlock => exact (matchBlock_enters hp).advances
  | statement => exact (statement_enters hp).advances
  | _ => exact absurd rfl hpace

/-- How a parser comes out of the tokens `ahead`, behind which stands an end
    marker.  Those that are left are the end of `ahead`, whether it has
    succeeded, at its pace and without an error, or failed, with one
    error. -/
def Moves (pace : Pace) {α : Type} (p : Parser α) (ahead : List Token) (marker : Token)
    (behind : List Token) : Prop :=
  ∃ ahead', ahead' <:+ ahead ∧
    ((∃ a, p (ahead ++ marker :: behind) = .ok (a, ahead' ++ marker :: behind) ∧
        (pace ≠ .slack → ahead'.length < ahead.length)) ∨
      ∃ e, p (ahead ++ marker :: behind) = .failed e (ahead' ++ marker :: behind) ∧
        e.fault.message ≠ [])

variable {ahead behind : List Token} {marker : Token}

/-- **The parsers only go forward, and none of them over an end marker.** -/
theorem part_moves {pace : Pace} {α : Type} {p : Parser α} (h : Part pace p)
    (hmarker : marker.lexeme = .endMarker) (hahead : ∀ token ∈ ahead, token.lexeme ≠ .endMarker)
    (hhead : pace = .headed → ahead ≠ []) : Moves pace p ahead marker behind := by
  have hend : Within (fun _ => True) (ahead ++ marker :: behind) :=
    .of_append hmarker hahead fun _ _ => trivial
  -- A parser that reads its first token unseen is not run at the marker.
  have hfront : pace = .headed → (front (ahead ++ marker :: behind)).lexeme ≠ .endMarker := by
    intro hpace
    cases ahead with
    | nil => exact absurd rfl (hhead hpace)
    | cons token ahead => exact hahead token (by simp)
  rcases part_stays h hfront hend with ⟨a, rest, hread, -, hpasses⟩ | ⟨e, rest, hread, -, hpasses⟩
  · obtain ⟨ahead', hsuffix, rfl⟩ := hpasses.exists_ahead hmarker
    refine ⟨ahead', hsuffix, .inl ⟨a, hread, fun hpace => ?_⟩⟩
    have htail := (part_advances h hpace).suffix_tail _ a _ hread
    have hlength := length_lt_of_suffix_tail htail (by simp)
    rw [List.length_append, List.length_append] at hlength
    omega
  · obtain ⟨ahead', hsuffix, rfl⟩ := hpasses.exists_ahead hmarker
    exact ⟨ahead', hsuffix, .inr ⟨e, hread, e.fault.message_ne_nil⟩⟩

end Grammar

/-! ## Section 4: The parse of a token stream -/

namespace Module

variable {before behind : List Token} {marker : Token}

/-- A stream has a first end marker. -/
theorem exists_first_endMarker (tokens : List Token) : ∃ before marker behind,
    withEndMarker tokens = before ++ marker :: behind ∧ marker.lexeme = .endMarker ∧
      ∀ token ∈ before, token.lexeme ≠ .endMarker := by
  obtain ⟨token, hmem, htoken⟩ := endMarker_mem_withEndMarker tokens
  generalize withEndMarker tokens = ts at hmem
  induction ts with
  | nil => cases hmem
  | cons first ts ih =>
    by_cases hfirst : first.lexeme = .endMarker
    · exact ⟨[], first, ts, rfl, hfirst, nofun⟩
    · have hmem : token ∈ ts := by
        rcases List.mem_cons.mp hmem with rfl | hmem
        · exact absurd htoken hfirst
        · exact hmem
      obtain ⟨before, marker, behind, rfl, hmarker, hbefore⟩ := ih hmem
      exact ⟨first :: before, marker, behind, rfl, hmarker,
        List.forall_mem_cons.mpr ⟨hfirst, hbefore⟩⟩

/-- An end marker is added unless one is last. -/
theorem withEndMarker_eq (tokens : List Token) :
    if (tokens.getLast?.map (·.lexeme)) = some .endMarker then withEndMarker tokens = tokens
    else ∃ line, withEndMarker tokens = tokens ++ [⟨.endMarker, ⟨line, 0⟩⟩] := by
  unfold withEndMarker
  cases hlast : tokens.getLast? with
  | none =>
    rw [List.getLast?_eq_none_iff.mp hlast]
    exact ⟨1, rfl⟩
  | some last =>
    by_cases hend : last.lexeme = .endMarker
    · simp [hend]
    · simp [hend]

/-- One more statement of a module, unless the end marker is there. -/
def nextOfModule : List Stmt → Parser (Next (List Stmt) Module) :=
  Grammar.nextStatement (· == .endMarker) statementGrammar.statement

theorem nextOfModule_stays {good : Position → Prop} (read : List Stmt) :
    StaysAny good (nextOfModule read) :=
  Grammar.nextStatement_stays _ (statementGrammar_stay good).statement read

/-- The statements of a module end where an end marker is. -/
theorem parser_ensures (ts : List Token) :
    Ensures parser ts fun _ rest => (front rest).lexeme = .endMarker := by
  refine Ensures.loop_tokens (fun _ rest => (front rest).lexeme = .endMarker) (fun read ts => ?_)
    [] ts
  unfold Grammar.nextStatement
  rw [ensures_bind, ensures_peek, ensures_ite]
  refine ⟨fun h => ?_, fun _ => ?_⟩
  · exact (ensures_pure _).mpr (beq_iff_eq.mp h)
  · exact (ensures_bind _ _).mpr fun _ _ _ => (ensures_pure _).mpr fun _ => id

/-- A module is read up to the first end marker, or the parser fails at a
    token in front of it or at the marker itself. -/
theorem parser_progresses (hmarker : marker.lexeme = .endMarker)
    (hbefore : ∀ token ∈ before, token.lexeme ≠ .endMarker) :
    (∃ m, parser (before ++ marker :: behind) = .ok (m, marker :: behind) ∧
      Rounds nextOfModule [] (before ++ marker :: behind) m (marker :: behind)) ∨
    ∃ e ahead, ahead <:+ before ∧
      parser (before ++ marker :: behind) = .failed e (ahead ++ marker :: behind) ∧
      Fails nextOfModule [] (before ++ marker :: behind) e (ahead ++ marker :: behind) ∧
      ∃ token ∈ before ++ [marker], e.position = token.position := by
  have hgood : Within (fun at_ => ∃ token ∈ before ++ [marker], at_ = token.position)
      (before ++ marker :: behind) :=
    .of_append hmarker hbefore fun token hmem => ⟨token, hmem, rfl⟩
  rcases Stays.rounds_or_fails (fun _ => True) (Grammar.looped_spends .statement)
    (fun read _ => (nextOfModule_stays read).meets) [] trivial hgood with
    ⟨m, rest, hrounds, -, hpasses⟩ | ⟨e, rest, hfails, hblamed, hpasses⟩
  · have hread : parser (before ++ marker :: behind) = .ok (m, rest) := loop_of_rounds hrounds
    obtain ⟨ahead, hsuffix, rfl⟩ := hpasses.exists_ahead hmarker
    -- Nothing in front of the marker is one.
    have hahead : ahead = [] := by
      have hfront := parser_ensures _ m _ hread
      cases ahead with
      | nil => rfl
      | cons token ahead => exact absurd hfront (hbefore token (hsuffix.subset (by simp)))
    subst hahead
    exact .inl ⟨m, hread, hrounds⟩
  · obtain ⟨ahead, hsuffix, rfl⟩ := hpasses.exists_ahead hmarker
    exact .inr ⟨e, ahead, hsuffix, loop_of_fails hfails, hfails, hblamed⟩

/-- **Parsing any tokens ends, goes forward only, and reports the first
    error.**  The stream is followed by an end marker unless it ends in
    one; `before` is what stands in front of its first end marker.

    The parse is done, exactly at that marker and without an error, or it
    fails, and has raised one error, that of the first statement that is
    not read.  The error has a wording, and the position of a token up to
    the marker.  Each parser of the grammar that is run with the tokens
    `ahead` in front of the marker leaves the end of them, whether it
    succeeds or fails, and an expression, a statement or a block that it
    reads takes one at least.

    None of this is due to fuel.  The grammar is made of its own parsers,
    none of which runs out of it, and its loops stop or fail by
    themselves. -/
theorem ofTokens_progresses (tokens : List Token) : ∃ before marker behind,
    withEndMarker tokens = before ++ marker :: behind ∧
    marker.lexeme = .endMarker ∧ (∀ token ∈ before, token.lexeme ≠ .endMarker) ∧
    (if (tokens.getLast?.map (·.lexeme)) = some .endMarker then withEndMarker tokens = tokens
      else ∃ line, withEndMarker tokens = tokens ++ [⟨.endMarker, ⟨line, 0⟩⟩]) ∧
    ((∃ m, ofTokens tokens = .ok m ∧
        parser (withEndMarker tokens) = .ok (m, marker :: behind) ∧
        Rounds nextOfModule [] (withEndMarker tokens) m (marker :: behind)) ∨
      ∃ e ahead, ahead <:+ before ∧ ofTokens tokens = .error e ∧
        parser (withEndMarker tokens) = .failed e (ahead ++ marker :: behind) ∧
        Fails nextOfModule [] (withEndMarker tokens) e (ahead ++ marker :: behind) ∧
        e.fault.message ≠ [] ∧ ∃ token ∈ before ++ [marker], e.position = token.position) ∧
    (∀ {pace : Grammar.Pace} {α : Type} {p : Parser α}, Grammar.Part pace p →
      ∀ ahead, ahead <:+ before → (pace = .headed → ahead ≠ []) →
        Grammar.Moves pace p ahead marker behind) ∧
    grammar.Closed ∧ statementGrammar.Closed ∧
    ∀ {σ α : Type} {body : σ → Parser (Next σ α)}, Grammar.Looped body →
      ∀ state ahead, ahead <:+ before → ∃ ahead', ahead' <:+ ahead ∧
        ((∃ a, Rounds body state (ahead ++ marker :: behind) a (ahead' ++ marker :: behind)) ∨
          ∃ e, Fails body state (ahead ++ marker :: behind) e (ahead' ++ marker :: behind)) := by
  obtain ⟨before, marker, behind, hstream, hmarker, hbefore⟩ := exists_first_endMarker tokens
  have hmore : ∀ {ahead : List Token}, ahead <:+ before →
      ∀ token ∈ ahead, token.lexeme ≠ .endMarker := fun hahead token hmem =>
    hbefore token (hahead.subset hmem)
  refine ⟨before, marker, behind, hstream, hmarker, hbefore, withEndMarker_eq tokens, ?_, ?_,
    grammar_closed, statementGrammar_closed, ?_⟩
  · unfold ofTokens
    rw [hstream]
    rcases @parser_progresses before behind marker hmarker hbefore with
      ⟨m, hread, hrounds⟩ | ⟨e, ahead, hahead, hread, hfails, hblamed⟩
    · rw [hread]
      exact .inl ⟨m, rfl, rfl, hrounds⟩
    · rw [hread]
      exact .inr ⟨e, ahead, hahead, rfl, rfl, hfails, e.fault.message_ne_nil, hblamed⟩
  · exact fun hpart ahead hahead hhead => Grammar.part_moves hpart hmarker (hmore hahead) hhead
  · intro σ α body hbody state ahead hahead
    have hend : Within (fun _ => True) (ahead ++ marker :: behind) :=
      .of_append hmarker (hmore hahead) fun _ _ => trivial
    obtain ⟨rest, hpasses, h⟩ := Grammar.looped_ends hbody state hend
    obtain ⟨ahead', hsuffix, rfl⟩ := hpasses.exists_ahead hmarker
    exact ⟨ahead', hsuffix, h⟩

end Module

end StyleCheck
