import StyleCheck.Proofs.Parsing.Definitions
import StyleCheck.Proofs.Parsing.Equals

/-! # What Equals Signs Bind

    Whatever is bound with an equals sign has its own place in the grammar,
    and each of these places asks on its own whether a keyword is bound.
    Behind all of them, no reserved keyword is in front of an equals sign
    in the source, except where a call reads an argument: there nobody asks.
    Patterns and type parameters are read over without a look at what they
    bind, so they are left out.

    * `Matchless`, `Untyped`: trees without a `match`, and tokens without
      type parameters.
    * `Under`: guarded tokens, if the tree of a source is matchless.
    * `Module.keywords_unbound`: the equals signs of a source.
-/

namespace StyleCheck

open StyleCheck.Parser

/-! ## Section 1: Matches and type parameters -/

/-- Whether a statement matches patterns. -/
def Stmt.isMatch : Stmt → Bool
  | block _ .matchBlock _ => true
  | _ => false

/-- No statement of these trees matches patterns. -/
def Matchless (stmts : List Stmt) : Prop := ∀ stmt ∈ nodes stmts, stmt.isMatch = false

/-- No type parameters stand behind the name of a definition or of a type. -/
def Untyped (tokens : List Token) : Prop :=
  ∀ {owner : Token} {name : Text} {p q : Position} {behind : List Token},
    owner :: ⟨.name name, p⟩ :: ⟨.symbol (.opening .square), q⟩ :: behind <:+ tokens →
    owner.lexeme.takesTypeParameters = false

/-- Whatever a statement assigns to can be assigned to: it is a name, or
    else a part of something, or several of these. -/
def Stmt.BindsTargets : Stmt → Prop
  | assign _ targets _ => ∀ target ∈ targets, Grammar.unassignable? target.form = none
  | _ => True

/-- The tokens are guarded, if a condition holds of what has been made of
    them. -/
def Under (c : Prop) (read : List Token) : Prop := c → Guarded read

variable {c : Prop} {stmt : Stmt} {stmts others : List Stmt} {read ts rest all : List Token}

theorem Under.concat {t : Token} (h : Under c read) (ht : t.lexeme.isHarmless = true) :
    Under c (read ++ [t]) :=
  fun hc => (h hc).concat ht

namespace Matchless

theorem append_iff : Matchless (stmts ++ others) ↔ Matchless stmts ∧ Matchless others := by
  unfold Matchless
  rw [nodes_append, List.forall_mem_append]

theorem children (h : Matchless [stmt]) : Matchless stmt.children := fun inner hinner =>
  h inner (by rw [nodes_singleton]; exact List.mem_cons_of_mem _ hinner)

theorem not_match {line : Nat} : ¬Matchless [.block line .matchBlock stmts] := by
  intro h
  have hmatch := h (.block line .matchBlock stmts) (by rw [nodes_singleton]; simp)
  cases hmatch

end Matchless

/-- The parsers that are referred back to leave guarded tokens, unless they
    make a `match`. -/
structure StatementParsers.Guide (p : StatementParsers) (all : List Token) : Prop where
  statement : ∀ c, Leads all (Under c) p.statement fun stmts => Under (c ∧ Matchless stmts)
  conditional : ∀ c {l : Lexeme}, l.isHarmless = true →
    LeadsAt all l (Under c) p.conditional fun stmt => Under (c ∧ Matchless [stmt])

namespace Grammar

/-! ## Section 2: Names and assignments -/

/-- Behind an expression, what may be read anywhere. -/
theorem expression_bind {α : Type} {f : Expr → Parser α} {post : α → List Token → Prop}
    (hf : ∀ e, Leads all Guarded (f e) post) : Leads all Guarded (grammar.expression >>= f) post :=
  operand_bind grammar_guarded grammar_guarded.expression hf

theorem names_leads {separator : Symbol} (h : (Lexeme.symbol separator).isHarmless = true) :
    Leads all Guarded (names separator) fun _ => Guarded := by
  unfold names nextName
  exact .repeatWhile (.bind (.name (·.concat rfl)) fun _ =>
    .acceptsLexeme (by simp) (·.concat h) id)

theorem asName_leads : Leads all Guarded asName fun _ => Guarded := by
  unfold asName
  exact .acceptKeyword (·.concat rfl) (.bind (.name (·.concat rfl)) fun _ => .pure id) (.pure id)

theorem imports_leads : Leads all Guarded imports fun _ => Guarded := by
  unfold imports nextImport
  exact .repeatWhile (.bind (names_leads rfl) fun _ => .bind asName_leads fun _ =>
    .acceptsLexeme (by simp) (·.concat rfl) id)

theorem importedNames_leads (parenthesized : Bool) :
    Leads all Guarded (importedNames parenthesized) fun _ => Guarded := by
  unfold importedNames nextImportedName
  refine .repeatWhile (.bind (.atSymbol _) fun _ => .ite (fun _ => .pure id) (fun _ => ?_))
  exact .bind (.name (·.concat rfl)) fun _ => .bind asName_leads fun _ =>
    .acceptsLexeme (by simp) (·.concat rfl) id

theorem isHarmless_of_isDots (l : Lexeme) (h : isDots l = true) : l.isHarmless = true := by
  rcases Bool.or_eq_true_iff.mp h with h | h
  all_goals
    rw [beq_iff_eq.mp h]
    rfl

theorem importsFrom_leads : Leads all Guarded importsFrom fun _ => Guarded := by
  have hdots : Leads all Guarded (acceptIf isDots) fun _ => Guarded :=
    .acceptsIf rfl (fun htest h => h.concat (isHarmless_of_isDots _ htest)) id
  have hopening : Leads all Guarded (accept (.opening .round)) fun _ => Guarded :=
    .acceptsLexeme (by simp) (·.concat rfl) id
  have hnames : Leads all Guarded (do
      expectKeyword .import_ .invalidSyntax
      unless ← accept .star do
        let parenthesized ← accept (.opening .round)
        importedNames parenthesized
        if parenthesized then expect (.closing .round)) fun _ => Guarded := by
    refine .bind (.expectKeyword _ (·.concat rfl)) fun _ => .accept (·.concat rfl) (.pure id) ?_
    refine .bind hopening fun _ => .bind (importedNames_leads _) fun _ =>
      .ite (fun _ => .expect (·.concat rfl)) (fun _ => .pure id)
  unfold importsFrom
  refine .bind .peek fun _ => .bind (.repeatWhile hdots) fun _ => .bind (.atKeyword _) fun _ =>
    .ite (fun _ => .ite (fun _ => hnames) (fun _ => .bind (.fail _) fun _ => hnames)) (fun _ => ?_)
  exact .bind (names_leads rfl) fun _ => hnames

/-- What is assigned may be a target, unless it is yielded. -/
theorem assigned_leads : Leads all Guarded assigned
    fun e read => Guarded read ∧ (e.form = .other ∨ Bindable read) := by
  unfold assigned
  refine LeadsAt.atKeyword ?_ ?_
  · exact (yieldExpression_leads grammar_guarded).mono id fun h => ⟨h.1, .inl h.2⟩
  · exact (starExpressions_leads grammar_guarded).mono id fun h => ⟨h.toGuarded, .inr h⟩

/-- The value of an assignment, whatever it is. -/
theorem value_leads : Leads all Guarded assigned fun _ => Guarded :=
  assigned_leads.mono id And.left

/-- Targets and a value have been read, and the value may become a target. -/
def Assigning (values : List Expr × Expr) (read : List Token) : Prop :=
  (∀ target ∈ values.1, target.form ≠ .other) →
    Guarded read ∧ (values.2.form = .other ∨ Bindable read)

/-- The value before an equals sign is a target from then on. -/
theorem nextValue_leads (values : List Expr × Expr) :
    Leads all (Assigning values) (nextValue values) (Next.Holds Assigning Assigning) := by
  obtain ⟨targets, value⟩ := values
  unfold nextValue
  have hnext : Leads all (fun read => (∀ target ∈ targets ++ [value], target.form ≠ .other) →
      Guarded read) assigned fun next => Assigning (targets ++ [value], next) :=
    assigned_leads.under _
  refine .accept (fun h hforms => ?_) (.bind hnext fun _ => .pure id) (.pure id)
  obtain ⟨htargets, hvalue⟩ := List.forall_mem_append.mp hforms
  exact ((h htargets).2.resolve_left (hvalue value List.mem_cons_self)).equal

theorem checkTargets_ensures (targets : List Expr) (ts : List Token) :
    Ensures (checkTargets targets) ts fun _ rest =>
      rest = ts ∧ ∀ target ∈ targets, unassignable? target.form = none := by
  induction targets with
  | nil => exact (ensures_pure _).mpr ⟨rfl, by simp⟩
  | cons target targets ih =>
    unfold checkTargets
    split
    case h_1 => exact (ensures_failAt _ _).mpr trivial
    case h_2 hnone =>
      exact ih.mono fun _ _ hrest => ⟨hrest.1, List.forall_mem_cons.mpr ⟨hnone, hrest.2⟩⟩

/-- Only what can be assigned to is in front of an equals sign. -/
theorem assignment_leads (line : Nat) (first : Expr) : Leads all
    (fun read => Guarded read ∧ (first.form = .other ∨ Bindable read)) (assignment line first)
      fun _ => Guarded := by
  have hvalues : Leads all (Assigning ([], first)) (loop nextValue ([], first)) Assigning :=
    .loop nextValue_leads _
  unfold assignment
  refine .bind (hvalues.mono (fun h _ => h) id) fun (targets, value) read ts hts => ?_
  rw [ensures_bind]
  refine (checkTargets_ensures targets ts).mono fun _ _ htargets => (ensures_pure _).mpr ?_
  obtain ⟨rfl, htargets⟩ := htargets
  refine ⟨read, hts, fun h => (h fun target hmem hother => ?_).1⟩
  have hnone := htargets target hmem
  rw [hother] at hnone
  cases hnone

theorem isHarmless_of_isAugmentedAssignment {symbol : Symbol}
    (h : symbol.isAugmentedAssignment = true) : (Lexeme.symbol symbol).isHarmless = true := by
  cases symbol <;> first | rfl | cases h

theorem expressionStatement_leads : Leads all Guarded expressionStatement fun _ => Guarded := by
  have hvalue : ∀ stmt : Stmt, Leads all Guarded (do
      let _ ← assigned
      pure stmt) fun _ => Guarded := fun _ => .bind value_leads fun _ => .pure id
  have hannotated : ∀ stmt : Stmt, LeadsAt all (.symbol .colon) Guarded (do
      advance
      let _ ← grammar.expression
      if ← accept .equal then
        let _ ← assigned
      pure stmt) fun _ => Guarded := by
    refine fun _ => .advance (by simp) (·.concat rfl) (.bind grammar_guarded.expression fun _ => ?_)
    exact .accept (·.bindable.equal) (hvalue _) (.pure Ended.guarded)
  have haugmented : ∀ {symbol : Symbol} (stmt : Stmt), symbol.isAugmentedAssignment = true →
      LeadsAt all (.symbol symbol) Guarded (do
        advance
        let _ ← assigned
        pure stmt) fun _ => Guarded := fun _ h =>
    .advance (by simp) (·.concat (isHarmless_of_isAugmentedAssignment h)) (hvalue _)
  unfold expressionStatement
  refine .bind .line fun _ => .bind assigned_leads fun first read ts hts => ?_
  rw [ensures_bind, ensures_peek]
  split
  case h_1 => exact assignment_leads _ _ read ts hts
  case h_2 hcolon =>
    rw [ensures_ite, ensures_failAt]
    exact ⟨fun _ => (hannotated _).mono And.left id read ts hts hcolon, fun _ => trivial⟩
  case h_3 symbol _ _ hsymbol =>
    rw [ensures_ite, ensures_ite, ensures_failAt, ensures_pure]
    refine ⟨fun h => ⟨fun _ => ?_, fun _ => trivial⟩, fun _ => ⟨read, hts, And.left⟩⟩
    exact (haugmented _ h).mono And.left id read ts hts hsymbol
  case h_4 => exact (ensures_pure _).mpr ⟨read, hts, And.left⟩

/-! ## Section 3: Small statements -/

theorem optionalExpressions_leads : Leads all Guarded optionalExpressions fun _ => Guarded := by
  unfold optionalExpressions
  refine .bind .peek fun _ => .ite (fun _ => ?_) (fun _ => .pure id)
  exact .bind (starExpressions_leads grammar_guarded) fun _ => .pure Bindable.toGuarded

theorem isHarmless_of_afterKeyword? {word : Keyword} {parser : Parser SimpleKind}
    (h : afterKeyword? word = some parser) : (Lexeme.keyword word).isHarmless = true := by
  cases word <;> first | rfl | cases h

theorem afterKeyword?_leads {word : Keyword} {parser : Parser SimpleKind}
    (h : afterKeyword? word = some parser) : Leads all Guarded parser fun _ => Guarded := by
  unfold afterKeyword? at h
  split at h
  case h_12 => cases h
  all_goals cases h
  case h_1 | h_2 | h_3 => exact .pure id
  case h_4 => exact .bind optionalExpressions_leads fun _ => .pure id
  case h_5 =>
    refine .bind .peek fun _ => .ite (fun _ => expression_bind fun _ => ?_) (fun _ => .pure id)
    exact .acceptKeyword (·.concat rfl) (expression_bind fun _ => .pure id) (.pure id)
  case h_6 | h_7 => exact .bind (names_leads rfl) fun _ => .pure id
  case h_8 => exact .bind (starExpressions_leads grammar_guarded) fun _ => .pure Bindable.toGuarded
  case h_9 =>
    refine expression_bind fun _ => .accept (·.concat rfl) ?_ (.pure id)
    exact expression_bind fun _ => .pure id
  case h_10 => exact .bind imports_leads fun _ => .pure id
  case h_11 => exact .bind importsFrom_leads fun _ => .pure id

/-- Nothing is read where type parameters might stand. -/
theorem typeParameters_ensures (huntyped : Untyped all) {owner : Token} {name : Text}
    {p : Position} (h : owner :: ⟨.name name, p⟩ :: ts <:+ all)
    (howner : owner.lexeme.takesTypeParameters = true) :
    Ensures typeParameters ts fun _ rest => rest = ts := by
  unfold typeParameters
  rw [ensures_bind, ensures_accept]
  refine ⟨fun hopening => ?_, fun _ => (ensures_pure _).mpr rfl⟩
  obtain ⟨q, hcons⟩ := eq_cons_of_front hopening (by simp)
  rw [hcons] at h
  rw [huntyped h] at howner
  cases howner

theorem typeAlias_leads (huntyped : Untyped all) {read ts : List Token} (hts : read ++ ts = all)
    (h : atTypeAlias ts = .ok (true, ts)) : Ensures typeAlias ts fun _ rest =>
      ∃ read', read' ++ rest = all ∧ (Guarded read → Guarded read') := by
  obtain ⟨p, name, q, us, rfl⟩ := names_of_atTypeAlias h
  have hsuffix : ⟨.name SoftKeyword.type_, p⟩ :: ⟨.name name, q⟩ :: us <:+ all := ⟨read, hts⟩
  have hvalue : Leads all Ended (do
      expect .equal
      let _ ← grammar.expression) fun _ => Guarded :=
    .bind (.expect (·.bindable.equal)) fun _ => expression_bind fun _ => .pure id
  unfold typeAlias
  rw [ensures_bind, ensures_advance, ensures_bind, ensures_name]
  rintro _ -
  rw [ensures_bind]
  refine (typeParameters_ensures huntyped hsuffix rfl).mono fun _ _ hmid => ?_
  subst hmid
  rw [List.append_cons] at hts
  exact hvalue.behind hts rfl fun h => (h.concat rfl).ended rfl

theorem smallStatement_leads (huntyped : Untyped all) :
    Leads all Guarded smallStatement fun _ => Guarded := by
  intro read ts hts
  unfold smallStatement
  obtain ⟨found, hfound⟩ := atTypeAlias_eq_ok ts
  rw [ensures_bind, ensures_line, ensures_bind]
  intro found' mid hread
  rw [hfound] at hread
  cases hread
  cases found with
  | true =>
    rw [if_pos rfl, ensures_bind]
    exact (typeAlias_leads huntyped hts hfound).mono fun _ _ hrest => (ensures_pure _).mpr hrest
  | false =>
    rw [if_neg Bool.false_ne_true, ensures_bind, ensures_peek]
    split
    case h_1 parser hparser =>
      unfold keywordStatement? at hparser
      split at hparser
      case h_1 word hword =>
        have hharmless := isHarmless_of_afterKeyword? hparser
        refine LeadsAt.here (.advance (by simp) (·.concat hharmless) ?_) hts hword
        exact .bind (afterKeyword?_leads hparser) fun _ => .pure id
      case h_2 => cases hparser
    case h_2 => exact expressionStatement_leads read ts hts

/-- The targets of an assignment have been looked at. -/
theorem smallStatement_bindsTargets : Makes smallStatement Stmt.BindsTargets := by
  have hfailAt : ∀ at_ fault, Makes (failAt at_ fault : Parser Stmt) Stmt.BindsTargets :=
    fun _ _ _ => (ensures_failAt _ _).mpr trivial
  have hassignment : ∀ line first, Makes (assignment line first) Stmt.BindsTargets := by
    refine fun line first => .bind fun (targets, value) mid => ?_
    rw [ensures_bind]
    exact (checkTargets_ensures targets mid).mono fun _ _ htargets =>
      (ensures_pure _).mpr htargets.2
  have hexpression : Makes expressionStatement Stmt.BindsTargets := by
    unfold expressionStatement
    refine .bind fun line => .bind fun first => .bind fun l => ?_
    split
    · exact hassignment _ _
    · refine .ite (.bind fun _ => .bind fun _ => .bind fun _ => ?_) (hfailAt _ _)
      exact .ite (.bind fun _ => .pure trivial) (.pure trivial)
    · refine .ite (.ite ?_ (hfailAt _ _)) (.pure trivial)
      exact .bind fun _ => .bind fun _ => .pure trivial
    · exact .pure trivial
  unfold smallStatement
  refine .bind fun _ => .bind fun _ => .ite (.bind fun _ => .pure trivial) (.bind fun _ => ?_)
  split
  · exact .bind fun _ => .bind fun _ => .pure trivial
  · exact hexpression

theorem withItem_leads : Leads all Guarded withItem fun _ => Guarded := by
  unfold withItem
  refine expression_bind fun _ => .acceptKeyword (·.concat rfl) ?_ (.pure id)
  exact operand_bind grammar_guarded grammar_guarded.operand fun _ => .pure id

theorem withItems_leads : Leads all Guarded withItems fun _ => Guarded := by
  have hcomma : Leads all Guarded (do
      withItem
      accept .comma) fun _ => Guarded :=
    .bind withItem_leads fun _ => .acceptsLexeme (by simp) (·.concat rfl) id
  have hgroup : Leads all Guarded (do
      repeatWhile do
        if ← atSymbol (.closing .round) then pure false
        else
          withItem
          accept .comma
      expect (.closing .round)) fun _ => Guarded :=
    .bind (.repeatWhile (.bind (.atSymbol _) fun _ => .ite (fun _ => .pure id) (fun _ => hcomma)))
      fun _ => .expect (·.concat rfl)
  intro read ts hts
  unfold withItems nextGroupedItem nextWithItem
  rw [ensures_bind, ensures_remaining, ensures_bind, ensures_atSymbol, ensures_ite]
  refine ⟨fun hgrouped => ?_, fun _ => Leads.repeatWhile hcomma read ts hts⟩
  have hopen := of_decide_eq_true (Bool.and_eq_true_iff.mp hgrouped).1
  exact LeadsAt.here (.advance (by simp) (·.concat rfl) hgroup) hts hopen

/-! ## Section 4: Suites -/

variable (huntyped : Untyped all)

include huntyped

theorem simpleStatements_leads : Leads all Guarded simpleStatements fun _ => Guarded := by
  have hnext : ∀ read, Leads all Guarded (nextSmall read) fun _ => Guarded := by
    intro read
    unfold nextSmall
    refine .bind (smallStatement_leads huntyped) fun _ => .accept (·.concat rfl) ?_ (.pure id)
    exact .bind .peek fun _ => .ite (fun _ => .pure id) (fun _ => .pure id)
  unfold simpleStatements
  exact .bind (.loop_same hnext _) fun _ =>
    .bind (.expectNewline _ (·.concat rfl)) fun _ => .pure id

omit huntyped in
theorem statementsUntil_leads {statement : Parser (List Stmt)}
    (hstatement : ∀ c, Leads all (Under c) statement fun stmts => Under (c ∧ Matchless stmts))
    (ends : Lexeme → Bool) (c : Prop) : Leads all (Under c) (statementsUntil ends statement)
      fun stmts => Under (c ∧ Matchless stmts) := by
  have hnext : ∀ read : List Stmt, Leads all (Under (c ∧ Matchless read.reverse))
      (nextStatement ends statement read)
      (Next.Holds (fun read => Under (c ∧ Matchless read.reverse))
        fun stmts => Under (c ∧ Matchless stmts)) := by
    intro read
    unfold nextStatement
    refine .bind .peek fun _ => .ite (fun _ => .pure id) (fun _ => ?_)
    refine .bind (hstatement _) fun stmts => .pure fun h hc => ?_
    rw [List.reverse_append, List.reverse_reverse, Matchless.append_iff] at hc
    exact h ⟨⟨hc.1, hc.2.1⟩, hc.2.2⟩
  exact (Leads.loop hnext []).mono (fun h hc => h hc.1) id

variable {p : StatementParsers} (hp : p.Guide all)

include hp

theorem suite_leads (c : Prop) :
    Leads all (Under c) (suite p) fun stmts => Under (c ∧ Matchless stmts) := by
  have hline : Leads all (Under c) simpleStatements fun stmts => Under (c ∧ Matchless stmts) :=
    ((simpleStatements_leads huntyped).under c).mono id fun h hc => h hc.1
  have hblock := statementsUntil_leads hp.statement endsBlock c
  unfold suite
  refine .acceptLexeme (by simp) (·.concat rfl)
    (.acceptLexeme (by simp) (·.concat rfl) ?_ (.fail _)) hline
  exact .bind hblock fun _ => .bind (.acceptsLexeme (by simp) (·.concat rfl) id) fun _ => .pure id

theorem body_leads (c : Prop) :
    Leads all (Under c) (body p) fun stmts => Under (c ∧ Matchless stmts) := by
  unfold body
  exact .bind (.expect (·.concat rfl)) fun _ => suite_leads huntyped hp c

/-- A statement with a body only. -/
theorem owner_leads {α : Type} {make : List Stmt → α} (owner : α → Stmt) (c : Prop)
    (hbelow : ∀ inner, (owner (make inner)).children = inner) : Leads all (Under c) (do
      let inner ← body p
      pure (make inner)) fun a => Under (c ∧ Matchless [owner a]) :=
  .bind (body_leads huntyped hp c) fun inner => .pure fun h hc =>
    h ⟨hc.1, hbelow inner ▸ hc.2.children⟩

theorem optionalBody_leads {word : Keyword} (hword : (Lexeme.keyword word).isHarmless = true)
    (c : Prop) : Leads all (Under c) (optionalBody p word)
      fun stmts => Under (c ∧ Matchless (stmts.getD [])) := by
  unfold optionalBody
  refine .acceptKeyword (·.concat hword) ?_ (.pure fun h hc => h hc.1)
  exact .bind (body_leads huntyped hp c) fun _ => .pure id

/-! ## Section 5: Compound statements -/

theorem alternative_leads (c : Prop) :
    Leads all (Under c) (alternative p) fun stmts => Under (c ∧ Matchless stmts) := by
  unfold alternative
  refine LeadsAt.atKeyword ?_ ?_
  · exact .bind (hp.conditional c rfl) fun _ => .pure id
  · exact .bind (optionalBody_leads huntyped hp rfl c) fun _ => .pure id

/-- A body and what hangs on it. -/
theorem block_leads {α : Type} {line : Nat} {block : BlockKind} {hanging : Parser α}
    {below : α → List Stmt} (c : Prop)
    (hhanging : ∀ c, Leads all (Under c) hanging fun a => Under (c ∧ Matchless (below a))) :
    Leads all (Under c) (do
      let first ← body p
      let last ← hanging
      pure (Stmt.block line block (first ++ below last)))
        fun stmt => Under (c ∧ Matchless [stmt]) := by
  refine .bind (body_leads huntyped hp c) fun first => .bind (hhanging _) fun last =>
    .pure fun h hc => ?_
  obtain ⟨hfirst, hlast⟩ := Matchless.append_iff.mp hc.2.children
  exact h ⟨⟨hc.1, hfirst⟩, hlast⟩

theorem conditional_leads (c : Prop) {l : Lexeme} (hl : l.isHarmless = true) :
    LeadsAt all l (Under c) (conditional p) fun stmt => Under (c ∧ Matchless [stmt]) := by
  have htest : Leads all (Under c) (namedExpression grammar) fun _ => Under c :=
    ((namedExpression_leads grammar_guarded).mono id Ended.guarded).under c
  unfold conditional
  refine .line fun _ => .advance ?_ (·.concat hl) (.bind htest fun _ => ?_)
  · rintro rfl
    cases hl
  · exact block_leads huntyped hp c (alternative_leads huntyped hp)

theorem whileLoop_leads (c : Prop) : LeadsAt all (.keyword .while_) (Under c) (whileLoop p)
    fun stmt => Under (c ∧ Matchless [stmt]) := by
  have htest : Leads all (Under c) (namedExpression grammar) fun _ => Under c :=
    ((namedExpression_leads grammar_guarded).mono id Ended.guarded).under c
  unfold whileLoop
  refine .line fun _ => .advance (by simp) (·.concat rfl) (.bind htest fun _ => ?_)
  exact block_leads huntyped hp c (optionalBody_leads huntyped hp rfl)

theorem forLoop_leads {line : Nat} {isAsync : Bool} (c : Prop) :
    LeadsAt all (.keyword .for_) (Under c) (forLoop p line isAsync)
      fun stmt => Under (c ∧ Matchless [stmt]) := by
  have htargets : Leads all (Under c) (targets grammar) fun _ => Under c :=
    (targets_leads grammar_guarded).under c
  have hvalues : Leads all (Under c) (starExpressions grammar) fun _ => Under c :=
    ((starExpressions_leads grammar_guarded).mono id Bindable.toGuarded).under c
  unfold forLoop
  refine .advance (by simp) (·.concat rfl) (.bind htargets fun _ =>
    .bind (.expectKeyword _ (·.concat rfl)) fun _ => .bind hvalues fun _ => ?_)
  exact block_leads huntyped hp c (optionalBody_leads huntyped hp rfl)

theorem handler_leads (c : Prop) : LeadsAt all (.keyword .except_) (Under c) (handler p)
    fun read => Under (c ∧ Matchless [read.1]) := by
  have hhandled : ∀ (line : Nat) (star : Bool), Leads all (Under c) (do
      let handled ← body p
      pure (Stmt.block line .handler handled, star)) fun read => Under (c ∧ Matchless [read.1]) :=
    fun _ _ => owner_leads huntyped hp Prod.fst c fun _ => rfl
  have hstar : Leads all (Under c) (accept .star) fun _ => Under c :=
    .acceptsLexeme (by simp) (·.concat rfl) id
  have hcaught : Leads all (Under c) grammar.expression fun _ => Under c :=
    (grammar_guarded.expression.mono id Ended.guarded).under c
  unfold handler
  refine .line fun _ => .advance (by simp) (·.concat rfl) (.bind hstar fun star =>
    .bind (.atSymbol _) fun _ => ?_)
  refine .ite (fun _ => hhandled _ star) (fun _ => ?_)
  exact .bind hcaught fun _ => .bind (asName_leads.under c) fun _ => hhandled _ star

theorem handlers_leads (c : Prop) : Leads all (Under c) (loop (nextHandler p) ([], false))
    fun read => Under (c ∧ Matchless read.1) := by
  have hnext : ∀ read : List Stmt × Bool, Leads all (Under (c ∧ Matchless read.1))
      (nextHandler p read) (Next.Holds (fun read => Under (c ∧ Matchless read.1))
        fun read => Under (c ∧ Matchless read.1)) := by
    intro read
    unfold nextHandler
    refine LeadsAt.atKeyword (.bind (handler_leads huntyped hp _) fun next => ?_) (.pure id)
    refine .pure fun h hc => ?_
    obtain ⟨hread, hnext⟩ := Matchless.append_iff.mp hc.2
    exact h ⟨⟨hc.1, hread⟩, hnext⟩
  exact (Leads.loop hnext _).mono (fun h hc => h hc.1) id

theorem tryBlock_leads (c : Prop) : LeadsAt all (.keyword .try_) (Under c) (tryBlock p)
    fun stmt => Under (c ∧ Matchless [stmt]) := by
  unfold tryBlock
  refine .line fun line => .advance (by simp) (·.concat rfl)
    (.bind (body_leads huntyped hp c) fun first =>
      .bind (handlers_leads huntyped hp _) fun (handlers, star) => ?_)
  -- The alternative is optional like the final block, or left out.
  have hfinal : ∀ q : Parser (Option (List Stmt)),
      (∀ c, Leads all (Under c) q fun stmts => Under (c ∧ Matchless (stmts.getD []))) →
      Leads all (Under ((c ∧ Matchless first) ∧ Matchless handlers)) (do
        let alternative ← q
        let final ← optionalBody p .finally_
        if handlers.isEmpty && final.isNone then fail .missingHandler
        else pure (Stmt.block line (.tryBlock star)
          (first ++ handlers ++ alternative.getD [] ++ final.getD [])))
        fun stmt => Under (c ∧ Matchless [stmt]) := by
    refine fun q hq => .bind (hq _) fun alternative =>
      .bind (optionalBody_leads huntyped hp rfl _) fun final =>
      .ite (fun _ => .fail _) (fun _ => .pure fun h hc => ?_)
    obtain ⟨hfront, hlast⟩ := Matchless.append_iff.mp hc.2.children
    obtain ⟨hfront, halternative⟩ := Matchless.append_iff.mp hfront
    obtain ⟨hfirst, hhandlers⟩ := Matchless.append_iff.mp hfront
    exact h ⟨⟨⟨⟨hc.1, hfirst⟩, hhandlers⟩, halternative⟩, hlast⟩
  have hnothing : ∀ c, Leads all (Under c) (pure none)
      fun stmts : Option (List Stmt) => Under (c ∧ Matchless (stmts.getD [])) :=
    fun c => .pure fun h hc => h hc.1
  exact .ite (fun _ => hfinal _ hnothing) (fun _ => hfinal _ (optionalBody_leads huntyped hp rfl))

theorem withBlock_leads {line : Nat} {isAsync : Bool} (c : Prop) :
    LeadsAt all (.keyword .with_) (Under c) (withBlock p line isAsync)
      fun stmt => Under (c ∧ Matchless [stmt]) := by
  unfold withBlock
  refine .advance (by simp) (·.concat rfl) (.bind (withItems_leads.under c) fun _ => ?_)
  exact owner_leads huntyped hp id c fun _ => rfl

omit hp in
/-- The keyword of a definition and its name are read together. -/
theorem definition_leads {word : Keyword} {f : Text → Parser Stmt} {pre : List Token → Prop}
    (mid : List Token → Prop) {post : Stmt → List Token → Prop}
    (hword : (Lexeme.keyword word).opensDefinition = true)
    (hmid : ∀ {read p x q}, pre read → mid (read ++ [⟨.keyword word, p⟩] ++ [⟨.name x, q⟩]))
    (hf : ∀ x, Leads all mid (f x) post) : LeadsAt all (.keyword word) pre (do
      advance
      let name ← name
      typeParameters
      f name) post := by
  intro read ts hts hfront
  rw [ensures_bind, ensures_advance, ensures_bind, ensures_name]
  intro x hx
  obtain ⟨p, hcons⟩ := eq_cons_of_front hfront (by simp)
  obtain ⟨q, htail⟩ := eq_cons_of_front hx (by simp)
  have hsuffix : ⟨.keyword word, p⟩ :: ⟨.name x, q⟩ :: ts.tail.tail <:+ all :=
    ⟨read, by rw [← htail, ← hcons, hts]⟩
  rw [ensures_bind]
  refine (typeParameters_ensures huntyped hsuffix (Bool.or_eq_true_iff.mpr (.inl hword))).mono
    fun _ us hus => ?_
  subst hus
  rw [hcons, List.append_cons] at hts
  exact (hf x).behind hts htail hmid

theorem functionDef_leads {line : Nat} {isAsync : Bool} (c : Prop) :
    LeadsAt all (.keyword .def_) (Under c) (functionDef p line isAsync)
      fun stmt => Under (c ∧ Matchless [stmt]) := by
  have hparameters : Leads all (Under c) (parameters grammar (.closing .round) true)
      fun _ => Under c :=
    (parameters_leads grammar_guarded _ (typeHint_leads grammar_guarded true)).under c
  have hresult : Leads all (Under c) grammar.expression fun _ => Under c :=
    (grammar_guarded.expression.mono id Ended.guarded).under c
  unfold functionDef
  refine definition_leads huntyped (Under c) rfl (fun h hc => (h hc).definition rfl) fun name => ?_
  have hbody : ∀ params, Leads all (Under c) (do
      let inner ← body p
      pure (Stmt.functionDef line isAsync name params inner))
        fun stmt => Under (c ∧ Matchless [stmt]) :=
    fun _ => owner_leads huntyped hp id c fun _ => rfl
  refine .bind (.expect (·.concat rfl)) fun _ => .bind hparameters fun params =>
    .bind (.expect (·.concat rfl)) fun _ => .accept (·.concat rfl) ?_ (hbody _)
  exact .bind hresult fun _ => hbody _

/-- The arguments of a class are those of a call. -/
theorem classDef_leads {line : Nat} (c : Prop) :
    LeadsAt all (.keyword .class_) (Under c) (classDef p line)
      fun stmt => Under (c ∧ Matchless [stmt]) := by
  have hbases : Leads all (fun read => c → Ended read) (arguments grammar) fun _ => Under c :=
    ((arguments_leads grammar_guarded grammar_balance).mono id Ended.guarded).under c
  unfold classDef
  refine definition_leads huntyped (fun read => c → Ended read) rfl
    (fun h hc => ((h hc).concat rfl).ended rfl) fun name => ?_
  have hbody : Leads all (Under c) (do
      let inner ← body p
      pure (Stmt.classDef line name inner)) fun stmt => Under (c ∧ Matchless [stmt]) :=
    owner_leads huntyped hp id c fun _ => rfl
  refine .bind (.atSymbol _) fun _ => .ite (fun _ => .bind hbases fun _ => hbody) (fun _ => ?_)
  exact hbody.mono (fun h hc => (h hc).guarded) id

theorem decorated_leads (c : Prop) : Leads all (Under c) (decorated p)
    fun stmt => Under (c ∧ Matchless [stmt]) := by
  have hdecorator : Leads all (Under c) (namedExpression grammar) fun _ => Under c :=
    ((namedExpression_leads grammar_guarded).mono id Ended.guarded).under c
  have hdecorators : Leads all (Under c) (repeatWhile do
      if ← accept .atSign then
        let _ ← namedExpression grammar
        expectNewline .invalidSyntax
        pure true
      else pure false) fun _ => Under c := by
    refine .repeatWhile (.accept (·.concat rfl) (.bind hdecorator fun _ => ?_) (.pure id))
    exact .bind (.expectNewline _ (·.concat rfl)) fun _ => .pure id
  unfold decorated nextDecorator
  refine .bind hdecorators fun _ => .bind .line fun line read ts hts => ?_
  rw [ensures_bind, ensures_peekSecond, ensures_bind, ensures_peek]
  split
  case h_1 hdef => exact functionDef_leads huntyped hp c read ts hts hdef
  case h_2 hclass => exact classDef_leads huntyped hp c read ts hts hclass
  case h_3 hasync =>
    rw [ensures_ite, ensures_fail, ensures_bind, ensures_advance]
    refine ⟨fun hdef => ?_, fun _ => trivial⟩
    obtain ⟨q, hcons⟩ := eq_cons_of_front hasync (by simp)
    rw [hcons, List.append_cons] at hts
    refine (functionDef_leads huntyped hp c _ _ hts (beq_iff_eq.mp hdef)).mono fun _ _ hrest => ?_
    obtain ⟨read', hall, hread⟩ := hrest
    exact ⟨read', hall, fun h => hread (h.concat rfl)⟩
  case h_4 => exact (ensures_fail _).mpr trivial

theorem asyncStatement_leads (c : Prop) : LeadsAt all (.keyword .async_) (Under c)
    (asyncStatement p) fun stmt => Under (c ∧ Matchless [stmt]) := by
  unfold asyncStatement
  refine .line fun line => .advance (by simp) (·.concat rfl) fun read ts hts => ?_
  rw [ensures_bind, ensures_peek]
  split
  case h_1 hdef => exact functionDef_leads huntyped hp c read ts hts hdef
  case h_2 hfor => exact forLoop_leads huntyped hp c read ts hts hfor
  case h_3 hwith => exact withBlock_leads huntyped hp c read ts hts hwith
  case h_4 => exact (ensures_fail _).mpr trivial

/-! ## Section 6: Matching -/

/-- Nothing is known of the tokens of a `match`, and nothing has to be. -/
theorem matchBlock_leads (c : Prop) : LeadsAt all (.name SoftKeyword.match_) (Under c)
    (matchBlock p) fun stmt => Under (c ∧ Matchless [stmt]) := by
  have hnothing : ∀ {read}, Under False read := fun h => h.elim
  have hsubject : Leads all (Under False) (starExpressions grammar) fun _ => Under False :=
    ((starExpressions_leads grammar_guarded).mono id Bindable.toGuarded).under False
  have hpattern : Leads all (Under False) (skipPattern true 0) fun _ => Under False := by
    intro read ts hts
    refine (skipPattern_ensures true 0 ts).mono fun _ rest hrest => ?_
    obtain ⟨pattern, q, rfl, _⟩ := hrest
    exact ⟨read ++ (pattern ++ [⟨.symbol .colon, q⟩]), by simpa using hts, fun _ => hnothing⟩
  have hcase : LeadsAt all (.name SoftKeyword.case_) (Under False) (matchCase p)
      fun _ => Under False := by
    unfold matchCase
    refine .line fun _ => .advance (by simp) (fun _ => hnothing) (.bind hpattern fun _ => ?_)
    exact .bind (suite_leads huntyped hp False) fun _ => .pure fun _ => hnothing
  have hcases : Leads all (Under False) (loop (nextCase p) []) fun _ => Under False := by
    refine .loop_same (fun _ read ts hts => ?_) _
    unfold nextCase
    rw [ensures_bind, ensures_peek, ensures_ite, ensures_pure, ensures_bind]
    refine ⟨fun hfront => ?_, fun _ => ⟨read, hts, id⟩⟩
    exact (hcase read ts hts (beq_iff_eq.mp hfront)).mono fun _ _ hrest =>
      (ensures_pure _).mpr hrest
  unfold matchBlock
  refine .line fun line => .advance (by simp) (fun _ => hnothing)
    (.bind hsubject fun _ => .bind (.expect fun _ => hnothing) fun _ =>
      .bind (.expectNewline _ fun _ => hnothing) fun _ => ?_)
  refine .acceptLexeme (by simp) (fun _ => hnothing) (.bind hcases fun _ => ?_) (.fail _)
  refine .ite (fun _ => .fail _)
    (fun _ => .acceptLexeme (by simp) (fun _ => hnothing) ?_ (.fail _))
  exact .pure fun _ hc => absurd hc.2 Matchless.not_match

/-! ## Section 7: The knot -/

theorem compound?_leads {parser : Parser Stmt} {l : Lexeme} (c : Prop)
    (hparser : compound? p l = some parser) :
    LeadsAt all l (Under c) parser fun stmt => Under (c ∧ Matchless [stmt]) := by
  unfold compound? at hparser
  split at hparser
  case h_11 => cases hparser
  all_goals cases hparser
  case h_1 => exact conditional_leads huntyped hp c rfl
  case h_2 => exact whileLoop_leads huntyped hp c
  case h_3 => exact .line fun _ => forLoop_leads huntyped hp c
  case h_4 => exact tryBlock_leads huntyped hp c
  case h_5 => exact .line fun _ => withBlock_leads huntyped hp c
  case h_6 => exact .line fun _ => functionDef_leads huntyped hp c
  case h_7 => exact .line fun _ => classDef_leads huntyped hp c
  case h_8 => exact asyncStatement_leads huntyped hp c
  case h_9 => exact fun read ts hts _ => decorated_leads huntyped hp c read ts hts
  case h_10 => exact .fail _

theorem statement_leads (c : Prop) :
    Leads all (Under c) (statement p) fun stmts => Under (c ∧ Matchless stmts) := by
  have hsingle : ∀ {l : Lexeme} {parser : Parser Stmt},
      LeadsAt all l (Under c) parser (fun stmt => Under (c ∧ Matchless [stmt])) →
      LeadsAt all l (Under c) (do
        let stmt ← parser
        pure [stmt]) fun stmts => Under (c ∧ Matchless stmts) := fun h => .bind h fun _ => .pure id
  have hline : Leads all (Under c) simpleStatements fun stmts => Under (c ∧ Matchless stmts) :=
    ((simpleStatements_leads huntyped).under c).mono id fun h hc => h hc.1
  intro read ts hts
  unfold statement
  rw [ensures_bind]
  refine (atMatch_ensures ts).mono fun found _ hfound => ?_
  obtain ⟨rfl, hfound⟩ := hfound
  rw [ensures_ite]
  refine ⟨fun hmatch => ?_, fun _ => ?_⟩
  · have hword := beq_iff_eq.mp (hfound hmatch)
    exact hsingle (matchBlock_leads huntyped hp c) read _ hts hword
  rw [ensures_bind, ensures_peek]
  split
  case h_1 parser hparser =>
    exact hsingle (compound?_leads huntyped hp c hparser) read _ hts rfl
  case h_2 => exact hline read _ hts

omit hp in
theorem statementsUpTo_guide (fuel : List Token) : (statementsUpTo fuel).Guide all := by
  induction fuel with
  | nil => exact ⟨fun _ => .spent, fun _ _ _ => .spent⟩
  | cons _ fuel ih => exact ⟨statement_leads huntyped ih, conditional_leads huntyped ih⟩

omit hp in
/-- The statements of a source leave all of its tokens guarded. -/
theorem guarded_of_statements {m : List Stmt} {rest : List Token} (hmatch : Matchless m)
    (h : statementsUntil (· == .endMarker) statementGrammar.statement all = .ok (m, rest)) :
    ∃ read, read ++ rest = all ∧ Guarded read := by
  have hstatement : ∀ c, Leads all (Under c) statementGrammar.statement
      fun stmts => Under (c ∧ Matchless stmts) := fun c read ts hts =>
    (statement_leads huntyped (statementsUpTo_guide huntyped ts) c read ts hts).congr rfl
  obtain ⟨read, hall, hread⟩ := statementsUntil_leads hstatement _ True [] all rfl m rest h
  exact ⟨read, hall, hread (fun _ => .nil) ⟨trivial, hmatch⟩⟩

end Grammar

/-! ## Section 8: The whole source -/

/-- No square bracket at all. -/
theorem Untyped.of_notMem (h : .symbol (.opening .square) ∉ all.map (·.lexeme)) : Untyped all := by
  intro owner name p q behind hsuffix
  have hmem := hsuffix.subset (List.mem_cons_of_mem _ (List.mem_cons_of_mem _ List.mem_cons_self))
  exact absurd (List.mem_map_of_mem hmem) h

namespace Module

variable {source : Text} {m : Module} {tokens : List Token}

/-- What an equals sign stands behind in a source. -/
theorem equalsGuarded_of_ofSource (h : ofSource source = .ok m)
    (htokens : tokenize source = .ok tokens) (hmatch : Matchless m) (huntyped : Untyped tokens) :
    EqualsGuarded tokens := by
  obtain ⟨tokens', htokens', htree⟩ := ofSource_eq_ok h
  rw [htokens, Except.ok.injEq] at htokens'
  subst htokens'
  obtain ⟨rest, hread⟩ := ofTokens_eq_ok htree
  rw [withEndMarker_of_tokenize htokens] at hread
  have hend : (front rest).lexeme = .endMarker :=
    beq_iff_eq.mp (Grammar.statementsUntil_ends _ _ _ m rest hread)
  obtain ⟨read, rfl, hguarded⟩ := Grammar.guarded_of_statements huntyped hmatch hread
  obtain ⟨inner, p, hinner, hne⟩ := Scan.eq_concat_endMarker htokens
  -- What is left is the end marker.
  rcases List.eq_nil_or_concat rest with rfl | ⟨us, last, rfl⟩
  · rw [List.append_nil]
    exact hguarded.equals
  · rw [List.concat_eq_append, ← List.append_assoc] at hinner ⊢
    obtain ⟨rfl, hlast⟩ := List.append_inj' hinner rfl
    cases us with
    | nil =>
      rw [List.append_nil, hlast]
      exact hguarded.equals.concat nofun
    | cons t us => exact absurd hend (hne t (by simp))

/-- **What equals signs bind.**  A keyword in front of an equals sign is a
    constant, or else the name of an argument, so no target and no parameter
    is a reserved word.  Whatever is assigned to can be assigned to. -/
theorem keywords_unbound (h : ofSource source = .ok m) (htokens : tokenize source = .ok tokens)
    (hmatch : Matchless m) (huntyped : Untyped tokens) :
    (∀ before word p q after,
      tokens = before ++ ⟨.keyword word, p⟩ :: ⟨.symbol .equal, q⟩ :: after →
      word.isConstant = true ∨ IsArgumentPlace before) ∧
    ∀ line targets value, .assign line targets value ∈ nodes m →
      ∀ target ∈ targets, Grammar.unassignable? target.form = none := by
  refine ⟨fun before word p q after hsplit => ?_, fun line targets value hmem => ?_⟩
  · have hequals := equalsGuarded_of_ofSource h htokens hmatch huntyped
    refine (hequals before _ q after hsplit).imp_left fun hreserved => ?_
    simpa [Lexeme.isReserved] using hreserved
  · obtain ⟨_, _, hintroduces⟩ := introduces_of_ofSource h
    obtain ⟨us, hstmt, _⟩ := hintroduces _ hmem
    cases hstmt with
    | assign hread => exact Grammar.smallStatement_bindsTargets _ _ _ hread

/-- The argument `if` of a call, behind a lambda with a default of its own. -/
theorem keyword_argument_of_call :
    ∃ m tokens behind, ofSource (ascii "x = f(lambda a=1: a, if=2)\n") = .ok m ∧
      tokenize (ascii "x = f(lambda a=1: a, if=2)\n") = .ok tokens ∧ Matchless m ∧
      Untyped tokens ∧
      tokens.drop 11 = ⟨.keyword .if_, ⟨1, 22⟩⟩ :: ⟨.symbol .equal, ⟨1, 24⟩⟩ :: behind ∧
      IsArgumentPlace (tokens.take 11) ∧
      ∀ line targets value, .assign line targets value ∈ nodes m →
        ∀ target ∈ targets, Grammar.unassignable? target.form = none := by
  let tokens : List Token :=
    [⟨.name (ascii "x"), ⟨1, 1⟩⟩, ⟨.symbol .equal, ⟨1, 3⟩⟩, ⟨.name (ascii "f"), ⟨1, 5⟩⟩,
      ⟨.symbol (.opening .round), ⟨1, 6⟩⟩, ⟨.keyword .lambda_, ⟨1, 7⟩⟩,
      ⟨.name (ascii "a"), ⟨1, 14⟩⟩,
      ⟨.symbol .equal, ⟨1, 15⟩⟩, ⟨.number (ascii "1"), ⟨1, 16⟩⟩, ⟨.symbol .colon, ⟨1, 17⟩⟩,
      ⟨.name (ascii "a"), ⟨1, 19⟩⟩, ⟨.symbol .comma, ⟨1, 20⟩⟩, ⟨.keyword .if_, ⟨1, 22⟩⟩,
      ⟨.symbol .equal, ⟨1, 24⟩⟩, ⟨.number (ascii "2"), ⟨1, 25⟩⟩,
      ⟨.symbol (.closing .round), ⟨1, 26⟩⟩, ⟨.newline, ⟨1, 27⟩⟩, ⟨.endMarker, ⟨2, 1⟩⟩]
  have htokens : tokenize (ascii "x = f(lambda a=1: a, if=2)\n") = .ok tokens := rfl
  have hread : ofSource (ascii "x = f(lambda a=1: a, if=2)\n") =
      .ok [.assign 1 [⟨.name (ascii "x"), ⟨1, 1⟩⟩] ⟨.call, ⟨1, 5⟩⟩] := by decide +kernel
  have hmatch : Matchless [.assign 1 [⟨.name (ascii "x"), ⟨1, 1⟩⟩] ⟨.call, ⟨1, 5⟩⟩] := by
    intro stmt hmem
    obtain rfl := List.mem_singleton.mp hmem
    rfl
  have huntyped : Untyped tokens := Untyped.of_notMem (by decide)
  have hbound := keywords_unbound hread htokens hmatch huntyped
  refine ⟨_, tokens, _, hread, htokens, hmatch, huntyped, rfl, ?_, hbound.2⟩
  exact (hbound.1 (tokens.take 11) .if_ ⟨1, 22⟩ ⟨1, 24⟩ _ rfl).resolve_left (by decide)

/-- Nobody asks for the keywords among the names of arguments. -/
theorem keyword_argument_accepted :
    ¬∀ (source : Text) (m : Module) (tokens : List Token), ofSource source = .ok m →
      tokenize source = .ok tokens → Matchless m → Untyped tokens →
      ∀ before word p q after,
        tokens = before ++ ⟨.keyword word, p⟩ :: ⟨.symbol .equal, q⟩ :: after →
        word.isConstant = true := by
  intro h
  have hmatch : Matchless [.simple 1 .expression] := by
    intro stmt hmem
    obtain rfl := List.mem_singleton.mp hmem
    rfl
  have hconstant := h (ascii "f(if=1)\n") [.simple 1 .expression]
    [⟨.name (ascii "f"), ⟨1, 1⟩⟩, ⟨.symbol (.opening .round), ⟨1, 2⟩⟩, ⟨.keyword .if_, ⟨1, 3⟩⟩,
      ⟨.symbol .equal, ⟨1, 5⟩⟩, ⟨.number (ascii "1"), ⟨1, 6⟩⟩,
      ⟨.symbol (.closing .round), ⟨1, 7⟩⟩, ⟨.newline, ⟨1, 8⟩⟩, ⟨.endMarker, ⟨2, 1⟩⟩]
    (by decide +kernel) rfl hmatch (Untyped.of_notMem (by decide))
    [⟨.name (ascii "f"), ⟨1, 1⟩⟩, ⟨.symbol (.opening .round), ⟨1, 2⟩⟩] .if_ ⟨1, 3⟩ ⟨1, 5⟩ _ rfl
  cases hconstant

/-- A parameter is looked at, also among the arguments of a call. -/
example : ofSource (ascii "f(lambda a, if=1: 0)\n") = .error ⟨⟨1, 13⟩, .invalidSyntax⟩ := by decide +kernel

end Module

end StyleCheck
