import StyleCheck.Proofs.Parsing.Balance

/-! # In Front of an Equals Sign

    An equals sign stands behind what it gives a value to: a target, an
    annotated one, a parameter, or the name of an argument.  Each of them
    ends with a token that is no reserved keyword.  Arguments are the one
    exception, since any word may name them.

    * `Guarded`: of the tokens read so far, no reserved keyword is in front
      of an equals sign, unless a call reads an argument there.
    * `Ended`: an operand has just been read; `Bindable`: an equals sign may
      follow.
    * `grammar_guarded`: the parsers of the grammar of expressions.
-/

namespace StyleCheck

open StyleCheck.Parser

/-! ## Section 1: Tokens that have been read -/

namespace Lexeme

/-- Whether a lexeme is a keyword that stands for no value. -/
def isReserved : Lexeme → Bool
  | keyword word => !word.isConstant
  | _ => false

/-- Whether an operand may end with a lexeme. -/
def closesOperand : Lexeme → Bool
  | symbol (.closing _) => true
  | l => l.isAtom

/-- Whether a lexeme can be read without a look at what is around it. -/
def isHarmless : Lexeme → Bool
  | symbol .equal | keyword .def_ | endMarker => false
  | _ => true

theorem closesOperand_of_isAtom {l : Lexeme} (h : l.isAtom = true) : l.closesOperand = true := by
  unfold closesOperand
  split
  case h_1 => rfl
  case h_2 => exact h

theorem isHarmless_of_isInert {l : Lexeme} (h : l.isInert = true) : l.isHarmless = true := by
  unfold isHarmless
  split
  case h_1 | h_2 | h_3 => cases h
  case h_4 => rfl

theorem isReserved_of_closesOperand {l : Lexeme} (h : l.closesOperand = true) :
    l.isReserved = false := by
  cases l with
  | keyword word => exact congrArg (!·) h
  | _ => rfl

theorem isHarmless_of_closesOperand {l : Lexeme} (h : l.closesOperand = true) :
    l.isHarmless = true := by
  unfold isHarmless
  split
  case h_1 | h_2 | h_3 => cases h
  case h_4 => rfl

end Lexeme

/-- Tokens that end inside the parentheses of a call, with `inside` behind
    the one that is open.  The name of a function that is being defined is
    not called. -/
def InCall (read inside : List Token) : Prop :=
  ∃ outer callee p, read = outer ++ callee :: ⟨.symbol (.opening .round), p⟩ :: inside ∧
    callee.lexeme.closesOperand = true ∧ (∀ t ∈ outer.getLast?, t.lexeme ≠ .keyword .def_) ∧
    Balanced inside

/-- Tokens behind which a call reads an argument: its parenthesis, or a
    comma behind another argument. -/
def IsArgumentPlace (read : List Token) : Prop :=
  ∃ inside, InCall read inside ∧ ∀ t ∈ inside.getLast?, t.lexeme = .symbol .comma

/-- No reserved keyword is in front of an equals sign, unless it is the
    name of an argument. -/
def EqualsGuarded (read : List Token) : Prop :=
  ∀ before t p after, read = before ++ t :: ⟨.symbol .equal, p⟩ :: after →
    t.lexeme.isReserved = false ∨ IsArgumentPlace before

/-- Behind these tokens, an expression may be read. -/
structure Guarded (read : List Token) : Prop where
  equals : EqualsGuarded read
  last : ∀ t ∈ read.getLast?, t.lexeme ≠ .keyword .def_

/-- Behind these tokens, an equals sign may be read. -/
structure Bindable (read : List Token) : Prop extends Guarded read where
  bound : ∀ t ∈ read.getLast?, t.lexeme.isReserved = false

/-- Behind these tokens, a call may read an argument, or it is over. -/
def AtArgument (again : Bool) (read : List Token) : Prop :=
  Guarded read ∧ (again = true → IsArgumentPlace read)

/-- These tokens end with an operand, which may be called. -/
def Ended (read : List Token) : Prop :=
  ∃ before t, read = before ++ [t] ∧ Guarded before ∧ t.lexeme.closesOperand = true

variable {read before ts mid rest all : List Token} {t : Token}

theorem EqualsGuarded.concat (h : EqualsGuarded read)
    (ht : t.lexeme = .symbol .equal → ∀ before t', read = before ++ [t'] →
      t'.lexeme.isReserved = false ∨ IsArgumentPlace before) : EqualsGuarded (read ++ [t]) := by
  intro before t' p after heq
  rcases List.eq_nil_or_concat after with rfl | ⟨after, last, rfl⟩
  · have hsplit : read ++ [t] = (before ++ [t']) ++ [⟨.symbol .equal, p⟩] := by rw [heq]; simp
    obtain ⟨hread, hlast⟩ := List.append_inj' hsplit rfl
    exact ht (by rw [List.singleton_inj.mp hlast]) before t' hread
  · have hsplit : read ++ [t] = (before ++ t' :: ⟨.symbol .equal, p⟩ :: after) ++ [last] := by
      simpa using heq
    exact h before t' p after (List.append_inj' hsplit rfl).1

theorem Guarded.nil : Guarded [] :=
  ⟨fun before t p after heq => by simp at heq, fun t ht => by cases ht⟩

theorem EqualsGuarded.guarded (h : EqualsGuarded read) (ht : t.lexeme.isHarmless = true) :
    Guarded (read ++ [t]) := by
  refine ⟨h.concat fun hequal => ?_, fun t' ht' hdef => ?_⟩
  · rw [hequal] at ht
    cases ht
  · obtain rfl : t = t' := by simpa using ht'
    rw [hdef] at ht
    cases ht

theorem Guarded.concat (h : Guarded read) (ht : t.lexeme.isHarmless = true) :
    Guarded (read ++ [t]) :=
  h.equals.guarded ht

theorem Guarded.ended (h : Guarded read) (ht : t.lexeme.closesOperand = true) :
    Ended (read ++ [t]) :=
  ⟨read, t, rfl, h, ht⟩

theorem Guarded.bindable (h : Guarded read) (ht : t.lexeme.isHarmless = true)
    (hbound : t.lexeme.isReserved = false) : Bindable (read ++ [t]) := by
  refine ⟨h.concat ht, fun t' ht' => ?_⟩
  obtain rfl : t = t' := by simpa using ht'
  exact hbound

theorem Ended.bindable (h : Ended read) : Bindable read := by
  obtain ⟨before, t, rfl, hbefore, ht⟩ := h
  exact hbefore.bindable (Lexeme.isHarmless_of_closesOperand ht)
    (Lexeme.isReserved_of_closesOperand ht)

theorem Ended.guarded (h : Ended read) : Guarded read := h.bindable.toGuarded

/-- An equals sign behind something else than a reserved keyword. -/
theorem Bindable.equal {p : Position} (h : Bindable read) :
    Guarded (read ++ [⟨.symbol .equal, p⟩]) := by
  refine ⟨h.equals.concat fun _ before t' hread => .inl (h.bound t' ?_), fun t' ht' => ?_⟩
  · simp [hread]
  · obtain rfl : ⟨.symbol .equal, p⟩ = t' := by simpa using ht'
    simp

/-- An equals sign behind the word that names an argument. -/
theorem Guarded.argument {p : Position} (h : Guarded read) (hplace : IsArgumentPlace read)
    (ht : t.lexeme ≠ .symbol .equal) : Guarded (read ++ [t] ++ [⟨.symbol .equal, p⟩]) := by
  have hword : EqualsGuarded (read ++ [t]) := h.equals.concat fun hequal => absurd hequal ht
  refine ⟨hword.concat fun _ before t' hread => .inr ?_, fun t' ht' => ?_⟩
  · rwa [← (List.append_inj' hread rfl).1]
  · obtain rfl : ⟨.symbol .equal, p⟩ = t' := by simpa using ht'
    simp

/-- The keyword of a definition, and the name behind it. -/
theorem Guarded.definition {word : Keyword} {p : Position} (h : Guarded read)
    (ht : t.lexeme.closesOperand = true) : Guarded (read ++ [⟨.keyword word, p⟩] ++ [t]) := by
  have hword : EqualsGuarded (read ++ [⟨.keyword word, p⟩]) := h.equals.concat nofun
  exact hword.guarded (Lexeme.isHarmless_of_closesOperand ht)

/-- The parenthesis of a call. -/
theorem Ended.inCall {p : Position} (h : Ended read) :
    InCall (read ++ [⟨.symbol (.opening .round), p⟩]) [] := by
  obtain ⟨before, t, rfl, hbefore, ht⟩ := h
  exact ⟨before, t, p, by simp, ht, hbefore.last, .nil⟩

theorem InCall.append {inside w : List Token} (h : InCall read inside) (hw : Balanced w) :
    InCall (read ++ w) (inside ++ w) := by
  obtain ⟨outer, callee, p, rfl, hcallee, houter, hinside⟩ := h
  exact ⟨outer, callee, p, by simp, hcallee, houter, hinside.append hw⟩

theorem Guarded.places : OperandPlaces Guarded Ended where
  relax := Ended.guarded
  inert h ht := h.concat (Lexeme.isHarmless_of_isInert ht)
  atom h ht := h.ended (Lexeme.closesOperand_of_isAtom ht)
  equal h := h.bindable.equal

namespace Grammar

variable {g : Nonterminals} (hg : g.Guide all Guarded Ended)

/-! ## Section 2: Lists and calls -/

/-- A bracket that is closed ends an operand. -/
theorem expect_closing_leads (bracket : Bracket) :
    Leads all Guarded (expect (.closing bracket)) fun _ => Ended :=
  .expect (·.ended rfl)

include hg

/-- A comma may stand at the end. -/
theorem starExpressions_leads : Leads all Guarded (starExpressions g) fun _ => Bindable := by
  have hfirst := starExpression_leads hg
  unfold starExpressions nextStarExpression
  refine .bind .position fun _ => .bind hfirst fun _ => .bind (.atSymbol _) fun _ =>
    .ite (fun _ => ?_) (fun _ => .pure Ended.bindable)
  refine .bind (.mono (.repeatWhile ?_) Ended.bindable id) fun _ => .pure id
  refine .accept (·.toGuarded.bindable rfl rfl) ?_ (.pure id)
  refine .bind .peek fun _ => .ite (fun _ => ?_) (fun _ => .pure id)
  exact .bind (hfirst.mono Bindable.toGuarded Ended.bindable) fun _ => .pure id

theorem moreElements_leads (closer : Bracket) :
    Leads all Guarded (moreElements g closer) fun _ => Guarded := by
  unfold moreElements nextElement
  refine .repeatWhile (.accept (·.concat rfl) ?_ (.pure id))
  exact .bind (.atSymbol _) fun _ =>
    .ite (fun _ => .pure id) (fun _ => operand_bind hg (element_leads hg) fun _ => .pure id)

/-- Behind an argument, its call goes on. -/
theorem nextArgument_leads (hbalance : g.Balance all) :
    Leads all (AtArgument true) (nextArgument g) AtArgument := by
  have hargument : Leads all (AtArgument true) (argument g)
      fun _ read => Guarded read ∧ ∃ inside, InCall read inside := by
    intro read ts hts a rest hread
    have hnamed : ∀ {read t p}, AtArgument true read → t.lexeme.isWord = true →
        Guarded (read ++ [t] ++ [⟨.symbol .equal, p⟩]) := fun h ht =>
      h.1.argument (h.2 rfl) fun hsymbol => by rw [hsymbol] at ht; cases ht
    obtain ⟨read', hall, hguarded⟩ := argument_leads hg And.left hnamed read ts hts a rest hread
    obtain ⟨_, hall', hbalanced⟩ :=
      argument_leads (hbalance read) id BalancedSince.named read ts hts a rest hread
    -- Both say something about the same tokens.
    obtain rfl := List.append_cancel_right (hall.trans hall'.symm)
    obtain ⟨w, rfl, hw⟩ := hbalanced (.refl read)
    refine ⟨read ++ w, hall, fun h => ⟨hguarded h, ?_⟩⟩
    obtain ⟨inside, hinside, _⟩ := h.2 rfl
    exact ⟨inside ++ w, hinside.append hw⟩
  unfold nextArgument
  refine .bind (.atSymbol _) fun _ => .ite (fun _ => .pure fun h => ⟨h.1, by simp⟩) (fun _ => ?_)
  refine .bind hargument fun _ =>
    .acceptsLexeme (by simp) (fun {read p} h => ?_) fun h => ⟨h.1, by simp⟩
  obtain ⟨hguarded, inside, hinside⟩ := h
  have hcomma : Balanced [⟨.symbol .comma, p⟩] := .token rfl .nil
  exact ⟨hguarded.concat rfl, fun _ => ⟨_, hinside.append hcomma, by simp⟩⟩

/-- A call of what has been read. -/
theorem arguments_leads (hbalance : g.Balance all) :
    Leads all Ended (arguments g) fun _ => Ended := by
  unfold arguments
  refine .bind (.expect fun h => ?_) fun _ =>
    .bind (.repeatWhile_until (nextArgument_leads hg hbalance)) fun _ =>
      (expect_closing_leads _).mono And.left id
  exact ⟨h.guarded.concat rfl, fun _ => ⟨[], h.inCall, by simp⟩⟩

/-- A bound of a slice may be left out. -/
theorem bound_leads (ends : Lexeme → Bool) {p : Parser Unit}
    (hp : Leads all Guarded p fun _ => Guarded) : Leads all Guarded (do
      let stop ← peek
      unless ends stop do
        let _ ← g.expression
      p) fun _ => Guarded :=
  .bind .peek fun _ => .ite (fun _ => hp) (fun _ => operand_bind hg hg.expression fun _ => hp)

theorem laterBounds_leads : Leads all Guarded (laterBounds g) fun _ => Guarded := by
  unfold laterBounds
  refine bound_leads hg endsBound (.accept (·.concat rfl) ?_ (.pure id))
  exact bound_leads hg
    (fun stop => stop == .symbol (.closing .square) || stop == .symbol .comma) (.pure id)

theorem slice_leads : Leads all Guarded (slice g) fun _ => Guarded := by
  have hbounds : Leads all Guarded (do if ← accept .colon then laterBounds g) fun _ => Guarded :=
    .accept (·.concat rfl) (laterBounds_leads hg) (.pure id)
  unfold slice
  refine .bind (.atSymbol _) fun _ => .ite (fun _ => ?_) (fun _ => ?_)
  · exact operand_bind hg (starExpression_leads hg) fun _ => .pure id
  · exact .bind (.atSymbol _) fun _ =>
      .ite (fun _ => hbounds) (fun _ => operand_bind hg (namedExpression_leads hg) fun _ => hbounds)

theorem slices_leads : Leads all Guarded (slices g) fun _ => Guarded := by
  unfold slices nextSlice
  refine .bind (.atSymbol _) fun _ => .ite (fun _ => .fail _) (fun _ => .repeatWhile ?_)
  refine .bind (slice_leads hg) fun _ => .accept (·.concat rfl) ?_ (.pure id)
  exact .bind (.atSymbol _) fun _ => .pure id

theorem typeHint_leads (annotated starred : Bool) :
    Leads all Ended (typeHint g annotated starred) fun _ => Ended := by
  unfold typeHint
  refine .ite (fun _ => .accept (·.guarded.concat rfl) ?_ (.pure id)) (fun _ => .pure id)
  refine .ite (fun _ => ?_) (fun _ => ?_)
  · exact .bind (starExpression_leads hg) fun _ => .pure id
  · exact .bind hg.expression fun _ => .pure id

/-! ## Section 3: Displays and lambdas -/

/-- What is yielded is no operand. -/
theorem yieldExpression_leads : LeadsAt all (.keyword .yield_) Guarded (yieldExpression g)
    fun e read => Guarded read ∧ e.form = .other := by
  unfold yieldExpression
  refine .position fun _ => .advance (by simp) (·.concat rfl) (.acceptKeyword (·.concat rfl) ?_ ?_)
  · exact operand_bind hg hg.expression fun _ => .pure fun h => ⟨h, rfl⟩
  · refine .bind .peek fun _ => .ite (fun _ => ?_) (fun _ => .pure fun h => ⟨h, rfl⟩)
    exact .bind ((starExpressions_leads hg).mono id Bindable.toGuarded) fun _ =>
      .pure fun h => ⟨h, rfl⟩

/-- A comprehension at the end of a display. -/
theorem comprehended_leads (closer : Bracket) (e : Expr) : Leads all Guarded (do
    comprehension g
    expect (.closing closer)
    pure e) fun _ => Ended :=
  .bind (comprehension_leads hg) fun _ => .bind (expect_closing_leads _) fun _ => .pure id

/-- More elements, and the end of a display. -/
theorem elements_leads (closer : Bracket) (e : Expr) : Leads all Guarded (do
    moreElements g closer
    expect (.closing closer)
    pure e) fun _ => Ended :=
  .bind (moreElements_leads hg _) fun _ => .bind (expect_closing_leads _) fun _ => .pure id

theorem parenthesized_leads :
    LeadsAt all (.symbol (.opening .round)) Guarded (parenthesized g) fun _ => Ended := by
  unfold parenthesized
  refine .position fun _ => .advance (by simp) (·.concat rfl)
    (.accept (·.ended rfl) (.pure id) (LeadsAt.atKeyword ?_ ?_))
  · exact .bind (yieldExpression_leads hg) fun _ =>
      .bind ((expect_closing_leads _).mono And.left id) fun _ => .pure id
  · refine operand_bind hg (element_leads hg) fun _ => .bind atComprehension_leads fun _ =>
      .ite (fun _ => comprehended_leads hg _ _) (fun _ => .bind (.atSymbol _) fun _ => ?_)
    refine .ite (fun _ => elements_leads hg _ _) (fun _ => ?_)
    exact .bind (expect_closing_leads _) fun _ => .pure id

theorem listDisplay_leads :
    LeadsAt all (.symbol (.opening .square)) Guarded (listDisplay g) fun _ => Ended := by
  unfold listDisplay
  refine .position fun _ => .advance (by simp) (·.concat rfl) (.accept (·.ended rfl) (.pure id) ?_)
  exact operand_bind hg (element_leads hg) fun _ => .bind atComprehension_leads fun _ =>
    .ite (fun _ => comprehended_leads hg _ _) (fun _ => elements_leads hg _ _)

theorem item_leads : Leads all Guarded (item g) fun _ => Guarded := by
  unfold item
  refine .accept (·.concat rfl) (operand_bind hg hg.operand fun _ => .pure id) ?_
  exact operand_bind hg hg.expression fun _ => .bind (.expect (·.concat rfl)) fun _ =>
    operand_bind hg hg.expression fun _ => .pure id

theorem moreItems_leads : Leads all Guarded (moreItems g) fun _ => Ended := by
  unfold moreItems nextItem
  refine .bind (.repeatWhile (.accept (·.concat rfl) ?_ (.pure id))) fun _ => expect_closing_leads _
  exact .bind (.atSymbol _) fun _ =>
    .ite (fun _ => .pure id) (fun _ => .bind (item_leads hg) fun _ => .pure id)

theorem braceDisplay_leads :
    LeadsAt all (.symbol (.opening .curly)) Guarded (braceDisplay g) fun _ => Ended := by
  have hitems : ∀ e : Expr, Leads all Guarded (do
      moreItems g
      pure e) fun _ => Ended := fun e => .bind (moreItems_leads hg) fun _ => .pure id
  unfold braceDisplay
  refine .position fun _ => .advance (by simp) (·.concat rfl) (.accept (·.ended rfl) (.pure id) ?_)
  refine .bind (.atSymbol _) fun _ => .ite (fun _ => .bind (item_leads hg) fun _ => hitems _)
    (fun _ => operand_bind hg (element_leads hg) fun _ => .accept (·.concat rfl) ?_ ?_)
  · exact operand_bind hg hg.expression fun _ => .bind atComprehension_leads fun _ =>
      .ite (fun _ => comprehended_leads hg _ _) (fun _ => hitems _)
  · exact .bind atComprehension_leads fun _ =>
      .ite (fun _ => comprehended_leads hg _ _) (fun _ => elements_leads hg _ _)

/-- Whatever stands behind an operand ends one again. -/
theorem nextTrailer_leads (hbalance : g.Balance all) (start : Position) (read : Expr) :
    Leads all Ended (nextTrailer g start read) fun _ => Ended := by
  unfold nextTrailer
  refine .accept (·.guarded.concat rfl) (.bind (.name (·.ended rfl)) fun _ => .pure id) ?_
  refine .bind (.atSymbol _) fun _ =>
    .ite (fun _ => .bind (arguments_leads hg hbalance) fun _ => .pure id) (fun _ => ?_)
  refine .accept (·.guarded.concat rfl) ?_ (.pure id)
  exact .bind (slices_leads hg) fun _ => .bind (expect_closing_leads _) fun _ => .pure id

theorem lambda_leads : LeadsAt all (.keyword .lambda_) Guarded (lambda g) fun _ => Ended := by
  have hparameters : Leads all Guarded (parameters g .colon false) fun _ => Guarded :=
    parameters_leads hg .colon annotation_none_leads
  unfold lambda
  refine .position fun _ => .advance (by simp) (·.concat rfl) (.bind hparameters fun _ => ?_)
  exact .bind (.expect (·.concat rfl)) fun _ => .bind hg.expression fun _ => .pure id

theorem guarded_parts (hbalance : g.Balance all) : g.Parts all Guarded Ended where
  toGuide := hg
  parenthesized := parenthesized_leads hg
  listDisplay := listDisplay_leads hg
  braceDisplay := braceDisplay_leads hg
  trailer := nextTrailer_leads hg hbalance
  lambda := lambda_leads hg

omit hg in
theorem grammarUpTo_guarded (fuel : List Token) : (grammarUpTo fuel).Guide all Guarded Ended := by
  induction fuel with
  | nil => exact grammarUpTo_guide_nil Guarded.places
  | cons _ fuel ih => exact grammarUpTo_guide_cons (guarded_parts ih (grammarUpTo_balance fuel))

end Grammar

/-- The parsers of the grammar of expressions read operands. -/
theorem grammar_guarded : grammar.Guide all Guarded Ended := Grammar.grammar_guide_of fun fuel =>
  Grammar.guarded_parts (Grammar.grammarUpTo_guarded fuel) (Grammar.grammarUpTo_balance fuel)

end StyleCheck
