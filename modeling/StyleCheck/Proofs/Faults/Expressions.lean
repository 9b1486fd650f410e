import StyleCheck.Proofs.Faults.Stays
import StyleCheck.Proofs.Parsing.Knot

/-! # What Expressions Blame

    Every parser of the grammar of expressions stays in front of the end
    marker, fails at a token up to it, and puts the expression that it
    makes at such a token.  `Nonterminals.Stay` is that for the references
    of the grammar to itself; the fuel carries it through the knot.
-/

namespace StyleCheck

open StyleCheck.Parser

/-- The parsers that are referred back to read a token, and stay in front
    of the end marker. -/
structure Nonterminals.Stay (good : Position → Prop) (g : Nonterminals) : Prop where
  keep : g.Keep
  expression : StaysSited good g.expression
  disjunction : StaysSited good g.disjunction
  inversion : StaysSited good g.inversion
  operand : StaysSited good g.operand
  factor : StaysSited good g.factor

namespace Grammar

variable {good : Position → Prop} {g : Nonterminals} {ts : List Token} (hg : g.Stay good)

include hg

/-! ## Section 1: Lists and clauses -/

theorem starExpression_stays : StaysSited good (starExpression g) := by
  unfold starExpression
  exact .position fun _ hat => .bind (.accept _) fun _ _ =>
    .ite (.bind hg.operand fun _ _ => .pure hat) hg.expression

theorem nextStarExpression_stays : StaysAny good (nextStarExpression g) := by
  unfold nextStarExpression
  refine .bind (.accept _) fun _ _ => .ite ?_ (.pure trivial)
  exact .bind .peek fun _ _ =>
    .ite (.bind (starExpression_stays hg) fun _ _ => .pure trivial) (.pure trivial)

theorem starExpressions_stays : StaysSited good (starExpressions g) := by
  unfold starExpressions
  refine .position fun _ hat => .bind (starExpression_stays hg) fun _ hsited =>
    .bind (.atSymbol _) fun _ _ => .ite ?_ (.pure hsited)
  exact .bind (.repeatWhile (nextStarExpression_spends hg.keep) (nextStarExpression_stays hg))
    fun _ _ => .pure hat

theorem namedExpression_stays : StaysSited good (namedExpression g) := by
  intro ts
  unfold namedExpression
  -- Two tokens have been looked at before the first of them is read.
  refine .position fun hat => .peek (.peekSecond (.ite (fun hnamed => ?_) fun _ => hg.expression ts))
  have hsecond : (front ts.tail).lexeme = .symbol .colonEqual := by
    simp only [Bool.and_eq_true, beq_iff_eq] at hnamed
    exact hnamed.2
  refine .name fun _ _ => .advance (by simp [hsecond]) ?_
  exact .bind (hg.expression _) fun _ _ => .pure hat

theorem element_stays : StaysSited good (element g) := by
  unfold element
  exact .bind (.atSymbol _) fun _ _ => .ite (starExpression_stays hg) (namedExpression_stays hg)

theorem nextElement_stays (closer : Bracket) : StaysAny good (nextElement g closer) := by
  unfold nextElement
  refine .bind (.accept _) fun _ _ => .ite ?_ (.pure trivial)
  exact .bind (.atSymbol _) fun _ _ =>
    .ite (.pure trivial) (.bind (element_stays hg) fun _ _ => .pure trivial)

theorem moreElements_stays (closer : Bracket) : StaysAny good (moreElements g closer) :=
  .repeatWhile (nextElement_spends hg.keep closer) (nextElement_stays hg closer)

theorem target_stays : StaysSited good (target g) := by
  unfold target
  exact .bind (.atSymbol _) fun _ _ => .ite (starExpression_stays hg) hg.operand

theorem nextTarget_stays : StaysAny good (nextTarget g) := by
  unfold nextTarget
  refine .bind (.accept _) fun _ _ => .ite ?_ (.pure trivial)
  exact .bind .peek fun _ _ =>
    .ite (.pure trivial) (.bind (target_stays hg) fun _ _ => .pure trivial)

theorem targets_stays : StaysSited good (targets g) := by
  unfold targets
  refine .position fun _ hat => .bind (target_stays hg) fun _ hsited =>
    .bind (.atSymbol _) fun _ _ => .ite ?_ (.pure hsited)
  exact .bind (.repeatWhile (nextTarget_spends hg.keep) (nextTarget_stays hg)) fun _ _ => .pure hat

omit hg in
theorem atComprehension_stays : StaysAny good atComprehension := by
  unfold atComprehension
  refine .bind .peek fun l _ => ?_
  split
  all_goals exact .pure trivial

omit hg in
theorem acceptFor_stays : StaysAny good acceptFor := by
  intro ts
  unfold acceptFor
  -- An `async` is read only if there is a `for` behind it.
  refine .acceptKeyword (fun _ => .pure trivial) (.peekSecond (.ite (fun hfor => ?_) fun _ =>
    .pure trivial))
  refine .acceptKeyword (fun _ => .advance ?_ (.pure trivial)) (.pure trivial)
  simp [beq_iff_eq.mp hfor]

theorem nextCondition_stays : StaysAny good (nextCondition g) := by
  unfold nextCondition
  exact .bind (.acceptKeyword _) fun _ _ =>
    .ite (.bind hg.disjunction fun _ _ => .pure trivial) (.pure trivial)

theorem clause_stays : StaysAny good (clause g) := by
  unfold clause
  exact .bind (targets_stays hg) fun _ _ => .bind (.expectKeyword _ _) fun _ _ =>
    .bind hg.disjunction fun _ _ =>
    .repeatWhile (nextCondition_spends hg.keep) (nextCondition_stays hg)

theorem nextClause_stays : StaysAny good (nextClause g) := by
  unfold nextClause
  exact .bind acceptFor_stays fun _ _ =>
    .ite (.bind (clause_stays hg) fun _ _ => .pure trivial) (.pure trivial)

theorem comprehension_stays : StaysAny good (comprehension g) := by
  unfold comprehension
  exact .bind acceptFor_stays fun _ _ => .ite (.bind (clause_stays hg) fun _ _ =>
    .repeatWhile (nextClause_spends hg.keep) (nextClause_stays hg)) (.fail _)

/-- A star, two stars, a name with an equals sign, or an expression. -/
theorem argument_stays : StaysAny good (argument g) := by
  intro ts
  unfold argument
  refine .peek (.peekSecond (.acceptIf rfl (fun _ => ?_) (.ite (fun hnamed => ?_) fun _ => ?_)))
  · exact .bind (hg.expression _) fun _ _ => .pure trivial
  · simp only [Bool.and_eq_true, beq_iff_eq] at hnamed
    have hfirst : (front ts).lexeme ≠ .endMarker := fun hend => by
      rw [hend] at hnamed
      cases hnamed.1
    refine .advance hfirst (.advance (by simp [hnamed.2]) ?_)
    exact .bind (hg.expression _) fun _ _ => .pure trivial
  · exact .bind (namedExpression_stays hg _) fun _ _ => .bind atComprehension_stays fun _ _ =>
      .ite (comprehension_stays hg) (.pure trivial)

theorem nextArgument_stays : StaysAny good (nextArgument g) := by
  unfold nextArgument
  exact .bind (.atSymbol _) fun _ _ =>
    .ite (.pure trivial) (.bind (argument_stays hg) fun _ _ => .accept _)

theorem arguments_stays : StaysAny good (arguments g) := by
  unfold arguments
  exact .bind (.expect _) fun _ _ =>
    .bind (.repeatWhile (nextArgument_spends hg.keep) (nextArgument_stays hg)) fun _ _ => .expect _

theorem laterBounds_stays : StaysAny good (laterBounds g) := by
  unfold laterBounds
  refine .bind .peek fun _ _ => .ite ?_ (.bind hg.expression fun _ _ => ?_)
  -- With or without a bound, the same may follow.
  all_goals
    refine .bind (.accept _) fun _ _ => .ite ?_ (.pure trivial)
    exact .bind .peek fun _ _ =>
      .ite (.pure trivial) (.bind hg.expression fun _ _ => .pure trivial)

theorem slice_stays : StaysAny good (slice g) := by
  have hbounds : StaysAny good (do if ← accept .colon then laterBounds g) :=
    .bind (.accept _) fun _ _ => .ite (laterBounds_stays hg) (.pure trivial)
  unfold slice
  refine .bind (.atSymbol _) fun _ _ => .ite ?_ ?_
  · exact .bind (starExpression_stays hg) fun _ _ => .pure trivial
  · exact .bind (.atSymbol _) fun _ _ =>
      .ite hbounds (.bind (namedExpression_stays hg) fun _ _ => hbounds)

theorem nextSlice_stays : StaysAny good (nextSlice g) := by
  unfold nextSlice
  refine .bind (slice_stays hg) fun _ _ => .bind (.accept _) fun _ _ => .ite ?_ (.pure trivial)
  exact .bind (.atSymbol _) fun _ _ => .pure trivial

theorem slices_stays : StaysAny good (slices g) := by
  unfold slices
  exact .bind (.atSymbol _) fun _ _ =>
    .ite (.fail _) (.repeatWhile (nextSlice_spends hg.keep) (nextSlice_stays hg))

/-! ## Section 2: Parameters -/

theorem typeHint_stays (annotated starred : Bool) :
    StaysAny good (typeHint g annotated starred) := by
  unfold typeHint
  refine .ite (.bind (.accept _) fun _ _ => .ite ?_ (.pure trivial)) (.pure trivial)
  exact .ite (.bind (starExpression_stays hg) fun _ _ => .pure trivial)
    (.bind hg.expression fun _ _ => .pure trivial)

theorem parameter_stays (closer : Symbol) (annotated : Bool) (read : Parameters) :
    StaysAny good (parameter g closer annotated read) := by
  have hcolon := typeHint_stays hg annotated
  have hnext : ∀ read : Parameters, StaysAny good (do
      if ← accept .comma then pure (Next.again read) else pure (Next.done (σ := Parameters) read)) :=
    fun read => .bind (.accept _) fun _ _ => .ite (.pure trivial) (.pure trivial)
  intro ts
  unfold parameter
  refine .position fun hat => .atSymbol (.ite (fun _ => .pure trivial) fun _ => ?_)
  refine .atSymbol (.ite (fun hslash => ?_) fun _ => .atSymbol (.ite (fun hstar => ?_) fun _ => ?_))
  -- A slash.
  · have hmore : (front ts).lexeme ≠ .endMarker := by simp [of_decide_eq_true hslash]
    exact .ite (fun _ => .fail _) fun _ => .advance hmore (hnext _ _)
  -- A star, with a name or without.
  · have hmore : (front ts).lexeme ≠ .endMarker := by simp [of_decide_eq_true hstar]
    refine .ite (fun _ => .fail _) fun _ => .advance hmore (.peek (.ite (fun _ => ?_) fun _ =>
      hnext _ _))
    exact .bind (Stays.name _) fun _ _ => .bind (hcolon _) fun _ _ => hnext _
  refine .bind (Stays.accept _ _) fun _ _ => .ite ?_ ?_
  -- Two stars.
  · refine .bind .name fun _ _ => .bind (hcolon _) fun _ _ => .bind (.accept _) fun _ _ => ?_
    exact .bind (.atSymbol _) fun _ _ => .ite (.pure trivial) (.fail _)
  -- A name, with a default or without.
  · refine .bind .name fun _ _ => .bind (hcolon _) fun _ _ => .bind (.accept _) fun _ _ => .ite ?_ ?_
    · exact .bind hg.expression fun _ _ => .ite (hnext _) (hnext _)
    · exact .ite (.ite (.failAt _ hat) (hnext _)) (hnext _)

theorem parameters_stays (closer : Symbol) (annotated : Bool) :
    StaysAny good (parameters g closer annotated) :=
  .loopAny (parameter_spends hg.keep closer annotated) (parameter_stays hg closer annotated) _

/-! ## Section 3: Atoms -/

omit hg in
theorem nextString_stays (read : Bool × Bool × Bool) : StaysAny good (nextString read) := by
  intro ts
  unfold nextString
  refine .peek ?_
  split
  case h_1 hstring => exact .advance (by simp [hstring]) (.pure trivial)
  case h_2 => exact .pure trivial

omit hg in
theorem strings_stays : StaysSited good strings := by
  have hloop : StaysAny good (loop nextString (false, false, false)) :=
    .loopAny nextString_spends nextString_stays _
  unfold strings
  exact .position fun _ hat => .bind hloop fun (_, _, _) _ =>
    .ite (.failAt _ hat) (.ite (.pure hat) (.pure hat))

/-- Here and below, a keyword or bracket is read without looking at it, so
    it has to be known that it is there. -/
theorem yieldExpression_stays (hmore : (front ts).lexeme ≠ .endMarker) :
    StaysFrom good ts (yieldExpression g) fun e => good e.position := by
  unfold yieldExpression
  refine .position fun hat => .advance hmore (.bind (Stays.acceptKeyword _ _) fun _ _ => ?_)
  refine .ite (.bind hg.expression fun _ _ => .pure hat) ?_
  exact .bind .peek fun _ _ =>
    .ite (.bind (starExpressions_stays hg) fun _ _ => .pure hat) (.pure hat)

theorem parenthesized_stays (hmore : (front ts).lexeme ≠ .endMarker) :
    StaysFrom good ts (parenthesized g) fun e => good e.position := by
  unfold parenthesized
  refine .position fun hat => .advance hmore (.bind (Stays.accept _ _) fun _ _ => ?_)
  refine .ite (.pure hat) fun ts => .atKeyword (.ite (fun hyield => ?_) fun _ => ?_)
  · have hmore : (front ts).lexeme ≠ .endMarker := by simp [of_decide_eq_true hyield]
    exact .bind (yieldExpression_stays hg hmore) fun _ _ => .bind (.expect _) fun _ _ => .pure hat
  refine .bind (element_stays hg ts) fun _ hsited => .bind atComprehension_stays fun _ _ =>
    .ite ?_ (.bind (.atSymbol _) fun _ _ => .ite ?_ ?_)
  · exact .bind (comprehension_stays hg) fun _ _ => .bind (.expect _) fun _ _ => .pure hat
  · exact .bind (moreElements_stays hg _) fun _ _ => .bind (.expect _) fun _ _ => .pure hat
  · exact .bind (.expect _) fun _ _ => .pure hsited

theorem listDisplay_stays (hmore : (front ts).lexeme ≠ .endMarker) :
    StaysFrom good ts (listDisplay g) fun e => good e.position := by
  unfold listDisplay
  refine .position fun hat => .advance hmore (.bind (Stays.accept _ _) fun _ _ => ?_)
  refine .ite (.pure hat) (.bind (element_stays hg) fun _ _ => ?_)
  refine .bind atComprehension_stays fun _ _ => .ite ?_ ?_
  · exact .bind (comprehension_stays hg) fun _ _ => .bind (.expect _) fun _ _ => .pure hat
  · exact .bind (moreElements_stays hg _) fun _ _ => .bind (.expect _) fun _ _ => .pure hat

theorem item_stays : StaysAny good (item g) := by
  unfold item
  refine .bind (.accept _) fun _ _ => .ite (.bind hg.operand fun _ _ => .pure trivial) ?_
  exact .bind hg.expression fun _ _ => .bind (.expect _) fun _ _ =>
    .bind hg.expression fun _ _ => .pure trivial

theorem nextItem_stays : StaysAny good (nextItem g) := by
  unfold nextItem
  refine .bind (.accept _) fun _ _ => .ite ?_ (.pure trivial)
  exact .bind (.atSymbol _) fun _ _ =>
    .ite (.pure trivial) (.bind (item_stays hg) fun _ _ => .pure trivial)

theorem moreItems_stays : StaysAny good (moreItems g) := by
  unfold moreItems
  exact .bind (.repeatWhile (nextItem_spends hg.keep) (nextItem_stays hg)) fun _ _ => .expect _

theorem braceDisplay_stays (hmore : (front ts).lexeme ≠ .endMarker) :
    StaysFrom good ts (braceDisplay g) fun e => good e.position := by
  have hcomprehension : ∀ e : Expr, good e.position → StaysSited good (do
      comprehension g
      expect (.closing .curly)
      pure e) :=
    fun e hat => .bind (comprehension_stays hg) fun _ _ => .bind (.expect _) fun _ _ => .pure hat
  unfold braceDisplay
  refine .position fun hat => .advance hmore (.bind (Stays.accept _ _) fun _ _ => ?_)
  refine .ite (.pure hat) (.bind (.atSymbol _) fun _ _ => .ite ?_ ?_)
  · exact .bind (item_stays hg) fun _ _ => .bind (moreItems_stays hg) fun _ _ => .pure hat
  refine .bind (element_stays hg) fun _ _ => .bind (.accept _) fun _ _ => .ite ?_ ?_
  · refine .bind hg.expression fun _ _ => .bind atComprehension_stays fun _ _ =>
      .ite (hcomprehension _ hat) ?_
    exact .bind (moreItems_stays hg) fun _ _ => .pure hat
  · refine .bind atComprehension_stays fun _ _ => .ite (hcomprehension _ hat) ?_
    exact .bind (moreElements_stays hg _) fun _ _ => .bind (.expect _) fun _ _ => .pure hat

theorem atom_stays : StaysSited good (atom g) := by
  intro ts
  unfold atom
  refine .position fun hat => .peek ?_
  have hone : ∀ form : Form, (front ts).lexeme ≠ .endMarker → StaysFrom good ts (do
      advance
      pure (⟨form, (front ts).position⟩ : Expr)) fun e => good e.position :=
    fun form hmore => .advance hmore (.pure hat)
  split
  case h_1 hfront => exact .ite (fun _ => hone _ (by simp [hfront])) fun _ => .fail _
  case h_2 hfront => exact hone _ (by simp [hfront])
  case h_3 hfront => exact hone _ (by simp [hfront])
  case h_4 => exact strings_stays ts
  case h_5 hfront => exact parenthesized_stays hg (by simp [hfront])
  case h_6 hfront => exact listDisplay_stays hg (by simp [hfront])
  case h_7 hfront => exact braceDisplay_stays hg (by simp [hfront])
  case h_8 hfront => exact hone _ (by simp [hfront])
  case h_9 => exact .fail _

theorem nextTrailer_stays {start : Position} {read : Expr} (hat : good start)
    (hread : good read.position) : Stays good (nextTrailer g start read)
      (Next.Meets (fun e => good e.position) fun e => good e.position) := by
  unfold nextTrailer
  refine .bind (.accept _) fun _ _ => .ite (.bind .name fun _ _ => .pure hat) ?_
  refine .bind (.atSymbol _) fun _ _ => .ite (.bind (arguments_stays hg) fun _ _ => .pure hat) ?_
  refine .bind (.accept _) fun _ _ => .ite ?_ (.pure hread)
  exact .bind (slices_stays hg) fun _ _ => .bind (.expect _) fun _ _ => .pure hat

theorem primary_stays : StaysSited good (primary g) := by
  unfold primary
  exact .position fun start hat => .bind (atom_stays hg) fun _ hsited =>
    .loop (fun e => good e.position) (nextTrailer_spends hg.keep start) hsited fun _ hread =>
    nextTrailer_stays hg hat hread

/-! ## Section 4: Operators -/

omit hg in
theorem nextOperand_stays {operator : Parser Bool} {operand : Parser Expr}
    (hoperator : StaysAny good operator) (hoperand : StaysSited good operand) {start : Position}
    {read : Expr} (hat : good start) (hread : good read.position) :
    Stays good (nextOperand operator operand start read)
      (Next.Meets (fun e => good e.position) fun e => good e.position) := by
  unfold nextOperand
  exact .bind hoperator fun _ _ => .ite (.bind hoperand fun _ _ => .pure hat) (.pure hread)

omit hg in
/-- An operator is read in every round but the last. -/
theorem chain_stays {operator : Parser Bool} {operand : Parser Expr}
    (hspends : Spends (· = true) operator) (hkeeps : Keeps operand)
    (hoperator : StaysAny good operator) (hoperand : StaysSited good operand) :
    StaysSited good (chain operator operand) := by
  unfold chain
  exact .position fun start hat => .bind hoperand fun _ hsited =>
    .loop (fun e => good e.position) (nextOperand_spends hspends hkeeps start) hsited
      fun _ hread => nextOperand_stays hoperator hoperand hat hread

theorem power_stays : StaysSited good (power g) := by
  unfold power
  refine .position fun _ hat => .bind (.acceptKeyword _) fun _ _ =>
    .bind (primary_stays hg) fun _ hsited => ?_
  refine .bind (.accept _) fun _ _ => .ite (.bind hg.factor fun _ _ => .pure hat) ?_
  exact .ite (.pure hat) (.pure hsited)

theorem factor_stays : StaysSited good (factor g) := by
  unfold factor
  exact .position fun _ hat => .bind (.acceptIf rfl) fun _ _ =>
    .ite (.bind hg.factor fun _ _ => .pure hat) (power_stays hg)

theorem binary_stays (levels : List (List Symbol)) : StaysSited good (binary g levels) := by
  induction levels with
  | nil => exact factor_stays hg
  | cons level tighter ih =>
    exact chain_stays (.acceptIf rfl) (binary_advances hg.keep tighter).keeps (.acceptIf rfl) ih

omit hg in
theorem acceptComparison_stays : StaysAny good acceptComparison := by
  intro ts
  unfold acceptComparison
  refine .peek ?_
  split
  case h_1 hfront =>
    exact .ite (fun _ => .advance (by simp [hfront]) (.pure trivial)) fun _ => .pure trivial
  case h_2 hfront => exact .advance (by simp [hfront]) (.pure trivial)
  case h_3 hfront =>
    refine .peekSecond (.ite (fun hin => ?_) fun _ => .pure trivial)
    refine .advance (by simp [hfront]) (.advance ?_ (.pure trivial))
    simp [beq_iff_eq.mp hin]
  case h_4 hfront =>
    exact .advance (by simp [hfront]) (.bind (Stays.acceptKeyword _ _) fun _ _ => .pure trivial)
  case h_5 => exact .pure trivial

theorem comparison_stays : StaysSited good (comparison g) :=
  chain_stays acceptComparison_spends (binary_advances hg.keep _).keeps acceptComparison_stays
    (binary_stays hg _)

theorem inversion_stays : StaysSited good (inversion g) := by
  unfold inversion
  exact .position fun _ hat => .bind (.acceptKeyword _) fun _ _ =>
    .ite (.bind hg.inversion fun _ _ => .pure hat) (comparison_stays hg)

theorem conjunction_stays : StaysSited good (conjunction g) :=
  chain_stays (.acceptIf rfl) (inversion_advances hg.keep).keeps (.acceptKeyword _)
    (inversion_stays hg)

theorem disjunction_stays : StaysSited good (disjunction g) :=
  chain_stays (.acceptIf rfl) (conjunction_advances hg.keep).keeps (.acceptKeyword _)
    (conjunction_stays hg)

theorem lambda_stays (hmore : (front ts).lexeme ≠ .endMarker) :
    StaysFrom good ts (lambda g) fun e => good e.position := by
  unfold lambda
  refine .position fun hat => .advance hmore (.bind (parameters_stays hg _ _ _) fun _ _ => ?_)
  exact .bind (.expect _) fun _ _ => .bind hg.expression fun _ _ => .pure hat

theorem expression_stays : StaysSited good (expression g) := by
  intro ts
  unfold expression
  refine .position fun hat => .atKeyword (.ite (fun hlambda => ?_) fun _ => ?_)
  · exact lambda_stays hg (by simp [of_decide_eq_true hlambda])
  refine .bind (disjunction_stays hg ts) fun _ hsited => .bind (.acceptKeyword _) fun _ _ =>
    .ite ?_ (.pure hsited)
  exact .bind hg.disjunction fun _ _ => .bind (.expectKeyword _ _) fun _ _ =>
    .bind hg.expression fun _ _ => .pure hat

/-! ## Section 5: The knot -/

/-- References that are not followed, but fail. -/
def failing : Nonterminals where
  expression := fail .invalidSyntax
  disjunction := fail .invalidSyntax
  inversion := fail .invalidSyntax
  operand := fail .invalidSyntax
  factor := fail .invalidSyntax

omit hg in
theorem failing_keep : failing.Keep := ⟨.fail _, .fail _, .fail _, .fail _, .fail _⟩

omit hg in
/-- The grammar over references that fail never runs out of fuel. -/
theorem grammarOver_failing_stay (fuel : List Token) : (grammarOver failing fuel).Stay good := by
  induction fuel with
  | nil => exact ⟨failing_keep, .fail _, .fail _, .fail _, .fail _, .fail _⟩
  | cons _ fuel ih =>
    exact ⟨grammarOver_keep failing_keep _, expression_stays ih, disjunction_stays ih,
      inversion_stays ih, binary_stays ih _, factor_stays ih⟩

end Grammar

/-- The parsers of the grammar of expressions stay in front of the end
    marker.  The grammar is the one over references that fail, since it has
    fuel enough not to come to them. -/
theorem grammar_stay (good : Position → Prop) : grammar.Stay good := by
  have hstay : ∀ ts : List Token, (Grammar.grammarOver Grammar.failing (front ts :: ts)).Stay good :=
    fun ts => Grammar.grammarOver_failing_stay _
  have h : ∀ ts : List Token,
      (Grammar.grammarOver Grammar.failing (front ts :: ts)).Agree ts.length grammar := fun ts =>
    Grammar.grammarOver_agree_grammar Grammar.failing_keep (Nat.lt_succ_self _)
  have hle := fun ts : List Token => Nat.le_refl ts.length
  exact ⟨grammar_keep,
    fun ts => ((hstay ts).expression ts).congr ((h ts).expression.same ts (hle ts)).symm,
    fun ts => ((hstay ts).disjunction ts).congr ((h ts).disjunction.same ts (hle ts)).symm,
    fun ts => ((hstay ts).inversion ts).congr ((h ts).inversion.same ts (hle ts)).symm,
    fun ts => ((hstay ts).operand ts).congr ((h ts).operand.same ts (hle ts)).symm,
    fun ts => ((hstay ts).factor ts).congr ((h ts).factor.same ts (hle ts)).symm⟩

end StyleCheck
