import StyleCheck.Proofs.Parsing.Spends
import StyleCheck.Syntax.Grammar.SimpleStatement

/-! # What Expressions Leave

    Every parser of the grammar of expressions leaves the end of what it
    was given, and those that read an expression have read a token.  So
    has every round of a loop behind which another one comes.
    `Nonterminals.Keep` is that for the references of the grammar to
    itself; the fuel carries it through the knot.
-/

namespace StyleCheck

open StyleCheck.Parser

/-- The parsers that are referred back to read a token, and leave the end
    of what they were given. -/
structure Nonterminals.Keep (g : Nonterminals) : Prop where
  expression_advances : Advances g.expression
  disjunction_advances : Advances g.disjunction
  inversion_advances : Advances g.inversion
  operand_advances : Advances g.operand
  factor_advances : Advances g.factor

namespace Nonterminals.Keep

variable {g : Nonterminals} (hg : g.Keep)

include hg

theorem expression : Keeps g.expression := hg.expression_advances.keeps

theorem disjunction : Keeps g.disjunction := hg.disjunction_advances.keeps

theorem operand : Keeps g.operand := hg.operand_advances.keeps

theorem factor : Keeps g.factor := hg.factor_advances.keeps

end Nonterminals.Keep

namespace Grammar

variable {g : Nonterminals} (hg : g.Keep)

include hg

/-! ## Section 1: Lists and clauses -/

theorem starExpression_advances : Advances (starExpression g) := by
  unfold starExpression
  exact .behind .position fun _ => .behind (.accept _) fun _ =>
    .ite (.bind hg.operand_advances fun _ => .pure _) hg.expression_advances

theorem starExpression_keeps : Keeps (starExpression g) := (starExpression_advances hg).keeps

theorem nextStarExpression_spends : Spends (· = true) (nextStarExpression g) :=
  .testSymbol (.bind .peek fun _ => .ite (go_keeps (starExpression_keeps hg)) (.pure _))
    stop_spends

theorem starExpressions_advances : Advances (starExpressions g) := by
  unfold starExpressions
  refine .behind .position fun _ => .bind (starExpression_advances hg) fun _ =>
    .bind (.atSymbol _) fun _ => .ite ?_ (.pure _)
  exact .bind (.repeatWhile (nextStarExpression_spends hg).keeps) fun _ => .pure _

theorem starExpressions_keeps : Keeps (starExpressions g) := (starExpressions_advances hg).keeps

theorem namedExpression_advances : Advances (namedExpression g) := by
  unfold namedExpression
  refine .behind .position fun _ => .behind .peek fun _ => .behind .peekSecond fun _ =>
    .ite ?_ hg.expression_advances
  exact .behind .name fun _ => .bind .advance fun _ => .bind hg.expression fun _ => .pure _

theorem namedExpression_keeps : Keeps (namedExpression g) := (namedExpression_advances hg).keeps

theorem element_advances : Advances (element g) := by
  unfold element
  exact .behind (.atSymbol _) fun _ =>
    .ite (starExpression_advances hg) (namedExpression_advances hg)

theorem element_keeps : Keeps (element g) := (element_advances hg).keeps

theorem nextElement_spends (closer : Bracket) : Spends (· = true) (nextElement g closer) :=
  .testSymbol (.bind (.atSymbol _) fun _ => .ite (.pure _) (go_keeps (element_keeps hg)))
    stop_spends

theorem moreElements_keeps (closer : Bracket) : Keeps (moreElements g closer) :=
  .repeatWhile (nextElement_spends hg closer).keeps

theorem target_advances : Advances (target g) := by
  unfold target
  exact .behind (.atSymbol _) fun _ => .ite (starExpression_advances hg) hg.operand_advances

theorem target_keeps : Keeps (target g) := (target_advances hg).keeps

theorem nextTarget_spends : Spends (· = true) (nextTarget g) :=
  .testSymbol (.bind .peek fun _ => .ite (.pure _) (go_keeps (target_keeps hg))) stop_spends

theorem targets_advances : Advances (targets g) := by
  unfold targets
  refine .behind .position fun _ => .bind (target_advances hg) fun _ => .bind (.atSymbol _) fun _ =>
    .ite ?_ (.pure _)
  exact .bind (.repeatWhile (nextTarget_spends hg).keeps) fun _ => .pure _

theorem targets_keeps : Keeps (targets g) := (targets_advances hg).keeps

omit hg in
/-- The keywords that open a clause are read only if all are there. -/
theorem acceptFor_ensures (ts : List Token) :
    Ensures acceptFor ts fun found rest => rest <:+ if found then ts.tail else ts := by
  unfold acceptFor
  simp [List.tail_suffix]

omit hg in
theorem acceptFor_spends : Spends (· = true) acceptFor := by
  unfold acceptFor
  refine .testKeyword (.pure true) (.behind .peekSecond fun _ => .ite ?_ stop_spends)
  exact .testKeyword (.bind .advance fun _ => .pure true) stop_spends

theorem nextCondition_spends : Spends (· = true) (nextCondition g) :=
  .testKeyword (go_keeps hg.disjunction) stop_spends

theorem clause_keeps : Keeps (clause g) := by
  unfold clause
  exact .bind (targets_keeps hg) fun _ => .bind (.expectKeyword _ _) fun _ =>
    .bind hg.disjunction fun _ => .repeatWhile (nextCondition_spends hg).keeps

theorem nextClause_spends : Spends (· = true) (nextClause g) :=
  .test acceptFor_spends (.bind (clause_keeps hg) fun _ => .pure _) stop_spends

/-- A comprehension has keywords at its front. -/
theorem comprehension_advances : Advances (comprehension g) := by
  have hclauses : Keeps (do
      clause g
      repeatWhile (nextClause g)) :=
    .bind (clause_keeps hg) fun _ => .repeatWhile (nextClause_spends hg).keeps
  unfold comprehension
  refine ⟨(acceptFor_spends.keeps.bind fun _ => hclauses.ite (.fail _)).tidy, fun ts => ?_⟩
  rw [ensures_bind]
  refine (acceptFor_ensures ts).mono fun found mid hmid => ?_
  cases found with
  | true => exact (hclauses.suffix mid).mono fun _ _ hrest => hrest.trans hmid
  | false => exact (ensures_fail _).mpr trivial

theorem comprehension_keeps : Keeps (comprehension g) := (comprehension_advances hg).keeps

omit hg in
theorem atComprehension_keeps : Keeps atComprehension := by
  unfold atComprehension
  refine .bind .peek fun l => ?_
  split
  all_goals exact .pure _

theorem argument_keeps : Keeps (argument g) := by
  unfold argument
  refine .bind .peek fun _ => .bind .peekSecond fun _ => .bind (.acceptIf _) fun _ => .ite ?_ ?_
  · exact .bind hg.expression fun _ => .pure _
  refine .ite ?_ ?_
  · exact .bind .advance fun _ => .bind .advance fun _ => .bind hg.expression fun _ => .pure _
  · exact .bind (namedExpression_keeps hg) fun _ => .bind atComprehension_keeps fun _ =>
      .ite (comprehension_keeps hg) (.pure _)

theorem nextArgument_spends : Spends (· = true) (nextArgument g) :=
  .behind (.atSymbol _) fun _ => .ite stop_spends (.behind (argument_keeps hg) fun _ => .accept _)

/-- The parentheses of a call are there. -/
theorem arguments_advances : Advances (arguments g) := by
  unfold arguments
  exact .bind (.expect _) fun _ =>
    .bind (.repeatWhile (nextArgument_spends hg).keeps) fun _ => .expect _

theorem arguments_keeps : Keeps (arguments g) := (arguments_advances hg).keeps

theorem laterBounds_keeps : Keeps (laterBounds g) := by
  unfold laterBounds
  refine .bind .peek fun _ => .ite ?_ (.bind hg.expression fun _ => ?_)
  -- With or without a bound, the same may follow.
  all_goals
    refine .bind (.accept _) fun _ => .ite ?_ (.pure _)
    exact .bind .peek fun _ => .ite (.pure _) (.bind hg.expression fun _ => .pure _)

theorem slice_keeps : Keeps (slice g) := by
  have hbounds : Keeps (do if ← accept .colon then laterBounds g) :=
    .bind (.accept _) fun _ => .ite (laterBounds_keeps hg) (.pure _)
  unfold slice
  refine .bind (.atSymbol _) fun _ => .ite ?_ ?_
  · exact .bind (starExpression_keeps hg) fun _ => .pure _
  · exact .bind (.atSymbol _) fun _ =>
      .ite hbounds (.bind (namedExpression_keeps hg) fun _ => hbounds)

theorem nextSlice_spends : Spends (· = true) (nextSlice g) :=
  .behind (slice_keeps hg) fun _ => .testSymbol (.bind (.atSymbol _) fun _ => .pure _) stop_spends

theorem slices_keeps : Keeps (slices g) := by
  unfold slices
  exact .bind (.atSymbol _) fun _ =>
    .ite (.fail _) (.repeatWhile (nextSlice_spends hg).keeps)

/-! ## Section 2: Parameters -/

theorem typeHint_keeps (annotated starred : Bool) : Keeps (typeHint g annotated starred) := by
  unfold typeHint
  refine .ite (.bind (.accept _) fun _ => .ite ?_ (.pure _)) (.pure _)
  exact .ite (.bind (starExpression_keeps hg) fun _ => .pure _)
    (.bind hg.expression fun _ => .pure _)

/-- Behind everything but a bracket that closes the list, a comma is read. -/
theorem parameter_spends (closer : Symbol) (annotated : Bool) (read : Parameters) :
    Spends Next.IsAgain (parameter g closer annotated read) := by
  have hhint := typeHint_keeps hg annotated
  have hnext : ∀ read : Parameters, Spends Next.IsAgain (do
      if ← accept .comma then pure (Next.again read)
      else pure (Next.done (σ := Parameters) read)) :=
    fun read => .testSymbol (.pure _) (done_spends _)
  unfold parameter
  refine .behind .position fun _ => .behind (.atSymbol _) fun _ => .ite (done_spends _) ?_
  refine .behind (.atSymbol _) fun _ => .ite ?_ (.behind (.atSymbol _) fun _ => .ite ?_
    (.behind (.accept _) fun _ => .ite ?_ ?_))
  -- A slash.
  · exact .ite (.fail _) (.behind .advance fun _ => hnext _)
  -- A star, with a name or without.
  · refine .ite (.fail _) (.behind .advance fun _ => .behind .peek fun _ => .ite ?_ (hnext _))
    exact .behind .name fun _ => .behind (hhint _) fun _ => hnext _
  -- Two stars.
  · refine .behind .name fun _ => .behind (hhint _) fun _ => .behind (.accept _) fun _ => ?_
    exact .behind (.atSymbol _) fun _ => .ite (done_spends _) (.fail _)
  -- A name, with a default or without.
  · refine .behind .name fun _ => .behind (hhint _) fun _ => .behind (.accept _) fun _ =>
      .ite ?_ ?_
    · exact .behind hg.expression fun _ => .ite (hnext _) (hnext _)
    · exact .ite (.ite (.failAt _ _) (hnext _)) (hnext _)

theorem parameters_keeps (closer : Symbol) (annotated : Bool) :
    Keeps (parameters g closer annotated) :=
  .loop (fun read => (parameter_spends hg closer annotated read).keeps) _

/-! ## Section 3: Atoms -/

omit hg in
/-- A string literal at the front is read. -/
theorem strings_ensures (ts : List Token) : Ensures strings ts fun _ rest =>
    rest <:+ ts ∧ ∀ text formatted bytes,
      (front ts).lexeme = .string text formatted bytes → rest <:+ ts.tail := by
  unfold strings nextString
  rw [ensures_bind, ensures_position, ensures_bind]
  refine (Ensures.loop_tokens (fun ts rest => rest <:+ ts ∧ ∀ text formatted bytes,
    (front ts).lexeme = .string text formatted bytes → rest <:+ ts.tail)
    (fun state ts => ?_) _ ts).mono fun _ rest hrest => ?_
  · rw [ensures_bind, ensures_peek]
    split
    case h_1 =>
      rw [ensures_bind, ensures_advance, ensures_pure]
      exact fun rest hrest =>
        ⟨hrest.1.trans (List.tail_suffix ts), fun _ _ _ _ => hrest.1⟩
    case h_2 hother =>
      rw [ensures_pure]
      exact ⟨List.suffix_refl ts, fun _ _ _ hstring => absurd hstring (hother _ _ _)⟩
  · simp only [ensures_ite, ensures_failAt, ensures_pure]
    exact ⟨fun _ => trivial, fun _ => ⟨fun _ => hrest, fun _ => hrest⟩⟩

omit hg in
theorem nextString_spends (read : Bool × Bool × Bool) : Spends Next.IsAgain (nextString read) := by
  refine .seen fun l => ?_
  split
  case h_1 => exact .inr ⟨nofun, .bind .advance fun _ => .pure _⟩
  case h_2 => exact .inl (done_spends _)

omit hg in
theorem strings_keeps : Keeps strings := by
  unfold strings
  exact .bind .position fun _ =>
    .bind (.loop (fun read => (nextString_spends read).keeps) _) fun _ =>
      .ite (.failAt _ _) (.ite (.pure _) (.pure _))

theorem yieldExpression_advances : Advances (yieldExpression g) := by
  unfold yieldExpression
  refine .behind .position fun _ => .bind .advance fun _ => .bind (.acceptKeyword _) fun _ => ?_
  refine .ite ?_ ?_
  · exact .bind hg.expression fun _ => .pure _
  · exact .bind .peek fun _ => .ite (.bind (starExpressions_keeps hg) fun _ => .pure _) (.pure _)

theorem parenthesized_advances : Advances (parenthesized g) := by
  unfold parenthesized
  refine .behind .position fun _ => .bind .advance fun _ => .bind (.accept _) fun _ => ?_
  refine .ite (.pure _) ?_
  refine .bind (.atKeyword _) fun _ => .ite ?_ (.bind (element_keeps hg) fun _ => ?_)
  · exact .bind (yieldExpression_advances hg).keeps fun _ => .bind (.expect _) fun _ => .pure _
  refine .bind atComprehension_keeps fun _ => .ite ?_ (.bind (.atSymbol _) fun _ => .ite ?_ ?_)
  · exact .bind (comprehension_keeps hg) fun _ => .bind (.expect _) fun _ => .pure _
  · exact .bind (moreElements_keeps hg _) fun _ => .bind (.expect _) fun _ => .pure _
  · exact .bind (.expect _) fun _ => .pure _

theorem listDisplay_advances : Advances (listDisplay g) := by
  unfold listDisplay
  refine .behind .position fun _ => .bind .advance fun _ => .bind (.accept _) fun _ => ?_
  refine .ite (.pure _) ?_
  refine .bind (element_keeps hg) fun _ => .bind atComprehension_keeps fun _ => .ite ?_ ?_
  · exact .bind (comprehension_keeps hg) fun _ => .bind (.expect _) fun _ => .pure _
  · exact .bind (moreElements_keeps hg _) fun _ => .bind (.expect _) fun _ => .pure _

theorem item_keeps : Keeps (item g) := by
  unfold item
  refine .bind (.accept _) fun _ => .ite (.bind hg.operand fun _ => .pure _) ?_
  exact .bind hg.expression fun _ => .bind (.expect _) fun _ => .bind hg.expression fun _ => .pure _

theorem nextItem_spends : Spends (· = true) (nextItem g) :=
  .testSymbol (.bind (.atSymbol _) fun _ => .ite (.pure _) (.bind (item_keeps hg) fun _ => .pure _))
    stop_spends

theorem moreItems_keeps : Keeps (moreItems g) := by
  unfold moreItems
  exact .bind (.repeatWhile (nextItem_spends hg).keeps) fun _ => .expect _

theorem braceDisplay_advances : Advances (braceDisplay g) := by
  have hcomprehension : ∀ e : Expr, Keeps (do
      comprehension g
      expect (.closing .curly)
      pure e) :=
    fun e => .bind (comprehension_keeps hg) fun _ => .bind (.expect _) fun _ => .pure e
  unfold braceDisplay
  refine .behind .position fun _ => .bind .advance fun _ => .bind (.accept _) fun _ => ?_
  refine .ite (.pure _) ?_
  refine .bind (.atSymbol _) fun _ => .ite ?_ ?_
  · exact .bind (item_keeps hg) fun _ => .bind (moreItems_keeps hg) fun _ => .pure _
  refine .bind (element_keeps hg) fun _ => .bind (.accept _) fun _ => .ite ?_ ?_
  · refine .bind hg.expression fun _ => .bind atComprehension_keeps fun _ =>
      .ite (hcomprehension _) ?_
    exact .bind (moreItems_keeps hg) fun _ => .pure _
  · refine .bind atComprehension_keeps fun _ => .ite (hcomprehension _) ?_
    exact .bind (moreElements_keeps hg _) fun _ => .bind (.expect _) fun _ => .pure _

theorem atom_advances : Advances (atom g) := by
  have hone : ∀ e : Expr, Advances (do
      advance
      pure e) := fun e => .bind .advance fun _ => .pure e
  unfold atom
  refine .behind .position fun start => ⟨.bind Keeps.peek.tidy fun l => ?_, fun ts => ?_⟩
  · split
    case h_1 => exact .ite (hone _).tidy (Advances.fail _).tidy
    case h_2 | h_3 | h_8 => exact (hone _).tidy
    case h_4 => exact strings_keeps.tidy
    case h_5 => exact (parenthesized_advances hg).tidy
    case h_6 => exact (listDisplay_advances hg).tidy
    case h_7 => exact (braceDisplay_advances hg).tidy
    case h_9 => exact (Advances.fail _).tidy
  · rw [ensures_bind, ensures_peek]
    split
    case h_1 => exact ((hone _).ite (.fail _)).suffix_tail ts
    case h_2 | h_3 | h_8 => exact (hone _).suffix_tail ts
    case h_4 hfront => exact (strings_ensures ts).mono fun _ _ hrest => hrest.2 _ _ _ hfront
    case h_5 => exact (parenthesized_advances hg).suffix_tail ts
    case h_6 => exact (listDisplay_advances hg).suffix_tail ts
    case h_7 => exact (braceDisplay_advances hg).suffix_tail ts
    case h_9 => exact (Advances.fail _).suffix_tail ts

theorem nextTrailer_spends (start : Position) (read : Expr) :
    Spends Next.IsAgain (nextTrailer g start read) := by
  unfold nextTrailer
  refine .testSymbol (.bind .name fun _ => .pure _)
    (.seenSymbol ?_ (.testSymbol ?_ (done_spends _)))
  · exact .bind (arguments_advances hg) fun _ => .pure _
  · exact .bind (slices_keeps hg) fun _ => .bind (.expect _) fun _ => .pure _

theorem primary_advances : Advances (primary g) := by
  unfold primary
  exact .behind .position fun start => .bind (atom_advances hg) fun _ =>
    .loop (fun read => (nextTrailer_spends hg start read).keeps) _

/-! ## Section 4: Operators -/

omit hg in
theorem nextOperand_spends {operator : Parser Bool} {operand : Parser Expr}
    (hoperator : Spends (· = true) operator) (hoperand : Keeps operand) (start : Position)
    (read : Expr) : Spends Next.IsAgain (nextOperand operator operand start read) :=
  .test hoperator (.bind hoperand fun _ => .pure _) (done_spends _)

omit hg in
theorem chain_advances {operator : Parser Bool} {operand : Parser Expr}
    (hoperator : Spends (· = true) operator) (hoperand : Advances operand) :
    Advances (chain operator operand) := by
  unfold chain
  exact .behind .position fun start => .bind hoperand fun _ =>
    .loop (fun read => (nextOperand_spends hoperator hoperand.keeps start read).keeps) _

theorem power_advances : Advances (power g) := by
  unfold power
  refine .behind .position fun _ => .behind (.acceptKeyword _) fun _ =>
    .bind (primary_advances hg) fun _ => ?_
  refine .bind (.accept _) fun _ => .ite (.bind hg.factor fun _ => .pure _) ?_
  exact .ite (.pure _) (.pure _)

theorem factor_advances : Advances (factor g) := by
  unfold factor
  exact .behind .position fun _ => .behind (.acceptIf _) fun _ =>
    .ite (.bind hg.factor_advances fun _ => .pure _) (power_advances hg)

theorem binary_advances (levels : List (List Symbol)) : Advances (binary g levels) := by
  induction levels with
  | nil => exact factor_advances hg
  | cons level tighter ih => exact chain_advances (.acceptIf rfl) ih

omit hg in
theorem acceptComparison_keeps : Keeps acceptComparison := by
  unfold acceptComparison
  refine .bind .peek fun l => ?_
  split
  · exact .ite (.bind .advance fun _ => .pure _) (.pure _)
  · exact .bind .advance fun _ => .pure _
  · refine .bind .peekSecond fun _ => .ite ?_ (.pure _)
    exact .bind .advance fun _ => .bind .advance fun _ => .pure _
  · exact .bind .advance fun _ => .bind (.acceptKeyword _) fun _ => .pure _
  · exact .pure _

omit hg in
theorem acceptComparison_spends : Spends (· = true) acceptComparison := by
  have htail : ∀ ts, Ensures acceptComparison ts fun found rest =>
      found = true → rest <:+ ts.tail := by
    intro ts
    unfold acceptComparison
    rw [ensures_bind, ensures_peek]
    split <;> simp [List.tail_suffix]
  refine ⟨acceptComparison_keeps, fun ts => ?_⟩
  cases ts with
  | nil => exact fun found rest hread => by cases hread; exact nofun
  | cons token ts =>
    exact (htail _).mono fun found rest hrest hfound =>
      length_lt_of_suffix_tail (hrest hfound) (List.cons_ne_nil token ts)

theorem comparison_advances : Advances (comparison g) :=
  chain_advances acceptComparison_spends (binary_advances hg _)

theorem inversion_advances : Advances (inversion g) := by
  unfold inversion
  exact .behind .position fun _ => .behind (.acceptKeyword _) fun _ =>
    .ite (.bind hg.inversion_advances fun _ => .pure _) (comparison_advances hg)

theorem conjunction_advances : Advances (conjunction g) :=
  chain_advances (.acceptIf rfl) (inversion_advances hg)

theorem disjunction_advances : Advances (disjunction g) :=
  chain_advances (.acceptIf rfl) (conjunction_advances hg)

theorem lambda_advances : Advances (lambda g) := by
  unfold lambda
  exact .behind .position fun _ => .bind .advance fun _ => .bind (parameters_keeps hg _ _) fun _ =>
    .bind (.expect _) fun _ => .bind hg.expression fun _ => .pure _

theorem expression_advances : Advances (expression g) := by
  unfold expression
  refine .behind .position fun _ => .behind (.atKeyword _) fun _ => .ite (lambda_advances hg) ?_
  refine .bind (disjunction_advances hg) fun _ => .bind (.acceptKeyword _) fun _ => .ite ?_ (.pure _)
  exact .bind hg.disjunction fun _ => .bind (.expectKeyword _ _) fun _ =>
    .bind hg.expression fun _ => .pure _

/-! ## Section 5: The knot -/

omit hg in
/-- What the fuel is for matters as little as how much of it there is. -/
theorem grammarOver_keep {bottom : Nonterminals} (hbottom : bottom.Keep) (fuel : List Token) :
    (grammarOver bottom fuel).Keep := by
  induction fuel with
  | nil => exact hbottom
  | cons _ fuel ih =>
    exact ⟨expression_advances ih, disjunction_advances ih, inversion_advances ih,
      binary_advances ih _, factor_advances ih⟩

omit hg in
theorem spent_keep : Nonterminals.spent.Keep := ⟨.spent, .spent, .spent, .spent, .spent⟩

omit hg in
theorem grammarUpTo_keep (fuel : List Token) : (grammarUpTo fuel).Keep :=
  grammarOver_keep spent_keep fuel

end Grammar

/-- The parsers of the grammar of expressions read a token, and leave the
    end of what they were given. -/
theorem grammar_keep : grammar.Keep where
  expression_advances :=
    .of_same (fun ts => Grammar.expression_advances (Grammar.grammarUpTo_keep ts)) fun _ => rfl
  disjunction_advances :=
    .of_same (fun ts => Grammar.disjunction_advances (Grammar.grammarUpTo_keep ts)) fun _ => rfl
  inversion_advances :=
    .of_same (fun ts => Grammar.inversion_advances (Grammar.grammarUpTo_keep ts)) fun _ => rfl
  operand_advances :=
    .of_same (fun ts => Grammar.binary_advances (Grammar.grammarUpTo_keep ts) _) fun _ => rfl
  factor_advances :=
    .of_same (fun ts => Grammar.factor_advances (Grammar.grammarUpTo_keep ts)) fun _ => rfl

end StyleCheck
