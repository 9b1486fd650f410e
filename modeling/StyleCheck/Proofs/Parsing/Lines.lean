import StyleCheck.Proofs.Parsing.Anchor
import StyleCheck.Proofs.Parsing.Spans

/-! # The Tokens of a Line

    What a small statement reads is what an expression may read, keywords
    of its own included.  Only a type alias skips tokens that it does not
    look at.

    * `importsFrom_spanning`, `expressionStatement_opening` and others: the
      parts of small statements.
    * `smallStatement_spans`: small statements.
    * `withItems_spanning`: the items of a `with`, grouped or not.
-/

namespace StyleCheck

open StyleCheck.Parser

namespace Grammar

variable {ts : List Token}

/-! ## Section 1: Names -/

theorem names_spanning {separator : Symbol}
    (hfits : ∀ next, (Lexeme.symbol separator).fits next = true) : Spanning (names separator) := by
  unfold names nextName
  exact .repeatWhile (.bind .name fun _ => .accept hfits)

theorem asName_spanning : Spanning asName := by
  unfold asName
  exact .bind (.acceptKeyword fun _ => rfl) fun _ => .ite (.bind .name fun _ => .pure _) (.pure _)

theorem imports_spanning : Spanning imports := by
  unfold imports nextImport
  exact .repeatWhile (.bind (names_spanning fun _ => rfl) fun _ =>
    .bind asName_spanning fun _ => .accept fun _ => rfl)

theorem importedNames_spanning (parenthesized : Bool) : Spanning (importedNames parenthesized) := by
  unfold importedNames nextImportedName
  refine .repeatWhile (.bind (.atSymbol _) fun _ => .ite (.pure _) ?_)
  exact .bind .name fun _ => .bind asName_spanning fun _ => .accept fun _ => rfl

theorem fits_of_isDots (l next : Lexeme) (h : isDots l = true) : l.fits next = true := by
  rcases Bool.or_eq_true_iff.mp h with h | h
  all_goals
    rw [beq_iff_eq.mp h]
    rfl

theorem importsFrom_spanning : Spanning importsFrom := by
  -- The names may stand in parentheses.
  have hgroup : Spanning (do
      let parenthesized ← accept (.opening .round)
      importedNames parenthesized
      if parenthesized then expect (.closing .round)) := by
    intro ts
    rw [ensures_bind, ensures_accept]
    refine ⟨fun hopen => ?_, fun _ => ?_⟩
    · rw [ensures_bind]
      refine (importedNames_spanning true ts.tail).mono fun _ mid hmid => ?_
      rw [if_pos rfl, ensures_expect]
      exact fun hclose => Grouped.spans ⟨hopen, mid, hmid, hclose, rfl⟩
    · exact Spanning.bind (importedNames_spanning false) (fun _ => .pure ()) ts
  have hnames : Spanning (do
      expectKeyword .import_ .invalidSyntax
      unless ← accept .star do
        let parenthesized ← accept (.opening .round)
        importedNames parenthesized
        if parenthesized then expect (.closing .round)) :=
    .bind (.expectKeyword _ fun _ => rfl) fun _ => .bind (.accept fun _ => rfl) fun _ =>
      .ite (.pure _) hgroup
  unfold importsFrom
  refine .bind .peek fun _ => .bind (.repeatWhile (.acceptIf fits_of_isDots)) fun _ =>
    .bind (.atKeyword _) fun _ => .ite (.ite hnames (.bind (.fail _) fun _ => hnames)) ?_
  exact .bind (names_spanning fun _ => rfl) fun _ => hnames

/-! ## Section 2: Assignments -/

theorem assigned_opening : Opening assigned := by
  intro ts
  unfold assigned
  rw [ensures_bind, ensures_atKeyword, ensures_ite]
  exact ⟨fun hyield => yieldExpression_spans grammar_span (of_decide_eq_true hyield),
    fun _ => starExpressions_opening grammar_span ts⟩

theorem checkTargets_spanning (targets : List Expr) : Spanning (checkTargets targets) := by
  induction targets with
  | nil => exact .pure _
  | cons target targets ih =>
    unfold checkTargets
    split
    · exact .failAt _ _
    · exact ih

theorem assignment_spanning (line : Nat) (first : Expr) : Spanning (assignment line first) := by
  unfold assignment nextValue
  refine .bind (.loop (fun _ => ?_) _) fun _ => .bind (checkTargets_spanning _) fun _ => .pure _
  exact .bind (.accept fun _ => rfl) fun _ =>
    .ite (.bind assigned_opening.spanning fun _ => .pure _) (.pure _)

theorem fits_of_isAugmentedAssignment {symbol : Symbol} (h : symbol.isAugmentedAssignment = true)
    (next : Lexeme) : (Lexeme.symbol symbol).fits next = true := by
  cases symbol <;> first | rfl | cases h

/-- What follows the first expression is read where it has been looked
    at. -/
theorem expressionStatement_opening : Opening expressionStatement := by
  have hvalue : ∀ stmt : Stmt, Spanning (do
      let _ ← assigned
      pure stmt) := fun _ => .bind assigned_opening.spanning fun _ => .pure _
  intro ts
  unfold expressionStatement
  rw [ensures_bind, ensures_line]
  refine Opening.bind assigned_opening (fun first us => ?_) ts
  rw [ensures_bind, ensures_peek]
  split
  case h_1 => exact assignment_spanning _ _ us
  case h_2 hcolon =>
    rw [ensures_ite, ensures_failAt, ensures_bind, ensures_advance]
    refine ⟨fun _ => ?_, fun _ => trivial⟩
    have hannotated : ∀ stmt : Stmt, Opening (do
        let _ ← grammar.expression
        if ← accept .equal then
          let _ ← assigned
        pure stmt) :=
      fun _ => .bind grammar_span.expression_opening fun _ => .bind (.accept fun _ => rfl) fun _ =>
        .ite (hvalue _) (.pure _)
    refine (hannotated _ us.tail).mono fun _ _ hrest => .trans (.one ?_) hrest.1
    rw [hcolon]
    exact bne_iff_ne.mpr hrest.2
  case h_3 symbol _ _ hsymbol =>
    rw [ensures_ite, ensures_ite, ensures_failAt, ensures_pure]
    refine ⟨fun haugmented => ⟨fun _ => ?_, fun _ => trivial⟩, fun _ => .nothing us⟩
    exact (Opening.advance (fits_of_isAugmentedAssignment haugmented) hsymbol (hvalue _)).mono
      fun _ _ hrest => hrest.1
  case h_4 => exact (ensures_pure _).mpr (.nothing us)

/-! ## Section 3: Small statements -/

theorem optionalExpressions_spanning : Spanning optionalExpressions := by
  unfold optionalExpressions
  exact .bind .peek fun _ =>
    .ite (.bind (starExpressions_opening grammar_span).spanning fun _ => .pure _) (.pure _)

/-- No definition starts with the keyword of a small statement. -/
theorem fits_of_afterKeyword? {word : Keyword} {parser : Parser SimpleKind}
    (h : afterKeyword? word = some parser) (next : Lexeme) :
    (Lexeme.keyword word).fits next = true := by
  cases word <;> first | rfl | cases h

theorem afterKeyword?_spanning {word : Keyword} {parser : Parser SimpleKind}
    (h : afterKeyword? word = some parser) : Spanning parser := by
  have hexpression := grammar_span.expression
  unfold afterKeyword? at h
  split at h
  case h_12 => cases h
  all_goals cases h
  case h_1 | h_2 | h_3 => exact .pure _
  case h_4 => exact .bind optionalExpressions_spanning fun _ => .pure _
  case h_5 =>
    refine .bind .peek fun _ => .ite (.bind hexpression fun _ => ?_) (.pure _)
    exact .bind (.acceptKeyword fun _ => rfl) fun _ =>
      .ite (.bind hexpression fun _ => .pure _) (.pure _)
  case h_6 | h_7 => exact .bind (names_spanning fun _ => rfl) fun _ => .pure _
  case h_8 => exact .bind (starExpressions_opening grammar_span).spanning fun _ => .pure _
  case h_9 =>
    refine .bind hexpression fun _ => .bind (.accept fun _ => rfl) fun _ => ?_
    exact .ite (.bind hexpression fun _ => .pure _) (.pure _)
  case h_10 => exact .bind imports_spanning fun _ => .pure _
  case h_11 => exact .bind importsFrom_spanning fun _ => .pure _

/-- A small statement reads what an expression may, unless it is a type
    alias. -/
theorem smallStatement_spans (h : atTypeAlias ts = .ok (false, ts)) :
    Ensures smallStatement ts fun _ rest => Spans ts rest := by
  unfold smallStatement
  rw [ensures_bind, ensures_line, ensures_bind]
  intro found mid hfound
  rw [h] at hfound
  cases hfound
  rw [if_neg Bool.false_ne_true, ensures_bind, ensures_peek]
  split
  case h_1 parser hparser =>
    unfold keywordStatement? at hparser
    split at hparser
    case h_1 hword =>
      refine (Opening.advance (fits_of_afterKeyword? hparser) hword ?_).mono
        fun _ _ hrest => hrest.1
      exact .bind (afterKeyword?_spanning hparser) fun _ => .pure _
    case h_2 => cases hparser
  case h_2 => exact expressionStatement_opening.spanning ts

/-! ## Section 4: Items -/

theorem withItem_spanning : Spanning withItem := by
  unfold withItem
  refine .bind grammar_span.expression fun _ => .bind (.acceptKeyword fun _ => rfl) fun _ => ?_
  exact .ite (.bind grammar_span.operand fun _ => .pure _) (.pure _)

/-- The items between two parentheses. -/
theorem groupedItems_closing : Closing .round (do
    repeatWhile do
      if ← atSymbol (.closing .round) then pure false
      else
        withItem
        accept .comma
    expect (.closing .round)) := by
  refine .bind (.repeatWhile ?_) fun _ => .expect
  exact .bind (.atSymbol _) fun _ =>
    .ite (.pure _) (.bind withItem_spanning fun _ => .accept fun _ => rfl)

theorem withItems_spanning : Spanning withItems := by
  intro ts
  unfold withItems nextGroupedItem nextWithItem
  rw [ensures_bind, ensures_remaining, ensures_bind, ensures_atSymbol, ensures_ite]
  refine ⟨fun hgroup => ?_, fun _ => ?_⟩
  · have hopen := of_decide_eq_true (Bool.and_eq_true_iff.mp hgroup).1
    exact (Closing.advance hopen groupedItems_closing).mono fun _ _ hrest => hrest.spans
  · exact Spanning.repeatWhile (.bind withItem_spanning fun _ => .accept fun _ => rfl) ts

end Grammar

end StyleCheck
