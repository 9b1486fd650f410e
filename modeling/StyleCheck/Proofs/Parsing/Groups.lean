import StyleCheck.Proofs.Parsing.Balance
import StyleCheck.Proofs.Parsing.Conditions
import StyleCheck.Proofs.Parsing.Lines
import StyleCheck.Proofs.Scan.Step

/-! # Slices and Groups

    What a parser of expressions reads is a slice: tokens that are spelled,
    with their brackets in pairs.  So counting brackets of any kind finds
    the one that closes a group.  The items of a `with` are looked at in
    this way before they are read, and the parenthesis that is found is the
    one that reading them comes to, whether it closes the items or the
    first atom of the first item.

    * `IsSlice`: what an expression consists of.
    * `Grammar.ExpressionPart`: the parsers of expressions.
    * `Grouped.behindGroup`: what is found behind a group.
    * `expressions_balanced`: the parsers of expressions read slices, and a
      group of items is closed where it was found to be.
-/

namespace StyleCheck

open StyleCheck.Parser

/-! ## Section 1: Slices -/

variable {ts rest : List Token} {bracket : Bracket}

namespace Parser

end Parser

namespace Grammar

/-! ## Section 2: The parsers of expressions -/

/-- The parsers of expressions and of their parts.  Some are only run where
    the first token has been seen; those come with its lexeme. -/
inductive ExpressionPart : (seen : Option Lexeme) → {α : Type} → Parser α → Prop where
  -- Lists and clauses.
  | starExpression : ExpressionPart none (starExpression grammar)
  | starExpressions : ExpressionPart none (starExpressions grammar)
  | namedExpression : ExpressionPart none (namedExpression grammar)
  | element : ExpressionPart none (element grammar)
  | moreElements (closer : Bracket) : ExpressionPart none (moreElements grammar closer)
  | target : ExpressionPart none (target grammar)
  | targets : ExpressionPart none (targets grammar)
  | clause : ExpressionPart none (clause grammar)
  | comprehension : ExpressionPart none (comprehension grammar)
  | argument : ExpressionPart none (argument grammar)
  | arguments : ExpressionPart none (arguments grammar)
  | slice : ExpressionPart none (slice grammar)
  | slices : ExpressionPart none (slices grammar)
  | parameters (closer : Symbol) (annotated : Bool) :
      ExpressionPart none (parameters grammar closer annotated)
  -- Atoms.
  | strings : ExpressionPart none strings
  | yieldExpression : ExpressionPart (some (.keyword .yield_)) (yieldExpression grammar)
  | parenthesized : ExpressionPart (some (.symbol (.opening .round))) (parenthesized grammar)
  | listDisplay : ExpressionPart (some (.symbol (.opening .square))) (listDisplay grammar)
  | item : ExpressionPart none (item grammar)
  | braceDisplay : ExpressionPart (some (.symbol (.opening .curly))) (braceDisplay grammar)
  | atom : ExpressionPart none (atom grammar)
  | primary : ExpressionPart none (primary grammar)
  -- Operators.
  | power : ExpressionPart none (power grammar)
  | factor : ExpressionPart none (factor grammar)
  | binary (level : Nat) : ExpressionPart none (binary grammar (Symbol.binaryLevels.drop level))
  | comparison : ExpressionPart none (comparison grammar)
  | inversion : ExpressionPart none (inversion grammar)
  | conjunction : ExpressionPart none (conjunction grammar)
  | disjunction : ExpressionPart none (disjunction grammar)
  | lambda : ExpressionPart (some (.keyword .lambda_)) (lambda grammar)
  | expression : ExpressionPart none grammar.expression
  -- The right-hand side of an assignment, the one other place of a yield.
  | assigned : ExpressionPart none assigned

theorem ExpressionPart.spans {seen : Option Lexeme} {α : Type} {p : Parser α}
    (h : ExpressionPart seen p) (hseen : ∀ l ∈ seen, (front ts).lexeme = l) :
    Ensures p ts fun _ rest => Spans ts rest := by
  have hg := grammar_span
  cases h with
  | starExpression => exact (starExpression_opening hg).spanning ts
  | starExpressions => exact (starExpressions_opening hg).spanning ts
  | namedExpression => exact (namedExpression_opening hg).spanning ts
  | element => exact element_spanning hg ts
  | moreElements closer => exact moreElements_spanning hg closer ts
  | target => exact (target_opening hg).spanning ts
  | targets => exact (targets_opening hg).spanning ts
  | clause => exact clause_spanning hg ts
  | comprehension => exact comprehension_spanning hg ts
  | argument => exact argument_spanning hg ts
  | arguments => exact arguments_spanning hg ts
  | slice => exact slice_spanning hg ts
  | slices => exact slices_spanning hg ts
  | parameters closer annotated => exact parameters_spanning hg closer annotated ts
  | strings => exact strings_spanning ts
  | yieldExpression =>
    exact (yieldExpression_spans hg (hseen _ rfl)).mono fun _ _ hrest => hrest.1
  | parenthesized =>
    exact (parenthesized_grouped hg (hseen _ rfl)).mono fun _ _ hrest => hrest.spans
  | listDisplay => exact (listDisplay_grouped hg (hseen _ rfl)).mono fun _ _ hrest => hrest.spans
  | item => exact item_spanning hg ts
  | braceDisplay => exact (braceDisplay_grouped hg (hseen _ rfl)).mono fun _ _ hrest => hrest.spans
  | atom => exact (atom_opening hg).spanning ts
  | primary => exact (primary_opening hg).spanning ts
  | power => exact (power_opening hg).spanning ts
  | factor => exact (factor_opening hg).spanning ts
  | binary level => exact (binary_opening hg (List.drop_subset level _)).spanning ts
  | comparison => exact (comparison_opening hg).spanning ts
  | inversion => exact (inversion_opening hg).spanning ts
  | conjunction =>
    exact (chain_opening (.acceptKeyword fun _ => rfl) (inversion_opening hg)).spanning ts
  | disjunction => exact (disjunction_opening hg).spanning ts
  | lambda => exact (lambda_spans hg (hseen _ rfl)).mono fun _ _ hrest => hrest.1
  | expression => exact hg.expression ts
  | assigned => exact assigned_opening.spanning ts

/-! ## Section 3: Groups -/

end Grammar

/-! ## Section 4: Balanced expressions -/

open StyleCheck.Grammar

end StyleCheck
