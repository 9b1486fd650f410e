import StyleCheck.Proofs.Parsing.Leads
import StyleCheck.Proofs.Parsing.Spans
import StyleCheck.Proofs.Scan.Brackets

/-! # Balanced Expressions

    Outside of brackets, an expression has a colon behind each lambda and
    nowhere else.  So behind a whole expression the parameters of a lambda
    are never read on.

    * `Balanced`: neither a bracket nor a lambda is left open.
    * `BalancedSince`: nothing has been left open since some place.
    * `Nonterminals.Balance`: the parsers of a grammar leave nothing open.
    * `grammar_balance`: those of the grammar of expressions.
-/

namespace StyleCheck

open StyleCheck.Parser

/-! ## Section 1: Balanced tokens -/

/-- Tokens in which brackets stand in pairs, and outside of these a colon
    behind each lambda.  A word that is the name of an argument opens
    nothing. -/
inductive Balanced : List Token → Prop where
  | nil : Balanced []
  | token {t : Token} {ts : List Token} (ht : t.lexeme.isInert = true) (hbehind : Balanced ts) :
      Balanced (t :: ts)
  | equal {p : Position} {ts : List Token} (hbehind : Balanced ts) :
      Balanced (⟨.symbol .equal, p⟩ :: ts)
  | named {word : Keyword} {p q : Position} {ts : List Token} (hbehind : Balanced ts) :
      Balanced (⟨.keyword word, p⟩ :: ⟨.symbol .equal, q⟩ :: ts)
  | group {bracket : Bracket} {p q : Position} {inner ts : List Token}
      (hinner : Nested (bracketTokens inner)) (hbehind : Balanced ts) :
      Balanced (⟨.symbol (.opening bracket), p⟩ ::
        (inner ++ ⟨.symbol (.closing bracket), q⟩ :: ts))
  | lambda {p q : Position} {parameters ts : List Token} (hparameters : Balanced parameters)
      (hbehind : Balanced ts) :
      Balanced (⟨.keyword .lambda_, p⟩ :: (parameters ++ ⟨.symbol .colon, q⟩ :: ts))

variable {read base ts rest all : List Token} {t : Token}

theorem Balanced.append {u v : List Token} (hu : Balanced u) (hv : Balanced v) :
    Balanced (u ++ v) := by
  induction hu with
  | nil => exact hv
  | token ht _ ih => exact .token ht ih
  | equal _ ih => exact .equal ih
  | named _ ih => exact .named ih
  | group hinner _ ih => simpa using Balanced.group hinner ih
  | lambda hparameters _ _ ih => simpa using Balanced.lambda hparameters ih

/-- What an expression reads has its brackets in pairs. -/
theorem Parser.Spans.nested (h : Spans ts rest) :
    ∃ w, ts = w ++ rest ∧ Nested (bracketTokens w) := by
  induction h with
  | nothing ts => exact ⟨[], rfl, .nil⟩
  | @token t ts rest hfits _ ih =>
    obtain ⟨w, rfl, hw⟩ := ih
    refine ⟨t :: w, rfl, ?_⟩
    have hbracket : t.lexeme.isBracket = false := by
      cases hlexeme : t.lexeme with
      | symbol symbol => cases symbol <;> first | rfl | simp [hlexeme, Lexeme.fits] at hfits
      | _ => rfl
    rwa [bracketTokens, List.filter_cons_of_neg (by simp [hbracket])]
  | @group bracket p q ts mid rest _ _ ihinner ih =>
    obtain ⟨inner, rfl, hinner⟩ := ihinner
    obtain ⟨w, rfl, hw⟩ := ih
    refine ⟨⟨.symbol (.opening bracket), p⟩ :: (inner ++ ⟨.symbol (.closing bracket), q⟩ :: w),
      by simp, ?_⟩
    have hpair : bracketTokens
        (⟨.symbol (.opening bracket), p⟩ :: (inner ++ ⟨.symbol (.closing bracket), q⟩ :: w)) =
        ⟨.symbol (.opening bracket), p⟩ ::
          (bracketTokens inner ++ ⟨.symbol (.closing bracket), q⟩ :: bracketTokens w) := by
      simp [bracketTokens, Lexeme.isBracket]
    rw [hpair]
    exact .pair hinner hw

theorem Parser.Grouped.balanced {bracket : Bracket} (h : Grouped bracket ts rest) :
    ∃ w, ts = w ++ rest ∧ Balanced w := by
  obtain ⟨hopen, mid, hinner, hclose, rfl⟩ := h
  obtain ⟨p, hts⟩ := eq_cons_of_front hopen (by simp)
  obtain ⟨q, hmid⟩ := eq_cons_of_front hclose (by simp)
  obtain ⟨inner, hsplit, hnested⟩ := hinner.nested
  refine ⟨⟨.symbol (.opening bracket), p⟩ :: (inner ++ [⟨.symbol (.closing bracket), q⟩]), ?_,
    .group hnested .nil⟩
  rw [hmid] at hsplit
  rw [hts, hsplit]
  simp

/-- The tokens that have been read since `base` are balanced. -/
def BalancedSince (base read : List Token) : Prop := ∃ w, read = base ++ w ∧ Balanced w

namespace BalancedSince

theorem refl (base : List Token) : BalancedSince base base := ⟨[], by simp, .nil⟩

theorem append {w : List Token} (h : BalancedSince base read) (hw : Balanced w) :
    BalancedSince base (read ++ w) := by
  obtain ⟨v, rfl, hv⟩ := h
  exact ⟨v ++ w, by simp, hv.append hw⟩

theorem concat (h : BalancedSince base read) (ht : t.lexeme.isInert = true) :
    BalancedSince base (read ++ [t]) :=
  h.append (.token ht .nil)

/-- Any word may name an argument. -/
theorem named {p : Position} (h : BalancedSince base read) (ht : t.lexeme.isWord = true) :
    BalancedSince base (read ++ [t] ++ [⟨.symbol .equal, p⟩]) := by
  obtain ⟨lexeme, q⟩ := t
  rw [List.append_assoc]
  cases lexeme with
  | keyword word => exact h.append (.named .nil)
  | name => exact h.append (.token rfl (.equal .nil))
  | _ => cases ht

theorem places (base : List Token) : OperandPlaces (BalancedSince base) (BalancedSince base) where
  relax := id
  inert := concat
  atom h ht := h.concat (Lexeme.isInert_of_isAtom ht)
  equal h := h.append (.equal .nil)

end BalancedSince

/-- Brackets are balanced, whatever is between them. -/
theorem Parser.Grouped.leads {bracket : Bracket} (h : Grouped bracket ts rest)
    (hts : read ++ ts = all) :
    ∃ read', read' ++ rest = all ∧ (BalancedSince base read → BalancedSince base read') := by
  obtain ⟨w, rfl, hw⟩ := h.balanced
  exact ⟨read ++ w, by rw [List.append_assoc, hts], fun h => h.append hw⟩

/-- The parsers that are referred back to leave nothing open. -/
def Nonterminals.Balance (g : Nonterminals) (all : List Token) : Prop :=
  ∀ base, g.Guide all (BalancedSince base) (BalancedSince base)

/-! ## Section 2: The parsers of the grammar -/

namespace Grammar

variable {g : Nonterminals} (hspan : g.Span)

include hspan

theorem nextTrailer_balanced (start : Position) (read : Expr) :
    Leads all (BalancedSince base) (nextTrailer g start read) fun _ => BalancedSince base := by
  have hcall : Leads all (BalancedSince base) (arguments g) fun _ => BalancedSince base :=
    fun _ ts hts => (arguments_grouped hspan ts).mono fun _ _ hrest => hrest.leads hts
  unfold nextTrailer
  refine .accept (·.concat rfl) (.bind (.name (·.concat rfl)) fun _ => .pure id) ?_
  refine .bind (.atSymbol _) fun _ => .ite (fun _ => .bind hcall fun _ => .pure id)
    (fun _ read ts hts => ?_)
  rw [ensures_bind, ensures_accept]
  refine ⟨fun hopen => ?_, fun _ => (ensures_pure _).mpr ⟨read, hts, id⟩⟩
  rw [if_pos rfl]
  exact (subscript_closing hspan _ ts.tail).mono fun _ _ hrest => Grouped.leads ⟨hopen, hrest⟩ hts

omit hspan in
/-- The colon of a lambda stands behind its parameters. -/
theorem lambda_balanced (hg : g.Balance all) : LeadsAt all (.keyword .lambda_)
    (BalancedSince base) (lambda g) fun _ => BalancedSince base := by
  have hparameters : ∀ base, Leads all (BalancedSince base) (parameters g .colon false)
      fun _ => BalancedSince base := fun base =>
    parameters_leads (hg base) .colon annotation_none_leads
  have hvalue : ∀ start : Position, Leads all (BalancedSince base) (do
      let _ ← g.expression
      pure (⟨.other, start⟩ : Expr)) fun _ => BalancedSince base := fun _ =>
    .bind (hg base).expression fun _ => .pure id
  unfold lambda
  refine .position fun start read ts hts hfront => ?_
  obtain ⟨p, hcons⟩ := eq_cons_of_front hfront (by simp)
  rw [hcons, List.append_cons] at hts
  rw [ensures_bind, ensures_advance, ensures_bind]
  -- What the parameters leave open is counted from the keyword on.
  refine (hparameters (read ++ [⟨.keyword .lambda_, p⟩]) _ _ hts).mono fun _ mid hmid => ?_
  obtain ⟨between, hall, hbetween⟩ := hmid
  obtain ⟨w, rfl, hw⟩ := hbetween (.refl _)
  rw [ensures_bind, ensures_expect]
  intro hcolon
  obtain ⟨q, htail⟩ := eq_cons_of_front hcolon (by simp)
  refine (hvalue start).behind hall htail fun h => ?_
  have hlambda : Balanced (⟨.keyword .lambda_, p⟩ :: (w ++ [⟨.symbol .colon, q⟩])) :=
    .lambda hw .nil
  simpa using h.append hlambda

theorem balanced_parts (hg : g.Balance all) (base : List Token) :
    g.Parts all (BalancedSince base) (BalancedSince base) where
  toGuide := hg base
  parenthesized _ _ hts hfront :=
    (parenthesized_grouped hspan hfront).mono fun _ _ hrest => hrest.leads hts
  listDisplay _ _ hts hfront :=
    (listDisplay_grouped hspan hfront).mono fun _ _ hrest => hrest.leads hts
  braceDisplay _ _ hts hfront :=
    (braceDisplay_grouped hspan hfront).mono fun _ _ hrest => hrest.leads hts
  trailer := nextTrailer_balanced hspan
  lambda := lambda_balanced hg

omit hspan in
theorem grammarUpTo_balance (fuel : List Token) : (grammarUpTo fuel).Balance all := by
  induction fuel with
  | nil => exact fun base => grammarUpTo_guide_nil (BalancedSince.places base)
  | cons _ fuel ih =>
    exact fun base => grammarUpTo_guide_cons (balanced_parts (grammarUpTo_span fuel) ih base)

end Grammar

/-- Expressions leave nothing open. -/
theorem grammar_balance : grammar.Balance all := fun base => Grammar.grammar_guide_of fun fuel =>
  Grammar.balanced_parts (Grammar.grammarUpTo_span fuel) (Grammar.grammarUpTo_balance fuel) base

end StyleCheck
