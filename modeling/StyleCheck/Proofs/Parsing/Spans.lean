import StyleCheck.Proofs.Parsing.Suffix

/-! # The Tokens of an Expression

    What an expression reads is spelled, and its brackets stand in pairs.
    A `def` or a `class` is never among it, unless it names an argument,
    and a colon has something behind it on the same logical line.

    * `Lexeme.fits`: which lexemes may be read in front of which.
    * `Spans`: the tokens between two places, with their brackets in pairs.
      `Grouped`: they are one such pair and what it holds.
    * `Spanning`, `Opening`, `Closing`: parsers that read such tokens, with
      one rule for each small parser.
    * `grammar_span`: the parsers of the grammar of expressions.
-/

namespace StyleCheck

/-- Whether a lexeme that is no bracket may be read in an expression, in
    front of `next`. -/
def Lexeme.fits (l next : Lexeme) : Bool :=
  match l with
  | .keyword .def_ | .keyword .class_ => next == .symbol .equal
  | .symbol .colon => next != .newline
  | .symbol (.opening _) | .symbol (.closing _) => false
  | .keyword _ | .name _ | .number _ | .string .. | .symbol _ => true
  | .stray _ | .newline | .indent | .dedent | .endMarker => false

namespace Parser

/-! ## Section 1: Places in a token stream -/

/-- The tokens from `ts` up to `rest` may be read in an expression. -/
inductive Spans : List Token → List Token → Prop where
  | nothing (ts : List Token) : Spans ts ts
  | token {t : Token} {ts rest : List Token} (hfits : t.lexeme.fits (front ts).lexeme = true)
      (hbehind : Spans ts rest) : Spans (t :: ts) rest
  | group {bracket : Bracket} {p q : Position} {ts mid rest : List Token}
      (hinner : Spans ts (⟨.symbol (.closing bracket), q⟩ :: mid)) (hbehind : Spans mid rest) :
      Spans (⟨.symbol (.opening bracket), p⟩ :: ts) rest

variable {ts mid rest : List Token}

namespace Spans

theorem trans (h : Spans ts mid) (h' : Spans mid rest) : Spans ts rest := by
  induction h with
  | nothing => exact h'
  | token hfits _ ih => exact .token hfits (ih h')
  | group hinner _ _ ih => exact .group hinner (ih h')

theorem suffix (h : Spans ts rest) : rest <:+ ts := by
  induction h with
  | nothing ts => exact List.suffix_refl ts
  | token _ _ ih => exact ih.trans (List.suffix_cons _ _)
  | group _ _ ihinner ih =>
    exact ih.trans ((List.suffix_cons _ _).trans (ihinner.trans (List.suffix_cons _ _)))

/-- The token at the front. -/
theorem one (h : (front ts).lexeme.fits (front ts.tail).lexeme = true) : Spans ts ts.tail := by
  cases ts with
  | nil => cases h
  | cons t ts => exact .token h (.nothing ts)

end Spans

/-- The tokens from `ts` up to `rest` are a pair of brackets with what is
    between them. -/
structure Grouped (bracket : Bracket) (ts rest : List Token) : Prop where
  opens : (front ts).lexeme = .symbol (.opening bracket)
  inner : ∃ mid, Spans ts.tail mid ∧ (front mid).lexeme = .symbol (.closing bracket) ∧
    rest = mid.tail

theorem Grouped.spans {bracket : Bracket} (h : Grouped bracket ts rest) : Spans ts rest := by
  obtain ⟨hopen, mid, hinner, hclose, rfl⟩ := h
  obtain ⟨p, hts⟩ := eq_cons_of_front hopen (by simp)
  obtain ⟨q, hmid⟩ := eq_cons_of_front hclose (by simp)
  rw [hts]
  rw [hmid] at hinner
  exact .group hinner (.nothing _)

/-! ## Section 2: Parsers -/

variable {α β σ : Type} {p p' : Parser α} {bracket : Bracket}

/-- The parser reads tokens of an expression only. -/
def Spanning (p : Parser α) : Prop := ∀ ts, Ensures p ts fun _ rest => Spans ts rest

/-- The same of a parser that reads nothing at the end of a line. -/
def Opening (p : Parser α) : Prop :=
  ∀ ts, Ensures p ts fun _ rest => Spans ts rest ∧ (front ts).lexeme ≠ .newline

/-- The parser reads tokens of an expression up to a closing bracket, and
    that bracket. -/
def Closing (bracket : Bracket) (p : Parser α) : Prop :=
  ∀ ts, Ensures p ts fun _ rest => ∃ mid, Spans ts mid ∧
    (front mid).lexeme = .symbol (.closing bracket) ∧ rest = mid.tail

namespace Spanning

theorem pure (a : α) : Spanning (pure a) := fun ts => (ensures_pure a).mpr (.nothing ts)

theorem bind {q : Parser β} {f : β → Parser α} (hq : Spanning q) (hf : ∀ b, Spanning (f b)) :
    Spanning (q >>= f) := by
  intro ts
  rw [ensures_bind]
  exact (hq ts).mono fun b mid hmid => (hf b mid).mono fun _ _ hrest => hmid.trans hrest

theorem ite {c : Prop} [Decidable c] (hp : Spanning p) (hp' : Spanning p') :
    Spanning (if c then p else p') :=
  fun ts => (ensures_ite c p p').mpr ⟨fun _ => hp ts, fun _ => hp' ts⟩

theorem fail (fault : Fault) : Spanning (fail fault : Parser α) :=
  fun _ => (ensures_fail fault).mpr trivial

theorem failAt (at_ : Position) (fault : Fault) : Spanning (failAt at_ fault : Parser α) :=
  fun _ => (ensures_failAt at_ fault).mpr trivial

theorem peek : Spanning peek := fun ts => ensures_peek.mpr (.nothing ts)

theorem position : Spanning position := fun ts => ensures_position.mpr (.nothing ts)

theorem atSymbol (symbol : Symbol) : Spanning (atSymbol symbol) :=
  fun ts => (ensures_atSymbol symbol).mpr (.nothing ts)

theorem atKeyword (keyword : Keyword) : Spanning (atKeyword keyword) :=
  fun ts => (ensures_atKeyword keyword).mpr (.nothing ts)

theorem name : Spanning name :=
  fun _ => ensures_name.mpr fun x hx => .one (by rw [hx]; rfl)

theorem acceptIf {test : Lexeme → Bool}
    (hfits : ∀ l next, test l = true → l.fits next = true) : Spanning (acceptIf test) :=
  fun ts => (ensures_acceptIf test).mpr ⟨fun htest => .one (hfits _ _ htest), fun _ => .nothing ts⟩

theorem accept {symbol : Symbol} (hfits : ∀ next, (Lexeme.symbol symbol).fits next = true) :
    Spanning (accept symbol) :=
  acceptIf fun _ next htest => beq_iff_eq.mp htest ▸ hfits next

theorem acceptKeyword {word : Keyword} (hfits : ∀ next, (Lexeme.keyword word).fits next = true) :
    Spanning (acceptKeyword word) :=
  acceptIf fun _ next htest => beq_iff_eq.mp htest ▸ hfits next

theorem expectKeyword {word : Keyword} (fault : Fault)
    (hfits : ∀ next, (Lexeme.keyword word).fits next = true) :
    Spanning (expectKeyword word fault) :=
  (acceptKeyword hfits).bind fun _ => (pure ()).ite (fail _)

theorem loop {body : σ → Parser (Next σ α)} (h : ∀ state, Spanning (body state)) (state : σ) :
    Spanning (loop body state) := by
  refine Ensures.loop_tokens Spans (fun state ts => ?_) state
  refine (h state ts).mono fun next mid hmid => ?_
  cases next with
  | done => exact hmid
  | again => exact fun _ hrest => hmid.trans hrest

theorem repeatWhile {body : Parser Bool} (h : Spanning body) : Spanning (repeatWhile body) :=
  loop (fun _ => h.bind fun _ => (pure _).ite (pure _)) ()

/-- A colon, and something on the same line. -/
theorem expect_colon (hp : Opening p) :
    Spanning (do
      Parser.expect .colon
      p) := by
  intro ts
  rw [ensures_bind, ensures_expect]
  intro hcolon
  refine (hp ts.tail).mono fun _ rest hrest => .trans (.one ?_) hrest.1
  rw [hcolon]
  exact bne_iff_ne.mpr hrest.2

theorem accept_colon (hp : Opening p) (hp' : Spanning p') :
    Spanning (do if ← Parser.accept .colon then p else p') := by
  intro ts
  rw [ensures_bind, ensures_accept]
  refine ⟨fun hcolon => ?_, fun _ => hp' ts⟩
  rw [if_pos rfl]
  refine (hp ts.tail).mono fun _ rest hrest => .trans (.one ?_) hrest.1
  rw [hcolon]
  exact bne_iff_ne.mpr hrest.2

/-- A pair of brackets. -/
theorem accept_pair (hp : Closing bracket p) (hp' : Spanning p') :
    Spanning (do if ← Parser.accept (.opening bracket) then p else p') := by
  intro ts
  rw [ensures_bind, ensures_accept]
  refine ⟨fun hopen => ?_, fun _ => hp' ts⟩
  rw [if_pos rfl]
  exact (hp ts.tail).mono fun _ rest hrest => Grouped.spans ⟨hopen, hrest⟩

end Spanning

namespace Opening

theorem spanning (h : Opening p) : Spanning p := fun ts => (h ts).mono fun _ _ hrest => hrest.1

theorem bind {q : Parser β} {f : β → Parser α} (hq : Opening q) (hf : ∀ b, Spanning (f b)) :
    Opening (q >>= f) := by
  intro ts
  rw [ensures_bind]
  refine (hq ts).mono fun b mid hmid => (hf b mid).mono fun _ _ hrest => ?_
  exact ⟨hmid.1.trans hrest, hmid.2⟩

theorem ite {c : Prop} [Decidable c] (hp : Opening p) (hp' : Opening p') :
    Opening (if c then p else p') :=
  fun ts => (ensures_ite c p p').mpr ⟨fun _ => hp ts, fun _ => hp' ts⟩

theorem spent : Opening (spent : Parser α) := fun _ => ensures_spent.mpr trivial

/-- Where it starts is only looked up. -/
theorem position {f : Position → Parser α} (hf : ∀ at_, Opening (f at_)) :
    Opening (Parser.position >>= f) := by
  intro ts
  rw [ensures_bind, ensures_position]
  exact hf _ ts

theorem atSymbol {symbol : Symbol} {f : Bool → Parser α} (hf : ∀ found, Opening (f found)) :
    Opening (Parser.atSymbol symbol >>= f) := by
  intro ts
  rw [ensures_bind, ensures_atSymbol]
  exact hf _ ts

/-- A token at the front that is read if it is there. -/
theorem acceptIf {test : Lexeme → Bool} (hfits : ∀ l next, test l = true → l.fits next = true)
    (hp : Spanning p) (hp' : Opening p') :
    Opening (do if ← Parser.acceptIf test then p else p') := by
  intro ts
  rw [ensures_bind, ensures_acceptIf]
  refine ⟨fun htest => ?_, fun _ => hp' ts⟩
  rw [if_pos rfl]
  refine (hp ts.tail).mono fun _ rest hrest => ⟨.trans (.one (hfits _ _ htest)) hrest, ?_⟩
  intro hnewline
  have hfits := hfits _ .newline htest
  rw [hnewline] at hfits
  cases hfits

theorem accept {symbol : Symbol} (hfits : ∀ next, (Lexeme.symbol symbol).fits next = true)
    (hp : Spanning p) (hp' : Opening p') :
    Opening (do if ← Parser.accept symbol then p else p') :=
  acceptIf (fun _ next htest => beq_iff_eq.mp htest ▸ hfits next) hp hp'

theorem acceptKeyword {word : Keyword} (hfits : ∀ next, (Lexeme.keyword word).fits next = true)
    (hp : Spanning p) (hp' : Opening p') :
    Opening (do if ← Parser.acceptKeyword word then p else p') :=
  acceptIf (fun _ next htest => beq_iff_eq.mp htest ▸ hfits next) hp hp'

/-- A token that is known to be there. -/
theorem advance {l : Lexeme} (hfits : ∀ next, l.fits next = true) (hfront : (front ts).lexeme = l)
    (hp : Spanning p) : Ensures (do
      Parser.advance
      p) ts fun _ rest => Spans ts rest ∧ (front ts).lexeme ≠ .newline := by
  rw [ensures_bind, ensures_advance]
  refine (hp ts.tail).mono fun _ rest hrest => ⟨.trans (.one (hfront ▸ hfits _)) hrest, ?_⟩
  intro hnewline
  have hfits := hfits .newline
  rw [← hfront, hnewline] at hfits
  cases hfits

end Opening

namespace Closing

theorem bind {q : Parser β} {f : β → Parser α} (hq : Spanning q)
    (hf : ∀ b, Closing bracket (f b)) : Closing bracket (q >>= f) := by
  intro ts
  rw [ensures_bind]
  refine (hq ts).mono fun b mid hmid => (hf b mid).mono fun _ _ hrest => ?_
  obtain ⟨behind, hbehind, hclose⟩ := hrest
  exact ⟨behind, hmid.trans hbehind, hclose⟩

theorem ite {c : Prop} [Decidable c] (hp : Closing bracket p) (hp' : Closing bracket p') :
    Closing bracket (if c then p else p') :=
  fun ts => (ensures_ite c p p').mpr ⟨fun _ => hp ts, fun _ => hp' ts⟩

theorem expect : Closing bracket (expect (.closing bracket)) :=
  fun ts => (ensures_expect _).mpr fun hclose => ⟨ts, .nothing ts, hclose, rfl⟩

theorem expect_pure (a : α) : Closing bracket (do
    Parser.expect (.closing bracket)
    pure a) := by
  intro ts
  rw [ensures_bind]
  exact (Closing.expect ts).mono fun _ _ hrest => (ensures_pure a).mpr hrest

/-- An opening bracket that is known to be there, up to the closing one. -/
theorem advance (hopen : (front ts).lexeme = .symbol (.opening bracket))
    (hp : Closing bracket p) : Ensures (do
      Parser.advance
      p) ts fun _ rest => Grouped bracket ts rest := by
  rw [ensures_bind, ensures_advance]
  exact (hp ts.tail).mono fun _ rest hrest => ⟨hopen, hrest⟩

/-- An opening bracket that has to be there. -/
theorem behind_expect (hp : Closing bracket p) (ts : List Token) : Ensures (do
    Parser.expect (.opening bracket)
    p) ts fun _ rest => Grouped bracket ts rest := by
  rw [ensures_bind, ensures_expect]
  exact fun hopen => (hp ts.tail).mono fun _ rest hrest => ⟨hopen, hrest⟩

/-- The bracket may be closed at once. -/
theorem accept (a : α) (hp : Closing bracket p) :
    Closing bracket (do if ← Parser.accept (.closing bracket) then pure a else p) := by
  intro ts
  rw [ensures_bind, ensures_accept]
  refine ⟨fun hclose => ?_, fun _ => hp ts⟩
  rw [if_pos rfl, ensures_pure]
  exact ⟨ts, .nothing ts, hclose, rfl⟩

end Closing

end Parser

open StyleCheck.Parser

/-- The parsers that are referred back to read tokens of an expression,
    and something of it on the line where they start. -/
structure Nonterminals.Span (g : Nonterminals) : Prop where
  expression_opening : Opening g.expression
  disjunction_opening : Opening g.disjunction
  inversion_opening : Opening g.inversion
  operand_opening : Opening g.operand
  factor_opening : Opening g.factor

namespace Nonterminals.Span

variable {g : Nonterminals} (hg : g.Span)

include hg

theorem expression : Spanning g.expression := hg.expression_opening.spanning

theorem disjunction : Spanning g.disjunction := hg.disjunction_opening.spanning

theorem inversion : Spanning g.inversion := hg.inversion_opening.spanning

theorem operand : Spanning g.operand := hg.operand_opening.spanning

theorem factor : Spanning g.factor := hg.factor_opening.spanning

end Nonterminals.Span

namespace Grammar

variable {g : Nonterminals} {ts : List Token} (hg : g.Span)

include hg

/-! ## Section 3: Lists and clauses -/

theorem starExpression_opening : Opening (starExpression g) := by
  unfold starExpression
  exact .position fun _ =>
    .accept (fun _ => rfl) (.bind hg.operand fun _ => .pure _) hg.expression_opening

theorem starExpressions_opening : Opening (starExpressions g) := by
  have hfirst := starExpression_opening hg
  unfold starExpressions nextStarExpression
  refine .position fun _ => .bind hfirst fun _ => .bind (.atSymbol _) fun _ => .ite ?_ (.pure _)
  refine .bind (.repeatWhile ?_) fun _ => .pure _
  refine .bind (.accept fun _ => rfl) fun _ => .ite ?_ (.pure _)
  exact .bind .peek fun _ => .ite (.bind hfirst.spanning fun _ => .pure _) (.pure _)

theorem namedExpression_opening : Opening (namedExpression g) := by
  intro ts
  unfold namedExpression
  rw [ensures_bind, ensures_position, ensures_bind, ensures_peek, ensures_bind, ensures_peekSecond,
    ensures_ite]
  refine ⟨fun hnamed => ?_, fun _ => hg.expression_opening ts⟩
  simp only [Bool.and_eq_true, beq_iff_eq] at hnamed
  -- A name, and an operator that has been looked at already.
  rw [ensures_bind, ensures_name]
  intro x hx
  refine (Opening.advance (fun _ => rfl) hnamed.2 (.bind hg.expression fun _ => .pure _)).mono
    fun _ rest hrest => ⟨.trans (.one (by rw [hx]; rfl)) hrest.1, by simp [hx]⟩

theorem element_opening : Opening (element g) := by
  unfold element
  exact .atSymbol fun _ => .ite (starExpression_opening hg) (namedExpression_opening hg)

theorem element_spanning : Spanning (element g) := (element_opening hg).spanning

theorem moreElements_spanning (closer : Bracket) : Spanning (moreElements g closer) := by
  unfold moreElements nextElement
  refine .repeatWhile (.bind (.accept fun _ => rfl) fun _ => .ite ?_ (.pure _))
  exact .bind (.atSymbol _) fun _ => .ite (.pure _) (.bind (element_spanning hg) fun _ => .pure _)

theorem target_opening : Opening (target g) := by
  unfold target
  exact .atSymbol fun _ => .ite (starExpression_opening hg) hg.operand_opening

theorem targets_opening : Opening (targets g) := by
  have htarget := target_opening hg
  unfold targets nextTarget
  refine .position fun _ => .bind htarget fun _ => .bind (.atSymbol _) fun _ => .ite ?_ (.pure _)
  refine .bind (.repeatWhile ?_) fun _ => .pure _
  refine .bind (.accept fun _ => rfl) fun _ => .ite ?_ (.pure _)
  exact .bind .peek fun _ => .ite (.pure _) (.bind htarget.spanning fun _ => .pure _)

omit hg in
theorem acceptFor_spanning : Spanning acceptFor := by
  intro ts
  unfold acceptFor
  rw [ensures_bind]
  refine (Spanning.acceptKeyword (fun _ => rfl) ts).mono fun found mid hmid => ?_
  rw [ensures_ite, ensures_pure, ensures_bind, ensures_peekSecond, ensures_ite, ensures_pure,
    ensures_bind, ensures_acceptKeyword]
  refine ⟨fun _ => hmid, fun _ => ⟨fun hfor => ⟨fun hasync => ?_, fun _ => ?_⟩, fun _ => hmid⟩⟩
  -- An `async` is read only if there is a `for` behind it.
  · rw [if_pos rfl, ensures_bind, ensures_advance, ensures_pure]
    have hone : Spans mid mid.tail := .one (by rw [hasync]; rfl)
    exact hmid.trans (hone.trans (.one (by rw [beq_iff_eq.mp hfor]; rfl)))
  · rw [if_neg Bool.false_ne_true, ensures_pure]
    exact hmid

theorem clause_spanning : Spanning (clause g) := by
  unfold clause nextCondition
  refine .bind (targets_opening hg).spanning fun _ => .bind (.expectKeyword _ fun _ => rfl) fun _ =>
    .bind hg.disjunction fun _ => .repeatWhile ?_
  exact .bind (.acceptKeyword fun _ => rfl) fun _ =>
    .ite (.bind hg.disjunction fun _ => .pure _) (.pure _)

theorem comprehension_spanning : Spanning (comprehension g) := by
  have hclause := clause_spanning hg
  unfold comprehension nextClause
  refine .bind acceptFor_spanning fun _ => .ite (.bind hclause fun _ => .repeatWhile ?_) (.fail _)
  exact .bind acceptFor_spanning fun _ => .ite (.bind hclause fun _ => .pure _) (.pure _)

omit hg in
theorem atComprehension_spanning : Spanning atComprehension := by
  unfold atComprehension
  refine .bind .peek fun l => ?_
  split
  all_goals exact .pure _

/-- An argument is a star or two with an expression, a word with an equals
    sign, or an expression. -/
theorem argument_spanning : Spanning (argument g) := by
  intro ts
  unfold argument
  rw [ensures_bind, ensures_peek, ensures_bind, ensures_peekSecond, ensures_bind, ensures_acceptIf]
  refine ⟨fun hstar => ?_, fun _ => ?_⟩
  · rw [if_pos rfl]
    have hone : Spans ts ts.tail := by
      refine .one ?_
      rcases Bool.or_eq_true_iff.mp hstar with h | h
      all_goals
        rw [beq_iff_eq.mp h]
        rfl
    refine (Spanning.bind hg.expression (fun _ => .pure ()) ts.tail).mono fun _ rest hrest => ?_
    exact hone.trans hrest
  rw [if_neg Bool.false_ne_true, ensures_ite]
  refine ⟨fun hnamed => ?_, fun _ => ?_⟩
  · simp only [Bool.and_eq_true, beq_iff_eq] at hnamed
    have hword : Spans ts ts.tail := by
      refine .one ?_
      rw [hnamed.2]
      cases hfront : (front ts).lexeme with
      | keyword word => cases word <;> rfl
      | name => rfl
      | _ => simp [hfront, Lexeme.isWord] at hnamed
    rw [ensures_bind, ensures_advance]
    refine (Opening.advance (fun _ => rfl) hnamed.2 (.bind hg.expression fun _ => .pure ())).mono
      fun _ rest hrest => hword.trans hrest.1
  · refine Spanning.bind (namedExpression_opening hg).spanning (fun _ => ?_) ts
    exact .bind atComprehension_spanning fun _ => .ite (comprehension_spanning hg) (.pure _)

theorem arguments_grouped (ts : List Token) :
    Ensures (arguments g) ts fun _ rest => Grouped .round ts rest := by
  unfold arguments nextArgument
  refine Closing.behind_expect (.bind (.repeatWhile ?_) fun _ => .expect) ts
  exact .bind (.atSymbol _) fun _ =>
    .ite (.pure _) (.bind (argument_spanning hg) fun _ => .accept fun _ => rfl)

theorem arguments_spanning : Spanning (arguments g) := fun ts =>
  (arguments_grouped hg ts).mono fun _ _ hrest => hrest.spans

/-- Behind the colon of a slice there is a bound, or what ends it. -/
theorem bound_opening (ends : Lexeme → Bool) {p : Parser Unit} (hends : ends .newline = false)
    (hp : Spanning p) : Opening (do
      let stop ← peek
      unless ends stop do
        let _ ← g.expression
      p) := by
  intro ts
  rw [ensures_bind, ensures_peek, ensures_ite]
  refine ⟨fun hstop => (hp ts).mono fun _ rest hrest => ⟨hrest, ?_⟩, fun _ => ?_⟩
  · intro hnewline
    rw [hnewline, hends] at hstop
    cases hstop
  · exact Opening.bind hg.expression_opening (fun _ => hp) ts

theorem laterBounds_opening : Opening (laterBounds g) := by
  unfold laterBounds
  refine bound_opening hg endsBound rfl (.accept_colon ?_ (.pure _))
  exact bound_opening hg
    (fun stop => stop == .symbol (.closing .square) || stop == .symbol .comma) rfl (.pure _)

theorem slice_spanning : Spanning (slice g) := by
  have hbounds : Spanning (do if ← accept .colon then laterBounds g) :=
    .accept_colon (laterBounds_opening hg) (.pure _)
  unfold slice
  refine .bind (.atSymbol _) fun _ => .ite ?_ ?_
  · exact .bind (starExpression_opening hg).spanning fun _ => .pure _
  · exact .bind (.atSymbol _) fun _ =>
      .ite hbounds (.bind (namedExpression_opening hg).spanning fun _ => hbounds)

theorem slices_spanning : Spanning (slices g) := by
  unfold slices nextSlice
  refine .bind (.atSymbol _) fun _ => .ite (.fail _) (.repeatWhile ?_)
  refine .bind (slice_spanning hg) fun _ => .bind (.accept fun _ => rfl) fun _ => .ite ?_ (.pure _)
  exact .bind (.atSymbol _) fun _ => .pure _

/-! ## Section 4: Parameters -/

theorem typeHint_spanning (annotated starred : Bool) :
    Spanning (typeHint g annotated starred) := by
  unfold typeHint
  refine .ite (.accept_colon (.ite ?_ ?_) (.pure _)) (.pure _)
  · exact .bind (starExpression_opening hg) fun _ => .pure _
  · exact .bind hg.expression_opening fun _ => .pure _

/-- A slash and a star are read where they have been looked at. -/
theorem parameter_spanning (closer : Symbol) (annotated : Bool) (read : Parameters) :
    Spanning (parameter g closer annotated read) := by
  have hcolon := typeHint_spanning hg annotated
  have hnext : ∀ read : Parameters, Spanning (do
      if ← accept .comma then pure (Next.again read) else pure (Next.done (σ := Parameters) read)) :=
    fun read => .bind (.accept fun _ => rfl) fun _ => .ite (.pure _) (.pure _)
  have hseen : ∀ {symbol : Symbol} {p : Parser (Next Parameters Parameters)} {ts : List Token},
      (∀ next, (Lexeme.symbol symbol).fits next = true) →
      decide ((front ts).lexeme = .symbol symbol) = true → Spanning p → Ensures (do
        advance
        p) ts fun _ rest => Spans ts rest := fun hfits hfront hp =>
    (Opening.advance hfits (of_decide_eq_true hfront) hp).mono fun _ _ hrest => hrest.1
  intro ts
  unfold parameter
  rw [ensures_bind, ensures_position, ensures_bind, ensures_atSymbol, ensures_ite, ensures_pure]
  refine ⟨fun _ => .nothing ts, fun _ => ?_⟩
  rw [ensures_bind, ensures_atSymbol, ensures_ite]
  refine ⟨fun hslash => ?_, fun _ => ?_⟩
  · rw [ensures_ite, ensures_fail]
    exact ⟨fun _ => trivial, fun _ => hseen (fun _ => rfl) hslash (hnext _)⟩
  rw [ensures_bind, ensures_atSymbol, ensures_ite]
  refine ⟨fun hstar => ?_, fun _ => ?_⟩
  · rw [ensures_ite, ensures_fail]
    refine ⟨fun _ => trivial, fun _ => hseen (fun _ => rfl) hstar ?_⟩
    refine .bind .peek fun _ => .ite ?_ (hnext _)
    exact .bind .name fun _ => .bind (hcolon _) fun _ => hnext _
  refine Spanning.bind (.accept fun _ => rfl) (fun _ => .ite ?_ ?_) ts
  -- Two stars.
  · refine .bind .name fun _ => .bind (hcolon _) fun _ => .bind (.accept fun _ => rfl) fun _ => ?_
    exact .bind (.atSymbol _) fun _ => .ite (.pure _) (.fail _)
  -- A name, with a default or without.
  · refine .bind .name fun _ => .bind (hcolon _) fun _ =>
      .bind (.accept fun _ => rfl) fun _ => .ite ?_ ?_
    · exact .bind hg.expression fun _ => .ite (hnext _) (hnext _)
    · exact .ite (.ite (.failAt _ _) (hnext _)) (hnext _)

theorem parameters_spanning (closer : Symbol) (annotated : Bool) :
    Spanning (parameters g closer annotated) :=
  .loop (parameter_spanning hg closer annotated) _

/-! ## Section 5: Atoms -/

omit hg in
theorem strings_spanning : Spanning strings := by
  unfold strings nextString
  refine .bind .position fun _ => .bind (.loop (fun state ts => ?_) _) fun _ =>
    .ite (.failAt _ _) (.ite (.pure _) (.pure _))
  rw [ensures_bind, ensures_peek]
  split
  case h_1 hstring =>
    rw [ensures_bind, ensures_advance, ensures_pure]
    exact .one (by rw [hstring]; rfl)
  case h_2 =>
    rw [ensures_pure]
    exact .nothing ts

/-- A `yield` reads its first token unseen, and an expression behind it. -/
theorem yieldExpression_behind (ts : List Token) :
    Ensures (yieldExpression g) ts fun _ rest => Spans ts.tail rest := by
  unfold yieldExpression
  rw [ensures_bind, ensures_position, ensures_bind, ensures_advance]
  refine Spanning.bind (.acceptKeyword fun _ => rfl) (fun _ => .ite ?_ ?_) ts.tail
  · exact .bind hg.expression fun _ => .pure _
  · exact .bind .peek fun _ =>
      .ite (.bind (starExpressions_opening hg).spanning fun _ => .pure _) (.pure _)

theorem yieldExpression_spans (hfront : (front ts).lexeme = .keyword .yield_) :
    Ensures (yieldExpression g) ts fun _ rest => Spans ts rest ∧ (front ts).lexeme ≠ .newline := by
  have hone : Spans ts ts.tail := .one (by rw [hfront]; rfl)
  exact (yieldExpression_behind hg ts).mono fun _ _ hrest => ⟨hone.trans hrest, by simp [hfront]⟩

/-- A `yield` is read where it has been looked at. -/
theorem yielded_closing (closer : Bracket) (e : Expr) {p : Parser Expr} (hp : Closing closer p) :
    Closing closer (do
      if ← atKeyword .yield_ then
        let _ ← yieldExpression g
        expect (.closing closer)
        pure e
      else p) := by
  intro ts
  rw [ensures_bind, ensures_atKeyword, ensures_ite]
  refine ⟨fun hyield => ?_, fun _ => hp ts⟩
  rw [ensures_bind]
  refine (yieldExpression_spans hg (of_decide_eq_true hyield)).mono fun _ mid hmid => ?_
  refine (Closing.expect_pure e mid).mono fun _ rest hrest => ?_
  obtain ⟨behind, hbehind, hclose⟩ := hrest
  exact ⟨behind, hmid.1.trans hbehind, hclose⟩

/-- A comprehension at the end of a display. -/
theorem comprehension_closing (closer : Bracket) (e : Expr) : Closing closer (do
    comprehension g
    expect (.closing closer)
    pure e) :=
  .bind (comprehension_spanning hg) fun _ => .expect_pure e

theorem parenthesized_grouped (hfront : (front ts).lexeme = .symbol (.opening .round)) :
    Ensures (parenthesized g) ts fun _ rest => Grouped .round ts rest := by
  unfold parenthesized
  rw [ensures_bind, ensures_position]
  refine Closing.advance hfront (.accept _ (yielded_closing hg _ _ ?_))
  refine .bind (element_spanning hg) fun _ => .bind atComprehension_spanning fun _ =>
    .ite (comprehension_closing hg _ _) (.bind (.atSymbol _) fun _ => .ite ?_ (.expect_pure _))
  exact .bind (moreElements_spanning hg _) fun _ => .expect_pure _

theorem listDisplay_grouped (hfront : (front ts).lexeme = .symbol (.opening .square)) :
    Ensures (listDisplay g) ts fun _ rest => Grouped .square ts rest := by
  unfold listDisplay
  rw [ensures_bind, ensures_position]
  refine Closing.advance hfront (.accept _ (.bind (element_spanning hg) fun _ =>
    .bind atComprehension_spanning fun _ => .ite (comprehension_closing hg _ _) ?_))
  exact .bind (moreElements_spanning hg _) fun _ => .expect_pure _

theorem item_spanning : Spanning (item g) := by
  unfold item
  refine .bind (.accept fun _ => rfl) fun _ => .ite (.bind hg.operand fun _ => .pure _) ?_
  exact .bind hg.expression fun _ => .expect_colon (.bind hg.expression_opening fun _ => .pure _)

theorem moreItems_closing : Closing .curly (moreItems g) := by
  unfold moreItems nextItem
  refine .bind (.repeatWhile ?_) fun _ => .expect
  refine .bind (.accept fun _ => rfl) fun _ => .ite ?_ (.pure _)
  exact .bind (.atSymbol _) fun _ => .ite (.pure _) (.bind (item_spanning hg) fun _ => .pure _)

/-- The value of a first key, and what follows it. -/
theorem keyed_opening (e e' : Expr) {p : Parser Expr} (hp : Closing .curly p) : Closing .curly (do
    if ← accept .colon then
      let _ ← g.expression
      if ← atComprehension then
        comprehension g
        expect (.closing .curly)
        pure e
      else
        moreItems g
        pure e'
    else p) := by
  have hvalue : Closing .curly (do
      if ← atComprehension then
        comprehension g
        expect (.closing .curly)
        pure e
      else
        moreItems g
        pure e') := by
    refine .bind atComprehension_spanning fun _ => .ite (comprehension_closing hg _ _) fun ts => ?_
    rw [ensures_bind]
    exact (moreItems_closing hg ts).mono fun _ _ hrest => (ensures_pure e').mpr hrest
  intro ts
  rw [ensures_bind, ensures_accept]
  refine ⟨fun hcolon => ?_, fun _ => hp ts⟩
  rw [if_pos rfl, ensures_bind]
  refine (hg.expression_opening ts.tail).mono fun _ mid hmid =>
    (hvalue mid).mono fun _ _ hrest => ?_
  obtain ⟨behind, hbehind, hclose⟩ := hrest
  have hone : Spans ts ts.tail := .one (by rw [hcolon]; exact bne_iff_ne.mpr hmid.2)
  exact ⟨behind, hone.trans (hmid.1.trans hbehind), hclose⟩

theorem braceDisplay_grouped (hfront : (front ts).lexeme = .symbol (.opening .curly)) :
    Ensures (braceDisplay g) ts fun _ rest => Grouped .curly ts rest := by
  unfold braceDisplay
  rw [ensures_bind, ensures_position]
  refine Closing.advance hfront (.accept _ (.bind (.atSymbol _) fun _ => .ite ?_ ?_))
  · refine .bind (item_spanning hg) fun _ ts => ?_
    rw [ensures_bind]
    exact (moreItems_closing hg ts).mono fun _ _ hrest => (ensures_pure _).mpr hrest
  refine .bind (element_spanning hg) fun _ => keyed_opening hg _ _ ?_
  refine .bind atComprehension_spanning fun _ => .ite (comprehension_closing hg _ _) ?_
  exact .bind (moreElements_spanning hg _) fun _ => .expect_pure _

theorem atom_opening : Opening (atom g) := by
  intro ts
  have hone : ∀ {l : Lexeme} (e : Expr), (∀ next, l.fits next = true) → (front ts).lexeme = l →
      Ensures (do
        advance
        pure e) ts fun _ rest => Spans ts rest ∧ (front ts).lexeme ≠ .newline :=
    fun e hfits hfront => Opening.advance hfits hfront (.pure e)
  have hgroup : ∀ {bracket : Bracket} {rest : List Token}, Grouped bracket ts rest →
      Spans ts rest ∧ (front ts).lexeme ≠ .newline := fun h => ⟨h.spans, by simp [h.opens]⟩
  unfold atom
  rw [ensures_bind, ensures_position, ensures_bind, ensures_peek]
  split
  case h_1 word hfront =>
    rw [ensures_ite, ensures_fail]
    refine ⟨fun hconstant => hone _ (fun _ => ?_) hfront, fun _ => trivial⟩
    cases word <;> first | rfl | cases hconstant
  case h_2 hfront | h_3 hfront | h_8 hfront => exact hone _ (fun _ => rfl) hfront
  case h_4 hfront => exact (strings_spanning ts).mono fun _ _ hrest => ⟨hrest, by simp [hfront]⟩
  case h_5 hfront => exact (parenthesized_grouped hg hfront).mono fun _ _ hrest => hgroup hrest
  case h_6 hfront => exact (listDisplay_grouped hg hfront).mono fun _ _ hrest => hgroup hrest
  case h_7 hfront => exact (braceDisplay_grouped hg hfront).mono fun _ _ hrest => hgroup hrest
  case h_9 => exact (ensures_fail _).mpr trivial

/-- A subscript, from its bracket on. -/
theorem subscript_closing {α : Type} (a : α) : Closing .square (do
    slices g
    expect (.closing .square)
    pure a) :=
  .bind (slices_spanning hg) fun _ => .expect_pure a

theorem primary_opening : Opening (primary g) := by
  unfold primary nextTrailer
  refine .position fun _ => .bind (atom_opening hg) fun _ => .loop (fun _ => ?_) _
  refine .bind (.accept fun _ => rfl) fun _ => .ite (.bind .name fun _ => .pure _) ?_
  refine .bind (.atSymbol _) fun _ => .ite (.bind (arguments_spanning hg) fun _ => .pure _) ?_
  exact .accept_pair (subscript_closing hg _) (.pure _)

/-! ## Section 6: Operators -/

omit hg in
theorem chain_opening {operator : Parser Bool} {operand : Parser Expr}
    (hoperator : Spanning operator) (hoperand : Opening operand) :
    Opening (chain operator operand) := by
  unfold chain
  refine .position fun _ => .bind hoperand fun _ => .loop (fun _ => ?_) _
  exact .bind hoperator fun _ => .ite (.bind hoperand.spanning fun _ => .pure _) (.pure _)

theorem power_opening : Opening (power g) := by
  have hbase : ∀ (start : Position) (awaited : Bool), Opening (do
      let base ← primary g
      if ← accept .doubleStar then
        let _ ← g.factor
        pure ⟨.other, start⟩
      else if awaited then pure ⟨.other, start⟩
      else pure base) := by
    intro start awaited
    refine .bind (primary_opening hg) fun _ => .bind (.accept fun _ => rfl) fun _ => ?_
    exact .ite (.bind hg.factor fun _ => .pure _) (.ite (.pure _) (.pure _))
  intro ts
  unfold power
  rw [ensures_bind, ensures_position, ensures_bind, ensures_acceptKeyword]
  refine ⟨fun hawait => ?_, fun _ => hbase _ false ts⟩
  have hone : Spans ts ts.tail := .one (by rw [hawait]; rfl)
  exact (hbase _ true ts.tail).mono fun _ _ hrest => ⟨hone.trans hrest.1, by simp [hawait]⟩

omit hg in
theorem fits_of_isSign (l next : Lexeme) (h : isSign l = true) : l.fits next = true := by
  cases l with
  | symbol symbol => cases symbol <;> first | rfl | cases h
  | _ => cases h

theorem factor_opening : Opening (factor g) := by
  unfold factor
  exact .position fun _ =>
    .acceptIf fits_of_isSign (.bind hg.factor fun _ => .pure _) (power_opening hg)

omit hg in
/-- No operator is a bracket or a colon. -/
theorem fits_of_isOneOf {level : List Symbol} (hlevel : level ∈ Symbol.binaryLevels)
    (l next : Lexeme) (h : isOneOf level l = true) : l.fits next = true := by
  cases l with
  | symbol symbol =>
    have hmem : symbol ∈ Symbol.binaryLevels.flatten :=
      List.mem_flatten.mpr ⟨level, hlevel, List.contains_iff_mem.mp h⟩
    cases symbol <;> first | rfl | simp [Symbol.binaryLevels] at hmem
  | _ => cases h

theorem binary_opening {levels : List (List Symbol)} (hlevels : levels ⊆ Symbol.binaryLevels) :
    Opening (binary g levels) := by
  induction levels with
  | nil => exact factor_opening hg
  | cons level tighter ih =>
    have ⟨hlevel, htighter⟩ := List.cons_subset.mp hlevels
    exact chain_opening (.acceptIf (fits_of_isOneOf hlevel)) (ih htighter)

omit hg in
theorem acceptComparison_spanning : Spanning acceptComparison := by
  have hone : ∀ {l : Lexeme} {ts : List Token} {p : Parser Bool},
      (∀ next, l.fits next = true) → (front ts).lexeme = l → Spanning p → Ensures (do
        advance
        p) ts fun _ rest => Spans ts rest := fun hfits hfront hp =>
    (Opening.advance hfits hfront hp).mono fun _ _ hrest => hrest.1
  intro ts
  unfold acceptComparison
  rw [ensures_bind, ensures_peek]
  split
  case h_1 symbol hfront =>
    rw [ensures_ite, ensures_pure]
    refine ⟨fun hcomparison => hone (fun _ => ?_) hfront (.pure _), fun _ => .nothing ts⟩
    cases symbol <;> first | rfl | cases hcomparison
  case h_2 hfront => exact hone (fun _ => rfl) hfront (.pure _)
  case h_3 hfront =>
    rw [ensures_bind, ensures_peekSecond, ensures_ite, ensures_pure]
    refine ⟨fun hin => ?_, fun _ => .nothing ts⟩
    have hnot : Spans ts ts.tail := .one (by rw [hfront]; rfl)
    rw [ensures_bind, ensures_advance]
    exact (hone (fun _ => rfl) (beq_iff_eq.mp hin) (.pure true)).mono
      fun _ _ hrest => hnot.trans hrest
  case h_4 hfront =>
    exact hone (fun _ => rfl) hfront (.bind (.acceptKeyword fun _ => rfl) fun _ => .pure _)
  case h_5 => exact (ensures_pure _).mpr (.nothing ts)

theorem operand_opening : Opening (operand g) := binary_opening hg (List.Subset.refl _)

theorem comparison_opening : Opening (comparison g) :=
  chain_opening acceptComparison_spanning (operand_opening hg)

theorem inversion_opening : Opening (inversion g) := by
  unfold inversion
  exact .position fun _ =>
    .acceptKeyword (fun _ => rfl) (.bind hg.inversion fun _ => .pure _) (comparison_opening hg)

theorem disjunction_opening : Opening (disjunction g) :=
  chain_opening (.acceptKeyword fun _ => rfl)
    (chain_opening (.acceptKeyword fun _ => rfl) (inversion_opening hg))

theorem lambda_spans (hfront : (front ts).lexeme = .keyword .lambda_) :
    Ensures (lambda g) ts fun _ rest => Spans ts rest ∧ (front ts).lexeme ≠ .newline := by
  unfold lambda
  rw [ensures_bind, ensures_position]
  refine Opening.advance (fun _ => rfl) hfront (.bind (parameters_spanning hg _ _) fun _ => ?_)
  exact .expect_colon (.bind hg.expression_opening fun _ => .pure _)

theorem expression_opening : Opening (expression g) := by
  intro ts
  unfold expression
  rw [ensures_bind, ensures_position, ensures_bind, ensures_atKeyword, ensures_ite]
  refine ⟨fun hlambda => lambda_spans hg (of_decide_eq_true hlambda), fun _ => ?_⟩
  refine Opening.bind (disjunction_opening hg) (fun _ => ?_) ts
  refine .bind (.acceptKeyword fun _ => rfl) fun _ => .ite ?_ (.pure _)
  exact .bind hg.disjunction fun _ => .bind (.expectKeyword _ fun _ => rfl) fun _ =>
    .bind hg.expression fun _ => .pure _

/-! ## Section 7: The knot -/

omit hg in
theorem grammarUpTo_span (fuel : List Token) : (grammarUpTo fuel).Span := by
  induction fuel with
  | nil => exact ⟨.spent, .spent, .spent, .spent, .spent⟩
  | cons _ fuel ih =>
    exact ⟨expression_opening ih, disjunction_opening ih, inversion_opening ih,
      operand_opening ih, factor_opening ih⟩

end Grammar

/-- The parsers of the grammar of expressions read tokens of an
    expression. -/
theorem grammar_span : grammar.Span where
  expression_opening ts :=
    (Grammar.expression_opening (Grammar.grammarUpTo_span ts) ts).congr rfl
  disjunction_opening ts :=
    (Grammar.disjunction_opening (Grammar.grammarUpTo_span ts) ts).congr rfl
  inversion_opening ts := (Grammar.inversion_opening (Grammar.grammarUpTo_span ts) ts).congr rfl
  operand_opening ts := (Grammar.operand_opening (Grammar.grammarUpTo_span ts) ts).congr rfl
  factor_opening ts := (Grammar.factor_opening (Grammar.grammarUpTo_span ts) ts).congr rfl

end StyleCheck
