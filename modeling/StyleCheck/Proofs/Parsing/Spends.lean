import StyleCheck.Proofs.Parsing.Ensures

/-! # Rounds that Read

    A loop of the grammar goes on only where it has read a token, so that
    the tokens are fuel enough for it.

    * `Spends`: a parser reads a token whenever its result says that there
      is more to come.  There is a rule for each way to compose parsers.
    * `Next.IsAgain`: what the rounds of a loop say.
-/

namespace StyleCheck

open StyleCheck.Parser

namespace Parser

variable {α β σ : Type} {p q : Parser α} {goesOn : α → Prop} {ts : List Token}

/-- A parser leaves the end of what it was given, and where its result
    says that there is more to come, it has read a token. -/
structure Spends (goesOn : α → Prop) (p : Parser α) : Prop where
  keeps : Keeps p
  spends : ∀ ts, Ensures p ts fun a rest => goesOn a → rest.length < ts.length

/-- A token has been read. -/
theorem length_lt_of_suffix_tail {rest : List Token} (h : rest <:+ ts.tail) (hts : ts ≠ []) :
    rest.length < ts.length := by
  have hlength := h.length_le
  have hpos := List.length_pos_iff.mpr hts
  rw [List.length_tail] at hlength
  omega

/-- Only an end marker is at the front where there is no token. -/
theorem ne_nil_of_front (h : (front ts).lexeme ≠ .endMarker) : ts ≠ [] := by
  rintro rfl
  exact h rfl

namespace Spends

theorem pure {a : α} (h : ¬ goesOn a) : Spends goesOn (pure a) :=
  ⟨.pure a, fun _ => (ensures_pure a).mpr fun ha => absurd ha h⟩

theorem fail (fault : Fault) : Spends goesOn (fail fault) :=
  ⟨.fail fault, fun _ => (ensures_fail fault).mpr trivial⟩

theorem failAt (at_ : Position) (fault : Fault) : Spends goesOn (failAt at_ fault) :=
  ⟨.failAt at_ fault, fun _ => (ensures_failAt at_ fault).mpr trivial⟩

theorem acceptIf {test : Lexeme → Bool} (hmore : test .endMarker = false) :
    Spends (· = true) (acceptIf test) := by
  refine ⟨.acceptIf test, fun ts => ?_⟩
  refine (ensures_acceptIf test).mpr ⟨fun htest _ => ?_, fun _ => nofun⟩
  refine length_lt_of_suffix_tail (List.suffix_refl _) (ne_nil_of_front fun hend => ?_)
  rw [hend, hmore] at htest
  cases htest

theorem accept (symbol : Symbol) : Spends (· = true) (accept symbol) := acceptIf rfl

/-- A token may be read first, or not. -/
theorem behind {r : Parser β} {f : β → Parser α} (hr : Keeps r) (hf : ∀ b, Spends goesOn (f b)) :
    Spends goesOn (r >>= f) := by
  refine ⟨hr.bind fun b => (hf b).keeps, fun ts => (ensures_bind _ _).mpr ?_⟩
  refine (hr.suffix ts).mono fun b mid hmid => ((hf b).spends mid).mono fun a rest hrest ha => ?_
  exact Nat.lt_of_lt_of_le (hrest ha) hmid.length_le

/-- Where a token is read first, the rest only has to keep to what is
    left. -/
theorem test {r : Parser Bool} (hr : Spends (· = true) r) (hp : Keeps p) (hq : Spends goesOn q) :
    Spends goesOn (r >>= fun found => if found then p else q) := by
  refine ⟨hr.keeps.bind fun _ => hp.ite hq.keeps, fun ts => (ensures_bind _ _).mpr ?_⟩
  intro found mid hread
  have hmid := (hr.keeps.suffix ts found mid hread).length_le
  cases found with
  | true =>
    have hless := hr.spends ts true mid hread rfl
    exact (hp.suffix mid).mono fun a rest hrest _ => Nat.lt_of_le_of_lt hrest.length_le hless
  | false => exact (hq.spends mid).mono fun a rest hrest ha => Nat.lt_of_lt_of_le (hrest ha) hmid

theorem testSymbol {symbol : Symbol} (hp : Keeps p) (hq : Spends goesOn q) :
    Spends goesOn (Parser.accept symbol >>= fun found => if found then p else q) :=
  test (accept symbol) hp hq

theorem testKeyword {keyword : Keyword} (hp : Keeps p) (hq : Spends goesOn q) :
    Spends goesOn (Parser.acceptKeyword keyword >>= fun found => if found then p else q) :=
  test (acceptIf rfl) hp hq

theorem ite {c : Prop} [Decidable c] (hp : Spends goesOn p) (hq : Spends goesOn q) :
    Spends goesOn (if c then p else q) :=
  ⟨hp.keeps.ite hq.keeps, fun ts =>
    (ensures_ite c p q).mpr ⟨fun _ => hp.spends ts, fun _ => hq.spends ts⟩⟩

/-- A lexeme has been seen, and unless the repetition ends there, what is
    read starts with it. -/
theorem seen {f : Lexeme → Parser α}
    (hf : ∀ l, Spends goesOn (f l) ∨ l ≠ .endMarker ∧ Advances (f l)) :
    Spends goesOn (peek >>= f) := by
  refine ⟨.bind .peek fun l => (hf l).elim (·.keeps) (·.2.keeps), fun ts => ?_⟩
  refine (ensures_bind _ _).mpr (ensures_peek.mpr ?_)
  rcases hf (front ts).lexeme with hspends | ⟨hmore, hadvances⟩
  · exact hspends.spends ts
  · exact (hadvances.suffix_tail ts).mono fun a rest hrest _ =>
      length_lt_of_suffix_tail hrest (ne_nil_of_front hmore)

theorem seenSymbol {symbol : Symbol} (hp : Advances p) (hq : Spends goesOn q) :
    Spends goesOn (atSymbol symbol >>= fun found => if found then p else q) := by
  refine seen (f := fun l => if l == .symbol symbol then p else q) fun l => ?_
  split
  case isTrue hl => exact .inr ⟨by simp [beq_iff_eq.mp hl], hp⟩
  case isFalse => exact .inl hq

theorem seenKeyword {keyword : Keyword} (hp : Advances p) (hq : Spends goesOn q) :
    Spends goesOn (atKeyword keyword >>= fun found => if found then p else q) := by
  refine seen (f := fun l => if l == .keyword keyword then p else q) fun l => ?_
  split
  case isTrue hl => exact .inr ⟨by simp [beq_iff_eq.mp hl], hp⟩
  case isFalse => exact .inl hq

end Spends

/-- Whether a loop goes on. -/
def Next.IsAgain : Next σ α → Prop
  | .again _ => True
  | .done _ => False

/-- A parser that is repeated. -/
theorem whileTrue_spends {body : Parser Bool} (h : Spends (· = true) body) (u : Unit) :
    Spends Next.IsAgain (whileTrue body u) :=
  .test h (.pure _) (.pure not_false)

end Parser

namespace Grammar

/-- Nothing has been read where there is nothing more to come. -/
theorem stop_spends : Spends (· = true) (pure false : Parser Bool) := .pure nofun

theorem done_spends {σ α : Type} (a : α) :
    Spends Next.IsAgain (pure (.done a) : Parser (Next σ α)) := .pure not_false

theorem go_keeps {α : Type} {p : Parser α} (hp : Keeps p) : Keeps (do
    let _ ← p
    pure true) := .bind hp fun _ => .pure true

end Grammar

end StyleCheck
