import StyleCheck.Proofs.Parsing.Reading

/-! # What a Parser Ensures

    A parser that succeeds says something about the tokens that it was
    given: which of them it has read, and what stood where.  `Ensures`
    states such a thing, and this module has a rule for each of the small
    parsers, so that a parser composed of them is taken apart by
    rewriting.

    * `ensures_bind` and others: one rule for each small parser.
    * `Ensures.loop`, `Ensures.repeatWhile`: loops, from the last round
      back to the first.
    * `Keeps`: what a parser leaves is the end of what it was given.
      `Advances`: it has read a token besides.
-/

namespace StyleCheck

namespace Parser

variable {α β σ : Type} {p : Parser α} {ts : List Token} {post : α → List Token → Prop}

/-- Whatever the parser makes of the tokens satisfies `post`, together
    with the tokens that it leaves. -/
def Ensures (p : Parser α) (ts : List Token) (post : α → List Token → Prop) : Prop :=
  ∀ a rest, p ts = .ok (a, rest) → post a rest

theorem Ensures.mono {post' : α → List Token → Prop} (h : Ensures p ts post)
    (himp : ∀ a rest, post a rest → post' a rest) : Ensures p ts post' :=
  fun a rest hread => himp a rest (h a rest hread)

/-- Only what the parser does with these tokens matters. -/
theorem Ensures.congr {q : Parser α} (h : Ensures q ts post) (hsame : p ts = q ts) :
    Ensures p ts post :=
  fun a rest hread => h a rest (hsame ▸ hread)

/-- What the parser makes of these tokens is known. -/
theorem Ensures.of_ok {a : α} {rest : List Token} (hread : p ts = .ok (a, rest))
    (hpost : post a rest) : Ensures p ts post := by
  intro a' rest' hread'
  rw [hread] at hread'
  cases hread'
  exact hpost

/-! ## Section 1: Sequences -/

@[simp] theorem ensures_pure (a : α) : Ensures (pure a) ts post ↔ post a ts :=
  ⟨fun h => h a ts rfl, fun h b rest hread => by cases hread; exact h⟩

@[simp] theorem ensures_bind (p : Parser β) (f : β → Parser α) :
    Ensures (p >>= f) ts post ↔ Ensures p ts fun b mid => Ensures (f b) mid post := by
  constructor
  · intro h b mid hp a rest hf
    apply h
    simp [hp, hf]
  · intro h a rest hread
    obtain ⟨b, mid, hp, hf⟩ := Result.andThen_eq_ok hread
    exact h b mid hp a rest hf

@[simp] theorem ensures_ite (c : Prop) [Decidable c] (p q : Parser α) :
    Ensures (if c then p else q) ts post ↔
      (c → Ensures p ts post) ∧ (¬ c → Ensures q ts post) := by
  by_cases hc : c <;> simp [hc]

/-! ## Section 2: Single tokens -/

@[simp] theorem ensures_peek {post : Lexeme → List Token → Prop} :
    Ensures peek ts post ↔ post (front ts).lexeme ts :=
  ⟨fun h => h _ _ rfl, fun h _ _ hread => by cases hread; exact h⟩

@[simp] theorem ensures_peekSecond {post : Lexeme → List Token → Prop} :
    Ensures peekSecond ts post ↔ post (front ts.tail).lexeme ts :=
  ⟨fun h => h _ _ rfl, fun h _ _ hread => by cases hread; exact h⟩

@[simp] theorem ensures_position {post : Position → List Token → Prop} :
    Ensures position ts post ↔ post (front ts).position ts :=
  ⟨fun h => h _ _ rfl, fun h _ _ hread => by cases hread; exact h⟩

@[simp] theorem ensures_line {post : Nat → List Token → Prop} :
    Ensures line ts post ↔ post (front ts).position.line ts :=
  ⟨fun h => h _ _ rfl, fun h _ _ hread => by cases hread; exact h⟩

@[simp] theorem ensures_remaining {post : List Token → List Token → Prop} :
    Ensures remaining ts post ↔ post ts ts :=
  ⟨fun h => h _ _ rfl, fun h _ _ hread => by cases hread; exact h⟩

@[simp] theorem ensures_atSymbol (symbol : Symbol) {post : Bool → List Token → Prop} :
    Ensures (atSymbol symbol) ts post ↔ post (decide ((front ts).lexeme = .symbol symbol)) ts :=
  ⟨fun h => h _ _ rfl, fun h _ _ hread => by cases hread; exact h⟩

@[simp] theorem ensures_atKeyword (keyword : Keyword) {post : Bool → List Token → Prop} :
    Ensures (atKeyword keyword) ts post ↔ post (decide ((front ts).lexeme = .keyword keyword)) ts :=
  ⟨fun h => h _ _ rfl, fun h _ _ hread => by cases hread; exact h⟩

@[simp] theorem ensures_fail (fault : Fault) : Ensures (fail fault : Parser α) ts post ↔ True :=
  iff_true_intro fun _ _ hread => by cases hread

@[simp] theorem ensures_failAt (at_ : Position) (fault : Fault) :
    Ensures (failAt at_ fault : Parser α) ts post ↔ True :=
  iff_true_intro fun _ _ hread => by cases hread

@[simp] theorem ensures_spent : Ensures (spent : Parser α) ts post ↔ True :=
  iff_true_intro fun _ _ hread => by cases hread

@[simp] theorem ensures_advance {post : Unit → List Token → Prop} :
    Ensures advance ts post ↔ post () ts.tail :=
  ⟨fun h => h _ _ rfl, fun h _ _ hread => by cases hread; exact h⟩

@[simp] theorem ensures_acceptIf (q : Lexeme → Bool) {post : Bool → List Token → Prop} :
    Ensures (acceptIf q) ts post ↔
      (q (front ts).lexeme = true → post true ts.tail) ∧
      (q (front ts).lexeme = false → post false ts) := by
  unfold Ensures
  cases hq : q (front ts).lexeme <;> simp [hq]

@[simp] theorem ensures_accept (symbol : Symbol) {post : Bool → List Token → Prop} :
    Ensures (accept symbol) ts post ↔
      ((front ts).lexeme = .symbol symbol → post true ts.tail) ∧
      ((front ts).lexeme ≠ .symbol symbol → post false ts) := by
  simp [accept]

@[simp] theorem ensures_acceptKeyword (keyword : Keyword) {post : Bool → List Token → Prop} :
    Ensures (acceptKeyword keyword) ts post ↔
      ((front ts).lexeme = .keyword keyword → post true ts.tail) ∧
      ((front ts).lexeme ≠ .keyword keyword → post false ts) := by
  simp [acceptKeyword]

@[simp] theorem ensures_expect (symbol : Symbol) {post : Unit → List Token → Prop} :
    Ensures (expect symbol) ts post ↔ ((front ts).lexeme = .symbol symbol → post () ts.tail) := by
  simp [expect]

@[simp] theorem ensures_expectKeyword (keyword : Keyword) (fault : Fault)
    {post : Unit → List Token → Prop} :
    Ensures (expectKeyword keyword fault) ts post ↔
      ((front ts).lexeme = .keyword keyword → post () ts.tail) := by
  simp [expectKeyword]

@[simp] theorem ensures_expectNewline (fault : Fault) {post : Unit → List Token → Prop} :
    Ensures (expectNewline fault) ts post ↔ ((front ts).lexeme = .newline → post () ts.tail) := by
  simp [expectNewline]

@[simp] theorem ensures_name {post : Text → List Token → Prop} :
    Ensures name ts post ↔ ∀ x, (front ts).lexeme = .name x → post x ts.tail := by
  unfold name
  rw [ensures_bind, ensures_peek]
  split
  case h_1 x hx => simp [hx]
  case h_2 hother =>
    rw [ensures_fail, true_iff]
    exact fun x hx => absurd hx (hother x)

/-! ## Section 3: Loops -/

/-- A loop goes on with a good state, or is done with a good result. -/
def Next.Meets (invariant : σ → Prop) (made : α → Prop) : Next σ α → Prop
  | .again state => invariant state
  | .done result => made result

/-- What holds of the last round, and of a round if it holds of those
    behind it, holds of the loop. -/
theorem Ensures.loop {body : σ → Parser (Next σ α)}
    {post : σ → List Token → α → List Token → Prop}
    (h : ∀ state ts, Ensures (body state) ts fun next mid =>
      match next with
      | .done result => post state ts result mid
      | .again next => ∀ result rest, post next mid result rest → post state ts result rest)
    (state : σ) (ts : List Token) : Ensures (loop body state) ts (post state ts) := by
  have hfor : ∀ (fuel : List Token) (state : σ) (ts : List Token),
      Ensures (loopFor body fuel state) ts (post state ts) := by
    intro fuel
    induction fuel with
    | nil =>
      intro state ts
      unfold loopFor
      simp
    | cons _ fuel ih =>
      intro state ts
      unfold loopFor
      rw [ensures_bind]
      refine (h state ts).mono fun next mid hround => ?_
      cases next with
      | done result => exact (ensures_pure result).mpr hround
      | again next => exact (ih next mid).mono hround
  exact fun result rest hread => hfor _ state ts result rest hread

/-- The same for what is said of the tokens alone. -/
theorem Ensures.loop_tokens {body : σ → Parser (Next σ α)} (post : List Token → List Token → Prop)
    (h : ∀ state ts, Ensures (body state) ts fun next mid =>
      match next with
      | .done _ => post ts mid
      | .again _ => ∀ rest, post mid rest → post ts rest)
    (state : σ) (ts : List Token) :
    Ensures (Parser.loop body state) ts fun _ rest => post ts rest := by
  refine @Ensures.loop _ _ body (fun _ ts _ rest => post ts rest) (fun state ts => ?_) state ts
  refine (h state ts).mono fun next mid hround => ?_
  cases next with
  | done => exact hround
  | again => exact fun _ => hround

theorem Ensures.repeatWhile {body : Parser Bool} (post : List Token → List Token → Prop)
    (h : ∀ ts, Ensures body ts fun again mid =>
      if again then ∀ rest, post mid rest → post ts rest else post ts mid) (ts : List Token) :
    Ensures (repeatWhile body) ts fun _ rest => post ts rest := by
  unfold Parser.repeatWhile whileTrue
  refine Ensures.loop_tokens post (fun _ ts => ?_) () ts
  rw [ensures_bind]
  refine (h ts).mono fun again mid hround => ?_
  cases again with
  | true =>
    rw [if_pos rfl, ensures_pure]
    exact hround
  | false =>
    rw [if_neg Bool.false_ne_true, ensures_pure]
    exact hround

/-! ## Section 4: What is left -/

/-- Where the parser reads a value, it has raised no error. -/
def Tidy (p : Parser α) : Prop := ∀ ts a, (p ts).reply = .yes a → (p ts).raised = []

namespace Tidy

variable {q : Parser β}

theorem of_ok (h : ∀ ts, ∃ read, p ts = .ok read) : Tidy p := by
  intro ts a _
  obtain ⟨read, hread⟩ := h ts
  rw [hread]
  rfl

theorem pure (a : α) : Tidy (pure a) := fun _ _ _ => rfl

/-- What has been read, without an error. -/
theorem eq_ok (h : Tidy p) {a : α} (hread : (p ts).reply = .yes a) :
    p ts = .ok (a, (p ts).rest) := by
  have hraised := h ts a hread
  generalize p ts = result at hread hraised ⊢
  obtain ⟨reply, rest, raised⟩ := result
  cases hread
  cases hraised
  rfl

theorem bind {f : β → Parser α} (hq : Tidy q) (hf : ∀ b, Tidy (f b)) : Tidy (q >>= f) := by
  intro ts a hread
  rw [bind_apply] at hread ⊢
  cases hreply : (q ts).reply with
  | yes b =>
    rw [hq.eq_ok hreply] at hread ⊢
    exact hf b _ a hread
  | no | spent =>
    -- The second parser is not run.
    generalize q ts = result at hreply hread
    obtain ⟨reply, mid, raised⟩ := result
    cases hreply
    cases hread

theorem ite {c : Prop} [Decidable c] {p p' : Parser α} (hp : Tidy p) (hp' : Tidy p') :
    Tidy (if c then p else p') := by
  split
  · exact hp
  · exact hp'

theorem loop {body : σ → Parser (Next σ α)} (h : ∀ state, Tidy (body state)) (state : σ) :
    Tidy (loop body state) := by
  have hfor : ∀ (fuel : List Token) (state : σ), Tidy (loopFor body fuel state) := by
    intro fuel
    induction fuel with
    | nil => exact fun _ _ _ hread => nomatch hread
    | cons _ fuel ih =>
      intro state
      unfold loopFor
      refine bind (h state) fun next => ?_
      cases next with
      | again state => exact ih state
      | done a => exact pure a
  exact fun ts => hfor _ state ts

end Tidy

/-- What the parser leaves is the end of what it was given. -/
structure Keeps (p : Parser α) : Prop where
  tidy : Tidy p
  suffix : ∀ ts, Ensures p ts fun _ rest => rest <:+ ts

namespace Keeps

variable {q : Parser β}

theorem pure (a : α) : Keeps (pure a) where
  tidy := .pure a
  suffix ts := (ensures_pure a).mpr (List.suffix_refl ts)

theorem bind {f : β → Parser α} (hq : Keeps q) (hf : ∀ b, Keeps (f b)) : Keeps (q >>= f) where
  tidy := hq.tidy.bind fun b => (hf b).tidy
  suffix ts := by
    rw [ensures_bind]
    refine (hq.suffix ts).mono fun b mid hmid => ?_
    exact ((hf b).suffix mid).mono fun _ _ hrest => hrest.trans hmid

theorem ite {c : Prop} [Decidable c] {p p' : Parser α} (hp : Keeps p) (hp' : Keeps p') :
    Keeps (if c then p else p') := by
  split
  · exact hp
  · exact hp'

theorem fail (fault : Fault) : Keeps (fail fault : Parser α) where
  tidy _ _ hread := nomatch hread
  suffix _ := (ensures_fail fault).mpr trivial

theorem failAt (at_ : Position) (fault : Fault) : Keeps (failAt at_ fault : Parser α) where
  tidy _ _ hread := nomatch hread
  suffix _ := (ensures_failAt at_ fault).mpr trivial

theorem spent : Keeps (spent : Parser α) where
  tidy _ _ hread := nomatch hread
  suffix _ := ensures_spent.mpr trivial

/-- A parser that only looks at the stream. -/
theorem of_look (h : ∀ ts, ∃ a, p ts = .ok (a, ts)) : Keeps p where
  tidy := .of_ok fun ts => (h ts).elim fun _ hread => ⟨_, hread⟩
  suffix ts := by
    obtain ⟨a, hread⟩ := h ts
    exact .of_ok hread (List.suffix_refl ts)

theorem peek : Keeps peek := .of_look fun _ => ⟨_, rfl⟩

theorem peekSecond : Keeps peekSecond := .of_look fun _ => ⟨_, rfl⟩

theorem position : Keeps position := .of_look fun _ => ⟨_, rfl⟩

theorem line : Keeps line := .of_look fun _ => ⟨_, rfl⟩

theorem remaining : Keeps remaining := .of_look fun _ => ⟨_, rfl⟩

theorem atSymbol (symbol : Symbol) : Keeps (atSymbol symbol) := .of_look fun _ => ⟨_, rfl⟩

theorem atKeyword (keyword : Keyword) : Keeps (atKeyword keyword) := .of_look fun _ => ⟨_, rfl⟩

theorem advance : Keeps advance where
  tidy := .of_ok fun _ => ⟨_, rfl⟩
  suffix ts := ensures_advance.mpr (List.tail_suffix ts)

theorem acceptIf (test : Lexeme → Bool) : Keeps (acceptIf test) where
  tidy := .of_ok fun ts => by
    rw [acceptIf_apply]
    split <;> exact ⟨_, rfl⟩
  suffix ts := (ensures_acceptIf test).mpr
    ⟨fun _ => List.tail_suffix ts, fun _ => List.suffix_refl ts⟩

theorem accept (symbol : Symbol) : Keeps (accept symbol) := acceptIf _

theorem acceptKeyword (keyword : Keyword) : Keeps (acceptKeyword keyword) := acceptIf _

theorem expect (symbol : Symbol) : Keeps (expect symbol) :=
  (accept symbol).bind fun _ => (pure ()).ite (fail _)

theorem expectKeyword (keyword : Keyword) (fault : Fault) : Keeps (expectKeyword keyword fault) :=
  (acceptKeyword keyword).bind fun _ => (pure ()).ite (fail _)

theorem expectNewline (fault : Fault) : Keeps (expectNewline fault) :=
  (acceptIf _).bind fun _ => (pure ()).ite (fail _)

theorem name : Keeps name := by
  unfold Parser.name
  refine peek.bind fun l => ?_
  split
  · exact advance.bind fun _ => pure _
  · exact fail _

theorem loop {body : σ → Parser (Next σ α)} (h : ∀ state, Keeps (body state)) (state : σ) :
    Keeps (loop body state) where
  tidy := .loop (fun state => (h state).tidy) state
  suffix := by
    refine Ensures.loop_tokens (fun ts rest => rest <:+ ts) (fun state ts => ?_) state
    refine ((h state).suffix ts).mono fun next mid hmid => ?_
    cases next with
    | done => exact hmid
    | again => exact fun _ hrest => hrest.trans hmid

theorem repeatWhile {body : Parser Bool} (h : Keeps body) : Keeps (repeatWhile body) :=
  loop (fun _ => h.bind fun _ => (pure _).ite (pure _)) ()

end Keeps

/-- Parsers that look at one token after the other: at each they fail, or
    they are done with it, or go on behind it.  At an end marker they fail. -/
structure Stepwise {ι : Type} (p : ι → Parser Unit) : Prop where
  nil : ∀ i, ∃ fault, p i [] = fail fault []
  cons : ∀ i token ts, (∃ fault, p i (token :: ts) = fail fault (token :: ts)) ∨
    token.lexeme ≠ .endMarker ∧
      (p i (token :: ts) = .ok ((), ts) ∨ ∃ j, p i (token :: ts) = p j ts)

namespace Stepwise

variable {ι : Type} {p : ι → Parser Unit}

theorem keeps (h : Stepwise p) (i : ι) : Keeps (p i) := by
  suffices ∀ ts i, (∀ a, (p i ts).reply = .yes a → (p i ts).raised = []) ∧
      Ensures (p i) ts fun _ rest => rest <:+ ts from
    ⟨fun ts a hread => (this ts i).1 a hread, fun ts => (this ts i).2⟩
  intro ts
  induction ts with
  | nil =>
    intro i
    obtain ⟨fault, hfail⟩ := h.nil i
    rw [hfail]
    exact ⟨(Keeps.fail fault).tidy [], ((Keeps.fail fault).suffix []).congr hfail⟩
  | cons token ts ih =>
    intro i
    rcases h.cons i token ts with ⟨fault, hfail⟩ | ⟨-, hdone | ⟨j, hmore⟩⟩
    · rw [hfail]
      exact ⟨(Keeps.fail fault).tidy _, ((Keeps.fail fault).suffix _).congr hfail⟩
    · rw [hdone]
      exact ⟨Keeps.advance.tidy (token :: ts), (Keeps.advance.suffix (token :: ts)).congr hdone⟩
    · rw [hmore]
      refine ⟨(ih j).1, fun a rest hread => ?_⟩
      exact ((ih j).2 a rest (hmore ▸ hread)).trans (List.suffix_cons token ts)

end Stepwise

/-- A stream is left behind together with the token at its front. -/
theorem tail_suffix_tail {mid : List Token} (h : mid <:+ ts) : mid.tail <:+ ts.tail := by
  obtain ⟨front, rfl⟩ := h
  cases front with
  | nil => exact List.suffix_refl _
  | cons token front => exact (List.tail_suffix mid).trans (List.suffix_append front mid)

/-- What has been read leaves no more tokens than there were. -/
theorem Keeps.length_le (h : Keeps p) {a : α} (hread : (p ts).reply = .yes a) :
    (p ts).rest.length ≤ ts.length :=
  (h.suffix ts a _ (h.tidy.eq_ok hread)).length_le

/-- What the parser leaves is the end of what comes behind the token at
    the front. -/
structure Advances (p : Parser α) : Prop where
  tidy : Tidy p
  suffix_tail : ∀ ts, Ensures p ts fun _ rest => rest <:+ ts.tail

namespace Advances

theorem length_le (h : Advances p) {a : α} (hread : (p ts).reply = .yes a) :
    (p ts).rest.length ≤ ts.length - 1 := by
  have hlength := (h.suffix_tail ts a _ (h.tidy.eq_ok hread)).length_le
  rwa [List.length_tail] at hlength

theorem keeps (h : Advances p) : Keeps p where
  tidy := h.tidy
  suffix ts := (h.suffix_tail ts).mono fun _ _ hrest => hrest.trans (List.tail_suffix ts)

theorem advance : Advances advance where
  tidy := Keeps.advance.tidy
  suffix_tail ts := ensures_advance.mpr (List.suffix_refl ts.tail)

theorem bind {q : Parser β} {f : β → Parser α} (hq : Advances q) (hf : ∀ b, Keeps (f b)) :
    Advances (q >>= f) where
  tidy := hq.tidy.bind fun b => (hf b).tidy
  suffix_tail ts := by
    rw [ensures_bind]
    refine (hq.suffix_tail ts).mono fun b mid hmid => ?_
    exact ((hf b).suffix mid).mono fun _ _ hrest => hrest.trans hmid

/-- A token may be read first, or not. -/
theorem behind {q : Parser β} {f : β → Parser α} (hq : Keeps q) (hf : ∀ b, Advances (f b)) :
    Advances (q >>= f) where
  tidy := hq.tidy.bind fun b => (hf b).tidy
  suffix_tail ts := by
    rw [ensures_bind]
    refine (hq.suffix ts).mono fun b mid hmid => ?_
    exact ((hf b).suffix_tail mid).mono fun _ _ hrest => hrest.trans (tail_suffix_tail hmid)

theorem ite {c : Prop} [Decidable c] {p p' : Parser α} (hp : Advances p) (hp' : Advances p') :
    Advances (if c then p else p') := by
  split
  · exact hp
  · exact hp'

theorem fail (fault : Fault) : Advances (fail fault : Parser α) where
  tidy := (Keeps.fail fault).tidy
  suffix_tail _ := (ensures_fail fault).mpr trivial

theorem spent : Advances (spent : Parser α) where
  tidy := Keeps.spent.tidy
  suffix_tail _ := ensures_spent.mpr trivial

/-- On every stream, the parser does what one that reads a token does. -/
theorem of_same {p : Parser α} {q : List Token → Parser α} (h : ∀ ts, Advances (q ts))
    (hsame : ∀ ts, p ts = q ts ts) : Advances p where
  tidy ts a hread := by
    rw [hsame] at hread ⊢
    exact (h ts).tidy ts a hread
  suffix_tail ts := ((h ts).suffix_tail ts).congr (hsame ts)

/-- A token that has to be there is read. -/
theorem expect (symbol : Symbol) : Advances (expect symbol) where
  tidy := (Keeps.expect symbol).tidy
  suffix_tail ts := (ensures_expect symbol).mpr fun _ => List.suffix_refl ts.tail

end Advances

end Parser

end StyleCheck
