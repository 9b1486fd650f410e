import StyleCheck.Proofs.Parsing.Spends
import StyleCheck.Syntax.Tree

/-! # What a Parser Blames

    A parser fails at the front of what is left to read, or at a place
    that it has seen before.  As long as it stays in front of the first
    end marker, both are places of tokens up to that one.

    * `Within`: there is an end marker, and what is said of the positions
      holds of all tokens up to it.
    * `Passes`: tokens have been read, and no end marker among them.
    * `StaysFrom`, `Stays`: a parser reads no end marker, whether it
      succeeds or fails.  It says of its result what it should, or raises a
      single error, at such a position.  It does not run out of fuel.
    * `Stays.bind` and others: one rule for each small parser.  A token
      is read by `advance` only where it is known not to be an end marker,
      so the rules before it are about one stream.
    * `Stays.rounds_or_fails`, `Stays.loop`: loops, with an invariant of
      their states.  `Stays.stepwise`: parsers that look at single tokens.
-/

namespace StyleCheck

namespace Parser

/-- A parser has gone on from one stream to another, over tokens none of
    which is an end marker. -/
def Passes (ts rest : List Token) : Prop :=
  ∃ read, ts = read ++ rest ∧ ∀ token ∈ read, token.lexeme ≠ .endMarker

namespace Passes

theorem refl (ts : List Token) : Passes ts ts := ⟨[], rfl, nofun⟩

theorem trans {ts mid rest : List Token} (h : Passes ts mid) (h' : Passes mid rest) :
    Passes ts rest := by
  obtain ⟨read, rfl, hread⟩ := h
  obtain ⟨later, rfl, hlater⟩ := h'
  refine ⟨read ++ later, (List.append_assoc ..).symm, fun token hmem => ?_⟩
  rcases List.mem_append.mp hmem with hmem | hmem
  · exact hread token hmem
  · exact hlater token hmem

end Passes

/-- There is an end marker, and the positions of all tokens up to the
    first one are good. -/
inductive Within (good : Position → Prop) : List Token → Prop where
  | stop {token : Token} {ts : List Token} (hend : token.lexeme = .endMarker)
      (hgood : good token.position) : Within good (token :: ts)
  | more {token : Token} {ts : List Token} (hmore : token.lexeme ≠ .endMarker)
      (hgood : good token.position) (hts : Within good ts) : Within good (token :: ts)

variable {α β σ : Type} {good : Position → Prop} {ts : List Token}

namespace Within

/-- The front is a token up to the end marker. -/
theorem front (h : Within good ts) : good (front ts).position := by
  cases h with
  | stop _ hgood => exact hgood
  | more _ hgood _ => exact hgood

/-- What is behind any token but the end marker. -/
theorem tail (h : Within good ts) (hmore : (Parser.front ts).lexeme ≠ .endMarker) :
    Within good ts.tail := by
  cases h with
  | stop hend _ => exact absurd hend hmore
  | more _ _ hts => exact hts

/-- Where a parser is when it has read no end marker. -/
theorem behind {rest : List Token} (h : Within good ts) (hpasses : Passes ts rest) :
    Within good rest := by
  obtain ⟨read, rfl, hread⟩ := hpasses
  induction read with
  | nil => exact h
  | cons token read ih =>
    obtain ⟨hmore, hothers⟩ := List.forall_mem_cons.mp hread
    exact ih hothers (h.tail hmore)

/-- Any token but the end marker may be read. -/
theorem passes_tail (h : Within good ts) (hmore : (Parser.front ts).lexeme ≠ .endMarker) :
    Passes ts ts.tail := by
  cases h with
  | stop hend _ => exact absurd hend hmore
  | more hmore _ _ => exact ⟨[_], rfl, List.forall_mem_singleton.mpr hmore⟩

/-- A token that is tested for may be read, unless that is true of an end
    marker. -/
theorem passes_of_test {test : Lexeme → Bool} (h : Within good ts) (hmore : test .endMarker = false)
    (htest : test (Parser.front ts).lexeme = true) : Passes ts ts.tail := by
  refine h.passes_tail fun hend => ?_
  rw [hend, hmore] at htest
  cases htest

/-- If all positions are good, only an end marker is needed. -/
theorem of_forall (hgood : ∀ token ∈ ts, good token.position)
    (hend : ∃ token ∈ ts, token.lexeme = .endMarker) : Within good ts := by
  induction ts with
  | nil =>
    obtain ⟨token, hmem, _⟩ := hend
    cases hmem
  | cons token ts ih =>
    obtain ⟨hfirst, hothers⟩ := List.forall_mem_cons.mp hgood
    by_cases h : token.lexeme = .endMarker
    · exact .stop h hfirst
    · refine .more h hfirst (ih hothers ?_)
      obtain ⟨last, hmem, hlast⟩ := hend
      rcases List.mem_cons.mp hmem with rfl | hmem
      · exact absurd hlast h
      · exact ⟨last, hmem, hlast⟩

end Within

/-- From a stream with an end marker, the parser does not go over it.
    It raises no error, and what it makes is as said, or it raises one, and
    where it fails is good. -/
def StaysFrom (good : Position → Prop) (ts : List Token) (p : Parser α) (made : α → Prop) : Prop :=
  Within good ts →
    (∃ a rest, p ts = .ok (a, rest) ∧ made a ∧ Passes ts rest) ∨
    ∃ e rest, p ts = .failed e rest ∧ good e.position ∧ Passes ts rest

/-- The same from every stream. -/
def Stays (good : Position → Prop) (p : Parser α) (made : α → Prop) : Prop :=
  ∀ ts, StaysFrom good ts p made

/-- A parser of expressions, which puts them at good positions. -/
def StaysSited (good : Position → Prop) (p : Parser Expr) : Prop :=
  Stays good p fun e => good e.position

/-- A parser whose result does not matter. -/
def StaysAny (good : Position → Prop) (p : Parser α) : Prop := Stays good p fun _ => True

variable {p q : Parser α} {made : α → Prop} {madeBefore : β → Prop}

/-- Either a name is at the front, and is read, or the parser fails. -/
theorem name_cases (ts : List Token) :
    (∃ x, (front ts).lexeme = .name x ∧ name ts = .ok (x, ts.tail)) ∨
      name ts = .failed ⟨(front ts).position, .invalidSyntax⟩ ts := by
  cases ts with
  | nil => exact .inr rfl
  | cons token ts =>
    obtain ⟨lexeme, at_⟩ := token
    cases lexeme with
    | name x => exact .inl ⟨x, rfl, rfl⟩
    | _ => exact .inr rfl

/-! ## Section 1: From one stream -/

namespace StaysFrom

theorem mono {made' : α → Prop} (h : StaysFrom good ts p made) (himp : ∀ a, made a → made' a) :
    StaysFrom good ts p made' := by
  intro hts
  rcases h hts with ⟨a, rest, hread, hmade, hpasses⟩ | hfailed
  · exact .inl ⟨a, rest, hread, himp a hmade, hpasses⟩
  · exact .inr hfailed

/-- The parser is run behind tokens that have been read. -/
theorem behind {us : List Token} (h : StaysFrom good us q made) (hpasses : Passes ts us)
    (hsame : p ts = q us) : StaysFrom good ts p made := by
  intro hts
  rw [hsame]
  rcases h (hts.behind hpasses) with ⟨a, rest, hread, hmade, hrest⟩ | ⟨e, rest, hread, hgood, hrest⟩
  · exact .inl ⟨a, rest, hread, hmade, hpasses.trans hrest⟩
  · exact .inr ⟨e, rest, hread, hgood, hpasses.trans hrest⟩

/-- Only what the parser does with this stream matters. -/
theorem congr (h : StaysFrom good ts q made) (hsame : p ts = q ts) : StaysFrom good ts p made :=
  h.behind (.refl ts) hsame

theorem of_ok {a : α} {rest : List Token} (hread : p ts = .ok (a, rest)) (hmade : made a)
    (hpasses : Within good ts → Passes ts rest) : StaysFrom good ts p made :=
  fun hts => .inl ⟨a, rest, hread, hmade, hpasses hts⟩

/-- The parser fails without reading. -/
theorem of_failed {e : SyntaxError} (hread : p ts = .failed e ts)
    (hgood : Within good ts → good e.position) : StaysFrom good ts p made :=
  fun hts => .inr ⟨e, ts, hread, hgood hts, .refl ts⟩

theorem pure {a : α} (h : made a) : StaysFrom good ts (pure a) made :=
  of_ok rfl h fun _ => .refl ts

theorem fail (fault : Fault) : StaysFrom good ts (Parser.fail fault) made :=
  of_failed rfl fun hts => hts.front

/-- One parser is run behind another, which stays in front of the end
    marker. -/
theorem andThen {p : Parser β} {f : β → Parser α} (hp : StaysFrom good ts p madeBefore)
    (hf : ∀ b mid, p ts = .ok (b, mid) → madeBefore b → StaysFrom good mid (f b) made) :
    StaysFrom good ts (p >>= f) made := by
  intro hts
  rw [bind_apply]
  rcases hp hts with ⟨b, mid, hread, hmade, hpasses⟩ | ⟨e, rest, hread, hfailed⟩
  · have hrest : StaysFrom good ts (fun _ => f b mid) made :=
      (hf b mid hread hmade).behind hpasses rfl
    rw [hread]
    exact hrest hts
  · rw [hread]
    exact .inr ⟨e, rest, rfl, hfailed⟩

theorem bind {p : Parser β} {f : β → Parser α} (hp : StaysFrom good ts p madeBefore)
    (hf : ∀ b, madeBefore b → Stays good (f b) made) : StaysFrom good ts (p >>= f) made :=
  hp.andThen fun b mid _ hmade => hf b hmade mid

theorem ite {c : Prop} [Decidable c] (hp : c → StaysFrom good ts p made)
    (hq : ¬ c → StaysFrom good ts q made) : StaysFrom good ts (if c then p else q) made := by
  split
  case isTrue h => exact hp h
  case isFalse h => exact hq h

/-- A parser that only looks at the stream. -/
theorem look {p : Parser β} {b : β} {f : β → Parser α} (hlook : p ts = .ok (b, ts))
    (h : StaysFrom good ts (f b) made) : StaysFrom good ts (p >>= f) made :=
  h.congr (by rw [bind_apply, hlook, Result.andThen_ok])

variable {f : Lexeme → Parser α}

theorem peek (h : StaysFrom good ts (f (front ts).lexeme) made) :
    StaysFrom good ts (Parser.peek >>= f) made := h

theorem peekSecond (h : StaysFrom good ts (f (front ts.tail).lexeme) made) :
    StaysFrom good ts (Parser.peekSecond >>= f) made := h

theorem position {f : Position → Parser α}
    (h : good (front ts).position → StaysFrom good ts (f (front ts).position) made) :
    StaysFrom good ts (Parser.position >>= f) made := fun hts => h hts.front hts

theorem line {f : Nat → Parser α} (h : StaysFrom good ts (f (front ts).position.line) made) :
    StaysFrom good ts (Parser.line >>= f) made := h

theorem remaining {f : List Token → Parser α} (h : StaysFrom good ts (f ts) made) :
    StaysFrom good ts (Parser.remaining >>= f) made := h

theorem atSymbol {symbol : Symbol} {f : Bool → Parser α}
    (h : StaysFrom good ts (f (decide ((front ts).lexeme = .symbol symbol))) made) :
    StaysFrom good ts (Parser.atSymbol symbol >>= f) made := h

theorem atKeyword {keyword : Keyword} {f : Bool → Parser α}
    (h : StaysFrom good ts (f (decide ((front ts).lexeme = .keyword keyword))) made) :
    StaysFrom good ts (Parser.atKeyword keyword >>= f) made := h

/-- A token that is not an end marker is read. -/
theorem advance {f : Unit → Parser α} (hmore : (front ts).lexeme ≠ .endMarker)
    (h : StaysFrom good ts.tail (f ()) made) : StaysFrom good ts (Parser.advance >>= f) made :=
  fun hts => h.behind (hts.passes_tail hmore) rfl hts

theorem acceptIf {test : Lexeme → Bool} (hmore : test .endMarker = false)
    (hread : test (front ts).lexeme = true → StaysFrom good ts.tail p made)
    (hleft : StaysFrom good ts q made) :
    StaysFrom good ts (Parser.acceptIf test >>= fun read => if read then p else q) made := by
  intro hts
  cases htest : test (front ts).lexeme with
  | true =>
    exact (hread htest).behind (hts.passes_of_test hmore htest) (by simp [htest]) hts
  | false => exact hleft.congr (by simp [htest]) hts

theorem acceptKeyword {keyword : Keyword}
    (hread : (front ts).lexeme = .keyword keyword → StaysFrom good ts.tail p made)
    (hleft : StaysFrom good ts q made) :
    StaysFrom good ts (Parser.acceptKeyword keyword >>= fun read => if read then p else q) made :=
  acceptIf rfl (fun h => hread (beq_iff_eq.mp h)) hleft

/-- A name is read, and the rest goes on behind it. -/
theorem name {f : Text → Parser α}
    (h : ∀ x, (front ts).lexeme = .name x → StaysFrom good ts.tail (f x) made) :
    StaysFrom good ts (Parser.name >>= f) made := by
  rcases name_cases ts with ⟨x, hx, hread⟩ | hread
  · exact fun hts => (h x hx).behind (hts.passes_tail (by simp [hx]))
      (by rw [bind_apply, hread, Result.andThen_ok]) hts
  · exact of_failed (by rw [bind_apply, hread, Result.andThen_failed]) fun hts => hts.front

end StaysFrom

/-! ## Section 2: From every stream -/

namespace Stays

theorem pure {a : α} (h : made a) : Stays good (pure a) made := fun _ => .pure h

theorem bind {p : Parser β} {f : β → Parser α} (hp : Stays good p madeBefore)
    (hf : ∀ b, madeBefore b → Stays good (f b) made) : Stays good (p >>= f) made :=
  fun ts => (hp ts).bind hf

theorem ite {c : Prop} [Decidable c] (hp : Stays good p made) (hq : Stays good q made) :
    Stays good (if c then p else q) made :=
  fun ts => .ite (fun _ => hp ts) fun _ => hq ts

theorem mono {made' : α → Prop} (h : Stays good p made) (himp : ∀ a, made a → made' a) :
    Stays good p made' := fun ts => (h ts).mono himp

theorem any (h : Stays good p made) : StaysAny good p := h.mono fun _ _ => trivial

theorem fail (fault : Fault) : Stays good (Parser.fail fault) made := fun _ => .fail fault

theorem failAt {at_ : Position} (fault : Fault) (h : good at_) :
    Stays good (Parser.failAt at_ fault) made := fun _ => .of_failed rfl fun _ => h

theorem position {f : Position → Parser α} (h : ∀ at_, good at_ → Stays good (f at_) made) :
    Stays good (Parser.position >>= f) made := fun ts => .position fun hat => h _ hat ts

/-- A parser that only looks at the stream. -/
theorem look {p : Parser α} (h : ∀ ts, ∃ a, p ts = .ok (a, ts)) : StaysAny good p := by
  intro ts
  obtain ⟨a, hread⟩ := h ts
  exact .of_ok hread trivial fun _ => .refl ts

theorem peek : StaysAny good Parser.peek := look fun _ => ⟨_, rfl⟩

theorem line : StaysAny good Parser.line := look fun _ => ⟨_, rfl⟩

theorem atSymbol (symbol : Symbol) : StaysAny good (Parser.atSymbol symbol) :=
  look fun _ => ⟨_, rfl⟩

theorem atKeyword (keyword : Keyword) : StaysAny good (Parser.atKeyword keyword) :=
  look fun _ => ⟨_, rfl⟩

theorem acceptIf {test : Lexeme → Bool} (hmore : test .endMarker = false) :
    StaysAny good (Parser.acceptIf test) := by
  intro ts
  cases htest : test (front ts).lexeme with
  | true =>
    exact .of_ok (by rw [acceptIf_apply, if_pos htest]) trivial fun hts =>
      hts.passes_of_test hmore htest
  | false =>
    exact .of_ok (by rw [acceptIf_apply, if_neg (by simp [htest])]) trivial fun _ => .refl ts

theorem accept (symbol : Symbol) : StaysAny good (Parser.accept symbol) := acceptIf rfl

theorem acceptKeyword (keyword : Keyword) : StaysAny good (Parser.acceptKeyword keyword) :=
  acceptIf rfl

theorem expect (symbol : Symbol) : StaysAny good (Parser.expect symbol) :=
  bind (accept symbol) fun _ _ => ite (pure trivial) (fail _)

theorem expectKeyword (keyword : Keyword) (fault : Fault) :
    StaysAny good (Parser.expectKeyword keyword fault) :=
  bind (acceptKeyword keyword) fun _ _ => ite (pure trivial) (fail _)

theorem expectNewline (fault : Fault) : StaysAny good (Parser.expectNewline fault) :=
  bind (acceptIf rfl) fun _ _ => ite (pure trivial) (fail _)

theorem name : StaysAny good Parser.name := by
  intro ts
  rcases name_cases ts with ⟨x, hx, hread⟩ | hread
  · exact .of_ok hread trivial fun hts => hts.passes_tail (by simp [hx])
  · exact .of_failed hread fun hts => hts.front

/-! ## Section 3: Loops -/

/-- A loop whose states are all as said, and whose rounds read tokens, ends:
    after some rounds it is done, or one of them fails. -/
theorem rounds_or_fails {body : σ → Parser (Next σ α)} (said : σ → Prop)
    (hspends : ∀ state, Spends Next.IsAgain (body state))
    (hbody : ∀ state, said state → Stays good (body state) (Next.Meets said made))
    (state : σ) (hstate : said state) {ts : List Token} (hts : Within good ts) :
    (∃ a rest, Rounds body state ts a rest ∧ made a ∧ Passes ts rest) ∨
    ∃ e rest, Fails body state ts e rest ∧ good e.position ∧ Passes ts rest := by
  induction hlength : ts.length using Nat.strongRecOn generalizing state ts with
  | _ n ih =>
    rcases hbody state hstate ts hts with
      ⟨next, mid, hread, hnext, hmid⟩ | ⟨e, rest, hread, hgood, hrest⟩
    · cases next with
      | done a => exact .inl ⟨a, mid, .done hread, hnext, hmid⟩
      | again next =>
        -- The round has read a token.
        have hless : mid.length < ts.length := (hspends state).spends ts _ mid hread trivial
        rcases ih mid.length (hlength ▸ hless) next hnext (hts.behind hmid) rfl with
          ⟨a, rest, hrounds, hmade, hrest⟩ | ⟨e, rest, hfails, hgood, hrest⟩
        · exact .inl ⟨a, rest, .again hread hless hrounds, hmade, hmid.trans hrest⟩
        · exact .inr ⟨e, rest, .later hread hless hfails, hgood, hmid.trans hrest⟩
    · exact .inr ⟨e, rest, .here hread, hgood, hrest⟩

/-- So the loop has fuel enough. -/
theorem loop {body : σ → Parser (Next σ α)} (said : σ → Prop)
    (hspends : ∀ state, Spends Next.IsAgain (body state)) {state : σ} (hstate : said state)
    (hbody : ∀ state, said state → Stays good (body state) (Next.Meets said made)) :
    Stays good (Parser.loop body state) made := by
  intro ts hts
  rcases rounds_or_fails said hspends hbody state hstate hts with
    ⟨a, rest, hrounds, hmade, hpasses⟩ | ⟨e, rest, hfails, hgood, hpasses⟩
  · exact .inl ⟨a, rest, loop_of_rounds hrounds, hmade, hpasses⟩
  · exact .inr ⟨e, rest, loop_of_fails hfails, hgood, hpasses⟩

/-- A round whose state does not matter. -/
theorem meets {round : Parser (Next σ α)} (h : Stays good round fun _ => True) :
    Stays good round (Next.Meets (fun _ => True) fun _ => True) :=
  h.mono fun next _ => by cases next <;> trivial

/-- A loop whose states do not matter. -/
theorem loopAny {body : σ → Parser (Next σ α)}
    (hspends : ∀ state, Spends Next.IsAgain (body state))
    (hbody : ∀ state, StaysAny good (body state)) (state : σ) : StaysAny good (Parser.loop body state) :=
  loop (fun _ => True) hspends trivial fun state _ => (hbody state).meets

theorem whileTrue {body : Parser Bool} (h : StaysAny good body) (u : Unit) :
    StaysAny good (Parser.whileTrue body u) :=
  bind h fun _ _ => ite (pure trivial) (pure trivial)

theorem repeatWhile {body : Parser Bool} (hspends : Spends (· = true) body)
    (h : StaysAny good body) : StaysAny good (Parser.repeatWhile body) :=
  loopAny (whileTrue_spends hspends) (whileTrue h) ()

/-- Parsers that look at one token after the other. -/
theorem stepwise {ι : Type} {p : ι → Parser Unit} (h : Stepwise p) (i : ι) :
    StaysAny good (p i) := by
  intro ts
  induction ts generalizing i with
  | nil => exact fun hts => nomatch hts
  | cons token ts ih =>
    rcases h.cons i token ts with ⟨fault, hread⟩ | ⟨hmore, hread | ⟨j, hread⟩⟩
    · exact .of_failed hread fun hts => hts.front
    · exact StaysFrom.congr (.advance hmore (.pure trivial)) hread
    · exact fun hts => (ih j).behind (hts.passes_tail hmore) hread hts

end Stays

end Parser

end StyleCheck
