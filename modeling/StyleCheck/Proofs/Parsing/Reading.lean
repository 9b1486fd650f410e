import StyleCheck.Syntax.Parser

/-! # What a Parser Reads

    A parser is a function on token streams.  The lemmas of this module
    say what each of the small parsers does to a stream, so that a parser
    composed of them is run by rewriting.

    Loops carry fuel.  `Rounds` is a loop without it: the rounds one
    after the other, each of which reads a token, and the last, which is
    done.
-/

namespace StyleCheck

namespace Parser

variable {α β σ : Type} (ts : List Token)

/-! ## Section 1: Results and sequences -/

namespace Result

variable {f : α → Parser β} {read read' : α × List Token} {b : β}
  {rest rest' : List Token} {e e' : SyntaxError}

@[simp] theorem ok_inj : ok read = ok read' ↔ read = read' := by
  constructor
  · intro h
    simp only [ok, mk.injEq, Reply.yes.injEq, and_true] at h
    exact Prod.ext h.1 h.2
  · exact congrArg ok

@[simp] theorem failed_inj : (failed e rest : Result α) = failed e' rest' ↔ e = e' ∧ rest = rest' := by
  simp only [failed, mk.injEq, true_and, List.cons.injEq, and_true]
  exact and_comm

@[simp] theorem ok_ne_failed : ok read ≠ failed e rest := nofun

@[simp] theorem failed_ne_ok : failed e rest ≠ ok read := nofun

@[simp] theorem andThen_ok : (ok read).andThen f = f read.1 read.2 := rfl

@[simp] theorem andThen_failed : (failed e rest : Result α).andThen f = failed e rest := rfl

/-- Only what is read without an error goes on to something that is. -/
theorem andThen_eq_ok {result : Result α} (h : result.andThen f = ok (b, rest)) :
    ∃ a mid, result = ok (a, mid) ∧ f a mid = ok (b, rest) := by
  obtain ⟨reply, mid, raised⟩ := result
  cases reply with
  | yes a =>
    cases raised with
    | nil => exact ⟨a, mid, rfl, h⟩
    | cons first raised =>
      have hraised : first :: raised ++ (f a mid).raised = [] := congrArg Result.raised h
      cases hraised
  | no => cases h
  | spent => cases h

/-- Only what is done with a value that has been read matters. -/
theorem andThen_congr {result : Result α} {g : α → Parser β}
    (h : ∀ a, result.reply = .yes a → f a result.rest = g a result.rest) :
    result.andThen f = result.andThen g := by
  obtain ⟨reply, mid, raised⟩ := result
  cases reply with
  | yes a =>
    have hsame : f a mid = g a mid := h a rfl
    cases raised with
    | nil => exact hsame
    | cons => simp only [andThen, hsame]
  | no | spent => rfl

end Result

@[simp] theorem pure_apply (a : α) : (pure a : Parser α) ts = .ok (a, ts) := rfl

@[simp] theorem bind_apply (p : Parser α) (f : α → Parser β) :
    (p >>= f) ts = (p ts).andThen f := rfl

@[simp] theorem ite_apply (c : Prop) [Decidable c] (p q : Parser α) :
    (if c then p else q) ts = if c then p ts else q ts := by
  split <;> rfl

@[simp] theorem fail_apply (fault : Fault) :
    (fail fault : Parser α) ts = .failed ⟨(front ts).position, fault⟩ ts := rfl

@[simp] theorem failAt_apply (at_ : Position) (fault : Fault) :
    (failAt at_ fault : Parser α) ts = .failed ⟨at_, fault⟩ ts := rfl

/-! ## Section 2: Single tokens -/

@[simp] theorem front_cons (t : Token) : front (t :: ts) = t := rfl

@[simp] theorem peek_apply : peek ts = .ok ((front ts).lexeme, ts) := rfl

@[simp] theorem peekSecond_apply : peekSecond ts = .ok ((front ts.tail).lexeme, ts) := rfl

@[simp] theorem position_apply : position ts = .ok ((front ts).position, ts) := rfl

@[simp] theorem line_apply : line ts = .ok ((front ts).position.line, ts) := rfl

@[simp] theorem remaining_apply : remaining ts = .ok (ts, ts) := rfl

@[simp] theorem advance_apply : advance ts = .ok ((), ts.tail) := rfl

@[simp] theorem atSymbol_apply (symbol : Symbol) :
    atSymbol symbol ts = .ok (decide ((front ts).lexeme = .symbol symbol), ts) := rfl

@[simp] theorem atKeyword_apply (keyword : Keyword) :
    atKeyword keyword ts = .ok (decide ((front ts).lexeme = .keyword keyword), ts) := rfl

@[simp] theorem acceptIf_apply (p : Lexeme → Bool) :
    acceptIf p ts = if p (front ts).lexeme then .ok (true, ts.tail) else .ok (false, ts) := rfl

@[simp] theorem accept_apply (symbol : Symbol) :
    accept symbol ts =
      if (front ts).lexeme = .symbol symbol then .ok (true, ts.tail) else .ok (false, ts) := by
  simp [accept]

@[simp] theorem acceptKeyword_apply (keyword : Keyword) :
    acceptKeyword keyword ts =
      if (front ts).lexeme = .keyword keyword then .ok (true, ts.tail) else .ok (false, ts) := by
  simp [acceptKeyword]

/-- A symbol that is there is read. -/
@[simp] theorem expect_cons (symbol : Symbol) (at_ : Position) :
    expect symbol (⟨.symbol symbol, at_⟩ :: ts) = .ok ((), ts) := by
  simp [expect]

@[simp] theorem expectKeyword_cons (keyword : Keyword) (fault : Fault) (at_ : Position) :
    expectKeyword keyword fault (⟨.keyword keyword, at_⟩ :: ts) = .ok ((), ts) := by
  simp [expectKeyword]

@[simp] theorem expectNewline_cons (fault : Fault) (at_ : Position) :
    expectNewline fault (⟨.newline, at_⟩ :: ts) = .ok ((), ts) := by
  simp [expectNewline]

@[simp] theorem name_cons (text : Text) (at_ : Position) :
    name (⟨.name text, at_⟩ :: ts) = .ok (text, ts) := by
  simp [name]

/-- A lexeme at the front is the first token, unless it is the end. -/
theorem eq_cons_of_front {ts : List Token} {l : Lexeme} (h : (front ts).lexeme = l) (hl : l ≠ .endMarker) :
    ∃ p, ts = ⟨l, p⟩ :: ts.tail := by
  cases ts with
  | nil => exact absurd h.symm hl
  | cons token ts =>
    obtain ⟨lexeme, p⟩ := token
    obtain rfl : lexeme = l := h
    exact ⟨p, rfl⟩

/-! ## Section 3: Loops -/

/-- The rounds of a loop: each but the last reads a token and hands on a
    state, the last gives the result. -/
inductive Rounds (body : σ → Parser (Next σ α)) : σ → List Token → α → List Token → Prop where
  | done {state : σ} {result : α} {ts rest : List Token} :
      body state ts = .ok (.done result, rest) → Rounds body state ts result rest
  | again {state next : σ} {result : α} {ts rest rest' : List Token} :
      body state ts = .ok (.again next, rest) → rest.length < ts.length →
      Rounds body next rest result rest' → Rounds body state ts result rest'

variable {body : σ → Parser (Next σ α)} {state : σ} {result : α} {ts} {rest : List Token}

theorem loopFor_of_rounds (h : Rounds body state ts result rest) :
    ∀ {fuel : List Token}, ts.length < fuel.length →
      loopFor body fuel state ts = .ok (result, rest) := by
  induction h with
  | done hbody =>
    intro fuel hfuel
    cases fuel with
    | nil => simp at hfuel
    | cons _ fuel =>
      unfold loopFor
      simp [hbody]
  -- A round reads a token at least, so the fuel shrinks no faster than the stream.
  | again hbody hlength _ ih =>
    intro fuel hfuel
    cases fuel with
    | nil => simp at hfuel
    | cons _ fuel =>
      rw [List.length_cons] at hfuel
      have hrest := @ih fuel (by omega)
      unfold loopFor
      simp [hbody, hrest]

/-- The fuel of a loop is enough for its rounds. -/
theorem loop_of_rounds (h : Rounds body state ts result rest) :
    loop body state ts = .ok (result, rest) :=
  loopFor_of_rounds h (Nat.lt_succ_self _)

/-- A loop that is done at once. -/
theorem loop_of_done (h : body state ts = .ok (.done result, rest)) :
    loop body state ts = .ok (result, rest) :=
  loop_of_rounds (.done h)

/-- The rounds of a loop that fails: each but the last reads a token, and
    the last fails. -/
inductive Fails (body : σ → Parser (Next σ α)) :
    σ → List Token → SyntaxError → List Token → Prop where
  | here {state : σ} {ts rest : List Token} {e : SyntaxError} :
      body state ts = .failed e rest → Fails body state ts e rest
  | later {state next : σ} {ts rest rest' : List Token} {e : SyntaxError} :
      body state ts = .ok (.again next, rest) → rest.length < ts.length →
      Fails body next rest e rest' → Fails body state ts e rest'

/-- The fuel of a loop is enough for them, too. -/
theorem loop_of_fails {e : SyntaxError} (h : Fails body state ts e rest) :
    loop body state ts = .failed e rest := by
  suffices ∀ {fuel : List Token}, ts.length < fuel.length →
      loopFor body fuel state ts = .failed e rest from this (Nat.lt_succ_self _)
  induction h with
  | here hbody =>
    intro fuel hfuel
    cases fuel with
    | nil => simp at hfuel
    | cons _ fuel =>
      unfold loopFor
      simp [hbody]
  | later hbody hlength _ ih =>
    intro fuel hfuel
    cases fuel with
    | nil => simp at hfuel
    | cons _ fuel =>
      rw [List.length_cons] at hfuel
      have hrest := @ih fuel (by omega)
      unfold loopFor
      simp [hbody, hrest]

/-- A parser that is not repeated. -/
theorem repeatWhile_of_false {p : Parser Bool} (h : p ts = .ok (false, rest)) :
    repeatWhile p ts = .ok ((), rest) := by
  unfold repeatWhile
  apply loop_of_done
  simp [whileTrue, h]

/-- The rounds of a parser that is repeated: each but the last reads a
    token. -/
inductive Repeats (p : Parser Bool) : List Token → List Token → Prop where
  | stop {ts rest : List Token} : p ts = .ok (false, rest) → Repeats p ts rest
  | next {ts mid rest : List Token} :
      p ts = .ok (true, mid) → mid.length < ts.length → Repeats p mid rest → Repeats p ts rest

theorem repeatWhile_of_repeats {p : Parser Bool} (h : Repeats p ts rest) :
    repeatWhile p ts = .ok ((), rest) := by
  unfold repeatWhile
  apply loop_of_rounds
  induction h with
  | stop hp =>
    apply Rounds.done
    simp [whileTrue, hp]
  | next hp hlength _ ih =>
    refine Rounds.again ?_ hlength ih
    simp [whileTrue, hp]

end Parser

end StyleCheck
