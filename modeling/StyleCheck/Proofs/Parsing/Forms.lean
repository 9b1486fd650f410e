import StyleCheck.Proofs.Parsing.Suffix

/-! # Names and Constants

    A parser of expressions says of what it has read only what is outermost
    in it.  Two of these forms are exact: an expression is a name, or a
    constant, if and only if just that has been read, in any number of
    parentheses.  Whatever else an expression may be has a token that no
    such expression has, or calls something, or is an empty tuple.

    * `IsConstant`, `Parenthesized`: constants, and words in parentheses.
    * `Bare`: a name or a constant in parentheses, by what is read of it.
    * `Compound`: words that are neither.
    * `Exact`: a parser that tells the one from the other, with one lemma
      for each parser of the grammar.
    * `outermost_form`: the parsers of expressions as a whole.
-/

namespace StyleCheck

open StyleCheck.Parser

/-! ## Section 1: Bare words -/

/-- The tokens of a constant: a number, `None`, `True` or `False`, an
    ellipsis, or string literals without fields, which are all made of bytes
    or all not. -/
inductive IsConstant : List Token → Prop where
  | number (text : Text) (at_ : Position) : IsConstant [⟨.number text, at_⟩]
  | keyword {word : Keyword} (hword : word.isConstant = true) (at_ : Position) :
      IsConstant [⟨.keyword word, at_⟩]
  | ellipsis (at_ : Position) : IsConstant [⟨.symbol .ellipsis, at_⟩]
  | strings {w : List Token} (bytes : Bool) (hne : w ≠ [])
      (hall : ∀ t ∈ w, ∃ text, t.lexeme = .string text false bytes) : IsConstant w

/-- A word in any number of parentheses. -/
inductive Parenthesized (core : List Token) : List Token → Prop where
  | bare : Parenthesized core core
  | enclosed {w : List Token} (p q : Position) (hw : Parenthesized core w) :
      Parenthesized core
        (⟨.symbol (.opening .round), p⟩ :: (w ++ [⟨.symbol (.closing .round), q⟩]))

/-- An expression that is a name or a constant, and its tokens. -/
inductive Core : Expr → List Token → Prop where
  | name (x : Text) (at_ : Position) : Core ⟨.name x, at_⟩ [⟨.name x, at_⟩]
  | constant {w : List Token} (hw : IsConstant w) : Core ⟨.constant, (front w).position⟩ w

/-- The same in any number of parentheses. -/
def Bare (e : Expr) (w : List Token) : Prop := ∃ core, Core e core ∧ Parenthesized core w

/-- Names and constants. -/
def Form.isBare : Form → Bool
  | .name _ | .constant => true
  | _ => false

/-- Whether a keyword or a symbol is found in no such word. -/
def Lexeme.isForeign : Lexeme → Bool
  | .keyword word => !word.isConstant
  | .symbol sign =>
    sign != .ellipsis && sign != .opening .round && sign != .closing .round
  | _ => false

/-- Whether a lexeme is a string literal. -/
def Lexeme.isLiteral : Lexeme → Bool
  | .string .. => true
  | _ => false

/-- Whether it is one that has replacement fields. -/
def Lexeme.isFormatted : Lexeme → Bool
  | .string _ formatted _ => formatted
  | _ => false

/-- Whether it is one that is made of bytes. -/
def Lexeme.isBytes : Lexeme → Bool
  | .string _ _ bytes => bytes
  | _ => false

variable {e e' : Expr} {core w u v ts mid us rest : List Token} {t : Token}

theorem IsConstant.mem (h : IsConstant w) (ht : t ∈ w) :
    t.lexeme ≠ .symbol (.opening .round) ∧ t.lexeme.isForeign = false := by
  cases h with
  | number =>
    obtain rfl := List.mem_singleton.mp ht
    exact ⟨by simp, rfl⟩
  | keyword hword =>
    obtain rfl := List.mem_singleton.mp ht
    exact ⟨by simp, by simp [Lexeme.isForeign, hword]⟩
  | ellipsis =>
    obtain rfl := List.mem_singleton.mp ht
    exact ⟨by simp, rfl⟩
  | strings bytes _ hall =>
    obtain ⟨text, htext⟩ := hall t ht
    rw [htext]
    exact ⟨by simp, rfl⟩

theorem IsConstant.ne_nil (h : IsConstant w) : w ≠ [] := by
  cases h with
  | strings _ hne => exact hne
  | _ => simp

namespace Core

theorem mem (h : Core e w) (ht : t ∈ w) :
    t.lexeme ≠ .symbol (.opening .round) ∧ t.lexeme.isForeign = false := by
  cases h with
  | name =>
    obtain rfl := List.mem_singleton.mp ht
    exact ⟨by simp, rfl⟩
  | constant hw => exact hw.mem ht

theorem ne_nil (h : Core e w) : w ≠ [] := by
  cases h with
  | name => simp
  | constant hw => exact hw.ne_nil

/-- No name is a constant. -/
theorem unique (h : Core e w) (h' : Core e' w) : e' = e := by
  have hname : ∀ (x : Text) (at_ : Position), ¬ IsConstant [⟨.name x, at_⟩] := by
    intro x at_ hconstant
    cases hconstant with
    | strings bytes _ hall =>
      obtain ⟨text, htext⟩ := hall _ List.mem_cons_self
      cases htext
  cases h with
  | name =>
    cases h' with
    | name => rfl
    | constant hw => exact absurd hw (hname _ _)
  | constant hw =>
    cases h' with
    | name => exact absurd hw (hname _ _)
    | constant => rfl

end Core

theorem Parenthesized.eq_or (h : Parenthesized core w) : w = core ∨ ∃ p q inner,
    w = ⟨.symbol (.opening .round), p⟩ :: (inner ++ [⟨.symbol (.closing .round), q⟩]) ∧
      Parenthesized core inner := by
  cases h with
  | bare => exact .inl rfl
  | enclosed p q hw => exact .inr ⟨p, q, _, rfl, hw⟩

/-- No name or constant starts with a parenthesis. -/
theorem Core.ne_cons {p : Position} (h : Core e core) : core ≠ ⟨.symbol (.opening .round), p⟩ :: w := by
  rintro rfl
  exact (h.mem List.mem_cons_self).1 rfl

/-- What is in the parentheses, if that is no parenthesis. -/
theorem Parenthesized.unique {core' : List Token} (h : Parenthesized core w)
    (hcore : Core e core) (h' : Parenthesized core' w) (hcore' : Core e' core') : core' = core := by
  induction h with
  | bare =>
    rcases h'.eq_or with rfl | ⟨p, q, inner, rfl, _⟩
    · rfl
    · exact absurd rfl hcore.ne_cons
  | enclosed p q _ ih =>
    rcases h'.eq_or with rfl | ⟨p', q', inner, hinner, h'⟩
    · exact absurd rfl hcore'.ne_cons
    · obtain rfl := (List.append_inj' (List.cons.inj hinner).2 rfl).1
      exact ih h'

namespace Bare

theorem unique (h : Bare e w) (h' : Bare e' w) : e' = e := by
  obtain ⟨core, hcore, hw⟩ := h
  obtain ⟨core', hcore', hw'⟩ := h'
  obtain rfl := hw.unique hcore hw' hcore'
  exact hcore.unique hcore'

theorem enclosed (h : Bare e w) (p q : Position) :
    Bare e (⟨.symbol (.opening .round), p⟩ :: (w ++ [⟨.symbol (.closing .round), q⟩])) := by
  obtain ⟨core, hcore, hw⟩ := h
  exact ⟨core, hcore, .enclosed p q hw⟩

/-- Parentheses around a bare word do not make it another. -/
theorem of_enclosed {p q : Position}
    (h : Bare e (⟨.symbol (.opening .round), p⟩ :: (w ++ [⟨.symbol (.closing .round), q⟩]))) :
    Bare e w := by
  obtain ⟨core, hcore, hw⟩ := h
  rcases hw.eq_or with rfl | ⟨p', q', inner, hinner, hw⟩
  · exact absurd rfl hcore.ne_cons
  · obtain rfl := (List.append_inj' (List.cons.inj hinner).2 rfl).1
    exact ⟨core, hcore, hw⟩

/-- There is something in it. -/
theorem exists_solid (h : Bare e w) : ∃ t ∈ w, t.lexeme ≠ .symbol (.opening .round) := by
  obtain ⟨core, hcore, hw⟩ := h
  induction hw with
  | bare =>
    obtain ⟨t, ht⟩ := List.exists_mem_of_ne_nil core hcore.ne_nil
    exact ⟨t, ht, (hcore.mem ht).1⟩
  | enclosed p q _ ih =>
    obtain ⟨t, ht, hsolid⟩ := ih
    exact ⟨t, by simp [ht], hsolid⟩

theorem not_foreign (h : Bare e w) (ht : t ∈ w) : t.lexeme.isForeign = false := by
  obtain ⟨core, hcore, hw⟩ := h
  induction hw with
  | bare => exact (hcore.mem ht).2
  | enclosed p q _ ih =>
    simp only [List.mem_cons, List.mem_append, List.not_mem_nil, or_false] at ht
    rcases ht with rfl | ht | rfl
    · rfl
    · exact ih ht
    · rfl

/-- Behind anything else, there are no opening parentheses. -/
theorem opening_of_append {p : Position} (h : Bare e (u ++ ⟨.symbol (.opening .round), p⟩ :: v)) :
    ∀ t ∈ u, t.lexeme = .symbol (.opening .round) := by
  obtain ⟨core, hcore, hw⟩ := h
  generalize hword : u ++ ⟨.symbol (.opening .round), p⟩ :: v = w at hw
  induction hw generalizing u v with
  | bare =>
    subst hword
    exact absurd rfl (hcore.mem (t := ⟨.symbol (.opening .round), p⟩) (by simp)).1
  | @enclosed inner p' q' _ ih =>
    cases u with
    | nil => simp
    | cons first u =>
      rw [List.cons_append] at hword
      obtain ⟨rfl, hbehind⟩ := List.cons.inj hword
      -- The last token closes the outermost pair, so it is behind the opening one.
      have hv : v ≠ [] := by
        rintro rfl
        have hlast := (List.append_inj' hbehind rfl).2
        simp at hlast
      obtain ⟨v, last, rfl⟩ := List.eq_nil_or_concat v |>.resolve_left hv
      rw [List.concat_eq_append, ← List.cons_append, ← List.append_assoc] at hbehind
      have hinner := ih (List.append_inj' hbehind rfl).1
      intro t ht
      rcases List.mem_cons.mp ht with rfl | ht
      · rfl
      · exact hinner t ht

end Bare

/-! ## Section 2: Other words -/

/-- What is read of an expression that is no name and no constant. -/
structure Compound (w : List Token) : Prop where
  not_bare : ∀ e, ¬ Bare e w
  exists_solid : ∃ t ∈ w, t.lexeme ≠ .symbol (.opening .round)

namespace Compound

theorem of_foreign (ht : t ∈ w) (hforeign : t.lexeme.isForeign = true) : Compound w := by
  refine ⟨fun e h => ?_, t, ht, fun hround => ?_⟩
  · rw [h.not_foreign ht] at hforeign
    cases hforeign
  · rw [hround] at hforeign
    cases hforeign

theorem of_call {p : Position} (hu : ∃ t ∈ u, t.lexeme ≠ .symbol (.opening .round)) :
    Compound (u ++ ⟨.symbol (.opening .round), p⟩ :: v) := by
  obtain ⟨t, ht, hsolid⟩ := hu
  exact ⟨fun e h => hsolid (h.opening_of_append t ht), t, by simp [ht], hsolid⟩

theorem of_empty (p q : Position) :
    Compound [⟨.symbol (.opening .round), p⟩, ⟨.symbol (.closing .round), q⟩] := by
  refine ⟨fun e h => ?_, ⟨.symbol (.closing .round), q⟩, by simp, by simp⟩
  obtain ⟨t, ht, _⟩ := (Bare.of_enclosed (w := []) h).exists_solid
  cases ht

theorem enclosed {p q : Position} (h : Compound w) :
    Compound (⟨.symbol (.opening .round), p⟩ :: (w ++ [⟨.symbol (.closing .round), q⟩])) := by
  obtain ⟨t, ht, hsolid⟩ := h.exists_solid
  exact ⟨fun e hbare => h.not_bare e hbare.of_enclosed, t, by simp [ht], hsolid⟩

end Compound

/-- The form of an expression is that of the word that has been read. -/
inductive Tells (e : Expr) (w : List Token) : Prop where
  | bare (h : Bare e w)
  | compound (hform : e.form.isBare = false) (hword : Compound w)

/-- A name or a constant has been read if and only if it was made. -/
theorem Tells.bare_of_form (h : Tells e w) (hform : e.form.isBare = true) : Bare e w := by
  cases h with
  | bare h => exact h
  | compound hother =>
    rw [hform] at hother
    cases hother

theorem Tells.eq_of_bare (h : Tells e w) (h' : Bare e' w) : e' = e := by
  cases h with
  | bare h => exact h.unique h'
  | compound _ hword => exact absurd h' (hword.not_bare e')

theorem Tells.exists_solid (h : Tells e w) : ∃ t ∈ w, t.lexeme ≠ .symbol (.opening .round) := by
  cases h with
  | bare h => exact h.exists_solid
  | compound _ hword => exact hword.exists_solid

/-- An expression was read, and tells of what. -/
def Reveals (e : Expr) (ts rest : List Token) : Prop := ∃ w, ts = w ++ rest ∧ Tells e w

theorem Reveals.suffix (h : Reveals e ts rest) : rest <:+ ts := by
  obtain ⟨w, rfl, _⟩ := h
  exact List.suffix_append w rest

/-- A token of another kind has been read. -/
theorem Reveals.of_foreign (hform : e.form.isBare = false) (hbefore : mid <:+ ts)
    (hforeign : (front mid).lexeme.isForeign = true) (hrest : rest <:+ mid.tail) :
    Reveals e ts rest := by
  obtain ⟨p, hmid⟩ := eq_cons_of_front rfl (show (front mid).lexeme ≠ .endMarker by
    intro hend
    rw [hend] at hforeign
    cases hforeign)
  obtain ⟨before, rfl⟩ := hbefore
  obtain ⟨between, hbetween⟩ := hrest
  refine ⟨before ++ ⟨(front mid).lexeme, p⟩ :: between, ?_,
    .compound hform (.of_foreign (t := ⟨(front mid).lexeme, p⟩) (by simp) hforeign)⟩
  rw [List.append_assoc, List.cons_append, hbetween, ← hmid]

theorem Tells.enclosed (h : Tells e w) (p q : Position) :
    Tells e (⟨.symbol (.opening .round), p⟩ :: (w ++ [⟨.symbol (.closing .round), q⟩])) := by
  cases h with
  | bare h => exact .bare (h.enclosed p q)
  | compound hform hword => exact .compound hform hword.enclosed

/-- Parentheses leave the form of an expression as it is. -/
theorem Reveals.enclosed (h : Reveals e ts.tail mid)
    (hopen : (front ts).lexeme = .symbol (.opening .round))
    (hclose : (front mid).lexeme = .symbol (.closing .round)) : Reveals e ts mid.tail := by
  obtain ⟨p, hts⟩ := eq_cons_of_front hopen (by simp)
  obtain ⟨q, hmid⟩ := eq_cons_of_front hclose (by simp)
  obtain ⟨w, hw, htells⟩ := h
  refine ⟨_, ?_, htells.enclosed p q⟩
  rw [hts, hw, hmid]
  simp

/-- A call is what it is by what stands in front of its parenthesis. -/
theorem Reveals.called {called : Expr} (h : Reveals e ts mid)
    (hopen : (front mid).lexeme = .symbol (.opening .round)) (hrest : rest <:+ mid.tail)
    (hform : called.form.isBare = false) : Reveals called ts rest := by
  obtain ⟨p, hmid⟩ := eq_cons_of_front hopen (by simp)
  obtain ⟨w, rfl, htells⟩ := h
  obtain ⟨between, hbetween⟩ := hrest
  refine ⟨w ++ ⟨.symbol (.opening .round), p⟩ :: between, ?_,
    .compound hform (.of_call htells.exists_solid)⟩
  rw [List.append_assoc, List.cons_append, hbetween, ← hmid]

/-! ## Section 3: Parsers -/

namespace Parser

variable {α β σ : Type}

/-- The form of what the parser makes is that of what it has read. -/
def Exact (p : Parser Expr) : Prop := ∀ ts, Ensures p ts fun e rest => Reveals e ts rest

/-- Whatever the parser makes is no name and no constant. -/
def Other (p : Parser Expr) : Prop := ∀ ts, Ensures p ts fun e _ => e.form.isBare = false

namespace Other

theorem pure {e : Expr} (h : e.form.isBare = false) : Other (pure e) :=
  fun _ => (ensures_pure e).mpr h

theorem bind {q : Parser β} {f : β → Parser Expr} (hf : ∀ b, Other (f b)) : Other (q >>= f) := by
  intro ts
  rw [ensures_bind]
  exact fun b mid _ => hf b mid

theorem ite {c : Prop} [Decidable c] {p p' : Parser Expr} (hp : Other p) (hp' : Other p') :
    Other (if c then p else p') :=
  fun ts => (ensures_ite c p p').mpr ⟨fun _ => hp ts, fun _ => hp' ts⟩

/-- With a token of another kind at its front, it is exact. -/
theorem reveals {p : Parser Expr} {ts : List Token} (hp : Other p) (hadvances : Advances p)
    (hforeign : (front ts).lexeme.isForeign = true) :
    Ensures p ts fun e rest => Reveals e ts rest :=
  fun e rest hread => .of_foreign (hp ts e rest hread) (List.suffix_refl ts) hforeign
    (hadvances.suffix_tail ts e rest hread)

end Other

/-- The parser reads an operator, if there is one, and nothing otherwise. -/
def Operates (operator : Parser Bool) : Prop := ∀ ts, Ensures operator ts fun found rest =>
  if found then (front ts).lexeme.isForeign = true ∧ rest <:+ ts.tail else rest = ts

theorem Operates.acceptIf {test : Lexeme → Bool} (htest : ∀ l, test l = true → l.isForeign = true) :
    Operates (Parser.acceptIf test) :=
  fun ts => (ensures_acceptIf test).mpr
    ⟨fun hfront => ⟨htest _ hfront, List.suffix_refl ts.tail⟩, fun _ => rfl⟩

theorem Operates.acceptKeyword {word : Keyword} (hword : word.isConstant = false) :
    Operates (Parser.acceptKeyword word) :=
  .acceptIf fun l hl => by
    rw [beq_iff_eq.mp hl]
    simp [Lexeme.isForeign, hword]

/-- An operator in front of an operand makes another form. -/
theorem Operates.exact {operator : Parser Bool} {operand p : Parser Expr} {form : Form}
    (hoperator : Operates operator) (hform : form.isBare = false) (hoperand : Keeps operand)
    (hp : Exact p) : Exact (do
      let start ← position
      if ← operator then
        let _ ← operand
        pure ⟨form, start⟩
      else p) := by
  intro ts
  rw [ensures_bind, ensures_position, ensures_bind]
  refine (hoperator ts).mono fun found mid hfound => ?_
  cases found with
  | true =>
    obtain ⟨hforeign, hbehind⟩ := hfound
    rw [if_pos rfl, ensures_bind]
    refine (hoperand.suffix mid).mono fun _ rest hrest => (ensures_pure _).mpr ?_
    exact .of_foreign hform (List.suffix_refl ts) hforeign (hrest.trans hbehind)
  | false =>
    obtain rfl : mid = ts := hfound
    exact hp mid

end Parser

namespace Grammar

variable {g : Nonterminals} (hg : g.Keep) (hexpression : Exact g.expression)

/-! ## Section 4: Elements and lists -/

include hg hexpression

theorem starExpression_exact : Exact (starExpression g) :=
  Operates.exact (.acceptIf fun l hl => by rw [beq_iff_eq.mp hl]; rfl) rfl hg.operand hexpression

theorem namedExpression_exact : Exact (namedExpression g) := by
  intro ts
  unfold namedExpression
  rw [ensures_bind, ensures_position, ensures_bind, ensures_peek, ensures_bind, ensures_peekSecond,
    ensures_ite]
  refine ⟨fun hnamed => ?_, fun _ => hexpression ts⟩
  simp only [Bool.and_eq_true, beq_iff_eq] at hnamed
  rw [ensures_bind, ensures_name]
  intro _ _
  rw [ensures_bind, ensures_advance, ensures_bind]
  refine (hg.expression.suffix ts.tail.tail).mono fun _ rest hrest => (ensures_pure _).mpr ?_
  exact .of_foreign rfl (List.tail_suffix ts) (by rw [hnamed.2]; rfl) hrest

theorem element_exact : Exact (element g) := by
  intro ts
  unfold element
  rw [ensures_bind, ensures_atSymbol, ensures_ite]
  exact ⟨fun _ => starExpression_exact hg hexpression ts,
    fun _ => namedExpression_exact hg hexpression ts⟩

omit hg hexpression in
/-- If there is a comma, what is repeated behind commas reads it. -/
theorem commas_ensures {p : Parser Bool} (hp : Keeps p) (ts : List Token) :
    Ensures (repeatWhile do if ← accept .comma then p else pure false) ts fun _ rest =>
      rest <:+ ts ∧ ((front ts).lexeme = .symbol .comma → rest <:+ ts.tail) := by
  refine Ensures.repeatWhile (fun ts rest => rest <:+ ts ∧
    ((front ts).lexeme = .symbol .comma → rest <:+ ts.tail)) (fun ts => ?_) ts
  rw [ensures_bind, ensures_accept]
  refine ⟨fun _ => ?_, fun hother => ?_⟩
  · rw [if_pos rfl]
    refine (hp.suffix ts.tail).mono fun again mid hmid => ?_
    cases again with
    | true =>
      rw [if_pos rfl]
      exact fun rest hrest =>
        ⟨(hrest.1.trans hmid).trans (List.tail_suffix ts), fun _ => hrest.1.trans hmid⟩
    | false =>
      rw [if_neg Bool.false_ne_true]
      exact ⟨hmid.trans (List.tail_suffix ts), fun _ => hmid⟩
  · rw [if_neg Bool.false_ne_true, ensures_pure, if_neg Bool.false_ne_true]
    exact ⟨List.suffix_refl ts, fun hcomma => absurd hcomma hother⟩

theorem starExpressions_exact : Exact (starExpressions g) := by
  have hmore : Keeps (do
      if (← peek).startsExpression then
        let _ ← starExpression g
        pure true
      else pure false) :=
    .bind .peek fun _ => .ite (.bind (starExpression_keeps hg) fun _ => .pure _) (.pure _)
  intro ts
  unfold starExpressions nextStarExpression
  rw [ensures_bind, ensures_position, ensures_bind]
  refine (starExpression_exact hg hexpression ts).mono fun first mid hfirst => ?_
  rw [ensures_bind, ensures_atSymbol, ensures_ite, ensures_pure]
  refine ⟨fun hcomma => ?_, fun _ => hfirst⟩
  rw [ensures_bind]
  refine (commas_ensures hmore mid).mono fun _ rest hrest => (ensures_pure _).mpr ?_
  have hcomma := of_decide_eq_true hcomma
  exact .of_foreign rfl hfirst.suffix (by rw [hcomma]; rfl) (hrest.2 hcomma)

/-! ## Section 5: String literals -/

omit hg hexpression

/-- Literals are read up to where none is, and what has been seen of them
    is what there is among them. -/
theorem literals_ensures (formatted bytes text : Bool) (ts : List Token) :
    Ensures (loop (fun ((formatted, bytes, text) : Bool × Bool × Bool) => do
      match ← peek with
      | .string _ isFormatted isBytes =>
        advance
        pure (.again (formatted || isFormatted, bytes || isBytes, text || !isBytes))
      | _ => pure (.done (formatted, bytes, text))) (formatted, bytes, text)) ts fun seen rest =>
        ∃ w, ts = w ++ rest ∧ (∀ t ∈ w, t.lexeme.isLiteral = true) ∧
          (front rest).lexeme.isLiteral = false ∧
          seen = (formatted || w.any (·.lexeme.isFormatted), bytes || w.any (·.lexeme.isBytes),
            text || w.any (!·.lexeme.isBytes)) := by
  refine @Ensures.loop _ _ _ (fun (state : Bool × Bool × Bool) ts seen rest =>
    ∃ w, ts = w ++ rest ∧ (∀ t ∈ w, t.lexeme.isLiteral = true) ∧
      (front rest).lexeme.isLiteral = false ∧
      seen = (state.1 || w.any (·.lexeme.isFormatted), state.2.1 || w.any (·.lexeme.isBytes),
        state.2.2 || w.any (!·.lexeme.isBytes))) (fun state ts => ?_) _ ts
  obtain ⟨formatted, bytes, text⟩ := state
  rw [ensures_bind, ensures_peek]
  split
  case h_1 spelling isFormatted isBytes hfront =>
    obtain ⟨p, hts⟩ := eq_cons_of_front hfront (by simp)
    rw [ensures_bind, ensures_advance, ensures_pure]
    rintro seen rest ⟨w, hw, hall, hend, rfl⟩
    refine ⟨⟨.string spelling isFormatted isBytes, p⟩ :: w, by rw [hts, hw]; rfl, ?_, hend, ?_⟩
    · exact List.forall_mem_cons.mpr ⟨rfl, hall⟩
    · simp [Lexeme.isFormatted, Lexeme.isBytes, Bool.or_assoc]
  case h_2 hother =>
    rw [ensures_pure]
    refine ⟨[], rfl, by simp, ?_, by simp⟩
    cases hfront : (front ts).lexeme with
    | string spelling formatted bytes => exact absurd hfront (hother spelling formatted bytes)
    | _ => rfl

/-- Literals are a constant only if none has fields. -/
theorem compound_of_formatted (hne : w ≠ []) (hall : ∀ t ∈ w, t.lexeme.isLiteral = true)
    (hformatted : w.any (·.lexeme.isFormatted) = true) : Compound w := by
  have hround : ∀ t ∈ w, t.lexeme ≠ .symbol (.opening .round) := by
    intro t ht hround
    have hliteral := hall t ht
    rw [hround] at hliteral
    cases hliteral
  refine ⟨fun e h => ?_, ?_⟩
  · obtain ⟨core, hcore, hw⟩ := h
    obtain rfl : w = core := hw.eq_or.resolve_right fun ⟨p, q, inner, hinner, _⟩ =>
      hround ⟨.symbol (.opening .round), p⟩ (hinner ▸ List.mem_cons_self) rfl
    obtain ⟨t, ht, hfields⟩ := List.any_eq_true.mp hformatted
    cases hcore with
    | name =>
      obtain rfl := List.mem_singleton.mp ht
      cases hfields
    | constant hconstant =>
      cases hconstant with
      | strings bytes _ hplain =>
        obtain ⟨text, htext⟩ := hplain t ht
        rw [htext] at hfields
        cases hfields
      | _ =>
        obtain rfl := List.mem_singleton.mp ht
        cases hfields
  · obtain ⟨t, ht⟩ := List.exists_mem_of_ne_nil w hne
    exact ⟨t, ht, hround t ht⟩

/-- If none has fields, and they go together, they are. -/
theorem isConstant_of_literals (hne : w ≠ []) (hall : ∀ t ∈ w, t.lexeme.isLiteral = true)
    (hplain : w.any (·.lexeme.isFormatted) = false)
    (hsame : (w.any (·.lexeme.isBytes) && w.any (!·.lexeme.isBytes)) = false) : IsConstant w := by
  refine .strings (w.any (·.lexeme.isBytes)) hne fun t ht => ?_
  have hliteral := hall t ht
  have hfields := List.any_eq_false.mp hplain t ht
  cases hlexeme : t.lexeme with
  | string text formatted bytes =>
    obtain rfl : formatted = false := by
      rw [hlexeme] at hfields
      simpa [Lexeme.isFormatted] using hfields
    have hbytes : w.any (·.lexeme.isBytes) = bytes := by
      cases bytes with
      | true => exact List.any_eq_true.mpr ⟨t, ht, by rw [hlexeme]; rfl⟩
      | false =>
        have htext : w.any (!·.lexeme.isBytes) = true :=
          List.any_eq_true.mpr ⟨t, ht, by rw [hlexeme]; rfl⟩
        rwa [htext, Bool.and_true] at hsame
    exact ⟨text, by rw [hbytes]⟩
  | _ =>
    rw [hlexeme] at hliteral
    cases hliteral

theorem strings_exact {ts : List Token} (hfront : (front ts).lexeme.isLiteral = true) :
    Ensures strings ts fun e rest => Reveals e ts rest := by
  unfold strings nextString
  rw [ensures_bind, ensures_position, ensures_bind]
  refine (literals_ensures false false false ts).mono fun seen rest hseen => ?_
  obtain ⟨w, rfl, hall, hend, rfl⟩ := hseen
  have hne : w ≠ [] := by
    rintro rfl
    rw [List.nil_append, hend] at hfront
    cases hfront
  obtain ⟨first, others, rfl⟩ := List.exists_cons_of_ne_nil hne
  simp only [Bool.false_or, ensures_ite, ensures_failAt, ensures_pure]
  refine ⟨fun _ => trivial, fun hsame => ⟨fun hformatted => ?_, fun hplain => ?_⟩⟩
  · exact ⟨_, rfl, .compound rfl (compound_of_formatted hne hall hformatted)⟩
  · rw [Bool.not_eq_true] at hsame hplain
    have hcore : Core ⟨.constant, first.position⟩ (first :: others) :=
      .constant (isConstant_of_literals hne hall hplain hsame)
    exact ⟨_, rfl, .bare ⟨_, hcore, .bare⟩⟩

/-! ## Section 6: Atoms and primaries -/

include hg hexpression

omit hg hexpression in
/-- Keywords that open a comprehension are no part of a name or constant. -/
theorem atComprehension_foreign (ts : List Token) : Ensures atComprehension ts fun found rest =>
    rest = ts ∧ (found = true → (front ts).lexeme.isForeign = true) := by
  unfold atComprehension
  rw [ensures_bind, ensures_peek]
  split
  case h_1 h | h_2 h => exact (ensures_pure _).mpr ⟨rfl, fun _ => by rw [h]; rfl⟩
  case h_3 => exact (ensures_pure _).mpr ⟨rfl, fun h => by cases h⟩

omit hexpression hg in
/-- Something that starts with a token of another kind, up to a bracket. -/
theorem closed_reveals {α : Type} {q : Parser α} {closer : Symbol} (hform : e.form.isBare = false)
    (hbefore : mid <:+ ts) (hforeign : (front mid).lexeme.isForeign = true)
    (hq : Ensures q mid fun _ us => us <:+ mid.tail) :
    Ensures (do
      let _ ← q
      expect closer
      pure e) mid fun e rest => Reveals e ts rest := by
  rw [ensures_bind]
  refine hq.mono fun _ us hus => ?_
  rw [ensures_bind, ensures_expect]
  refine fun _ => (ensures_pure _).mpr ?_
  exact .of_foreign hform hbefore hforeign ((List.tail_suffix us).trans hus)

omit hexpression in
/-- The elements behind a comma. -/
theorem moreElements_ensures (closer : Bracket) (hcomma : (front mid).lexeme = .symbol .comma) :
    Ensures (moreElements g closer) mid fun _ rest => rest <:+ mid.tail := by
  have hmore : Keeps (do
      if ← atSymbol (.closing closer) then pure false
      else
        let _ ← element g
        pure true) :=
    .bind (.atSymbol _) fun _ => .ite (.pure _) (.bind (element_keeps hg) fun _ => .pure _)
  exact (commas_ensures hmore mid).mono fun _ _ hrest => hrest.2 hcomma

/-- Parentheses are an empty tuple, or have something else than an
    expression between them, or leave the expression as it is. -/
theorem parenthesized_exact {ts : List Token}
    (hopen : (front ts).lexeme = .symbol (.opening .round)) :
    Ensures (parenthesized g) ts fun e rest => Reveals e ts rest := by
  obtain ⟨p, hts⟩ := eq_cons_of_front hopen (by simp)
  unfold parenthesized
  rw [ensures_bind, ensures_position, ensures_bind, ensures_advance, ensures_bind, ensures_accept]
  refine ⟨fun hclose => ?_, fun _ => ?_⟩
  · obtain ⟨q, htail⟩ := eq_cons_of_front hclose (by simp)
    rw [if_pos rfl, ensures_pure]
    refine ⟨[⟨.symbol (.opening .round), p⟩, ⟨.symbol (.closing .round), q⟩], ?_,
      .compound rfl (.of_empty p q)⟩
    rw [hts, htail]
    rfl
  rw [if_neg Bool.false_ne_true, ensures_bind, ensures_atKeyword, ensures_ite]
  refine ⟨fun hyield => ?_, fun _ => ?_⟩
  · exact closed_reveals rfl (List.tail_suffix ts) (by rw [of_decide_eq_true hyield]; rfl)
      ((yieldExpression_advances hg).suffix_tail ts.tail)
  rw [ensures_bind]
  refine (element_exact hg hexpression ts.tail).mono fun first mid hfirst => ?_
  have hbefore := hfirst.suffix.trans (List.tail_suffix ts)
  rw [ensures_bind]
  refine (atComprehension_foreign mid).mono fun found mid' hfound => ?_
  obtain ⟨rfl, hfor⟩ := hfound
  rw [ensures_ite]
  refine ⟨fun hsome => ?_, fun _ => ?_⟩
  · exact closed_reveals rfl hbefore (hfor hsome) ((comprehension_advances hg).suffix_tail mid')
  rw [ensures_bind, ensures_atSymbol, ensures_ite]
  refine ⟨fun hcomma => ?_, fun _ => ?_⟩
  · have hcomma := of_decide_eq_true hcomma
    exact closed_reveals rfl hbefore (by rw [hcomma]; rfl) (moreElements_ensures hg .round hcomma)
  · rw [ensures_bind, ensures_expect]
    exact fun hclose => (ensures_pure _).mpr (hfirst.enclosed hopen hclose)

omit hg hexpression in
theorem listDisplay_other : Other (listDisplay g) := by
  unfold listDisplay
  refine .bind fun _ => .bind fun _ => .bind fun _ => .ite (.pure rfl) ?_
  refine .bind fun _ => .bind fun _ => .ite ?_ ?_
  · exact .bind fun _ => .bind fun _ => .pure rfl
  · exact .bind fun _ => .bind fun _ => .pure rfl

omit hg hexpression in
theorem braceDisplay_other : Other (braceDisplay g) := by
  unfold braceDisplay
  refine .bind fun _ => .bind fun _ => .bind fun _ => .ite (.pure rfl) ?_
  refine .bind fun _ => .ite ?_ ?_
  · exact .bind fun _ => .bind fun _ => .pure rfl
  refine .bind fun _ => .bind fun _ => .ite ?_ ?_
  · refine .bind fun _ => .bind fun _ => .ite ?_ (.bind fun _ => .pure rfl)
    exact .bind fun _ => .bind fun _ => .pure rfl
  · refine .bind fun _ => .ite ?_ ?_
    · exact .bind fun _ => .bind fun _ => .pure rfl
    · exact .bind fun _ => .bind fun _ => .pure rfl

theorem atom_exact : Exact (atom g) := by
  intro ts
  have hone : ∀ {l : Lexeme} {form : Form}, (front ts).lexeme = l → l ≠ .endMarker →
      Core ⟨form, (front ts).position⟩ [⟨l, (front ts).position⟩] → Ensures (do
        advance
        pure ⟨form, (front ts).position⟩) ts fun e rest => Reveals e ts rest := by
    intro l form hfront hl hcore
    obtain ⟨p, hts⟩ := eq_cons_of_front hfront hl
    have hposition : (front ts).position = p := by
      rw [hts]
      rfl
    rw [hposition] at hcore ⊢
    rw [ensures_bind, ensures_advance, ensures_pure]
    exact ⟨_, hts, .bare ⟨_, hcore, .bare⟩⟩
  unfold atom
  rw [ensures_bind, ensures_position, ensures_bind, ensures_peek]
  split
  case h_1 word hword =>
    rw [ensures_ite]
    refine ⟨fun hconstant => ?_, fun _ => (ensures_fail _).mpr trivial⟩
    exact hone hword (by simp) (.constant (.keyword hconstant _))
  case h_2 x hx => exact hone hx (by simp) (.name x _)
  case h_3 text hnumber => exact hone hnumber (by simp) (.constant (.number text _))
  case h_4 hstring => exact strings_exact (by rw [hstring]; rfl)
  case h_5 hopen => exact parenthesized_exact hg hexpression hopen
  case h_6 hopen =>
    exact listDisplay_other.reveals (listDisplay_advances hg) (by rw [hopen]; rfl)
  case h_7 hopen =>
    exact braceDisplay_other.reveals (braceDisplay_advances hg) (by rw [hopen]; rfl)
  case h_8 hellipsis => exact hone hellipsis (by simp) (.constant (.ellipsis _))
  case h_9 => exact (ensures_fail _).mpr trivial

/-- Behind what has been read of it, a primary goes on with a token of
    another kind, or with the parenthesis of a call. -/
theorem primary_exact : Exact (primary g) := by
  intro ts
  unfold primary
  rw [ensures_bind, ensures_position, ensures_bind]
  refine (atom_exact hg hexpression ts).mono fun first mid hfirst => ?_
  refine (@Ensures.loop _ _ _ (fun read us e rest => Reveals read ts us → Reveals e ts rest)
    (fun read us => ?_) first mid).mono fun e rest hrest => hrest hfirst
  unfold nextTrailer
  rw [ensures_bind, ensures_accept]
  refine ⟨fun hdot => ?_, fun _ => ?_⟩
  · rw [if_pos rfl, ensures_bind, ensures_name]
    intro _ _
    rw [ensures_pure]
    refine fun _ _ hlater hread => hlater ?_
    exact .of_foreign rfl hread.suffix (by rw [hdot]; rfl) (List.tail_suffix us.tail)
  rw [if_neg Bool.false_ne_true, ensures_bind, ensures_atSymbol, ensures_ite]
  refine ⟨fun hopen => ?_, fun _ => ?_⟩
  · rw [ensures_bind]
    refine ((arguments_advances hg).suffix_tail us).mono fun _ us' hus => ?_
    rw [ensures_pure]
    refine fun _ _ hlater hread => hlater (hread.called (of_decide_eq_true hopen) hus rfl)
  · rw [ensures_bind, ensures_accept]
    refine ⟨fun hopen => ?_, fun _ => ?_⟩
    · rw [if_pos rfl, ensures_bind]
      refine ((slices_keeps hg).suffix us.tail).mono fun _ us' hus => ?_
      rw [ensures_bind, ensures_expect]
      intro _
      rw [ensures_pure]
      refine fun _ _ hlater hread => hlater ?_
      exact .of_foreign rfl hread.suffix (by rw [hopen]; rfl) ((List.tail_suffix us').trans hus)
    · rw [if_neg Bool.false_ne_true, ensures_pure]
      exact id

/-! ## Section 7: Operators -/

omit hg hexpression in
/-- Behind an operand, a chain goes on with an operator. -/
theorem chain_exact {operator : Parser Bool} {operand : Parser Expr} (hoperator : Operates operator)
    (hoperand : Exact operand) : Exact (chain operator operand) := by
  intro ts
  unfold chain
  rw [ensures_bind, ensures_position, ensures_bind]
  refine (hoperand ts).mono fun first mid hfirst => ?_
  refine (@Ensures.loop _ _ _ (fun read us e rest => Reveals read ts us → Reveals e ts rest)
    (fun read us => ?_) first mid).mono fun e rest hrest => hrest hfirst
  unfold nextOperand
  rw [ensures_bind]
  refine (hoperator us).mono fun found us' hfound => ?_
  cases found with
  | true =>
    obtain ⟨hforeign, hbehind⟩ := hfound
    rw [if_pos rfl, ensures_bind]
    refine (hoperand us').mono fun _ us'' hread => ?_
    rw [ensures_pure]
    refine fun _ _ hlater hbefore => hlater ?_
    exact .of_foreign rfl hbefore.suffix hforeign (hread.suffix.trans hbehind)
  | false =>
    obtain rfl : us' = us := hfound
    rw [if_neg Bool.false_ne_true, ensures_pure]
    exact id

theorem power_exact : Exact (power g) := by
  intro ts
  unfold power
  rw [ensures_bind, ensures_position, ensures_bind, ensures_acceptKeyword]
  refine ⟨fun hawait => ?_, fun _ => ?_⟩
  -- Something that is awaited is no name, with a power or without.
  · rw [ensures_bind]
    refine ((primary_advances hg).keeps.suffix ts.tail).mono fun base mid hmid => ?_
    have hforeign : (front ts).lexeme.isForeign = true := by rw [hawait]; rfl
    rw [ensures_bind, ensures_accept]
    refine ⟨fun _ => ?_, fun _ => ?_⟩
    · rw [if_pos rfl, ensures_bind]
      refine (hg.factor.suffix mid.tail).mono fun _ rest hrest => (ensures_pure _).mpr ?_
      exact .of_foreign rfl (List.suffix_refl ts) hforeign
        ((hrest.trans (List.tail_suffix mid)).trans hmid)
    · rw [if_neg Bool.false_ne_true, if_pos rfl, ensures_pure]
      exact .of_foreign rfl (List.suffix_refl ts) hforeign hmid
  · rw [ensures_bind]
    refine (primary_exact hg hexpression ts).mono fun base mid hbase => ?_
    rw [ensures_bind, ensures_accept]
    refine ⟨fun hpower => ?_, fun _ => ?_⟩
    · rw [if_pos rfl, ensures_bind]
      refine (hg.factor.suffix mid.tail).mono fun _ rest hrest => (ensures_pure _).mpr ?_
      exact .of_foreign rfl hbase.suffix (by rw [hpower]; rfl) hrest
    · rw [if_neg Bool.false_ne_true, if_neg Bool.false_ne_true, ensures_pure]
      exact hbase

theorem factor_exact : Exact (factor g) := by
  refine Operates.exact (.acceptIf fun l hl => ?_) rfl hg.factor (power_exact hg hexpression)
  cases l with
  | symbol sign =>
    cases sign with
    | plus | minus | tilde => rfl
    | _ => cases hl
  | _ => cases hl

/-- The levels of operators have no symbol that a constant may have. -/
theorem binary_exact {levels : List (List Symbol)}
    (hlevels : ∀ level ∈ levels, ∀ sign ∈ level, (Lexeme.symbol sign).isForeign = true) :
    Exact (binary g levels) := by
  induction levels with
  | nil => exact factor_exact hg hexpression
  | cons level tighter ih =>
    obtain ⟨hlevel, htighter⟩ := List.forall_mem_cons.mp hlevels
    refine chain_exact (.acceptIf fun l hl => ?_) (ih htighter)
    cases l with
    | symbol sign => exact hlevel sign (List.contains_iff_mem.mp hl)
    | _ => cases hl

theorem operand_exact : Exact (operand g) := binary_exact hg hexpression (by decide)

omit hg hexpression in
theorem acceptComparison_operates : Operates acceptComparison := by
  intro ts
  unfold acceptComparison
  rw [ensures_bind, ensures_peek]
  split
  case h_1 sign hsign =>
    rw [ensures_ite, ensures_bind, ensures_advance, ensures_pure, ensures_pure]
    refine ⟨fun hcomparison => ⟨?_, List.suffix_refl _⟩, fun _ => rfl⟩
    rw [hsign]
    cases sign with
    | less | greater | doubleEqual | greaterEqual | lessEqual | notEqual => rfl
    | _ => cases hcomparison
  case h_2 hin =>
    rw [ensures_bind, ensures_advance, ensures_pure]
    exact ⟨by rw [hin]; rfl, List.suffix_refl _⟩
  case h_3 hnot =>
    rw [ensures_bind, ensures_peekSecond, ensures_ite, ensures_bind, ensures_advance, ensures_bind,
      ensures_advance, ensures_pure, ensures_pure]
    exact ⟨fun _ => ⟨by rw [hnot]; rfl, List.tail_suffix _⟩, fun _ => rfl⟩
  case h_4 his =>
    rw [ensures_bind, ensures_advance, ensures_bind]
    refine ((Keeps.acceptKeyword .not_).suffix ts.tail).mono fun _ rest hrest => (ensures_pure _).mpr ?_
    exact ⟨by rw [his]; rfl, hrest⟩
  case h_5 => exact (ensures_pure _).mpr rfl

theorem comparison_exact : Exact (comparison g) :=
  chain_exact acceptComparison_operates (operand_exact hg hexpression)

theorem inversion_exact : Exact (inversion g) :=
  Operates.exact (.acceptKeyword rfl) rfl hg.inversion_advances.keeps
    (comparison_exact hg hexpression)

theorem disjunction_exact : Exact (disjunction g) :=
  chain_exact (.acceptKeyword rfl) (chain_exact (.acceptKeyword rfl) (inversion_exact hg hexpression))

omit hg hexpression in
theorem lambda_other : Other (lambda g) := by
  unfold lambda
  exact .bind fun _ => .bind fun _ => .bind fun _ => .bind fun _ => .bind fun _ => .pure rfl

theorem expression_exact : Exact (expression g) := by
  intro ts
  unfold expression
  rw [ensures_bind, ensures_position, ensures_bind, ensures_atKeyword, ensures_ite]
  refine ⟨fun hlambda => ?_, fun _ => ?_⟩
  · exact lambda_other.reveals (lambda_advances hg) (by rw [of_decide_eq_true hlambda]; rfl)
  rw [ensures_bind]
  refine (disjunction_exact hg hexpression ts).mono fun value mid hvalue => ?_
  rw [ensures_bind, ensures_acceptKeyword]
  refine ⟨fun hif => ?_, fun _ => ?_⟩
  · rw [if_pos rfl, ensures_bind]
    refine (hg.disjunction.suffix mid.tail).mono fun _ us hus => ?_
    rw [ensures_bind, ensures_expectKeyword]
    intro _
    rw [ensures_bind]
    refine (hg.expression.suffix us.tail).mono fun _ rest hrest => (ensures_pure _).mpr ?_
    exact .of_foreign rfl hvalue.suffix (by rw [hif]; rfl)
      ((hrest.trans (List.tail_suffix us)).trans hus)
  · rw [if_neg Bool.false_ne_true, ensures_pure]
    exact hvalue

/-! ## Section 8: The knot -/

omit hg hexpression in
theorem grammarUpTo_exact (fuel : List Token) : Exact (grammarUpTo fuel).expression := by
  induction fuel with
  | nil => exact fun _ => ensures_spent.mpr trivial
  | cons _ fuel ih => exact expression_exact (grammarUpTo_keep fuel) ih

end Grammar

theorem grammar_exact : Exact grammar.expression := fun ts =>
  (Grammar.expression_exact (Grammar.grammarUpTo_keep ts) (Grammar.grammarUpTo_exact ts) ts).congr rfl

/-- **Names and constants**: the parsers of expressions make a name just
    where they read that name in any number of parentheses, and a constant
    just where they read a constant so: a number, `None`, `True` or `False`,
    an ellipsis, or string literals without fields that are all of one kind.
    Both are found where the name or the constant itself starts. -/
theorem outermost_form {p : Parser Expr} {ts rest : List Token} {e : Expr}
    (hp : p = grammar.expression ∨ p = Grammar.starExpressions grammar)
    (h : p ts = .ok (e, rest)) : ∃ w, ts = w ++ rest ∧
      (∀ x, e.form = .name x ↔ ∃ at_, Parenthesized [⟨.name x, at_⟩] w) ∧
      (e.form = .constant ↔ ∃ core, IsConstant core ∧ Parenthesized core w) ∧
      (∀ x at_, Parenthesized [⟨.name x, at_⟩] w → e.position = at_) ∧
      (∀ core, IsConstant core → Parenthesized core w → e.position = (front core).position) := by
  have hexact : Exact p := by
    rcases hp with rfl | rfl
    · exact grammar_exact
    · exact Grammar.starExpressions_exact grammar_keep grammar_exact
  obtain ⟨w, hw, htells⟩ := hexact ts e rest h
  have hname : ∀ {x at_}, Parenthesized [⟨.name x, at_⟩] w → ⟨.name x, at_⟩ = e := fun hw =>
    htells.eq_of_bare ⟨_, .name _ _, hw⟩
  have hconstant : ∀ {core}, IsConstant core → Parenthesized core w →
      ⟨.constant, (front core).position⟩ = e := fun hcore hw =>
    htells.eq_of_bare ⟨_, .constant hcore, hw⟩
  refine ⟨w, hw, fun x => ⟨fun hform => ?_, ?_⟩, ⟨fun hform => ?_, ?_⟩, ?_, ?_⟩
  · obtain ⟨core, hcore, hw⟩ := htells.bare_of_form (by rw [hform]; rfl)
    cases hcore with
    | name y at_ =>
      cases hform
      exact ⟨at_, hw⟩
    | constant => cases hform
  · rintro ⟨at_, hw⟩
    rw [← hname hw]
  · obtain ⟨core, hcore, hw⟩ := htells.bare_of_form (by rw [hform]; rfl)
    cases hcore with
    | name => cases hform
    | constant hcore => exact ⟨_, hcore, hw⟩
  · rintro ⟨core, hcore, hw⟩
    rw [← hconstant hcore hw]
  · intro x at_ hw
    rw [← hname hw]
  · intro core hcore hw
    rw [← hconstant hcore hw]

/-- Two string literals in parentheses are one constant, and it starts
    behind the parentheses. -/
theorem form_of_adjacent_literals :
    grammar.expression [⟨.symbol (.opening .round), ⟨1, 1⟩⟩, ⟨.symbol (.opening .round), ⟨1, 2⟩⟩,
      ⟨.string (ascii "'a'") false false, ⟨1, 3⟩⟩, ⟨.string (ascii "'b'") false false, ⟨1, 7⟩⟩,
      ⟨.symbol (.closing .round), ⟨1, 10⟩⟩, ⟨.symbol (.closing .round), ⟨1, 11⟩⟩,
      ⟨.newline, ⟨1, 12⟩⟩] = .ok (⟨.constant, ⟨1, 3⟩⟩, [⟨.newline, ⟨1, 12⟩⟩]) ∧
    ∃ core, IsConstant core ∧ Parenthesized core
      [⟨.symbol (.opening .round), ⟨1, 1⟩⟩, ⟨.symbol (.opening .round), ⟨1, 2⟩⟩,
        ⟨.string (ascii "'a'") false false, ⟨1, 3⟩⟩, ⟨.string (ascii "'b'") false false, ⟨1, 7⟩⟩,
        ⟨.symbol (.closing .round), ⟨1, 10⟩⟩, ⟨.symbol (.closing .round), ⟨1, 11⟩⟩] := by
  have hread : grammar.expression ([⟨.symbol (.opening .round), ⟨1, 1⟩⟩,
      ⟨.symbol (.opening .round), ⟨1, 2⟩⟩, ⟨.string (ascii "'a'") false false, ⟨1, 3⟩⟩,
      ⟨.string (ascii "'b'") false false, ⟨1, 7⟩⟩, ⟨.symbol (.closing .round), ⟨1, 10⟩⟩,
      ⟨.symbol (.closing .round), ⟨1, 11⟩⟩] ++ [⟨.newline, ⟨1, 12⟩⟩]) =
        .ok (⟨.constant, ⟨1, 3⟩⟩, [⟨.newline, ⟨1, 12⟩⟩]) := by decide +kernel
  obtain ⟨w, hw, _, hconstant, _⟩ := outermost_form (.inl rfl) hread
  obtain rfl := (List.append_inj' hw rfl).1
  exact ⟨hread, hconstant.mp rfl⟩

end StyleCheck
