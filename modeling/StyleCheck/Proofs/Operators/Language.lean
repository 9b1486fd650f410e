import StyleCheck.Syntax.Token

/-! # The Language of Operators

    Conditional expressions, operators by precedence, powers, primaries,
    and what may stand in round and square brackets.  The language is
    given by rules, one for each way to build a word, with no regard to
    how a word is read.

    * `Derives`: the words of each category.  `.expression` is where a
      word as a whole belongs.
    * `PlainWord`: the words that are written with nothing but the tokens
      of the language.
-/

namespace StyleCheck

/-! ## Section 1: Operators -/

namespace Symbol

/-- The comparison operators that are symbols. -/
def comparisons : List Symbol := [less, greater, doubleEqual, greaterEqual, lessEqual, notEqual]

/-- The binary operators by precedence, loosest first. -/
def precedence : List (List Symbol) :=
  [[bar], [caret], [ampersand], [leftShift, rightShift], [plus, minus],
    [star, slash, doubleSlash, percent, atSign]]

/-- The signs. -/
def signs : List Symbol := [minus, plus, tilde]

end Symbol

/-- What holds the operands of a chain together. -/
inductive Link where
  | or_
  | and_
  | compare
  /-- The binary operators of one level, with the levels that bind
      tighter. -/
  | binary (level : List Symbol) (tighter : List (List Symbol))

/-- What a word is a word of. -/
inductive Category where
  /-- A disjunction, or a conditional expression. -/
  | expression
  /-- Operands between operators. -/
  | chain (link : Link)
  /-- Comparisons behind any number of `not`. -/
  | inversion
  /-- A power behind any number of signs. -/
  | factor
  | power
  /-- A primary, perhaps behind `await`. -/
  | awaited
  | primary
  | trailers
  /-- An attribute, a call, or a subscript. -/
  | trailer
  | atom
  /-- Any number of expressions between commas, and perhaps one more
      comma behind them. -/
  | elements

/-- Binary operators of some levels, loosest first. -/
def Category.binary : List (List Symbol) → Category
  | [] => .factor
  | level :: tighter => .chain (.binary level tighter)

/-- The operands of a chain. -/
def Link.operand : Link → Category
  | .or_ => .chain .and_
  | .and_ => .inversion
  | .compare => .binary Symbol.precedence
  | .binary _ tighter => .binary tighter

/-- The operators of a chain. -/
inductive Link.IsOperator : Link → List Token → Prop where
  | or_ {p : Position} : IsOperator .or_ [⟨.keyword .or_, p⟩]
  | and_ {p : Position} : IsOperator .and_ [⟨.keyword .and_, p⟩]
  | comparison {symbol : Symbol} {p : Position} (h : symbol ∈ Symbol.comparisons) :
      IsOperator .compare [⟨.symbol symbol, p⟩]
  | in_ {p : Position} : IsOperator .compare [⟨.keyword .in_, p⟩]
  | notIn {p q : Position} : IsOperator .compare [⟨.keyword .not_, p⟩, ⟨.keyword .in_, q⟩]
  | is_ {p : Position} : IsOperator .compare [⟨.keyword .is_, p⟩]
  | isNot {p q : Position} : IsOperator .compare [⟨.keyword .is_, p⟩, ⟨.keyword .not_, q⟩]
  | binary {level : List Symbol} {tighter : List (List Symbol)} {symbol : Symbol} {p : Position}
      (h : symbol ∈ level) : IsOperator (.binary level tighter) [⟨.symbol symbol, p⟩]

/-! ## Section 2: Words -/

/-- The keywords that are values. -/
def Keyword.values : List Keyword := [.none_, .true_, .false_]

/-- The words of a category.  What may stand behind the dot of an
    attribute is left open. -/
inductive Derives (IsAttribute : Lexeme → Prop) : Category → List Token → Prop where
  | value {w : List Token} (h : Derives IsAttribute (.chain .or_) w) : Derives IsAttribute .expression w
  | conditional {value test other : List Token} {p q : Position}
      (hvalue : Derives IsAttribute (.chain .or_) value) (htest : Derives IsAttribute (.chain .or_) test)
      (hother : Derives IsAttribute .expression other) :
      Derives IsAttribute .expression
        (value ++ ⟨.keyword .if_, p⟩ :: (test ++ ⟨.keyword .else_, q⟩ :: other))
  | operand {link : Link} {w : List Token} (h : Derives IsAttribute link.operand w) :
      Derives IsAttribute (.chain link) w
  | linked {link : Link} {first operator others : List Token}
      (hfirst : Derives IsAttribute link.operand first) (hoperator : link.IsOperator operator)
      (hothers : Derives IsAttribute (.chain link) others) :
      Derives IsAttribute (.chain link) (first ++ (operator ++ others))
  | inverted {w : List Token} {p : Position} (h : Derives IsAttribute .inversion w) :
      Derives IsAttribute .inversion (⟨.keyword .not_, p⟩ :: w)
  | comparison {w : List Token} (h : Derives IsAttribute (.chain .compare) w) :
      Derives IsAttribute .inversion w
  | signed {symbol : Symbol} {w : List Token} {p : Position} (hsign : symbol ∈ Symbol.signs)
      (h : Derives IsAttribute .factor w) : Derives IsAttribute .factor (⟨.symbol symbol, p⟩ :: w)
  | unsigned {w : List Token} (h : Derives IsAttribute .power w) : Derives IsAttribute .factor w
  | base {w : List Token} (h : Derives IsAttribute .awaited w) : Derives IsAttribute .power w
  | raised {base exponent : List Token} {p : Position} (hbase : Derives IsAttribute .awaited base)
      (hexponent : Derives IsAttribute .factor exponent) :
      Derives IsAttribute .power (base ++ ⟨.symbol .doubleStar, p⟩ :: exponent)
  | await_ {w : List Token} {p : Position} (h : Derives IsAttribute .primary w) :
      Derives IsAttribute .awaited (⟨.keyword .await_, p⟩ :: w)
  | primary {w : List Token} (h : Derives IsAttribute .primary w) : Derives IsAttribute .awaited w
  | trailed {w ts : List Token} (hatom : Derives IsAttribute .atom w)
      (htrailers : Derives IsAttribute .trailers ts) : Derives IsAttribute .primary (w ++ ts)
  | noTrailer : Derives IsAttribute .trailers []
  | trailer {t ts : List Token} (htrailer : Derives IsAttribute .trailer t)
      (htrailers : Derives IsAttribute .trailers ts) : Derives IsAttribute .trailers (t ++ ts)
  | dotted {l : Lexeme} {p q : Position} (h : IsAttribute l) :
      Derives IsAttribute .trailer [⟨.symbol .dot, p⟩, ⟨l, q⟩]
  | call {w : List Token} {p q : Position} (h : Derives IsAttribute .elements w) :
      Derives IsAttribute .trailer
        (⟨.symbol (.opening .round), p⟩ :: (w ++ [⟨.symbol (.closing .round), q⟩]))
  | subscript {w : List Token} {p q : Position} (h : Derives IsAttribute .elements w) (hne : w ≠ []) :
      Derives IsAttribute .trailer
        (⟨.symbol (.opening .square), p⟩ :: (w ++ [⟨.symbol (.closing .square), q⟩]))
  | name {x : Text} {p : Position} : Derives IsAttribute .atom [⟨.name x, p⟩]
  | number {text : Text} {p : Position} : Derives IsAttribute .atom [⟨.number text, p⟩]
  | constant {word : Keyword} {p : Position} (h : word ∈ Keyword.values) :
      Derives IsAttribute .atom [⟨.keyword word, p⟩]
  | ellipsis {p : Position} : Derives IsAttribute .atom [⟨.symbol .ellipsis, p⟩]
  | parenthesized {w : List Token} {p q : Position} (h : Derives IsAttribute .elements w) :
      Derives IsAttribute .atom
        (⟨.symbol (.opening .round), p⟩ :: (w ++ [⟨.symbol (.closing .round), q⟩]))
  | list {w : List Token} {p q : Position} (h : Derives IsAttribute .elements w) :
      Derives IsAttribute .atom
        (⟨.symbol (.opening .square), p⟩ :: (w ++ [⟨.symbol (.closing .square), q⟩]))
  | nothing : Derives IsAttribute .elements []
  | last {w : List Token} (h : Derives IsAttribute .expression w) : Derives IsAttribute .elements w
  | more {w ws : List Token} {p : Position} (hfirst : Derives IsAttribute .expression w)
      (hothers : Derives IsAttribute .elements ws) :
      Derives IsAttribute .elements (w ++ ⟨.symbol .comma, p⟩ :: ws)

/-- A factor is an operand of every level. -/
theorem Derives.binary {IsAttribute : Lexeme → Prop} {w : List Token}
    (h : Derives IsAttribute .factor w) (levels : List (List Symbol)) :
    Derives IsAttribute (.binary levels) w := by
  induction levels with
  | nil => exact h
  | cons level tighter ih => exact @operand IsAttribute (.binary level tighter) w ih

/-- A primary is an expression. -/
theorem Derives.expression {IsAttribute : Lexeme → Prop} {w : List Token}
    (h : Derives IsAttribute .primary w) : Derives IsAttribute .expression w := by
  have hoperand := h.primary.base.unsigned.binary Symbol.precedence
  have hinversion := (@operand _ .compare _ hoperand).comparison
  exact .value (.operand (.operand hinversion))

/-! ## Section 3: The first token -/

/-- Which operands a lexeme may start: atoms, awaited ones, signed ones,
    inverted ones, or none. -/
def Lexeme.startLevel : Lexeme → Nat
  | name _ | number _ => 0
  | keyword .none_ | keyword .true_ | keyword .false_ => 0
  | symbol .ellipsis | symbol (.opening .round) | symbol (.opening .square) => 0
  | keyword .await_ => 1
  | symbol .minus | symbol .plus | symbol .tilde => 2
  | keyword .not_ => 3
  | _ => 4

namespace Category

/-- The categories whose words are operands of something. -/
def isOperand : Category → Bool
  | trailers | trailer | elements => false
  | _ => true

/-- What the words of a category may start with. -/
def startLevel : Category → Nat
  | primary | atom => 0
  | awaited | power => 1
  | factor | chain .compare | chain (.binary _ _) => 2
  | _ => 3

end Category

namespace Link

theorem isOperand_operand (link : Link) : link.operand.isOperand = true := by
  cases link with
  | or_ | and_ | compare => rfl
  | binary level tighter => cases tighter <;> rfl

theorem startLevel_operand (link : Link) :
    link.operand.startLevel = (Category.chain link).startLevel := by
  cases link with
  | or_ | and_ | compare => rfl
  | binary level tighter => cases tighter <;> rfl

end Link

/-- A word with a first token of some level. -/
def StartsAt (level : Nat) (w : List Token) : Prop :=
  ∃ token w', w = token :: w' ∧ token.lexeme.startLevel ≤ level

namespace StartsAt

variable {level level' : Nat} {w : List Token}

theorem append (h : StartsAt level w) (v : List Token) : StartsAt level (w ++ v) := by
  obtain ⟨token, w', rfl, hlevel⟩ := h
  exact ⟨token, w' ++ v, rfl, hlevel⟩

theorem mono (h : StartsAt level w) (hle : level ≤ level') : StartsAt level' w := by
  obtain ⟨token, w', hw, hlevel⟩ := h
  exact ⟨token, w', hw, Nat.le_trans hlevel hle⟩

theorem ne_nil (h : StartsAt level w) : w ≠ [] := by
  obtain ⟨_, _, rfl, _⟩ := h
  simp

end StartsAt

theorem startLevel_of_mem_signs {symbol : Symbol} (h : symbol ∈ Symbol.signs) :
    (Lexeme.symbol symbol).startLevel = 2 := by
  simp only [Symbol.signs, List.mem_cons, List.not_mem_nil, or_false] at h
  rcases h with rfl | rfl | rfl <;> rfl

/-- An operand has a first token, which is one of its category. -/
theorem Derives.startsAt {IsAttribute : Lexeme → Prop} {c : Category} {w : List Token}
    (h : Derives IsAttribute c w) (hc : c.isOperand = true) : StartsAt c.startLevel w := by
  induction h with
  | value _ ih => exact ih rfl
  | conditional _ _ _ ih => exact (ih rfl).append _
  | @operand link _ _ ih => exact link.startLevel_operand ▸ ih link.isOperand_operand
  | @linked link _ _ _ _ _ _ ih =>
    exact link.startLevel_operand ▸ (ih link.isOperand_operand).append _
  | inverted => exact ⟨_, _, rfl, Nat.le_refl _⟩
  | comparison _ ih => exact (ih rfl).mono (by decide)
  | signed hsign => exact ⟨_, _, rfl, Nat.le_of_eq (startLevel_of_mem_signs hsign)⟩
  | unsigned _ ih => exact (ih rfl).mono (by decide)
  | base _ ih => exact ih rfl
  | raised _ _ ih => exact (ih rfl).append _
  | await_ => exact ⟨_, _, rfl, Nat.le_refl _⟩
  | primary _ ih => exact (ih rfl).mono (by decide)
  | trailed _ _ ih => exact (ih rfl).append _
  | noTrailer | trailer | dotted | call | subscript | nothing | last | more => cases hc
  | name | number | ellipsis | parenthesized | list => exact ⟨_, _, rfl, Nat.le_refl _⟩
  | constant hword =>
    refine ⟨_, _, rfl, ?_⟩
    simp only [Keyword.values, List.mem_cons, List.not_mem_nil, or_false] at hword
    rcases hword with rfl | rfl | rfl <;> exact Nat.le_refl _

/-! ## Section 4: Tokens of the language -/

/-- The keywords of the language. -/
def Keyword.plain : List Keyword :=
  values ++ [.if_, .else_, .or_, .and_, .not_, .in_, .is_, .await_]

/-- The symbols of the language. -/
def Symbol.plain : List Symbol :=
  comparisons ++ precedence.flatten ++ signs ++
    [doubleStar, ellipsis, dot, comma, opening .round, closing .round, opening .square,
      closing .square]

namespace Lexeme

/-- Whether the language has a lexeme. -/
def isPlain : Lexeme → Bool
  | keyword word => Keyword.plain.contains word
  | symbol sign => Symbol.plain.contains sign
  | name _ | number _ => true
  | _ => false

/-- Whether an element may start behind a lexeme. -/
def opensElement : Lexeme → Bool
  | symbol (.opening .round) | symbol (.opening .square) | symbol .comma => true
  | _ => false

/-- One star or two. -/
def isStar : Lexeme → Bool
  | symbol .star | symbol .doubleStar => true
  | _ => false

end Lexeme

/-- A word that is written with tokens of the language only, and has no
    star where an element may start. -/
structure PlainWord (w : List Token) : Prop where
  plain : ∀ token ∈ w, token.lexeme.isPlain = true
  stars : ∀ front before after back, w = front ++ before :: after :: back →
    before.lexeme.opensElement = true → after.lexeme.isStar = false

namespace PlainWord

variable {w u v : List Token} {token : Token}

theorem append_left (h : PlainWord (u ++ v)) : PlainWord u where
  plain t hmem := h.plain t (List.mem_append_left v hmem)
  stars front before after back heq :=
    h.stars front before after (back ++ v) (by rw [heq]; simp)

theorem append_right (h : PlainWord (u ++ v)) : PlainWord v where
  plain t hmem := h.plain t (List.mem_append_right u hmem)
  stars front before after back heq :=
    h.stars (u ++ front) before after back (by rw [heq, List.append_assoc])

theorem of_cons (h : PlainWord (token :: w)) : PlainWord w := append_right (u := [token]) h

/-- A word does not start with a star where an element may start. -/
theorem not_isStar (h : PlainWord (token :: w)) (hopens : token.lexeme.opensElement = true) :
    ∀ t ∈ w.head?, t.lexeme.isStar = false := by
  intro t hhead
  cases w with
  | nil => cases hhead
  | cons first w =>
    obtain rfl : first = t := by simpa using hhead
    exact h.stars [] token first w rfl hopens

/-- Neighbours in a word. -/
theorem mem_zip_tail {before after : Token} : ∀ {w : List Token},
    (before, after) ∈ w.zip w.tail ↔ ∃ front back, w = front ++ before :: after :: back
  | [] => by simp
  | [first] => by
    constructor
    · simp
    · rintro ⟨front, back, heq⟩
      have := congrArg List.length heq
      simp at this
      omega
  | first :: second :: w => by
    have ih := @mem_zip_tail before after (second :: w)
    simp only [List.tail_cons] at ih
    simp only [List.tail_cons, List.zip_cons_cons, List.mem_cons, Prod.mk.injEq, ih]
    constructor
    · rintro (⟨rfl, rfl⟩ | ⟨front, back, heq⟩)
      · exact ⟨[], w, rfl⟩
      · exact ⟨first :: front, back, by rw [heq]; rfl⟩
    · rintro ⟨front, back, heq⟩
      cases front with
      | nil =>
        simp only [List.nil_append, List.cons.injEq] at heq
        exact .inl ⟨heq.1.symm, heq.2.1.symm⟩
      | cons t front => exact .inr ⟨front, back, by simpa using (List.cons.inj heq).2⟩

instance (w : List Token) : Decidable (PlainWord w) :=
  decidable_of_iff ((∀ token ∈ w, token.lexeme.isPlain = true) ∧ ∀ pair ∈ w.zip w.tail,
      pair.1.lexeme.opensElement = true → pair.2.lexeme.isStar = false) (by
    constructor
    · rintro ⟨hplain, hpairs⟩
      refine ⟨hplain, fun front before after back heq => ?_⟩
      exact hpairs (before, after) (mem_zip_tail.mpr ⟨front, back, heq⟩)
    · intro h
      refine ⟨h.plain, fun ⟨before, after⟩ hpair => ?_⟩
      obtain ⟨front, back, heq⟩ := mem_zip_tail.mp hpair
      exact h.stars front before after back heq)

end PlainWord

/-- An identifier. -/
def Lexeme.IsName (l : Lexeme) : Prop := ∃ x, l = .name x

/-- The words of the language as it is read.  What stands behind the dot
    of an attribute is an identifier. -/
abbrev Belongs (c : Category) (w : List Token) : Prop := Derives Lexeme.IsName c w

end StyleCheck
