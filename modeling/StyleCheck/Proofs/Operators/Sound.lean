import StyleCheck.Proofs.Operators.Language
import StyleCheck.Proofs.Parsing.Suffix

/-! # What an Expression Reads

    A parser of the grammar reads a word of its category, provided that
    the word is plain.  Everything else that the grammar has, such as
    lambdas, string literals and comprehensions, reads a token on the way
    that the language does not have.

    * `Takes`: what each of the parsers is shown to do.
    * `Foreign`: a token was read that no plain word has.
    * `grammar_sound`: the parser of expressions as a whole.
-/

namespace StyleCheck

open StyleCheck.Parser

/-! ## Section 1: Words that are read -/

/-- What is read is one of certain words, if it is plain. -/
def Takes (words : List Token → Prop) (ts rest : List Token) : Prop :=
  ∃ w, ts = w ++ rest ∧ (PlainWord w → words w)

/-- A word does not start with a star. -/
def Unstarred (w : List Token) : Prop := ∀ t ∈ w.head?, t.lexeme.isStar = false

/-- What is read where an element may start, so that it may be a star. -/
def TakesElement (words : List Token → Prop) : List Token → List Token → Prop :=
  Takes fun w => Unstarred w → words w

/-- What is read is no plain word. -/
def Foreign (ts rest : List Token) : Prop := ∃ w, ts = w ++ rest ∧ ¬ PlainWord w

variable {words : List Token → Prop} {ts us mid rest : List Token} {l : Lexeme} {p : Position}

theorem Takes.suffix (h : Takes words ts rest) : rest <:+ ts := by
  obtain ⟨w, rfl, _⟩ := h
  exact List.suffix_append w rest

theorem Takes.element (h : Takes words ts rest) : TakesElement words ts rest := by
  obtain ⟨w, hw, hbelongs⟩ := h
  exact ⟨w, hw, fun hplain _ => hbelongs hplain⟩

theorem Takes.mono {words' : List Token → Prop} (h : Takes words ts rest)
    (himp : ∀ {w}, words w → words' w) : Takes words' ts rest := by
  obtain ⟨w, hw, hwords⟩ := h
  exact ⟨w, hw, fun hplain => himp (hwords hplain)⟩

/-- Words that are read one behind the other. -/
theorem Takes.append {words' both : List Token → Prop} (h : Takes words ts mid)
    (h' : Takes words' mid rest) (happend : ∀ {u v}, words u → words' v → both (u ++ v)) :
    Takes both ts rest := by
  obtain ⟨u, rfl, hu⟩ := h
  obtain ⟨v, rfl, hv⟩ := h'
  exact ⟨u ++ v, by rw [List.append_assoc], fun hplain =>
    happend (hu hplain.append_left) (hv hplain.append_right)⟩

/-- A token at the front, and a word behind it. -/
theorem Takes.cons {both : List Token → Prop} (h : Takes words ts.tail rest)
    (hfront : (front ts).lexeme = l) (hl : l ≠ .endMarker)
    (hcons : ∀ {w p}, words w → both (⟨l, p⟩ :: w)) : Takes both ts rest := by
  obtain ⟨p, hts⟩ := eq_cons_of_front hfront hl
  obtain ⟨w, hw, hwords⟩ := h
  exact ⟨⟨l, p⟩ :: w, by rw [hts, hw]; rfl, fun hplain => hcons (hwords hplain.of_cons)⟩

namespace Foreign

theorem takes (h : Foreign ts rest) (words : List Token → Prop) : Takes words ts rest := by
  obtain ⟨w, hw, hforeign⟩ := h
  exact ⟨w, hw, fun hplain => absurd hplain hforeign⟩

/-- A token of another kind at the front is read. -/
theorem of_front (hfront : (front ts).lexeme = l) (hl : l ≠ .endMarker) (hplain : l.isPlain = false)
    (hrest : rest <:+ ts.tail) : Foreign ts rest := by
  obtain ⟨p, hts⟩ := eq_cons_of_front hfront hl
  obtain ⟨w, hw⟩ := hrest
  refine ⟨⟨l, p⟩ :: w, by rw [hts, ← hw]; rfl, fun h => ?_⟩
  have := h.plain ⟨l, p⟩ List.mem_cons_self
  rw [hplain] at this
  cases this

/-- Tokens before and behind do not make it plain. -/
theorem between (h : Foreign mid us) (hbefore : mid <:+ ts) (hbehind : rest <:+ us) :
    Foreign ts rest := by
  obtain ⟨w, rfl, hforeign⟩ := h
  obtain ⟨front, rfl⟩ := hbefore
  obtain ⟨back, rfl⟩ := hbehind
  refine ⟨front ++ (w ++ back), by simp, fun hplain => hforeign ?_⟩
  exact hplain.append_right.append_left

end Foreign

/-- What stands behind a token where an element may start. -/
theorem PlainWord.unstarred {token : Token} {w : List Token} (h : PlainWord (token :: w))
    (hopens : token.lexeme.opensElement = true) : Unstarred w :=
  h.not_isStar hopens

theorem Unstarred.append_left {w v : List Token} (h : Unstarred (w ++ v)) : Unstarred w := by
  intro t ht
  apply h
  cases w with
  | nil => cases ht
  | cons first w => exact ht

/-- The parsers that are referred back to read words of their category. -/
structure Nonterminals.Sound (g : Nonterminals) : Prop extends g.Keep where
  takesExpression : ∀ ts, Ensures g.expression ts fun _ rest => Takes (Belongs .expression) ts rest
  takesDisjunction : ∀ ts, Ensures g.disjunction ts fun _ rest => Takes (Belongs (.chain .or_)) ts rest
  takesInversion : ∀ ts, Ensures g.inversion ts fun _ rest => Takes (Belongs .inversion) ts rest
  takesFactor : ∀ ts, Ensures g.factor ts fun _ rest => Takes (Belongs .factor) ts rest

namespace Grammar

variable {g : Nonterminals} (hg : g.Sound)

/-! ## Section 2: Chains -/

/-- What may follow the first operand of a chain. -/
def Follows (link : Link) (w : List Token) : Prop :=
  w = [] ∨ ∃ operator others, w = operator ++ others ∧ link.IsOperator operator ∧
    Belongs (.chain link) others

theorem Follows.chain {link : Link} {first w : List Token} (hfirst : Belongs link.operand first)
    (h : Follows link w) : Belongs (.chain link) (first ++ w) := by
  rcases h with rfl | ⟨operator, others, rfl, hoperator, hothers⟩
  · rw [List.append_nil]
    exact .operand hfirst
  · exact .linked hfirst hoperator hothers

/-- What a parser reads that looks for an operator. -/
def ReadsOperator (link : Link) (operator : Parser Bool) : Prop :=
  ∀ ts, Ensures operator ts fun found mid =>
    if found then ∃ w, ts = w ++ mid ∧ link.IsOperator w else mid = ts

theorem chain_takes {link : Link} {operator : Parser Bool} {operand : Parser Expr}
    (hoperator : ReadsOperator link operator)
    (hoperand : ∀ ts, Ensures operand ts fun _ rest => Takes (Belongs link.operand) ts rest)
    (ts : List Token) :
    Ensures (chain operator operand) ts fun _ rest => Takes (Belongs (.chain link)) ts rest := by
  have hrounds : ∀ start first mid, Ensures (loop (nextOperand operator operand start) first) mid
      fun _ rest => Takes (Follows link) mid rest := by
    intro start first mid
    refine Ensures.loop_tokens (Takes (Follows link)) (fun read ts => ?_) first mid
    unfold nextOperand
    rw [ensures_bind]
    refine (hoperator ts).mono fun found mid hfound => ?_
    cases found with
    | false =>
      rw [if_neg Bool.false_ne_true] at hfound
      rw [if_neg Bool.false_ne_true, ensures_pure]
      exact ⟨[], hfound.symm, fun _ => .inl rfl⟩
    | true =>
      -- An operator, an operand, and what the rounds behind them read.
      obtain ⟨operator, rfl, hoperator⟩ := hfound
      rw [if_pos rfl, ensures_bind]
      refine (hoperand mid).mono fun _ behind htakes => ?_
      rw [ensures_pure]
      obtain ⟨first, rfl, hfirst⟩ := htakes
      rintro rest ⟨w, rfl, hw⟩
      refine ⟨operator ++ (first ++ w), by simp, fun hplain => ?_⟩
      have hbehind := hplain.append_right
      exact .inr ⟨operator, first ++ w, rfl, hoperator,
        (hw hbehind.append_right).chain (hfirst hbehind.append_left)⟩
  unfold chain
  rw [ensures_bind, ensures_position, ensures_bind]
  refine (hoperand ts).mono fun first mid htakes => ?_
  refine (hrounds _ first mid).mono fun _ rest hrest => ?_
  obtain ⟨first, rfl, hfirst⟩ := htakes
  obtain ⟨w, rfl, hw⟩ := hrest
  refine ⟨first ++ w, by simp, fun hplain => ?_⟩
  exact (hw hplain.append_right).chain (hfirst hplain.append_left)

/-! ## Section 3: Operators -/

theorem mem_comparisons_iff (symbol : Symbol) :
    symbol ∈ Symbol.comparisons ↔ symbol.isComparison = true := by
  cases symbol <;> simp [Symbol.comparisons, Symbol.isComparison]

theorem mem_signs_iff (symbol : Symbol) : symbol ∈ Symbol.signs ↔ symbol.isSign = true := by
  cases symbol <;> simp [Symbol.signs, Symbol.isSign]

theorem isOneOf_eq_true {symbols : List Symbol} (h : isOneOf symbols l = true) :
    ∃ symbol ∈ symbols, l = .symbol symbol := by
  unfold isOneOf at h
  split at h
  case h_1 symbol => exact ⟨symbol, List.contains_iff_mem.mp h, rfl⟩
  case h_2 => cases h

theorem readsOperator_keyword {link : Link} {keyword : Keyword}
    (h : ∀ p, link.IsOperator [⟨.keyword keyword, p⟩]) :
    ReadsOperator link (acceptKeyword keyword) := by
  intro ts
  rw [ensures_acceptKeyword]
  refine ⟨fun hfront => ?_, fun _ => rfl⟩
  obtain ⟨p, hts⟩ := eq_cons_of_front hfront (by simp)
  exact ⟨[⟨.keyword keyword, p⟩], hts, h p⟩

theorem readsOperator_level (level : List Symbol) (tighter : List (List Symbol)) :
    ReadsOperator (.binary level tighter) (acceptIf (isOneOf level)) := by
  intro ts
  rw [ensures_acceptIf]
  refine ⟨fun hfront => ?_, fun _ => rfl⟩
  obtain ⟨symbol, hmem, hsymbol⟩ := isOneOf_eq_true hfront
  obtain ⟨p, hts⟩ := eq_cons_of_front hsymbol (by simp)
  exact ⟨[⟨.symbol symbol, p⟩], hts, .binary hmem⟩

theorem readsOperator_comparison : ReadsOperator .compare acceptComparison := by
  intro ts
  unfold acceptComparison
  rw [ensures_bind, ensures_peek]
  split
  case h_1 symbol hfront =>
    obtain ⟨p, hts⟩ := eq_cons_of_front hfront (by simp)
    simp only [ensures_ite, ensures_bind, ensures_advance, ensures_pure]
    refine ⟨fun hsymbol => ?_, fun _ => trivial⟩
    exact ⟨_, hts, .comparison ((mem_comparisons_iff symbol).mpr hsymbol)⟩
  case h_2 hfront =>
    obtain ⟨p, hts⟩ := eq_cons_of_front hfront (by simp)
    simp only [ensures_bind, ensures_advance, ensures_pure]
    exact ⟨_, hts, .in_⟩
  case h_3 hfront =>
    obtain ⟨p, hts⟩ := eq_cons_of_front hfront (by simp)
    simp only [ensures_bind, ensures_peekSecond, ensures_ite, ensures_advance, ensures_pure,
      beq_iff_eq]
    refine ⟨fun hsecond => ?_, fun _ => trivial⟩
    obtain ⟨q, htail⟩ := eq_cons_of_front hsecond (by simp)
    refine ⟨[⟨.keyword .not_, p⟩, ⟨.keyword .in_, q⟩], ?_, .notIn⟩
    rw [hts, htail]
    rfl
  case h_4 hfront =>
    obtain ⟨p, hts⟩ := eq_cons_of_front hfront (by simp)
    simp only [ensures_bind, ensures_advance, ensures_acceptKeyword, ensures_pure]
    refine ⟨fun hsecond => ?_, fun _ => ⟨_, hts, .is_⟩⟩
    obtain ⟨q, htail⟩ := eq_cons_of_front hsecond (by simp)
    refine ⟨[⟨.keyword .is_, p⟩, ⟨.keyword .not_, q⟩], ?_, .isNot⟩
    rw [hts, htail]
    rfl
  case h_5 =>
    rw [ensures_pure]
    rfl

/-! ## Section 4: Elements -/

include hg

/-- What is read of a named expression is foreign, or an expression. -/
theorem namedExpression_takes (ts : List Token) :
    Ensures (namedExpression g) ts fun _ rest => Takes (Belongs .expression) ts rest := by
  unfold namedExpression
  simp only [ensures_bind, ensures_position, ensures_peek, ensures_peekSecond, ensures_ite]
  refine ⟨fun hnamed => ?_, fun _ => hg.takesExpression ts⟩
  -- The second token is not one of the language.
  have hsecond : (front ts.tail).lexeme = .symbol .colonEqual := by
    simpa using (Bool.and_eq_true_iff.mp hnamed).2
  simp only [ensures_name, ensures_advance, ensures_pure]
  intro _ _
  refine (hg.expression.suffix ts.tail.tail).mono fun _ rest hrest => ?_
  have hforeign : Foreign ts.tail rest := .of_front hsecond (by simp) rfl hrest
  exact (hforeign.between (List.tail_suffix ts) (List.suffix_refl rest)).takes _

theorem starExpression_takes {ts : List Token} (hfront : (front ts).lexeme = .symbol .star)
    (words : List Token → Prop) :
    Ensures (starExpression g) ts fun _ rest => TakesElement words ts rest := by
  obtain ⟨p, hts⟩ := eq_cons_of_front hfront (by simp)
  unfold starExpression
  simp only [ensures_bind, ensures_position, ensures_accept, ensures_ite, ensures_pure]
  refine ⟨fun _ => ⟨fun _ => ?_, fun h => absurd trivial h⟩, fun h => absurd hfront h⟩
  refine (hg.operand.suffix ts.tail).mono fun _ rest hrest => ?_
  obtain ⟨w, hw⟩ := hrest
  refine ⟨⟨.symbol .star, p⟩ :: w, by rw [hts, ← hw]; rfl, fun _ hstar => ?_⟩
  exact absurd (hstar _ rfl) (by simp [Lexeme.isStar])

theorem element_takes (ts : List Token) :
    Ensures (element g) ts fun _ rest => TakesElement (Belongs .expression) ts rest := by
  unfold element
  simp only [ensures_bind, ensures_atSymbol, ensures_ite, decide_eq_true_eq]
  refine ⟨fun hstar => starExpression_takes hg hstar _, fun _ => ?_⟩
  exact (namedExpression_takes hg ts).mono fun _ _ htakes => htakes.element

omit hg in
/-- What may follow the first of several elements. -/
def MoreElements (w : List Token) : Prop :=
  w = [] ∨ ∃ p others, w = ⟨.symbol .comma, p⟩ :: others ∧ Belongs .elements others

omit hg in
theorem MoreElements.elements {first w : List Token} (hfirst : Belongs .expression first)
    (h : MoreElements w) : Belongs .elements (first ++ w) := by
  rcases h with rfl | ⟨p, others, rfl, hothers⟩
  · rw [List.append_nil]
    exact .last hfirst
  · exact .more hfirst hothers

theorem moreElements_takes (closer : Bracket) (ts : List Token) :
    Ensures (moreElements g closer) ts fun _ rest => Takes MoreElements ts rest := by
  refine Ensures.repeatWhile (Takes MoreElements) (fun ts => ?_) ts
  unfold nextElement
  rw [ensures_bind, ensures_accept]
  refine ⟨fun hcomma => ?_, fun _ => ?_⟩
  · obtain ⟨p, hts⟩ := eq_cons_of_front hcomma (by simp)
    simp only [if_true, ensures_bind, ensures_atSymbol, ensures_ite, ensures_pure]
    refine ⟨fun _ => ⟨_, hts, fun _ => .inr ⟨p, [], rfl, .nothing⟩⟩, fun _ => ?_⟩
    refine (element_takes hg ts.tail).mono fun _ mid helement => ?_
    obtain ⟨first, hfirst, hbelongs⟩ := helement
    rintro rest ⟨w, rfl, hw⟩
    refine ⟨⟨.symbol .comma, p⟩ :: (first ++ w), by rw [hts, hfirst]; simp, fun hplain => ?_⟩
    have hbehind := hplain.of_cons
    have hexpression := hbelongs hbehind.append_left (hplain.unstarred rfl).append_left
    exact .inr ⟨p, first ++ w, rfl, (hw hbehind.append_right).elements hexpression⟩
  · rw [if_neg Bool.false_ne_true, ensures_pure, if_neg Bool.false_ne_true]
    exact ⟨[], rfl, fun _ => .inl rfl⟩

/-- A comprehension is foreign. -/
theorem comprehension_foreign {l : Lexeme} (hfront : (front ts).lexeme = l)
    (hl : l = .keyword .for_ ∨ l = .keyword .async_) :
    Ensures (comprehension g) ts fun _ rest => Foreign ts rest := by
  refine ((comprehension_advances hg.toKeep).suffix_tail ts).mono fun _ rest hrest => ?_
  rcases hl with rfl | rfl
  · exact .of_front hfront (by simp) rfl hrest
  · exact .of_front hfront (by simp) rfl hrest

omit hg in
theorem atComprehension_ensures (ts : List Token) : Ensures atComprehension ts fun found rest =>
    rest = ts ∧ (found = true → ∃ l, (front ts).lexeme = l ∧
      (l = .keyword .for_ ∨ l = .keyword .async_)) := by
  unfold atComprehension
  rw [ensures_bind, ensures_peek]
  split
  case h_1 h => exact (ensures_pure _).mpr ⟨rfl, fun _ => ⟨_, h, .inl rfl⟩⟩
  case h_2 h => exact (ensures_pure _).mpr ⟨rfl, fun _ => ⟨_, h, .inr rfl⟩⟩
  case h_3 => exact (ensures_pure _).mpr ⟨rfl, fun h => by cases h⟩

theorem argument_takes (ts : List Token) :
    Ensures (argument g) ts fun _ rest => TakesElement (Belongs .expression) ts rest := by
  unfold argument
  simp only [ensures_bind, ensures_peek, ensures_peekSecond, ensures_acceptIf]
  refine ⟨fun hstar => ?_, fun _ => ?_⟩
  -- One star or two, and an expression.
  · simp only [if_true, ensures_bind, ensures_pure]
    have hstars : ∃ p l, ts = ⟨l, p⟩ :: ts.tail ∧ l.isStar = true := by
      simp only [Bool.or_eq_true, beq_iff_eq] at hstar
      rcases hstar with hstar | hstar
      · obtain ⟨p, hts⟩ := eq_cons_of_front hstar (by simp)
        exact ⟨p, _, hts, rfl⟩
      · obtain ⟨p, hts⟩ := eq_cons_of_front hstar (by simp)
        exact ⟨p, _, hts, rfl⟩
    obtain ⟨p, l, hts, hl⟩ := hstars
    refine (hg.expression.suffix ts.tail).mono fun _ rest hrest => ?_
    obtain ⟨w, hw⟩ := hrest
    refine ⟨⟨l, p⟩ :: w, by rw [hts, ← hw]; rfl, fun _ hunstarred => ?_⟩
    have hnot := hunstarred _ rfl
    rw [hl] at hnot
    cases hnot
  · simp only [ensures_ite, Bool.false_eq_true, false_implies, not_false_eq_true, true_implies,
      true_and, ensures_bind, ensures_advance, ensures_pure]
    refine ⟨fun hkeyword => ?_, fun _ => ?_⟩
    -- A name with an equals sign behind it.
    · have hsecond : (front ts.tail).lexeme = .symbol .equal := by
        simpa using (Bool.and_eq_true_iff.mp hkeyword).2
      refine (hg.expression.suffix ts.tail.tail).mono fun _ rest hrest => ?_
      have hforeign : Foreign ts.tail rest := .of_front hsecond (by simp) rfl hrest
      exact ((hforeign.between (List.tail_suffix ts) (List.suffix_refl rest)).takes _).element
    · refine (namedExpression_takes hg ts).mono fun _ mid htakes => ?_
      refine (atComprehension_ensures mid).mono fun found mid' hfound => ?_
      obtain ⟨rfl, hfound⟩ := hfound
      refine ⟨fun hsome => ?_, fun _ => htakes.element⟩
      obtain ⟨l, hfront, hl⟩ := hfound hsome
      refine (comprehension_foreign hg hfront hl).mono fun _ rest hforeign => ?_
      exact ((hforeign.between htakes.suffix (List.suffix_refl rest)).takes _).element

/-! ## Section 5: Brackets -/

omit hg in
/-- Words between an opening bracket and its match. -/
def Enclosed (bracket : Bracket) (words : List Token → Prop) (w : List Token) : Prop :=
  ∃ p inner q, w = ⟨.symbol (.opening bracket), p⟩ :: (inner ++ [⟨.symbol (.closing bracket), q⟩]) ∧
    words inner

omit hg in
theorem takes_enclosed {bracket : Bracket} {words : List Token → Prop} {ts mid : List Token}
    (hbracket : bracket ≠ .curly) (hopening : (front ts).lexeme = .symbol (.opening bracket))
    (hinner : TakesElement words ts.tail mid)
    (hclosing : (front mid).lexeme = .symbol (.closing bracket)) :
    Takes (Enclosed bracket words) ts mid.tail := by
  obtain ⟨p, hts⟩ := eq_cons_of_front hopening (by simp)
  obtain ⟨q, hmid⟩ := eq_cons_of_front hclosing (by simp)
  obtain ⟨inner, hinner, hwords⟩ := hinner
  have hopens : (Lexeme.symbol (.opening bracket)).opensElement = true := by
    cases bracket with
    | round | square => rfl
    | curly => exact absurd rfl hbracket
  refine ⟨⟨.symbol (.opening bracket), p⟩ :: (inner ++ [⟨.symbol (.closing bracket), q⟩]), ?_, ?_⟩
  · rw [hts, hinner, hmid]
    simp
  · intro hplain
    exact ⟨p, inner, q, rfl,
      hwords hplain.of_cons.append_left (hplain.unstarred hopens).append_left⟩

theorem arguments_takes (ts : List Token) :
    Ensures (arguments g) ts fun _ rest => Takes (Enclosed .round (Belongs .elements)) ts rest := by
  unfold arguments
  simp only [ensures_bind, ensures_expect]
  intro hopening
  have hinner : Ensures (repeatWhile (nextArgument g)) ts.tail
      fun _ rest => TakesElement (Belongs .elements) ts.tail rest := by
    refine Ensures.repeatWhile (TakesElement (Belongs .elements)) (fun ts => ?_) ts.tail
    unfold nextArgument
    simp only [ensures_bind, ensures_atSymbol, ensures_ite, ensures_pure]
    refine ⟨fun _ => ⟨[], rfl, fun _ _ => .nothing⟩, fun _ => ?_⟩
    refine (argument_takes hg ts).mono fun _ mid hargument => ?_
    obtain ⟨first, rfl, hfirst⟩ := hargument
    rw [ensures_accept]
    refine ⟨fun hcomma => ?_, fun _ => ⟨first, rfl, fun hplain h => .last (hfirst hplain h)⟩⟩
    obtain ⟨p, hmid⟩ := eq_cons_of_front hcomma (by simp)
    rintro rest ⟨w, hw, hothers⟩
    refine ⟨first ++ ⟨.symbol .comma, p⟩ :: w, by rw [hmid, hw]; simp, fun hplain hstar => ?_⟩
    have hbehind := hplain.append_right
    exact .more (hfirst hplain.append_left hstar.append_left)
      (hothers hbehind.of_cons (hbehind.unstarred rfl))
  refine hinner.mono fun _ mid htakes => ?_
  exact fun hclosing => takes_enclosed (by simp) hopening htakes hclosing

theorem slice_takes (ts : List Token) :
    Ensures (slice g) ts fun _ rest => TakesElement (Belongs .expression) ts rest := by
  -- Bounds stand behind a colon, and are foreign.
  have hbounds : ∀ mid, Takes (Belongs .expression) ts mid ∨
        mid = ts ∧ (front ts).lexeme = .symbol .colon →
      Ensures (do if ← accept .colon then laterBounds g) mid
        fun _ rest => TakesElement (Belongs .expression) ts rest := by
    intro mid hmid
    have hsuffix : mid <:+ ts := by
      rcases hmid with htakes | ⟨rfl, _⟩
      · exact htakes.suffix
      · exact List.suffix_refl _
    simp only [ensures_bind, ensures_accept, ensures_ite, ensures_pure]
    refine ⟨fun hcolon => ⟨fun _ => ?_, fun h => absurd trivial h⟩,
      fun hno => ⟨fun h => absurd h Bool.false_ne_true, fun _ => ?_⟩⟩
    · refine ((laterBounds_keeps hg.toKeep).suffix mid.tail).mono fun _ rest hrest => ?_
      have hforeign : Foreign mid rest := .of_front hcolon (by simp) rfl hrest
      exact ((hforeign.between hsuffix (List.suffix_refl rest)).takes _).element
    · rcases hmid with htakes | ⟨rfl, hcolon⟩
      · exact htakes.element
      · exact absurd hcolon hno
  unfold slice
  rw [ensures_bind, ensures_atSymbol, ensures_ite, ensures_bind, ensures_bind, ensures_atSymbol]
  refine ⟨fun hstar => ?_, fun _ => (ensures_ite _ _ _).mpr ⟨fun hcolon => ?_, fun _ => ?_⟩⟩
  · refine (starExpression_takes hg (of_decide_eq_true hstar) (Belongs .expression)).mono ?_
    exact fun _ _ htakes => (ensures_pure ()).mpr htakes
  · exact hbounds ts (.inr ⟨rfl, of_decide_eq_true hcolon⟩)
  · rw [ensures_bind]
    exact (namedExpression_takes hg ts).mono fun _ mid htakes => hbounds mid (.inl htakes)

theorem slices_takes (ts : List Token) : Ensures (slices g) ts
    fun _ rest => TakesElement (fun w => Belongs .elements w ∧ w ≠ []) ts rest := by
  unfold slices
  rw [ensures_bind, ensures_atSymbol, ensures_ite]
  refine ⟨fun _ => (ensures_fail _).mpr trivial, fun _ => ?_⟩
  refine Ensures.repeatWhile (TakesElement fun w => Belongs .elements w ∧ w ≠ []) (fun ts => ?_) ts
  unfold nextSlice
  rw [ensures_bind]
  refine (slice_takes hg ts).mono fun _ mid hslice => ?_
  obtain ⟨first, rfl, hfirst⟩ := hslice
  have hne : ∀ {v : List Token}, Belongs .expression first → first ++ v ≠ [] := by
    intro v hbelongs
    exact ((hbelongs.startsAt rfl).append v).ne_nil
  rw [ensures_bind, ensures_accept]
  refine ⟨fun hcomma => ?_, fun _ => ?_⟩
  · obtain ⟨p, hmid⟩ := eq_cons_of_front hcomma (by simp)
    rw [if_pos rfl, ensures_bind, ensures_atSymbol, ensures_pure]
    split
    case isTrue =>
      rintro rest ⟨w, hw, hothers⟩
      refine ⟨first ++ ⟨.symbol .comma, p⟩ :: w, by rw [hmid, hw]; simp, fun hplain hstar => ?_⟩
      have hbehind := hplain.append_right
      have hbelongs := hfirst hplain.append_left hstar.append_left
      exact ⟨.more hbelongs (hothers hbehind.of_cons (hbehind.unstarred rfl)).1, hne hbelongs⟩
    case isFalse =>
      refine ⟨first ++ [⟨.symbol .comma, p⟩], ?_, fun hplain hstar => ?_⟩
      · conv => lhs; rw [hmid]
        simp
      · have hbelongs := hfirst hplain.append_left hstar.append_left
        exact ⟨.more hbelongs .nothing, hne hbelongs⟩
  · rw [if_neg Bool.false_ne_true, ensures_pure, if_neg Bool.false_ne_true]
    refine ⟨first, rfl, fun hplain hstar => ?_⟩
    have hbelongs := hfirst hplain hstar
    exact ⟨.last hbelongs, List.append_nil first ▸ hne hbelongs⟩

/-- What is read of a display behind its bracket, once its first element
    has been read. -/
theorem display_takes {bracket : Bracket} (hbracket : bracket ≠ .curly) {mid : List Token}
    (hopening : (front ts).lexeme = .symbol (.opening bracket))
    (hfirst : TakesElement (Belongs .expression) ts.tail mid) (e : Expr) :
    Ensures (do
      moreElements g bracket
      expect (.closing bracket)
      pure e) mid fun _ rest => Takes (Enclosed bracket (Belongs .elements)) ts rest := by
  rw [ensures_bind]
  refine (moreElements_takes hg bracket mid).mono fun _ behind hmore => ?_
  rw [ensures_bind, ensures_expect]
  intro hclosing
  rw [ensures_pure]
  apply takes_enclosed hbracket hopening ?_ hclosing
  obtain ⟨first, htail, hfirst⟩ := hfirst
  obtain ⟨w, rfl, hw⟩ := hmore
  refine ⟨first ++ w, by rw [htail, List.append_assoc], fun hplain hstar => ?_⟩
  exact (hw hplain.append_right).elements (hfirst hplain.append_left hstar.append_left)

/-- A comprehension in a display is foreign. -/
theorem display_foreign {l : Lexeme} {mid : List Token} {bracket : Bracket} (hsuffix : mid <:+ ts)
    (hfront : (front mid).lexeme = l) (hl : l = .keyword .for_ ∨ l = .keyword .async_) (e : Expr) :
    Ensures (do
      comprehension g
      expect (.closing bracket)
      pure e) mid fun _ rest => Foreign ts rest := by
  rw [ensures_bind]
  refine (comprehension_foreign hg hfront hl).mono fun _ behind hforeign => ?_
  rw [ensures_bind, ensures_expect]
  intro _
  rw [ensures_pure]
  exact hforeign.between hsuffix (List.tail_suffix behind)

theorem parenthesized_takes (hfront : (front ts).lexeme = .symbol (.opening .round)) :
    Ensures (parenthesized g) ts
      fun _ rest => Takes (Enclosed .round (Belongs .elements)) ts rest := by
  unfold parenthesized
  rw [ensures_bind, ensures_position, ensures_bind, ensures_advance, ensures_bind, ensures_accept]
  refine ⟨fun hclosing => ?_, fun _ => ?_⟩
  · rw [if_pos rfl, ensures_pure]
    exact takes_enclosed (by simp) hfront ⟨[], rfl, fun _ _ => .nothing⟩ hclosing
  rw [if_neg Bool.false_ne_true, ensures_bind, ensures_atKeyword, ensures_ite]
  refine ⟨fun hyield => ?_, fun _ => ?_⟩
  · rw [ensures_bind]
    refine ((yieldExpression_advances hg.toKeep).suffix_tail ts.tail).mono fun _ mid hmid => ?_
    rw [ensures_bind, ensures_expect]
    intro _
    rw [ensures_pure]
    have hforeign : Foreign ts.tail mid := .of_front (of_decide_eq_true hyield) (by simp) rfl hmid
    exact (hforeign.between (List.tail_suffix ts) (List.tail_suffix mid)).takes _
  rw [ensures_bind]
  refine (element_takes hg ts.tail).mono fun first mid hfirst => ?_
  have hsuffix : mid <:+ ts := (Takes.suffix hfirst).trans (List.tail_suffix ts)
  rw [ensures_bind]
  refine (atComprehension_ensures mid).mono fun found mid' hfound => ?_
  obtain ⟨rfl, hfound⟩ := hfound
  rw [ensures_ite]
  refine ⟨fun hsome => ?_, fun _ => ?_⟩
  · obtain ⟨l, hl, hcases⟩ := hfound hsome
    exact (display_foreign hg hsuffix hl hcases _).mono fun _ _ hforeign => hforeign.takes _
  rw [ensures_bind, ensures_atSymbol, ensures_ite]
  refine ⟨fun _ => display_takes hg (by simp) hfront hfirst _, fun _ => ?_⟩
  -- A single element without a comma.
  rw [ensures_bind, ensures_expect]
  intro hclosing
  rw [ensures_pure]
  apply takes_enclosed (by simp) hfront ?_ hclosing
  obtain ⟨w, hw, hbelongs⟩ := hfirst
  exact ⟨w, hw, fun hplain hstar => .last (hbelongs hplain hstar)⟩

theorem listDisplay_takes (hfront : (front ts).lexeme = .symbol (.opening .square)) :
    Ensures (listDisplay g) ts
      fun _ rest => Takes (Enclosed .square (Belongs .elements)) ts rest := by
  unfold listDisplay
  rw [ensures_bind, ensures_position, ensures_bind, ensures_advance, ensures_bind, ensures_accept]
  refine ⟨fun hclosing => ?_, fun _ => ?_⟩
  · rw [if_pos rfl, ensures_pure]
    exact takes_enclosed (by simp) hfront ⟨[], rfl, fun _ _ => .nothing⟩ hclosing
  rw [if_neg Bool.false_ne_true, ensures_bind]
  refine (element_takes hg ts.tail).mono fun first mid hfirst => ?_
  have hsuffix : mid <:+ ts := (Takes.suffix hfirst).trans (List.tail_suffix ts)
  rw [ensures_bind]
  refine (atComprehension_ensures mid).mono fun found mid' hfound => ?_
  obtain ⟨rfl, hfound⟩ := hfound
  rw [ensures_ite]
  refine ⟨fun hsome => ?_, fun _ => display_takes hg (by simp) hfront hfirst _⟩
  obtain ⟨l, hl, hcases⟩ := hfound hsome
  exact (display_foreign hg hsuffix hl hcases _).mono fun _ _ hforeign => hforeign.takes _

/-! ## Section 6: Primaries and powers -/

theorem atom_takes (ts : List Token) :
    Ensures (atom g) ts fun _ rest => Takes (Belongs .atom) ts rest := by
  have hdone : ∀ {l : Lexeme} {e : Expr}, (front ts).lexeme = l → l ≠ .endMarker →
      (∀ p, Belongs .atom [⟨l, p⟩]) → Ensures (do
        advance
        pure e) ts fun _ rest => Takes (Belongs .atom) ts rest := by
    intro l e hfront hl hbelongs
    obtain ⟨p, hts⟩ := eq_cons_of_front hfront hl
    rw [ensures_bind, ensures_advance, ensures_pure]
    exact ⟨[⟨l, p⟩], hts, fun _ => hbelongs p⟩
  unfold atom
  rw [ensures_bind, ensures_position, ensures_bind, ensures_peek]
  split
  case h_1 word hfront =>
    rw [ensures_ite]
    refine ⟨fun hconstant => hdone hfront (by simp) fun p => .constant ?_, fun _ => ?_⟩
    · cases word <;> simp_all [Keyword.values, Keyword.isConstant]
    · exact (ensures_fail _).mpr trivial
  case h_2 hfront => exact hdone hfront (by simp) fun _ => .name
  case h_3 hfront => exact hdone hfront (by simp) fun _ => .number
  case h_4 hfront =>
    refine (strings_ensures ts).mono fun _ rest hrest => ?_
    exact (Foreign.of_front hfront (by simp) rfl (hrest.2 _ _ _ hfront)).takes _
  case h_5 hfront =>
    refine (parenthesized_takes hg hfront).mono fun _ rest hrest => ?_
    obtain ⟨w, hw, henclosed⟩ := hrest
    refine ⟨w, hw, fun hplain => ?_⟩
    obtain ⟨p, inner, q, rfl, hinner⟩ := henclosed hplain
    exact .parenthesized hinner
  case h_6 hfront =>
    refine (listDisplay_takes hg hfront).mono fun _ rest hrest => ?_
    obtain ⟨w, hw, henclosed⟩ := hrest
    refine ⟨w, hw, fun hplain => ?_⟩
    obtain ⟨p, inner, q, rfl, hinner⟩ := henclosed hplain
    exact .list hinner
  case h_7 hfront =>
    refine ((braceDisplay_advances hg.toKeep).suffix_tail ts).mono fun _ rest hrest => ?_
    exact (Foreign.of_front hfront (by simp) rfl hrest).takes _
  case h_8 hfront => exact hdone hfront (by simp) fun _ => .ellipsis
  case h_9 => exact (ensures_fail _).mpr trivial

/-- A round of trailers reads one, or none and is done. -/
theorem nextTrailer_takes (start : Position) (read : Expr) (ts : List Token) :
    Ensures (nextTrailer g start read) ts fun next mid => match next with
      | .done _ => Takes (Belongs .trailers) ts mid
      | .again _ => Takes (Belongs .trailer) ts mid := by
  unfold nextTrailer
  rw [ensures_bind, ensures_accept]
  refine ⟨fun hdot => ?_, fun _ => ?_⟩
  · obtain ⟨p, hts⟩ := eq_cons_of_front hdot (by simp)
    rw [if_pos rfl, ensures_bind, ensures_name]
    intro x hname
    obtain ⟨q, htail⟩ := eq_cons_of_front hname (by simp)
    rw [ensures_pure]
    refine ⟨[⟨.symbol .dot, p⟩, ⟨.name x, q⟩], ?_, fun _ => .dotted ⟨x, rfl⟩⟩
    conv => lhs; rw [hts, htail]
    rfl
  rw [if_neg Bool.false_ne_true, ensures_bind, ensures_atSymbol, ensures_ite]
  refine ⟨fun _ => ?_, fun _ => ?_⟩
  · rw [ensures_bind]
    refine (arguments_takes hg ts).mono fun _ mid hmid => ?_
    rw [ensures_pure]
    obtain ⟨w, hw, henclosed⟩ := hmid
    refine ⟨w, hw, fun hplain => ?_⟩
    obtain ⟨p, inner, q, rfl, hinner⟩ := henclosed hplain
    exact .call hinner
  rw [ensures_bind, ensures_accept]
  refine ⟨fun hopening => ?_, fun _ => ?_⟩
  · rw [if_pos rfl, ensures_bind]
    refine (slices_takes hg ts.tail).mono fun _ mid hmid => ?_
    rw [ensures_bind, ensures_expect]
    intro hclosing
    rw [ensures_pure]
    obtain ⟨w, hw, henclosed⟩ := takes_enclosed (by simp) hopening hmid hclosing
    refine ⟨w, hw, fun hplain => ?_⟩
    obtain ⟨p, inner, q, rfl, hinner, hne⟩ := henclosed hplain
    exact .subscript hinner hne
  · rw [if_neg Bool.false_ne_true, ensures_pure]
    exact ⟨[], rfl, fun _ => .noTrailer⟩

theorem primary_takes (ts : List Token) :
    Ensures (primary g) ts fun _ rest => Takes (Belongs .primary) ts rest := by
  have htrailers : ∀ start first mid, Ensures (loop (nextTrailer g start) first) mid
      fun _ rest => Takes (Belongs .trailers) mid rest := by
    intro start first mid
    refine Ensures.loop_tokens (Takes (Belongs .trailers)) (fun read ts => ?_) first mid
    refine (nextTrailer_takes hg start read ts).mono fun next mid hnext => ?_
    cases next with
    | done => exact hnext
    | again => exact fun rest hrest => hnext.append hrest .trailer
  unfold primary
  rw [ensures_bind, ensures_position, ensures_bind]
  refine (atom_takes hg ts).mono fun first mid hatom => ?_
  exact (htrailers _ first mid).mono fun _ rest hrest => hatom.append hrest .trailed

theorem power_takes (ts : List Token) :
    Ensures (power g) ts fun _ rest => Takes (Belongs .power) ts rest := by
  -- Behind the base, a power may follow.
  have hraise : ∀ (start : Position) (awaited : Bool) (base : Expr) (mid : List Token),
      Takes (Belongs .awaited) ts mid →
      Ensures (do
        if ← accept .doubleStar then
          let _ ← g.factor
          pure ⟨.other, start⟩
        else if awaited then pure ⟨.other, start⟩
        else pure base) mid fun _ rest => Takes (Belongs .power) ts rest := by
    intro start awaited base mid hbase
    rw [ensures_bind, ensures_accept]
    refine ⟨fun hstars => ?_, fun _ => ?_⟩
    · rw [if_pos rfl, ensures_bind]
      refine (hg.takesFactor mid.tail).mono fun _ rest hexponent => ?_
      rw [ensures_pure]
      have hraised : Takes (fun w => ∃ p v, w = ⟨.symbol .doubleStar, p⟩ :: v ∧ Belongs .factor v)
          mid rest := hexponent.cons hstars (by simp) fun hv => ⟨_, _, rfl, hv⟩
      refine hbase.append hraised ?_
      rintro u _ hu ⟨p, v, rfl, hv⟩
      exact .raised hu hv
    · rw [if_neg Bool.false_ne_true, ensures_ite, ensures_pure, ensures_pure]
      exact ⟨fun _ => hbase.mono .base, fun _ => hbase.mono .base⟩
  unfold power
  rw [ensures_bind, ensures_position, ensures_bind, ensures_acceptKeyword]
  refine ⟨fun hawait => ?_, fun _ => ?_⟩
  · rw [ensures_bind]
    refine (primary_takes hg ts.tail).mono fun base mid hprimary => ?_
    apply hraise
    exact hprimary.cons hawait (by simp) .await_
  · rw [ensures_bind]
    refine (primary_takes hg ts).mono fun base mid hprimary => ?_
    exact hraise _ _ _ _ (hprimary.mono .primary)

/-! ## Section 7: The levels of operators -/

theorem factor_takes (ts : List Token) :
    Ensures (factor g) ts fun _ rest => Takes (Belongs .factor) ts rest := by
  unfold factor
  rw [ensures_bind, ensures_position, ensures_bind, ensures_acceptIf]
  refine ⟨fun hsign => ?_, fun _ => ?_⟩
  · rw [if_pos rfl, ensures_bind]
    refine (hg.takesFactor ts.tail).mono fun _ rest hfactor => ?_
    rw [ensures_pure]
    unfold isSign at hsign
    split at hsign
    case h_1 symbol hfront =>
      exact hfactor.cons hfront (by simp) (.signed ((mem_signs_iff symbol).mpr hsign))
    case h_2 => cases hsign
  · rw [if_neg Bool.false_ne_true]
    exact (power_takes hg ts).mono fun _ _ hpower => hpower.mono .unsigned

theorem binary_takes (levels : List (List Symbol)) (ts : List Token) :
    Ensures (binary g levels) ts fun _ rest => Takes (Belongs (.binary levels)) ts rest := by
  induction levels generalizing ts with
  | nil => exact factor_takes hg ts
  | cons level tighter ih => exact chain_takes (readsOperator_level level tighter) ih ts

theorem comparison_takes (ts : List Token) :
    Ensures (comparison g) ts fun _ rest => Takes (Belongs (.chain .compare)) ts rest :=
  chain_takes readsOperator_comparison (binary_takes hg Symbol.binaryLevels) ts

theorem inversion_takes (ts : List Token) :
    Ensures (inversion g) ts fun _ rest => Takes (Belongs .inversion) ts rest := by
  unfold inversion
  rw [ensures_bind, ensures_position, ensures_bind, ensures_acceptKeyword]
  refine ⟨fun hnot => ?_, fun _ => ?_⟩
  · rw [if_pos rfl, ensures_bind]
    refine (hg.takesInversion ts.tail).mono fun _ rest hinversion => ?_
    rw [ensures_pure]
    exact hinversion.cons hnot (by simp) .inverted
  · rw [if_neg Bool.false_ne_true]
    exact (comparison_takes hg ts).mono fun _ _ hcomparison => hcomparison.mono .comparison

theorem disjunction_takes (ts : List Token) :
    Ensures (disjunction g) ts fun _ rest => Takes (Belongs (.chain .or_)) ts rest := by
  have hconjunction : ∀ ts, Ensures (conjunction g) ts
      fun _ rest => Takes (Belongs (.chain .and_)) ts rest :=
    chain_takes (readsOperator_keyword fun _ => .and_) (inversion_takes hg)
  exact chain_takes (readsOperator_keyword fun _ => .or_) hconjunction ts

theorem expression_takes (ts : List Token) :
    Ensures (expression g) ts fun _ rest => Takes (Belongs .expression) ts rest := by
  unfold expression
  rw [ensures_bind, ensures_position, ensures_bind, ensures_atKeyword, ensures_ite]
  refine ⟨fun hlambda => ?_, fun _ => ?_⟩
  · refine ((lambda_advances hg.toKeep).suffix_tail ts).mono fun _ rest hrest => ?_
    exact (Foreign.of_front (of_decide_eq_true hlambda) (by simp) rfl hrest).takes _
  rw [ensures_bind]
  refine (disjunction_takes hg ts).mono fun _ mid hvalue => ?_
  rw [ensures_bind, ensures_acceptKeyword]
  refine ⟨fun hif => ?_, fun _ => ?_⟩
  · rw [if_pos rfl, ensures_bind]
    refine (hg.takesDisjunction mid.tail).mono fun _ mid' htest => ?_
    rw [ensures_bind, ensures_expectKeyword]
    intro helse
    rw [ensures_bind]
    refine (hg.takesExpression mid'.tail).mono fun _ rest hother => ?_
    rw [ensures_pure]
    -- The condition and the alternative, each with its keyword.
    have halternative : Takes (fun w => ∃ q v, w = ⟨.keyword .else_, q⟩ :: v ∧ Belongs .expression v)
        mid' rest := hother.cons helse (by simp) fun hv => ⟨_, _, rfl, hv⟩
    have hboth : Takes (fun w => ∃ q u v, w = u ++ ⟨.keyword .else_, q⟩ :: v ∧
        Belongs (.chain .or_) u ∧ Belongs .expression v) mid.tail rest := by
      refine htest.append halternative ?_
      rintro u _ hu ⟨q, v, rfl, hv⟩
      exact ⟨q, u, v, rfl, hu, hv⟩
    have hcondition : Takes (fun w => ∃ p q u v,
        w = ⟨.keyword .if_, p⟩ :: (u ++ ⟨.keyword .else_, q⟩ :: v) ∧
          Belongs (.chain .or_) u ∧ Belongs .expression v) mid rest := by
      refine hboth.cons hif (by simp) ?_
      rintro _ p ⟨q, u, v, rfl, hu, hv⟩
      exact ⟨p, q, u, v, rfl, hu, hv⟩
    refine hvalue.append hcondition ?_
    rintro value _ hvalue ⟨p, q, test, other, rfl, htest, hother⟩
    exact .conditional hvalue htest hother
  · rw [if_neg Bool.false_ne_true, ensures_pure]
    exact hvalue.mono .value

/-! ## Section 8: The knot -/

omit hg in
theorem grammarUpTo_sound (fuel : List Token) : (grammarUpTo fuel).Sound := by
  induction fuel with
  | nil =>
    have hspent : ∀ {words : List Token → Prop} (ts : List Token),
        Ensures (spent : Parser Expr) ts fun _ rest => Takes words ts rest :=
      fun ts => ensures_spent.mpr trivial
    exact ⟨grammarUpTo_keep [], hspent, hspent, hspent, hspent⟩
  | cons t fuel ih =>
    exact ⟨grammarUpTo_keep (t :: fuel), expression_takes ih, disjunction_takes ih,
      inversion_takes ih, factor_takes ih⟩

end Grammar

/-- What the parser of expressions reads is a word of the language, if it
    is plain. -/
theorem grammar_sound (ts : List Token) :
    Ensures grammar.expression ts fun _ rest => Takes (Belongs .expression) ts rest :=
  (Grammar.expression_takes (Grammar.grammarUpTo_sound ts) ts).congr rfl

end StyleCheck
