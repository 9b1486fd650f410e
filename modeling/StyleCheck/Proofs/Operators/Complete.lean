import StyleCheck.Proofs.Operators.Sound

/-! # What an Expression Has to Read

    A word of the language is read by the parser of its category, up to
    its end and no further, if what stands behind it cannot go on with
    it.  How far a word may go on is a matter of levels: an operator ends
    the words that bind tighter.

    * `Category.Reads`: how the words of each category are read.
    * `Derives.reads`: every word is, by induction on how it is derived.
    * **`expression_language`**: the words that are read are those of
      the language.
-/

namespace StyleCheck

open StyleCheck.Parser

/-! ## Section 1: Behind a word -/

/-- Which words may go on with a lexeme: everything behind an atom, a
    power behind a primary, and then operators from tight to loose. -/
def Lexeme.endLevel : Lexeme → Nat
  | symbol .dot | symbol (.opening .round) | symbol (.opening .square) => 0
  | symbol .doubleStar => 1
  | symbol .star | symbol .slash | symbol .doubleSlash | symbol .percent | symbol .atSign => 2
  | symbol .plus | symbol .minus => 3
  | symbol .leftShift | symbol .rightShift => 4
  | symbol .ampersand => 5
  | symbol .caret => 6
  | symbol .bar => 7
  | symbol .less | symbol .greater | symbol .doubleEqual | symbol .greaterEqual
  | symbol .lessEqual | symbol .notEqual => 8
  | keyword .in_ | keyword .not_ | keyword .is_ => 8
  | keyword .and_ => 9
  | keyword .or_ => 10
  | keyword .if_ => 11
  | _ => 12

namespace Category

/-- The level of what ends the words of a category. -/
def endLevel : Category → Nat
  | atom | trailer => 0
  | primary | trailers | awaited => 1
  | power | factor => 2
  | chain (.binary _ tighter) => tighter.length + 3
  | chain .compare | inversion => 9
  | chain .and_ => 10
  | chain .or_ => 11
  | expression | elements => 12

theorem endLevel_binary (levels : List (List Symbol)) :
    (binary levels).endLevel = levels.length + 2 := by
  cases levels <;> rfl

/-- The levels of a chain are levels of the language. -/
def IsValid : Category → Prop
  | chain (.binary level tighter) => level :: tighter <:+ Symbol.precedence
  | _ => True

theorem isValid_binary {levels : List (List Symbol)} (h : levels <:+ Symbol.precedence) :
    (binary levels).IsValid := by
  cases levels with
  | nil => trivial
  | cons level tighter => exact h

end Category

namespace Link

variable {link : Link} {level : List Symbol} {tighter : List (List Symbol)} {symbol : Symbol}

theorem isValid_operand (h : (Category.chain link).IsValid) : link.operand.IsValid := by
  cases link with
  | or_ | and_ => trivial
  | compare => exact Category.isValid_binary (List.suffix_refl _)
  | binary level tighter => exact Category.isValid_binary ((List.suffix_cons _ _).trans h)

theorem endLevel_operand (link : Link) :
    (Category.chain link).endLevel = link.operand.endLevel + 1 := by
  cases link with
  | or_ | and_ | compare => rfl
  | binary level tighter => exact (congrArg (· + 1) (Category.endLevel_binary tighter)).symm

/-- The symbols of a level of binary operators. -/
theorem level_cases (h : level :: tighter <:+ Symbol.precedence) (hmem : symbol ∈ level) :
    (Lexeme.symbol symbol).endLevel = tighter.length + 2 ∧
      (Lexeme.symbol symbol).isPlain = true := by
  simp only [Symbol.precedence, List.suffix_cons_iff, List.suffix_nil, List.cons.injEq,
    List.cons_ne_nil, or_false] at h
  rcases h with ⟨rfl, rfl⟩ | ⟨rfl, rfl⟩ | ⟨rfl, rfl⟩ | ⟨rfl, rfl⟩ | ⟨rfl, rfl⟩ | ⟨rfl, rfl⟩ <;>
    simp only [List.mem_cons, List.not_mem_nil, or_false] at hmem <;>
    rcases hmem with rfl | rfl | rfl | rfl | rfl <;> exact ⟨rfl, rfl⟩

/-- An operator ends its operands. -/
theorem IsOperator.endLevel {w : List Token} (h : link.IsOperator w)
    (hvalid : (Category.chain link).IsValid) (rest : List Token) :
    (front (w ++ rest)).lexeme.endLevel = link.operand.endLevel := by
  cases h with
  | or_ | and_ | in_ | notIn | is_ | isNot => rfl
  | comparison hmem =>
    simp only [Symbol.comparisons, List.mem_cons, List.not_mem_nil, or_false] at hmem
    rcases hmem with rfl | rfl | rfl | rfl | rfl | rfl <;> rfl
  | binary hmem => exact (level_cases hvalid hmem).1.trans (Category.endLevel_binary _).symm

theorem IsOperator.length_pos {w : List Token} (h : link.IsOperator w) : 0 < w.length := by
  cases h <;> simp

theorem IsOperator.isPlain {w : List Token} (h : link.IsOperator w)
    (hvalid : (Category.chain link).IsValid) : ∀ t ∈ w, t.lexeme.isPlain = true := by
  cases h with
  | or_ | and_ | in_ | notIn | is_ | isNot =>
    simp [Lexeme.isPlain, Keyword.plain]
  | comparison hmem =>
    simp [Lexeme.isPlain, Symbol.plain, hmem]
  | binary hmem => simpa using (level_cases hvalid hmem).2

end Link

/-- The words of the language are written with its tokens. -/
theorem Derives.isPlain {c : Category} {w : List Token} (h : Belongs c w) (hvalid : c.IsValid) :
    ∀ t ∈ w, t.lexeme.isPlain = true := by
  induction h with
  | value _ ih => exact ih trivial
  | conditional _ _ _ ihvalue ihtest ihother =>
    simp only [List.forall_mem_append, List.forall_mem_cons]
    exact ⟨ihvalue trivial, rfl, ihtest trivial, rfl, ihother trivial⟩
  | operand _ ih => exact ih (Link.isValid_operand hvalid)
  | linked _ hoperator _ ihfirst ihothers =>
    simp only [List.forall_mem_append]
    exact ⟨ihfirst (Link.isValid_operand hvalid), hoperator.isPlain hvalid, ihothers hvalid⟩
  | inverted _ ih | await_ _ ih =>
    simp only [List.forall_mem_cons]
    exact ⟨rfl, ih trivial⟩
  | signed hsign _ ih =>
    simp only [List.forall_mem_cons]
    refine ⟨?_, ih trivial⟩
    simp only [Symbol.signs, List.mem_cons, List.not_mem_nil, or_false] at hsign
    rcases hsign with rfl | rfl | rfl <;> rfl
  | comparison _ ih | unsigned _ ih | base _ ih | primary _ ih | last _ ih => exact ih trivial
  | raised _ _ ihfirst ihothers | more _ _ ihfirst ihothers =>
    simp only [List.forall_mem_append, List.forall_mem_cons]
    exact ⟨ihfirst trivial, rfl, ihothers trivial⟩
  | trailed _ _ ihfirst ihothers | trailer _ _ ihfirst ihothers =>
    simp only [List.forall_mem_append]
    exact ⟨ihfirst trivial, ihothers trivial⟩
  | noTrailer | nothing => simp
  | dotted h =>
    obtain ⟨x, rfl⟩ := h
    simp only [List.forall_mem_cons]
    exact ⟨rfl, rfl, by simp⟩
  | call _ ih | subscript _ _ ih | parenthesized _ ih | list _ ih =>
    simp only [List.forall_mem_append, List.forall_mem_cons]
    exact ⟨rfl, ih trivial, rfl, by simp⟩
  | name | number | ellipsis => simp only [List.forall_mem_cons]; exact ⟨rfl, by simp⟩
  | constant hword =>
    simp only [Keyword.values, List.mem_cons, List.not_mem_nil, or_false] at hword
    rcases hword with rfl | rfl | rfl <;> simp <;> rfl

/-! ## Section 2: Elements -/

/-- A parser reads a word in front of `rest`, and no further. -/
def Reads {α : Type} (p : Parser α) (w rest : List Token) : Prop :=
  ∃ a, p (w ++ rest) = .ok (a, rest)

/-- Words between commas, and perhaps a comma at the end. -/
inductive Listed (words : List Token → Prop) : List Token → Prop where
  | nothing : Listed words []
  | last {w : List Token} (h : words w) : Listed words w
  | more {w ws : List Token} {p : Position} (hfirst : words w) (hothers : Listed words ws) :
      Listed words (w ++ ⟨.symbol .comma, p⟩ :: ws)

/-- A word that a parser reads, wherever the word can end. -/
structure IsElement (p : Parser Expr) (w : List Token) : Prop where
  starts : StartsAt 3 w
  plain : ∀ t ∈ w, t.lexeme.isPlain = true
  reads : ∀ rest, 12 ≤ (front rest).lexeme.endLevel → Reads p w rest

/-- What stands behind an element. -/
def Lexeme.endsElement : Lexeme → Bool
  | symbol .comma | symbol (.closing _) => true
  | _ => false

theorem Lexeme.endLevel_of_endsElement {l : Lexeme} (h : l.endsElement = true) :
    l.endLevel = 12 := by
  unfold endsElement at h
  split at h
  case h_1 | h_2 => rfl
  case h_3 => cases h

/-- A first token is none of the others. -/
theorem StartsAt.front_ne {level : Nat} {w : List Token} {l : Lexeme} (h : StartsAt level w)
    (hl : level < l.startLevel) (rest : List Token) : (front (w ++ rest)).lexeme ≠ l := by
  obtain ⟨token, w', rfl, hlevel⟩ := h
  rintro rfl
  exact absurd hl (Nat.not_lt.mpr hlevel)

/-- No comprehension starts behind an element. -/
theorem atComprehension_of_endsElement {ts : List Token}
    (h : (front ts).lexeme.endsElement = true) : Grammar.atComprehension ts = .ok (false, ts) := by
  have hfor : (front ts).lexeme ≠ .keyword .for_ := fun hfor => by
    rw [hfor] at h
    cases h
  have hasync : (front ts).lexeme ≠ .keyword .async_ := fun hasync => by
    rw [hasync] at h
    cases h
  simp only [Grammar.atComprehension, bind_apply, peek_apply, Result.andThen_ok]
  rfl

namespace IsElement

open Grammar

variable {g : Nonterminals} {w : List Token} (h : IsElement g.expression w) (rest : List Token)
  (hrest : (front rest).lexeme.endsElement = true)

include h hrest

/-- The second token is one of the language, or stands behind the element. -/
theorem second_ne {l : Lexeme} (hplain : l.isPlain = false) (hends : l.endsElement = false) :
    (front (w ++ rest).tail).lexeme ≠ l := by
  rintro rfl
  obtain ⟨token, w', rfl, _⟩ := h.starts
  cases w' with
  | nil => exact absurd hrest (by simpa using hends)
  | cons second w' =>
    have := h.plain second (by simp)
    exact absurd this (by simpa using hplain)

theorem namedExpression : Reads (namedExpression g) w rest := by
  obtain ⟨e, he⟩ := h.reads rest (Nat.le_of_eq (Lexeme.endLevel_of_endsElement hrest).symm)
  have hsecond := h.second_ne rest hrest (l := .symbol .colonEqual) rfl rfl
  exact ⟨e, by simp [Grammar.namedExpression, hsecond, he]⟩

theorem element : Reads (element g) w rest := by
  obtain ⟨e, he⟩ := h.namedExpression rest hrest
  have hstar := h.starts.front_ne (l := .symbol .star) (by decide) rest
  exact ⟨e, by simp [Grammar.element, hstar, he]⟩

theorem argument : Reads (argument g) w rest := by
  obtain ⟨e, he⟩ := h.namedExpression rest hrest
  have hstar := h.starts.front_ne (l := .symbol .star) (by decide) rest
  have hstars := h.starts.front_ne (l := .symbol .doubleStar) (by decide) rest
  have hsecond := h.second_ne rest hrest (l := .symbol .equal) rfl rfl
  have hno := atComprehension_of_endsElement hrest
  exact ⟨(), by simp [Grammar.argument, hstar, hstars, hsecond, he, hno]⟩

theorem slice : Reads (slice g) w rest := by
  obtain ⟨e, he⟩ := h.namedExpression rest hrest
  have hstar := h.starts.front_ne (l := .symbol .star) (by decide) rest
  have hcolon := h.starts.front_ne (l := .symbol .colon) (by decide) rest
  have hno : (front rest).lexeme ≠ .symbol .colon := fun hcolon => by
    rw [hcolon] at hrest
    cases hrest
  exact ⟨(), by simp [Grammar.slice, hstar, hcolon, he, hno]⟩

end IsElement

/-! ## Section 3: Lists -/

namespace Listed

open Grammar

variable {g : Nonterminals} {w : List Token}

/-- A list that is not empty starts with an element. -/
theorem exists_first {words : List Token → Prop} (h : Listed words w) (hne : w ≠ []) :
    ∃ first later, w = first ++ later ∧ words first ∧
      (later = [] ∨ ∃ p others, later = ⟨.symbol .comma, p⟩ :: others ∧ Listed words others) := by
  cases h with
  | nothing => exact absurd rfl hne
  | last h => exact ⟨w, [], (List.append_nil w).symm, h, .inl rfl⟩
  | more hfirst hothers => exact ⟨_, _, rfl, hfirst, .inr ⟨_, _, rfl, hothers⟩⟩

theorem front_ne {p : Parser Expr} {l : Lexeme} (h : Listed (IsElement p) w) (hne : w ≠ [])
    (hl : 3 < l.startLevel) (rest : List Token) : (front (w ++ rest)).lexeme ≠ l := by
  obtain ⟨first, later, rfl, hfirst, _⟩ := h.exists_first hne
  rw [List.append_assoc]
  exact hfirst.starts.front_ne hl _

/-- The elements of a display behind a comma. -/
theorem repeats_nextElement (h : Listed (IsElement g.expression) w) (closer : Bracket)
    (p q : Position) (rest : List Token) :
    Repeats (nextElement g closer)
      (⟨.symbol .comma, p⟩ :: (w ++ ⟨.symbol (.closing closer), q⟩ :: rest))
      (⟨.symbol (.closing closer), q⟩ :: rest) := by
  induction h generalizing p with
  | nothing => exact .stop (by simp [nextElement])
  | @last w h =>
    obtain ⟨e, he⟩ := h.element (⟨.symbol (.closing closer), q⟩ :: rest) rfl
    have hclosing := h.starts.front_ne (l := .symbol (.closing closer)) (Nat.lt_succ_self 3)
    have hstop : nextElement g closer (⟨.symbol (.closing closer), q⟩ :: rest) =
        .ok (false, ⟨.symbol (.closing closer), q⟩ :: rest) := by simp [nextElement]
    refine .next ?_ ?_ (.stop hstop)
    · simp [nextElement, hclosing, he]
    · simp only [List.length_append, List.length_cons]
      omega
  | @more w ws p' hfirst _ ih =>
    obtain ⟨e, he⟩ := hfirst.element
      (⟨.symbol .comma, p'⟩ :: (ws ++ ⟨.symbol (.closing closer), q⟩ :: rest)) rfl
    have hclosing := hfirst.starts.front_ne (l := .symbol (.closing closer)) (Nat.lt_succ_self 3)
    refine .next ?_ ?_ (ih p')
    · simp [nextElement, hclosing, he]
    · simp only [List.length_append, List.length_cons]
      omega

/-- The first element of a display, and what is read behind it. -/
theorem exists_element (h : Listed (IsElement g.expression) w) (hne : w ≠ []) (closer : Bracket)
    (q : Position) (rest : List Token) : ∃ first later, w = first ++ later ∧
      Reads (element g) first (later ++ ⟨.symbol (.closing closer), q⟩ :: rest) ∧
      (front (later ++ ⟨.symbol (.closing closer), q⟩ :: rest)).lexeme.endsElement = true ∧
      repeatWhile (nextElement g closer) (later ++ ⟨.symbol (.closing closer), q⟩ :: rest) =
        .ok ((), ⟨.symbol (.closing closer), q⟩ :: rest) ∧
      (later = [] ∨
        (front (later ++ ⟨.symbol (.closing closer), q⟩ :: rest)).lexeme = .symbol .comma) := by
  obtain ⟨first, later, rfl, hfirst, rfl | ⟨p, others, rfl, hothers⟩⟩ := h.exists_first hne
  · exact ⟨first, [], rfl, hfirst.element _ rfl, rfl,
      repeatWhile_of_false (by simp [nextElement]), .inl rfl⟩
  · exact ⟨first, _, rfl, hfirst.element _ rfl, rfl,
      repeatWhile_of_repeats (hothers.repeats_nextElement closer p q rest), .inr rfl⟩

/-- The arguments of a call. -/
theorem repeats_nextArgument (h : Listed (IsElement g.expression) w) (q : Position)
    (rest : List Token) :
    Repeats (nextArgument g) (w ++ ⟨.symbol (.closing .round), q⟩ :: rest)
      (⟨.symbol (.closing .round), q⟩ :: rest) := by
  induction h with
  | nothing => exact .stop (by simp [nextArgument])
  | @last w h =>
    obtain ⟨e, he⟩ := h.argument (⟨.symbol (.closing .round), q⟩ :: rest) rfl
    have hclosing := h.starts.front_ne (l := .symbol (.closing .round)) (by decide)
    exact .stop (by simp [nextArgument, hclosing, he])
  | @more w ws p hfirst _ ih =>
    obtain ⟨e, he⟩ := hfirst.argument
      (⟨.symbol .comma, p⟩ :: (ws ++ ⟨.symbol (.closing .round), q⟩ :: rest)) rfl
    have hclosing := hfirst.starts.front_ne (l := .symbol (.closing .round)) (by decide)
    refine .next ?_ ?_ ih
    · simp [nextArgument, hclosing, he]
    · simp only [List.length_append, List.length_cons]
      omega

/-- The subscripts between square brackets. -/
theorem repeats_nextSlice (h : Listed (IsElement g.expression) w) (hne : w ≠ []) (q : Position)
    (rest : List Token) :
    Repeats (nextSlice g) (w ++ ⟨.symbol (.closing .square), q⟩ :: rest)
      (⟨.symbol (.closing .square), q⟩ :: rest) := by
  induction h with
  | nothing => exact absurd rfl hne
  | @last w h =>
    obtain ⟨e, he⟩ := h.slice (⟨.symbol (.closing .square), q⟩ :: rest) rfl
    exact .stop (by simp [nextSlice, he])
  | @more w ws p hfirst hothers ih =>
    obtain ⟨e, he⟩ := hfirst.slice
      (⟨.symbol .comma, p⟩ :: (ws ++ ⟨.symbol (.closing .square), q⟩ :: rest)) rfl
    by_cases hws : ws = []
    · subst hws
      rw [List.nil_append] at he
      exact .stop (by simp [nextSlice, he])
    · have hclosing := hothers.front_ne hws (l := .symbol (.closing .square)) (by decide)
      refine .next ?_ ?_ (ih hws)
      · simp [nextSlice, he, hclosing]
      · simp only [List.length_append, List.length_cons]
        omega

end Listed

/-! ## Section 4: Chains -/

/-- A parser does not fail. -/
def Succeeds {α : Type} (p : Parser α) (ts : List Token) : Prop := ∃ a rest, p ts = .ok (a, rest)

theorem Succeeds.bind {α β : Type} {p : Parser α} {f : α → Parser β} {ts mid : List Token} {a : α}
    (h : p ts = .ok (a, mid)) (hf : Succeeds (f a) mid) : Succeeds (p >>= f) ts := by
  obtain ⟨b, rest, hb⟩ := hf
  exact ⟨b, rest, by simp [h, hb]⟩

namespace Link

open Grammar

variable {link : Link} {rest : List Token}

/-- The parser that looks for an operator of a chain. -/
def operator : Link → Parser Bool
  | or_ => acceptKeyword .or_
  | and_ => acceptKeyword .and_
  | compare => acceptComparison
  | binary level _ => acceptIf (isOneOf level)

/-- The parser of the operands of a chain. -/
def operandParser (g : Nonterminals) : Link → Parser Expr
  | or_ => conjunction g
  | and_ => inversion g
  | compare => Grammar.operand g
  | binary _ tighter => Grammar.binary g tighter

/-- An operator is read.  Behind `is` there is no `not`, since an operand
    of a comparison does not start with it. -/
theorem IsOperator.read {w : List Token} (h : link.IsOperator w)
    (hrest : link = .compare → (front rest).lexeme ≠ .keyword .not_) :
    link.operator (w ++ rest) = .ok (true, rest) := by
  cases h with
  | or_ | and_ => simp [operator]
  | comparison hmem =>
    have hcomparison := (mem_comparisons_iff _).mp hmem
    simp [operator, acceptComparison, hcomparison]
  | in_ | notIn | isNot => simp [operator, acceptComparison]
  | is_ => simp [operator, acceptComparison, hrest rfl]
  | binary hmem => simp [operator, isOneOf, hmem]

/-- Looking for an operator does not fail. -/
theorem operator_succeeds (link : Link) (ts : List Token) : Succeeds link.operator ts := by
  have hacceptIf : ∀ q ts, Succeeds (acceptIf q) ts := by
    intro q ts
    unfold Succeeds
    rw [acceptIf_apply]
    split <;> exact ⟨_, _, rfl⟩
  cases link with
  | or_ => exact hacceptIf (· == .keyword .or_) ts
  | and_ => exact hacceptIf (· == .keyword .and_) ts
  | binary level => exact hacceptIf (isOneOf level) ts
  | compare =>
    change Succeeds acceptComparison ts
    unfold acceptComparison
    refine Succeeds.bind (peek_apply ts) ?_
    split
    case h_1 symbol _ => cases symbol.isComparison <;> exact ⟨_, _, rfl⟩
    case h_2 | h_5 => exact ⟨_, _, rfl⟩
    case h_3 =>
      refine Succeeds.bind (peekSecond_apply ts) ?_
      split <;> exact ⟨_, _, rfl⟩
    case h_4 =>
      obtain ⟨_, mid, hnot⟩ := hacceptIf (· == .keyword .not_) ts.tail
      exact Succeeds.bind (advance_apply ts) (Succeeds.bind hnot ⟨_, mid, rfl⟩)

theorem readsOperator (link : Link) : ReadsOperator link link.operator := by
  cases link with
  | or_ => exact readsOperator_keyword fun _ => .or_
  | and_ => exact readsOperator_keyword fun _ => .and_
  | compare => exact readsOperator_comparison
  | binary level tighter => exact readsOperator_level level tighter

/-- No operator of a chain is there where its words end. -/
theorem operator_of_endLevel (hvalid : (Category.chain link).IsValid)
    (hrest : (Category.chain link).endLevel ≤ (front rest).lexeme.endLevel) :
    link.operator rest = .ok (false, rest) := by
  obtain ⟨found, mid, hfound⟩ := link.operator_succeeds rest
  have hread := link.readsOperator rest found mid hfound
  cases found with
  | false => rw [hfound, hread]
  | true =>
    obtain ⟨w, rfl, hw⟩ := hread
    rw [hw.endLevel hvalid, link.endLevel_operand] at hrest
    omega

end Link

/-- The rounds of a loop read a word in front of `rest`. -/
def ReadsRounds {σ : Type} (body : σ → Parser (Next σ σ)) (w rest : List Token) : Prop :=
  ∀ state, ∃ result, Rounds body state (w ++ rest) result rest

namespace Grammar

variable {g : Nonterminals} {w rest : List Token} {p q : Position}

/-- A chain reads its first operand, and the others in rounds. -/
def ReadsChain (g : Nonterminals) (link : Link) (w rest : List Token) : Prop :=
  ∃ first others, w = first ++ others ∧ Reads (link.operandParser g) first (others ++ rest) ∧
    ∀ start, ReadsRounds (nextOperand link.operator (link.operandParser g) start) others rest

theorem ReadsChain.reads {link : Link} (h : ReadsChain g link w rest) :
    Reads (chain link.operator (link.operandParser g)) w rest := by
  obtain ⟨first, others, rfl, ⟨e, hfirst⟩, hrounds⟩ := h
  obtain ⟨result, hothers⟩ := hrounds (front (first ++ others ++ rest)).position e
  refine ⟨result, ?_⟩
  rw [List.append_assoc] at hothers ⊢
  simp [chain, hfirst, loop_of_rounds hothers]

theorem disjunction_reads (h : ReadsChain g .or_ w rest) : Reads (disjunction g) w rest := h.reads

theorem comparison_reads (h : ReadsChain g .compare w rest) : Reads (comparison g) w rest := h.reads

theorem readsChain_operand {link : Link} (h : Reads (link.operandParser g) w rest)
    (hend : link.operator rest = .ok (false, rest)) : ReadsChain g link w rest := by
  refine ⟨w, [], (List.append_nil w).symm, h, fun start read => ⟨read, .done ?_⟩⟩
  simp [nextOperand, hend]

/-- An operand and an operator in front of a chain. -/
theorem readsChain_linked {link : Link} {first operator others : List Token}
    (hfirst : Reads (link.operandParser g) first (operator ++ (others ++ rest)))
    (hoperator : link.operator (operator ++ (others ++ rest)) = .ok (true, others ++ rest))
    (hlength : 0 < operator.length) (hothers : ReadsChain g link others rest) :
    ReadsChain g link (first ++ (operator ++ others)) rest := by
  obtain ⟨second, others, rfl, ⟨e, hsecond⟩, hrounds⟩ := hothers
  refine ⟨first, _, rfl, by simpa using hfirst, fun start read => ?_⟩
  obtain ⟨result, hresult⟩ := hrounds start ⟨.other, start⟩
  refine ⟨result, .again ?_ ?_ hresult⟩
  · rw [List.append_assoc] at hoperator
    simp [nextOperand, hoperator, hsecond]
  · simp
    omega

/-! ## Section 5: Operators and operands -/

theorem expression_reads_value (h : Reads (disjunction g) w rest) (hstart : StartsAt 3 w)
    (hrest : 12 ≤ (front rest).lexeme.endLevel) : Reads (expression g) w rest := by
  obtain ⟨e, he⟩ := h
  have hlambda := hstart.front_ne (l := .keyword .lambda_) (by decide) rest
  have hif : (front rest).lexeme ≠ .keyword .if_ := fun hif => by
    rw [hif] at hrest
    exact absurd hrest (by decide)
  exact ⟨e, by simp [expression, hlambda, he, hif]⟩

theorem expression_reads_conditional {value test other : List Token}
    (hvalue : Reads (disjunction g) value
      (⟨.keyword .if_, p⟩ :: (test ++ ⟨.keyword .else_, q⟩ :: (other ++ rest))))
    (hstart : StartsAt 3 value)
    (htest : Reads g.disjunction test (⟨.keyword .else_, q⟩ :: (other ++ rest)))
    (hother : Reads g.expression other rest) :
    Reads (expression g)
      (value ++ ⟨.keyword .if_, p⟩ :: (test ++ ⟨.keyword .else_, q⟩ :: other)) rest := by
  obtain ⟨_, hvalue⟩ := hvalue
  obtain ⟨_, htest⟩ := htest
  obtain ⟨_, hother⟩ := hother
  have hlambda := hstart.front_ne (l := .keyword .lambda_) (by decide)
  exact ⟨_, by simp [expression, hlambda, hvalue, htest, hother]; rfl⟩

theorem inversion_reads_inverted (h : Reads g.inversion w rest) :
    Reads (inversion g) (⟨.keyword .not_, p⟩ :: w) rest := by
  obtain ⟨_, h⟩ := h
  exact ⟨_, by simp [inversion, h]; rfl⟩

theorem inversion_reads_comparison (h : Reads (comparison g) w rest) (hstart : StartsAt 2 w) :
    Reads (inversion g) w rest := by
  obtain ⟨e, he⟩ := h
  have hnot := hstart.front_ne (l := .keyword .not_) (by decide) rest
  exact ⟨e, by simp [inversion, hnot, he]⟩

theorem factor_reads_signed {symbol : Symbol} (hsign : symbol ∈ Symbol.signs)
    (h : Reads g.factor w rest) : Reads (factor g) (⟨.symbol symbol, p⟩ :: w) rest := by
  obtain ⟨_, h⟩ := h
  have hsign := (mem_signs_iff symbol).mp hsign
  exact ⟨_, by simp [factor, isSign, hsign, h]; rfl⟩

theorem factor_reads_power (h : Reads (power g) w rest) (hstart : StartsAt 1 w) :
    Reads (factor g) w rest := by
  obtain ⟨e, he⟩ := h
  have hsign : isSign (front (w ++ rest)).lexeme = false := by
    unfold isSign
    split
    case h_1 symbol hfront =>
      cases hs : symbol.isSign with
      | false => rfl
      | true =>
        have hne : (front (w ++ rest)).lexeme ≠ .symbol symbol := by
          refine hstart.front_ne (Nat.lt_of_succ_le (Nat.le_of_eq ?_)) rest
          exact (startLevel_of_mem_signs ((mem_signs_iff symbol).mpr hs)).symm
        exact absurd hfront hne
    case h_2 => rfl
  exact ⟨e, by simp [factor, hsign, he]⟩

/-- A primary, perhaps behind `await`. -/
def ReadsAwaited (g : Nonterminals) (w rest : List Token) : Prop :=
  ∃ awaited mid, acceptKeyword .await_ (w ++ rest) = .ok (awaited, mid) ∧
    ∃ e, primary g mid = .ok (e, rest)

theorem readsAwaited_await (h : Reads (primary g) w rest) :
    ReadsAwaited g (⟨.keyword .await_, p⟩ :: w) rest :=
  ⟨true, w ++ rest, by simp, h⟩

theorem readsAwaited_primary (h : Reads (primary g) w rest) (hstart : StartsAt 0 w) :
    ReadsAwaited g w rest := by
  have hawait := hstart.front_ne (l := .keyword .await_) (by decide) rest
  exact ⟨false, w ++ rest, by simp [hawait], h⟩

theorem power_reads_base (h : ReadsAwaited g w rest) (hrest : 2 ≤ (front rest).lexeme.endLevel) :
    Reads (power g) w rest := by
  obtain ⟨awaited, mid, hawait, e, he⟩ := h
  have hstars : (front rest).lexeme ≠ .symbol .doubleStar := fun hstars => by
    rw [hstars] at hrest
    exact absurd hrest (by decide)
  unfold power Reads
  cases awaited <;> simp [-acceptKeyword_apply, hawait, he, hstars]

theorem power_reads_raised {base exponent : List Token}
    (hbase : ReadsAwaited g base (⟨.symbol .doubleStar, p⟩ :: (exponent ++ rest)))
    (hexponent : Reads g.factor exponent rest) :
    Reads (power g) (base ++ ⟨.symbol .doubleStar, p⟩ :: exponent) rest := by
  obtain ⟨awaited, mid, hawait, e, he⟩ := hbase
  obtain ⟨_, hexponent⟩ := hexponent
  unfold power Reads
  simp [-acceptKeyword_apply, hawait, he, hexponent]

/-! ## Section 6: Primaries -/

theorem primary_reads {trailers : List Token} (hatom : Reads (atom g) w (trailers ++ rest))
    (htrailers : ∀ start, ReadsRounds (nextTrailer g start) trailers rest) :
    Reads (primary g) (w ++ trailers) rest := by
  obtain ⟨e, he⟩ := hatom
  obtain ⟨result, hrounds⟩ := htrailers (front (w ++ trailers ++ rest)).position e
  refine ⟨result, ?_⟩
  rw [List.append_assoc] at hrounds ⊢
  simp [primary, he, loop_of_rounds hrounds]

/-- A round of trailers reads one. -/
def ReadsTrailer (g : Nonterminals) (w rest : List Token) : Prop :=
  ∀ start read, ∃ next, nextTrailer g start read (w ++ rest) = .ok (.again next, rest)

theorem noTrailer_reads (start : Position) (hrest : 1 ≤ (front rest).lexeme.endLevel) :
    ReadsRounds (nextTrailer g start) [] rest := by
  have hne : ∀ {l : Lexeme}, l.endLevel = 0 → (front rest).lexeme ≠ l := by
    rintro _ hlevel rfl
    omega
  have hdot := hne (l := .symbol .dot) rfl
  have hround := hne (l := .symbol (.opening .round)) rfl
  have hsquare := hne (l := .symbol (.opening .square)) rfl
  exact fun read => ⟨read, .done (by simp [nextTrailer, hdot, hround, hsquare])⟩

theorem trailers_reads {t ts : List Token} (start : Position) (hne : t ≠ [])
    (htrailer : ReadsTrailer g t (ts ++ rest))
    (htrailers : ReadsRounds (nextTrailer g start) ts rest) :
    ReadsRounds (nextTrailer g start) (t ++ ts) rest := by
  intro read
  obtain ⟨next, hnext⟩ := htrailer start read
  obtain ⟨result, hresult⟩ := htrailers next
  rw [List.append_assoc]
  refine ⟨result, .again hnext ?_ hresult⟩
  have := List.length_pos_iff.mpr hne
  simp only [List.length_append]
  omega

theorem attribute_reads (x : Text) :
    ReadsTrailer g [⟨.symbol .dot, p⟩, ⟨.name x, q⟩] rest :=
  fun _ _ => ⟨_, by simp [nextTrailer]; rfl⟩

theorem call_reads (h : Listed (IsElement g.expression) w) :
    ReadsTrailer g (⟨.symbol (.opening .round), p⟩ :: (w ++ [⟨.symbol (.closing .round), q⟩]))
      rest := by
  have harguments := repeatWhile_of_repeats (h.repeats_nextArgument q rest)
  exact fun _ _ => ⟨_, by simp [nextTrailer, arguments, harguments]; rfl⟩

theorem subscript_reads (h : Listed (IsElement g.expression) w) (hne : w ≠ []) :
    ReadsTrailer g (⟨.symbol (.opening .square), p⟩ :: (w ++ [⟨.symbol (.closing .square), q⟩]))
      rest := by
  have hslices := repeatWhile_of_repeats (h.repeats_nextSlice hne q rest)
  have hclosing := h.front_ne hne (l := .symbol (.closing .square)) (by decide)
  exact fun _ _ => ⟨_, by simp [nextTrailer, slices, hclosing, hslices]; rfl⟩

theorem parenthesized_reads (h : Listed (IsElement g.expression) w) :
    Reads (parenthesized g)
      (⟨.symbol (.opening .round), p⟩ :: (w ++ [⟨.symbol (.closing .round), q⟩])) rest := by
  by_cases hne : w = []
  · subst hne
    exact ⟨_, by simp [parenthesized]; rfl⟩
  have hclosing := h.front_ne hne (l := .symbol (.closing .round)) (by decide)
  have hyield := h.front_ne hne (l := .keyword .yield_) (by decide)
  obtain ⟨first, later, rfl, ⟨e, hfirst⟩, hends, hlater, hcases⟩ :=
    h.exists_element hne .round q rest
  have hno := atComprehension_of_endsElement hends
  simp only [List.append_assoc] at hclosing hyield
  rcases hcases with rfl | hcomma
  · exact ⟨e, by simp_all [parenthesized]⟩
  · unfold Reads
    simp [parenthesized, hclosing, hyield, hfirst, hno, hcomma, moreElements, hlater]

theorem listDisplay_reads (h : Listed (IsElement g.expression) w) :
    Reads (listDisplay g)
      (⟨.symbol (.opening .square), p⟩ :: (w ++ [⟨.symbol (.closing .square), q⟩])) rest := by
  by_cases hne : w = []
  · subst hne
    exact ⟨_, by simp [listDisplay]; rfl⟩
  have hclosing := h.front_ne hne (l := .symbol (.closing .square)) (by decide)
  obtain ⟨first, later, rfl, ⟨e, hfirst⟩, hends, hlater, _⟩ := h.exists_element hne .square q rest
  have hno := atComprehension_of_endsElement hends
  simp only [List.append_assoc] at hclosing
  unfold Reads
  simp [listDisplay, hclosing, hfirst, hno, moreElements, hlater]

theorem atom_reads_round (h : Listed (IsElement g.expression) w) :
    Reads (atom g)
      (⟨.symbol (.opening .round), p⟩ :: (w ++ [⟨.symbol (.closing .round), q⟩])) rest := by
  obtain ⟨e, he⟩ := @parenthesized_reads g w rest p q h
  exact ⟨e, by simpa [atom] using he⟩

theorem atom_reads_square (h : Listed (IsElement g.expression) w) :
    Reads (atom g)
      (⟨.symbol (.opening .square), p⟩ :: (w ++ [⟨.symbol (.closing .square), q⟩])) rest := by
  obtain ⟨e, he⟩ := @listDisplay_reads g w rest p q h
  exact ⟨e, by simpa [atom] using he⟩

end Grammar

/-! ## Section 7: Words by category -/

open Grammar

/-- How a word of a category is read in front of `rest`, if references
    are followed as deep as `fuel` has tokens. -/
def Category.Reads (fuel rest : List Token) : Category → List Token → Prop
  | expression, w => StyleCheck.Reads (Grammar.expression (grammarUpTo fuel)) w rest
  | chain link, w => ReadsChain (grammarUpTo fuel) link w rest
  | inversion, w => StyleCheck.Reads (Grammar.inversion (grammarUpTo fuel)) w rest
  | factor, w => StyleCheck.Reads (Grammar.factor (grammarUpTo fuel)) w rest
  | power, w => StyleCheck.Reads (Grammar.power (grammarUpTo fuel)) w rest
  | awaited, w => ReadsAwaited (grammarUpTo fuel) w rest
  | primary, w => StyleCheck.Reads (Grammar.primary (grammarUpTo fuel)) w rest
  | trailers, w => ∀ start, ReadsRounds (nextTrailer (grammarUpTo fuel) start) w rest
  | trailer, w => ReadsTrailer (grammarUpTo fuel) w rest
  | atom, w => StyleCheck.Reads (Grammar.atom (grammarUpTo fuel)) w rest
  | elements, w => Listed (IsElement (Grammar.expression (grammarUpTo fuel))) w

/-- The operands of a chain are read by the parser of its operands. -/
theorem Category.Reads.operand {link : Link} {fuel rest w : List Token}
    (h : link.operand.Reads fuel rest w) :
    StyleCheck.Reads (link.operandParser (grammarUpTo fuel)) w rest := by
  cases link with
  | or_ => exact @ReadsChain.reads _ _ _ .and_ h
  | and_ => exact h
  | compare => exact ReadsChain.reads h
  | binary level tighter =>
    cases tighter with
    | nil => exact h
    | cons level tighter => exact @ReadsChain.reads _ _ _ (.binary level tighter) h

/-- What is between brackets is shorter by a token at least. -/
theorem exists_fuel_of_bracketed {w fuel : List Token} {opener closer : Token}
    (h : (opener :: (w ++ [closer])).length ≤ fuel.length) :
    ∃ t fuel', fuel = t :: fuel' ∧ w.length ≤ fuel'.length := by
  simp only [List.length_cons, List.length_append, List.length_nil] at h
  obtain ⟨t, fuel, rfl⟩ := List.exists_cons_of_length_pos (show 0 < fuel.length by omega)
  rw [List.length_cons] at h
  exact ⟨t, fuel, rfl, by omega⟩

/-- **Completeness.**  A word is read in front of whatever ends it.  By
    induction on how it is derived: the words within are shorter by a
    token at least where a reference is followed. -/
theorem Derives.reads {c : Category} {w : List Token} (h : Belongs c w) (hvalid : c.IsValid) :
    ∀ {fuel rest : List Token}, w.length ≤ fuel.length →
      c.endLevel ≤ (front rest).lexeme.endLevel → c.Reads fuel rest w := by
  induction h with
  | value h ih =>
    intro fuel rest hfuel hend
    have hvalue := ih trivial hfuel (Nat.le_trans (by decide) hend)
    exact expression_reads_value (disjunction_reads hvalue) (h.startsAt rfl) hend
  | conditional hvalue _ _ ihvalue ihtest ihother =>
    intro fuel rest hfuel hend
    cases fuel with
    | nil => simp at hfuel
    | cons t fuel =>
      simp only [List.length_append, List.length_cons] at hfuel
      apply expression_reads_conditional
      · exact disjunction_reads (ihvalue trivial (by simp; omega) (Nat.le_refl 11))
      · exact hvalue.startsAt rfl
      · exact disjunction_reads (ihtest trivial (by omega) (Nat.le_succ 11))
      · exact ihother trivial (by omega) hend
  | @operand link w _ ih =>
    intro fuel rest hfuel hend
    have hoperand := ih (Link.isValid_operand hvalid) hfuel
      (Nat.le_trans (by rw [link.endLevel_operand]; omega) hend)
    exact readsChain_operand hoperand.operand (Link.operator_of_endLevel hvalid hend)
  | @linked link first operator others _ hoperator hothers ihfirst ihothers =>
    intro fuel rest hfuel hend
    simp only [List.length_append] at hfuel
    have hlevel := hoperator.endLevel hvalid (others ++ rest)
    have hfirst := @ihfirst (Link.isValid_operand hvalid) fuel _ (by omega)
      (Nat.le_of_eq hlevel.symm)
    have hnot : link = .compare → (front (others ++ rest)).lexeme ≠ .keyword .not_ := by
      rintro rfl
      exact (hothers.startsAt rfl).front_ne (l := .keyword .not_) (Nat.le_refl 3) rest
    exact readsChain_linked hfirst.operand (hoperator.read hnot) hoperator.length_pos
      (ihothers hvalid (by omega) hend)
  | inverted _ ih =>
    intro fuel rest hfuel hend
    cases fuel with
    | nil => simp at hfuel
    | cons t fuel => exact inversion_reads_inverted (ih trivial (by simpa using hfuel) hend)
  | comparison h ih =>
    intro fuel rest hfuel hend
    exact inversion_reads_comparison (comparison_reads (ih trivial hfuel hend)) (h.startsAt rfl)
  | signed hsign _ ih =>
    intro fuel rest hfuel hend
    cases fuel with
    | nil => simp at hfuel
    | cons t fuel => exact factor_reads_signed hsign (ih trivial (by simpa using hfuel) hend)
  | unsigned h ih =>
    intro fuel rest hfuel hend
    exact factor_reads_power (ih trivial hfuel hend) (h.startsAt rfl)
  | base _ ih =>
    intro fuel rest hfuel hend
    exact power_reads_base (ih trivial hfuel (Nat.le_of_succ_le hend)) hend
  | raised _ _ ihbase ihexponent =>
    intro fuel rest hfuel hend
    cases fuel with
    | nil => simp at hfuel
    | cons t fuel =>
      simp only [List.length_append, List.length_cons] at hfuel
      apply power_reads_raised
      · exact ihbase trivial (by simp; omega) (Nat.le_refl 1)
      · exact ihexponent trivial (by omega) hend
  | await_ _ ih =>
    intro fuel rest hfuel hend
    exact readsAwaited_await (ih trivial (Nat.le_of_succ_le hfuel) hend)
  | primary h ih =>
    intro fuel rest hfuel hend
    exact readsAwaited_primary (ih trivial hfuel hend) (h.startsAt rfl)
  | trailed _ _ ihatom ihtrailers =>
    intro fuel rest hfuel hend
    rw [List.length_append] at hfuel
    exact primary_reads (ihatom trivial (by omega) (Nat.zero_le _))
      (ihtrailers trivial (by omega) hend)
  | noTrailer =>
    intro fuel rest _ hend start
    exact noTrailer_reads start hend
  | trailer htrailer _ ihtrailer ihtrailers =>
    intro fuel rest hfuel hend start
    rw [List.length_append] at hfuel
    refine trailers_reads start ?_ (ihtrailer trivial (by omega) (Nat.zero_le _))
      (ihtrailers trivial (by omega) hend start)
    cases htrailer <;> simp
  | dotted hname =>
    obtain ⟨x, rfl⟩ := hname
    exact fun _ _ => attribute_reads x
  | call _ ih =>
    intro fuel rest hfuel _
    obtain ⟨t, fuel, rfl, hinner⟩ := exists_fuel_of_bracketed hfuel
    exact call_reads (@ih trivial fuel [] hinner (Nat.le_refl 12))
  | subscript _ hne ih =>
    intro fuel rest hfuel _
    obtain ⟨t, fuel, rfl, hinner⟩ := exists_fuel_of_bracketed hfuel
    exact subscript_reads (@ih trivial fuel [] hinner (Nat.le_refl 12)) hne
  | name => exact fun _ _ => ⟨_, rfl⟩
  | number => exact fun _ _ => ⟨_, rfl⟩
  | @constant word p hword =>
    intro _ rest _ _
    have hconstant : word.isConstant = true := by
      simp only [Keyword.values, List.mem_cons, List.not_mem_nil, or_false] at hword
      rcases hword with rfl | rfl | rfl <;> rfl
    exact ⟨_, by simp [atom, hconstant]; rfl⟩
  | ellipsis => exact fun _ _ => ⟨_, rfl⟩
  | parenthesized _ ih =>
    intro fuel rest hfuel _
    obtain ⟨t, fuel, rfl, hinner⟩ := exists_fuel_of_bracketed hfuel
    exact atom_reads_round (@ih trivial fuel [] hinner (Nat.le_refl 12))
  | list _ ih =>
    intro fuel rest hfuel _
    obtain ⟨t, fuel, rfl, hinner⟩ := exists_fuel_of_bracketed hfuel
    exact atom_reads_square (@ih trivial fuel [] hinner (Nat.le_refl 12))
  | nothing => exact fun _ _ => .nothing
  | last h ih =>
    intro fuel _ hfuel _
    exact .last ⟨h.startsAt rfl, h.isPlain trivial, fun rest hrest => ih trivial hfuel hrest⟩
  | more hfirst _ ihfirst ihothers =>
    intro fuel rest hfuel hend
    simp only [List.length_append, List.length_cons] at hfuel
    refine .more ⟨hfirst.startsAt rfl, hfirst.isPlain trivial, ?_⟩ ?_
    · exact fun rest hrest => ihfirst trivial (by omega) hrest
    · exact ihothers trivial (by omega) hend

/-! ## Section 8: The language that is read -/

/-- **The language of operators.**  Every word of the language is read in
    front of the end of a logical line, up to that end.  And whatever
    plain word is read as an expression is a word of the language. -/
theorem expression_language (w rest : List Token) :
    (Belongs .expression w → ∀ p, ∃ e, grammar.expression (w ++ ⟨.newline, p⟩ :: rest) =
      .ok (e, ⟨.newline, p⟩ :: rest)) ∧
    (∀ e, grammar.expression (w ++ rest) = .ok (e, rest) → PlainWord w →
      Belongs .expression w) := by
  constructor
  · intro h p
    exact h.reads trivial (by simp) (Nat.le_refl 12)
  · intro e hread hplain
    obtain ⟨w', hw', hbelongs⟩ := grammar_sound (w ++ rest) e rest hread
    obtain rfl : w = w' := List.append_cancel_right hw'
    exact hbelongs hplain

/-- The word `not a.b[-c, 0] is not d() ** e` is in the language since it
    is read, and is read since it is in the language. -/
theorem expression_language_of_read :
    let tokens (lexemes : List Lexeme) : List Token := lexemes.map (⟨·, ⟨1, 1⟩⟩)
    let w := tokens [.keyword .not_, .name (ascii "a"), .symbol .dot, .name (ascii "b"),
      .symbol (.opening .square), .symbol .minus, .name (ascii "c"), .symbol .comma,
      .number (ascii "0"), .symbol (.closing .square), .keyword .is_, .keyword .not_,
      .name (ascii "d"), .symbol (.opening .round), .symbol (.closing .round),
      .symbol .doubleStar, .name (ascii "e")]
    let rest := tokens [.newline, .endMarker]
    PlainWord w ∧ Belongs .expression w ∧ ∃ e, grammar.expression (w ++ rest) = .ok (e, rest) := by
  intro tokens w rest
  have hplain : PlainWord w := by decide
  have hbelongs := (expression_language w rest).2 ⟨.other, ⟨1, 1⟩⟩ (by decide +kernel) hplain
  exact ⟨hplain, hbelongs, (expression_language w _).1 hbelongs _⟩

/-- With any word behind the dot of an attribute, the language would have
    words that are not read: `x.if` is one. -/
theorem keyword_attribute_not_read :
    ¬ ∀ (w : List Token) (p : Position) (rest : List Token),
      Derives (fun l => l.isWord = true) .expression w →
      ∃ e, grammar.expression (w ++ ⟨.newline, p⟩ :: rest) = .ok (e, ⟨.newline, p⟩ :: rest) := by
  intro h
  have hattribute : Derives (fun l => l.isWord = true) .trailer
      [⟨.symbol .dot, ⟨1, 2⟩⟩, ⟨.keyword .if_, ⟨1, 3⟩⟩] := .dotted rfl
  have hprimary : Derives (fun l => l.isWord = true) .primary
      [⟨.name (ascii "x"), ⟨1, 1⟩⟩, ⟨.symbol .dot, ⟨1, 2⟩⟩, ⟨.keyword .if_, ⟨1, 3⟩⟩] :=
    .trailed .name (.trailer hattribute .noTrailer)
  obtain ⟨e, he⟩ := h _ ⟨1, 5⟩ [] hprimary.expression
  cases he

end StyleCheck
