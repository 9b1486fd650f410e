import StyleCheck.Proofs.Scan.Alike

/-! # Lookahead

    A scan looks at bytes behind the piece that it reads: at the byte that
    ends a word or a number, at two more bytes behind a quote, at what
    could make a symbol longer.  None of them makes a difference if it is
    a byte that parts tokens.  So a run over a source comes past the same
    scans as long as what it has not reached yet starts with such a byte,
    whatever stands behind it.

    * `Text.IsParted`: a text that no token in front of it goes on with.
    * `NumberLiteral.length_congr`, `StringLiteral.length?_congr`,
      `Symbol.leading?_congr`: literals and symbols end where they did.
    * `Swapped.enterLine`, `Swapped.piece`: one round.
    * `Visits.swapped`: a run.
-/

namespace StyleCheck

open Byte

/-! ## Section 1: Bytes that part tokens -/

/-- A blank, a line feed, a backslash, or the start of a comment.  No token
    goes on with it. -/
def Byte.parts (b : UInt8) : Bool := isBlank b || b == newline || b == backslash || b == hash

theorem Byte.parts_cases {b : UInt8} (h : parts b = true) :
    b ∈ [space, tab, formFeed, newline, backslash, hash] := by
  simpa [parts, isBlank, or_assoc] using h

/-- Whatever is said of those six bytes is said of each that parts. -/
theorem Byte.eq_false_of_parts {p : UInt8 → Bool} {b : UInt8} (hb : parts b = true)
    (hp : [space, tab, formFeed, newline, backslash, hash].any p = false) : p b = false := by
  simpa using List.any_eq_false.mp hp b (parts_cases hb)

/-- A text that starts with a byte that parts. -/
def Text.IsParted (t : Text) : Prop := ∃ b rest, t = b :: rest ∧ Byte.parts b = true

/-- So it starts with no byte of a token. -/
theorem Text.IsParted.head? {t : Text} (h : t.IsParted) {p : UInt8 → Bool}
    (hp : [space, tab, formFeed, newline, backslash, hash].any p = false) :
    ∀ b ∈ t.head?, p b = false := by
  obtain ⟨c, rest, rfl, hc⟩ := h
  intro b hb
  obtain rfl : c = b := by simpa using hb
  exact eq_false_of_parts hc hp

/-- A spelling without a byte is no longer than what stands in front of
    that byte. -/
theorem isPrefixOf_append_cons {spelling text after : Text} {b : UInt8} (hb : b ∉ spelling) :
    spelling.isPrefixOf (text ++ b :: after) = spelling.isPrefixOf text := by
  induction spelling generalizing text with
  | nil => simp
  | cons c spelling ih =>
    have hc : c ≠ b := fun h => hb (h ▸ List.mem_cons_self)
    cases text with
    | nil => simp [List.isPrefixOf, hc]
    | cons d text =>
      rw [List.cons_append, List.isPrefixOf, List.isPrefixOf,
        ih fun hmem => hb (List.mem_cons_of_mem c hmem)]

variable {front behind other : Text} {b : UInt8}

/-- A longest run that ends in front of a text, or right where it starts,
    ends there in front of any other that does not go on with it. -/
theorem Text.takeWhile_congr {p : UInt8 → Bool}
    (hle : ((front ++ behind).takeWhile p).length ≤ front.length)
    (hother : ((front ++ behind).takeWhile p).length = front.length →
      ∀ b ∈ other.head?, p b = false) :
    (front ++ other).takeWhile p = (front ++ behind).takeWhile p := by
  induction front with
  | nil =>
    have hnone : behind.takeWhile p = [] := List.eq_nil_of_length_eq_zero (Nat.le_zero.mp hle)
    have hends := hother (congrArg List.length hnone)
    rw [List.nil_append, List.nil_append, hnone]
    cases other with
    | nil => rfl
    | cons b rest => exact List.takeWhile_cons_of_neg (by simp [hends b rfl])
  | cons b front ih =>
    rw [List.cons_append, List.cons_append]
    by_cases hb : p b = true
    · rw [List.cons_append, List.takeWhile_cons_of_pos hb] at hle hother
      simp only [List.length_cons, Nat.add_le_add_iff_right, Nat.add_right_cancel_iff] at hle hother
      rw [List.takeWhile_cons_of_pos hb, List.takeWhile_cons_of_pos hb, ih hle hother]
    · rw [List.takeWhile_cons_of_neg hb, List.takeWhile_cons_of_neg hb]

/-! ## Section 2: Numbers and symbols -/

namespace NumberLiteral

theorem tailLength_congr (hother : other.IsParted) (hexadecimal : Bool) (before : UInt8)
    (hle : tailLength hexadecimal before (front ++ behind) ≤ front.length) :
    tailLength hexadecimal before (front ++ other) =
      tailLength hexadecimal before (front ++ behind) := by
  induction front generalizing before with
  | nil =>
    obtain ⟨c, rest, rfl, hc⟩ := hother
    have hends : goesOn hexadecimal before c = false := eq_false_of_parts hc rfl
    have hnone : tailLength hexadecimal before behind = 0 := Nat.le_zero.mp hle
    rw [List.nil_append, List.nil_append, hnone, tailLength, hends]
    rfl
  | cons b front ih =>
    rw [List.cons_append, tailLength, List.length_cons] at hle
    rw [List.cons_append, List.cons_append, tailLength, tailLength]
    by_cases hb : goesOn hexadecimal before b = true
    · rw [if_pos hb] at hle
      rw [if_pos hb, if_pos hb, ih b (Nat.le_of_succ_le_succ hle)]
    · rw [if_neg hb, if_neg hb]

/-- Letters are told by their lower case, and belong to a number. -/
theorem isNameByte_of_toLower {b c : UInt8} (h : toLower b = c) (hc : isLower c = true) :
    isNameByte b = true := by
  unfold toLower at h
  split at h
  case isTrue hupper => simp [isNameByte, isNameStart, isLetter, hupper]
  case isFalse =>
    subst h
    simp [isNameByte, isNameStart, isLetter, hc]

/-- A number that ends in front of a text is read so in front of any other
    that parts it. -/
theorem length_congr (hother : other.IsParted)
    (hle : length (b :: front ++ behind) ≤ (b :: front).length) :
    length (b :: front ++ other) = length (b :: front ++ behind) := by
  have hhex : isHexadecimal (b :: front ++ other) = isHexadecimal (b :: front ++ behind) := by
    cases front with
    | cons c front => rfl
    | nil =>
      -- The letter behind the zero would be a second byte of the number.
      have hbare : isHexadecimal (b :: behind) = false := by
        cases behind with
        | nil => rfl
        | cons c behind =>
          cases hx : isHexadecimal (b :: c :: behind) with
          | false => rfl
          | true =>
            simp only [isHexadecimal, Bool.and_eq_true, beq_iff_eq] at hx
            have hgoesOn : goesOn (isHexadecimal (b :: c :: behind)) b c = true := by
              simp [goesOn, isNameByte_of_toLower hx.2 rfl]
            have hlong : 2 ≤ length (b :: c :: behind) := by
              rw [length, tailLength, if_pos hgoesOn]
              omega
            have hshort : length (b :: c :: behind) ≤ 1 := hle
            omega
      obtain ⟨c, rest, rfl, hc⟩ := hother
      have hletter : (toLower c == 0x78) = false :=
        eq_false_of_parts (p := fun c => toLower c == 0x78) hc rfl
      show (b == zero && toLower c == 0x78) = isHexadecimal (b :: behind)
      rw [hbare, hletter, Bool.and_false]
  show tailLength (isHexadecimal (b :: front ++ other)) b (front ++ other) + 1 =
    tailLength (isHexadecimal (b :: front ++ behind)) b (front ++ behind) + 1
  rw [hhex, tailLength_congr hother _ b (Nat.le_of_succ_le_succ hle)]

/-- A number that is whole starts with a digit, or has one behind its dot. -/
theorem startsAt_congr (hother : other.IsParted) (hstarts : startsAt (b :: front ++ behind) = true)
    (hle : length (b :: front ++ behind) ≤ (b :: front).length) :
    startsAt (b :: front ++ other) = true := by
  cases front with
  | cons c front => exact hstarts
  | nil =>
    have hdigit : isDigit b = true := by
      cases behind with
      | nil => exact hstarts
      | cons c behind =>
        simp only [startsAt, List.cons_append, List.nil_append, Bool.or_eq_true,
          Bool.and_eq_true] at hstarts
        refine hstarts.resolve_right fun hdot => ?_
        -- A digit behind the dot would be a second byte of the number.
        have hgoesOn : goesOn (isHexadecimal (b :: c :: behind)) b c = true := by
          simp [goesOn, isNameByte, hdot.2]
        have hlong : 2 ≤ length (b :: c :: behind) := by
          rw [length, tailLength, if_pos hgoesOn]
          omega
        have hshort : length (b :: c :: behind) ≤ 1 := hle
        omega
    cases other <;> simp [startsAt, hdigit]

/-- Where no number starts, none starts in front of a text that parts. -/
theorem not_startsAt_congr (hother : other.IsParted)
    (hstarts : startsAt (b :: front ++ behind) = false) :
    startsAt (b :: front ++ other) = false := by
  cases front with
  | cons c front => exact hstarts
  | nil =>
    obtain ⟨c, rest, rfl, hc⟩ := hother
    have hdigit : isDigit c = false := eq_false_of_parts hc rfl
    have hb : isDigit b = false := by
      cases behind with
      | nil => exact hstarts
      | cons c behind =>
        simp only [startsAt, List.cons_append, List.nil_append, Bool.or_eq_false_iff] at hstarts
        exact hstarts.1
    simp [startsAt, hdigit, hb]

end NumberLiteral

namespace Symbol

/-- No symbol is spelled with a byte that parts. -/
theorem notMem_text_of_parts (hb : parts b = true) (symbol : Symbol) : b ∉ symbol.text := by
  intro hmem
  have hnone : symbol.text.any parts = false := by
    cases symbol with
    | opening bracket => cases bracket <;> rfl
    | closing bracket => cases bracket <;> rfl
    | _ => rfl
  exact List.any_eq_false.mp hnone b hmem hb

/-- In front of a text that parts, symbols are read as at the end. -/
theorem leading?_parted (hother : other.IsParted) : leading? (front ++ other) = leading? front := by
  obtain ⟨c, rest, rfl, hc⟩ := hother
  unfold leading?
  congr 1
  funext symbol
  exact isPrefixOf_append_cons (notMem_text_of_parts hc symbol)

/-- The longest symbol in front of a text is the longest in front of any
    other that parts it. -/
theorem leading?_congr (hother : other.IsParted) {symbol : Symbol}
    (hleading : leading? (front ++ behind) = some symbol)
    (hle : symbol.text.length ≤ front.length) : leading? (front ++ other) = some symbol := by
  rw [leading?_parted hother]
  unfold leading? at hleading ⊢
  obtain ⟨hstarts, earlier, later, hall, hlonger⟩ := List.find?_eq_some_iff_append.mp hleading
  refine List.find?_eq_some_iff_append.mpr ⟨?_, earlier, later, hall, fun longer hmem => ?_⟩
  · have hprefix := List.isPrefixOf_iff_prefix.mp hstarts
    exact List.isPrefixOf_iff_prefix.mpr
      (List.prefix_of_prefix_length_le hprefix (List.prefix_append _ _) hle)
  -- A longer one that fits into the front would have been found.
  · have hno := hlonger longer hmem
    rw [Bool.not_eq_true', Bool.eq_false_iff, Ne, List.isPrefixOf_iff_prefix] at hno ⊢
    exact fun hfits => hno (hfits.trans (List.prefix_append _ _))

end Symbol

/-! ## Section 3: String literals -/

namespace StringLiteral

/-- Two quotes behind a quote are there if they are in front of a text that
    parts; that they go beyond is all that can make a difference. -/
theorem isTriple_congr (hother : other.IsParted) (hb : isQuote b = true) :
    isTriple b (front ++ other) = isTriple b (front ++ behind) ∨
      front.length < 2 ∧ isTriple b (front ++ behind) = true := by
  obtain ⟨c, rest, rfl, hc⟩ := hother
  have hquote : isQuote c = false := eq_false_of_parts hc rfl
  have hne : (b == c) = false := by
    rw [beq_eq_false_iff_ne]
    rintro rfl
    rw [hb] at hquote
    cases hquote
  by_cases hlong : 2 ≤ front.length
  · obtain ⟨x, y, front, rfl⟩ : ∃ x y more, front = x :: y :: more := by
      match front, hlong with
      | x :: y :: more, _ => exact ⟨x, y, more, rfl⟩
    exact .inl (by simp [isTriple, List.isPrefixOf])
  · have hshort : front.length < 2 := Nat.lt_of_not_le hlong
    have hnone : isTriple b (front ++ c :: rest) = false := by
      match front, hshort with
      | [], _ => simp [isTriple, List.isPrefixOf, hne]
      | [x], _ => simp [isTriple, List.isPrefixOf, hne]
    cases htriple : isTriple b (front ++ behind) with
    | false => exact .inl hnone
    | true => exact .inr ⟨hshort, rfl⟩

/-- The bytes of a literal that are to be skipped belong to it. -/
theorem skip_lt_of_close {t : Text} : ∀ {inner : Unclosed} {outer : List Unclosed}
    {skip offset : Nat} {before : UInt8} {n : Nat},
    close inner outer skip offset before t = .ok n → offset + skip < n := by
  induction t with
  | nil =>
    intro inner outer skip offset before n h
    cases h
  | cons b rest ih =>
    intro inner outer skip offset before n h
    cases skip with
    | zero => exact (close_bounds h).1
    | succ skip =>
      have := ih (show close inner outer skip (offset + 1) b rest = .ok n from h)
      omega

variable {literal inner : Unclosed} {outer : List Unclosed} {skip offset n : Nat}
  {before : UInt8} {rest rest' : Text}

/-- The fewest bytes from a piece on to the end of the outermost literal. -/
def Unclosed.reach (literal : Unclosed) : Piece → Nat
  | .nested _ triple => quoteCount triple + 1
  | .closing => quoteCount literal.triple
  | .content _ | .openField | .closeField | .lineEnd => 2

theorem reach_le_of_close (h : close inner outer 0 offset before (b :: rest) = .ok n) :
    offset + inner.reach (inner.piece b rest) ≤ n := by
  unfold close at h
  dsimp only at h
  cases hpiece : inner.piece b rest <;> simp only [hpiece] at h
  case content => exact (close_bounds h).1
  case openField => exact (close_bounds h).1
  case closeField => exact (close_bounds h).1
  case lineEnd => cases h
  case nested quote triple =>
    have := skip_lt_of_close h
    simp only [Unclosed.reach]
    cases triple <;> simp [quoteCount] at this ⊢ <;> omega
  case closing =>
    cases outer with
    | nil =>
      cases h
      exact Nat.le_refl _
    | cons next others =>
      have := skip_lt_of_close h
      simp only [Unclosed.reach]
      cases hcount : inner.triple <;> simp [quoteCount, hcount] at this ⊢ <;> omega

/-- A piece of a literal is settled by the next byte, and whether two more
    quotes follow. -/
theorem piece_congr (hhead : rest.head? = rest'.head?) (htriple : isTriple b rest = isTriple b rest') :
    literal.piece b rest = literal.piece b rest' := by
  unfold Unclosed.piece
  rw [hhead, htriple]

/-- Only quotes are looked at three at a time. -/
theorem piece_congr_of_not_isQuote (hhead : rest.head? = rest'.head?)
    (hquote : isQuote literal.quote = true) (hb : isQuote b = false) :
    literal.piece b rest = literal.piece b rest' := by
  have hne : (b == literal.quote) = false := by
    rw [beq_eq_false_iff_ne]
    rintro rfl
    rw [hquote] at hb
    cases hb
  unfold Unclosed.piece
  simp [hhead, hb, hne]

/-- A single quote closes a literal whatever follows. -/
theorem piece_closing_congr (hclosing : literal.piece b rest = .closing)
    (hsingle : literal.triple = false) : literal.piece b rest' = .closing := by
  unfold Unclosed.piece at hclosing ⊢
  grind

/-- Pieces that are not the same in front of two texts go beyond the front
    in the one. -/
theorem piece_append_congr (hother : other.IsParted) (hquote : isQuote literal.quote = true) :
    literal.piece b (front ++ other) = literal.piece b (front ++ behind) ∨
      front.length + 1 < literal.reach (literal.piece b (front ++ behind)) := by
  by_cases hfront : front = []
  · subst hfront
    rw [List.nil_append, List.nil_append]
    cases hpiece : literal.piece b behind with
    | closing =>
      cases hsingle : literal.triple with
      | false => exact .inl (piece_closing_congr hpiece hsingle)
      | true => exact .inr (by simp [Unclosed.reach, quoteCount, hsingle])
    | nested _ triple => exact .inr (by cases triple <;> simp [Unclosed.reach, quoteCount])
    | _ => exact .inr (by simp [Unclosed.reach])
  have hhead : (front ++ other).head? = (front ++ behind).head? := by
    obtain ⟨c, more, rfl⟩ := List.exists_cons_of_ne_nil hfront
    rfl
  by_cases hb : isQuote b = true
  · have hquotes : isTriple b (front ++ other) = isTriple b (front ++ behind) ∨
        front.length < 2 ∧ isTriple b (front ++ behind) = true := isTriple_congr hother hb
    rcases hquotes with htriple | ⟨hshort, htriple⟩
    · exact .inl (piece_congr hhead htriple)
    · by_cases hsame : literal.piece b (front ++ other) = literal.piece b (front ++ behind)
      · exact .inl hsame
      · -- Three quotes open a literal within a field, or close one that has three.
        have hthree : literal.piece b (front ++ behind) = .nested b true ∨
            literal.piece b (front ++ behind) = .closing ∧ literal.triple = true := by
          unfold Unclosed.piece at hsame ⊢
          rw [hhead, htriple] at hsame
          rw [htriple]
          grind
        refine .inr ?_
        rcases hthree with hnested | ⟨hclosing, hall⟩
        · rw [hnested]
          simp only [Unclosed.reach, quoteCount, if_true]
          omega
        · rw [hclosing]
          simp only [Unclosed.reach, hall, quoteCount, if_true]
          omega
  · exact .inl (piece_congr_of_not_isQuote hhead hquote (by simpa using hb))

/-- A literal is opened by a quote. -/
theorem isQuote_of_nested {quote : UInt8} {triple : Bool}
    (hpiece : literal.piece b rest = .nested quote triple) : isQuote quote = true := by
  unfold Unclosed.piece at hpiece
  grind

/-- **Closing quotes** in front of a text close the literal in front of any
    other that parts.  By induction on the bytes up to there. -/
theorem close_congr (hother : other.IsParted) : ∀ {front : Text} {inner : Unclosed}
    {outer : List Unclosed} {skip offset : Nat} {before : UInt8},
    (∀ literal ∈ inner :: outer, isQuote literal.quote = true) →
      close inner outer skip offset before (front ++ behind) = .ok n →
        n ≤ offset + front.length →
          close inner outer skip offset before (front ++ other) = .ok n := by
  intro front
  induction front with
  | nil =>
    intro inner outer skip offset before _ h hle
    exact absurd (close_bounds h).1 (Nat.not_lt.mpr hle)
  | cons b front ih =>
    intro inner outer skip offset before hquotes h hle
    rw [List.length_cons] at hle
    have hinner := hquotes inner List.mem_cons_self
    have houter : ∀ literal ∈ outer, isQuote literal.quote = true := fun literal hmem =>
      hquotes literal (List.mem_cons_of_mem _ hmem)
    -- Whatever is open then, the rest is closed in front of the other text too.
    have hstep : ∀ {inner' outer' skip'},
        (∀ literal ∈ inner' :: outer', isQuote literal.quote = true) →
          close inner' outer' skip' (offset + 1) b (front ++ behind) = .ok n →
            close inner' outer' skip' (offset + 1) b (front ++ other) = .ok n :=
      fun hquotes' h' => ih hquotes' h' (by omega)
    have hclose := h
    rw [List.cons_append] at h ⊢
    unfold close at h ⊢
    cases skip with
    | succ skip => exact hstep hquotes h
    | zero =>
      dsimp only at h ⊢
      have hpiece : inner.piece b (front ++ other) = inner.piece b (front ++ behind) := by
        refine (piece_append_congr hother hinner).resolve_right fun hbeyond => ?_
        have hreach : offset + inner.reach (inner.piece b (front ++ behind)) ≤ n :=
          reach_le_of_close hclose
        omega
      rw [hpiece]
      cases hp : inner.piece b (front ++ behind) <;> simp only [hp] at h ⊢
      case content => exact hstep hquotes h
      case openField => exact hstep (List.forall_mem_cons.mpr ⟨hinner, houter⟩) h
      case closeField => exact hstep (List.forall_mem_cons.mpr ⟨hinner, houter⟩) h
      case nested quote triple =>
        exact hstep (List.forall_mem_cons.mpr ⟨isQuote_of_nested hp, hquotes⟩) h
      case lineEnd => cases h
      case closing =>
        cases outer with
        | nil => exact h
        | cons next others => exact hstep houter h

/-- **String literals**: a literal that ends in front of a text is read so
    in front of any other that parts. -/
theorem length?_congr (hother : other.IsParted) {word : Text}
    (hquote : ∀ b ∈ ((front ++ behind).drop word.length).head?, isQuote b = true)
    (hword : word.length < (front ++ behind).length) (hle : n ≤ front.length)
    (h : length? word (front ++ behind) = .ok n) : length? word (front ++ other) = .ok n := by
  have hbounds := length?_bounds hword h
  obtain ⟨quote, inside, hinside⟩ : ∃ quote inside, front.drop word.length = quote :: inside := by
    cases hdrop : front.drop word.length with
    | nil =>
      have := List.drop_eq_nil_iff.mp hdrop
      omega
    | cons quote inside => exact ⟨quote, inside, rfl⟩
  have hlength := congrArg List.length hinside
  rw [List.length_drop, List.length_cons] at hlength
  have hdrop : ∀ t : Text, (front ++ t).drop word.length = quote :: (inside ++ t) := by
    intro t
    rw [List.drop_append_of_le_length (by omega), hinside, List.cons_append]
  rw [hdrop] at hquote
  have hopens : isQuote quote = true := hquote quote rfl
  unfold length? at h ⊢
  rw [hdrop] at h ⊢
  dsimp only at h ⊢
  have htriple : isTriple quote (inside ++ other) = isTriple quote (inside ++ behind) := by
    refine (isTriple_congr hother hopens).resolve_right fun ⟨hshort, htriple⟩ => ?_
    -- Three quotes are more than there is in front.
    rw [htriple] at h
    have := skip_lt_of_close h
    simp only [quoteCount, if_true] at this
    omega
  rw [htriple]
  refine close_congr hother ?_ h (by omega)
  intro literal hmem
  rw [List.mem_singleton.mp hmem]
  exact hopens

end StringLiteral

/-! ## Section 4: Rounds -/

namespace Scan

variable {source : Text} {stage : Stage} {s s' t : Scan} {n : Nat}

/-- Whether the next word is the prefix of a string literal. -/
def isPrefixed (s : Scan) : Bool :=
  (s.rest.drop (s.rest.takeWhile isNameByte).length).head?.any isQuote &&
    StringLiteral.isLiteralPrefix (s.rest.takeWhile isNameByte)

theorem word_eq (s : Scan) :
    s.word = if s.isPrefixed = true then s.string (s.rest.takeWhile isNameByte)
      else .ok ((s.emit (.ofWord (s.rest.takeWhile isNameByte))).skip
        (s.rest.takeWhile isNameByte).length) := by
  unfold word isPrefixed
  dsimp only
  cases s.rest.drop (s.rest.takeWhile isNameByte).length <;> rfl

/-- There is a quote behind the prefix of a literal. -/
theorem isQuote_of_isPrefixed (h : s.isPrefixed = true) :
    ∃ quote after, s.rest.drop (s.rest.takeWhile isNameByte).length = quote :: after ∧
      isQuote quote = true := by
  unfold isPrefixed at h
  cases hdrop : s.rest.drop (s.rest.takeWhile isNameByte).length with
  | nil => simp [hdrop] at h
  | cons quote after =>
    rw [hdrop] at h
    simp only [List.head?_cons, Option.any_some, Bool.and_eq_true] at h
    exact ⟨quote, after, rfl, h.1⟩

theorem length_of_number (s : Scan) :
    s.number.rest.length + NumberLiteral.length s.rest = s.rest.length := by
  have hle := NumberLiteral.length_le s.rest
  show (s.rest.drop (NumberLiteral.length s.rest)).length + _ = _
  rw [List.length_drop]
  omega

/-- A literal is longer than its prefix. -/
theorem length_of_string {word : Text} (hword : word.length < s.rest.length)
    (h : s.string word = .ok s') : s'.rest.length + word.length < s.rest.length := by
  unfold string at h
  cases hliteral : StringLiteral.length? word s.rest with
  | error literal =>
    rw [hliteral] at h
    cases h
  | ok n =>
    rw [hliteral] at h
    obtain rfl := Except.ok.inj h
    have hbounds := StringLiteral.length?_bounds hword hliteral
    show (s.rest.drop n).length + word.length < s.rest.length
    rw [List.length_drop]
    omega

/-- The scan `t` is `s` with the text `other` in place of `behind`, which is
    still to be read. -/
def Swapped (behind other : Text) (s t : Scan) : Prop :=
  ∃ front, s.rest = front ++ behind ∧ t = { s with rest := front ++ other }

namespace Swapped

theorem emit (h : Swapped behind other s t) (lexeme : Lexeme) :
    Swapped behind other (s.emit lexeme) (t.emit lexeme) := by
  obtain ⟨front, hrest, rfl⟩ := h
  exact ⟨front, hrest, rfl⟩

theorem startLine (h : Swapped behind other s t) (start : Bool) :
    Swapped behind other { s with atLineStart := start } { t with atLineStart := start } := by
  obtain ⟨front, hrest, rfl⟩ := h
  exact ⟨front, hrest, rfl⟩

/-- Bytes in front of the text are read over in both. -/
theorem skip (h : Swapped behind other s t) (hn : n + behind.length ≤ s.rest.length) :
    Swapped behind other (s.skip n) (t.skip n) := by
  obtain ⟨front, hrest, rfl⟩ := h
  have hle : n ≤ front.length := by
    rw [hrest, List.length_append] at hn
    omega
  refine ⟨front.drop n, ?_, ?_⟩
  · show s.rest.drop n = _
    rw [hrest, List.drop_append_of_le_length hle]
  · unfold Scan.skip
    rw [hrest, List.drop_append_of_le_length hle, List.take_append_of_le_length hle,
      List.take_append_of_le_length hle]

/-- The next byte is the same, if it is in front of the text. -/
theorem exists_cons {after : Text} (h : Swapped behind other s t) (hrest : s.rest = b :: after)
    (hlt : behind.length < s.rest.length) : ∃ front, after = front ++ behind ∧
      t = { s with rest := b :: front ++ other } := by
  obtain ⟨front, hfront, rfl⟩ := h
  cases front with
  | nil =>
    rw [hfront] at hlt
    exact absurd hlt (Nat.lt_irrefl _)
  | cons c front =>
    rw [hrest] at hfront
    obtain ⟨rfl, rfl⟩ := List.cons.inj hfront
    exact ⟨front, rfl, rfl⟩

/-- Bytes that are read in front of the text are the same. -/
theorem take (h : Swapped behind other s t) (hn : n + behind.length ≤ s.rest.length) :
    t.rest.take n = s.rest.take n := by
  obtain ⟨front, hrest, rfl⟩ := h
  have hle : n ≤ front.length := by
    rw [hrest, List.length_append] at hn
    omega
  show (front ++ other).take n = s.rest.take n
  rw [hrest, List.take_append_of_le_length hle, List.take_append_of_le_length hle]

/-- A run of bytes that ends in front of the text, or right where it
    starts, is the same if the other one does not go on with it there. -/
theorem takeWhile {p : UInt8 → Bool} (h : Swapped behind other s t)
    (hle : (s.rest.takeWhile p).length + behind.length ≤ s.rest.length)
    (hother : (s.rest.takeWhile p).length + behind.length = s.rest.length →
      ∀ b ∈ other.head?, p b = false) : t.rest.takeWhile p = s.rest.takeWhile p := by
  obtain ⟨front, hrest, rfl⟩ := h
  have hlength : s.rest.length = front.length + behind.length := by
    rw [hrest, List.length_append]
  show (front ++ other).takeWhile p = s.rest.takeWhile p
  rw [hlength] at hle hother
  rw [hrest] at hle hother ⊢
  exact Text.takeWhile_congr (by omega) fun hend => hother (by omega)

/-- The next byte is the same, if it is in front of the text. -/
theorem isLineOver (h : Swapped behind other s t) (hlt : behind.length < s.rest.length) :
    isLineOver t.rest = isLineOver s.rest := by
  obtain ⟨b, after, hrest⟩ := List.exists_cons_of_length_pos (Nat.zero_lt_of_lt hlt)
  obtain ⟨front, _, rfl⟩ := h.exists_cons hrest hlt
  rw [hrest]
  rfl

/-- Levels are settled without a look at what is left. -/
theorem settle {column : Nat} (h : Swapped behind other s t) (hsettle : s.settle column = .ok s') :
    ∃ t', t.settle column = .ok t' ∧ Swapped behind other s' t' := by
  obtain ⟨front, hrest, rfl⟩ := h
  refine ⟨{ s' with rest := front ++ other }, ?_, front, ?_, rfl⟩
  · have hlevel : level { s with rest := front ++ other } = s.level := rfl
    unfold Scan.settle at hsettle ⊢
    rw [hlevel]
    dsimp only at hsettle ⊢
    by_cases hdeeper : s.level < column
    · rw [if_pos hdeeper] at hsettle ⊢
      obtain rfl := Except.ok.inj hsettle
      rfl
    · rw [if_neg hdeeper] at hsettle ⊢
      by_cases hcolumn : (s.levels.dropWhile (column < ·)).headD 0 = column
      · rw [level, if_pos hcolumn] at hsettle ⊢
        obtain rfl := Except.ok.inj hsettle
        rfl
      · rw [level, if_neg hcolumn] at hsettle
        cases hsettle
  · rcases settle_cases hsettle with ⟨_, rfl⟩ | ⟨_, _, rfl⟩ <;> exact hrest

/-- The blanks at the start of a line are read in both, and the line goes on
    alike behind them. -/
theorem enterLine (h : Swapped behind other s t) (henter : s.enterLine = .ok s')
    (hlt : behind.length < s'.rest.length) :
    ∃ t', t.enterLine = .ok t' ∧ Swapped behind other s' t' := by
  have hstart : t.atLineStart = s.atLineStart ∧ t.brackets = s.brackets := by
    obtain ⟨front, _, rfl⟩ := h
    exact ⟨rfl, rfl⟩
  unfold Scan.enterLine at henter ⊢
  rw [hstart.1, hstart.2]
  by_cases hline : (s.atLineStart && s.brackets.isEmpty) = true
  · rw [if_pos hline] at henter ⊢
    rw [indentation_eq] at henter ⊢
    have hbehind : s'.rest.length = s.rest.length - s.blankCount := by
      rw [← List.length_drop]
      split at henter
      · rw [← Except.ok.inj henter]
        rfl
      · rcases settle_cases henter with ⟨_, rfl⟩ | ⟨_, _, rfl⟩ <;> rfl
    -- The blanks end in front of the text.
    have hends : (s.rest.takeWhile isBlank).length + behind.length < s.rest.length := by
      unfold blankCount at hbehind
      omega
    have hblanks : t.rest.takeWhile isBlank = s.rest.takeWhile isBlank :=
      h.takeWhile (Nat.le_of_lt hends) fun hend => absurd hend (Nat.ne_of_lt hends)
    have hcount : t.blankCount = s.blankCount := congrArg List.length hblanks
    have hskip := h.skip (show s.blankCount + behind.length ≤ s.rest.length by omega)
    have hover := hskip.isLineOver (by
      show behind.length < (s.rest.drop s.blankCount).length
      rw [List.length_drop]
      omega)
    rw [hcount, hover, hblanks]
    split at henter
    case isTrue hend =>
      rw [if_pos hend]
      obtain rfl := Except.ok.inj henter
      exact ⟨_, rfl, hskip⟩
    case isFalse hcode =>
      rw [if_neg hcode]
      exact (hskip.startLine false).settle henter
  · rw [if_neg hline] at henter ⊢
    obtain rfl := Except.ok.inj henter
    exact ⟨t, rfl, h⟩

/-! ## Section 5: Pieces -/

theorem lineFeed (h : Swapped behind other s t)
    (hlt : behind.length < s.rest.length) : Swapped behind other s.lineFeed t.lineFeed := by
  obtain ⟨front, hfront, rfl⟩ := h
  have hswapped : Swapped behind other s { s with rest := front ++ other } := ⟨front, hfront, rfl⟩
  have hone : 1 + behind.length ≤ s.rest.length := by omega
  unfold Scan.lineFeed
  dsimp only
  split
  · refine startLine ?_ true
    split
    · exact hswapped.skip hone
    · exact (hswapped.emit .newline).skip hone
  · exact hswapped.skip hone

/-- A comment is the same if a line feed ends it in front of the text. -/
theorem comment (h : Swapped behind other s t)
    (hlt : behind.length < (s.skip (s.rest.takeWhile (· != newline)).length).rest.length) :
    Swapped behind other (s.skip (s.rest.takeWhile (· != newline)).length)
      (t.skip (t.rest.takeWhile (· != newline)).length) := by
  have hlength : (s.skip (s.rest.takeWhile (· != newline)).length).rest.length =
    s.rest.length - (s.rest.takeWhile (· != newline)).length := List.length_drop
  have hends : (s.rest.takeWhile (· != newline)).length + behind.length < s.rest.length := by omega
  rw [h.takeWhile (Nat.le_of_lt hends) fun hend => absurd hend (Nat.ne_of_lt hends)]
  exact h.skip (Nat.le_of_lt hends)

theorem continuation {after after' : Text} (h : Swapped behind other s t)
    (hrest : s.rest = backslash :: after) (hrest' : t.rest = backslash :: after')
    (hread : s.continuation after = .ok s') (hle : behind.length ≤ s'.rest.length) :
    ∃ t', t.continuation after' = .ok t' ∧ Swapped behind other s' t' := by
  cases after with
  | nil => cases hread
  | cons b more =>
    unfold Scan.continuation at hread
    dsimp only at hread
    by_cases hb : b = newline
    · rw [if_pos hb] at hread
      obtain rfl := Except.ok.inj hread
      have hlength : (s.skip 2).rest.length = s.rest.length - 2 := List.length_drop
      have hlong : 2 ≤ s.rest.length := by simp [hrest]
      have htwo : 2 + behind.length ≤ s.rest.length := by omega
      -- The line feed behind the backslash is in front of the text, too.
      have htake := h.take htwo
      rw [hrest, hrest'] at htake
      obtain ⟨more', rfl⟩ : ∃ more', after' = newline :: more' := by
        cases after' with
        | nil => simp at htake
        | cons c more' =>
          simp only [List.take_succ_cons, List.take_zero, List.cons.injEq, and_true, true_and] at htake
          exact ⟨more', by rw [htake, hb]⟩
      exact ⟨t.skip 2, rfl, h.skip htwo⟩
    · rw [if_neg hb] at hread
      cases hread

theorem number {after : Text} (h : Swapped behind other s t) (hother : other.IsParted)
    (hrest : s.rest = b :: after) (hstarts : NumberLiteral.startsAt s.rest = true)
    (hle : behind.length ≤ s.number.rest.length) :
    NumberLiteral.startsAt t.rest = true ∧ Swapped behind other s.number t.number := by
  have hlength := length_of_number s
  have hfits : NumberLiteral.length s.rest + behind.length ≤ s.rest.length := by omega
  obtain ⟨hsame, hstarts'⟩ : NumberLiteral.length t.rest = NumberLiteral.length s.rest ∧
      NumberLiteral.startsAt t.rest = true := by
    have hpos : 0 < NumberLiteral.length s.rest := by
      rw [hrest]
      exact NumberLiteral.length_pos
    obtain ⟨front, rfl, rfl⟩ := h.exists_cons hrest (by omega)
    rw [hrest] at hfits hstarts ⊢
    have hends : NumberLiteral.length (b :: front ++ behind) ≤ (b :: front).length := by
      show NumberLiteral.length (b :: (front ++ behind)) ≤ (b :: front).length
      simp only [List.length_cons, List.length_append] at hfits ⊢
      omega
    exact ⟨NumberLiteral.length_congr hother hends,
      NumberLiteral.startsAt_congr hother hstarts hends⟩
  refine ⟨hstarts', ?_⟩
  unfold Scan.number
  dsimp only
  rw [hsame, h.take hfits]
  exact (h.emit _).skip hfits

theorem string {word : Text} (h : Swapped behind other s t) (hother : other.IsParted)
    (hquote : ∀ b ∈ (s.rest.drop word.length).head?, isQuote b = true)
    (hword : word.length < s.rest.length) (hread : s.string word = .ok s')
    (hle : behind.length ≤ s'.rest.length) :
    ∃ t', t.string word = .ok t' ∧ Swapped behind other s' t' := by
  unfold Scan.string at hread ⊢
  cases hliteral : StringLiteral.length? word s.rest with
  | error literal =>
    rw [hliteral] at hread
    cases hread
  | ok n =>
    rw [hliteral] at hread
    obtain rfl := Except.ok.inj hread
    have hbehind : behind.length ≤ s.rest.length - n := by
      rw [← List.length_drop]
      exact hle
    have hbounds := StringLiteral.length?_bounds hword hliteral
    have hfits : n + behind.length ≤ s.rest.length := by omega
    have hsame : StringLiteral.length? word t.rest = .ok n := by
      obtain ⟨front, hfront, rfl⟩ := h
      rw [hfront] at hquote hword hliteral hfits
      refine StringLiteral.length?_congr hother hquote hword ?_ hliteral
      rw [List.length_append] at hfits
      omega
    rw [hsame]
    dsimp only
    rw [h.take hfits]
    exact ⟨_, rfl, (h.emit _).skip hfits⟩

/-- The byte behind a word is the same, or starts the other text. -/
theorem drop_head? (h : Swapped behind other s t) (hle : n + behind.length ≤ s.rest.length) :
    (t.rest.drop n).head? = (s.rest.drop n).head? ∨
      n + behind.length = s.rest.length ∧ (t.rest.drop n).head? = other.head? := by
  obtain ⟨front, hrest, rfl⟩ := h
  have hcount : n ≤ front.length := by
    rw [hrest, List.length_append] at hle
    omega
  show ((front ++ other).drop n).head? = _ ∨ _
  rw [hrest, List.drop_append_of_le_length hcount, List.drop_append_of_le_length hcount]
  cases hdrop : front.drop n with
  | nil =>
    have := List.drop_eq_nil_iff.mp hdrop
    refine .inr ⟨?_, rfl⟩
    rw [List.length_append]
    omega
  | cons b more => exact .inl rfl

theorem word (h : Swapped behind other s t) (hother : other.IsParted) (hread : s.word = .ok s')
    (hle : behind.length ≤ s'.rest.length) :
    ∃ t', t.word = .ok t' ∧ Swapped behind other s' t' := by
  rw [word_eq] at hread ⊢
  have hfits : (s.rest.takeWhile isNameByte).length ≤ s.rest.length :=
    (List.takeWhile_sublist _).length_le
  -- A word ends in front of the text, or right where that starts.
  have hword : (s.rest.takeWhile isNameByte).length + behind.length ≤ s.rest.length →
      t.rest.takeWhile isNameByte = s.rest.takeWhile isNameByte :=
    fun hle => h.takeWhile hle fun _ => hother.head? rfl
  by_cases hquoted : s.isPrefixed = true
  · rw [if_pos hquoted] at hread
    obtain ⟨quote, after, hdrop, hquote⟩ := isQuote_of_isPrefixed hquoted
    have hlonger : (s.rest.takeWhile isNameByte).length < s.rest.length := by
      have := congrArg List.length hdrop
      rw [List.length_drop, List.length_cons] at this
      omega
    have hshorter := length_of_string hlonger hread
    have hend : (s.rest.takeWhile isNameByte).length + behind.length < s.rest.length := by omega
    have hsame := hword (Nat.le_of_lt hend)
    have hprefixed : t.isPrefixed = true := by
      -- The quote is in front of the text, for the literal is.
      have hhead := (h.drop_head? (Nat.le_of_lt hend)).resolve_right
        fun hno => absurd hno.1 (Nat.ne_of_lt hend)
      unfold isPrefixed at hquoted ⊢
      rw [hsame, hhead]
      exact hquoted
    rw [if_pos hprefixed, hsame]
    refine h.string hother ?_ hlonger hread hle
    rw [hdrop]
    intro b hb
    obtain rfl : quote = b := by simpa using hb
    exact hquote
  · rw [if_neg hquoted] at hread
    obtain rfl := Except.ok.inj hread
    have hbehind : behind.length ≤ s.rest.length - (s.rest.takeWhile isNameByte).length := by
      rw [← List.length_drop]
      exact hle
    have hend : (s.rest.takeWhile isNameByte).length + behind.length ≤ s.rest.length := by omega
    have hsame := hword hend
    have hplain : ¬ t.isPrefixed = true := by
      -- The other text starts with no quote.
      unfold isPrefixed at hquoted ⊢
      rw [hsame]
      rcases h.drop_head? hend with hhead | ⟨_, hhead⟩
      · rw [hhead]
        exact hquoted
      · obtain ⟨b, more, rfl, hb⟩ := hother
        have hnone : isQuote b = false := eq_false_of_parts hb rfl
        simp [hhead, hnone]
    rw [if_neg hplain, hsame]
    exact ⟨_, rfl, (h.emit _).skip hend⟩

theorem trackBrackets {tracked : Scan} {symbol : Symbol} (h : Swapped behind other s t)
    (htracked : s.trackBrackets symbol = .ok tracked) :
    ∃ tracked', t.trackBrackets symbol = .ok tracked' ∧ Swapped behind other tracked tracked' := by
  obtain ⟨front, hrest, rfl⟩ := h
  refine ⟨{ tracked with rest := front ++ other }, ?_, front, ?_, rfl⟩
  · unfold Scan.trackBrackets at htracked ⊢
    cases symbol with
    | closing bracket =>
      dsimp only at htracked ⊢
      cases hs : s.brackets with
      | nil =>
        rw [hs] at htracked
        cases htracked
      | cons innermost others =>
        rw [hs] at htracked
        dsimp only at htracked ⊢
        by_cases hsame : innermost.bracket = bracket
        · rw [if_pos hsame] at htracked ⊢
          obtain rfl := Except.ok.inj htracked
          rfl
        · rw [if_neg hsame] at htracked
          cases htracked
    | _ =>
      obtain rfl := Except.ok.inj htracked
      rfl
  · rw [trackBrackets_eq htracked]
    exact hrest

theorem symbol (h : Swapped behind other s t) (hother : other.IsParted)
    (hread : s.symbol b = .ok s') (hle : behind.length ≤ s'.rest.length) :
    ∃ t', t.symbol b = .ok t' ∧ Swapped behind other s' t' := by
  unfold Scan.symbol at hread ⊢
  cases hleading : Symbol.leading? s.rest with
  | none =>
    rw [hleading] at hread
    cases hread
  | some symbol =>
    rw [hleading] at hread
    dsimp only at hread
    cases htracked : s.trackBrackets symbol with
    | error e =>
      rw [htracked] at hread
      cases hread
    | ok tracked =>
      rw [htracked] at hread
      obtain rfl := Except.ok.inj hread
      have hrest : tracked.rest = s.rest := by rw [trackBrackets_eq htracked]
      have hstarts : symbol.text.length ≤ s.rest.length := by
        unfold Symbol.leading? at hleading
        have hfound := List.find?_some hleading
        exact (List.isPrefixOf_iff_prefix.mp hfound).length_le
      have hfits : symbol.text.length + behind.length ≤ s.rest.length := by
        have hbehind : behind.length ≤ tracked.rest.length - symbol.text.length := by
          rw [← List.length_drop]
          exact hle
        rw [hrest] at hbehind
        omega
      obtain ⟨tracked', htracked', hswapped⟩ := h.trackBrackets htracked
      have hsame : Symbol.leading? t.rest = some symbol := by
        obtain ⟨front, hfront, rfl⟩ := h
        rw [hfront] at hleading
        rw [hfront, List.length_append] at hfits
        exact Symbol.leading?_congr hother hleading (by omega)
      rw [hsame]
      dsimp only
      rw [htracked']
      exact ⟨_, rfl, (hswapped.emit _).skip (hrest ▸ hfits)⟩

/-- **One piece**: a piece that ends in front of a text ends there in front
    of any other that parts, unless it is a comment. -/
theorem piece {after : Text} (h : Swapped behind other s t) (hother : other.IsParted)
    (hrest : s.rest = b :: after) (hpiece : s.piece b after = .ok s')
    (hle : behind.length ≤ s'.rest.length) (hcomment : b = hash → behind.length < s'.rest.length) :
    ∃ after' t', t.rest = b :: after' ∧ t.piece b after' = .ok t' ∧
      Swapped behind other s' t' := by
  have hlt := (piece_reads hrest hpiece).length_lt
  obtain ⟨front, rfl, ht⟩ := h.exists_cons hrest (by omega)
  have hrest' : t.rest = b :: (front ++ other) := by rw [ht]; rfl
  refine ⟨front ++ other, ?_⟩
  suffices hread : ∃ t', t.piece b (front ++ other) = .ok t' ∧ Swapped behind other s' t' by
    obtain ⟨t', hread, hswapped⟩ := hread
    exact ⟨t', hrest', hread, hswapped⟩
  unfold Scan.piece at hpiece ⊢
  by_cases hblank : isBlank b = true
  · rw [if_pos hblank] at hpiece ⊢
    obtain rfl := Except.ok.inj hpiece
    exact ⟨_, rfl, h.skip (by omega)⟩
  rw [if_neg hblank] at hpiece ⊢
  by_cases hhash : b = hash
  · rw [if_pos hhash] at hpiece ⊢
    obtain rfl := Except.ok.inj hpiece
    exact ⟨_, rfl, h.comment (hcomment hhash)⟩
  rw [if_neg hhash] at hpiece ⊢
  by_cases hnewline : b = newline
  · rw [if_pos hnewline] at hpiece ⊢
    obtain rfl := Except.ok.inj hpiece
    exact ⟨_, rfl, h.lineFeed (by omega)⟩
  rw [if_neg hnewline] at hpiece ⊢
  by_cases hslash : b = backslash
  · rw [if_pos hslash] at hpiece ⊢
    exact h.continuation (hslash ▸ hrest) (hslash ▸ hrest') hpiece hle
  rw [if_neg hslash] at hpiece ⊢
  by_cases hname : isNameStart b = true
  · rw [if_pos hname] at hpiece ⊢
    exact h.word hother hpiece hle
  rw [if_neg hname] at hpiece ⊢
  by_cases hnumber : NumberLiteral.startsAt s.rest = true
  · rw [if_pos hnumber] at hpiece
    obtain rfl := Except.ok.inj hpiece
    obtain ⟨hstarts, hswapped⟩ := h.number hother hrest hnumber hle
    rw [if_pos hstarts]
    exact ⟨_, rfl, hswapped⟩
  have hnone : ¬ NumberLiteral.startsAt t.rest = true := by
    rw [Bool.not_eq_true, hrest] at hnumber
    rw [Bool.not_eq_true, hrest']
    exact NumberLiteral.not_startsAt_congr hother hnumber
  rw [if_neg hnumber] at hpiece
  rw [if_neg hnone]
  by_cases hquote : isQuote b = true
  · rw [if_pos hquote] at hpiece ⊢
    refine h.string hother ?_ (by simp [hrest]) hpiece hle
    rw [hrest]
    intro c hc
    obtain rfl : b = c := by simpa using hc
    exact hquote
  · rw [if_neg hquote] at hpiece ⊢
    exact h.symbol hother hpiece hle

end Swapped

/-! ## Section 6: Runs -/

/-- The byte order mark of a source is in front of a text, or makes no
    difference to it. -/
theorem isPrefixOf_byteOrderMark_parted (hother : other.IsParted) :
    byteOrderMark.isPrefixOf (front ++ other) = byteOrderMark.isPrefixOf front := by
  obtain ⟨c, rest, rfl, hc⟩ := hother
  refine isPrefixOf_append_cons fun hmem => ?_
  have hnone : byteOrderMark.any parts = false := rfl
  exact List.any_eq_false.mp hnone c hmem hc

theorem swapped_ofSource (hother : other.IsParted)
    (hle : behind.length ≤ (ofSource (front ++ behind)).rest.length) :
    Swapped behind other (ofSource (front ++ behind)) (ofSource (front ++ other)) := by
  have hmark : byteOrderMark.isPrefixOf front = true → 3 ≤ front.length := fun h =>
    (List.isPrefixOf_iff_prefix.mp h).length_le
  have hsame : byteOrderMark.isPrefixOf (front ++ behind) = byteOrderMark.isPrefixOf front := by
    rw [Bool.eq_iff_iff, List.isPrefixOf_iff_prefix, List.isPrefixOf_iff_prefix]
    refine ⟨fun h => ?_, fun h => h.trans (List.prefix_append _ _)⟩
    -- The mark is in front of all that is left behind it.
    have hdrop : (ofSource (front ++ behind)).rest = (front ++ behind).drop 3 :=
      if_pos (List.isPrefixOf_iff_prefix.mpr h)
    have hlong : 3 ≤ (front ++ behind).length := h.length_le
    rw [hdrop, List.length_drop] at hle
    rw [List.length_append] at hle hlong
    refine List.prefix_of_prefix_length_le h (List.prefix_append _ _) ?_
    show 3 ≤ front.length
    omega
  unfold ofSource
  rw [isPrefixOf_byteOrderMark_parted hother, hsame]
  by_cases hmarked : byteOrderMark.isPrefixOf front = true
  · refine ⟨front.drop 3, ?_, ?_⟩
    · simp only [hmarked, if_true]
      exact List.drop_append_of_le_length (hmark hmarked)
    · simp only [hmarked, if_true, List.drop_append_of_le_length (hmark hmarked)]
  · refine ⟨front, ?_, ?_⟩
    · simp only [hmarked]
      rfl
    · simp only [hmarked]
      rfl

/-- **A run** comes past the same scans as long as they have not reached a
    text, whatever stands in its place.  By induction on the rounds. -/
theorem Visits.swapped (hother : other.IsParted) (h : Visits (front ++ behind) stage s)
    (hlt : behind.length < s.rest.length) :
    ∃ t, Visits (front ++ other) stage t ∧ Swapped behind other s t := by
  generalize hsource : front ++ behind = source at h
  induction h with
  | start =>
    subst hsource
    exact ⟨_, .start, swapped_ofSource hother (Nat.le_of_lt hlt)⟩
  | enter _ henter ih =>
    have hle := enterLine_length_le henter
    obtain ⟨t, hvisit, hswapped⟩ := ih (by omega)
    obtain ⟨t', henter', hswapped'⟩ := hswapped.enterLine henter hlt
    exact ⟨t', .enter hvisit henter', hswapped'⟩
  | piece _ hrest hpiece ih =>
    have hshorter := (piece_reads hrest hpiece).length_lt
    obtain ⟨t, hvisit, hswapped⟩ := ih (by omega)
    obtain ⟨after', t', hrest', hpiece', hswapped'⟩ :=
      hswapped.piece hother hrest hpiece (Nat.le_of_lt hlt) fun _ => hlt
    exact ⟨t', .piece hvisit hrest' hpiece', hswapped'⟩

end Scan

end StyleCheck
