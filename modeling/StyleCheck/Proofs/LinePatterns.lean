import StyleCheck.LineRules
import StyleCheck.Proofs.Pattern
import StyleCheck.Proofs.Text.Characters

/-! # What the Patterns of the Line Rules Say

    Three rules match a line against patterns, and a pattern may divide
    the line in any way.  This module says which lines match, without
    divisions: by one reading from the left, and for the rule that lets
    a character stand in front, by the characters of the line.

    * `Line.isMatch_heading_iff`, `Line.isMatch_heading`: patterns that
      start with a keyword and the spaces around it.
    * `Line.bad_names_scanned`: the rules on the names of classes and functions.
    * `Line.startsWide_iff`: a keyword with wide spacing.
    * `Line.hasWideConstruction_iff`: one behind at most one character.
-/

namespace StyleCheck

open Byte

namespace Line

open Text

/-! ## Section 1: Keywords and their spaces -/

/-- Spaces, the keyword, and at least one space. -/
def heading (keyword : Text) : Pattern :=
  [.atLeast 0 (· == space)] ++ Pattern.word keyword ++ [.atLeast 1 (· == space)]

/-- Spaces, the keyword, at least one space, and what follows all of
    them. -/
def Heads (keyword rest line : Text) : Prop :=
  rest.head? ≠ some space ∧ ∃ i j, line =
    List.replicate i space ++ (keyword ++ (List.replicate (j + 1) space ++ rest))

/-- Spaces are all taken, by a pattern that goes on with something else. -/
theorem isMatch_spaces {least n : Nat} {runs : Pattern} {rest : Text} (hn : least ≤ n)
    (hruns : ∀ after, runs.isMatch (space :: after) = false) (hrest : rest.head? ≠ some space) :
    Pattern.isMatch (.atLeast least (· == space) :: runs) (List.replicate n space ++ rest) =
      runs.isMatch rest := by
  have hrefuse : ∀ b after, (b == space) = true → runs.isMatch (b :: after) = false := by
    intro b after hb
    obtain rfl := beq_iff_eq.mp hb
    exact hruns after
  have hspaces : ∀ b ∈ List.replicate n space, (b == space) = true := by
    intro b hb
    rw [List.eq_of_mem_replicate hb]
    rfl
  have hother : ∀ b ∈ rest.head?, (b == space) = false := by
    intro b hb
    have hne : b ≠ space := fun h => hrest (h ▸ hb)
    simpa using hne
  obtain ⟨htake, hdrop⟩ := Text.longest_append hspaces hother
  rw [Bool.eq_iff_iff, Pattern.isMatch_longest hrefuse, htake, hdrop, List.length_replicate]
  exact and_iff_right hn

/-- Behind the heading, a pattern goes on with what stands behind its
    spaces. -/
theorem isMatch_heading {keyword rest : Text} {runs : Pattern} (i j : Nat)
    (hkeyword : ∃ b more, keyword = b :: more ∧ b ≠ space)
    (hruns : ∀ after, runs.isMatch (space :: after) = false) (hrest : rest.head? ≠ some space) :
    (heading keyword ++ runs).isMatch
      (List.replicate i space ++ (keyword ++ (List.replicate (j + 1) space ++ rest))) =
        runs.isMatch rest := by
  obtain ⟨b, more, rfl, hb⟩ := hkeyword
  have hshape : heading (b :: more) ++ runs = .atLeast 0 (· == space) ::
      (Pattern.word (b :: more) ++ (.atLeast 1 (· == space) :: runs)) := by
    simp [heading]
  have hword : ∀ after, (Pattern.word (b :: more) ++ (.atLeast 1 (· == space) :: runs)).isMatch
      (space :: after) = false := by
    intro after
    rw [Bool.eq_false_iff]
    intro hmatch
    obtain ⟨_, hsplit, _⟩ := Pattern.isMatch_word_append.mp hmatch
    exact hb (List.cons.inj hsplit).1.symm
  have hfront : ((b :: more) ++ (List.replicate (j + 1) space ++ rest)).head? ≠ some space :=
    fun h => hb (Option.some.inj h)
  rw [hshape, isMatch_spaces (Nat.zero_le i) hword hfront,
    ← isMatch_spaces (Nat.le_add_left 1 j) hruns hrest, Bool.eq_iff_iff,
    Pattern.isMatch_word_append]
  constructor
  · rintro ⟨after, hafter, hmatch⟩
    obtain rfl := List.append_cancel_left hafter
    exact hmatch
  · exact fun hmatch => ⟨_, rfl, hmatch⟩

/-- A pattern that starts with a keyword goes on behind all the spaces, if
    it does not go on with a space. -/
theorem isMatch_heading_iff {keyword line : Text} {runs : Pattern}
    (hruns : ∀ after, runs.isMatch (space :: after) = false) :
    (heading keyword ++ runs).isMatch line = true ↔
      ∃ rest, Heads keyword rest line ∧ runs.isMatch rest = true := by
  have hshape : heading keyword ++ runs = .atLeast 0 (· == space) ::
      (Pattern.word keyword ++ (.atLeast 1 (· == space) :: runs)) := by
    simp [heading]
  rw [hshape, Pattern.isMatch_atLeast_byte]
  simp only [Pattern.isMatch_word_append, Pattern.isMatch_atLeast_byte, Nat.add_zero]
  constructor
  · rintro ⟨i, _, rfl, _, rfl, j, rest, rfl, hmatch⟩
    have hrest : rest.head? ≠ some space := by
      intro hspace
      obtain ⟨after, rfl⟩ := List.head?_eq_some_iff.mp hspace
      rw [hruns after] at hmatch
      cases hmatch
    exact ⟨rest, ⟨hrest, i, j, rfl⟩, hmatch⟩
  · rintro ⟨rest, ⟨_, i, j, rfl⟩, hmatch⟩
    exact ⟨i, _, rfl, _, rfl, j, rest, rfl, hmatch⟩

/-! ## Section 2: Names -/

/-- A byte of a function name without capitals. -/
def isSnake (b : UInt8) : Bool := isLower b || isDigit b || b == underscore

/-- A byte of a class name. -/
def isWordByte (b : UInt8) : Bool := isLetter b || b == underscore

theorem isUpper_eq_false_of_isSnake {b : UInt8} (h : isSnake b = true) : isUpper b = false := by
  rw [Bool.eq_false_iff]
  intro hupper
  simp only [isUpper, Bool.and_eq_true, decide_eq_true_eq, UInt8.le_iff_toNat_le] at hupper
  simp only [isSnake, isLower, isDigit, Bool.or_eq_true, Bool.and_eq_true, decide_eq_true_eq,
    beq_iff_eq, UInt8.le_iff_toNat_le] at h
  rcases h with (h | h) | rfl
  · have : (0x61 : UInt8).toNat = 0x61 := rfl
    have : (0x5A : UInt8).toNat = 0x5A := rfl
    omega
  · have : (0x39 : UInt8).toNat = 0x39 := rfl
    have : (0x41 : UInt8).toNat = 0x41 := rfl
    omega
  · exact absurd hupper.2 (by decide)

/-- The longest run of bytes that may stand with small letters ends with
    the first that may not. -/
theorem isMatch_capital (t : Text) : Pattern.isMatch [.atLeast 0 isSnake, .one isUpper] t =
    (t.dropWhile isSnake).head?.any isUpper := by
  have hrefuse : ∀ b after, isSnake b = true →
      Pattern.isMatch [.one isUpper] (b :: after) = false := by
    intro b after hb
    rw [Pattern.isMatch_singleton]
    exact isUpper_eq_false_of_isSnake hb
  rw [Bool.eq_iff_iff, Pattern.isMatch_longest hrefuse, Pattern.isMatch_singleton]
  exact and_iff_right (Nat.zero_le _)

theorem hasBadClassName_iff {line : Text} : hasBadClassName line = true ↔
    ∃ rest, Heads (ascii "class") rest line ∧
      (rest.head?.any isLower = true ∨ underscore ∈ (rest.takeWhile isWordByte).tail) := by
  rw [hasBadClassName, Bool.or_eq_true, show lowerClass = heading (ascii "class") ++
      [.one isLower] from rfl,
    show underscoreClass = heading (ascii "class") ++
      [.atLeast 1 isWordByte, .one (· == underscore)] from rfl,
    isMatch_heading_iff fun _ => rfl, isMatch_heading_iff fun _ => rfl]
  have hbyte : isWordByte underscore = true := rfl
  simp only [Pattern.isMatch_singleton, Pattern.isMatch_inner hbyte]
  constructor
  · rintro (⟨rest, hheads, hlower⟩ | ⟨rest, hheads, hunderscore⟩)
    · exact ⟨rest, hheads, .inl hlower⟩
    · exact ⟨rest, hheads, .inr hunderscore⟩
  · rintro ⟨rest, hheads, hlower | hunderscore⟩
    · exact .inl ⟨rest, hheads, hlower⟩
    · exact .inr ⟨rest, hheads, hunderscore⟩

theorem hasBadFunctionName_iff {line : Text} : hasBadFunctionName line = true ↔
    ∃ rest, Heads (ascii "def") rest line ∧
      (rest.dropWhile isSnake).head?.any isUpper = true := by
  rw [hasBadFunctionName, show upperFunction = heading (ascii "def") ++
      [.atLeast 0 isSnake, .one isUpper] from rfl, isMatch_heading_iff fun _ => rfl]
  simp only [isMatch_capital]

/-- **Names in one reading**: the rule on class names holds of a line of
    spaces, the keyword, at least one space and a rest that starts with no
    space, if the rest starts with a small letter, or if an underscore is
    in its longest run of letters and underscores, but not at the front.
    The rule on function names holds if a capital is right behind the
    longest run of small letters, digits and underscores. -/
theorem bad_names_scanned (line : Text) :
    (hasBadClassName line = true ↔ ∃ rest, Heads (ascii "class") rest line ∧
      (rest.head?.any isLower = true ∨ underscore ∈ (rest.takeWhile isWordByte).tail)) ∧
    (hasBadFunctionName line = true ↔ ∃ rest, Heads (ascii "def") rest line ∧
      (rest.dropWhile isSnake).head?.any isUpper = true) :=
  ⟨hasBadClassName_iff, hasBadFunctionName_iff⟩

/-! ## Section 3: Wide spacing -/

/-- `def` behind up to two underscores, or `class`. -/
def Opens (word : Text) : Prop :=
  (∃ n ≤ 2, word = List.replicate n underscore ++ ascii "def") ∨ word = ascii "class"

/-- Spaces, a word that opens a definition, and at least two spaces. -/
def IsWide (t : Text) : Prop :=
  ∃ i word j rest, Opens word ∧
    t = List.replicate i space ++ (word ++ (List.replicate (j + 2) space ++ rest))

/-- What stands behind a word may be anything, if two spaces come first. -/
theorem isMatch_wide {word t : Text} :
    Pattern.isMatch (Pattern.word word ++ [.atLeast 2 (· == space)]) t = true ↔
      ∃ j rest, t = word ++ (List.replicate (j + 2) space ++ rest) := by
  simp only [Pattern.isMatch_word_append, Pattern.isMatch_atLeast_byte]
  constructor
  · rintro ⟨_, rfl, j, rest, rfl, _⟩
    exact ⟨j, rest, rfl⟩
  · rintro ⟨j, rest, rfl⟩
    exact ⟨_, rfl, j, rest, rfl, rfl⟩

theorem isMatch_wideDef {t : Text} : wideDef.isMatch t = true ↔
    ∃ i n j rest, n ≤ 2 ∧ t = List.replicate i space ++
      (List.replicate n underscore ++ ascii "def" ++ (List.replicate (j + 2) space ++ rest)) := by
  rw [show wideDef = .atLeast 0 (· == space) :: .optional (· == underscore) ::
      .optional (· == underscore) :: (Pattern.word (ascii "def") ++ [.atLeast 2 (· == space)])
    from rfl, Pattern.isMatch_atLeast_byte]
  simp only [Pattern.isMatch_optional_byte, isMatch_wide, Nat.add_zero]
  constructor
  · rintro ⟨i, _, rfl, m, _, hm, rfl, n, _, hn, rfl, j, rest, rfl⟩
    have hsum : List.replicate (m + n) underscore =
        List.replicate m underscore ++ List.replicate n underscore :=
      List.replicate_append_replicate.symm
    refine ⟨i, m + n, j, rest, by omega, ?_⟩
    simp only [hsum, List.append_assoc]
  -- One underscore goes to the first run, if there are any.
  · rintro ⟨i, n, j, rest, hn, rfl⟩
    have hsum : List.replicate n underscore =
        List.replicate (min n 1) underscore ++ List.replicate (n - min n 1) underscore := by
      rw [List.replicate_append_replicate, Nat.add_sub_cancel' (Nat.min_le_left n 1)]
    refine ⟨i, _, rfl, min n 1, _, Nat.min_le_right n 1, ?_, n - min n 1, _, by omega, rfl, j, rest,
      rfl⟩
    simp only [hsum, List.append_assoc]

theorem isMatch_wideClass {t : Text} : wideClass.isMatch t = true ↔
    ∃ i j rest, t = List.replicate i space ++
      (ascii "class" ++ (List.replicate (j + 2) space ++ rest)) := by
  rw [show wideClass = .atLeast 0 (· == space) ::
      (Pattern.word (ascii "class") ++ [.atLeast 2 (· == space)]) from rfl,
    Pattern.isMatch_atLeast_byte]
  simp only [isMatch_wide, Nat.add_zero]
  constructor
  · rintro ⟨i, _, rfl, j, rest, rfl⟩
    exact ⟨i, j, rest, rfl⟩
  · rintro ⟨i, j, rest, rfl⟩
    exact ⟨i, _, rfl, j, rest, rfl⟩

theorem startsWide_iff {t : Text} : startsWide t = true ↔ IsWide t := by
  rw [startsWide, Bool.or_eq_true, isMatch_wideDef, isMatch_wideClass]
  constructor
  · rintro (⟨i, n, j, rest, hn, rfl⟩ | ⟨i, j, rest, rfl⟩)
    · exact ⟨i, _, j, rest, .inl ⟨n, hn, rfl⟩, rfl⟩
    · exact ⟨i, _, j, rest, .inr rfl, rfl⟩
  · rintro ⟨i, _, j, rest, ⟨n, hn, rfl⟩ | rfl, rfl⟩
    · exact .inl ⟨i, n, j, rest, hn, rfl⟩
    · exact .inr ⟨i, j, rest, rfl⟩

/-- A text with wide spacing starts with an ASCII byte. -/
theorem isContinuation_of_isWide {t : Text} (h : IsWide t) :
    ∀ b ∈ t.head?, isContinuation b = false := by
  obtain ⟨i, word, j, rest, hword, rfl⟩ := h
  intro b hb
  cases i with
  | succ i =>
    obtain rfl := Option.some.inj hb
    rfl
  | zero =>
    rcases hword with ⟨n, _, rfl⟩ | rfl
    · cases n <;> obtain rfl := Option.some.inj hb <;> rfl
    · obtain rfl := Option.some.inj hb
      rfl

/-- **Wide spacing behind a character**: the rule on the spacing of
    definitions holds of a line that can be decoded, if it can be written
    as at most one character other than `#`, spaces, a word that opens a
    definition, and at least two spaces in front of the rest. -/
theorem hasWideConstruction_iff {line : Text} {chars : List Char}
    (hchars : line.decode? = some chars) :
    hasWideConstruction line = true ↔
      ∃ (lead : Option Char) (rest : Text), lead ≠ some '#' ∧ IsWide rest ∧
        line = encode lead.toList ++ rest := by
  have hhash : ∀ c, hash ∈ String.utf8EncodeChar c ↔ c = '#' := fun c => mem_encodeChar_iff rfl
  obtain rfl := decode?_eq_some_iff.mp hchars
  simp only [hasWideConstruction, Bool.or_eq_true, Bool.and_eq_true, bne_iff_ne, startsWide_iff]
  constructor
  · rintro (hwide | ⟨⟨hne, hhead⟩, hwide⟩)
    · exact ⟨none, _, by simp, hwide, rfl⟩
    · cases chars with
      | nil => exact absurd rfl hne
      | cons c chars =>
        rw [encode_cons, dropCharacter_encodeChar c fun b => isContinuation_of_head?_encode] at hwide
        refine ⟨some c, encode chars, ?_, hwide, by simp⟩
        rintro ⟨⟩
        exact hhead rfl
  · rintro ⟨_ | c, rest, hlead, hwide, hline⟩
    · exact .inl (hline ▸ hwide)
    -- The character is dropped, since no character goes on into a space,
    -- an underscore or a letter.
    · have hsplit : encode chars = String.utf8EncodeChar c ++ rest := by simpa using hline
      refine .inr ⟨⟨?_, ?_⟩, ?_⟩
      · rw [hsplit]
        simp
      · intro hhead
        obtain ⟨a, tail, hc, _⟩ := (isSequence_encodeChar c).exists_cons
        rw [hsplit, hc] at hhead
        obtain rfl : a = hash := Option.some.inj hhead
        have hmem := (hhash c).mp (hc ▸ List.mem_cons_self)
        exact hlead (by rw [hmem])
      · rw [hsplit, dropCharacter_encodeChar c (isContinuation_of_isWide hwide)]
        exact hwide

/-- The character in front of the underscore has two bytes. -/
theorem wide_spacing_behind_accent :
    let line : Text := [0xC3, 0xA9] ++ ascii "_def  f():\n"
    line.decode? = some "é_def  f():\n".toList ∧ hasWideConstruction line = true := by
  intro line
  have hchars : line.decode? = some "é_def  f():\n".toList := decode?_eq_some_iff.mpr (by decide)
  have hwide : IsWide (ascii "_def  f():\n") :=
    ⟨0, ascii "_def", 0, ascii "f():\n", .inl ⟨1, by decide, rfl⟩, rfl⟩
  have hline : line = encode (some 'é').toList ++ ascii "_def  f():\n" := by rfl
  exact ⟨hchars, (hasWideConstruction_iff hchars).mpr ⟨some 'é', _, by decide, hwide, hline⟩⟩

end Line

end StyleCheck
