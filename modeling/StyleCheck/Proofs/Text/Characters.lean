import StyleCheck.Proofs.Pattern
import StyleCheck.Text.Utf8

/-! # Characters

    A well-formed text is the encoding of some characters, in one way.
    Nothing in the library decodes a text: it looks for sequences of
    bytes from a table, counts bytes that are no continuation, and drops
    them up to the next one that is none.  This module says what all that
    comes to in characters.

    * `decode?_eq_some_iff`: the decoder of the core library, on lists.
    * `isSequence_iff`: the table has the encodings of the characters.
    * `firstIllFormed?_eq_none_iff`: a text in which nothing is ill-formed
      has characters.
    * `characterCount_encode`: how many they are.
    * `dropCharacter_encode`: all of them but the first.
-/

namespace StyleCheck.Text

open Byte

variable {t s rest : Text} {chars : List Char} {c : Char} {a b : UInt8} {n offset : Nat}

/-! ## Section 1: Encoding and decoding -/

/-- The bytes of some characters. -/
def encode (chars : List Char) : Text := chars.flatMap String.utf8EncodeChar

/-- The characters of a text, if it is well-formed. -/
def decode? (t : Text) : Option (List Char) := t.toByteArray.utf8Decode?.map Array.toList

@[simp] theorem encode_nil : encode [] = [] := rfl

@[simp] theorem encode_cons (c : Char) (chars : List Char) :
    encode (c :: chars) = String.utf8EncodeChar c ++ encode chars := rfl

@[simp] theorem encode_append (front back : List Char) :
    encode (front ++ back) = encode front ++ encode back := List.flatMap_append

theorem encode_singleton (c : Char) : encode [c] = String.utf8EncodeChar c := by simp

theorem encode_flatten (lines : List (List Char)) :
    encode lines.flatten = (lines.map encode).flatten := by
  induction lines with
  | nil => rfl
  | cons line lines ih =>
    rw [List.flatten_cons, encode_append, ih, List.map_cons, List.flatten_cons]

theorem decode?_encode (chars : List Char) : decode? (encode chars) = some chars := by
  have hdecode : chars.utf8Encode.utf8Decode? = some chars.toArray := List.utf8Decode?_utf8Encode
  unfold decode?
  rw [show (encode chars).toByteArray = chars.utf8Encode from rfl, hdecode]
  rfl

/-- A text is decoded to the characters that it is the encoding of. -/
theorem decode?_eq_some_iff : decode? t = some chars ↔ t = encode chars := by
  constructor
  · intro h
    have hsome : t.toByteArray.utf8Decode?.isSome = true := by
      obtain ⟨decoded, hdecoded, _⟩ := Option.map_eq_some_iff.mp h
      rw [hdecoded]
      rfl
    obtain ⟨others, hothers⟩ := ByteArray.isSome_utf8Decode?_iff.mp hsome
    obtain rfl : t = encode others := List.toByteArray_inj.mp hothers
    rw [decode?_encode] at h
    rw [Option.some.inj h]
  · intro h
    rw [h, decode?_encode]

/-! ## Section 2: Sequences and characters -/

/-- A sequence of the table. -/
inductive IsSequence : Text → Prop where
  | one {a : UInt8} (h : isSequence1 a = true) : IsSequence [a]
  | two {a b : UInt8} (h : isSequence2 a b = true) : IsSequence [a, b]
  | three {a b c : UInt8} (h : isSequence3 a b c = true) : IsSequence [a, b, c]
  | four {a b c d : UInt8} (h : isSequence4 a b c d = true) : IsSequence [a, b, c, d]

theorem isContinuation_iff : isContinuation b = true ↔ 0x80 ≤ b.toNat ∧ b.toNat ≤ 0xBF := by
  simp [isContinuation, UInt8.le_iff_toNat_le]

theorem isSequence1_iff : isSequence1 a = true ↔ a.toNat < 0x80 := by
  simp [isSequence1, UInt8.lt_iff_toNat_lt]

theorem isSequence2_iff : isSequence2 a b = true ↔
    0xC2 ≤ a.toNat ∧ a.toNat ≤ 0xDF ∧ 0x80 ≤ b.toNat ∧ b.toNat ≤ 0xBF := by
  simp [isSequence2, isContinuation_iff, UInt8.le_iff_toNat_le, and_assoc]

theorem isSequence3_iff {c : UInt8} : isSequence3 a b c = true ↔
    0xE0 ≤ a.toNat ∧ a.toNat ≤ 0xEF ∧ 0x80 ≤ b.toNat ∧ b.toNat ≤ 0xBF ∧
      0x80 ≤ c.toNat ∧ c.toNat ≤ 0xBF ∧ (a.toNat ≠ 0xE0 ∨ 0xA0 ≤ b.toNat) ∧
        (a.toNat ≠ 0xED ∨ b.toNat ≤ 0x9F) := by
  have hlow : a = 0xE0 ↔ a.toNat = 0xE0 := UInt8.toNat_inj.symm
  have hhigh : a = 0xED ↔ a.toNat = 0xED := UInt8.toNat_inj.symm
  simp [isSequence3, isContinuation_iff, UInt8.le_iff_toNat_le, and_assoc, hlow, hhigh]

theorem isSequence4_iff {c d : UInt8} : isSequence4 a b c d = true ↔
    0xF0 ≤ a.toNat ∧ a.toNat ≤ 0xF4 ∧ 0x80 ≤ b.toNat ∧ b.toNat ≤ 0xBF ∧
      0x80 ≤ c.toNat ∧ c.toNat ≤ 0xBF ∧ 0x80 ≤ d.toNat ∧ d.toNat ≤ 0xBF ∧
        (a.toNat ≠ 0xF0 ∨ 0x90 ≤ b.toNat) ∧ (a.toNat ≠ 0xF4 ∨ b.toNat ≤ 0x8F) := by
  have hlow : a = 0xF0 ↔ a.toNat = 0xF0 := UInt8.toNat_inj.symm
  have hhigh : a = 0xF4 ↔ a.toNat = 0xF4 := UInt8.toNat_inj.symm
  simp [isSequence4, isContinuation_iff, UInt8.le_iff_toNat_le, and_assoc, hlow, hhigh]

theorem ofNat_eq (h : n = b.toNat) : UInt8.ofNat n = b := by
  rw [h, UInt8.ofNat_toNat]

/-- The character with a scalar value. -/
theorem exists_char (h : n < 0xD800 ∨ 0xDFFF < n ∧ n < 0x110000) : ∃ c : Char, c.val.toNat = n :=
  ⟨Char.ofNatAux n h, rfl⟩

/-- Each sequence encodes a character. -/
theorem IsSequence.exists_encodeChar (h : IsSequence s) : ∃ c, String.utf8EncodeChar c = s := by
  cases h with
  | @one a h =>
    rw [isSequence1_iff] at h
    obtain ⟨c, hc⟩ := @exists_char a.toNat (by omega)
    refine ⟨c, ?_⟩
    rw [String.utf8EncodeChar, hc]
    rw [if_pos (by omega), UInt8.ofNat_toNat]
  | @two a b h =>
    rw [isSequence2_iff] at h
    obtain ⟨c, hc⟩ := @exists_char ((a.toNat - 0xC0) * 64 + (b.toNat - 0x80)) (by omega)
    refine ⟨c, ?_⟩
    rw [String.utf8EncodeChar, hc]
    rw [if_neg (by omega), if_pos (by omega), ofNat_eq (b := a) (by omega),
      ofNat_eq (b := b) (by omega)]
  | @three a b d h =>
    rw [isSequence3_iff] at h
    obtain ⟨c, hc⟩ := @exists_char
      ((a.toNat - 0xE0) * 4096 + (b.toNat - 0x80) * 64 + (d.toNat - 0x80)) (by omega)
    refine ⟨c, ?_⟩
    rw [String.utf8EncodeChar, hc]
    rw [if_neg (by omega), if_neg (by omega), if_pos (by omega), ofNat_eq (b := a) (by omega),
      ofNat_eq (b := b) (by omega), ofNat_eq (b := d) (by omega)]
  | @four a b d e h =>
    rw [isSequence4_iff] at h
    obtain ⟨c, hc⟩ := @exists_char ((a.toNat - 0xF0) * 262144 + (b.toNat - 0x80) * 4096 +
      (d.toNat - 0x80) * 64 + (e.toNat - 0x80)) (by omega)
    refine ⟨c, ?_⟩
    rw [String.utf8EncodeChar, hc]
    rw [if_neg (by omega), if_neg (by omega), if_neg (by omega), ofNat_eq (b := a) (by omega),
      ofNat_eq (b := b) (by omega), ofNat_eq (b := d) (by omega), ofNat_eq (b := e) (by omega)]

/-- Each character is encoded by a sequence. -/
theorem isSequence_encodeChar (c : Char) : IsSequence (String.utf8EncodeChar c) := by
  have hvalid : c.val.toNat < 0xD800 ∨ 0xDFFF < c.val.toNat ∧ c.val.toNat < 0x110000 := c.valid
  unfold String.utf8EncodeChar
  generalize c.val.toNat = v at hvalid
  simp only
  by_cases h1 : v ≤ 0x7F
  · rw [if_pos h1]
    refine .one (isSequence1_iff.mpr ?_)
    rw [UInt8.toNat_ofNat']
    omega
  · by_cases h2 : v ≤ 0x7FF
    · rw [if_neg h1, if_pos h2]
      refine .two (isSequence2_iff.mpr ?_)
      simp only [UInt8.toNat_ofNat']
      omega
    · by_cases h3 : v ≤ 0xFFFF
      · rw [if_neg h1, if_neg h2, if_pos h3]
        refine .three (isSequence3_iff.mpr ?_)
        simp only [UInt8.toNat_ofNat']
        omega
      · rw [if_neg h1, if_neg h2, if_neg h3]
        refine .four (isSequence4_iff.mpr ?_)
        simp only [UInt8.toNat_ofNat']
        omega

theorem isSequence_iff : IsSequence s ↔ ∃ c, String.utf8EncodeChar c = s := by
  constructor
  · exact IsSequence.exists_encodeChar
  · rintro ⟨c, rfl⟩
    exact isSequence_encodeChar c

/-! ## Section 3: Texts without ill-formed sequences -/

/-- Behind a sequence, it goes on with what follows. -/
theorem illFormedFrom_append (h : IsSequence s) (offset : Nat) (rest : Text) :
    illFormedFrom offset (s ++ rest) = illFormedFrom (offset + s.length) rest := by
  rw [illFormedFrom.eq_def]
  -- No sequence starts with a shorter one.
  cases h with
  | one h => exact if_pos h
  | @two a b h =>
    have h1 : ¬ isSequence1 a = true := by
      rw [isSequence1_iff]
      rw [isSequence2_iff] at h
      omega
    simp [h1, h]
  | @three a b c h =>
    have h1 : ¬ isSequence1 a = true := by
      rw [isSequence1_iff]
      rw [isSequence3_iff] at h
      omega
    have h2 : ¬ isSequence2 a b = true := by
      rw [isSequence2_iff]
      rw [isSequence3_iff] at h
      omega
    simp [h1, h2, h]
  | @four a b c d h =>
    have h1 : ¬ isSequence1 a = true := by
      rw [isSequence1_iff]
      rw [isSequence4_iff] at h
      omega
    have h2 : ¬ isSequence2 a b = true := by
      rw [isSequence2_iff]
      rw [isSequence4_iff] at h
      omega
    have h3 : ¬ isSequence3 a b c = true := by
      rw [isSequence3_iff]
      rw [isSequence4_iff] at h
      omega
    simp [h1, h2, h3, h]

theorem IsSequence.exists_encode_append (h : IsSequence s) (hrest : ∃ chars, rest = encode chars) :
    ∃ chars, s ++ rest = encode chars := by
  obtain ⟨c, rfl⟩ := h.exists_encodeChar
  obtain ⟨chars, rfl⟩ := hrest
  exact ⟨c :: chars, rfl⟩

theorem exists_encode (h : illFormedFrom offset t = none) : ∃ chars, t = encode chars := by
  fun_induction illFormedFrom offset t with
  | case1 => exact ⟨[], rfl⟩
  | case2 _ _ _ hs ih => exact (IsSequence.one hs).exists_encode_append (ih h)
  | case4 _ _ _ _ _ hs ih => exact (IsSequence.two hs).exists_encode_append (ih h)
  | case6 _ _ _ _ _ _ _ hs ih => exact (IsSequence.three hs).exists_encode_append (ih h)
  | case8 _ _ _ _ _ _ _ _ _ hs ih => exact (IsSequence.four hs).exists_encode_append (ih h)
  | case3 => cases h
  | case5 => cases h
  | case7 => cases h
  | case9 => cases h

theorem illFormedFrom_encode (offset : Nat) (chars : List Char) :
    illFormedFrom offset (encode chars) = none := by
  induction chars generalizing offset with
  | nil => rfl
  | cons c chars ih => rw [encode_cons, illFormedFrom_append (isSequence_encodeChar c), ih]

/-- The texts that nothing in is ill-formed are those that can be decoded. -/
theorem firstIllFormed?_eq_none_iff : firstIllFormed? t = none ↔ ∃ chars, decode? t = some chars := by
  simp only [decode?_eq_some_iff]
  constructor
  · exact exists_encode
  · rintro ⟨chars, rfl⟩
    exact illFormedFrom_encode 0 chars

/-! ## Section 4: Bytes of a character -/

/-- The first byte of a sequence is no continuation, all others are. -/
theorem IsSequence.exists_cons (h : IsSequence s) : ∃ a tail, s = a :: tail ∧
    isContinuation a = false ∧ ∀ b ∈ tail, isContinuation b = true := by
  have hfirst : ∀ {a : UInt8}, a.toNat < 0x80 ∨ 0xBF < a.toNat → isContinuation a = false := by
    intro a ha
    rw [Bool.eq_false_iff, Ne, isContinuation_iff]
    omega
  cases h with
  | @one a h =>
    rw [isSequence1_iff] at h
    exact ⟨a, [], rfl, hfirst (.inl h), by simp⟩
  | @two a b h =>
    rw [isSequence2_iff] at h
    refine ⟨a, [b], rfl, hfirst (by omega), ?_⟩
    simp only [List.mem_singleton, forall_eq, isContinuation_iff]
    omega
  | @three a b c h =>
    rw [isSequence3_iff] at h
    refine ⟨a, [b, c], rfl, hfirst (by omega), ?_⟩
    simp only [List.forall_mem_cons, List.mem_singleton, forall_eq, isContinuation_iff]
    omega
  | @four a b c d h =>
    rw [isSequence4_iff] at h
    refine ⟨a, [b, c, d], rfl, hfirst (by omega), ?_⟩
    simp only [List.forall_mem_cons, List.mem_singleton, forall_eq, isContinuation_iff]
    omega

/-- An ASCII byte is a sequence by itself and part of no other. -/
theorem IsSequence.eq_singleton (h : IsSequence s) (hmem : b ∈ s) (hb : b.toNat < 0x80) :
    s = [b] := by
  cases h with
  | one => rw [List.mem_singleton.mp hmem]
  | two h =>
    rw [isSequence2_iff] at h
    simp only [List.mem_cons, List.not_mem_nil, or_false] at hmem
    rcases hmem with rfl | rfl <;> omega
  | three h =>
    rw [isSequence3_iff] at h
    simp only [List.mem_cons, List.not_mem_nil, or_false] at hmem
    rcases hmem with rfl | rfl | rfl <;> omega
  | four h =>
    rw [isSequence4_iff] at h
    simp only [List.mem_cons, List.not_mem_nil, or_false] at hmem
    rcases hmem with rfl | rfl | rfl | rfl <;> omega

theorem encode_injective {others : List Char} (h : encode chars = encode others) :
    chars = others := by
  have hdecode := congrArg decode? h
  rw [decode?_encode, decode?_encode] at hdecode
  exact Option.some.inj hdecode

/-- A byte that encodes a character is found in no other. -/
theorem mem_encodeChar_iff {d : Char} (hd : String.utf8EncodeChar d = [b]) :
    b ∈ String.utf8EncodeChar c ↔ c = d := by
  have hsequence := isSequence_encodeChar d
  rw [hd] at hsequence
  cases hsequence with
  | one h =>
    constructor
    · intro hmem
      have hc := (isSequence_encodeChar c).eq_singleton hmem (isSequence1_iff.mp h)
      have hencode : encode [c] = encode [d] := by
        rw [encode_singleton, encode_singleton, hc, hd]
      exact List.singleton_inj.mp (encode_injective hencode)
    · rintro rfl
      rw [hd]
      exact List.mem_singleton_self b

/-! ## Section 5: Counting and dropping -/

/-- Each sequence counts once. -/
theorem characterCount_encode (chars : List Char) : (encode chars).characterCount = chars.length := by
  induction chars with
  | nil => rfl
  | cons c chars ih =>
    obtain ⟨a, tail, hc, ha, htail⟩ := (isSequence_encodeChar c).exists_cons
    have hnone : tail.countP (fun b => !isContinuation b) = 0 := by
      rw [List.countP_eq_zero]
      intro b hb
      simp [htail b hb]
    unfold characterCount at ih ⊢
    rw [encode_cons, hc, List.countP_append, ih, List.countP_cons_of_pos (by simp [ha]), hnone,
      List.length_cons]
    omega

/-- No text that can be decoded starts within a character. -/
theorem isContinuation_of_head?_encode (hb : b ∈ (encode chars).head?) :
    isContinuation b = false := by
  cases chars with
  | nil => cases hb
  | cons c chars =>
    obtain ⟨a, tail, hc, ha, _⟩ := (isSequence_encodeChar c).exists_cons
    rw [encode_cons, hc, List.cons_append, List.head?_cons, Option.mem_some_iff] at hb
    rw [← hb]
    exact ha

/-- What is dropped is the first character, if what follows starts with no
    continuation. -/
theorem dropCharacter_encodeChar (c : Char) (hrest : ∀ b ∈ rest.head?, isContinuation b = false) :
    dropCharacter (String.utf8EncodeChar c ++ rest) = rest := by
  obtain ⟨a, tail, hc, _, htail⟩ := (isSequence_encodeChar c).exists_cons
  rw [hc, List.cons_append, dropCharacter]
  exact (longest_append htail hrest).2

end StyleCheck.Text
