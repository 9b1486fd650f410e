import StyleCheck.Text

/-! # Well-Formed UTF-8

    The byte sequences of Unicode table 3-7: no overlong forms, no
    surrogates, nothing above U+10FFFF.  `firstIllFormed?` is the offset
    at which decoding from the left gets stuck.
-/

namespace StyleCheck.Text

open Byte

/-! ## Section 1: Sequences -/

/-- One byte stands for itself below `0x80`. -/
def isSequence1 (a : UInt8) : Bool := a < 0x80

/-- A byte in `C2..DF` and a continuation byte. -/
def isSequence2 (a b : UInt8) : Bool := 0xC2 ≤ a && a ≤ 0xDF && isContinuation b

/-- A byte in `E0..EF` and two continuation bytes.  The second byte
    excludes overlong forms after `E0` and surrogates after `ED`. -/
def isSequence3 (a b c : UInt8) : Bool :=
  0xE0 ≤ a && a ≤ 0xEF && isContinuation b && isContinuation c
    && (a != 0xE0 || 0xA0 ≤ b) && (a != 0xED || b ≤ 0x9F)

/-- A byte in `F0..F4` and three continuation bytes.  The second byte
    excludes overlong forms after `F0` and values above U+10FFFF after
    `F4`. -/
def isSequence4 (a b c d : UInt8) : Bool :=
  0xF0 ≤ a && a ≤ 0xF4 && isContinuation b && isContinuation c && isContinuation d
    && (a != 0xF0 || 0x90 ≤ b) && (a != 0xF4 || b ≤ 0x8F)

/-! ## Section 2: Texts -/

/-- The offset of the first byte that starts no well-formed sequence,
    counted from `offset`. -/
def illFormedFrom (offset : Nat) : Text → Option Nat
  | [] => none
  | a :: rest₁ =>
    if isSequence1 a then illFormedFrom (offset + 1) rest₁ else
    match rest₁ with
    | [] => some offset
    | b :: rest₂ =>
      if isSequence2 a b then illFormedFrom (offset + 2) rest₂ else
      match rest₂ with
      | [] => some offset
      | c :: rest₃ =>
        if isSequence3 a b c then illFormedFrom (offset + 3) rest₃ else
        match rest₃ with
        | [] => some offset
        | d :: rest₄ =>
          if isSequence4 a b c d then illFormedFrom (offset + 4) rest₄ else some offset

/-- The offset of the first ill-formed sequence, if there is one. -/
def firstIllFormed? (t : Text) : Option Nat := illFormedFrom 0 t

/-- The number of characters of a well-formed text: continuation bytes
    do not start one. -/
def characterCount (t : Text) : Nat := t.countP fun b => !isContinuation b

/-- The text without its first character.  Continuation bytes that
    follow the first byte belong to it. -/
def dropCharacter : Text → Text
  | [] => []
  | _ :: rest => rest.dropWhile isContinuation

end StyleCheck.Text
