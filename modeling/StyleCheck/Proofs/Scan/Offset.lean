import Mathlib.Algebra.Group.Nat.Defs
import StyleCheck.Proofs.Scan.Step

/-! # Offsets and Positions

    A scan never stores an offset, and its position is only ever moved
    over the bytes that are read.  This module says what that position
    is: `positionAt source o` counts the line feeds before the offset
    `o`, and the bytes between the start of its physical line and `o`.
    `Scan.At source s o` ties a scan to its offset, and every step of a
    scan keeps the two together.
-/

namespace StyleCheck

open Byte

/-! ## Section 1: The position of an offset -/

/-- The line and the column are numbers of 32 bits. -/
structure Position.Fits (p : Position) : Prop where
  line : p.line < 2 ^ 32
  column : p.column < 2 ^ 32

namespace Text

/-- Where the first line starts: behind a byte order mark. -/
def bodyStart (source : Text) : Nat :=
  if Scan.byteOrderMark.isPrefixOf source then 3 else 0

/-- A source without its byte order mark. -/
def body (source : Text) : Text := source.drop source.bodyStart

/-- The offset at which the physical line that an offset is in starts. -/
def lineStart (source : Text) (offset : Nat) : Nat :=
  max source.bodyStart
    (offset - ((source.take offset).reverse.takeWhile (· != newline)).length)

/-- The position of an offset: one more than the line feeds before it,
    and one more than its distance from the start of its line. -/
def positionAt (source : Text) (offset : Nat) : Position where
  line := 1 + (source.take offset).count newline
  column := 1 + (offset - source.lineStart offset)

theorem bodyStart_le (source : Text) : source.bodyStart ≤ source.length := by
  unfold bodyStart
  split
  case isTrue h =>
    have hlen := (List.isPrefixOf_iff_prefix.mp h).length_le
    simpa [Scan.byteOrderMark] using hlen
  case isFalse => exact Nat.zero_le _

/-- There is no line feed in a byte order mark. -/
theorem newline_not_mem_mark (source : Text) : newline ∉ source.take source.bodyStart := by
  unfold bodyStart
  split
  case isTrue h =>
    have htake := List.prefix_iff_eq_take.mp (List.isPrefixOf_iff_prefix.mp h)
    have hmark : source.take 3 = Scan.byteOrderMark := htake.symm
    rw [hmark]
    decide
  case isFalse => simp

theorem lineStart_le {source : Text} {offset : Nat} (h : source.bodyStart ≤ offset) :
    source.lineStart offset ≤ offset := by
  unfold lineStart
  omega

theorem positionAt_bodyStart (source : Text) :
    source.positionAt source.bodyStart = .start := by
  have hcount : (source.take source.bodyStart).count newline = 0 :=
    List.count_eq_zero.mpr source.newline_not_mem_mark
  have hstart : source.bodyStart - source.lineStart source.bodyStart = 0 := by
    unfold lineStart
    omega
  simp only [positionAt, hcount, hstart, Position.start]

/-- Lines and columns are numbers of 32 bits, which the positions of a source
    are as long as it has fewer bytes than that. -/
theorem positionAt_fits {source : Text} {offset : Nat} (hle : offset ≤ source.length)
    (hlength : source.length + 1 < 2 ^ 32) : (source.positionAt offset).Fits := by
  have hcount : (source.take offset).count newline ≤ offset :=
    Nat.le_trans List.count_le_length (List.length_take_le offset source)
  unfold positionAt
  constructor
  · show 1 + (source.take offset).count newline < 2 ^ 32
    omega
  · show 1 + (offset - source.lineStart offset) < 2 ^ 32
    omega

/-- One byte further on, the position is the one behind that byte. -/
theorem positionAt_succ {source : Text} {offset : Nat} {b : UInt8}
    (hbody : source.bodyStart ≤ offset) (hb : source[offset]? = some b) :
    source.positionAt (offset + 1) = (source.positionAt offset).after b := by
  have htake : source.take (offset + 1) = source.take offset ++ [b] := by
    rw [List.take_add_one, hb]
    rfl
  have hle := lineStart_le hbody
  unfold positionAt Position.after
  by_cases hnewline : b = newline
  -- A line starts behind a line feed.
  · have hstart : source.lineStart (offset + 1) = offset + 1 := by
      unfold lineStart
      rw [htake, hnewline]
      simp only [List.reverse_append, List.reverse_singleton, List.singleton_append]
      rw [List.takeWhile_cons_of_neg (by decide)]
      simp only [List.length_nil]
      omega
    rw [if_pos hnewline, hstart, htake, hnewline]
    simp only [List.count_append, List.count_singleton_self]
    congr 1
    omega
  -- Any other byte lengthens the run behind the last line feed by one.
  · have hstart : source.lineStart (offset + 1) = source.lineStart offset := by
      unfold lineStart
      rw [htake]
      simp only [List.reverse_append, List.reverse_singleton, List.singleton_append]
      rw [List.takeWhile_cons_of_pos (by simpa using hnewline)]
      simp only [List.length_cons]
      congr 1
      omega
    rw [if_neg hnewline, hstart, htake]
    simp only [List.count_append, List.count_singleton, beq_iff_eq, if_neg hnewline]
    congr 1
    omega

/-- Moving over bytes of the source leads to the position behind them. -/
theorem advance_positionAt {source : Text} {offset : Nat}
    (hbody : source.bodyStart ≤ offset) (n : Nat) (hn : offset + n ≤ source.length) :
    (source.positionAt offset).advance ((source.drop offset).take n) =
      source.positionAt (offset + n) := by
  induction n with
  | zero => rfl
  | succ n ih =>
    -- The last of the bytes is one of the source, and is moved over by itself.
    have hlt : offset + n < source.length := by omega
    have hb : source[offset + n]? = some source[offset + n] := List.getElem?_eq_getElem hlt
    have ih' := ih (by omega)
    rw [List.take_add_one, List.getElem?_drop, hb]
    unfold Position.advance at ih' ⊢
    rw [List.foldl_append, ih']
    exact (positionAt_succ (by omega) hb).symm

end Text

/-! ## Section 2: The offset of a scan -/

namespace Scan

/-- The scan has read its source up to an offset. -/
structure At (source : Text) (s : Scan) (offset : Nat) : Prop where
  body : source.bodyStart ≤ offset
  le : offset ≤ source.length
  rest : s.rest = source.drop offset
  position : s.position = source.positionAt offset

variable {source : Text} {s s' : Scan} {offset n : Nat}

theorem at_ofSource (source : Text) : At source (ofSource source) source.bodyStart where
  body := Nat.le_refl _
  le := source.bodyStart_le
  rest := by
    unfold ofSource Text.bodyStart
    split <;> simp_all
  position := source.positionAt_bodyStart.symm

theorem At.fits (h : At source s offset) (hlength : source.length + 1 < 2 ^ 32) :
    s.position.Fits :=
  h.position ▸ Text.positionAt_fits h.le hlength

theorem At.length_rest (h : At source s offset) : s.rest.length = source.length - offset := by
  rw [h.rest, List.length_drop]

/-- Only the bytes to be read and the position matter. -/
theorem At.congr (h : At source s offset) (hrest : s'.rest = s.rest)
    (hposition : s'.position = s.position) : At source s' offset where
  body := h.body
  le := h.le
  rest := hrest.trans h.rest
  position := hposition.trans h.position

/-- What has been read lies before what is left, and the position counts
    its line feeds. -/
theorem At.body_eq (h : At source s offset) :
    ∃ front, source.body = front ++ s.rest ∧ s.position.line = front.count newline + 1 := by
  have hread : source.take offset =
      source.take source.bodyStart ++ (source.take offset).drop source.bodyStart := by
    have htake : (source.take offset).take source.bodyStart = source.take source.bodyStart := by
      rw [List.take_take, Nat.min_eq_left h.body]
    rw [← htake, List.take_append_drop]
  refine ⟨(source.take offset).drop source.bodyStart, ?_, ?_⟩
  · have hle : source.bodyStart ≤ (source.take offset).length := by
      rw [List.length_take, Nat.min_eq_left h.le]
      exact h.body
    rw [h.rest, ← List.drop_append_of_le_length hle, List.take_append_drop]
    rfl
  -- No line ends in the byte order mark.
  · have hcount : (source.take offset).count newline =
        ((source.take offset).drop source.bodyStart).count newline := by
      conv => lhs; rw [hread]
      rw [List.count_append, List.count_eq_zero.mpr source.newline_not_mem_mark, Nat.zero_add]
    rw [h.position, ← hcount, Nat.add_comm]
    rfl

theorem At.skip (h : At source s offset) (hn : n ≤ s.rest.length) :
    At source (s.skip n) (offset + n) := by
  have hlen := h.length_rest
  have hbody := h.body
  have hle := h.le
  refine ⟨by omega, by omega, ?_, ?_⟩
  · show s.rest.drop n = _
    rw [h.rest, List.drop_drop]
  · show s.position.advance (s.rest.take n) = _
    rw [h.rest, h.position]
    exact Text.advance_positionAt h.body n (by omega)

end Scan

end StyleCheck
