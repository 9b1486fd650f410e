import Mathlib.Control.Monad.Basic
import StyleCheck.Syntax.Lexer

/-! # Lexers Behind a Front

    A lexer looks at bytes by their offsets, and one step back at times.
    Still it cannot tell whether there is a front that it has not read:
    the lexer of a source and the one that starts behind the front go the
    same way, step by step, and only their two offsets differ.

    The byte behind the cursor might belong to the front.  Two letters
    are looked for there, so a front must not end in one of them.

    * `behind`: the lexer with both of its offsets further on.
    * `piece_behind`, `enterLine_behind`: one step of the two lexers.
    * `run_behind`: their runs, with any fuel and from any state.
    * `finish_behind`: their tokens.
-/

namespace StyleCheck

open Byte

namespace Lexer

/-- The lexer behind a front of `n` bytes. -/
def behind (n : Nat) (l : Lexer) : Lexer :=
  { l with
    pos := l.pos + n
    lineStart := l.lineStart + n
    inLine := Nat.add_le_add_right l.inLine n }

/-- A front that does not look like an exponent or a prefix of what comes
    behind it. -/
structure Blends (front : Text) : Prop where
  formatted : ∀ b ∈ front.getLast?, toLower b ≠ 0x66
  exponent : ∀ b ∈ front.getLast?, toLower b ≠ 0x65

/-! ## Section 1: The cursor -/

section Cursor

variable (front source : Text) (l : Lexer)

@[simp] theorem pos_behind (n : Nat) : (l.behind n).pos = l.pos + n := rfl
@[simp] theorem levels_behind (n : Nat) : (l.behind n).levels = l.levels := rfl
@[simp] theorem brackets_behind (n : Nat) : (l.behind n).brackets = l.brackets := rfl
@[simp] theorem tokens_behind (n : Nat) : (l.behind n).tokens = l.tokens := rfl
@[simp] theorem atLineStart_behind (n : Nat) : (l.behind n).atLineStart = l.atLineStart := rfl

@[simp] theorem peek_behind (ahead : Nat) :
    (l.behind front.length).peek (front ++ source) ahead = l.peek source ahead := by
  have hoffset : l.pos + front.length + ahead = l.pos + ahead + front.length := by omega
  unfold peek
  rw [pos_behind, hoffset, List.getElem?_append_right (Nat.le_add_left _ _), Nat.add_sub_cancel]

@[simp] theorem atEnd_behind :
    (l.behind front.length).atEnd (front ++ source) = l.atEnd source := by
  unfold atEnd
  rw [pos_behind, List.length_append, Nat.add_comm front.length, Bool.eq_iff_iff]
  simp

@[simp] theorem left_behind : (l.behind front.length).left (front ++ source) = l.left source := by
  unfold left
  rw [pos_behind, List.length_append, Nat.add_comm front.length, Nat.add_sub_add_right]

/-- Where the byte behind the cursor belongs to the front, it is no such
    letter; at the start of the source there is none. -/
theorem follows_behind {letter : UInt8} (hlast : ∀ b ∈ front.getLast?, toLower b ≠ letter)
    (hfront : front ≠ []) :
    (l.behind front.length).follows (front ++ source) letter = l.follows source letter := by
  have hlength : 0 < front.length := List.length_pos_iff.mpr hfront
  unfold follows
  rw [pos_behind]
  by_cases hpos : l.pos = 0
  · have hbefore : (front ++ source)[l.pos + front.length - 1]? = front.getLast? := by
      rw [hpos, Nat.zero_add, List.getElem?_append_left (by omega), List.getLast?_eq_getElem?]
    have hne := hlast _ (List.getLast?_eq_some_getLast hfront)
    rw [hbefore, List.getLast?_eq_some_getLast hfront, hpos]
    simp [hne]
  · have hbefore : l.pos + front.length - 1 = l.pos - 1 + front.length := by omega
    rw [hbefore, List.getElem?_append_right (Nat.le_add_left _ _), Nat.add_sub_cancel,
      decide_eq_true (Nat.pos_of_ne_zero hpos), decide_eq_true (Nat.add_pos_right _ hlength)]

@[simp] theorem place_behind (n offset : Nat) :
    (l.behind n).place (offset + n) = l.place offset := by
  simp [place, behind, Nat.add_sub_add_right]

@[simp] theorem move_behind (n k : Nat) : (l.behind n).move k = (l.move k).behind n := by
  simp [move, behind, Nat.add_right_comm]

@[simp] theorem startLine_behind (n : Nat) : (l.behind n).startLine = l.startLine.behind n := rfl

@[simp] theorem setAtLineStart_behind (n : Nat) (atLineStart : Bool) :
    (l.behind n).setAtLineStart atLineStart = (l.setAtLineStart atLineStart).behind n := rfl

@[simp] theorem push_behind (n : Nat) (lexeme : Lexeme) (position : Position) :
    (l.behind n).push lexeme position = (l.push lexeme position).behind n := rfl

@[simp] theorem fail_behind {α : Type} (n offset : Nat) (fault : Fault) :
    (l.behind n).fail (α := α) (offset + n) fault = l.fail offset fault := by
  simp [fail]

theorem map_fail {α β : Type} (f : α → β) (offset : Nat) (fault : Fault) :
    f <$> l.fail offset fault = l.fail offset fault := rfl

@[simp] theorem slice_behind (start stop : Nat) :
    Text.slice (front ++ source) ⟨start + front.length, stop + front.length⟩ =
      source.slice ⟨start, stop⟩ := by
  unfold Text.slice
  rw [Nat.add_sub_add_right, Nat.add_comm start, ← List.drop_drop, List.drop_left]

@[simp] theorem drop_behind (offset : Nat) :
    (front ++ source).drop (offset + front.length) = source.drop offset := by
  rw [Nat.add_comm offset, ← List.drop_drop, List.drop_left]

/-! Some states of a lexer are written with `if`. -/

@[simp] theorem ite_behind (n : Nat) (c : Prop) [Decidable c] (l l' : Lexer) :
    (if c then l.behind n else l'.behind n) = (if c then l else l').behind n :=
  (apply_ite (behind n) c l l').symm

theorem overWhile_behind (p : UInt8 → Bool) (fuel : Nat) :
    (l.behind front.length).overWhile (front ++ source) p fuel =
      (l.overWhile source p fuel).behind front.length := by
  induction fuel generalizing l with
  | zero => rfl
  | succ fuel ih => simp only [overWhile, atEnd_behind, peek_behind, move_behind, ih, ite_behind]

end Cursor

/-! ## Section 2: Indentation -/

section Indentation

variable (front source : Text) (l : Lexer)

theorem overBlanks_behind (fuel column : Nat) :
    (l.behind front.length).overBlanks (front ++ source) fuel column =
      (l.overBlanks source fuel column).map id (behind front.length) := by
  induction fuel generalizing column l with
  | zero => rfl
  | succ fuel ih =>
    simp only [overBlanks, atEnd_behind, peek_behind, move_behind, ih]
    split <;> rfl

@[simp] theorem dedent_behind (n : Nat) : (l.behind n).dedent = l.dedent.behind n := by
  simp [dedent, push, behind, place, Nat.add_sub_add_right]

theorem closeLevels_behind (n column : Nat) (levels : List Nat) :
    (l.behind n).closeLevels column levels = (l.closeLevels column levels).behind n := by
  induction levels generalizing l with
  | nil => rfl
  | cons level outer ih => simp only [closeLevels, dedent_behind, ih, ite_behind]

theorem settle_behind (n column : Nat) :
    (l.behind n).settle column = behind n <$> l.settle column := by
  simp only [settle, levels_behind, pos_behind, place_behind, push_behind, closeLevels_behind,
    fail_behind, apply_ite (behind n <$> ·), map_fail]
  rfl

theorem indentation_behind :
    (l.behind front.length).indentation (front ++ source) =
      behind front.length <$> l.indentation source := by
  simp only [indentation, left_behind, overBlanks_behind, Prod.map, atEnd_behind, peek_behind,
    apply_ite (behind front.length <$> ·), Except.map_ok, setAtLineStart_behind,
    settle_behind]
  rfl

end Indentation

/-! ## Section 3: Pieces of a line -/

section Pieces

variable {front : Text} (hfront : front ≠ []) (hblends : Blends front) (source : Text) (l : Lexer)

include hfront hblends

theorem skipStringBody_behind (fuel : Nat) (quote : UInt8) (triple formatted : Bool)
    (start : Position) (depth : Nat) :
    (l.behind front.length).skipStringBody (front ++ source) fuel quote triple formatted start
        depth =
      behind front.length <$>
        l.skipStringBody source fuel quote triple formatted start depth := by
  induction fuel generalizing quote triple formatted start depth l with
  | zero => rfl
  | succ fuel ih =>
    have hlength : l.pos + front.length + 1 < (front ++ source).length ↔
        l.pos + 1 < source.length := by
      rw [List.length_append]
      omega
    have hletter := follows_behind front source l hblends.formatted hfront
    simp only [skipStringBody, atEnd_behind, peek_behind, move_behind, startLine_behind, ih,
      pos_behind, place_behind, hletter, hlength, apply_ite (behind front.length <$> ·),
      Except.map_error, Except.map_ok, map_bind, bind_map_left]

theorem string_behind (offset : Nat) (word : Text) :
    (l.behind front.length).string (front ++ source) (offset + front.length) word =
      behind front.length <$> l.string source offset word := by
  simp only [string, peek_behind, move_behind, left_behind, place_behind, pos_behind, slice_behind,
    push_behind, skipStringBody_behind hfront hblends, map_bind, bind_map_left, Except.map_ok]

theorem overNumber_behind (hexadecimal : Bool) (fuel : Nat) :
    (l.behind front.length).overNumber (front ++ source) hexadecimal fuel =
      (l.overNumber source hexadecimal fuel).behind front.length := by
  induction fuel generalizing l with
  | zero => rfl
  | succ fuel ih =>
    have hletter := follows_behind front source l hblends.exponent hfront
    simp only [overNumber, atEnd_behind, peek_behind, move_behind, hletter, ih, ite_behind]

theorem number_behind :
    (l.behind front.length).number (front ++ source) =
      (l.number source).behind front.length := by
  simp only [number, peek_behind, left_behind, overNumber_behind hfront hblends, pos_behind,
    place_behind, slice_behind, push_behind]

theorem word_behind :
    (l.behind front.length).word (front ++ source) = behind front.length <$> l.word source := by
  simp only [word, left_behind, overWhile_behind, pos_behind, slice_behind, peek_behind,
    place_behind, push_behind, string_behind hfront hblends, apply_ite (behind front.length <$> ·),
    Except.map_ok]

omit hfront hblends in
theorem lineFeed_behind (n : Nat) : (l.behind n).lineFeed = l.lineFeed.behind n := by
  simp only [lineFeed, brackets_behind, atLineStart_behind, pos_behind, place_behind, push_behind,
    ite_behind, move_behind, startLine_behind,
    brackets_behind, setAtLineStart_behind, ite_behind]

omit hfront hblends in
theorem continuation_behind :
    (l.behind front.length).continuation (front ++ source) =
      behind front.length <$> l.continuation source := by
  have hoffset := Nat.add_right_comm l.pos front.length 1
  have hlength : (front ++ source).length ≤ l.pos + 1 + front.length ↔
      source.length ≤ l.pos + 1 := by
    rw [List.length_append]
    omega
  simp only [continuation, peek_behind, move_behind, startLine_behind, pos_behind, hoffset,
    hlength, fail_behind, apply_ite (behind front.length <$> ·), Except.map_ok, map_fail]

omit hfront hblends in
theorem trackBrackets_behind (n : Nat) (symbol : Symbol) :
    (l.behind n).trackBrackets symbol = behind n <$> l.trackBrackets symbol := by
  unfold trackBrackets
  cases symbol with
  | opening bracket =>
    simp only [brackets_behind, pos_behind, place_behind]
    rfl
  | closing bracket =>
    simp only [brackets_behind, pos_behind, fail_behind]
    cases l.brackets with
    | nil => rfl
    | cons innermost others =>
      simp only [apply_ite (behind n <$> ·), map_fail]
      rfl
  | _ => rfl

omit hfront hblends in
theorem symbol_behind :
    (l.behind front.length).symbol (front ++ source) =
      behind front.length <$> l.symbol source := by
  simp only [symbol, pos_behind, drop_behind, peek_behind, fail_behind]
  cases Symbol.leading? (source.drop l.pos) with
  | none => rfl
  | some symbol =>
    simp only [trackBrackets_behind, pos_behind, place_behind, push_behind, move_behind, map_bind,
      bind_map_left, Except.map_ok]

/-- **One piece** is read alike. -/
theorem piece_behind :
    (l.behind front.length).piece (front ++ source) = behind front.length <$> l.piece source := by
  simp only [piece, peek_behind, move_behind, left_behind, overWhile_behind, lineFeed_behind,
    continuation_behind, word_behind hfront hblends, number_behind hfront hblends, pos_behind,
    string_behind hfront hblends, symbol_behind, apply_ite (behind front.length <$> ·),
    Except.map_ok]

/-! ## Section 4: Runs -/

omit hfront hblends in
theorem enterLine_behind :
    (l.behind front.length).enterLine (front ++ source) =
      behind front.length <$> l.enterLine source := by
  simp only [enterLine, atLineStart_behind, brackets_behind, indentation_behind,
    apply_ite (behind front.length <$> ·), Except.map_ok]

/-- **A whole run** is the same, with any fuel and from any state: the
    front is not seen. -/
theorem run_behind (fuel : Nat) :
    (l.behind front.length).run (front ++ source) fuel =
      behind front.length <$> l.run source fuel := by
  induction fuel generalizing l with
  | zero => rfl
  | succ fuel ih =>
    simp only [run, enterLine_behind, atEnd_behind, piece_behind hfront hblends, ih, map_bind,
      bind_map_left, apply_ite (behind front.length <$> ·), Except.map_ok]

omit hfront hblends in
theorem closeBlocks_behind (n : Nat) (levels : List Nat) :
    (l.behind n).closeBlocks levels = (l.closeBlocks levels).behind n := by
  induction levels generalizing l with
  | nil => rfl
  | cons level outer ih =>
    cases outer with
    | nil => rfl
    | cons level outer => simp only [closeBlocks, dedent_behind, ih]

omit hfront hblends in
/-- The tokens have the positions that they have without the front. -/
theorem finish_behind (n : Nat) : (l.behind n).finish = l.finish := by
  simp only [finish, brackets_behind]
  cases l.brackets with
  | cons innermost others => rfl
  | nil =>
    have hended : (l.behind n).isLineEnded = l.isLineEnded := rfl
    simp only [hended, pos_behind, place_behind, push_behind, ite_behind, levels_behind,
      closeBlocks_behind, tokens_behind]

end Pieces

/-- The lexer of a source and the one behind a front go the same way. -/
structure Lockstep (front source : Text) : Prop where
  enterLine : ∀ l : Lexer, (l.behind front.length).enterLine (front ++ source) =
    behind front.length <$> l.enterLine source
  piece : ∀ l : Lexer, (l.behind front.length).piece (front ++ source) =
    behind front.length <$> l.piece source
  run : ∀ (l : Lexer) fuel, (l.behind front.length).run (front ++ source) fuel =
    behind front.length <$> l.run source fuel
  finish : ∀ l : Lexer, (l.behind front.length).finish = l.finish

theorem lockstep {front : Text} (hfront : front ≠ []) (hblends : Blends front) (source : Text) :
    Lockstep front source where
  enterLine := enterLine_behind source
  piece := piece_behind hfront hblends source
  run := run_behind hfront hblends source
  finish l := l.finish_behind front.length

end Lexer

end StyleCheck
