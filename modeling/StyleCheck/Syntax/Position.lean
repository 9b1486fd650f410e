import StyleCheck.Text

/-! # Source Positions

    Lines and columns are counted from one, and columns count bytes.
    A position only ever moves by reading bytes, so the position of an
    offset is a function of the bytes before it.
-/

namespace StyleCheck

/-- A place in a source. -/
structure Position where
  line : Nat
  column : Nat
  deriving DecidableEq, Repr

namespace Position

/-- The position of the first byte. -/
def start : Position := ⟨1, 1⟩

/-- The position just behind a byte. -/
def after (p : Position) (b : UInt8) : Position :=
  if b = Byte.newline then ⟨p.line + 1, 1⟩ else ⟨p.line, p.column + 1⟩

/-- The position just behind a text. -/
def advance (p : Position) (read : Text) : Position := read.foldl after p

end Position

end StyleCheck
