import StyleCheck.Text

/-! # Physical Lines

    A line ends with a line feed, a carriage return, or both in that
    order.  `normalizeNewlines` writes every terminator as one line
    feed; `splitLines` cuts after each line feed.
-/

namespace StyleCheck.Text

/-- Every line terminator as one line feed.  A carriage return that a
    line feed follows is dropped, any other becomes a line feed. -/
def normalizeNewlines : Text → Text
  | [] => []
  | b :: rest =>
    if b = Byte.carriageReturn then
      if rest.head? = some Byte.newline then normalizeNewlines rest
      else Byte.newline :: normalizeNewlines rest
    else b :: normalizeNewlines rest

/-- The pieces of the text, cut after each line feed.  Every piece is
    non-empty, and each keeps its line feed if it has one. -/
def splitLines : Text → List Text
  | [] => []
  | b :: rest =>
    if b = Byte.newline then [b] :: splitLines rest else
    match splitLines rest with
    | [] => [[b]]
    | line :: lines => (b :: line) :: lines

/-- A line without the line feeds at its end. -/
def withoutNewline (line : Text) : Text := dropTrailing (· == Byte.newline) line

end StyleCheck.Text
