import StyleCheck.Text

/-! # Extents of Literals

    How far a number or a string literal reaches, as a number of bytes.
    Only the bytes from the start of the literal on are looked at.
-/

namespace StyleCheck

open Byte

/-! ## Section 1: Numbers -/

namespace NumberLiteral

/-- A number starts with a digit, or with a dot and a digit. -/
def startsAt : Text → Bool
  | [] => false
  | [b] => isDigit b
  | b :: c :: _ => isDigit b || (b == dot && isDigit c)

/-- Hexadecimal numbers have `e` among their digits. -/
def isHexadecimal : Text → Bool
  | b :: c :: _ => b == zero && toLower c == 0x78
  | _ => false

/-- Whether a number goes on with a byte.  A sign belongs to it only as
    the sign of an exponent. -/
def goesOn (hexadecimal : Bool) (before b : UInt8) : Bool :=
  isNameByte b || b == dot
    || ((b == plus || b == minus) && !hexadecimal && toLower before == 0x65)

/-- How many bytes a number goes on for behind the byte `before`. -/
def tailLength (hexadecimal : Bool) (before : UInt8) : Text → Nat
  | [] => 0
  | b :: rest =>
    if goesOn hexadecimal before b then tailLength hexadecimal b rest + 1 else 0

/-- The length of the number that the text starts with. -/
def length (t : Text) : Nat :=
  match t with
  | [] => 0
  | b :: rest => tailLength (isHexadecimal t) b rest + 1

end NumberLiteral

/-! ## Section 2: String literals -/

namespace StringLiteral

/-- Whether a word directly before a quote belongs to the literal. -/
def isLiteralPrefix (word : Text) : Bool :=
  [ascii "r", ascii "u", ascii "b", ascii "f", ascii "br", ascii "rb", ascii "fr",
   ascii "rf"].contains (Text.toLower word)

/-- A literal with this prefix has replacement fields. -/
def isFormatted (word : Text) : Bool := (Text.toLower word).elem 0x66

/-- A literal with this prefix is made of bytes. -/
def isBytes (word : Text) : Bool := (Text.toLower word).elem 0x62

/-- Whether a quote that `rest` follows is the first of three. -/
def isTriple (quote : UInt8) (rest : Text) : Bool := [quote, quote].isPrefixOf rest

/-- The number of quotes that open or close a literal. -/
def quoteCount (triple : Bool) : Nat := if triple then 3 else 1

/-- A literal whose closing quote is still to come. -/
structure Unclosed where
  quote : UInt8
  triple : Bool
  formatted : Bool
  /-- How many replacement fields are open in it. -/
  depth : Nat
  /-- The offset at which the literal is reported. -/
  start : Nat
  deriving DecidableEq, Repr

/-- What the next bytes of an unclosed literal are. -/
inductive Piece where
  /-- So many bytes that belong to the literal. -/
  | content (length : Nat)
  /-- A brace that opens a replacement field. -/
  | openField
  /-- A brace that closes one. -/
  | closeField
  /-- The quotes that open a literal of its own inside a field. -/
  | nested (quote : UInt8) (triple : Bool)
  /-- The closing quotes. -/
  | closing
  /-- The end of a line that the literal may not reach across. -/
  | lineEnd
  deriving DecidableEq, Repr

/-- The next piece of an unclosed literal, at the byte `b` with `rest`
    behind it.

    A backslash hides the byte behind it, except for the braces of a
    formatted literal: they still open and close fields.  Outside of
    fields, a doubled brace is content. -/
def Unclosed.piece (literal : Unclosed) (b : UInt8) (rest : Text) : Piece :=
  if b = backslash then
    if literal.formatted && (rest.head? == some leftBrace || rest.head? == some rightBrace)
    then .content 1 else .content 2
  else if b = newline then
    if literal.triple || literal.depth != 0 then .content 1 else .lineEnd
  else if literal.formatted && b == leftBrace then
    if literal.depth == 0 && rest.head? == some leftBrace then .content 2 else .openField
  else if literal.formatted && b == rightBrace then
    if literal.depth != 0 then .closeField
    else if rest.head? == some rightBrace then .content 2 else .content 1
  else if literal.depth != 0 && isQuote b then .nested b (isTriple b rest)
  else if b == literal.quote && (!literal.triple || isTriple b rest) then .closing
  else .content 1

/-- A literal that is never closed: where it is reported, and whether
    it has three quotes. -/
structure Unterminated where
  start : Nat
  triple : Bool
  deriving DecidableEq, Repr

/-- What an unclosed literal is reported as at the end of the source. -/
def Unclosed.unterminated (literal : Unclosed) : Unterminated :=
  ⟨literal.start, literal.triple⟩

/-- The offset just behind the outermost of the unclosed literals.

    `inner` is the innermost of them, and `skip` bytes of its current
    piece are still to be read.  The literal continues at `offset`,
    behind the byte `before`: a nested literal is formatted if an `f`
    stands directly before its quote. -/
def close (inner : Unclosed) (outer : List Unclosed) (skip offset : Nat)
    (before : UInt8) : Text → Except Unterminated Nat
  | [] => .error inner.unterminated
  | b :: rest =>
    match skip with
    | skip + 1 => close inner outer skip (offset + 1) b rest
    | 0 =>
      match inner.piece b rest with
      | .content length => close inner outer (length - 1) (offset + 1) b rest
      | .openField =>
        close { inner with depth := inner.depth + 1 } outer 0 (offset + 1) b rest
      | .closeField =>
        close { inner with depth := inner.depth - 1 } outer 0 (offset + 1) b rest
      | .nested quote triple =>
        close ⟨quote, triple, toLower before == 0x66, 0, offset⟩ (inner :: outer)
          (quoteCount triple - 1) (offset + 1) b rest
      | .closing =>
        match outer with
        | [] => .ok (offset + quoteCount inner.triple)
        | next :: others =>
          close next others (quoteCount inner.triple - 1) (offset + 1) b rest
      | .lineEnd => .error inner.unterminated

/-- The length of the string literal that a text starts with, when its
    prefix is `word`.  An unterminated literal is reported where it
    starts: the outermost at its prefix, a nested one at its quote. -/
def length? (word : Text) (t : Text) : Except Unterminated Nat :=
  match t.drop word.length with
  | [] => .ok word.length
  | quote :: rest =>
    let triple := isTriple quote rest
    close ⟨quote, triple, isFormatted word, 0, 0⟩ [] (quoteCount triple - 1)
      (word.length + 1) quote rest

end StringLiteral

end StyleCheck
