/-! # Byte Text

    Sources, paths, identifiers and messages are byte strings.  Nothing
    here knows about characters beyond ASCII: a byte of `0x80` or above
    is opaque, and only its role inside a UTF-8 sequence is ever asked
    for.  Lists of bytes keep every definition structural, so closed
    terms evaluate in the kernel.
-/

namespace StyleCheck

/-- A byte string. -/
abbrev Text : Type := List UInt8

/-- The bytes of an ASCII literal. -/
def ascii (s : String) : Text := s.toList.map fun c => UInt8.ofNat c.toNat

/-- The decimal digits of a number. -/
def decimal (n : Nat) : Text := (Nat.toDigits 10 n).map fun c => UInt8.ofNat c.toNat

/-! ## Section 1: Named bytes -/

namespace Byte

abbrev tab : UInt8 := 0x09
abbrev newline : UInt8 := 0x0A
abbrev verticalTab : UInt8 := 0x0B
abbrev formFeed : UInt8 := 0x0C
abbrev carriageReturn : UInt8 := 0x0D
abbrev space : UInt8 := 0x20
abbrev doubleQuote : UInt8 := 0x22
abbrev hash : UInt8 := 0x23
abbrev apostrophe : UInt8 := 0x27
abbrev plus : UInt8 := 0x2B
abbrev minus : UInt8 := 0x2D
abbrev dot : UInt8 := 0x2E
abbrev slash : UInt8 := 0x2F
abbrev zero : UInt8 := 0x30
abbrev semicolon : UInt8 := 0x3B
abbrev backslash : UInt8 := 0x5C
abbrev underscore : UInt8 := 0x5F
abbrev leftBrace : UInt8 := 0x7B
abbrev rightBrace : UInt8 := 0x7D

/-! ## Section 2: Byte classes -/

/-- An ASCII capital. -/
def isUpper (b : UInt8) : Bool := 0x41 ≤ b && b ≤ 0x5A

/-- An ASCII small letter. -/
def isLower (b : UInt8) : Bool := 0x61 ≤ b && b ≤ 0x7A

/-- An ASCII letter. -/
def isLetter (b : UInt8) : Bool := isUpper b || isLower b

/-- A decimal digit. -/
def isDigit (b : UInt8) : Bool := 0x30 ≤ b && b ≤ 0x39

/-- A byte of a multi-byte UTF-8 sequence. -/
def isHigh (b : UInt8) : Bool := 0x80 ≤ b

/-- A byte that continues a UTF-8 sequence: `10xxxxxx`. -/
def isContinuation (b : UInt8) : Bool := 0x80 ≤ b && b ≤ 0xBF

/-- Identifiers start with an ASCII letter, an underscore, or any byte
    beyond ASCII. -/
def isNameStart (b : UInt8) : Bool := isLetter b || b == underscore || isHigh b

/-- Identifiers continue with the bytes that may start one and with
    digits. -/
def isNameByte (b : UInt8) : Bool := isNameStart b || isDigit b

/-- Blanks separate tokens within a line. -/
def isBlank (b : UInt8) : Bool := b == space || b == tab || b == formFeed

/-- White space of the C locale. -/
def isSpace (b : UInt8) : Bool :=
  isBlank b || b == newline || b == verticalTab || b == carriageReturn

/-- A byte that may open and close a string literal. -/
def isQuote (b : UInt8) : Bool := b == apostrophe || b == doubleQuote

/-- ASCII letters in lower case, every other byte unchanged. -/
def toLower (b : UInt8) : UInt8 := if isUpper b then b + 0x20 else b

end Byte

/-! ## Section 3: Slices -/

/-- The bytes from `start` up to, and without, `stop`. -/
structure Span where
  start : Nat
  stop : Nat
  deriving DecidableEq, Repr

namespace Text

/-- The bytes of a source in a span. -/
def slice (source : Text) (span : Span) : Text :=
  (source.drop span.start).take (span.stop - span.start)

/-- The text without the longest run of bytes in `p` at its end. -/
def dropTrailing (p : UInt8 → Bool) (t : Text) : Text := (t.reverse.dropWhile p).reverse

/-- Whether the slice stands somewhere in a text. -/
def occursIn (slice : Text) : Text → Bool
  | [] => slice.isEmpty
  | b :: rest => slice.isPrefixOf (b :: rest) || occursIn slice rest

/-- ASCII case folding. -/
def toLower (t : Text) : Text := t.map Byte.toLower

/-- Whether an ASCII upper-case letter occurs in the text. -/
def hasUpper (t : Text) : Bool := t.any Byte.isUpper

end Text

end StyleCheck
