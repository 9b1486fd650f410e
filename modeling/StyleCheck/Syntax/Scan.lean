import StyleCheck.Syntax.Fault
import StyleCheck.Syntax.Literal
import StyleCheck.Syntax.Token

/-! # From Source to Tokens

    The source is read from left to right, one piece at a time: a blank,
    a comment, a line feed, a continuation, or a token.  At the start of
    a logical line its indentation is compared with the open levels
    first.  Brackets suspend both line ends and indentation.

    The position is never set, it only moves over the bytes read.
-/

namespace StyleCheck

open Byte

/-- A bracket that is open, and where. -/
structure OpenBracket where
  bracket : Bracket
  position : Position
  deriving DecidableEq, Repr

/-- A source read up to some byte. -/
structure Scan where
  /-- The bytes still to be read. -/
  rest : Text
  /-- The position of the first of them. -/
  position : Position
  /-- No token of the logical line has been read yet. -/
  atLineStart : Bool
  /-- The indentation levels that are open, innermost first. -/
  levels : List Nat
  /-- The brackets that are open, innermost first. -/
  brackets : List OpenBracket
  /-- The tokens read, newest first. -/
  tokens : List Token
  deriving DecidableEq, Repr

namespace Scan

/-- The three bytes of the byte order mark. -/
def byteOrderMark : Text := [0xEF, 0xBB, 0xBF]

/-- Nothing read yet.  A byte order mark at the very start is no part
    of the source. -/
def ofSource (source : Text) : Scan where
  rest := if byteOrderMark.isPrefixOf source then source.drop 3 else source
  position := .start
  atLineStart := true
  levels := [0]
  brackets := []
  tokens := []

/-! ## Section 1: Moves -/

/-- Reads over `n` bytes. -/
def skip (s : Scan) (n : Nat) : Scan :=
  { s with rest := s.rest.drop n, position := s.position.advance (s.rest.take n) }

/-- Adds a token at the current position. -/
def emit (s : Scan) (lexeme : Lexeme) : Scan :=
  { s with tokens := ⟨lexeme, s.position⟩ :: s.tokens }

/-- Fails at the current position. -/
def fail (s : Scan) (fault : Fault) : Except SyntaxError Scan := .error ⟨s.position, fault⟩

/-! ## Section 2: Indentation -/

/-- The column behind a blank: a tab moves to the next multiple of
    eight, a form feed back to zero. -/
def columnAfter (column : Nat) (blank : UInt8) : Nat :=
  if blank = tab then (column / 8 + 1) * 8 else if blank = formFeed then 0 else column + 1

/-- The indentation that a run of blanks amounts to. -/
def indentWidth (blanks : Text) : Nat := blanks.foldl columnAfter 0

/-- The innermost open level. -/
def level (s : Scan) : Nat := s.levels.headD 0

/-- Opens or closes levels so that the innermost is `column`. -/
def settle (s : Scan) (column : Nat) : Except SyntaxError Scan :=
  if s.level < column then
    .ok { s.emit .indent with levels := column :: s.levels }
  else
    let closed := s.levels.takeWhile (column < ·)
    let settled : Scan :=
      { s with
        levels := s.levels.dropWhile (column < ·)
        tokens := List.replicate closed.length ⟨.dedent, s.position⟩ ++ s.tokens }
    if settled.level = column then .ok settled else settled.fail .inconsistentDedent

/-- Reads the indentation of a physical line.  A line with nothing but
    blanks and a comment has none to speak of. -/
def indentation (s : Scan) : Except SyntaxError Scan :=
  let blanks := s.rest.takeWhile isBlank
  let s := s.skip blanks.length
  match s.rest with
  | [] => .ok s
  | b :: _ =>
    if b = hash || b = newline then .ok s
    else settle { s with atLineStart := false } (indentWidth blanks)

/-! ## Section 3: Pieces of a line -/

/-- Reads a line feed.  It ends the logical line unless that line is
    empty or a bracket is open. -/
def lineFeed (s : Scan) : Scan :=
  if s.brackets = [] then
    { (if s.atLineStart then s else s.emit .newline).skip 1 with atLineStart := true }
  else s.skip 1

/-- Reads a backslash that `after` follows.  A line feed must be next. -/
def continuation (s : Scan) (after : Text) : Except SyntaxError Scan :=
  match after with
  | [] => s.fail .endAfterBackslash
  | b :: _ => if b = newline then .ok (s.skip 2) else (s.skip 1).fail .strayBackslash

/-- Reads a number. -/
def number (s : Scan) : Scan :=
  let n := NumberLiteral.length s.rest
  (s.emit (.number (s.rest.take n))).skip n

/-- Reads a string literal with the given prefix. -/
def string (s : Scan) (word : Text) : Except SyntaxError Scan :=
  match StringLiteral.length? word s.rest with
  | .ok n =>
    .ok ((s.emit (.string (s.rest.take n) (StringLiteral.isFormatted word)
      (StringLiteral.isBytes word))).skip n)
  | .error literal => (s.skip literal.start).fail (.unterminatedString literal.triple)

/-- Reads a word, and the string literal that it is the prefix of. -/
def word (s : Scan) : Except SyntaxError Scan :=
  let word := s.rest.takeWhile isNameByte
  let quoted := match s.rest.drop word.length with
    | [] => false
    | b :: _ => isQuote b
  if quoted && StringLiteral.isLiteralPrefix word then s.string word
  else .ok ((s.emit (.ofWord word)).skip word.length)

/-- Keeps the open brackets in step with a symbol about to be read. -/
def trackBrackets (s : Scan) (symbol : Symbol) : Except SyntaxError Scan :=
  match symbol with
  | .opening bracket => .ok { s with brackets := ⟨bracket, s.position⟩ :: s.brackets }
  | .closing bracket =>
    match s.brackets with
    | [] => s.fail (.unmatchedCloser bracket)
    | innermost :: others =>
      if innermost.bracket = bracket then .ok { s with brackets := others }
      else s.fail (.mismatchedCloser bracket innermost.bracket)
  | _ => .ok s

/-- Reads a symbol at the byte `b`. -/
def symbol (s : Scan) (b : UInt8) : Except SyntaxError Scan :=
  match Symbol.leading? s.rest with
  | none => s.fail (.invalidCharacter b)
  | some symbol => do
    let s ← s.trackBrackets symbol
    .ok ((s.emit (.symbol symbol)).skip symbol.text.length)

/-- Reads the next piece of a line, which starts with the byte `b` and
    goes on with `after`. -/
def piece (s : Scan) (b : UInt8) (after : Text) : Except SyntaxError Scan :=
  if isBlank b then .ok (s.skip 1)
  else if b = hash then .ok (s.skip (s.rest.takeWhile (· != newline)).length)
  else if b = newline then .ok s.lineFeed
  else if b = backslash then s.continuation after
  else if isNameStart b then s.word
  else if NumberLiteral.startsAt s.rest then .ok s.number
  else if isQuote b then s.string []
  else s.symbol b

/-! ## Section 4: Whole sources -/

/-- Reads indentation where a line starts, and nothing elsewhere. -/
def enterLine (s : Scan) : Except SyntaxError Scan :=
  if s.atLineStart && s.brackets.isEmpty then s.indentation else .ok s

/-- Reads at most `fuel` pieces.  A piece has at least one byte, so the
    length of the source is enough to reach its end. -/
def run : (fuel : Nat) → Scan → Except SyntaxError Scan
  | 0, s => s.enterLine
  | fuel + 1, s => do
    let s ← s.enterLine
    match s.rest with
    | [] => .ok s
    | b :: after => run fuel (← s.piece b after)

/-- Whether the last logical line has been ended. -/
def isLineEnded (s : Scan) : Bool :=
  match s.tokens with
  | [] => true
  | token :: _ =>
    match token.lexeme with
    | .newline | .indent | .dedent => true
    | _ => false

/-- Ends the last line and the blocks that are open, provided that no
    bracket is. -/
def finish (s : Scan) : Except SyntaxError (List Token) :=
  match s.brackets with
  | innermost :: _ => .error ⟨innermost.position, .unclosedBracket innermost.bracket⟩
  | [] =>
    let s := if s.isLineEnded then s else s.emit .newline
    let dedents : List Token := List.replicate (s.levels.length - 1) ⟨.dedent, s.position⟩
    .ok (⟨.endMarker, s.position⟩ :: (dedents ++ s.tokens)).reverse

end Scan

/-- The tokens of a source, ended by an end marker. -/
def tokenize (source : Text) : Except SyntaxError (List Token) := do
  (← Scan.run source.length (.ofSource source)).finish

end StyleCheck
