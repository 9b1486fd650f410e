import StyleCheck.Syntax.Scan

/-! # The Cursor

    The tokens of a source as a scan reads them, but read through a
    cursor.  A lexer has the whole source in front of it, and looks at a
    byte by its offset, at times at the one behind the cursor.  It keeps
    the offset that it has come to and the one at which the line starts;
    a column is how far the one is from the other, so both have to be
    set where a line ends.

    Every loop has the bytes that are left as its fuel.  A lexer that
    runs out of fuel says so, and reports nothing.
-/

namespace StyleCheck

open Byte

/-- A cursor in a source, and what has been read up to it. -/
structure Lexer where
  /-- The offset of the next byte. -/
  pos : Nat
  /-- The offset at which the physical line starts. -/
  lineStart : Nat
  line : Nat
  /-- No token of the logical line has been read yet. -/
  atLineStart : Bool
  /-- The indentation levels that are open, innermost first. -/
  levels : List Nat
  /-- The brackets that are open, innermost first. -/
  brackets : List OpenBracket
  /-- The tokens read, newest first. -/
  tokens : List Token
  /-- The cursor is on the line. -/
  inLine : lineStart ≤ pos

namespace Lexer

/-- Why a lexer stops in the middle of a source. -/
inductive Stop where
  | error (e : SyntaxError)
  /-- A loop has run out of fuel. -/
  | spent
  deriving DecidableEq, Repr

/-- What a lexer comes to, unless it stops. -/
abbrev Lexing (α : Type) : Type := Except Stop α

/-- Nothing read yet.  A byte order mark at the very start is skipped. -/
def start (source : Text) : Lexer :=
  let offset := if Scan.byteOrderMark.isPrefixOf source then 3 else 0
  { pos := offset
    lineStart := offset
    line := 1
    atLineStart := true
    levels := [0]
    brackets := []
    tokens := []
    inLine := Nat.le_refl _ }

variable (source : Text)

/-! ## Section 1: The cursor -/

/-- The byte so far ahead, and zero behind the end. -/
def peek (l : Lexer) (ahead : Nat) : UInt8 := source[l.pos + ahead]?.getD 0

/-- Nothing is left. -/
def atEnd (l : Lexer) : Bool := source.length ≤ l.pos

/-- How many bytes are left. -/
def left (l : Lexer) : Nat := source.length - l.pos

/-- The byte behind the cursor is a letter, given in lower case. -/
def follows (l : Lexer) (letter : UInt8) : Bool :=
  0 < l.pos && toLower (source[l.pos - 1]?.getD 0) == letter

/-- The position of an offset on the line. -/
def place (l : Lexer) (offset : Nat) : Position := ⟨l.line, offset - l.lineStart + 1⟩

/-- Moves the cursor forwards. -/
def move (l : Lexer) (n : Nat) : Lexer :=
  { l with pos := l.pos + n, inLine := Nat.le_add_right_of_le l.inLine }

/-- Starts a line at the cursor. -/
def startLine (l : Lexer) : Lexer :=
  { l with line := l.line + 1, lineStart := l.pos, inLine := Nat.le_refl _ }

/-- Sets whether the logical line has still to begin. -/
def setAtLineStart (l : Lexer) (atLineStart : Bool) : Lexer := { l with atLineStart := atLineStart }

/-- Adds a token. -/
def push (l : Lexer) (lexeme : Lexeme) (position : Position) : Lexer :=
  { l with tokens := ⟨lexeme, position⟩ :: l.tokens }

/-- Stops with an error at an offset on the line. -/
def fail {α : Type} (l : Lexer) (offset : Nat) (fault : Fault) : Lexing α :=
  .error (.error ⟨l.place offset, fault⟩)

/-- Moves over the bytes in `p`. -/
def overWhile (p : UInt8 → Bool) : (fuel : Nat) → Lexer → Lexer
  | 0, l => l
  | fuel + 1, l =>
    if !l.atEnd source && p (l.peek source 0) then overWhile p fuel (l.move 1) else l

/-! ## Section 2: Indentation -/

/-- Moves over blanks, and counts the column that they come to. -/
def overBlanks : (fuel : Nat) → (column : Nat) → Lexer → Nat × Lexer
  | 0, column, l => (column, l)
  | fuel + 1, column, l =>
    if !l.atEnd source && isBlank (l.peek source 0) then
      overBlanks fuel (Scan.columnAfter column (l.peek source 0)) (l.move 1)
    else (column, l)

/-- Closes the innermost level. -/
def dedent (l : Lexer) : Lexer :=
  { l.push .dedent (l.place l.pos) with levels := l.levels.tail }

/-- Closes those of the levels that are deeper than the column. -/
def closeLevels (column : Nat) : (levels : List Nat) → Lexer → Lexer
  | [], l => l
  | level :: outer, l => if column < level then closeLevels column outer l.dedent else l

/-- Opens or closes levels so that the innermost is `column`. -/
def settle (l : Lexer) (column : Nat) : Lexing Lexer :=
  if l.levels.headD 0 < column then
    .ok { l.push .indent (l.place l.pos) with levels := column :: l.levels }
  else
    let settled := l.closeLevels column l.levels
    if settled.levels.headD 0 = column then .ok settled
    else settled.fail settled.pos .inconsistentDedent

/-- Reads the indentation of a physical line. -/
def indentation (l : Lexer) : Lexing Lexer :=
  let (column, l) := l.overBlanks source (l.left source) 0
  if l.atEnd source then .ok l
  else if l.peek source 0 = hash || l.peek source 0 = newline then .ok l
  else (l.setAtLineStart false).settle column

/-! ## Section 3: Literals -/

/-- Reads the rest of a string literal that is reported at `start`, with
    so many replacement fields open.  What stands inside of the fields
    may have literals of its own. -/
def skipStringBody : (fuel : Nat) → (quote : UInt8) → (triple formatted : Bool) →
    (start : Position) → (depth : Nat) → Lexer → Lexing Lexer
  | 0, _, _, _, _, _, _ => .error .spent
  | fuel + 1, quote, triple, formatted, start, depth, l =>
    let b := l.peek source 0
    let goOn := skipStringBody fuel quote triple formatted start
    if l.atEnd source then .error (.error ⟨start, .unterminatedString triple⟩)
    else if b = backslash then
      if l.peek source 1 = newline then goOn depth (l.move 2).startLine
      else if formatted && (l.peek source 1 = leftBrace || l.peek source 1 = rightBrace) then
        goOn depth (l.move 1)
      else goOn depth (l.move (if l.pos + 1 < source.length then 2 else 1))
    else if b = newline then
      if !triple && depth = 0 then .error (.error ⟨start, .unterminatedString false⟩)
      else goOn depth (l.move 1).startLine
    else if formatted && b = leftBrace then
      if depth = 0 && l.peek source 1 = leftBrace then goOn depth (l.move 2)
      else goOn (depth + 1) (l.move 1)
    else if formatted && b = rightBrace then
      if depth = 0 then goOn depth (l.move (if l.peek source 1 = rightBrace then 2 else 1))
      else goOn (depth - 1) (l.move 1)
    else if 0 < depth && isQuote b then
      let nestedTriple := l.peek source 1 == b && l.peek source 2 == b
      skipStringBody fuel b nestedTriple (l.follows source 0x66) (l.place l.pos) 0
        (l.move (StringLiteral.quoteCount nestedTriple)) >>= goOn depth
    else if b = quote && (!triple || l.peek source 1 = quote && l.peek source 2 = quote) then
      .ok (l.move (StringLiteral.quoteCount triple))
    else goOn depth (l.move 1)

/-- Reads a string literal at its quote.  The prefix is `word`, and
    starts at the given offset. -/
def string (l : Lexer) (offset : Nat) (word : Text) : Lexing Lexer := do
  let quote := l.peek source 0
  let triple := l.peek source 1 == quote && l.peek source 2 == quote
  let body := l.move (StringLiteral.quoteCount triple)
  let next ← body.skipStringBody source (body.left source + 1) quote triple
    (StringLiteral.isFormatted word) (l.place offset) 0
  .ok (next.push (.string (source.slice ⟨offset, next.pos⟩) (StringLiteral.isFormatted word)
    (StringLiteral.isBytes word)) (l.place offset))

/-- Moves over the bytes of a number. -/
def overNumber (hexadecimal : Bool) : (fuel : Nat) → Lexer → Lexer
  | 0, l => l
  | fuel + 1, l =>
    let b := l.peek source 0
    if l.atEnd source then l
    else if isNameByte b || b == dot
        || ((b == plus || b == minus) && !hexadecimal && l.follows source 0x65) then
      overNumber hexadecimal fuel (l.move 1)
    else l

/-- Reads a number. -/
def number (l : Lexer) : Lexer :=
  let hexadecimal := l.peek source 0 == zero && toLower (l.peek source 1) == 0x78
  let next := l.overNumber source hexadecimal (l.left source)
  next.push (.number (source.slice ⟨l.pos, next.pos⟩)) (next.place l.pos)

/-! ## Section 4: Pieces of a line -/

/-- Reads a line feed. -/
def lineFeed (l : Lexer) : Lexer :=
  let ended := if l.brackets.isEmpty && !l.atLineStart then l.push .newline (l.place l.pos) else l
  let next := (ended.move 1).startLine
  if next.brackets.isEmpty then next.setAtLineStart true else next

/-- Reads a backslash.  A line feed must be next. -/
def continuation (l : Lexer) : Lexing Lexer :=
  if l.peek source 1 = newline then .ok (l.move 2).startLine
  else if source.length ≤ l.pos + 1 then l.fail l.pos .endAfterBackslash
  else l.fail (l.pos + 1) .strayBackslash

/-- Reads a word, and the string literal that it is the prefix of. -/
def word (l : Lexer) : Lexing Lexer :=
  let next := l.overWhile source isNameByte (l.left source)
  let word := source.slice ⟨l.pos, next.pos⟩
  if isQuote (next.peek source 0) && StringLiteral.isLiteralPrefix word then
    next.string source l.pos word
  else .ok (next.push (.ofWord word) (next.place l.pos))

/-- Keeps the open brackets in step with a symbol at the cursor. -/
def trackBrackets (l : Lexer) (symbol : Symbol) : Lexing Lexer :=
  match symbol with
  | .opening bracket => .ok { l with brackets := ⟨bracket, l.place l.pos⟩ :: l.brackets }
  | .closing bracket =>
    match l.brackets with
    | [] => l.fail l.pos (.unmatchedCloser bracket)
    | innermost :: others =>
      if innermost.bracket = bracket then .ok { l with brackets := others }
      else l.fail l.pos (.mismatchedCloser bracket innermost.bracket)
  | _ => .ok l

/-- Reads a symbol. -/
def symbol (l : Lexer) : Lexing Lexer :=
  match Symbol.leading? (source.drop l.pos) with
  | none => l.fail l.pos (.invalidCharacter (l.peek source 0))
  | some symbol => do
    let next ← l.trackBrackets symbol
    .ok ((next.push (.symbol symbol) (next.place next.pos)).move symbol.text.length)

/-- Reads the next piece of a line. -/
def piece (l : Lexer) : Lexing Lexer :=
  let b := l.peek source 0
  if isBlank b then .ok (l.move 1)
  else if b = hash then .ok (l.overWhile source (· != newline) (l.left source))
  else if b = newline then .ok l.lineFeed
  else if b = backslash then l.continuation source
  else if isNameStart b then l.word source
  else if isDigit b || (b == dot && isDigit (l.peek source 1)) then .ok (l.number source)
  else if isQuote b then l.string source l.pos []
  else l.symbol source

/-! ## Section 5: Whole sources -/

/-- Reads indentation where a line starts, and nothing elsewhere. -/
def enterLine (l : Lexer) : Lexing Lexer :=
  if l.atLineStart && l.brackets.isEmpty then l.indentation source else .ok l

/-- Reads pieces up to the end. -/
def run : (fuel : Nat) → Lexer → Lexing Lexer
  | 0, _ => .error .spent
  | fuel + 1, l => do
    let l ← l.enterLine source
    if l.atEnd source then .ok l else run fuel (← l.piece source)

/-- Whether the last logical line has been ended. -/
def isLineEnded (l : Lexer) : Bool :=
  match l.tokens with
  | [] => true
  | token :: _ => token.lexeme = .newline || token.lexeme = .dedent || token.lexeme = .indent

/-- Closes all levels but the outermost. -/
def closeBlocks : (levels : List Nat) → Lexer → Lexer
  | _ :: level :: outer, l => closeBlocks (level :: outer) l.dedent
  | _, l => l

/-- Ends the last line and the blocks that are open, provided that no
    bracket is. -/
def finish (l : Lexer) : Lexing (List Token) :=
  match l.brackets with
  | innermost :: _ => .error (.error ⟨innermost.position, .unclosedBracket innermost.bracket⟩)
  | [] =>
    let ended := if l.isLineEnded then l else l.push .newline (l.place l.pos)
    let closed := ended.closeBlocks ended.levels
    .ok (closed.push .endMarker (closed.place closed.pos)).tokens.reverse

end Lexer

/-- The tokens of a source as a lexer reads them. -/
def lex (source : Text) : Lexer.Lexing (List Token) := do
  let start := Lexer.start source
  (← start.run source (start.left source + 1)).finish

end StyleCheck
