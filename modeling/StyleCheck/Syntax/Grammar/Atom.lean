import StyleCheck.Syntax.Grammar.Clause

/-! # Atoms and Primaries

    Names, literals and displays, with what may stand behind them.
-/

namespace StyleCheck

namespace Grammar

open StyleCheck.Parser

variable (g : Nonterminals)

/-- Reads one more string literal, if there is one.  Of those before it,
    `read` says whether one was formatted, one made of bytes, and one made
    of text. -/
def nextString (read : Bool × Bool × Bool) :
    Parser (Next (Bool × Bool × Bool) (Bool × Bool × Bool)) := do
  let (formatted, bytes, text) := read
  match ← peek with
  | .string _ isFormatted isBytes =>
    advance
    pure (.again (formatted || isFormatted, bytes || isBytes, text || !isBytes))
  | _ => pure (.done (formatted, bytes, text))

/-- String literals that follow each other are one literal.  They are
    all made of bytes, or none is. -/
def strings : Parser Expr := do
  let start ← position
  let (formatted, bytes, text) ← loop nextString (false, false, false)
  if bytes && text then failAt start .mixedLiterals
  else if formatted then pure ⟨.other, start⟩
  else pure ⟨.constant, start⟩

/-- The keyword `yield`, and what it yields. -/
def yieldExpression : Parser Expr := do
  let start ← position
  advance
  if ← acceptKeyword .from_ then
    let _ ← g.expression
  else if (← peek).startsExpression then
    let _ ← starExpressions g
  pure ⟨.other, start⟩

/-- A tuple, a generator, or an expression in parentheses, which keeps
    its own form and position. -/
def parenthesized : Parser Expr := do
  let start ← position
  advance
  if ← accept (.closing .round) then pure ⟨.tuple, start⟩
  else if ← atKeyword .yield_ then
    let _ ← yieldExpression g
    expect (.closing .round)
    pure ⟨.other, start⟩
  else
    let first ← element g
    if ← atComprehension then
      comprehension g
      expect (.closing .round)
      pure ⟨.other, start⟩
    else if ← atSymbol .comma then
      moreElements g .round
      expect (.closing .round)
      pure ⟨.tuple, start⟩
    else
      expect (.closing .round)
      pure first

/-- A list or a list comprehension. -/
def listDisplay : Parser Expr := do
  let start ← position
  advance
  if ← accept (.closing .square) then pure ⟨.list, start⟩
  else
    let _ ← element g
    if ← atComprehension then
      comprehension g
      expect (.closing .square)
      pure ⟨.other, start⟩
    else
      moreElements g .square
      expect (.closing .square)
      pure ⟨.list, start⟩

/-- An item of a dictionary: a key and a value, or `**` and an operand. -/
def item : Parser Unit := do
  if ← accept .doubleStar then
    let _ ← g.operand
  else
    let _ ← g.expression
    expect .colon
    let _ ← g.expression

/-- Reads one more item behind a comma, unless the dictionary ends. -/
def nextItem : Parser Bool := do
  if ← accept .comma then
    if ← atSymbol (.closing .curly) then pure false
    else
      item g
      pure true
  else pure false

/-- The items of a dictionary behind the first, and its bracket. -/
def moreItems : Parser Unit := do
  repeatWhile (nextItem g)
  expect (.closing .curly)

/-- A dictionary, a set, or a comprehension of either. -/
def braceDisplay : Parser Expr := do
  let start ← position
  advance
  if ← accept (.closing .curly) then pure ⟨.dict, start⟩
  else if ← atSymbol .doubleStar then
    item g
    moreItems g
    pure ⟨.dict, start⟩
  else
    let _ ← element g
    if ← accept .colon then
      let _ ← g.expression
      if ← atComprehension then
        comprehension g
        expect (.closing .curly)
        pure ⟨.other, start⟩
      else
        moreItems g
        pure ⟨.dict, start⟩
    else if ← atComprehension then
      comprehension g
      expect (.closing .curly)
      pure ⟨.other, start⟩
    else
      moreElements g .curly
      expect (.closing .curly)
      pure ⟨.set, start⟩

/-- A name, a literal, or a display. -/
def atom : Parser Expr := do
  let start ← position
  match ← peek with
  | .keyword word =>
    if word.isConstant then
      advance
      pure ⟨.constant, start⟩
    else fail .invalidSyntax
  | .name identifier =>
    advance
    pure ⟨.name identifier, start⟩
  | .number _ =>
    advance
    pure ⟨.constant, start⟩
  | .string .. => strings
  | .symbol (.opening .round) => parenthesized g
  | .symbol (.opening .square) => listDisplay g
  | .symbol (.opening .curly) => braceDisplay g
  | .symbol .ellipsis =>
    advance
    pure ⟨.constant, start⟩
  | _ => fail .invalidSyntax

/-- Reads one more attribute, call or subscript, if there is one.  What
    has been read before is what it belongs to. -/
def nextTrailer (start : Position) (read : Expr) : Parser (Next Expr Expr) := do
  if ← accept .dot then
    let _ ← name
    pure (.again ⟨.attribute, start⟩)
  else if ← atSymbol (.opening .round) then
    arguments g
    pure (.again ⟨.call, start⟩)
  else if ← accept (.opening .square) then
    slices g
    expect (.closing .square)
    pure (.again ⟨.subscript, start⟩)
  else pure (.done read)

/-- An atom with attributes, calls and subscripts behind it. -/
def primary : Parser Expr := do
  let start ← position
  let first ← atom g
  loop (nextTrailer g start) first

end Grammar

end StyleCheck
