import StyleCheck.Syntax.Parser
import StyleCheck.Syntax.Tree

/-! # Lists and Clauses

    The parts of expressions that stand between commas or inside
    brackets: elements, targets, comprehensions, arguments, slices.

    Where the grammar of expressions comes back to itself, inside
    brackets or behind a prefix operator, it goes through
    `Nonterminals`.  The parsers below only ever see that record.
-/

namespace StyleCheck

/-- The parsers that the grammar of expressions refers back to. -/
structure Nonterminals where
  /-- A lambda, a conditional expression, or a disjunction. -/
  expression : Parser Expr
  disjunction : Parser Expr
  /-- A comparison behind any number of `not`. -/
  inversion : Parser Expr
  /-- Binary operators of every level. -/
  operand : Parser Expr
  /-- A power behind any number of signs. -/
  factor : Parser Expr

/-- References that are not followed, for want of fuel. -/
def Nonterminals.spent : Nonterminals where
  expression := Parser.spent
  disjunction := Parser.spent
  inversion := Parser.spent
  operand := Parser.spent
  factor := Parser.spent

namespace Grammar

open StyleCheck.Parser

variable (g : Nonterminals)

/-! ## Section 1: Lists and names -/

/-- A star and an operand, or an expression. -/
def starExpression : Parser Expr := do
  let start ← position
  if ← accept .star then
    let _ ← g.operand
    pure ⟨.starred, start⟩
  else g.expression

/-- Reads a comma, and one more expression unless the comma is the last. -/
def nextStarExpression : Parser Bool := do
  if ← accept .comma then
    if (← peek).startsExpression then
      let _ ← starExpression g
      pure true
    else pure false
  else pure false

/-- Expressions between commas.  With a comma they form a tuple; one
    may stand at the end. -/
def starExpressions : Parser Expr := do
  let start ← position
  let first ← starExpression g
  if ← atSymbol .comma then
    repeatWhile (nextStarExpression g)
    pure ⟨.tuple, start⟩
  else pure first

/-- An assignment expression `name := value`, or an expression. -/
def namedExpression : Parser Expr := do
  let start ← position
  let first ← peek
  let second ← peekSecond
  if first.isWord && second == .symbol .colonEqual then
    let _ ← name
    advance
    let _ ← g.expression
    pure ⟨.other, start⟩
  else g.expression

/-- An element of a display: `*` and an operand, or a named expression. -/
def element : Parser Expr := do
  if ← atSymbol .star then starExpression g else namedExpression g

/-- Reads one more element behind a comma, unless the display ends. -/
def nextElement (closer : Bracket) : Parser Bool := do
  if ← accept .comma then
    if ← atSymbol (.closing closer) then pure false
    else
      let _ ← element g
      pure true
  else pure false

/-- Elements behind commas, up to the bracket that closes the display. -/
def moreElements (closer : Bracket) : Parser Unit := repeatWhile (nextElement g closer)

/-- One target of a `for`. -/
def target : Parser Expr := do
  if ← atSymbol .star then starExpression g else g.operand

/-- What may follow a comma at the end of the targets. -/
def endsTargets : Lexeme → Bool
  | .keyword .in_ | .symbol .equal | .symbol .colon | .symbol (.closing .round) => true
  | _ => false

/-- Reads a comma, and one more target unless the comma is the last. -/
def nextTarget : Parser Bool := do
  if ← accept .comma then
    if endsTargets (← peek) then pure false
    else
      let _ ← target g
      pure true
  else pure false

/-- The targets of a `for`, between commas. -/
def targets : Parser Expr := do
  let start ← position
  let first ← target g
  if ← atSymbol .comma then
    repeatWhile (nextTarget g)
    pure ⟨.tuple, start⟩
  else pure first

/-! ## Section 2: Comprehensions, calls and subscripts -/

/-- Whether a comprehension starts here. -/
def atComprehension : Parser Bool := do
  match ← peek with
  | .keyword .for_ | .keyword .async_ => pure true
  | _ => pure false

/-- Reads the keywords that open a clause of a comprehension. -/
def acceptFor : Parser Bool := do
  if ← acceptKeyword .for_ then pure true
  else if (← peekSecond) == .keyword .for_ then
    if ← acceptKeyword .async_ then
      advance
      pure true
    else pure false
  else pure false

/-- Reads one more condition of a clause, if there is one. -/
def nextCondition : Parser Bool := do
  if ← acceptKeyword .if_ then
    let _ ← g.disjunction
    pure true
  else pure false

/-- What follows the keywords of a clause: targets, a source, and any
    number of conditions. -/
def clause : Parser Unit := do
  let _ ← targets g
  expectKeyword .in_ .invalidSyntax
  let _ ← g.disjunction
  repeatWhile (nextCondition g)

/-- Reads one more clause, if there is one. -/
def nextClause : Parser Bool := do
  if ← acceptFor then
    clause g
    pure true
  else pure false

/-- One clause or more. -/
def comprehension : Parser Unit := do
  if ← acceptFor then
    clause g
    repeatWhile (nextClause g)
  else fail .invalidSyntax

/-- One argument of a call. -/
def argument : Parser Unit := do
  let first ← peek
  let second ← peekSecond
  if ← acceptIf (fun l => l == .symbol .star || l == .symbol .doubleStar) then
    let _ ← g.expression
  else if first.isWord && second == .symbol .equal then
    advance
    advance
    let _ ← g.expression
  else
    let _ ← namedExpression g
    if ← atComprehension then comprehension g

/-- Reads one more argument, unless the call ends.  The arguments go on
    behind a comma. -/
def nextArgument : Parser Bool := do
  if ← atSymbol (.closing .round) then pure false
  else
    argument g
    accept .comma

/-- The arguments of a call with their parentheses. -/
def arguments : Parser Unit := do
  expect (.opening .round)
  repeatWhile (nextArgument g)
  expect (.closing .round)

/-- Whether a bound of a slice is left out here. -/
def endsBound : Lexeme → Bool
  | .symbol .colon | .symbol (.closing .square) | .symbol .comma => true
  | _ => false

/-- The bounds of a slice behind its first colon. -/
def laterBounds : Parser Unit := do
  unless endsBound (← peek) do
    let _ ← g.expression
  if ← accept .colon then
    let stop ← peek
    unless stop == .symbol (.closing .square) || stop == .symbol .comma do
      let _ ← g.expression

/-- One subscript: an element, or a slice of up to three bounds. -/
def slice : Parser Unit := do
  if ← atSymbol .star then
    let _ ← starExpression g
  else
    unless ← atSymbol .colon do
      let _ ← namedExpression g
    if ← accept .colon then laterBounds g

/-- Reads one more subscript.  The subscripts go on behind a comma,
    unless they end there. -/
def nextSlice : Parser Bool := do
  slice g
  if ← accept .comma then
    let closed ← atSymbol (.closing .square)
    pure (!closed)
  else pure false

/-- The subscripts between square brackets. -/
def slices : Parser Unit := do
  if ← atSymbol (.closing .square) then fail .invalidSyntax
  else repeatWhile (nextSlice g)

end Grammar

end StyleCheck
