import StyleCheck.Syntax.Grammar.SimpleStatement

/-! # Statements

    A logical line holds one compound statement or several simple ones.
    A compound statement owns suites: the rest of its line, or an
    indented block.  As for expressions, the references of the grammar
    to itself go through a record, and the tokens are the fuel with
    which they are followed.
-/

namespace StyleCheck

/-- The parsers that the grammar of statements refers back to. -/
structure StatementParsers where
  /-- A compound statement, or a line of simple ones. -/
  statement : Parser (List Stmt)
  /-- An `if` or `elif` with all that hangs on it. -/
  conditional : Parser Stmt

/-- References that are not followed, for want of fuel. -/
def StatementParsers.spent : StatementParsers where
  statement := Parser.spent
  conditional := Parser.spent

namespace Grammar

open StyleCheck.Parser

/-! ## Section 1: Suites -/

/-- Reads one more statement, unless a lexeme in `ends` is at the front.
    What has been read before is in `read`, the last of it first. -/
def nextStatement (ends : Lexeme → Bool) (statement : Parser (List Stmt)) (read : List Stmt) :
    Parser (Next (List Stmt) (List Stmt)) := do
  if ends (← peek) then pure (.done read.reverse)
  else
    let stmts ← statement
    pure (.again (stmts.reverse ++ read))

/-- Statements up to a lexeme in `ends`. -/
def statementsUntil (ends : Lexeme → Bool) (statement : Parser (List Stmt)) :
    Parser (List Stmt) :=
  loop (nextStatement ends statement) []

/-- Where an indented block ends. -/
def endsBlock : Lexeme → Bool
  | .dedent | .endMarker => true
  | _ => false

variable (p : StatementParsers)

/-- A suite: simple statements on the same line, or an indented block. -/
def suite : Parser (List Stmt) := do
  if ← acceptIf (· == .newline) then
    if ← acceptIf (· == .indent) then
      let body ← statementsUntil endsBlock p.statement
      let _ ← acceptIf (· == .dedent)
      pure body
    else fail .missingBlock
  else simpleStatements

/-- A colon and a suite. -/
def body : Parser (List Stmt) := do
  expect .colon
  suite p

/-- A keyword with a body, if the keyword is there. -/
def optionalBody (keyword : Keyword) : Parser (Option (List Stmt)) := do
  if ← acceptKeyword keyword then
    let inner ← body p
    pure (some inner)
  else pure none

/-! ## Section 2: Compound statements -/

/-- What hangs on a conditional: an `elif`, which is a conditional of its
    own, an `else`, or nothing. -/
def alternative : Parser (List Stmt) := do
  if ← atKeyword .elif_ then
    let next ← p.conditional
    pure [next]
  else
    let last ← optionalBody p .else_
    pure (last.getD [])

/-- An `if` or `elif`, with what hangs on it below it. -/
def conditional : Parser Stmt := do
  let line ← line
  advance
  let _ ← namedExpression grammar
  let first ← body p
  let rest ← alternative p
  pure (.block line .conditional (first ++ rest))

/-- A `while`, and what is done when it ends. -/
def whileLoop : Parser Stmt := do
  let line ← line
  advance
  let _ ← namedExpression grammar
  let first ← body p
  let last ← optionalBody p .else_
  pure (.block line .whileLoop (first ++ last.getD []))

/-- A `for`, from that keyword on, and what is done when it ends. -/
def forLoop (line : Nat) (isAsync : Bool) : Parser Stmt := do
  advance
  let _ ← targets grammar
  expectKeyword .in_ .invalidSyntax
  let _ ← starExpressions grammar
  let first ← body p
  let last ← optionalBody p .else_
  pure (.block line (.forLoop isAsync) (first ++ last.getD []))

/-- A handler, from its keyword on, and whether it is for groups. -/
def handler : Parser (Stmt × Bool) := do
  let line ← line
  advance
  let star ← accept .star
  unless ← atSymbol .colon do
    let _ ← grammar.expression
    asName
  let handled ← body p
  pure (.block line .handler handled, star)

/-- Reads one more handler behind those in `read`, if there is one, and
    keeps whether any of them is for groups. -/
def nextHandler (read : List Stmt × Bool) :
    Parser (Next (List Stmt × Bool) (List Stmt × Bool)) := do
  if ← atKeyword .except_ then
    let (next, star) ← handler p
    pure (.again (read.1 ++ [next], read.2 || star))
  else pure (.done read)

/-- A `try` with its handlers, an alternative that needs at least one
    of them, and a final block.  One of the two must be there. -/
def tryBlock : Parser Stmt := do
  let line ← line
  advance
  let first ← body p
  let (handlers, star) ← loop (nextHandler p) ([], false)
  let alternative ← if handlers.isEmpty then pure none else optionalBody p .else_
  let final ← optionalBody p .finally_
  if handlers.isEmpty && final.isNone then fail .missingHandler
  else
    pure (.block line (.tryBlock star)
      (first ++ handlers ++ alternative.getD [] ++ final.getD []))

/-- What follows the bracket that closes the group at the front, where
    `depth` brackets are open already. -/
def behindGroup (depth : Nat) : List Token → List Token
  | [] => []
  | t :: ts =>
    match t.lexeme with
    | .symbol (.opening _) => behindGroup (depth + 1) ts
    | .symbol (.closing _) => if depth ≤ 1 then ts else behindGroup (depth - 1) ts
    | _ => behindGroup depth ts

/-- One item of a `with`: an expression, and a target behind `as`. -/
def withItem : Parser Unit := do
  let _ ← grammar.expression
  if ← acceptKeyword .as_ then
    let _ ← grammar.operand

/-- Reads one more item.  The items go on behind a comma. -/
def nextWithItem : Parser Bool := do
  withItem
  accept .comma

/-- Reads one more item between parentheses, unless they close. -/
def nextGroupedItem : Parser Bool := do
  if ← atSymbol (.closing .round) then pure false else nextWithItem

/-- The items of a `with`.  A parenthesis that a colon follows groups
    the items; any other is part of the first. -/
def withItems : Parser Unit := do
  let ts ← remaining
  let opened ← atSymbol (.opening .round)
  if opened && (front (behindGroup 0 ts)).lexeme == .symbol .colon then
    advance
    repeatWhile nextGroupedItem
    expect (.closing .round)
  else repeatWhile nextWithItem

/-- A `with`, from that keyword on. -/
def withBlock (line : Nat) (isAsync : Bool) : Parser Stmt := do
  advance
  withItems
  let inner ← body p
  pure (.block line (.withBlock isAsync) inner)

/-- A function, from `def` on. -/
def functionDef (line : Nat) (isAsync : Bool) : Parser Stmt := do
  advance
  let name ← name
  typeParameters
  expect (.opening .round)
  let params ← parameters grammar (.closing .round) true
  expect (.closing .round)
  if ← accept .arrow then
    let _ ← grammar.expression
  let inner ← body p
  pure (.functionDef line isAsync name params inner)

/-- A class, from `class` on. -/
def classDef (line : Nat) : Parser Stmt := do
  advance
  let name ← name
  typeParameters
  if ← atSymbol (.opening .round) then arguments grammar
  let inner ← body p
  pure (.classDef line name inner)

/-- Reads one more decorator with the end of its line, if there is one. -/
def nextDecorator : Parser Bool := do
  if ← accept .atSign then
    let _ ← namedExpression grammar
    expectNewline .invalidSyntax
    pure true
  else pure false

/-- Decorators, each on a line of its own, and what they decorate.  The
    line of the statement is that of the definition. -/
def decorated : Parser Stmt := do
  repeatWhile nextDecorator
  let line ← line
  let second ← peekSecond
  match ← peek with
  | .keyword .def_ => functionDef p line false
  | .keyword .class_ => classDef p line
  | .keyword .async_ =>
    if second == .keyword .def_ then
      advance
      functionDef p line true
    else fail .invalidSyntax
  | _ => fail .invalidSyntax

/-- An `async` and the statement that it stands before. -/
def asyncStatement : Parser Stmt := do
  let line ← line
  advance
  match ← peek with
  | .keyword .def_ => functionDef p line true
  | .keyword .for_ => forLoop p line true
  | .keyword .with_ => withBlock p line true
  | _ => fail .invalidSyntax

/-! ## Section 3: Matching -/

/-- Whether a logical line ends in a colon that opens a block.  The
    lexeme `before` is the last one read of the line. -/
def opensBlock (before : Lexeme) : List Token → Bool
  | [] => false
  | t :: ts =>
    match t.lexeme with
    | .newline => before == .symbol .colon && (front ts).lexeme == .indent
    | .endMarker => false
    | lexeme => opensBlock lexeme ts

/-- Whether the soft keyword at the front opens a `match` statement. -/
def atMatch : Parser Bool := do
  match ← remaining with
  | ⟨.name word, _⟩ :: ts =>
    let next := (front ts).lexeme
    pure (word == SoftKeyword.match_ && next != .newline && next != .symbol .equal
      && next != .symbol .colon && opensBlock (.name word) ts)
  | _ => pure false

/-- Reads the pattern and the guard of a case with the colon behind
    them.  Only brackets are looked at, and the colon must stand outside
    of them; `isEmpty` says that nothing has been read yet. -/
def skipPattern (isEmpty : Bool) (depth : Int) : Parser Unit
  | [] => fail (.missing .colon) []
  | t :: ts =>
    match t.lexeme with
    | .newline | .endMarker => fail (.missing .colon) (t :: ts)
    | lexeme =>
      if depth = 0 && lexeme == .symbol .colon then
        if isEmpty then fail .invalidSyntax (t :: ts) else .ok ((), ts)
      else skipPattern false (depth + lexeme.depthChange) ts

/-- One case, from its soft keyword on. -/
def matchCase : Parser Stmt := do
  let line ← line
  advance
  skipPattern true 0
  let inner ← suite p
  pure (.block line .matchCase inner)

/-- Reads one more case, if there is one.  What has been read before is
    in `read`, the last of it first. -/
def nextCase (read : List Stmt) : Parser (Next (List Stmt) (List Stmt)) := do
  if (← peek) == .name SoftKeyword.case_ then
    let next ← matchCase p
    pure (.again (next :: read))
  else pure (.done read.reverse)

/-- A `match` with its cases, of which there must be one. -/
def matchBlock : Parser Stmt := do
  let line ← line
  advance
  let _ ← starExpressions grammar
  expect .colon
  expectNewline .invalidSyntax
  if ← acceptIf (· == .indent) then
    let cases ← loop (nextCase p) []
    if cases.isEmpty then fail .missingCase
    else if ← acceptIf (· == .dedent) then pure (.block line .matchBlock cases)
    else fail .invalidSyntax
  else fail .missingBlock

/-! ## Section 4: The knot -/

/-- The compound statement that starts with a lexeme, if there is one. -/
def compound? : Lexeme → Option (Parser Stmt)
  | .keyword .if_ => some (conditional p)
  | .keyword .while_ => some (whileLoop p)
  | .keyword .for_ => some do forLoop p (← line) false
  | .keyword .try_ => some (tryBlock p)
  | .keyword .with_ => some do withBlock p (← line) false
  | .keyword .def_ => some do functionDef p (← line) false
  | .keyword .class_ => some do classDef p (← line)
  | .keyword .async_ => some (asyncStatement p)
  | .symbol .atSign => some (decorated p)
  | .indent => some (fail .unexpectedIndent)
  | _ => none

/-- A compound statement, or a line of simple ones. -/
def statement : Parser (List Stmt) := do
  if ← atMatch then
    let stmt ← matchBlock p
    pure [stmt]
  else
    match compound? p (← peek) with
    | some parser =>
      let stmt ← parser
      pure [stmt]
    | none => simpleStatements

/-- The grammar in which references are followed as deep as `fuel` has
    tokens.  Below that, they are those of `bottom`. -/
def statementsOver (bottom : StatementParsers) : (fuel : List Token) → StatementParsers
  | [] => bottom
  | _ :: fuel =>
    { statement := fun ts => statement (statementsOver bottom fuel) ts
      conditional := fun ts => conditional (statementsOver bottom fuel) ts }

/-- The grammar in which references are followed at most as deep as
    `fuel` has tokens. -/
def statementsUpTo (fuel : List Token) : StatementParsers := statementsOver .spent fuel

end Grammar

/-- The grammar of statements.  A reference stands behind a token that
    has been read, so the tokens that are left are fuel enough. -/
def statementGrammar : StatementParsers where
  statement := fun ts => Grammar.statement (Grammar.statementsUpTo ts) ts
  conditional := fun ts => Grammar.conditional (Grammar.statementsUpTo ts) ts

end StyleCheck
