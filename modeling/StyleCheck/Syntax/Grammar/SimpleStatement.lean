import StyleCheck.Syntax.Grammar.Expression

/-! # Simple Statements

    Statements that own no block.  Several of them may share a logical
    line, between semicolons.
-/

namespace StyleCheck

namespace Grammar

open StyleCheck.Parser

/-! ## Section 1: Parts that carry no tree -/

/-- Reads up to the square bracket that closes `depth` inner ones and
    the outer one.  Nothing else in between is looked at. -/
def skipSquare (depth : Nat) : Parser Unit
  | [] => fail .invalidSyntax []
  | t :: ts =>
    match t.lexeme with
    | .endMarker => fail .invalidSyntax (t :: ts)
    | .symbol (.opening .square) => skipSquare (depth + 1) ts
    | .symbol (.closing .square) =>
      match depth with
      | 0 => .ok ((), ts)
      | depth + 1 => skipSquare depth ts
    | _ => skipSquare depth ts

/-- Type parameters in square brackets, if there are any. -/
def typeParameters : Parser Unit := do
  if ← accept (.opening .square) then skipSquare 0

/-- Reads one more name.  The names go on behind a separator. -/
def nextName (separator : Symbol) : Parser Bool := do
  let _ ← name
  accept separator

/-- Names with a separator between them. -/
def names (separator : Symbol) : Parser Unit := repeatWhile (nextName separator)

/-- A new name behind `as`, if there is one. -/
def asName : Parser Unit := do
  if ← acceptKeyword .as_ then
    let _ ← name

/-- Reads one more dotted name.  The modules go on behind a comma. -/
def nextImport : Parser Bool := do
  names .dot
  asName
  accept .comma

/-- What follows `import`: dotted names between commas. -/
def imports : Parser Unit := repeatWhile nextImport

/-- Reads one more imported name, unless the parentheses close.  The
    names go on behind a comma. -/
def nextImportedName (parenthesized : Bool) : Parser Bool := do
  let closed ← atSymbol (.closing .round)
  if parenthesized && closed then pure false
  else
    let _ ← name
    asName
    accept .comma

/-- The names that `from … import` brings in.  Between parentheses, a
    comma may stand at the end. -/
def importedNames (parenthesized : Bool) : Parser Unit :=
  repeatWhile (nextImportedName parenthesized)

/-- Whether a lexeme is made of the dots of a relative import. -/
def isDots (lexeme : Lexeme) : Bool :=
  lexeme == .symbol .dot || lexeme == .symbol .ellipsis

/-- What follows `from`: a module, which may be relative, and names. -/
def importsFrom : Parser Unit := do
  let relative := isDots (← peek)
  repeatWhile (acceptIf isDots)
  if ← atKeyword .import_ then
    unless relative do fail .invalidSyntax
  else names .dot
  expectKeyword .import_ .invalidSyntax
  unless ← accept .star do
    let parenthesized ← accept (.opening .round)
    importedNames parenthesized
    if parenthesized then expect (.closing .round)

/-! ## Section 2: Assignments -/

/-- The value of an assignment. -/
def assigned : Parser Expr := do
  if ← atKeyword .yield_ then yieldExpression grammar else starExpressions grammar

/-- Why an expression cannot be assigned to, if it cannot. -/
def unassignable? : Form → Option Unassignable
  | .name _ | .attribute | .subscript | .starred | .tuple | .list => none
  | .constant => some .literal
  | .call => some .functionCall
  | .dict | .set | .other => some .expression

/-- Names, attributes and subscripts can be targets by themselves. -/
def isSingleTarget : Form → Bool
  | .name _ | .attribute | .subscript => true
  | _ => false

/-- Fails at the first expression that cannot be assigned to. -/
def checkTargets : List Expr → Parser Unit
  | [] => pure ()
  | target :: targets =>
    match unassignable? target.form with
    | some reason => failAt target.position (.cannotAssign reason)
    | none => checkTargets targets

/-- Reads one more expression behind an equals sign, if there is one.
    It becomes the value, and the value before is the last target. -/
def nextValue (read : List Expr × Expr) :
    Parser (Next (List Expr × Expr) (List Expr × Expr)) := do
  if ← accept .equal then
    let next ← assigned
    pure (.again (read.1 ++ [read.2], next))
  else pure (.done read)

/-- Expressions behind equals signs.  All but the last are targets. -/
def assignment (line : Nat) (first : Expr) : Parser Stmt := do
  let (targets, value) ← loop nextValue ([], first)
  checkTargets targets
  pure (.assign line targets value)

/-- An assignment of any kind, or an expression by itself. -/
def expressionStatement : Parser Stmt := do
  let line ← line
  let first ← assigned
  match ← peek with
  | .symbol .equal => assignment line first
  | .symbol .colon =>
    if isSingleTarget first.form then
      advance
      let _ ← grammar.expression
      if ← accept .equal then
        let _ ← assigned
      pure (.simple line .annotatedAssignment)
    else failAt first.position .annotatedTarget
  | .symbol symbol =>
    if symbol.isAugmentedAssignment then
      if isSingleTarget first.form then
        advance
        let _ ← assigned
        pure (.simple line .augmentedAssignment)
      else failAt first.position .augmentedTarget
    else pure (.simple line .expression)
  | _ => pure (.simple line .expression)

/-! ## Section 3: Other statements -/

/-- Whether a soft keyword in front opens a type alias. -/
def atTypeAlias : Parser Bool := do
  match ← remaining with
  | ⟨.name word, _⟩ :: ⟨.name _, _⟩ :: ⟨.symbol symbol, _⟩ :: _ =>
    pure (word == SoftKeyword.type_ && (symbol == .equal || symbol == .opening .square))
  | _ => pure false

/-- A type alias, from the soft keyword on. -/
def typeAlias : Parser Unit := do
  advance
  let _ ← name
  typeParameters
  expect .equal
  let _ ← grammar.expression

/-- An expression behind a keyword, where one may be left out. -/
def optionalExpressions : Parser Unit := do
  if (← peek).startsExpression then
    let _ ← starExpressions grammar

/-- What follows the keyword that a simple statement starts with, if
    one does. -/
def afterKeyword? : Keyword → Option (Parser SimpleKind)
  | .pass_ => some (pure .pass)
  | .break_ => some (pure .breakLoop)
  | .continue_ => some (pure .continueLoop)
  | .return_ => some do
    optionalExpressions
    pure .returnValue
  | .raise_ => some do
    if (← peek).startsExpression then
      let _ ← grammar.expression
      if ← acceptKeyword .from_ then
        let _ ← grammar.expression
    pure .raise
  | .global_ => some do
    names .comma
    pure .globalNames
  | .nonlocal_ => some do
    names .comma
    pure .nonlocalNames
  | .del_ => some do
    let _ ← starExpressions grammar
    pure .delete
  | .assert_ => some do
    let _ ← grammar.expression
    if ← accept .comma then
      let _ ← grammar.expression
    pure .assertion
  | .import_ => some do
    imports
    pure .importModules
  | .from_ => some do
    importsFrom
    pure .importFrom
  | _ => none

/-- The keyword statement that starts with a lexeme, if there is one. -/
def keywordStatement? : Lexeme → Option (Parser SimpleKind)
  | .keyword word => afterKeyword? word
  | _ => none

/-- One simple statement. -/
def smallStatement : Parser Stmt := do
  let line ← line
  if ← atTypeAlias then
    typeAlias
    pure (.simple line .typeAlias)
  else
    match keywordStatement? (← peek) with
    | some rest =>
      advance
      let kind ← rest
      pure (.simple line kind)
    | none => expressionStatement

/-- Reads one more simple statement, and a semicolon if there is one.
    What has been read before is in `read`, the last of it first. -/
def nextSmall (read : List Stmt) : Parser (Next (List Stmt) (List Stmt)) := do
  let stmt ← smallStatement
  let read := stmt :: read
  if ← accept .semicolon then
    if (← peek) == .newline then pure (.done read) else pure (.again read)
  else pure (.done read)

/-- Simple statements between semicolons, up to the end of the line.  A
    semicolon may stand at the end. -/
def simpleStatements : Parser (List Stmt) := do
  let read ← loop nextSmall []
  expectNewline .invalidSyntax
  pure read.reverse

end Grammar

end StyleCheck
