import StyleCheck.Syntax.Grammar.Atom
import StyleCheck.Syntax.Grammar.Parameter

/-! # Expressions

    Operators by precedence, from powers up to conditional expressions
    and lambdas.  Every parser reads one nonterminal, built from those
    that bind tighter.

    References through `Nonterminals` all stand behind a token that has
    been read already, so they are never followed deeper than there are
    tokens: the tokens are the fuel with which `grammar` ties the knot.
-/

namespace StyleCheck

namespace Grammar

open StyleCheck.Parser

variable (g : Nonterminals)

/-! ## Section 1: Operators -/

/-- Reads one more operator and its operand, if there is one.  What has
    been read before is the left operand. -/
def nextOperand (operator : Parser Bool) (operand : Parser Expr) (start : Position)
    (read : Expr) : Parser (Next Expr Expr) := do
  if ← operator then
    let _ ← operand
    pure (.again ⟨.other, start⟩)
  else pure (.done read)

/-- Operands between operators.  A single operand is left as it is. -/
def chain (operator : Parser Bool) (operand : Parser Expr) : Parser Expr := do
  let start ← position
  let first ← operand
  loop (nextOperand operator operand start) first

/-- A primary, perhaps awaited, and perhaps raised to a power. -/
def power : Parser Expr := do
  let start ← position
  let awaited ← acceptKeyword .await_
  let base ← primary g
  if ← accept .doubleStar then
    let _ ← g.factor
    pure ⟨.other, start⟩
  else if awaited then pure ⟨.other, start⟩
  else pure base

/-- Whether a lexeme is one of the given symbols. -/
def isOneOf (symbols : List Symbol) : Lexeme → Bool
  | .symbol symbol => symbols.contains symbol
  | _ => false

/-- Whether a lexeme is a sign. -/
def isSign : Lexeme → Bool
  | .symbol symbol => symbol.isSign
  | _ => false

/-- A power behind any number of signs. -/
def factor : Parser Expr := do
  let start ← position
  if ← acceptIf isSign then
    let _ ← g.factor
    pure ⟨.other, start⟩
  else power g

/-- Binary operators of the given levels, loosest first. -/
def binary : List (List Symbol) → Parser Expr
  | [] => factor g
  | level :: tighter => chain (acceptIf (isOneOf level)) (binary tighter)

/-- Binary operators of every level. -/
def operand : Parser Expr := binary g Symbol.binaryLevels

/-- Reads a comparison operator of one or two tokens. -/
def acceptComparison : Parser Bool := do
  match ← peek with
  | .symbol symbol =>
    if symbol.isComparison then
      advance
      pure true
    else pure false
  | .keyword .in_ =>
    advance
    pure true
  | .keyword .not_ =>
    if (← peekSecond) == .keyword .in_ then
      advance
      advance
      pure true
    else pure false
  | .keyword .is_ =>
    advance
    let _ ← acceptKeyword .not_
    pure true
  | _ => pure false

/-- Operands between comparison operators. -/
def comparison : Parser Expr := chain acceptComparison (operand g)

/-- A comparison behind any number of `not`. -/
def inversion : Parser Expr := do
  let start ← position
  if ← acceptKeyword .not_ then
    let _ ← g.inversion
    pure ⟨.other, start⟩
  else comparison g

/-- Inversions between `and`. -/
def conjunction : Parser Expr := chain (acceptKeyword .and_) (inversion g)

/-- Conjunctions between `or`. -/
def disjunction : Parser Expr := chain (acceptKeyword .or_) (conjunction g)

/-- A lambda, from its keyword on. -/
def lambda : Parser Expr := do
  let start ← position
  advance
  let _ ← parameters g .colon false
  expect .colon
  let _ ← g.expression
  pure ⟨.other, start⟩

/-- A lambda, a conditional expression, or a disjunction. -/
def expression : Parser Expr := do
  let start ← position
  if ← atKeyword .lambda_ then lambda g
  else
    let value ← disjunction g
    if ← acceptKeyword .if_ then
      let _ ← g.disjunction
      expectKeyword .else_ .missingElse
      let _ ← g.expression
      pure ⟨.other, start⟩
    else pure value

/-! ## Section 2: The knot -/

/-- The grammar in which references are followed as deep as `fuel` has
    tokens.  Below that, they are those of `bottom`. -/
def grammarOver (bottom : Nonterminals) : (fuel : List Token) → Nonterminals
  | [] => bottom
  | _ :: fuel =>
    { expression := fun ts => expression (grammarOver bottom fuel) ts
      disjunction := fun ts => disjunction (grammarOver bottom fuel) ts
      inversion := fun ts => inversion (grammarOver bottom fuel) ts
      operand := fun ts => operand (grammarOver bottom fuel) ts
      factor := fun ts => factor (grammarOver bottom fuel) ts }

/-- The grammar in which references are followed at most as deep as
    `fuel` has tokens. -/
def grammarUpTo (fuel : List Token) : Nonterminals := grammarOver .spent fuel

end Grammar

/-- The grammar of expressions.  A reference stands behind a token that
    has been read, so the tokens that are left are fuel enough. -/
def grammar : Nonterminals where
  expression := fun ts => Grammar.expression (Grammar.grammarUpTo ts) ts
  disjunction := fun ts => Grammar.disjunction (Grammar.grammarUpTo ts) ts
  inversion := fun ts => Grammar.inversion (Grammar.grammarUpTo ts) ts
  operand := fun ts => Grammar.operand (Grammar.grammarUpTo ts) ts
  factor := fun ts => Grammar.factor (Grammar.grammarUpTo ts) ts

end StyleCheck
