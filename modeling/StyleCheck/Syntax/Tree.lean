import StyleCheck.Syntax.Position

/-! # Syntax Trees

    Expressions are kept only as far as the rules look at them: their
    outermost form, and the identifier of a bare name.  Statements keep
    the blocks they own, in the order of the source.
-/

namespace StyleCheck

/-! ## Section 1: Expressions -/

/-- The outermost form of an expression. -/
inductive Form where
  /-- A number, a string literal without fields, or a named constant. -/
  | constant
  | name (identifier : Text)
  | attribute
  | subscript
  | starred
  | tuple
  | list
  | dict
  | set
  | call
  /-- Operators, comprehensions, lambdas, formatted literals. -/
  | other
  deriving DecidableEq, Repr

/-- An expression and where it starts. -/
structure Expr where
  form : Form
  position : Position
  deriving DecidableEq, Repr

/-! ## Section 2: Parameters -/

/-- What separates keyword-only parameters from the others. -/
inductive Star where
  /-- There are no keyword-only parameters. -/
  | absent
  | bare
  /-- A parameter that takes the remaining positional arguments. -/
  | named (name : Text)
  deriving DecidableEq, Repr

/-- The parameters of a function. -/
structure Parameters where
  positionalOnly : List Text := []
  regular : List Text := []
  star : Star := .absent
  keywordOnly : List Text := []
  /-- A parameter that takes the remaining keyword arguments. -/
  doubleStar : Option Text := none
  /-- The defaults of positional parameters, in order. -/
  defaults : List Expr := []
  deriving DecidableEq, Repr

/-! ## Section 3: Statements -/

/-- A statement that owns no block and binds nothing with `=`. -/
inductive SimpleKind where
  | pass
  | breakLoop
  | continueLoop
  | returnValue
  | raise
  | globalNames
  | nonlocalNames
  | delete
  | assertion
  | importModules
  | importFrom
  | typeAlias
  | augmentedAssignment
  | annotatedAssignment
  | expression
  deriving DecidableEq, Repr

/-- A statement that owns blocks, or a part of one that does. -/
inductive BlockKind where
  | conditional
  | whileLoop
  | forLoop (isAsync : Bool)
  /-- With `star`, the handlers are for exception groups. -/
  | tryBlock (star : Bool)
  | handler
  | withBlock (isAsync : Bool)
  | matchBlock
  | matchCase
  deriving DecidableEq, Repr

/-- A statement and the line it starts at. -/
inductive Stmt where
  | functionDef (line : Nat) (isAsync : Bool) (name : Text) (parameters : Parameters)
      (body : List Stmt)
  | classDef (line : Nat) (name : Text) (body : List Stmt)
  /-- One or more targets, from left to right, and the value. -/
  | assign (line : Nat) (targets : List Expr) (value : Expr)
  | simple (line : Nat) (kind : SimpleKind)
  /-- The children are the statements of all blocks, in source order.
      A conditional behind `elif` is the last child of the one before. -/
  | block (line : Nat) (kind : BlockKind) (children : List Stmt)
  deriving Repr

namespace Stmt

/-- The line a statement starts at. -/
def line : Stmt → Nat
  | functionDef line .. | classDef line .. | assign line .. | simple line ..
  | block line .. => line

/-- The statements directly below a statement. -/
def children : Stmt → List Stmt
  | functionDef _ _ _ _ body => body
  | classDef _ _ body => body
  | block _ _ children => children
  | assign .. | simple .. => []

end Stmt

mutual

/-- The number of statements in a tree. -/
def Stmt.size : Stmt → Nat
  | .functionDef _ _ _ _ body => Stmt.sizeAll body + 1
  | .classDef _ _ body => Stmt.sizeAll body + 1
  | .block _ _ children => Stmt.sizeAll children + 1
  | .assign .. => 1
  | .simple .. => 1

/-- The number of statements in a list of trees. -/
def Stmt.sizeAll : List Stmt → Nat
  | [] => 0
  | stmt :: stmts => stmt.size + Stmt.sizeAll stmts

end

mutual

/-- Whether two trees are the same. -/
def Stmt.isSame : Stmt → Stmt → Bool
  | .functionDef line isAsync name parameters body,
    .functionDef line' isAsync' name' parameters' body' =>
    line = line' && isAsync = isAsync' && name = name' && parameters = parameters' &&
      Stmt.areSame body body'
  | .classDef line name body, .classDef line' name' body' =>
    line = line' && name = name' && Stmt.areSame body body'
  | .assign line targets value, .assign line' targets' value' =>
    line = line' && targets = targets' && value = value'
  | .simple line kind, .simple line' kind' => line = line' && kind = kind'
  | .block line kind children, .block line' kind' children' =>
    line = line' && kind = kind' && Stmt.areSame children children'
  | _, _ => false

/-- Whether two lists of trees are. -/
def Stmt.areSame : List Stmt → List Stmt → Bool
  | [], [] => true
  | stmt :: stmts, stmt' :: stmts' => stmt.isSame stmt' && Stmt.areSame stmts stmts'
  | _, _ => false

end

mutual

theorem Stmt.isSame_iff : ∀ stmt stmt' : Stmt, stmt.isSame stmt' = true ↔ stmt = stmt'
  | .functionDef .., stmt' => by
    cases stmt' <;> simp [Stmt.isSame, Stmt.areSame_iff, and_assoc]
  | .classDef .., stmt' => by cases stmt' <;> simp [Stmt.isSame, Stmt.areSame_iff, and_assoc]
  | .assign .., stmt' => by cases stmt' <;> simp [Stmt.isSame, and_assoc]
  | .simple .., stmt' => by cases stmt' <;> simp [Stmt.isSame]
  | .block .., stmt' => by cases stmt' <;> simp [Stmt.isSame, Stmt.areSame_iff, and_assoc]

theorem Stmt.areSame_iff : ∀ stmts stmts' : List Stmt,
    Stmt.areSame stmts stmts' = true ↔ stmts = stmts'
  | [], stmts' => by cases stmts' <;> simp [Stmt.areSame]
  | stmt :: stmts, stmts' => by
    cases stmts' <;> simp [Stmt.areSame, Stmt.isSame_iff stmt, Stmt.areSame_iff stmts]

end

instance : DecidableEq Stmt := fun stmt stmt' => decidable_of_iff _ (stmt.isSame_iff stmt')

/-- The statements of a source. -/
abbrev Module : Type := List Stmt

end StyleCheck
