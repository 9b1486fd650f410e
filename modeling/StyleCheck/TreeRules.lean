import StyleCheck.Rule
import StyleCheck.Syntax.Module

/-! # Rules on the Syntax Tree

    Statements are visited breadth-first: a queue starts with those of
    the module, and each statement taken from its front puts the ones
    below it at its end.  Names bound by assignment are looked at only
    where the nearest enclosing definition is a function.
-/

namespace StyleCheck

/-! ## Section 1: Single statements -/

/-- A default value that a call may share with the next one. -/
def Expr.isMutable (e : Expr) : Bool := e.form != .constant

namespace Parameters

/-- Whether a default is reported: any of them, or only the first. -/
def hasMutableDefault (allDefaults : Bool) (ps : Parameters) : Bool :=
  if allDefaults then ps.defaults.any Expr.isMutable
  else ps.defaults.head?.any Expr.isMutable

/-- What the parameters of a function at `line` are reported for. -/
def findings (allDefaults : Bool) (line : Nat) (ps : Parameters) : List Finding :=
  (ps.regular.filter Text.hasUpper).map (fun _ => ⟨line, .argumentName⟩)
    ++ if ps.hasMutableDefault allDefaults then [⟨line, .mutableDefault⟩] else []

end Parameters

namespace Stmt

/-- Whether a target is a bare name with an upper-case letter. -/
def isMisnamed (target : Expr) : Bool :=
  match target.form with
  | .name identifier => Text.hasUpper identifier
  | _ => false

/-- What a statement by itself is reported for.  Coroutines are not
    looked at. -/
def ownFindings (allDefaults inFunction : Bool) : Stmt → List Finding
  | functionDef line isAsync _ params _ =>
    if isAsync then [] else params.findings allDefaults line
  | assign line targets _ =>
    if inFunction then (targets.filter isMisnamed).map fun _ => ⟨line, .variableName⟩ else []
  | classDef .. | simple .. | block .. => []

/-- Whether the statements below a statement are in function scope. -/
def opensFunctionScope (inFunction : Bool) : Stmt → Bool
  | functionDef .. => true
  | classDef .. => false
  | assign .. | simple .. | block .. => inFunction

end Stmt

/-! ## Section 2: The walk -/

/-- A statement that is still to be visited. -/
structure Pending where
  stmt : Stmt
  /-- The nearest enclosing definition is a function. -/
  inFunction : Bool

namespace Pending

/-- What the statement by itself is reported for. -/
def findings (allDefaults : Bool) (p : Pending) : List Finding :=
  p.stmt.ownFindings allDefaults p.inFunction

/-- The statements directly below, with the scope they are in. -/
def below (p : Pending) : List Pending :=
  p.stmt.children.map (⟨·, p.stmt.opensFunctionScope p.inFunction⟩)

end Pending

/-- Visits the statements of a queue and all below them, at most `fuel`
    in number. -/
def walkQueue (allDefaults : Bool) : (fuel : Nat) → Std.Queue Pending → List Finding
  | 0, _ => []
  | fuel + 1, queue =>
    match queue.dequeue? with
    | none => []
    | some (p, queue) =>
      p.findings allDefaults
        ++ walkQueue allDefaults fuel (queue.enqueueAll p.below.reverse)

namespace Module

/-- The queue that a walk starts with: the statements of the module
    itself, first to be visited first, outside of any function. -/
def queue (m : Module) : Std.Queue Pending where
  dList := m.map (⟨·, false⟩)

/-- The findings of the tree rules on a module. -/
def findings (allDefaults : Bool) (m : Module) : List Finding :=
  walkQueue allDefaults (Stmt.sizeAll m) m.queue

end Module

/-- The findings of the tree rules on a source, unless it is rejected. -/
def treeFindings (allDefaults : Bool) (source : Text) : Except SyntaxError (List Finding) := do
  return (← Module.ofSource source).findings allDefaults

end StyleCheck
