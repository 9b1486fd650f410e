import StyleCheck.Text

/-! # Anchored Patterns

    A pattern is a sequence of byte classes, each with the number of
    times it may repeat.  It matches a text when some prefix of the text
    can be divided among the items; every division is tried.
-/

namespace StyleCheck

/-- A run of bytes from one class. -/
structure Run where
  /-- The bytes that the run may hold. -/
  accepts : UInt8 → Bool
  /-- The least length of the run. -/
  least : Nat
  /-- The greatest length of the run, if it is bounded. -/
  most : Option Nat

/-- Runs that follow each other from the start of the text. -/
abbrev Pattern : Type := List Run

namespace Run

/-- Exactly one byte of the class. -/
def one (accepts : UInt8 → Bool) : Run := ⟨accepts, 1, some 1⟩

/-- At most one byte of the class. -/
def optional (accepts : UInt8 → Bool) : Run := ⟨accepts, 0, some 1⟩

/-- At least the given number of bytes of the class. -/
def atLeast (least : Nat) (accepts : UInt8 → Bool) : Run := ⟨accepts, least, none⟩

/-- Whether the text starts with between `least` and `most` bytes of
    the class and `followed` holds of what comes after them. -/
def matchesThen (accepts : UInt8 → Bool) (followed : Text → Bool) :
    (least : Nat) → (most : Option Nat) → Text → Bool
  | least, _, [] => least == 0 && followed []
  | least, most, b :: rest =>
    (least == 0 && followed (b :: rest))
      || (accepts b && most != some 0
        && matchesThen accepts followed (least - 1) (most.map (· - 1)) rest)

end Run

namespace Pattern

/-- One run for each byte of a fixed word. -/
def word (w : Text) : Pattern := w.map fun c => .one (· == c)

/-- Whether some prefix of the text is an instance of the pattern. -/
def isMatch : Pattern → Text → Bool
  | [], _ => true
  | run :: runs, t => Run.matchesThen run.accepts (isMatch runs) run.least run.most t

end Pattern

end StyleCheck
