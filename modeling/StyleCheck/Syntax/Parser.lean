import StyleCheck.Syntax.Fault
import StyleCheck.Syntax.Token

/-! # Parsers over Tokens

    A parser reads tokens from the front of a stream.  It replies with a
    value, or with a failure, and in either case leaves the rest of the
    stream where it stopped, and the errors that it has raised.  The first
    failure ends the parse.

    Loops and references carry fuel.  A parser without fuel says so: that
    is not a failure, and raises no error.

    Streams end with an end marker, which no parser reads over; an empty
    stream is treated like one that holds nothing else.
-/

namespace StyleCheck

namespace Parser

/-- What a parser replies. -/
inductive Reply (α : Type) where
  /-- A value has been read. -/
  | yes (a : α)
  /-- What stands there is not what is wanted. -/
  | no
  /-- The fuel is used up. -/
  | spent
  deriving DecidableEq

/-- What has become of a token stream. -/
structure Result (α : Type) where
  reply : Reply α
  /-- The tokens that are left, after a failure those from where the parser
      stopped. -/
  rest : List Token
  /-- The errors that have been raised, in their order. -/
  raised : List SyntaxError
  deriving DecidableEq

end Parser

/-- Reads a value from the front of a token stream. -/
def Parser (α : Type) : Type := List Token → Parser.Result α

namespace Parser

namespace Result

variable {α β : Type}

/-- A value that is read without an error. -/
@[inline] def ok : α × List Token → Result α
  | (a, rest) => ⟨.yes a, rest, []⟩

/-- A failure with a single error. -/
@[inline] def failed (error : SyntaxError) (rest : List Token) : Result α := ⟨.no, rest, [error]⟩

/-- Goes on with the value that has been read, where there is one.  The
    errors that have been raised so far stay the first. -/
@[inline] def andThen (result : Result α) (f : α → Parser β) : Result β :=
  match result with
  | ⟨.yes a, rest, []⟩ => f a rest
  | ⟨.yes a, rest, raised⟩ =>
    let later := f a rest
    { later with raised := raised ++ later.raised }
  | ⟨.no, rest, raised⟩ => ⟨.no, rest, raised⟩
  | ⟨.spent, rest, raised⟩ => ⟨.spent, rest, raised⟩

end Result

variable {α β σ : Type}

/-- Reads nothing. -/
@[inline] protected def pure (a : α) : Parser α := fun ts => .ok (a, ts)

/-- Reads with one parser, and then with one that depends on the result. -/
@[inline] protected def bind (p : Parser α) (f : α → Parser β) : Parser β := fun ts =>
  (p ts).andThen f

instance : Monad Parser where
  pure := Parser.pure
  bind := Parser.bind

/-! ## Section 1: Looking -/

/-- The token at the front. -/
def front : List Token → Token
  | [] => ⟨.endMarker, ⟨0, 0⟩⟩
  | t :: _ => t

/-- The lexeme at the front. -/
def peek : Parser Lexeme := fun ts => .ok ((front ts).lexeme, ts)

/-- The lexeme behind the one at the front. -/
def peekSecond : Parser Lexeme := fun ts => .ok ((front ts.tail).lexeme, ts)

/-- The position of the front. -/
def position : Parser Position := fun ts => .ok ((front ts).position, ts)

/-- The line of the front. -/
def line : Parser Nat := fun ts => .ok ((front ts).position.line, ts)

/-- The tokens still to be read. -/
def remaining : Parser (List Token) := fun ts => .ok (ts, ts)

/-- Whether the given symbol is at the front. -/
def atSymbol (symbol : Symbol) : Parser Bool := fun ts =>
  .ok ((front ts).lexeme == .symbol symbol, ts)

/-- Whether the given keyword is at the front. -/
def atKeyword (keyword : Keyword) : Parser Bool := fun ts =>
  .ok ((front ts).lexeme == .keyword keyword, ts)

/-! ## Section 2: Failing -/

/-- Fails at a position. -/
def failAt (position : Position) (fault : Fault) : Parser α := .failed ⟨position, fault⟩

/-- Fails at the front. -/
def fail (fault : Fault) : Parser α := fun ts => .failed ⟨(front ts).position, fault⟩ ts

/-- Stops for want of fuel. -/
def spent : Parser α := fun ts => ⟨.spent, ts, []⟩

/-! ## Section 3: Reading -/

/-- Reads one token. -/
def advance : Parser Unit := fun ts => .ok ((), ts.tail)

/-- Reads a token whose lexeme is in `p`, if one is at the front. -/
def acceptIf (p : Lexeme → Bool) : Parser Bool := fun ts =>
  if p (front ts).lexeme then .ok (true, ts.tail) else .ok (false, ts)

/-- Reads a symbol if it is at the front. -/
def accept (symbol : Symbol) : Parser Bool := acceptIf (· == .symbol symbol)

/-- Reads a keyword if it is at the front. -/
def acceptKeyword (keyword : Keyword) : Parser Bool := acceptIf (· == .keyword keyword)

/-- Reads a symbol that has to be at the front. -/
def expect (symbol : Symbol) : Parser Unit := do
  if ← accept symbol then pure () else fail (.missing symbol)

/-- Reads a keyword that has to be at the front. -/
def expectKeyword (keyword : Keyword) (fault : Fault) : Parser Unit := do
  if ← acceptKeyword keyword then pure () else fail fault

/-- Reads the end of a logical line. -/
def expectNewline (fault : Fault) : Parser Unit := do
  if ← acceptIf (· == .newline) then pure () else fail fault

/-- Reads an identifier. -/
def name : Parser Text := do
  match ← peek with
  | .name text => advance; pure text
  | _ => fail .invalidSyntax

/-! ## Section 4: Repeating -/

/-- How a repeated parser goes on. -/
inductive Next (σ α : Type) where
  | again (state : σ)
  | done (result : α)

/-- Repeats a parser, at most once for every token of `fuel`. -/
def loopFor (body : σ → Parser (Next σ α)) : (fuel : List Token) → σ → Parser α
  | [], _ => spent
  | _ :: fuel, state => do
    match ← body state with
    | .again state => loopFor body fuel state
    | .done result => pure result

/-- Repeats a parser until it is done.  Each round but the last must
    read a token, so one round more than there are tokens is enough. -/
def loop (body : σ → Parser (Next σ α)) (state : σ) : Parser α := fun ts =>
  loopFor body (front ts :: ts) state ts

/-- A round of a parser that is repeated as long as it returns `true`. -/
def whileTrue (body : Parser Bool) (_ : Unit) : Parser (Next Unit Unit) := do
  if ← body then pure (.again ()) else pure (.done ())

/-- Repeats a parser as long as it returns `true`. -/
def repeatWhile (body : Parser Bool) : Parser Unit := loop (whileTrue body) ()

end Parser

end StyleCheck
