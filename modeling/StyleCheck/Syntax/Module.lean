import StyleCheck.Syntax.Grammar.Statement
import StyleCheck.Syntax.Scan

/-! # Modules

    The tree of a whole source: its tokens, and then statements up to
    the end marker.
-/

namespace StyleCheck

namespace Module

/-- The tokens with an end marker behind them, unless there is one.  It
    stands on the line of the last token. -/
def withEndMarker (tokens : List Token) : List Token :=
  match tokens.getLast? with
  | none => [⟨.endMarker, ⟨1, 0⟩⟩]
  | some last =>
    if last.lexeme = .endMarker then tokens
    else tokens ++ [⟨.endMarker, ⟨last.position.line, 0⟩⟩]

/-- Reads statements up to the first end marker. -/
def parser : Parser Module :=
  Grammar.statementsUntil (· == .endMarker) statementGrammar.statement

/-- The tree of a token stream, or the first error that has been raised.
    A parse without a tree raises one, so the error made up here is never
    seen. -/
def ofTokens (tokens : List Token) : Except SyntaxError Module :=
  match parser (withEndMarker tokens) with
  | ⟨.yes m, _, _⟩ => .ok m
  | ⟨_, rest, raised⟩ => .error (raised.headD ⟨(Parser.front rest).position, .invalidSyntax⟩)

/-- The tree of a source. -/
def ofSource (source : Text) : Except SyntaxError Module := do
  ofTokens (← tokenize source)

end Module

end StyleCheck
