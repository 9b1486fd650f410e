import StyleCheck.Syntax.Position
import StyleCheck.Syntax.Symbol

/-! # Syntax Errors

    A fault is the reason why a source is rejected.  `message` gives its
    wording; nothing else depends on it.
-/

namespace StyleCheck

/-- Why an expression is no assignment target. -/
inductive Unassignable where
  | literal
  | functionCall
  | expression
  deriving DecidableEq, Repr

/-- Why a source is rejected. -/
inductive Fault where
  /-- The line is indented less than its block and matches no outer one. -/
  | inconsistentDedent
  | unterminatedString (triple : Bool)
  | unmatchedCloser (closer : Bracket)
  | mismatchedCloser (closer : Bracket) (opener : Bracket)
  | unclosedBracket (opener : Bracket)
  | invalidCharacter (byte : UInt8)
  /-- A backslash is the last byte of the source. -/
  | endAfterBackslash
  /-- A backslash is followed by something other than a line feed. -/
  | strayBackslash
  | unexpectedIndent
  | missingBlock
  | missing (symbol : Symbol)
  /-- A `try` block has neither a handler nor a final block. -/
  | missingHandler
  /-- A `match` block has no case. -/
  | missingCase
  /-- A conditional expression has no alternative. -/
  | missingElse
  | repeatedStar
  | parameterAfterKeywords
  | missingDefault
  | cannotAssign (target : Unassignable)
  | augmentedTarget
  | annotatedTarget
  /-- Bytes and text literals stand side by side. -/
  | mixedLiterals
  | invalidSyntax
  deriving DecidableEq, Repr

/-- A fault and the place it is reported at. -/
structure SyntaxError where
  position : Position
  fault : Fault
  deriving DecidableEq, Repr

namespace Fault

/-- A spelling between apostrophes. -/
def quoted (spelling : Text) : Text := [Byte.apostrophe] ++ spelling ++ [Byte.apostrophe]

/-- The wording of a fault. -/
def message : Fault → Text
  | inconsistentDedent => ascii "unindent does not match any outer indentation level"
  | unterminatedString true => ascii "unterminated triple-quoted string literal"
  | unterminatedString false => ascii "unterminated string literal"
  | unmatchedCloser closer => ascii "unmatched " ++ quoted [closer.closer]
  | mismatchedCloser closer opener =>
    ascii "closing parenthesis " ++ quoted [closer.closer]
      ++ ascii " does not match opening parenthesis " ++ quoted [opener.opener]
  | unclosedBracket opener => quoted [opener.opener] ++ ascii " was never closed"
  | invalidCharacter byte => ascii "invalid character " ++ quoted [byte]
  | endAfterBackslash => ascii "unexpected EOF while parsing"
  | strayBackslash => ascii "unexpected character after line continuation character"
  | unexpectedIndent => ascii "unexpected indent"
  | missingBlock => ascii "expected an indented block"
  | missing symbol => ascii "expected " ++ quoted symbol.text
  | missingHandler => ascii "expected 'except' or 'finally' block"
  | missingCase => ascii "expected 'case' block"
  | missingElse => ascii "expected 'else' after 'if' expression"
  | repeatedStar => ascii "* argument may appear only once"
  | parameterAfterKeywords => ascii "arguments cannot follow var-keyword argument"
  | missingDefault => ascii "parameter without a default follows parameter with a default"
  | cannotAssign .literal => ascii "cannot assign to literal"
  | cannotAssign .functionCall => ascii "cannot assign to function call"
  | cannotAssign .expression => ascii "cannot assign to expression"
  | augmentedTarget => ascii "illegal expression for augmented assignment"
  | annotatedTarget => ascii "only single target (not tuple) can be annotated"
  | mixedLiterals => ascii "cannot mix bytes and nonbytes literals"
  | invalidSyntax => ascii "invalid syntax"

end Fault

end StyleCheck
