import StyleCheck.Syntax.Keyword
import StyleCheck.Syntax.Position
import StyleCheck.Syntax.Symbol

/-! # Tokens

    A lexeme is what the grammar looks at; a token is a lexeme with the
    position where it starts.
-/

namespace StyleCheck

/-- What stands at one place of a token stream. -/
inductive Lexeme where
  /-- A reserved word. -/
  | keyword (word : Keyword)
  /-- An identifier.  The soft keywords are among them. -/
  | name (text : Text)
  | number (text : Text)
  /-- A string literal with its prefix and quotes. -/
  | string (text : Text) (formatted bytes : Bool)
  | symbol (sign : Symbol)
  /-- A spelling that is no symbol of the language.  No source has one,
      and no rule of the grammar starts with one. -/
  | stray (text : Text)
  /-- The end of a logical line. -/
  | newline
  /-- The start of a more deeply indented block. -/
  | indent
  /-- The end of an indented block. -/
  | dedent
  /-- The end of the stream. -/
  | endMarker
  deriving DecidableEq, Repr

/-- A lexeme and where it starts. -/
structure Token where
  lexeme : Lexeme
  position : Position
  deriving DecidableEq, Repr

namespace Lexeme

/-- A word is a keyword or an identifier. -/
def ofWord (word : Text) : Lexeme :=
  match Keyword.ofText? word with
  | some reserved => .keyword reserved
  | none => .name word

/-- The lexeme of an operator as it is spelled. -/
def ofOperator (spelling : Text) : Lexeme :=
  match Symbol.ofText? spelling with
  | some sign => .symbol sign
  | none => .stray spelling

/-- The spelling of a lexeme.  The layout lexemes have none. -/
def text : Lexeme → Text
  | keyword word => word.text
  | name spelling | number spelling | string spelling _ _ | stray spelling => spelling
  | symbol sign => sign.text
  | newline | indent | dedent | endMarker => []

theorem text_ofWord (word : Text) : (ofWord word).text = word := by
  unfold ofWord
  split
  case h_1 h => exact Keyword.text_of_ofText? h
  case h_2 => rfl

theorem text_ofOperator (spelling : Text) : (ofOperator spelling).text = spelling := by
  unfold ofOperator
  split
  case h_1 h => exact Symbol.text_of_ofText? h
  case h_2 => rfl

/-- Whether a lexeme is spelled like a name, reserved or not. -/
def isWord : Lexeme → Bool
  | keyword _ | name _ => true
  | _ => false

/-- Whether an expression may start with a lexeme. -/
def startsExpression : Lexeme → Bool
  | keyword word => word.startsExpression
  | symbol sign => sign.startsExpression
  | name _ | number _ | string _ _ _ => true
  | _ => false

/-- The change of bracket depth at a lexeme. -/
def depthChange : Lexeme → Int
  | symbol (.opening _) => 1
  | symbol (.closing _) => -1
  | _ => 0

end Lexeme

end StyleCheck
