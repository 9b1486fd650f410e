import StyleCheck.Text

/-! # Operators and Delimiters

    The 47 symbols of the language.  `all` lists longer spellings first,
    so the first one that a text starts with is the longest.
-/

namespace StyleCheck

/-- A kind of bracket. -/
inductive Bracket where
  | round
  | square
  | curly
  deriving DecidableEq, Repr

/-- An operator or delimiter. -/
inductive Symbol where
  | doubleStarEqual | doubleSlashEqual | rightShiftEqual | leftShiftEqual | ellipsis
  | doubleStar | doubleSlash | rightShift | leftShift | lessEqual | greaterEqual
  | doubleEqual | notEqual | arrow | colonEqual | plusEqual | minusEqual | starEqual
  | slashEqual | percentEqual | ampersandEqual | barEqual | caretEqual | atEqual
  | plus | minus | star | slash | percent | atSign | ampersand | bar | caret | tilde
  | less | greater | opening (bracket : Bracket) | closing (bracket : Bracket)
  | comma | colon | semicolon | dot | equal
  deriving DecidableEq, Repr

namespace Bracket

/-- The byte that opens a bracket. -/
def opener : Bracket → UInt8
  | round => 0x28
  | square => 0x5B
  | curly => Byte.leftBrace

/-- The byte that closes a bracket. -/
def closer : Bracket → UInt8
  | round => 0x29
  | square => 0x5D
  | curly => Byte.rightBrace

end Bracket

namespace Symbol

/-- Every symbol, longer spellings first. -/
def all : List Symbol :=
  [doubleStarEqual, doubleSlashEqual, rightShiftEqual, leftShiftEqual, ellipsis,
   doubleStar, doubleSlash, rightShift, leftShift, lessEqual, greaterEqual, doubleEqual,
   notEqual, arrow, colonEqual, plusEqual, minusEqual, starEqual, slashEqual,
   percentEqual, ampersandEqual, barEqual, caretEqual, atEqual, plus, minus, star, slash,
   percent, atSign, ampersand, bar, caret, tilde, less, greater, opening .round,
   closing .round, opening .square, closing .square, opening .curly, closing .curly,
   comma, colon, semicolon, dot, equal]

/-- The spelling of a symbol. -/
def text : Symbol → Text
  | doubleStarEqual => ascii "**="
  | doubleSlashEqual => ascii "//="
  | rightShiftEqual => ascii ">>="
  | leftShiftEqual => ascii "<<="
  | ellipsis => ascii "..."
  | doubleStar => ascii "**"
  | doubleSlash => ascii "//"
  | rightShift => ascii ">>"
  | leftShift => ascii "<<"
  | lessEqual => ascii "<="
  | greaterEqual => ascii ">="
  | doubleEqual => ascii "=="
  | notEqual => ascii "!="
  | arrow => ascii "->"
  | colonEqual => ascii ":="
  | plusEqual => ascii "+="
  | minusEqual => ascii "-="
  | starEqual => ascii "*="
  | slashEqual => ascii "/="
  | percentEqual => ascii "%="
  | ampersandEqual => ascii "&="
  | barEqual => ascii "|="
  | caretEqual => ascii "^="
  | atEqual => ascii "@="
  | plus => ascii "+"
  | minus => ascii "-"
  | star => ascii "*"
  | slash => ascii "/"
  | percent => ascii "%"
  | atSign => ascii "@"
  | ampersand => ascii "&"
  | bar => ascii "|"
  | caret => ascii "^"
  | tilde => ascii "~"
  | less => ascii "<"
  | greater => ascii ">"
  | opening bracket => [bracket.opener]
  | closing bracket => [bracket.closer]
  | comma => ascii ","
  | colon => ascii ":"
  | semicolon => ascii ";"
  | dot => ascii "."
  | equal => ascii "="

/-- The symbol with the given spelling. -/
def ofText? (spelling : Text) : Option Symbol := all.find? (·.text == spelling)

/-- The longest symbol that the text starts with. -/
def leading? (t : Text) : Option Symbol := all.find? (·.text.isPrefixOf t)

theorem ofText?_text (s : Symbol) : ofText? s.text = some s := by
  cases s with
  | opening bracket => cases bracket <;> decide
  | closing bracket => cases bracket <;> decide
  | _ => decide

theorem text_of_ofText? {spelling : Text} {s : Symbol} (h : ofText? spelling = some s) :
    s.text = spelling := by
  simpa using List.find?_some h

/-! ## Section 1: Classes of symbols -/

/-- The assignments that combine the target with the value. -/
def isAugmentedAssignment : Symbol → Bool
  | plusEqual | minusEqual | starEqual | slashEqual | doubleSlashEqual | percentEqual
  | atEqual | ampersandEqual | barEqual | caretEqual | rightShiftEqual | leftShiftEqual
  | doubleStarEqual => true
  | _ => false

/-- The comparison operators that are symbols. -/
def isComparison : Symbol → Bool
  | less | greater | doubleEqual | greaterEqual | lessEqual | notEqual => true
  | _ => false

/-- The signs that may stand before an operand. -/
def isSign : Symbol → Bool
  | plus | minus | tilde => true
  | _ => false

/-- The symbols that an expression may start with. -/
def startsExpression : Symbol → Bool
  | opening _ | minus | plus | tilde | star | ellipsis => true
  | _ => false

/-- The binary operators by precedence, loosest first. -/
def binaryLevels : List (List Symbol) :=
  [[bar], [caret], [ampersand], [leftShift, rightShift], [plus, minus],
   [star, slash, doubleSlash, percent, atSign]]

end Symbol

end StyleCheck
