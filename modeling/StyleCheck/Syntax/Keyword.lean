import StyleCheck.Text

/-! # Keywords

    The 35 reserved words.  Three more words, the soft keywords, open a
    statement in some places and are identifiers everywhere else.
-/

namespace StyleCheck

/-- A reserved word. -/
inductive Keyword where
  | false_ | none_ | true_ | and_ | as_ | assert_ | async_ | await_ | break_ | class_
  | continue_ | def_ | del_ | elif_ | else_ | except_ | finally_ | for_ | from_ | global_
  | if_ | import_ | in_ | is_ | lambda_ | nonlocal_ | not_ | or_ | pass_ | raise_
  | return_ | try_ | while_ | with_ | yield_
  deriving DecidableEq, Repr

namespace Keyword

/-- Every reserved word, in alphabetical order. -/
def all : List Keyword :=
  [false_, none_, true_, and_, as_, assert_, async_, await_, break_, class_, continue_,
   def_, del_, elif_, else_, except_, finally_, for_, from_, global_, if_, import_, in_,
   is_, lambda_, nonlocal_, not_, or_, pass_, raise_, return_, try_, while_, with_, yield_]

/-- The spelling of a reserved word. -/
def text : Keyword → Text
  | false_ => ascii "False"
  | none_ => ascii "None"
  | true_ => ascii "True"
  | and_ => ascii "and"
  | as_ => ascii "as"
  | assert_ => ascii "assert"
  | async_ => ascii "async"
  | await_ => ascii "await"
  | break_ => ascii "break"
  | class_ => ascii "class"
  | continue_ => ascii "continue"
  | def_ => ascii "def"
  | del_ => ascii "del"
  | elif_ => ascii "elif"
  | else_ => ascii "else"
  | except_ => ascii "except"
  | finally_ => ascii "finally"
  | for_ => ascii "for"
  | from_ => ascii "from"
  | global_ => ascii "global"
  | if_ => ascii "if"
  | import_ => ascii "import"
  | in_ => ascii "in"
  | is_ => ascii "is"
  | lambda_ => ascii "lambda"
  | nonlocal_ => ascii "nonlocal"
  | not_ => ascii "not"
  | or_ => ascii "or"
  | pass_ => ascii "pass"
  | raise_ => ascii "raise"
  | return_ => ascii "return"
  | try_ => ascii "try"
  | while_ => ascii "while"
  | with_ => ascii "with"
  | yield_ => ascii "yield"

/-- The reserved word with the given spelling. -/
def ofText? (word : Text) : Option Keyword := all.find? (·.text == word)

theorem ofText?_text (k : Keyword) : ofText? k.text = some k := by
  cases k <;> decide

theorem text_of_ofText? {word : Text} {k : Keyword} (h : ofText? word = some k) :
    k.text = word := by
  simpa using List.find?_some h

/-- The reserved words that stand for a value of their own. -/
def isConstant : Keyword → Bool
  | false_ | none_ | true_ => true
  | _ => false

/-- The reserved words that an expression may start with. -/
def startsExpression : Keyword → Bool
  | false_ | none_ | true_ | lambda_ | not_ | await_ => true
  | _ => false

end Keyword

namespace SoftKeyword

/-- Opens a `match` statement. -/
def match_ : Text := ascii "match"

/-- Opens a case of a `match` statement. -/
def case_ : Text := ascii "case"

/-- Opens a type alias. -/
def type_ : Text := ascii "type"

end SoftKeyword

end StyleCheck
