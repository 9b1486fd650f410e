import StyleCheck.Text

/-! # The Rule Catalog

    Twelve rules, in catalog order: nine look at single lines, three at
    the syntax tree.
-/

namespace StyleCheck

/-- What a source can be reported for. -/
inductive Rule where
  | lineLength
  | indentation
  | trailingSemicolon
  | commentSpacing
  | todoComment
  | blankLines
  | constructionSpacing
  | className
  | functionName
  | argumentName
  | variableName
  | mutableDefault
  deriving DecidableEq, Repr

namespace Rule

/-- The catalog, in its order. -/
def all : List Rule :=
  [lineLength, indentation, trailingSemicolon, commentSpacing, todoComment, blankLines,
   constructionSpacing, className, functionName, argumentName, variableName, mutableDefault]

/-- The code under which a rule is reported. -/
def id : Rule → Text
  | lineLength => ascii "S001"
  | indentation => ascii "S002"
  | trailingSemicolon => ascii "S003"
  | commentSpacing => ascii "S004"
  | todoComment => ascii "S005"
  | blankLines => ascii "S006"
  | constructionSpacing => ascii "S007"
  | className => ascii "S008"
  | functionName => ascii "S009"
  | argumentName => ascii "S010"
  | variableName => ascii "S011"
  | mutableDefault => ascii "S012"

/-- The sentence printed with the code. -/
def description : Rule → Text
  | lineLength => ascii "Too long"
  | indentation => ascii "Indentation is not a multiple of four"
  | trailingSemicolon => ascii "Unnecessary semicolon after a statement"
  | commentSpacing => ascii "Less than two spaces before inline comments"
  | todoComment => ascii "TODO found"
  | blankLines => ascii "More than two blank lines preceding a code line"
  | constructionSpacing => ascii "Too many spaces after construction_name (def or class)"
  | className => ascii "Class name class_name should be written in CamelCase"
  | functionName => ascii "Function name function_name should be written in snake_case"
  | argumentName => ascii "Argument name arg_name should be written in snake_case"
  | variableName => ascii "Variable var_name should be written in snake_case"
  | mutableDefault => ascii "The default argument value is mutable"

end Rule

/-- A rule broken at a line, counted from one. -/
structure Finding where
  line : Nat
  rule : Rule
  deriving DecidableEq, Repr

end StyleCheck
