import StyleCheck.Syntax.Grammar.Clause

/-! # Parameter Lists

    Parameters are read one at a time into the groups they belong to.  A
    slash moves what has been read to the positional-only group, a star
    opens the keyword-only one, and two stars end the list.
-/

namespace StyleCheck

namespace Grammar

open StyleCheck.Parser

variable (g : Nonterminals)

/-- The annotation of a parameter, where annotations are allowed. -/
def typeHint (annotated starred : Bool) : Parser Unit := do
  if annotated then
    if ← accept .colon then
      let _ ← if starred then starExpression g else g.expression

/-- Reads one more parameter or separator.  A comma must follow if
    the list goes on. -/
def parameter (closer : Symbol) (annotated : Bool) (read : Parameters) :
    Parser (Next Parameters Parameters) := do
  let start ← position
  let positional := read.star == .absent
  let next (read : Parameters) : Parser (Next Parameters Parameters) := do
    if ← accept .comma then pure (.again read) else pure (.done read)
  if ← atSymbol closer then pure (.done read)
  else if ← atSymbol .slash then
    if !positional || read.positionalOnly != [] || read.regular == [] then
      fail .invalidSyntax
    else
      advance
      next { read with positionalOnly := read.regular, regular := [] }
  else if ← atSymbol .star then
    if !positional then fail .repeatedStar
    else
      advance
      if (← peek).isWord then
        let rest ← name
        typeHint g annotated true
        next { read with star := .named rest }
      else next { read with star := .bare }
  else if ← accept .doubleStar then
    let rest ← name
    typeHint g annotated false
    let _ ← accept .comma
    if ← atSymbol closer then pure (.done { read with doubleStar := some rest })
    else fail .parameterAfterKeywords
  else
    let parameter ← name
    typeHint g annotated false
    if ← accept .equal then
      let value ← g.expression
      if positional then
        next { read with
          regular := read.regular ++ [parameter]
          defaults := read.defaults ++ [value] }
      else next { read with keywordOnly := read.keywordOnly ++ [parameter] }
    else if positional then
      if read.defaults != [] then failAt start .missingDefault
      else next { read with regular := read.regular ++ [parameter] }
    else next { read with keywordOnly := read.keywordOnly ++ [parameter] }

/-- The parameters up to the symbol that closes them. -/
def parameters (closer : Symbol) (annotated : Bool) : Parser Parameters :=
  loop (parameter g closer annotated) {}

end Grammar

end StyleCheck
