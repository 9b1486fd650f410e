import StyleCheck.Pattern
import StyleCheck.Rule
import StyleCheck.Text.Lines
import StyleCheck.Text.Utf8

/-! # Rules on Single Lines

    A line is checked as it stands in the source, with its line feed if
    it has one.  Only the rule on blank lines looks further back: it
    needs the length of the run of blank lines just before.
-/

namespace StyleCheck

open Byte

/-! ## Section 1: Predicates -/

namespace Line

/-- More characters than `limit`, not counting the line feed. -/
def isTooLong (limit : Nat) (line : Text) : Bool :=
  limit < line.withoutNewline.characterCount

/-- The number of leading spaces is no multiple of four. -/
def isMisindented (line : Text) : Bool :=
  (line.takeWhile (· == space)).length % 4 != 0

/-- What stands before the first `#`. -/
def code (line : Text) : Text := line.takeWhile (· != hash)

/-- The code ends with a semicolon. -/
def hasTrailingSemicolon (line : Text) : Bool :=
  ((code line).dropTrailing isSpace).getLast? == some semicolon

/-- What stands after the first `#`, if there is one. -/
def comment? (line : Text) : Option Text :=
  match line.dropWhile (· != hash) with
  | [] => none
  | _ :: rest => some rest

/-- A comment follows code with less than two spaces between them.  A
    line that starts with its comment has no code to keep away from. -/
def lacksCommentSpacing (line : Text) : Bool :=
  (comment? line).isSome && code line != [] && !(ascii "  ").isSuffixOf (code line)

/-- The comment mentions a todo, in any case. -/
def hasTodo (line : Text) : Bool :=
  match comment? line with
  | none => false
  | some comment => (ascii "todo").occursIn (Text.toLower comment)

/-- Spaces, up to two underscores, `def`, and at least two spaces. -/
def wideDef : Pattern :=
  [.atLeast 0 (· == space), .optional (· == underscore), .optional (· == underscore)]
    ++ Pattern.word (ascii "def") ++ [.atLeast 2 (· == space)]

/-- Spaces, `class`, and at least two spaces. -/
def wideClass : Pattern :=
  [.atLeast 0 (· == space)] ++ Pattern.word (ascii "class") ++ [.atLeast 2 (· == space)]

/-- Spaces, `class`, at least one space. -/
def classHead : Pattern :=
  [.atLeast 0 (· == space)] ++ Pattern.word (ascii "class") ++ [.atLeast 1 (· == space)]

/-- A class whose name starts in lower case. -/
def lowerClass : Pattern := classHead ++ [.one isLower]

/-- A class whose name has an underscore after its first character. -/
def underscoreClass : Pattern :=
  classHead ++ [.atLeast 1 (fun b => isLetter b || b == underscore), .one (· == underscore)]

/-- A function whose name has an upper-case letter. -/
def upperFunction : Pattern :=
  [.atLeast 0 (· == space)] ++ Pattern.word (ascii "def") ++ [.atLeast 1 (· == space)]
    ++ [.atLeast 0 (fun b => isLower b || isDigit b || b == underscore), .one isUpper]

/-- A definition keyword with two spaces or more after it. -/
def startsWide (line : Text) : Bool := wideDef.isMatch line || wideClass.isMatch line

/-- A definition keyword with two spaces or more after it, at the start
    of the line or behind one character other than `#`. -/
def hasWideConstruction (line : Text) : Bool :=
  startsWide line
    || (line != [] && line.head? != some hash && startsWide line.dropCharacter)

/-- A class name that is not in camel case. -/
def hasBadClassName (line : Text) : Bool :=
  lowerClass.isMatch line || underscoreClass.isMatch line

/-- A function name that is not in snake case. -/
def hasBadFunctionName (line : Text) : Bool := upperFunction.isMatch line

end Line

/-! ## Section 2: Blank lines -/

/-- The number of blank lines just before the line to be read. -/
structure BlankRun where
  count : Nat
  deriving DecidableEq, Repr

namespace BlankRun

/-- Before the first line of a source. -/
def empty : BlankRun := ⟨0⟩

/-- Reads one line.  A blank line lengthens the run; any other ends it,
    and is reported when the run was longer than two. -/
def feed (run : BlankRun) (line : Text) : Bool × BlankRun :=
  if line.withoutNewline = [] then (false, ⟨run.count + 1⟩)
  else (2 < run.count, empty)

end BlankRun

/-! ## Section 3: The line pass -/

namespace Line

/-- The rules that a line breaks, in catalog order, when it follows
    the given run of blank lines. -/
def brokenRules (limit : Nat) (line : Text) (run : BlankRun) : List Rule :=
  [(isTooLong limit line, Rule.lineLength),
   (isMisindented line, Rule.indentation),
   (hasTrailingSemicolon line, Rule.trailingSemicolon),
   (lacksCommentSpacing line, Rule.commentSpacing),
   (hasTodo line, Rule.todoComment),
   ((run.feed line).1, Rule.blankLines),
   (hasWideConstruction line, Rule.constructionSpacing),
   (hasBadClassName line, Rule.className),
   (hasBadFunctionName line, Rule.functionName)].filterMap
    fun (broken, rule) => if broken then some rule else none

/-- Checks one line, and reads it into the run of blank lines. -/
def check (limit : Nat) (line : Text) (number : Nat) (run : BlankRun) :
    List Finding × BlankRun :=
  ((brokenRules limit line run).map (⟨number, ·⟩), (run.feed line).2)

/-- Checks lines that follow each other, the first one numbered
    `number`. -/
def checkAll (limit : Nat) : List Text → (number : Nat) → BlankRun → List Finding
  | [], _, _ => []
  | line :: lines, number, run =>
    let (findings, run) := check limit line number run
    findings ++ checkAll limit lines (number + 1) run

end Line

/-- The findings of the line rules on a whole source. -/
def lineFindings (limit : Nat) (source : Text) : List Finding :=
  Line.checkAll limit source.splitLines 1 .empty

end StyleCheck
