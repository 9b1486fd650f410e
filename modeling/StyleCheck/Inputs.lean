import StyleCheck.Files
import StyleCheck.Text.Lines
import StyleCheck.Text.Utf8

/-! # Inputs

    Which files a path stands for, and the text of a file.  Both look at
    the file system only through a function that finds the node a path
    leads to.
-/

namespace StyleCheck

/-! ## Section 1: Collecting -/

/-- Why a path stands for no files. -/
inductive InputError where
  | missing (path : Text)
  | notFileOrDirectory (path : Text)
  deriving DecidableEq, Repr

namespace InputError

/-- The wording of an error. -/
def message : InputError → Text
  | missing path => path ++ ascii ": No such file or directory"
  | notFileOrDirectory path => path ++ ascii ": not a regular file or directory"

end InputError

/-- The paths of the regular files among the entries of a directory
    whose names end with the extension, in ascending order. -/
def filesIn (directory extension : Text) (entries : List (Text × Node)) : List Text :=
  let chosen := entries.filter fun (name, node) =>
    node.isFile && extension.isSuffixOf name
  (chosen.map fun (name, _) => Path.display (Path.child directory name)).mergeSort (· ≤ ·)

/-- The files that a path stands for.  A regular file stands for
    itself, a directory for those of its files with the extension. -/
def collectInputs (find? : Text → Option Node) (path extension : Text) :
    Except InputError (List Text) :=
  match find? path with
  | none => .error (.missing path)
  | some (.file _) => .ok [Path.display path]
  | some (.directory entries) => .ok (filesIn path extension entries)
  | some .other => .error (.notFileOrDirectory path)

/-- Adds the files that a path stands for to the inputs there are.  None
    are added if the path stands for none. -/
def addInputs (find? : Text → Option Node) (path extension : Text) (inputs : List Text) :
    Except InputError Unit × List Text :=
  match collectInputs find? path extension with
  | .error error => (.error error, inputs)
  | .ok files => (.ok (), inputs ++ files)

/-! ## Section 2: Reading -/

/-- Why a file has no text. -/
inductive ReadError where
  | unreadable (path : Text)
  | notUtf8 (path : Text) (offset : Nat)
  deriving DecidableEq, Repr

namespace ReadError

/-- The wording of an error. -/
def message : ReadError → Text
  | unreadable path => ascii "Failed to read " ++ path
  | notUtf8 path offset => path ++ ascii ": invalid UTF-8 at byte offset " ++ decimal offset

end ReadError

/-- The bytes that reading a node gives.  Only regular files have any. -/
def Node.content : Node → Text
  | .file content => content
  | .directory _ | .other => []

/-- Reads a file into a slot that may hold a text.  The file must be
    well-formed UTF-8, and its text, with every line terminator as a line
    feed, is stored behind all checks. -/
def readInto (find? : Text → Option Node) (path : Text) : ExceptT ReadError (StateM Text) Unit :=
  match find? path with
  | none => throw (.unreadable path)
  | some node => do
    if let some offset := node.content.firstIllFormed? then
      throw (.notUtf8 path offset)
    set node.content.normalizeNewlines

/-- The text of a file: what an empty slot holds once it has been read. -/
def readSource (find? : Text → Option Node) (path : Text) : Except ReadError Text :=
  match (readInto find? path).run.run [] with
  | (.ok (), text) => .ok text
  | (.error error, _) => .error error

end StyleCheck
