import StyleCheck.Text

/-! # Files and Paths

    A file system as it is seen at one moment: directories with named
    entries, regular files, and nodes of other kinds, without links.
    A path is looked up segment by segment, each of which has to be
    entered from a directory.
-/

namespace StyleCheck

/-- What a path can lead to. -/
inductive Node where
  | file (content : Text)
  | directory (entries : List (Text × Node))
  /-- A device, a pipe, or a socket. -/
  | other

namespace Node

/-- Whether a node is a regular file. -/
def isFile : Node → Bool
  | file _ => true
  | _ => false

/-- The entries of a directory. -/
def entries? : Node → Option (List (Text × Node))
  | directory entries => some entries
  | _ => none

end Node

/-! ## Section 1: Paths -/

namespace Path

/-- Whether a path starts at the root. -/
def isAbsolute (path : Text) : Bool := path.head? == some Byte.slash

/-- What stands between the slashes of a path. -/
def segments : Text → List Text
  | [] => [[]]
  | b :: rest =>
    if b = Byte.slash then [] :: segments rest else
    match segments rest with
    | [] => [[b]]
    | segment :: others => (b :: segment) :: others

/-- Segments that lead nowhere: empty ones, and single dots. -/
def isIdle (segment : Text) : Bool := segment == [] || segment == ascii "."

/-- Segments with slashes between them. -/
def join (segments : List Text) : Text := [Byte.slash].intercalate segments

/-- The path as it is displayed, without idle segments. -/
def display (path : Text) : Text :=
  let kept := (segments path).filter (!isIdle ·)
  if isAbsolute path then Byte.slash :: join kept
  else if kept = [] then ascii "."
  else join kept

/-- The path of an entry of a directory. -/
def child (directory entry : Text) : Text := directory ++ [Byte.slash] ++ entry

end Path

/-! ## Section 2: Lookup -/

/-- A file system and the directory that relative paths start at. -/
structure FileTree where
  root : Node
  /-- The names that lead from the root to the working directory. -/
  workingDirectory : List Text

namespace FileTree

/-- A node with the directories on the way to it, innermost first. -/
abbrev Place : Type := Node × List Node

/-- Goes one segment further.  The parent of the root is the root. -/
def enter (place : Place) (segment : Text) : Option Place := do
  let entries ← place.1.entries?
  if Path.isIdle segment then some place
  else if segment = ascii ".." then
    match place.2 with
    | [] => some place
    | parent :: outer => some (parent, outer)
  else
    let node ← entries.lookup segment
    some (node, place.1 :: place.2)

/-- Where a path starts. -/
def start (t : FileTree) (path : Text) : Option Place :=
  if Path.isAbsolute path then some (t.root, [])
  else t.workingDirectory.foldlM enter (t.root, [])

/-- What a path leads to.  The empty path leads nowhere. -/
def find? (t : FileTree) (path : Text) : Option Node := do
  if path = [] then none
  else
    let place ← (Path.segments path).foldlM enter (← t.start path)
    some place.1

end FileTree

end StyleCheck
