import StyleCheck.CommandLine

/-! # The Program

    Looks at the file system, checks, and prints.  Nothing is decided
    here: each step hands what it has seen to a definition of the
    library.
-/

namespace StyleCheck

/-- The bytes of a string. -/
def textOfString (s : String) : Text := s.toUTF8.toList

/-- The string that a text is the encoding of, or an empty one. -/
def stringOfText (t : Text) : String := (String.fromUTF8? ⟨t.toArray⟩).getD ""

/-- What a path leads to.  Regular files are left unread. -/
def observe (path : Text) : IO (Option Node) := do
  try
    let place ← IO.FS.realPath (stringOfText path)
    match (← place.metadata).type with
    | .file => return some (.file [])
    | .dir =>
      let entries ← (← place.readDir).toList.mapM fun entry => do
        let regular ← try pure ((← entry.path.metadata).type == .file) catch _ => pure false
        return (textOfString entry.fileName, if regular then .file [] else .other)
      return some (.directory entries)
    | _ => return some .other
  catch _ => return none

/-- A file with its content, if it can be read. -/
def load (path : Text) : IO (Option Node) := do
  try return some (.file (← IO.FS.readBinFile (stringOfText path)).toList)
  catch _ => return none

/-- Looks paths up in the file system, and finds later what they have
    led to. -/
def lookUpAll (look : Text → IO (Option Node)) (paths : List Text) :
    IO (Text → Option Node) := do
  let nodes ← paths.mapM fun path => return (path, ← look path)
  return fun path => (nodes.lookup path).join

/-- Writes a text to a stream. -/
def writeText (stream : IO.FS.Stream) (t : Text) : IO Unit := do
  stream.write ⟨t.toArray⟩
  stream.flush

/-- Writes an error or a note in the name of the program. -/
def writeNote (t : Text) : IO Unit := do
  writeText (← IO.getStderr) (ascii "pystyle: " ++ t ++ [Byte.newline])

/-- Checks the files that a path stands for. -/
def runCommand (path : Text) (options : Options) : IO UInt32 := do
  match addInputs (← lookUpAll observe [path]) path options.extension [] with
  | (.error error, _) =>
    writeNote error.message
    return 1
  | (.ok (), files) =>
    if options.verbose then writeNote (decimal files.length ++ ascii " file(s) to check")
    let outcome := checkPaths (← lookUpAll load files) options files .empty
    writeText (← IO.getStderr) outcome.log
    writeText (← IO.getStdout) outcome.report.print
    return if outcome.ok then 0 else 1

end StyleCheck

/-- The entry point. -/
def main (arguments : List String) : IO UInt32 := do
  match StyleCheck.Command.parse (arguments.map StyleCheck.textOfString) with
  | .error error =>
    StyleCheck.writeNote error.message
    return 1
  | .ok (path, options) => StyleCheck.runCommand path options
