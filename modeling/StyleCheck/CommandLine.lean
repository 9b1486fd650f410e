import StyleCheck.Check

/-! # The Command Line

    One path to check, and options before or behind it.  An option has
    one or two dashes; its value follows an equals sign or is the next
    argument.
-/

namespace StyleCheck

/-- What the command line asks for. -/
structure Command where
  /-- The file or directory to check. -/
  path : Option Text := none
  options : Options := {}
  deriving DecidableEq, Repr

/-- Why a command line is refused. -/
inductive UsageError where
  | missingPath
  | extraArgument (argument : Text)
  | unknownOption (argument : Text)
  | missingValue (argument : Text)
  | badNumber (argument : Text)
  | badSwitch (argument : Text)
  deriving DecidableEq, Repr

namespace UsageError

/-- The wording of a refusal. -/
def message : UsageError → Text
  | missingPath => ascii "Not enough positional command line arguments specified"
  | extraArgument argument => ascii "Too many positional arguments specified: " ++ argument
  | unknownOption argument => ascii "Unknown command line argument: " ++ argument
  | missingValue argument => argument ++ ascii ": requires a value"
  | badNumber argument => argument ++ ascii ": invalid value for a number"
  | badSwitch argument => argument ++ ascii ": invalid value for a switch"

end UsageError

namespace Command

/-- The number that a text of digits stands for. -/
def number? (t : Text) : Option Nat :=
  if t = [] || t.any (!Byte.isDigit ·) then none
  else some (t.foldl (fun n b => 10 * n + (b.toNat - Byte.zero.toNat)) 0)

/-- The value of a switch: `true` unless it says otherwise. -/
def switch? : Option Text → Option Bool
  | none => some true
  | some value =>
    if value = ascii "true" || value = ascii "1" then some true
    else if value = ascii "false" || value = ascii "0" then some false
    else none

/-- The name of an option and the value behind an equals sign, if the
    argument is an option.  A single dash is none. -/
def splitOption (argument : Text) : Option (Text × Option Text) :=
  match argument.dropWhile (· == Byte.minus) with
  | [] => none
  | name =>
    if argument.head? != some Byte.minus then none
    else
      let equals : UInt8 := 0x3D
      match name.dropWhile (· != equals) with
      | [] => some (name, none)
      | _ :: value => some (name.takeWhile (· != equals), some value)

/-- Sets a switch, if there is one with the name. -/
def setSwitch? (name : Text) (on : Bool) (options : Options) : Option Options :=
  if name = ascii "check-all-defaults" then some { options with checkAllDefaults := on }
  else if name = ascii "keep-going" then some { options with keepGoing := on }
  else if name = ascii "verbose" then some { options with verbose := on }
  else none

/-- Whether an option needs a value. -/
def needsValue (name : Text) : Bool :=
  name == ascii "max-line-length" || name == ascii "ext"

/-- Sets an option that needs a value. -/
def setValue (argument name value : Text) (options : Options) : Except UsageError Options :=
  if name = ascii "ext" then .ok { options with extension := value }
  else
    match number? value with
    | some limit => .ok { options with maxLineLength := limit }
    | none => .error (.badNumber argument)

/-- Reads arguments into a command. -/
def read (command : Command) : List Text → Except UsageError Command
  | [] => .ok command
  | argument :: rest =>
    match splitOption argument with
    | none =>
      if command.path.isSome then .error (.extraArgument argument)
      else read { command with path := some argument } rest
    | some (name, value?) =>
      if needsValue name then
        match value?, rest with
        | some value, rest => do
          read { command with options := ← setValue argument name value command.options } rest
        | none, value :: rest => do
          read { command with options := ← setValue argument name value command.options } rest
        | none, [] => .error (.missingValue argument)
      else
        match switch? value? with
        | none => .error (.badSwitch argument)
        | some on =>
          match setSwitch? name on command.options with
          | none => .error (.unknownOption argument)
          | some options => read { command with options } rest

/-- The path and the options of a command line. -/
def parse (arguments : List Text) : Except UsageError (Text × Options) := do
  let command ← read {} arguments
  match command.path with
  | some path => .ok (path, command.options)
  | none => .error .missingPath

end Command

end StyleCheck
