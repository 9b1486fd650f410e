import StyleCheck.Inputs
import StyleCheck.LineRules
import StyleCheck.Report
import StyleCheck.TreeRules

/-! # Checking Files

    A source gets a line pass and a tree pass.  The findings of the line
    pass are kept even if the tree pass rejects the source.
-/

namespace StyleCheck

/-- How sources are checked. -/
structure Options where
  /-- The greatest length of a line that is not reported. -/
  maxLineLength : Nat := 79
  /-- The end of the names of files that a directory stands for. -/
  extension : Text := ascii ".py"
  /-- Look at all defaults of a function, not only at the first. -/
  checkAllDefaults : Bool := false
  /-- Go on with the next file after one that fails. -/
  keepGoing : Bool := false
  /-- Log the progress. -/
  verbose : Bool := false
  deriving DecidableEq, Repr

/-- Why the check of a file fails. -/
inductive Failure where
  | read (error : ReadError)
  | rejected (path : Text) (error : SyntaxError)
  deriving DecidableEq, Repr

namespace Failure

/-- The wording of a failure. -/
def message : Failure → Text
  | read error => error.message
  | rejected path error =>
    path ++ ascii ":" ++ decimal error.position.line ++ ascii ":"
      ++ decimal error.position.column ++ ascii ": syntax error: " ++ error.fault.message

end Failure

/-! ## Section 1: One file -/

/-- Checks a source, and adds its findings to the report. -/
def checkSource (options : Options) (path source : Text) (report : Report) :
    Report × Option Failure :=
  let report := report.append path (lineFindings options.maxLineLength source)
  match treeFindings options.checkAllDefaults source with
  | .ok findings => (report.append path findings, none)
  | .error error => (report, some (.rejected path error))

/-- Reads and checks a file, and adds its findings to the report. -/
def checkFile (find? : Text → Option Node) (options : Options) (path : Text)
    (report : Report) : Report × Option Failure :=
  match readSource find? path with
  | .ok source => checkSource options path source report
  | .error error => (report, some (.read error))

/-! ## Section 2: Many files -/

/-- What a run over several files comes to. -/
structure Outcome where
  /-- No file has failed. -/
  ok : Bool
  report : Report
  /-- What is logged, apart from the report. -/
  log : Text
  deriving DecidableEq, Repr

/-- What is logged around the check of a file that adds `added`
    findings. -/
def progress (path : Text) (added : Nat) : Text :=
  ascii "pystyle: checking " ++ path ++ [Byte.newline]
    ++ ascii "pystyle: " ++ path ++ ascii ": " ++ decimal added ++ ascii " finding(s)"
    ++ [Byte.newline]

/-- Checks files in turn.  The first failure ends the run, unless the
    options say to keep going. -/
def checkPaths (find? : Text → Option Node) (options : Options) :
    List Text → Report → Outcome
  | [], report => ⟨true, report, []⟩
  | path :: paths, report =>
    let (after, failure) := checkFile find? options path report
    let added := (after.findingsFor path).length - (report.findingsFor path).length
    let log := if options.verbose then progress path added else []
    match failure with
    | none =>
      let rest := checkPaths find? options paths after
      { rest with log := log ++ rest.log }
    | some failure =>
      let log := log ++ failure.message ++ [Byte.newline]
      if options.keepGoing then
        let rest := checkPaths find? options paths after
        ⟨false, rest.report, log ++ rest.log⟩
      else ⟨false, after, log⟩

end StyleCheck
