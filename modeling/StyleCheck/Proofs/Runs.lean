import Mathlib.Data.List.Infix
import StyleCheck.Proofs.Check
import StyleCheck.Proofs.Histories

/-! # Runs over Files

    The files of a run are checked one behind the other, and nothing but
    the report goes from one to the next.  What a file adds to it, whether
    it fails, and what is logged for it are settled by the file system and
    the options alone.  So a run is told in full by the files that it comes
    to: all of them, or those up to the first that fails.

    * `checkFile_eq`: the check of one file.
    * `checkPaths_of_passes`, `checkPaths_of_not_passes`: one file of a run.
    * `checkPaths_eq`: a run.
    * `findingsFor_addAll`: the findings of one path behind a run.
    * `checkPaths_stopping_going`: a run that stops at the first failure,
      and one that goes on.
    * `checkPaths_perm`: runs over the same files in another order.
-/

namespace StyleCheck

/-! ## Section 1: One file -/

section File

variable (find? : Text → Option Node) (options : Options)

/-- A path leads to a text, and the text can be parsed. -/
def Passes (path : Text) : Prop :=
  ∃ source m, readSource find? path = .ok source ∧ Module.ofSource source = .ok m

/-- Why the check of a file fails, if it does. -/
def failure? (path : Text) : Option Failure :=
  match readSource find? path with
  | .error error => some (.read error)
  | .ok source =>
    match Module.ofSource source with
    | .error error => some (.rejected path error)
    | .ok _ => none

/-- What the check of a file adds for its path: nothing if it cannot be
    read, and only what is found on its lines if it cannot be parsed. -/
def addedBy (path : Text) : List Finding :=
  match readSource find? path with
  | .error _ => []
  | .ok source =>
    match Module.ofSource source with
    | .error _ => lineFindings options.maxLineLength source
    | .ok m => lineFindings options.maxLineLength source ++ m.findings options.checkAllDefaults

/-- What is logged for a file: how many findings it adds, if progress is to
    be logged, and why it fails, if it does. -/
def logged (path : Text) : Text :=
  (if options.verbose then progress path (addedBy find? options path).length else []) ++
    match failure? find? path with
    | none => []
    | some failure => failure.message ++ [Byte.newline]

variable {find?} {path : Text}

theorem failure?_eq_none_iff : failure? find? path = none ↔ Passes find? path := by
  unfold failure? Passes
  cases hread : readSource find? path with
  | error error => simp
  | ok source =>
    cases hparse : Module.ofSource source with
    | error error => simp [hparse]
    | ok m => simp [hparse]

instance : Decidable (Passes find? path) := decidable_of_iff _ failure?_eq_none_iff

/-- The check of a file adds its findings, and fails or does not. -/
theorem checkFile_eq (report : Report) :
    checkFile find? options path report =
      (report.append path (addedBy find? options path), failure? find? path) := by
  unfold checkFile addedBy failure?
  cases hread : readSource find? path with
  | error error => rw [Report.append_nil]
  | ok source =>
    dsimp only
    cases hparse : Module.ofSource source with
    | error error => rw [checkSource_of_error options path source report hparse]
    | ok m => rw [checkSource_of_ok options path source report hparse, Report.append_append]

end File

/-! ## Section 2: Many files -/

section Files

variable (find? : Text → Option Node) (options : Options)

/-- The files that a run comes to: all of them, or those in front of the
    first that fails, and that one. -/
def reached (keepGoing : Bool) (paths : List Text) : List Text :=
  if keepGoing then paths
  else paths.takeWhile (Passes find? ·) ++ (paths.dropWhile (Passes find? ·)).take 1

/-- A report with what several files add, one behind the other. -/
def addAll (paths : List Text) (report : Report) : Report :=
  paths.foldl (fun report path => report.append path (addedBy find? options path)) report

variable {find?} {keepGoing : Bool} {path : Text} {paths : List Text}

theorem reached_of_passes (h : Passes find? path) :
    reached find? keepGoing (path :: paths) = path :: reached find? keepGoing paths := by
  cases keepGoing with
  | true => rfl
  | false => simp [reached, h]

theorem reached_of_not_passes (h : ¬ Passes find? path) :
    reached find? false (path :: paths) = [path] := by
  simp [reached, h]

/-- The number of findings that is logged is that of the findings added. -/
theorem length_findingsFor_append (report : Report) (path : Text) (added : List Finding) :
    ((report.append path added).findingsFor path).length - (report.findingsFor path).length =
      added.length := by
  rw [Report.findingsFor_append_self, List.length_append, Nat.add_sub_cancel_left]

/-- One file of a run that passes. -/
theorem checkPaths_of_passes (h : Passes find? path) (report : Report) :
    checkPaths find? options (path :: paths) report =
      let rest := checkPaths find? options paths (report.append path (addedBy find? options path))
      { rest with log := logged find? options path ++ rest.log } := by
  rw [checkPaths, checkFile_eq]
  unfold logged
  rw [failure?_eq_none_iff.mpr h, List.append_nil]
  dsimp only
  rw [length_findingsFor_append]

/-- One file of a run that fails.  The run goes on only if the options say
    so. -/
theorem checkPaths_of_not_passes (h : ¬ Passes find? path) (report : Report) :
    checkPaths find? options (path :: paths) report =
      let after := report.append path (addedBy find? options path)
      if options.keepGoing then
        let rest := checkPaths find? options paths after
        ⟨false, rest.report, logged find? options path ++ rest.log⟩
      else ⟨false, after, logged find? options path⟩ := by
  obtain ⟨failure, hfailure⟩ := Option.ne_none_iff_exists'.mp
    (fun hnone => h (failure?_eq_none_iff.mp hnone))
  rw [checkPaths, checkFile_eq]
  unfold logged
  rw [hfailure]
  dsimp only
  simp only [length_findingsFor_append, List.append_assoc]

/-- **A run** checks the files that it comes to, one behind the other.  By
    induction on the files, with any report at the start. -/
theorem checkPaths_eq (paths : List Text) : ∀ report : Report,
    checkPaths find? options paths report =
      { ok := paths.all (Passes find? ·)
        report := addAll find? options (reached find? options.keepGoing paths) report
        log := (reached find? options.keepGoing paths).flatMap (logged find? options) } := by
  induction paths with
  | nil =>
    intro report
    cases hkeep : options.keepGoing <;> rfl
  | cons path paths ih =>
    intro report
    by_cases hpasses : Passes find? path
    · rw [checkPaths_of_passes options hpasses, ih, reached_of_passes hpasses, List.flatMap_cons]
      simp only [List.all_cons, hpasses, decide_true, Bool.true_and]
      rfl
    · rw [checkPaths_of_not_passes options hpasses]
      simp only [List.all_cons, hpasses, decide_false, Bool.false_and]
      cases hkeep : options.keepGoing with
      | true =>
        rw [ih, hkeep]
        rfl
      | false =>
        rw [reached_of_not_passes hpasses, List.flatMap_singleton]
        rfl

/-- What a run leaves for a path is what it had, and what is added for it
    as often as it is listed. -/
theorem findingsFor_addAll (path : Text) (paths : List Text) : ∀ report : Report,
    (addAll find? options paths report).findingsFor path =
      report.findingsFor path ++
        (List.replicate (paths.count path) (addedBy find? options path)).flatten := by
  induction paths with
  | nil =>
    intro report
    simp [addAll]
  | cons first paths ih =>
    intro report
    show (addAll find? options paths (report.append first (addedBy find? options first))).findingsFor
      path = _
    rw [ih]
    by_cases hfirst : path = first
    · subst hfirst
      rw [Report.findingsFor_append_self, List.count_cons_self, List.replicate_succ,
        List.flatten_cons, List.append_assoc]
    · rw [Report.findingsFor_append_of_ne _ _ hfirst, List.count_cons_of_ne (Ne.symm hfirst)]

/-- Where all files pass, a run comes to all of them. -/
theorem reached_of_all (h : ∀ path ∈ paths, Passes find? path) :
    reached find? keepGoing paths = paths := by
  induction paths with
  | nil => cases keepGoing <;> rfl
  | cons first paths ih =>
    have ⟨hfirst, hothers⟩ := List.forall_mem_cons.mp h
    rw [reached_of_passes hfirst, ih hothers]

/-- Where one fails, a run that stops comes to the first of those, and to
    all in front of it. -/
theorem exists_first_failing (h : ¬ ∀ path ∈ paths, Passes find? path) :
    ∃ good bad rest, paths = good ++ bad :: rest ∧ (∀ path ∈ good, Passes find? path) ∧
      ¬ Passes find? bad ∧ reached find? false paths = good ++ [bad] := by
  induction paths with
  | nil => simp at h
  | cons first paths ih =>
    by_cases hfirst : Passes find? first
    · obtain ⟨good, bad, rest, rfl, hgood, hbad, hreached⟩ :=
        ih fun hothers => h (List.forall_mem_cons.mpr ⟨hfirst, hothers⟩)
      exact ⟨first :: good, bad, rest, rfl, List.forall_mem_cons.mpr ⟨hfirst, hgood⟩, hbad, by
        rw [reached_of_passes hfirst, hreached, List.cons_append]⟩
    · exact ⟨[], first, paths, rfl, by simp, hfirst, reached_of_not_passes hfirst⟩

/-- A run that stops comes to the first of the files. -/
theorem reached_false_isPrefix (paths : List Text) : reached find? false paths <+: paths := by
  by_cases h : ∀ path ∈ paths, Passes find? path
  · rw [reached_of_all h]
  · obtain ⟨good, bad, rest, rfl, _, _, hreached⟩ := exists_first_failing h
    rw [hreached]
    exact ⟨rest, by simp⟩

end Files

/-! ## Section 3: Stopping and going on -/

namespace Options

/-- The options with the first failure ending a run. -/
def stopping (options : Options) : Options := { options with keepGoing := false }

/-- The options with every failure being passed over. -/
def going (options : Options) : Options := { options with keepGoing := true }

end Options

variable (find? : Text → Option Node) (options : Options) (paths : List Text) (report : Report)

theorem checkPaths_stopping :
    checkPaths find? options.stopping paths report =
      { ok := paths.all (Passes find? ·)
        report := addAll find? options (reached find? false paths) report
        log := (reached find? false paths).flatMap (logged find? options) } :=
  checkPaths_eq options.stopping paths report

theorem checkPaths_going :
    checkPaths find? options.going paths report =
      { ok := paths.all (Passes find? ·)
        report := addAll find? options paths report
        log := paths.flatMap (logged find? options) } :=
  checkPaths_eq options.going paths report

theorem addAll_append (first second : List Text) :
    addAll find? options (first ++ second) report =
      addAll find? options second (addAll find? options first report) :=
  List.foldl_append

/-- **Stopping and going on**: a run that stops at the first failure comes
    to the same result as one that goes on, and it is good if all files
    pass.  In that case the two runs are the same.  Otherwise the one that
    stops leaves the report with what is added by the first file that fails
    and those in front of it; for each path it has found the first of what
    the other has, and its log is where the log of the other begins.

    Logging progress changes neither the result nor the report.  The number
    that is logged for a file is that of the findings it has added. -/
theorem checkPaths_stopping_going :
    (checkPaths find? options.stopping paths report).ok =
      (checkPaths find? options.going paths report).ok ∧
    ((checkPaths find? options.stopping paths report).ok = true ↔
      ∀ path ∈ paths, Passes find? path) ∧
    ((checkPaths find? options.stopping paths report).ok = true →
      checkPaths find? options.stopping paths report =
        checkPaths find? options.going paths report) ∧
    ((checkPaths find? options.stopping paths report).ok = false →
      (∃ good bad rest, paths = good ++ bad :: rest ∧ (∀ path ∈ good, Passes find? path) ∧
        ¬ Passes find? bad ∧
        (checkPaths find? options.stopping paths report).report =
          addAll find? options (good ++ [bad]) report) ∧
      (∀ path, (checkPaths find? options.stopping paths report).report.findingsFor path <+:
        (checkPaths find? options.going paths report).report.findingsFor path) ∧
      (checkPaths find? options.stopping paths report).log <+:
        (checkPaths find? options.going paths report).log) ∧
    (∀ verbose,
      (checkPaths find? { options with verbose := verbose } paths report).ok =
        (checkPaths find? options paths report).ok ∧
      (checkPaths find? { options with verbose := verbose } paths report).report =
        (checkPaths find? options paths report).report) ∧
    (checkPaths find? options paths report).log =
      (reached find? options.keepGoing paths).flatMap (logged find? options) ∧
    ∀ path before, (checkFile find? options path before).1 =
      before.append path (addedBy find? options path) := by
  rw [checkPaths_stopping, checkPaths_going]
  have hall : paths.all (Passes find? ·) = true ↔ ∀ path ∈ paths, Passes find? path := by simp
  obtain ⟨rest, hrest⟩ := @reached_false_isPrefix find? paths
  refine ⟨rfl, hall, fun hok => ?_, fun hfails => ⟨?_, fun path => ?_, ?_⟩, fun verbose => ?_, ?_,
    fun path before => ?_⟩
  · rw [reached_of_all (hall.mp hok)]
  · have hsome : ¬ ∀ path ∈ paths, Passes find? path := fun h => by
      rw [hall.mpr h] at hfails
      cases hfails
    obtain ⟨good, bad, rest, hpaths, hgood, hbad, hreached⟩ := exists_first_failing hsome
    exact ⟨good, bad, rest, hpaths, hgood, hbad, by rw [hreached]⟩
  -- The rest of the files adds to what has been found before.
  · have hmore : addAll find? options paths report =
        addAll find? options rest (addAll find? options (reached find? false paths) report) := by
      rw [← addAll_append, hrest]
    show (addAll find? options (reached find? false paths) report).findingsFor path <+:
      (addAll find? options paths report).findingsFor path
    rw [hmore, findingsFor_addAll options path rest]
    exact List.prefix_append _ _
  · have hmore : paths.flatMap (logged find? options) =
        (reached find? false paths).flatMap (logged find? options) ++
          rest.flatMap (logged find? options) := by
      rw [← List.flatMap_append, hrest]
    exact ⟨_, hmore.symm⟩
  · rw [checkPaths_eq, checkPaths_eq]
    exact ⟨rfl, rfl⟩
  · rw [checkPaths_eq]
  · rw [checkFile_eq]

/-- Of two files, the second cannot be parsed, and the first is listed
    again behind it. -/
theorem stopping_at_rejected_file : ∃ (find? : Text → Option Node) (stopped gone : Outcome),
    checkPaths find? (Options.stopping { verbose := true }) [ascii "a", ascii "b", ascii "a"]
      .empty = stopped ∧
    checkPaths find? (Options.going { verbose := true }) [ascii "a", ascii "b", ascii "a"]
      .empty = gone ∧
    stopped.ok = false ∧ gone.ok = false ∧
    stopped.report.findingsFor (ascii "a") = [⟨1, .trailingSemicolon⟩] ∧
    gone.report.findingsFor (ascii "a") = [⟨1, .trailingSemicolon⟩, ⟨1, .trailingSemicolon⟩] ∧
    stopped.log = ascii "pystyle: checking a\npystyle: a: 1 finding(s)\n" ++
      ascii "pystyle: checking b\npystyle: b: 0 finding(s)\nb:1:5: syntax error: invalid syntax\n" ∧
    stopped.log <+: gone.log := by
  obtain ⟨_, _, _, hstops, _⟩ := checkPaths_stopping_going
    (fun path => some (.file (if path = ascii "a" then ascii "x = 1;\n" else ascii "x = = 1\n")))
    { verbose := true } [ascii "a", ascii "b", ascii "a"] .empty
  obtain ⟨_, _, hlog⟩ := hstops (by decide +kernel)
  exact ⟨_, _, _, rfl, rfl, by decide +kernel, by decide +kernel, by decide +kernel,
    by decide +kernel, by decide +kernel, hlog⟩

/-! ## Section 4: The order of the files -/

/-- **The order of the files does not matter** to a run that goes on
    behind failures.  The same files in another order, each as often, come
    to the same result and leave the same report: the same files in it,
    with the same findings.  So it is from any report at the start, and
    whether or not there are files that cannot be read or parsed. -/
theorem checkPaths_perm (find? : Text → Option Node) (options : Options) (report : Report)
    {paths others : List Text} (hgoing : options.keepGoing = true) (hperm : paths.Perm others) :
    (checkPaths find? options paths report).ok = (checkPaths find? options others report).ok ∧
    (checkPaths find? options paths report).report =
      (checkPaths find? options others report).report := by
  rw [checkPaths_eq, checkPaths_eq, hgoing]
  refine ⟨hperm.all_eq, Report.eq_of_findingsFor fun path => ?_⟩
  show (addAll find? options paths report).findingsFor path =
    (addAll find? options others report).findingsFor path
  rw [findingsFor_addAll, findingsFor_addAll, hperm.count_eq]

/-- A file that is listed twice, one that is missing, and one that cannot
    be parsed behind its first line. -/
theorem checkPaths_shuffled :
    let find? : Text → Option Node := fun path =>
      if path = ascii "a" then some (.file (ascii "x = 1;\n"))
      else if path = ascii "b" then some (.file (ascii "x = 1;\nx = = 1\n"))
      else none
    let options : Options := { keepGoing := true }
    let run := checkPaths find? options [ascii "a", ascii "b", ascii "a", ascii "c"] .empty
    let other := checkPaths find? options [ascii "c", ascii "b", ascii "a", ascii "a"] .empty
    run.ok = false ∧ run.ok = other.ok ∧ run.report = other.report ∧
    run.report.print = ascii "a: Line 1: S003 Unnecessary semicolon after a statement\n" ++
      ascii "a: Line 1: S003 Unnecessary semicolon after a statement\n" ++
      ascii "b: Line 1: S003 Unnecessary semicolon after a statement\n" ∧
    run.log ≠ other.log := by
  intro find? options run other
  obtain ⟨hok, hreport⟩ := checkPaths_perm find? options .empty rfl
    (show [ascii "a", ascii "b", ascii "a", ascii "c"].Perm
      [ascii "c", ascii "b", ascii "a", ascii "a"] by decide)
  exact ⟨by decide +kernel, hok, hreport, by decide +kernel, by decide +kernel⟩

end StyleCheck
