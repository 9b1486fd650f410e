import Mathlib.Control.Monad.Basic
import StyleCheck.Check
import StyleCheck.Proofs.LinePass
import StyleCheck.Proofs.Report
import StyleCheck.Proofs.Tree.LevelOrder

/-! # The Check of a Source

    Checking a source adds to the report twice, once behind each pass.
    This module puts the two together: what is added for the path of the
    source is a function of the source and of two of the options, and
    nothing is added anywhere else.

    * `Module.exists_of_mem_findings`, `Stmt.cases_of_mem_ownFindings`: the
      statements that a tree is reported for.
    * `Module.rule_mem_of_mem_findings`: the rules that it is reported for.
    * `checkSource_effect`: all that the check of a source comes to.
-/

namespace StyleCheck

/-! ## Section 1: The tree pass -/

variable {allDefaults inFunction : Bool} {finding : Finding}

/-- A finding is on the line of its statement, which is a function that is
    no coroutine, or an assignment. -/
theorem Stmt.cases_of_mem_ownFindings {stmt : Stmt}
    (h : finding ∈ stmt.ownFindings allDefaults inFunction) :
    (∃ name parameters body, stmt = .functionDef finding.line false name parameters body ∧
      (finding.rule = .argumentName ∨ finding.rule = .mutableDefault)) ∨
    ∃ targets value, stmt = .assign finding.line targets value ∧ finding.rule = .variableName := by
  cases stmt with
  | functionDef line isAsync name parameters body =>
    simp only [ownFindings, Parameters.findings] at h
    cases isAsync with
    | true => cases h
    | false =>
      refine .inl ⟨name, parameters, body, ?_⟩
      rcases List.mem_append.mp h with h | h
      · obtain ⟨_, _, rfl⟩ := List.mem_map.mp h
        exact ⟨rfl, .inl rfl⟩
      · split at h
        · rw [List.mem_singleton.mp h]
          exact ⟨rfl, .inr rfl⟩
        · cases h
  | assign line targets value =>
    simp only [ownFindings] at h
    split at h
    · obtain ⟨_, _, rfl⟩ := List.mem_map.mp h
      exact .inr ⟨targets, value, rfl, rfl⟩
    · cases h
  | classDef => cases h
  | simple => cases h
  | block => cases h

namespace Module

variable {m : Module}

/-- A finding of a module is that of one of its statements. -/
theorem exists_of_mem_findings (h : finding ∈ m.findings allDefaults) :
    ∃ placed ∈ Stmt.preorderAll [] m, ∃ inFunction,
      finding ∈ placed.stmt.ownFindings allDefaults inFunction := by
  unfold Module.findings at h
  rw [walkQueue_eq_flatMap, visitQueue_eq_map _ m.queued_queue] at h
  obtain ⟨pending, hpending, hfinding⟩ := List.mem_flatMap.mp h
  obtain ⟨placed, hplaced, rfl⟩ := List.mem_map.mp hpending
  have hpreorder : placed ∈ Stmt.preorderAll [] m := by
    rw [Stmt.preorderAll_eq]
    exact (visits_perm_preorder (Nat.le_of_eq m.totalSize_placed)).mem_iff.mp hplaced
  exact ⟨placed, hpreorder, _, hfinding⟩

/-- A tree is reported for the rules on the syntax tree only. -/
theorem rule_mem_of_mem_findings (h : finding ∈ m.findings allDefaults) :
    finding.rule ∈ Rule.ofTree := by
  have hrules : Rule.ofTree = [.argumentName, .variableName, .mutableDefault] := rfl
  obtain ⟨_, _, _, hfinding⟩ := exists_of_mem_findings h
  rw [hrules]
  rcases Stmt.cases_of_mem_ownFindings hfinding with
    ⟨_, _, _, _, hrule | hrule⟩ | ⟨_, _, _, hrule⟩ <;> simp [hrule]

end Module

/-! ## Section 2: Sources -/

/-- What the tree pass adds for a source: nothing if it is rejected. -/
def treePass (allDefaults : Bool) (source : Text) : List Finding :=
  match Module.ofSource source with
  | .ok m => m.findings allDefaults
  | .error _ => []

/-- What is added for a source that is checked. -/
def sourceFindings (limit : Nat) (allDefaults : Bool) (source : Text) : List Finding :=
  lineFindings limit source ++ treePass allDefaults source

/-- Where the error of a source comes from. -/
theorem Module.ofSource_eq_error {source : Text} {error : SyntaxError}
    (h : Module.ofSource source = .error error) :
    tokenize source = .error error ∨
      ∃ tokens, tokenize source = .ok tokens ∧ Module.ofTokens tokens = .error error := by
  unfold Module.ofSource at h
  cases htokens : tokenize source with
  | error e =>
    rw [htokens] at h
    obtain rfl := Except.error.inj h
    exact .inl rfl
  | ok tokens =>
    rw [htokens] at h
    exact .inr ⟨tokens, rfl, h⟩

variable (options : Options) (path source : Text) (report : Report)

theorem checkSource_of_ok {m : Module} (h : Module.ofSource source = .ok m) :
    checkSource options path source report =
      ((report.append path (lineFindings options.maxLineLength source)).append path
        (m.findings options.checkAllDefaults), none) := by
  unfold checkSource treeFindings
  rw [h]
  rfl

theorem checkSource_of_error {error : SyntaxError} (h : Module.ofSource source = .error error) :
    checkSource options path source report =
      (report.append path (lineFindings options.maxLineLength source),
        some (.rejected path error)) := by
  unfold checkSource treeFindings
  rw [h]
  rfl

/-- **The check of a source**: it succeeds if the source can be parsed.
    The findings of the path are followed by those of the line pass, of
    each line by itself and in the order of the lines, and these by those
    of the tree pass; no other path is touched.  If the source cannot be
    parsed, then the failure is that of the tokens or of the parser, and
    only the line pass adds findings.

    The findings that are added are those of the source under a limit
    and a setting for defaults.  Neither the path nor the report before
    nor any other option has a part in them. -/
theorem checkSource_effect :
    ((checkSource options path source report).2 = none ↔
      ∃ m, Module.ofSource source = .ok m) ∧
    (checkSource options path source report).1.findingsFor path =
      report.findingsFor path ++
        sourceFindings options.maxLineLength options.checkAllDefaults source ∧
    (∀ other, other ≠ path →
      (checkSource options path source report).1.findingsFor other = report.findingsFor other) ∧
    (∀ m, Module.ofSource source = .ok m →
      sourceFindings options.maxLineLength options.checkAllDefaults source =
        lineFindings options.maxLineLength source ++ m.findings options.checkAllDefaults ∧
      ∀ finding ∈ m.findings options.checkAllDefaults, finding.rule ∈ Rule.ofTree) ∧
    (∀ error, Module.ofSource source = .error error →
      sourceFindings options.maxLineLength options.checkAllDefaults source =
        lineFindings options.maxLineLength source ∧
      (checkSource options path source report).2.map Failure.message =
        some (path ++ ascii ":" ++ decimal error.position.line ++ ascii ":"
          ++ decimal error.position.column ++ ascii ": syntax error: " ++ error.fault.message) ∧
      (tokenize source = .error error ∨
        ∃ tokens, tokenize source = .ok tokens ∧ Module.ofTokens tokens = .error error)) ∧
    lineFindings options.maxLineLength source =
      Line.numbered options.maxLineLength source.splitLines ∧
    (lineFindings options.maxLineLength source).Pairwise (·.line ≤ ·.line) ∧
    ∀ finding ∈ lineFindings options.maxLineLength source, finding.rule ∈ Rule.ofLines := by
  refine ⟨?_, ?_, ?_, ?_, ?_, lineFindings_eq_numbered _ _, lineFindings_pairwise,
    fun _ => rule_mem_of_mem_lineFindings⟩
  · cases h : Module.ofSource source with
    | ok m => simp [checkSource_of_ok options path source report h]
    | error error => simp [checkSource_of_error options path source report h]
  · unfold sourceFindings treePass
    cases h : Module.ofSource source with
    | ok m => simp [checkSource_of_ok options path source report h]
    | error error => simp [checkSource_of_error options path source report h]
  -- Both passes add to the path of the source only.
  · intro other hne
    cases h : Module.ofSource source with
    | ok m =>
      rw [checkSource_of_ok options path source report h]
      rw [Report.findingsFor_append_of_ne _ _ hne, Report.findingsFor_append_of_ne _ _ hne]
    | error error =>
      rw [checkSource_of_error options path source report h]
      rw [Report.findingsFor_append_of_ne _ _ hne]
  · intro m h
    refine ⟨?_, fun finding => Module.rule_mem_of_mem_findings⟩
    unfold sourceFindings treePass
    rw [h]
  · intro error h
    refine ⟨?_, ?_, Module.ofSource_eq_error h⟩
    · unfold sourceFindings treePass
      rw [h, List.append_nil]
    · rw [checkSource_of_error options path source report h]
      rfl

/-- A source that can be parsed gets what the tree pass finds behind what
    the line pass has found; one that cannot keeps the latter. -/
theorem checkSource_read_and_rejected :
    let path := ascii "a.py"
    let read := ascii "def f(A): return A;\n"
    let rejected := ascii "x = = 1;\n"
    (Module.ofSource read = .ok [.functionDef 1 false (ascii "f") { regular := [ascii "A"] }
      [.simple 1 .returnValue]] ∧
    (checkSource {} path read .empty).2 = none ∧
    (checkSource {} path read .empty).1.findingsFor path =
      [⟨1, .trailingSemicolon⟩, ⟨1, .argumentName⟩]) ∧
    Module.ofSource rejected = .error ⟨⟨1, 5⟩, .invalidSyntax⟩ ∧
    (checkSource {} path rejected .empty).2.map Failure.message =
      some (ascii "a.py:1:5: syntax error: invalid syntax") ∧
    (checkSource {} path rejected .empty).1.findingsFor path = [⟨1, .trailingSemicolon⟩] := by
  intro path read rejected
  have htree : Module.ofSource read = .ok [.functionDef 1 false (ascii "f")
      { regular := [ascii "A"] } [.simple 1 .returnValue]] := by
    subst read
    decide +kernel
  have herror : Module.ofSource rejected = .error ⟨⟨1, 5⟩, .invalidSyntax⟩ := by
    subst rejected
    decide +kernel
  obtain ⟨hok, hadded, _, hboth, _⟩ := checkSource_effect {} path read .empty
  obtain ⟨_, hkept, _, _, hrejected, _⟩ := checkSource_effect {} path rejected .empty
  obtain ⟨honly, hmessage, _⟩ := hrejected _ herror
  refine ⟨⟨htree, hok.mpr ⟨_, htree⟩, ?_⟩, herror, ?_, ?_⟩
  · rw [hadded, (hboth _ htree).1]
    rfl
  · rw [hmessage]
    rfl
  · rw [hkept, honly]
    rfl

end StyleCheck
