import Mathlib.Algebra.GroupWithZero.Nat
import Mathlib.Data.List.Sort
import StyleCheck.Proofs.Report

/-! # Reports and Their Histories

    A report that starts empty and has findings added to it, one by one or
    many at a time, shows of this history what was added for each path, and
    no more.  That no entry is empty ties the files to the findings, and
    that the entries are in order leaves a report no choice in how to keep
    them.

    * `entries_eq`: the entries are what the files have.
    * `eq_of_findingsFor`: a report is known by the findings of each path.
    * `findingsFor_ofHistory`: the findings of a path behind a history.
    * `ofHistory_observed`: all that a report shows of its history.
-/

namespace StyleCheck

namespace Report

/-! ## Section 1: What a report shows -/

variable {r r' : Report} {path : Text} {entry : Text × List Finding}

/-- The first entry for a path is the only one. -/
theorem lookup_of_mem {entries : List (Text × List Finding)} (h : entries.Pairwise (·.1 < ·.1))
    (hmem : entry ∈ entries) : entries.lookup entry.1 = some entry.2 := by
  induction entries with
  | nil => cases hmem
  | cons first entries ih =>
    have ⟨hhead, htail⟩ := List.pairwise_cons.mp h
    rcases List.mem_cons.mp hmem with rfl | hmem
    · rw [List.lookup_cons, beq_self_eq_true]
    · have hne : entry.1 ≠ first.1 := fun heq => List.lt_irrefl entry.1 (heq ▸ hhead entry hmem)
      have hbeq : (entry.1 == first.1) = false := by simpa using hne
      rw [List.lookup_cons, hbeq]
      exact ih htail hmem

theorem findingsFor_of_mem (h : entry ∈ r.entries) : r.findingsFor entry.1 = entry.2 := by
  unfold findingsFor
  rw [lookup_of_mem r.ordered h]
  rfl

/-- The files are the paths with findings. -/
theorem mem_files_iff : path ∈ r.files ↔ r.findingsFor path ≠ [] := by
  constructor
  · intro hmem
    obtain ⟨entry, hentry, rfl⟩ := List.mem_map.mp hmem
    rw [findingsFor_of_mem hentry]
    exact r.nonempty entry hentry
  · intro hne
    by_contra hnot
    refine hne ?_
    unfold findingsFor
    rw [List.lookup_eq_none_iff.mpr fun entry hentry => ?_]
    · rfl
    · have hother : path ≠ entry.1 := fun heq => hnot (heq ▸ List.mem_map_of_mem hentry)
      simpa using hother

theorem files_pairwise (r : Report) : r.files.Pairwise (· < ·) :=
  List.pairwise_map.mpr r.ordered

/-- The entries of a report are its files with their findings. -/
theorem entries_eq (r : Report) :
    r.entries = r.files.map fun path => (path, r.findingsFor path) := by
  unfold files
  rw [List.map_map]
  refine (List.map_id'' (fun _ => rfl) _).symm.trans (List.map_congr_left fun entry hentry => ?_)
  rw [Function.comp_apply, findingsFor_of_mem hentry]

/-- A report is known by the findings of each path. -/
theorem eq_of_findingsFor (h : ∀ path, r.findingsFor path = r'.findingsFor path) : r = r' := by
  have hfiles : r.files = r'.files := by
    refine r.files_pairwise.eq_of_mem_iff r'.files_pairwise fun path => ?_
    rw [mem_files_iff, mem_files_iff, h]
  apply eq_of_entries
  rw [entries_eq, entries_eq, hfiles]
  exact List.map_congr_left fun path _ => by rw [h]

/-- A report is empty if it has no findings. -/
theorem isEmpty_iff : r.isEmpty = true ↔ r.size = 0 := by
  unfold isEmpty size
  rw [List.isEmpty_iff, List.length_eq_zero_iff, List.flatMap_eq_nil_iff]
  constructor
  · intro hnil entry hmem
    rw [hnil] at hmem
    cases hmem
  · intro hall
    refine List.eq_nil_iff_forall_not_mem.mpr fun entry hmem => ?_
    exact r.nonempty entry hmem (hall entry hmem)

/-- The lines that are printed: one for each finding, those of a file
    together. -/
def printedLines (r : Report) : List Text :=
  r.files.flatMap fun path => (r.findingsFor path).map (printedLine path)

theorem print_eq (r : Report) : r.print = r.printedLines.flatten := by
  unfold print printedLines
  rw [entries_eq, List.flatMap_map]
  simp only [List.flatMap_def, List.flatten_flatten, List.map_map]
  rfl

theorem length_printedLines (r : Report) : r.printedLines.length = r.size := by
  unfold size printedLines
  rw [entries_eq, List.flatMap_map, List.length_flatMap, List.length_flatMap]
  simp only [List.length_map]

theorem length_flatMap_insert (path : Text) (findings : List Finding)
    (entries : List (Text × List Finding)) :
    ((insert path findings entries).flatMap (·.2)).length =
      (entries.flatMap (·.2)).length + findings.length := by
  induction entries with
  | nil => simp [insert]
  | cons entry entries ih =>
    unfold insert
    by_cases heq : path = entry.1
    · rw [if_pos heq]
      simp only [List.flatMap_cons, List.length_append]
      omega
    · rw [if_neg heq]
      by_cases hlt : path < entry.1
      · rw [if_pos hlt]
        simp only [List.flatMap_cons, List.length_append]
        omega
      · rw [if_neg hlt]
        simp only [List.flatMap_cons, List.length_append, ih]
        omega

theorem size_append (r : Report) (path : Text) (findings : List Finding) :
    (r.append path findings).size = r.size + findings.length := by
  by_cases h : findings = []
  · rw [h, append_nil, List.length_nil, Nat.add_zero]
  · unfold size
    rw [entries_append h, length_flatMap_insert]

/-! ## Section 2: Histories -/

/-- Something that is added to a report. -/
inductive Addition where
  | one (path : Text) (finding : Finding)
  /-- Any number of findings, none included. -/
  | many (path : Text) (findings : List Finding)
  deriving DecidableEq, Repr

namespace Addition

/-- The path that findings are added for. -/
def target : Addition → Text
  | one path _ => path
  | many path _ => path

def findings : Addition → List Finding
  | one _ finding => [finding]
  | many _ findings => findings

/-- The report with the findings added to it. -/
def addTo (r : Report) : Addition → Report
  | one path finding => r.add path finding
  | many path findings => r.append path findings

theorem addTo_eq (r : Report) (a : Addition) : addTo r a = r.append a.target a.findings := by
  cases a with
  | one => rfl
  | many => rfl

end Addition

/-- A report that starts empty, behind a history of additions. -/
def ofHistory (history : List Addition) : Report := history.foldl Addition.addTo .empty

/-- The findings that a history has for a path, in the order in which they
    are added. -/
def addedFor (history : List Addition) (path : Text) : List Finding :=
  (history.filter (·.target = path)).flatMap (·.findings)

variable {history others : List Addition}

/-- By induction on the history, from any report. -/
theorem findingsFor_foldl (path : Text) : ∀ r : Report,
    (history.foldl Addition.addTo r).findingsFor path =
      r.findingsFor path ++ addedFor history path := by
  unfold addedFor
  induction history with
  | nil =>
    intro r
    simp
  | cons a history ih =>
    intro r
    rw [List.foldl_cons, ih, Addition.addTo_eq]
    by_cases ha : a.target = path
    · subst ha
      simp
    · rw [findingsFor_append_of_ne _ _ (Ne.symm ha)]
      simp [ha]

theorem findingsFor_ofHistory (path : Text) :
    (ofHistory history).findingsFor path = addedFor history path :=
  findingsFor_foldl path .empty

theorem size_foldl : ∀ r : Report, (history.foldl Addition.addTo r).size =
    r.size + (history.map (·.findings.length)).sum := by
  induction history with
  | nil =>
    intro r
    simp
  | cons a history ih =>
    intro r
    rw [List.foldl_cons, ih, Addition.addTo_eq, size_append, List.map_cons, List.sum_cons,
      Nat.add_assoc]

/-- **A report and its history.**  Behind any history, the findings of a
    path are those that were added for it, in that order; the files are the
    paths with a finding, in ascending order of their bytes; the size is
    the number of findings that were added, and a report is empty if it is
    zero.  What is printed is a line for each finding, file by file.  So
    two histories that add the same for each path cannot be told apart. -/
theorem ofHistory_observed (history : List Addition) :
    (∀ path, (ofHistory history).findingsFor path = addedFor history path) ∧
    (ofHistory history).files.Pairwise (· < ·) ∧
    (∀ path, path ∈ (ofHistory history).files ↔
      ∃ a ∈ history, a.target = path ∧ a.findings ≠ []) ∧
    (ofHistory history).size = (history.map (·.findings.length)).sum ∧
    ((ofHistory history).isEmpty = true ↔ (ofHistory history).size = 0) ∧
    (ofHistory history).print = ((ofHistory history).files.flatMap fun path =>
      ((ofHistory history).findingsFor path).map (printedLine path)).flatten ∧
    ((ofHistory history).files.flatMap fun path =>
      ((ofHistory history).findingsFor path).map (printedLine path)).length =
        (ofHistory history).size ∧
    ∀ others, (∀ path, addedFor history path = addedFor others path) →
      ofHistory history = ofHistory others := by
  refine ⟨fun path => findingsFor_ofHistory path, files_pairwise _, fun path => ?_, ?_, isEmpty_iff,
    print_eq _, length_printedLines _, fun others hsame => ?_⟩
  · rw [mem_files_iff, findingsFor_ofHistory]
    simp only [addedFor, ne_eq, List.flatMap_eq_nil_iff, List.mem_filter, decide_eq_true_eq,
      not_forall, exists_prop, and_assoc]
  · have hsize := @size_foldl history .empty
    rwa [show empty.size = 0 from rfl, Nat.zero_add] at hsize
  · refine eq_of_findingsFor fun path => ?_
    rw [findingsFor_ofHistory, findingsFor_ofHistory, hsame]

/-- Two histories over two files, one of them with an addition of nothing
    for a third. -/
theorem ofHistory_interleaved :
    let history : List Addition := [.one (ascii "b") ⟨4, .className⟩, .many (ascii "c") [],
      .many (ascii "a") [⟨2, .lineLength⟩, ⟨1, .todoComment⟩], .one (ascii "b") ⟨5, .lineLength⟩]
    let others : List Addition := [.one (ascii "a") ⟨2, .lineLength⟩,
      .many (ascii "b") [⟨4, .className⟩, ⟨5, .lineLength⟩], .one (ascii "a") ⟨1, .todoComment⟩]
    (∀ path, addedFor history path = addedFor others path) ∧
    ofHistory history = ofHistory others ∧
    (ofHistory history).files = [ascii "a", ascii "b"] ∧
    (ofHistory history).size = 4 ∧
    (ofHistory history).print = ascii "a: Line 2: S001 Too long\na: Line 1: S005 TODO found\n" ++
      ascii "b: Line 4: S008 Class name class_name should be written in CamelCase\n" ++
      ascii "b: Line 5: S001 Too long\n" := by
  intro history others
  have hsame : ∀ path, addedFor history path = addedFor others path := by
    intro path
    by_cases ha : ascii "a" = path
    · subst ha
      decide
    by_cases hb : ascii "b" = path
    · subst hb
      decide
    by_cases hc : ascii "c" = path <;>
      simp [history, others, addedFor, Addition.target, Addition.findings, ha, hb, hc]
  obtain ⟨_, _, _, hsize, _, _, _, hequal⟩ := ofHistory_observed history
  exact ⟨hsame, hequal others hsame, by decide +kernel, hsize, by decide +kernel⟩

end Report

end StyleCheck
