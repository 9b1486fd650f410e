import StyleCheck.Rule

/-! # Reports

    The findings of a run by file.  Files are kept in ascending byte
    order of their paths, the findings of a file in the order in which
    they were added.  A file without findings is not in the report, and
    no report can be built in which one is, or in which the order of the
    files is another.
-/

namespace StyleCheck

/-- Findings by path. -/
structure Report where
  /-- The files with their findings, in ascending order of the paths. -/
  entries : List (Text × List Finding)
  ordered : entries.Pairwise (·.1 < ·.1)
  nonempty : ∀ entry ∈ entries, entry.2 ≠ []
  deriving DecidableEq, Repr

namespace Report

/-- No findings. -/
def empty : Report := ⟨[], .nil, by simp⟩

/-- Puts findings behind those of a path, at its place in the order. -/
def insert (path : Text) (findings : List Finding) :
    List (Text × List Finding) → List (Text × List Finding)
  | [] => [(path, findings)]
  | entry :: entries =>
    if path = entry.1 then (path, entry.2 ++ findings) :: entries
    else if path < entry.1 then (path, findings) :: entry :: entries
    else entry :: insert path findings entries

/-- Inserting touches the entry of its path only, which then ends with
    the new findings. -/
theorem mem_insert {path : Text} {findings : List Finding} {e : Text × List Finding} :
    ∀ {entries : List (Text × List Finding)}, e ∈ insert path findings entries →
      e ∈ entries ∨ (e.1 = path ∧ findings <:+ e.2) := by
  intro entries
  induction entries with
  | nil =>
    intro h
    rw [List.mem_singleton.mp h]
    exact .inr ⟨rfl, List.suffix_refl _⟩
  | cons entry entries ih =>
    intro h
    unfold insert at h
    split at h
    case isTrue =>
      rcases List.mem_cons.mp h with rfl | h
      · exact .inr ⟨rfl, List.suffix_append _ _⟩
      · exact .inl (List.mem_cons_of_mem _ h)
    case isFalse =>
      split at h
      case isTrue =>
        rcases List.mem_cons.mp h with rfl | h
        · exact .inr ⟨rfl, List.suffix_refl _⟩
        · exact .inl h
      case isFalse =>
        rcases List.mem_cons.mp h with rfl | h
        · exact .inl List.mem_cons_self
        · exact (ih h).imp_left (List.mem_cons_of_mem _)

theorem insert_ordered {path : Text} {findings : List Finding}
    {entries : List (Text × List Finding)} (h : entries.Pairwise (·.1 < ·.1)) :
    (insert path findings entries).Pairwise (·.1 < ·.1) := by
  induction entries with
  | nil => exact List.pairwise_singleton _ _
  | cons entry entries ih =>
    have ⟨hhead, htail⟩ := List.pairwise_cons.mp h
    unfold insert
    split
    case isTrue heq => exact List.pairwise_cons.mpr ⟨fun e he => heq ▸ hhead e he, htail⟩
    case isFalse hne =>
      split
      case isTrue hlt =>
        refine List.pairwise_cons.mpr ⟨?_, h⟩
        intro e he
        rcases List.mem_cons.mp he with rfl | he
        · exact hlt
        · exact List.lt_trans hlt (hhead e he)
      case isFalse hge =>
        refine List.pairwise_cons.mpr ⟨?_, ih htail⟩
        intro e he
        rcases mem_insert he with he | ⟨rfl, _⟩
        · exact hhead e he
        · exact Std.lt_of_le_of_ne (List.not_lt.mp hge) (Ne.symm hne)

theorem insert_nonempty {path : Text} {findings : List Finding} (hne : findings ≠ [])
    {entries : List (Text × List Finding)} (h : ∀ entry ∈ entries, entry.2 ≠ []) :
    ∀ entry ∈ insert path findings entries, entry.2 ≠ [] := by
  intro entry hmem
  rcases mem_insert hmem with hmem | ⟨_, hsuffix⟩
  · exact h entry hmem
  · intro hnil
    rw [hnil] at hsuffix
    exact hne (List.suffix_nil.mp hsuffix)

/-- Adds findings for a path. -/
def append (r : Report) (path : Text) (findings : List Finding) : Report :=
  if h : findings = [] then r
  else ⟨insert path findings r.entries, insert_ordered r.ordered, insert_nonempty h r.nonempty⟩

/-- Adds one finding for a path. -/
def add (r : Report) (path : Text) (finding : Finding) : Report := r.append path [finding]

/-- The findings for a path, in the order of their addition. -/
def findingsFor (r : Report) (path : Text) : List Finding :=
  (r.entries.lookup path).getD []

/-- The paths with findings, in ascending order. -/
def files (r : Report) : List Text := r.entries.map (·.1)

/-- The number of findings. -/
def size (r : Report) : Nat := (r.entries.flatMap (·.2)).length

/-- Whether there are no findings. -/
def isEmpty (r : Report) : Bool := r.entries.isEmpty

/-- The line that is printed for a finding. -/
def printedLine (path : Text) (finding : Finding) : Text :=
  path ++ ascii ": Line " ++ decimal finding.line ++ ascii ": " ++ finding.rule.id
    ++ ascii " " ++ finding.rule.description ++ [Byte.newline]

/-- One line for each finding, file by file. -/
def print (r : Report) : Text :=
  r.entries.flatMap fun (path, findings) => findings.flatMap (printedLine path)

end Report

end StyleCheck
