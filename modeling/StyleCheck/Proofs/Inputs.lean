import Mathlib.Data.List.Sort
import StyleCheck.Inputs
import StyleCheck.Proofs.Files

/-! # The Files of a Path

    A directory stands for its own files with the extension, in ascending
    order of the displayed paths.  The entries of a directory are displayed
    differently, so sorting the displayed paths loses none of them, and
    each displayed path leads to the entry that it is displayed for.

    * `filesIn_perm`, `filesIn_pairwise`: the files of a directory.
    * `FileTree.Shows`: a path is displayed, and leads where it did.
    * `addInputs_effect`: what collecting does, whatever the path leads to.
-/

namespace StyleCheck

open StyleCheck.Path

/-! ## Section 1: The files of a directory -/

variable {directory extension path name : Text} {entries : List (Text × Node)} {node : Node}

/-- The entries that a directory stands for: regular files whose names end
    with the extension. -/
def chosenEntries (extension : Text) (entries : List (Text × Node)) : List (Text × Node) :=
  entries.filter fun (name, node) => node.isFile && extension.isSuffixOf name

theorem mem_chosenEntries_iff : (name, node) ∈ chosenEntries extension entries ↔
    (name, node) ∈ entries ∧ node.isFile = true ∧ extension <:+ name := by
  unfold chosenEntries
  simp [List.mem_filter]

/-- No entry is lost and none comes twice. -/
theorem filesIn_perm (directory extension : Text) (entries : List (Text × Node)) :
    (filesIn directory extension entries).Perm
      ((chosenEntries extension entries).map fun (name, _) => display (child directory name)) :=
  List.mergeSort_perm _ _

/-- The displayed paths of the entries are distinct. -/
theorem nodup_displayed (hkeys : (entries.map (·.1)).Nodup)
    (hnames : ∀ entry ∈ entries, IsName entry.1) :
    ((chosenEntries extension entries).map fun (name, _) =>
      display (child directory name)).Nodup := by
  have hsub : (chosenEntries extension entries).Sublist entries := List.filter_sublist
  have hnodup : ((chosenEntries extension entries).map (·.1)).Nodup :=
    hkeys.sublist (hsub.map _)
  have hsame : (chosenEntries extension entries).map (fun (name, _) => display (child directory name)) =
      ((chosenEntries extension entries).map (·.1)).map fun name => display (child directory name) := by
    rw [List.map_map]
    rfl
  rw [hsame]
  apply List.Nodup.map_on _ hnodup
  intro name hname other hother heq
  obtain ⟨entry, hentry, rfl⟩ := List.mem_map.mp hname
  obtain ⟨entry', hentry', rfl⟩ := List.mem_map.mp hother
  exact (hnames _ (hsub.subset hentry)).eq_of_display_child (hnames _ (hsub.subset hentry')) heq

/-- So sorting them puts them in strictly ascending order. -/
theorem filesIn_pairwise (hkeys : (entries.map (·.1)).Nodup)
    (hnames : ∀ entry ∈ entries, IsName entry.1) :
    (filesIn directory extension entries).Pairwise (· < ·) := by
  have hsorted : (filesIn directory extension entries).Pairwise (· ≤ ·) :=
    List.pairwise_mergeSort' _ _
  have hnodup : (filesIn directory extension entries).Nodup :=
    (filesIn_perm directory extension entries).nodup_iff.mpr (nodup_displayed hkeys hnames)
  apply hsorted.imp₂ _ hnodup
  intro path other hle hne
  exact Std.lt_of_le_of_ne hle hne

/-! ## Section 2: Displayed paths -/

/-- `shown` displays the path of a node.  It consists of the segments that
    are not idle, in their order, and of a slash in front of them if the
    path has one; it is displayed as itself, and leads to the same node. -/
structure FileTree.Shows (t : FileTree) (path shown : Text) (node : Node) : Prop where
  displayed : shown = display path
  segments : Path.segments shown = (if isAbsolute path then [[]] else []) ++
    (Path.segments path).filter (!isIdle ·)
  again : display shown = shown
  found : t.find? path = some node
  leads : t.find? shown = some node

variable {t : FileTree} {outer : List Node}

theorem FileTree.Leads.shows {content : Text} (h : t.Leads path (.file content, outer)) :
    t.Shows path (Path.display path) (.file content) where
  displayed := rfl
  segments := segments_display h.steps_ne_nil
  again := display_display path
  found := h.find?
  leads := h.display.find?

/-- A file among the entries of a directory. -/
theorem FileTree.Leads.shows_child (h : t.Leads path (.directory entries, outer))
    (hkeys : (entries.map (·.1)).Nodup) (hnames : ∀ entry ∈ entries, IsName entry.1)
    (hmem : (name, node) ∈ entries) (hfile : node.isFile = true) :
    t.Shows (Path.child path name) (Path.display (Path.child path name)) node := by
  have hname : IsName name := hnames _ hmem
  have hlookup : entries.lookup name = some node := Node.lookup_of_mem hkeys hmem
  cases node with
  | file content => exact (h.child hname hlookup).shows
  | directory | other => cases hfile

/-! ## Section 3: Collecting -/

theorem addInputs_eq (find? : Text → Option Node) (path extension : Text) (inputs : List Text) :
    addInputs find? path extension inputs =
      match find? path with
      | none => (.error (.missing path), inputs)
      | some (.file _) => (.ok (), inputs ++ [display path])
      | some (.directory entries) => (.ok (), inputs ++ filesIn path extension entries)
      | some .other => (.error (.notFileOrDirectory path), inputs) := by
  unfold addInputs collectInputs
  cases find? path with
  | none => rfl
  | some node => cases node <;> rfl

/-- **Collecting inputs.**  In a file system whose directories are finite
    maps, a directory adds each of its own regular files with the extension
    once, in strictly ascending order, behind the inputs there were; a
    regular file adds itself, whatever the extension; and anything else is
    an error that leaves the inputs as they were.  Each path that is added
    displays the path of the file that it leads to. -/
theorem addInputs_effect (t : FileTree) (hroot : t.root.WellFormed) (path extension : Text)
    (inputs : List Text) :
    match t.find? path with
    | some (.directory entries) => ∃ added,
        addInputs t.find? path extension inputs = (.ok (), inputs ++ added) ∧
        added.Pairwise (· < ·) ∧
        added.Perm ((entries.filter fun (name, node) => node.isFile && extension.isSuffixOf name).map
          fun (name, _) => display (child path name)) ∧
        ∀ shown, shown ∈ added ↔ ∃ name node, (name, node) ∈ entries ∧ node.isFile = true ∧
          extension <:+ name ∧ t.Shows (child path name) shown node
    | some (.file content) =>
        addInputs t.find? path extension inputs = (.ok (), inputs ++ [display path]) ∧
        t.Shows path (display path) (.file content)
    | none => addInputs t.find? path extension inputs = (.error (.missing path), inputs)
    | some .other =>
        addInputs t.find? path extension inputs = (.error (.notFileOrDirectory path), inputs) := by
  rw [addInputs_eq]
  cases hfound : t.find? path with
  | none => rfl
  | some node =>
    obtain ⟨outer, hleads⟩ := FileTree.find?_eq_some_iff.mp hfound
    cases node with
    | other => rfl
    | file content => exact ⟨rfl, hleads.shows⟩
    | directory entries =>
      obtain ⟨hnode, _⟩ := hleads.wellFormed hroot
      cases hnode with
      | directory hkeys hnames _ =>
        have hperm := filesIn_perm path extension entries
        refine ⟨filesIn path extension entries, rfl, filesIn_pairwise hkeys hnames, hperm, ?_⟩
        intro shown
        rw [hperm.mem_iff, List.mem_map]
        constructor
        · intro ⟨(name, node), hmem, hshown⟩
          obtain ⟨hmem, hfile, hextension⟩ := mem_chosenEntries_iff.mp hmem
          obtain rfl := hshown
          exact ⟨name, node, hmem, hfile, hextension,
            hleads.shows_child hkeys hnames hmem hfile⟩
        · intro ⟨name, node, hmem, hfile, hextension, hshows⟩
          exact ⟨(name, node), mem_chosenEntries_iff.mpr ⟨hmem, hfile, hextension⟩,
            hshows.displayed.symm⟩

/-- The files of a directory on the way through another, which is displayed
    with the way back; a directory with the extension is none of them. -/
theorem addInputs_through_parent :
    let entries := [(ascii "b.py", Node.file []), (ascii "a.py", .file []), (ascii "c", .file []),
      (ascii "d.py", .directory [(ascii "e.py", .file [])])]
    let t : FileTree := ⟨.directory [(ascii "w", .directory entries)], [ascii "w"]⟩
    t.root.WellFormed ∧ ∃ added,
      addInputs t.find? (ascii ".//d.py/..") (ascii ".py") [ascii "x"] =
        (.ok (), [ascii "x"] ++ added) ∧
      added.Pairwise (· < ·) ∧ added.Perm [ascii "d.py/../b.py", ascii "d.py/../a.py"] ∧
      ∃ content, t.find? (ascii "d.py/../a.py") = some (.file content) := by
  intro entries t
  have hnames : ∀ name ∈ [ascii "b.py", ascii "a.py", ascii "c", ascii "d.py", ascii "e.py", ascii "w"],
      IsName name := by
    have hplain : ∀ name ∈ [ascii "b.py", ascii "a.py", ascii "c", ascii "d.py", ascii "e.py",
        ascii "w"], name ≠ [] ∧ Byte.slash ∉ name ∧ name ≠ ascii "." ∧ name ≠ ascii ".." := by
      decide +kernel
    intro name hmem
    obtain ⟨hnonempty, hslash, hdot, hparent⟩ := hplain name hmem
    exact ⟨hnonempty, hslash, hdot, hparent⟩
  have hinner : Node.WellFormed (.directory [(ascii "e.py", .file [])]) := by
    apply Node.WellFormed.directory
    · decide
    · simpa using hnames _ (by simp)
    · simpa using Node.WellFormed.file []
  have hentries : Node.WellFormed (.directory entries) := by
    apply Node.WellFormed.directory
    · decide +kernel
    · simpa [entries] using ⟨hnames _ (by simp), hnames _ (by simp), hnames _ (by simp), hnames _ (by simp)⟩
    · simpa [entries, Node.WellFormed.file] using hinner
  have hroot : t.root.WellFormed := by
    apply Node.WellFormed.directory
    · decide
    · simpa using hnames _ (by simp)
    · simpa using hentries
  have heffect := addInputs_effect t hroot (ascii ".//d.py/..") (ascii ".py") [ascii "x"]
  have hfound : t.find? (ascii ".//d.py/..") = some (.directory entries) := rfl
  rw [hfound] at heffect
  obtain ⟨added, hadded, hsorted, hperm, hshown⟩ := heffect
  refine ⟨hroot, added, hadded, hsorted, hperm, ?_⟩
  have hmem : ascii "d.py/../a.py" ∈ added := by
    rw [hperm.mem_iff]
    decide +kernel
  obtain ⟨name, node, _, hfile, _, hshows⟩ := (hshown _).mp hmem
  cases node with
  | file content => exact ⟨content, hshows.leads⟩
  | directory | other => cases hfile

end StyleCheck
