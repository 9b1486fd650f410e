import StyleCheck.Files

/-! # Paths and Where They Lead

    A path is displayed by its steps: the segments that are not idle, with
    the slash in front of them if the path is absolute.  That takes nothing
    from it.  The displayed path has the same steps, so it is displayed as
    itself, and a lookup that gets to the end of the one path gets to the
    same place at the end of the other.

    * `Path.steps`: the steps of a path.
    * `Path.segments_display`: the segments of a displayed path.
    * `FileTree.Leads`: a path and the place at its end.
    * `Leads.display`, `Leads.child`: other paths that lead somewhere.
    * `Node.WellFormed`: the entries of every directory are a finite map.
-/

namespace StyleCheck

/-! ## Section 1: Segments -/

namespace Path

variable {path directory name segment : Text} {kept : List Text}

/-- Segments are what the library splits a list into. -/
theorem segments_eq_splitOn (path : Text) : segments path = path.splitOn Byte.slash := by
  unfold List.splitOn
  induction path with
  | nil => rfl
  | cons b rest ih =>
    rw [segments, List.splitOnP_cons_eq_if_modifyHead, ← ih]
    by_cases hb : b = Byte.slash
    · rw [if_pos hb, if_pos (beq_iff_eq.mpr hb)]
    · rw [if_neg hb, if_neg (by simpa using hb)]
      cases hrest : segments rest with
      | nil =>
        rw [ih] at hrest
        exact absurd hrest (List.splitOnP_ne_nil _ _)
      | cons segment others => rfl

theorem segments_ne_nil (path : Text) : segments path ≠ [] := by
  rw [segments_eq_splitOn]
  exact List.splitOn_ne_nil _ _

theorem segments_join (hne : kept ≠ []) (hslash : ∀ segment ∈ kept, Byte.slash ∉ segment) :
    segments (join kept) = kept := by
  rw [segments_eq_splitOn]
  exact List.splitOn_intercalate Byte.slash hslash hne

theorem segments_of_no_slash (h : Byte.slash ∉ name) : segments name = [name] := by
  have hjoin : join [name] = name := List.intercalate_singleton
  have hsegments : segments (join [name]) = [name] := by
    apply segments_join (List.cons_ne_nil _ _)
    simpa using h
  rwa [hjoin] at hsegments

theorem segments_slash_cons (path : Text) : segments (Byte.slash :: path) = [] :: segments path := by
  rw [segments, if_pos rfl]

/-- The path of an entry has the name of the entry as its last segment. -/
theorem segments_child (directory : Text) (h : Byte.slash ∉ name) :
    segments (child directory name) = segments directory ++ [name] := by
  have hname := segments_of_no_slash h
  rw [segments_eq_splitOn] at hname
  unfold child
  rw [segments_eq_splitOn, segments_eq_splitOn, List.append_assoc, ← hname]
  exact List.splitOnP_append_cons directory name (beq_self_eq_true _)

theorem slash_notMem_of_mem_segments (h : segment ∈ segments path) : Byte.slash ∉ segment := by
  induction path generalizing segment with
  | nil =>
    obtain rfl := List.mem_singleton.mp h
    exact List.not_mem_nil
  | cons b rest ih =>
    unfold segments at h
    split at h
    case isTrue =>
      rcases List.mem_cons.mp h with rfl | hmem
      · exact List.not_mem_nil
      · exact ih hmem
    case isFalse hb =>
      split at h
      case h_1 =>
        obtain rfl := List.mem_singleton.mp h
        simpa using Ne.symm hb
      case h_2 first others hrest =>
        rw [hrest] at ih
        rcases List.mem_cons.mp h with rfl | hmem
        · intro hslash
          rcases List.mem_cons.mp hslash with heq | hslash
          · exact hb heq.symm
          · exact ih List.mem_cons_self hslash
        · exact ih (List.mem_cons_of_mem _ hmem)

/-! ## Section 2: Steps -/

/-- The segments of a path that are not idle. -/
def steps (path : Text) : List Text := (segments path).filter (!isIdle ·)

theorem not_isIdle_of_mem_steps (h : segment ∈ steps path) : isIdle segment = false := by
  simpa using (List.mem_filter.mp h).2

theorem slash_notMem_of_mem_steps (h : segment ∈ steps path) : Byte.slash ∉ segment :=
  slash_notMem_of_mem_segments (List.mem_filter.mp h).1

theorem filter_steps (path : Text) : (steps path).filter (!isIdle ·) = steps path := by
  apply List.filter_eq_self.mpr
  intro segment hmem
  rw [not_isIdle_of_mem_steps hmem]
  rfl

/-- Displaying a path takes its steps and asks whether it is absolute. -/
theorem display_eq (path : Text) : display path =
    if isAbsolute path then Byte.slash :: join (steps path)
    else if steps path = [] then ascii "." else join (steps path) := rfl

/-- Steps are not empty, so a path of steps does not start with a slash. -/
theorem isAbsolute_join_steps (path : Text) : isAbsolute (join (steps path)) = false := by
  unfold join
  cases hsteps : steps path with
  | nil => rfl
  | cons segment others =>
    have hmem : segment ∈ steps path := by
      rw [hsteps]
      exact List.mem_cons_self
    have hidle := not_isIdle_of_mem_steps hmem
    have hslash := slash_notMem_of_mem_steps hmem
    cases segment with
    | nil => cases hidle
    | cons b segment =>
      have hb : b ≠ Byte.slash := by
        intro hb
        exact hslash (hb ▸ List.mem_cons_self)
      cases others with
      | nil => simpa [isAbsolute] using hb
      | cons next others =>
        rw [List.intercalate_cons_cons]
        simpa [isAbsolute] using hb

theorem isAbsolute_display (path : Text) : isAbsolute (display path) = isAbsolute path := by
  rw [display_eq]
  by_cases habsolute : isAbsolute path = true
  · rw [if_pos habsolute, habsolute]
    rfl
  · have hrelative : isAbsolute path = false := by simpa using habsolute
    rw [if_neg habsolute, hrelative]
    by_cases hsteps : steps path = []
    · rw [if_pos hsteps]
      rfl
    · rw [if_neg hsteps]
      exact isAbsolute_join_steps path

/-- A displayed path is its steps, with a slash in front if it is
    absolute.  If there are no steps, it is a slash or a dot. -/
theorem exists_segments_display (path : Text) : ∃ idle, segments (display path) = idle ++ steps path ∧
    (∀ segment ∈ idle, isIdle segment = true) ∧
    (steps path ≠ [] → idle = if isAbsolute path then [[]] else []) := by
  have hjoin : steps path ≠ [] → segments (join (steps path)) = steps path := by
    intro hne
    exact segments_join hne fun _ hmem => slash_notMem_of_mem_steps hmem
  rw [display_eq]
  by_cases hsteps : steps path = []
  · rw [hsteps]
    by_cases habsolute : isAbsolute path = true
    · refine ⟨[[], []], ?_, by decide, fun hne => absurd rfl hne⟩
      rw [if_pos habsolute]
      rfl
    · refine ⟨[ascii "."], ?_, by decide, fun hne => absurd rfl hne⟩
      rw [if_neg habsolute, if_pos rfl]
      rfl
  · by_cases habsolute : isAbsolute path = true
    · refine ⟨[[]], ?_, by decide, fun _ => (if_pos habsolute).symm⟩
      rw [if_pos habsolute, segments_slash_cons, hjoin hsteps]
      rfl
    · refine ⟨[], ?_, nofun, fun _ => (if_neg habsolute).symm⟩
      rw [if_neg habsolute, if_neg hsteps, hjoin hsteps]
      rfl

theorem segments_display (h : steps path ≠ []) :
    segments (display path) = (if isAbsolute path then [[]] else []) ++ steps path := by
  obtain ⟨idle, hsegments, _, hidle⟩ := exists_segments_display path
  rw [hsegments, hidle h]

theorem steps_display (path : Text) : steps (display path) = steps path := by
  obtain ⟨idle, hsegments, hidle, _⟩ := exists_segments_display path
  have hnone : idle.filter (!isIdle ·) = [] := by
    apply List.filter_eq_nil_iff.mpr
    intro segment hmem
    simp [hidle segment hmem]
  unfold steps
  rw [hsegments, List.filter_append, hnone, List.nil_append]
  exact filter_steps path

/-- A displayed path is displayed as itself. -/
theorem display_display (path : Text) : display (display path) = display path := by
  rw [display_eq, steps_display, isAbsolute_display, ← display_eq]

/-! ## Section 3: Names -/

/-- A name that a directory can have an entry for. -/
structure IsName (name : Text) : Prop where
  nonempty : name ≠ []
  noSlash : Byte.slash ∉ name
  not_dot : name ≠ ascii "."
  not_parent : name ≠ ascii ".."

theorem IsName.not_isIdle (h : IsName name) : isIdle name = false := by
  simp [isIdle, h.nonempty, h.not_dot]

theorem IsName.steps_child (h : IsName name) (directory : Text) :
    steps (child directory name) = steps directory ++ [name] := by
  unfold steps
  rw [segments_child directory h.noSlash, List.filter_append]
  simp [h.not_isIdle]

/-- Different entries of a directory are displayed differently. -/
theorem IsName.eq_of_display_child {other : Text} (h : IsName name) (h' : IsName other)
    (heq : display (child directory name) = display (child directory other)) : name = other := by
  have hsteps := congrArg steps heq
  rw [steps_display, steps_display, h.steps_child, h'.steps_child] at hsteps
  simpa using hsteps

theorem isAbsolute_child (h : directory ≠ []) (name : Text) :
    isAbsolute (child directory name) = isAbsolute directory := by
  cases directory with
  | nil => exact absurd rfl h
  | cons b directory => rfl

end Path

/-! ## Section 4: Lookup -/

/-- The entries of every directory are a finite map from names to nodes. -/
inductive Node.WellFormed : Node → Prop where
  | file (content : Text) : WellFormed (.file content)
  | other : WellFormed .other
  | directory {entries : List (Text × Node)} (hkeys : (entries.map (·.1)).Nodup)
      (hnames : ∀ entry ∈ entries, Path.IsName entry.1)
      (hnodes : ∀ entry ∈ entries, WellFormed entry.2) : WellFormed (.directory entries)

/-- The entries of a finite map are what a lookup finds. -/
theorem Node.lookup_of_mem {entries : List (Text × Node)} {name : Text} {node : Node}
    (hkeys : (entries.map (·.1)).Nodup) (hmem : (name, node) ∈ entries) :
    entries.lookup name = some node := by
  obtain ⟨front, behind, rfl⟩ := List.append_of_mem hmem
  apply List.lookup_eq_some_iff.mpr
  refine ⟨front, behind, rfl, ?_⟩
  intro entry hentry
  have hne : name ≠ entry.1 := by
    rw [List.map_append, List.map_cons] at hkeys
    have hdisjoint := (List.nodup_append.mp hkeys).2.2
    intro heq
    exact hdisjoint _ (List.mem_map_of_mem hentry) _ List.mem_cons_self heq.symm
  simpa using hne

namespace FileTree

open StyleCheck.Path

variable {t : FileTree} {path name segment : Text} {segments idle : List Text}
  {place base : Place} {node : Node} {entries : List (Text × Node)} {outer : List Node}

/-- Only directories are gone further from. -/
theorem exists_entries_of_enter (h : enter place segment = some base) :
    ∃ entries, place.1.entries? = some entries := by
  cases hentries : place.1.entries? with
  | none => simp [enter, hentries] at h
  | some entries => exact ⟨entries, rfl⟩

theorem enter_idle (hentries : place.1.entries? = some entries) (hidle : isIdle segment = true) :
    enter place segment = some place := by
  simp [enter, hentries, hidle]

theorem enter_name (h : IsName name) (hnode : entries.lookup name = some node) :
    enter (.directory entries, outer) name = some (node, .directory entries :: outer) := by
  simp [enter, Node.entries?, h.not_isIdle, h.not_parent, hnode]

theorem enter_parent (parent : Node) :
    enter (.directory entries, parent :: outer) (ascii "..") = some (parent, outer) := rfl

theorem enter_parent_root :
    enter (.directory entries, []) (ascii "..") = some (.directory entries, []) := rfl

theorem foldlM_enter_idle (hentries : place.1.entries? = some entries)
    (hidle : ∀ segment ∈ idle, isIdle segment = true) : idle.foldlM enter place = some place := by
  induction idle with
  | nil => rfl
  | cons segment idle ih =>
    obtain ⟨hsegment, hothers⟩ := List.forall_mem_cons.mp hidle
    rw [List.foldlM_cons, enter_idle hentries hsegment]
    exact ih hothers

/-- Idle segments can be left out. -/
theorem foldlM_enter_filter (h : segments.foldlM enter place = some base) :
    (segments.filter (!isIdle ·)).foldlM enter place = some base := by
  induction segments generalizing place with
  | nil => exact h
  | cons segment segments ih =>
    rw [List.foldlM_cons] at h
    obtain ⟨next, henter, hbehind⟩ := Option.bind_eq_some_iff.mp h
    by_cases hidle : isIdle segment = true
    · obtain ⟨entries, hentries⟩ := exists_entries_of_enter henter
      rw [enter_idle hentries hidle] at henter
      obtain rfl := Option.some.inj henter
      rw [List.filter_cons_of_neg (by simpa using hidle)]
      exact ih hbehind
    · rw [List.filter_cons_of_pos (by simpa using hidle), List.foldlM_cons, henter]
      exact ih hbehind

/-- The path leads to the place. -/
structure Leads (t : FileTree) (path : Text) (place : Place) : Prop where
  nonempty : path ≠ []
  reached : ∃ base, t.start path = some base ∧ (Path.segments path).foldlM enter base = some place

theorem find?_eq_some_iff : t.find? path = some node ↔ ∃ outer, t.Leads path (node, outer) := by
  unfold find?
  by_cases hpath : path = []
  · rw [if_pos hpath]
    constructor
    · nofun
    · intro ⟨_, hleads⟩
      exact absurd hpath hleads.nonempty
  · rw [if_neg hpath]
    constructor
    · intro h
      obtain ⟨base, hbase, h⟩ := Option.bind_eq_some_iff.mp h
      obtain ⟨⟨found, outer⟩, hplace, hnode⟩ := Option.bind_eq_some_iff.mp h
      obtain rfl := Option.some.inj hnode
      exact ⟨outer, hpath, base, hbase, hplace⟩
    · intro ⟨outer, _, base, hbase, hplace⟩
      simp [hbase, hplace]

namespace Leads

theorem find? (h : t.Leads path (node, outer)) : t.find? path = some node :=
  find?_eq_some_iff.mpr ⟨outer, h⟩

/-- The displayed path leads to the same place. -/
theorem display (h : t.Leads path place) : t.Leads (display path) place := by
  obtain ⟨base, hbase, hplace⟩ := h.reached
  obtain ⟨idle, hsegments, hidle, _⟩ := exists_segments_display path
  have hnonempty : Path.display path ≠ [] := by
    intro hnil
    have hsame := display_display path
    rw [hnil] at hsame
    cases hsame
  -- There is a first segment, so the lookup starts at a directory.
  have ⟨entries, hentries⟩ : ∃ entries, base.1.entries? = some entries := by
    cases hall : Path.segments path with
    | nil => exact absurd hall (segments_ne_nil path)
    | cons segment others =>
      rw [hall, List.foldlM_cons] at hplace
      obtain ⟨_, henter, _⟩ := Option.bind_eq_some_iff.mp hplace
      exact exists_entries_of_enter henter
  refine ⟨hnonempty, base, ?_, ?_⟩
  · unfold start at hbase ⊢
    rw [isAbsolute_display]
    exact hbase
  · rw [hsegments, List.foldlM_append, foldlM_enter_idle hentries hidle]
    exact foldlM_enter_filter hplace

theorem child (h : t.Leads path (.directory entries, outer)) (hname : IsName name)
    (hnode : entries.lookup name = some node) :
    t.Leads (child path name) (node, .directory entries :: outer) := by
  obtain ⟨base, hbase, hplace⟩ := h.reached
  refine ⟨by simp [Path.child], base, ?_, ?_⟩
  · unfold start at hbase ⊢
    rw [isAbsolute_child h.nonempty]
    exact hbase
  · rw [segments_child path hname.noSlash, List.foldlM_append, hplace]
    show [name].foldlM enter (Node.directory entries, outer) = _
    rw [List.foldlM_cons, enter_name hname hnode]
    rfl

/-- A regular file is behind at least one step. -/
theorem steps_ne_nil {content : Text} (h : t.Leads path (.file content, outer)) :
    steps path ≠ [] := by
  intro hnone
  obtain ⟨base, hbase, hplace⟩ := h.reached
  have hdirectory : base = (.file content, outer) := by
    have hfiltered := foldlM_enter_filter hplace
    change (steps path).foldlM enter base = _ at hfiltered
    rw [hnone] at hfiltered
    exact Option.some.inj hfiltered
  cases hall : Path.segments path with
  | nil => exact segments_ne_nil path hall
  | cons segment others =>
    rw [hall, List.foldlM_cons, hdirectory] at hplace
    cases hplace

end Leads

/-! ## Section 5: Well-formed trees -/

/-- The node of a place is well-formed, and so are the directories on the
    way to it. -/
def Place.WellFormed (place : Place) : Prop :=
  place.1.WellFormed ∧ ∀ node ∈ place.2, node.WellFormed

theorem enter_wellFormed (hplace : Place.WellFormed place) (h : enter place segment = some base) :
    Place.WellFormed base := by
  obtain ⟨node, outer⟩ := place
  obtain ⟨hnode, houter⟩ := hplace
  obtain ⟨entries, hentries⟩ := exists_entries_of_enter h
  cases hnode with
  | file | other => cases hentries
  | @directory entries hkeys hnames hnodes =>
    have hhere : Node.WellFormed (.directory entries) := .directory hkeys hnames hnodes
    by_cases hidle : isIdle segment = true
    · rw [enter_idle rfl hidle] at h
      obtain rfl := Option.some.inj h
      exact ⟨hhere, houter⟩
    by_cases hparent : segment = ascii ".."
    -- The parent is the next directory outwards.
    · subst hparent
      cases outer with
      | nil =>
        rw [enter_parent_root] at h
        obtain rfl := Option.some.inj h
        exact ⟨hhere, houter⟩
      | cons parent outer =>
        rw [enter_parent] at h
        obtain rfl := Option.some.inj h
        exact List.forall_mem_cons.mp houter
    · obtain ⟨node, hlookup, rfl⟩ :
          ∃ node, entries.lookup segment = some node ∧ (node, .directory entries :: outer) = base := by
        simpa [enter, Node.entries?, hidle, hparent, Option.bind_eq_some_iff] using h
      obtain ⟨front, behind, hsplit, _⟩ := List.lookup_eq_some_iff.mp hlookup
      have hmem : (segment, node) ∈ entries := by simp [hsplit]
      exact ⟨hnodes _ hmem, List.forall_mem_cons.mpr ⟨hhere, houter⟩⟩

theorem foldlM_enter_wellFormed (hplace : Place.WellFormed place)
    (h : segments.foldlM enter place = some base) : Place.WellFormed base := by
  induction segments generalizing place with
  | nil =>
    obtain rfl := Option.some.inj h
    exact hplace
  | cons segment segments ih =>
    rw [List.foldlM_cons] at h
    obtain ⟨next, henter, hbehind⟩ := Option.bind_eq_some_iff.mp h
    exact ih (enter_wellFormed hplace henter) hbehind

/-- All that can be reached in a well-formed tree is well-formed. -/
theorem Leads.wellFormed (h : t.Leads path place) (hroot : t.root.WellFormed) :
    Place.WellFormed place := by
  obtain ⟨base, hbase, hplace⟩ := h.reached
  have htop : Place.WellFormed (t.root, []) := ⟨hroot, nofun⟩
  have hstart : Place.WellFormed base := by
    unfold start at hbase
    split at hbase
    case isTrue =>
      obtain rfl := Option.some.inj hbase
      exact htop
    case isFalse => exact foldlM_enter_wellFormed htop hbase
  exact foldlM_enter_wellFormed hstart hplace

end FileTree

end StyleCheck
