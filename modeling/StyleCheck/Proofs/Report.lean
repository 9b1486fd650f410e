import StyleCheck.Report

/-! # Findings by Path

    `findingsFor` is the view of a report: what it gives for a path is
    all that adding findings changes, and only for the path they are
    added for.  That no entry for the path can stand behind a greater
    one is what makes the first entry found the right one.
-/

namespace StyleCheck

namespace Report

variable {path other : Text} {findings : List Finding} {entries : List (Text × List Finding)}

/-- A path below all others has no entry. -/
theorem lookup_eq_none (h : ∀ entry ∈ entries, path < entry.1) : entries.lookup path = none := by
  rw [List.lookup_eq_none_iff]
  intro entry hmem
  have hne : path ≠ entry.1 := by
    intro heq
    exact List.lt_irrefl path (heq ▸ h entry hmem)
  simpa using hne

theorem lookup_insert_self (h : entries.Pairwise (·.1 < ·.1)) :
    (insert path findings entries).lookup path =
      some ((entries.lookup path).getD [] ++ findings) := by
  induction entries with
  | nil => simp [insert]
  | cons entry entries ih =>
    have ⟨hhead, htail⟩ := List.pairwise_cons.mp h
    unfold insert
    by_cases heq : path = entry.1
    · rw [if_pos heq, List.lookup_cons, List.lookup_cons]
      simp [← heq]
    · rw [if_neg heq]
      have hbeq : (path == entry.1) = false := by simpa using heq
      -- Before a greater path the entry is new: those behind are greater still.
      by_cases hlt : path < entry.1
      · have hbelow : ∀ e ∈ entry :: entries, path < e.1 := by
          intro e he
          rcases List.mem_cons.mp he with rfl | he
          · exact hlt
          · exact List.lt_trans hlt (hhead e he)
        rw [if_pos hlt, lookup_eq_none hbelow]
        simp
      · rw [if_neg hlt, List.lookup_cons, List.lookup_cons, hbeq]
        exact ih htail

theorem lookup_insert_of_ne (hne : other ≠ path) :
    (insert path findings entries).lookup other = entries.lookup other := by
  have hbeq : (other == path) = false := by simpa using hne
  induction entries with
  | nil => simp [insert, List.lookup_cons, hbeq]
  | cons entry entries ih =>
    unfold insert
    by_cases heq : path = entry.1
    · rw [if_pos heq, List.lookup_cons, List.lookup_cons, ← heq]
      simp [hbeq]
    · rw [if_neg heq]
      by_cases hlt : path < entry.1
      · rw [if_pos hlt, List.lookup_cons]
        simp [hbeq]
      · rw [if_neg hlt, List.lookup_cons, List.lookup_cons, ih]

/-- The findings added for a path come behind those it had. -/
@[simp] theorem findingsFor_append_self (r : Report) (path : Text) (findings : List Finding) :
    (r.append path findings).findingsFor path = r.findingsFor path ++ findings := by
  unfold append
  split
  case isTrue h => rw [h, List.append_nil]
  case isFalse =>
    unfold findingsFor
    rw [lookup_insert_self r.ordered]
    rfl

/-- The findings of every other path stay as they are. -/
theorem findingsFor_append_of_ne (r : Report) (findings : List Finding) (hne : other ≠ path) :
    (r.append path findings).findingsFor other = r.findingsFor other := by
  unfold append
  split
  case isTrue => rfl
  case isFalse =>
    unfold findingsFor
    rw [lookup_insert_of_ne hne]

/-- A report is what it has on its files. -/
theorem eq_of_entries {r r' : Report} (h : r.entries = r'.entries) : r = r' := by
  obtain ⟨entries, ordered, nonempty⟩ := r
  obtain ⟨entries', ordered', nonempty'⟩ := r'
  obtain rfl : entries = entries' := h
  rfl

theorem entries_append {r : Report} (h : findings ≠ []) :
    (r.append path findings).entries = insert path findings r.entries := by
  unfold append
  rw [dif_neg h]

theorem append_nil (r : Report) (path : Text) : r.append path [] = r := dif_pos rfl

theorem insert_insert (more : List Finding) :
    insert path more (insert path findings entries) = insert path (findings ++ more) entries := by
  induction entries with
  | nil => simp [insert]
  | cons entry entries ih =>
    by_cases heq : path = entry.1
    · simp [insert, heq, List.append_assoc]
    · by_cases hlt : path < entry.1
      · simp [insert, heq, hlt]
      · simp [insert, heq, hlt, ih]

/-- What is added for a path at two times could be added at once. -/
theorem append_append (r : Report) (path : Text) (findings more : List Finding) :
    (r.append path findings).append path more = r.append path (findings ++ more) := by
  by_cases hfindings : findings = []
  · rw [hfindings, append_nil, List.nil_append]
  by_cases hmore : more = []
  · rw [hmore, append_nil, List.append_nil]
  apply eq_of_entries
  rw [entries_append hmore, entries_append hfindings, entries_append (by simp [hfindings]),
    insert_insert]

end Report

end StyleCheck
