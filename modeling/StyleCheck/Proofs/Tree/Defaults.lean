import Mathlib.Data.List.Flatten
import StyleCheck.Proofs.Tree.LevelOrder

/-! # The Switch for Defaults

    The tree rules look at the first default of a function, or at all of
    them if a switch is on.  Which statements a walk visits does not depend
    on the switch, so two walks over one module are compared statement by
    statement.

    * `Stmt.SharesDefault`: the functions that have a default to report.
    * `ownFindings_sublist`, `ownFindings_filter`, `ownFindings_countP`: a
      single statement, with the switch on and off.
    * `visited_perm`: a walk visits every statement once.
    * `treeFindings_switched`: what the switch changes for a source.
-/

namespace StyleCheck

/-! ## Section 1: Findings about defaults -/

/-- A finding about the default of a parameter. -/
def Finding.isAboutDefault (f : Finding) : Bool := f.rule == .mutableDefault

/-- A function that is no coroutine, with a default among those that count
    that is no constant: among all of them, or only the first. -/
def Stmt.SharesDefault (allDefaults : Bool) : Stmt → Prop
  | functionDef _ false _ params _ =>
    ∃ e ∈ Placed.countedDefaults allDefaults params, e.form ≠ .constant
  | functionDef _ true _ _ _ | classDef .. | assign .. | simple .. | block .. => False

instance (allDefaults : Bool) : DecidablePred (Stmt.SharesDefault allDefaults)
  | .functionDef _ false _ params _ =>
    inferInstanceAs (Decidable (∃ e ∈ Placed.countedDefaults allDefaults params, _))
  | .functionDef _ true _ _ _ | .classDef .. | .assign .. | .simple .. | .block .. =>
    inferInstanceAs (Decidable False)

/-! ## Section 2: Single statements -/

/-- The first default is one of them all. -/
theorem Parameters.hasMutableDefault_mono (params : Parameters)
    (h : params.hasMutableDefault false = true) : params.hasMutableDefault true = true := by
  unfold hasMutableDefault at h ⊢
  cases hdefaults : params.defaults with
  | nil => simp [hdefaults] at h
  | cons e es =>
    have he : e.isMutable = true := by simpa [hdefaults] using h
    simp [he]

namespace Stmt

variable (inFunction : Bool) (s : Stmt)

/-- With the switch on, a statement is reported for nothing less. -/
theorem ownFindings_sublist :
    (s.ownFindings false inFunction).Sublist (s.ownFindings true inFunction) := by
  cases s with
  | functionDef line isAsync name params body =>
    cases isAsync with
    | true => exact List.Sublist.refl _
    | false =>
      show (params.findings false line).Sublist (params.findings true line)
      unfold Parameters.findings
      apply List.Sublist.append (List.Sublist.refl _)
      -- The finding about a default is there, or it is added.
      by_cases hfirst : params.hasMutableDefault false = true
      · have hall := params.hasMutableDefault_mono hfirst
        simp [hfirst, hall]
      · rw [if_neg hfirst]
        exact List.nil_sublist _
  | classDef => exact List.Sublist.refl _
  | assign => exact List.Sublist.refl _
  | simple => exact List.Sublist.refl _
  | block => exact List.Sublist.refl _

/-- All else that it is reported for is the same. -/
theorem ownFindings_filter (allDefaults : Bool) :
    (s.ownFindings allDefaults inFunction).filter (!·.isAboutDefault) =
      (s.ownFindings false inFunction).filter (!·.isAboutDefault) := by
  cases s with
  | functionDef line isAsync name params body =>
    cases isAsync with
    | true => rfl
    | false =>
      have hnone : ∀ all : Bool,
          (if params.hasMutableDefault all then [(⟨line, .mutableDefault⟩ : Finding)] else []).filter
            (!·.isAboutDefault) = [] := by
        intro all
        split <;> rfl
      show (params.findings allDefaults line).filter _ = (params.findings false line).filter _
      unfold Parameters.findings
      rw [List.filter_append, List.filter_append, hnone, hnone]
  | classDef => rfl
  | assign => rfl
  | simple => rfl
  | block => rfl

/-- A statement is reported for its defaults once, if it has one to report. -/
theorem ownFindings_countP (allDefaults : Bool) :
    (s.ownFindings allDefaults inFunction).countP Finding.isAboutDefault =
      if s.SharesDefault allDefaults then 1 else 0 := by
  have hnone : ∀ findings : List Finding, (∀ f ∈ findings, f.rule ≠ .mutableDefault) →
      findings.countP Finding.isAboutDefault = 0 := by
    intro findings h
    apply List.countP_eq_zero.mpr
    intro f hf
    simpa [Finding.isAboutDefault] using h f hf
  cases s with
  | functionDef line isAsync name params body =>
    cases isAsync with
    | true => rfl
    | false =>
      show (params.findings allDefaults line).countP _ =
        if ∃ e ∈ Placed.countedDefaults allDefaults params, e.form ≠ .constant then 1 else 0
      have hnames : ((params.regular.filter Text.hasUpper).map fun _ =>
          (⟨line, .argumentName⟩ : Finding)).countP Finding.isAboutDefault = 0 := by
        apply hnone
        intro f hf
        obtain ⟨_, _, rfl⟩ := List.mem_map.mp hf
        simp
      unfold Parameters.findings
      rw [List.countP_append, hnames, Nat.zero_add]
      simp only [Placed.exists_counted_iff]
      split <;> rfl
  | assign line targets value =>
    apply hnone
    intro f hf
    change f ∈ if inFunction then _ else _ at hf
    split at hf
    · obtain ⟨_, _, rfl⟩ := List.mem_map.mp hf
      simp
    · cases hf
  | classDef => rfl
  | simple => rfl
  | block => rfl

end Stmt

/-! ## Section 3: Whole walks -/

theorem countP_flatMap_of_ite {α β : Type} {f : α → List β} {p : β → Bool} {q : α → Prop}
    [DecidablePred q] (h : ∀ x, (f x).countP p = if q x then 1 else 0) (xs : List α) :
    (xs.flatMap f).countP p = xs.countP (q ·) := by
  induction xs with
  | nil => rfl
  | cons x xs ih =>
    rw [List.flatMap_cons, List.countP_append, ih, h, List.countP_cons, Nat.add_comm]
    simp

namespace Module

variable (m : Module)

/-- A walk reports what it visits, and the switch is looked at only there. -/
theorem findings_eq_flatMap (allDefaults : Bool) :
    m.findings allDefaults = m.visited.flatMap (·.findings allDefaults) :=
  walkQueue_eq_flatMap allDefaults _ _

/-- Every statement is visited once. -/
theorem visited_perm : (m.visited.map (·.stmt)).Perm (nodes m) := by
  have hvisited : m.visited = (visits (Stmt.sizeAll m) m.placed).map Placed.pending :=
    visitQueue_eq_map _ m.queued_queue
  have hperm := visits_perm_preorder (Nat.le_of_eq m.totalSize_placed)
  have hpreorder : (m.placed.flatMap fun p => p.stmt.preorder p.ancestors) =
      Stmt.preorderAll [] m := (Stmt.preorderAll_eq [] m).symm
  rw [hpreorder] at hperm
  rw [hvisited, List.map_map]
  exact hperm.map _

/-- With the switch off and on: nothing is lost, all but the findings about
    defaults is the same, and these are counted by the nodes. -/
theorem findings_switched :
    (m.findings false).Sublist (m.findings true) ∧
    (m.findings false).filter (!·.isAboutDefault) = (m.findings true).filter (!·.isAboutDefault) ∧
    ∀ allDefaults, (m.findings allDefaults).countP Finding.isAboutDefault =
      (nodes m).countP (Stmt.SharesDefault allDefaults ·) := by
  refine ⟨?_, ?_, ?_⟩
  · rw [findings_eq_flatMap, findings_eq_flatMap]
    apply List.Sublist.flatMap_right
    intro p _
    exact p.stmt.ownFindings_sublist p.inFunction
  · rw [findings_eq_flatMap, findings_eq_flatMap, List.filter_flatMap, List.filter_flatMap]
    congr 1
    funext p
    exact (p.stmt.ownFindings_filter p.inFunction true).symm
  · intro allDefaults
    rw [findings_eq_flatMap, ← m.visited_perm.countP_eq, List.countP_map]
    apply countP_flatMap_of_ite
    intro p
    exact p.stmt.ownFindings_countP p.inFunction allDefaults

end Module

/-- **The switch for defaults only adds findings about defaults.**  With the
    switch off and on the same sources are rejected, with the same errors.
    Where a source is accepted, what is found with the switch off is found in
    the same order with the switch on; apart from findings about defaults
    (`S012`) the two lists are equal; and these are as many as there are
    functions in the tree, coroutines aside, that have a default that is no
    constant with the switch on, and whose first default is no constant with
    the switch off. -/
theorem treeFindings_switched (source : Text) :
    (∃ e, Module.ofSource source = .error e ∧
      ∀ allDefaults, treeFindings allDefaults source = .error e) ∨
    ∃ m off on, Module.ofSource source = .ok m ∧ treeFindings false source = .ok off ∧
      treeFindings true source = .ok on ∧ off.Sublist on ∧
      off.filter (!·.isAboutDefault) = on.filter (!·.isAboutDefault) ∧
      off.countP Finding.isAboutDefault = (nodes m).countP (Stmt.SharesDefault false ·) ∧
      on.countP Finding.isAboutDefault = (nodes m).countP (Stmt.SharesDefault true ·) := by
  cases hread : Module.ofSource source with
  | error e =>
    left
    refine ⟨e, rfl, ?_⟩
    intro allDefaults
    unfold treeFindings
    rw [hread]
    rfl
  | ok m =>
    right
    have hfindings : ∀ allDefaults,
        treeFindings allDefaults source = .ok (m.findings allDefaults) := by
      intro allDefaults
      unfold treeFindings
      rw [hread]
      rfl
    obtain ⟨hsublist, hothers, hcount⟩ := m.findings_switched
    exact ⟨m, _, _, rfl, hfindings false, hfindings true, hsublist, hothers, hcount false,
      hcount true⟩

end StyleCheck
