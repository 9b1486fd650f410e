import StyleCheck.Proofs.Report
import StyleCheck.TreeRules

/-! # Level Order

    The walk over a module takes statements from a queue.  This module
    compares it with the tree itself: with the statements at depth 0,
    then those at depth 1, and so on, from left to right, each reported
    for what it is and for the statements that it is nested in.

    * `visits_eq_levels`: a queue that is served from its front visits
      the levels one after the other.
    * `visits_perm_preorder`: it visits every statement once.
    * `findings_eq_levelOrder`: the findings of a module, in both forms.
-/

namespace StyleCheck

/-! ## Section 1: Statements in their place -/

/-- A statement with the statements it is nested in, innermost first. -/
structure Placed where
  stmt : Stmt
  ancestors : List Stmt

namespace Stmt

/-- Functions and classes are definitions. -/
def isDefinition : Stmt → Bool
  | functionDef .. | classDef .. => true
  | assign .. | simple .. | block .. => false

/-- A function, be it a coroutine or not. -/
def isFunction : Stmt → Bool
  | functionDef .. => true
  | classDef .. | assign .. | simple .. | block .. => false

end Stmt

/-- One of the bytes from `A` to `Z` occurs. -/
def Text.HasCapital (t : Text) : Prop := ∃ b ∈ t, 0x41 ≤ b ∧ b ≤ 0x5A

instance (t : Text) : Decidable t.HasCapital := by
  unfold Text.HasCapital
  infer_instance

namespace Placed

/-- There is an enclosing definition, and the nearest is a function. -/
def InFunction (p : Placed) : Prop :=
  ∃ definition, p.ancestors.find? Stmt.isDefinition = some definition ∧ definition.isFunction

instance (p : Placed) : Decidable p.InFunction :=
  decidable_of_iff ((p.ancestors.find? Stmt.isDefinition).any Stmt.isFunction) (by
    unfold InFunction
    cases p.ancestors.find? Stmt.isDefinition <;> simp)

/-- The defaults of a function that count: all of them, or the first. -/
def countedDefaults (allDefaults : Bool) (params : Parameters) : List Expr :=
  if allDefaults then params.defaults else params.defaults.take 1

/-- What a statement is reported for where it stands. -/
def findings (allDefaults : Bool) (p : Placed) : List Finding :=
  match p.stmt with
  | .functionDef line false _ params _ =>
    (params.regular.flatMap fun name =>
      if name.HasCapital then [⟨line, .argumentName⟩] else []) ++
    if ∃ e ∈ countedDefaults allDefaults params, e.form ≠ .constant then
      [⟨line, .mutableDefault⟩]
    else []
  | .functionDef _ true _ _ _ => []
  | .assign line targets _ =>
    if p.InFunction then
      targets.flatMap fun target =>
        match target.form with
        | .name identifier => if identifier.HasCapital then [⟨line, .variableName⟩] else []
        | _ => []
    else []
  | .classDef .. | .simple .. | .block .. => []

/-- The statements directly below a statement. -/
def below (p : Placed) : List Placed := p.stmt.children.map (⟨·, p.stmt :: p.ancestors⟩)

/-- The statements `depth` levels below a statement, from left to right. -/
def atDepth : (depth : Nat) → Placed → List Placed
  | 0, p => [p]
  | depth + 1, p => p.below.flatMap (atDepth depth)

end Placed

mutual

/-- The number of levels of a tree. -/
def Stmt.height : Stmt → Nat
  | .functionDef _ _ _ _ body => Stmt.heightAll body + 1
  | .classDef _ _ body => Stmt.heightAll body + 1
  | .block _ _ children => Stmt.heightAll children + 1
  | .assign .. => 1
  | .simple .. => 1

/-- The number of levels of the highest of several trees. -/
def Stmt.heightAll : List Stmt → Nat
  | [] => 0
  | stmt :: stmts => max stmt.height (Stmt.heightAll stmts)

end

mutual

/-- A statement, and then everything below it, child by child. -/
def Stmt.preorder (ancestors : List Stmt) : Stmt → List Placed
  | stmt@(.functionDef _ _ _ _ body) =>
    ⟨stmt, ancestors⟩ :: Stmt.preorderAll (stmt :: ancestors) body
  | stmt@(.classDef _ _ body) => ⟨stmt, ancestors⟩ :: Stmt.preorderAll (stmt :: ancestors) body
  | stmt@(.block _ _ children) =>
    ⟨stmt, ancestors⟩ :: Stmt.preorderAll (stmt :: ancestors) children
  | stmt@(.assign ..) => [⟨stmt, ancestors⟩]
  | stmt@(.simple ..) => [⟨stmt, ancestors⟩]

/-- Several trees, one after the other. -/
def Stmt.preorderAll (ancestors : List Stmt) : List Stmt → List Placed
  | [] => []
  | stmt :: stmts => stmt.preorder ancestors ++ Stmt.preorderAll ancestors stmts

end

mutual

/-- What a statement is nested in does not matter for what is below it. -/
theorem Stmt.preorder_stmts (ancestors : List Stmt) : ∀ stmt : Stmt,
    (stmt.preorder ancestors).map (·.stmt) = (stmt.preorder []).map (·.stmt)
  | .functionDef .. => by
    simp only [Stmt.preorder, List.map_cons, Stmt.preorderAll_stmts (_ :: _)]
  | .classDef .. => by simp only [Stmt.preorder, List.map_cons, Stmt.preorderAll_stmts (_ :: _)]
  | .block .. => by simp only [Stmt.preorder, List.map_cons, Stmt.preorderAll_stmts (_ :: _)]
  | .assign .. => rfl
  | .simple .. => rfl

theorem Stmt.preorderAll_stmts (ancestors : List Stmt) : ∀ stmts : List Stmt,
    (Stmt.preorderAll ancestors stmts).map (·.stmt) = (Stmt.preorderAll [] stmts).map (·.stmt)
  | [] => rfl
  | stmt :: stmts => by
    rw [Stmt.preorderAll, Stmt.preorderAll, List.map_append, List.map_append,
      Stmt.preorder_stmts ancestors stmt, Stmt.preorderAll_stmts ancestors stmts]

end

/-- The statements of some trees, each before what is below it. -/
def nodes (stmts : List Stmt) : List Stmt := (Stmt.preorderAll [] stmts).map (·.stmt)

theorem nodes_cons (stmt : Stmt) (stmts : List Stmt) :
    nodes (stmt :: stmts) = stmt :: (nodes stmt.children ++ nodes stmts) := by
  have hbelow : (stmt.preorder []).map (·.stmt) = stmt :: nodes stmt.children := by
    cases stmt with
    | functionDef | classDef | block =>
      simp only [Stmt.preorder, List.map_cons, Stmt.preorderAll_stmts (_ :: _)]
      rfl
    | assign | simple => rfl
  unfold nodes
  rw [Stmt.preorderAll, List.map_append, hbelow]
  rfl

@[simp] theorem nodes_nil : nodes [] = [] := rfl

theorem nodes_append (stmts others : List Stmt) :
    nodes (stmts ++ others) = nodes stmts ++ nodes others := by
  induction stmts with
  | nil => rfl
  | cons stmt stmts ih =>
    rw [List.cons_append, nodes_cons, nodes_cons, ih, List.cons_append, List.append_assoc]

theorem nodes_singleton (stmt : Stmt) : nodes [stmt] = stmt :: nodes stmt.children := by
  rw [nodes_cons, nodes_nil, List.append_nil]

namespace Module

/-- The statements of a module itself, which are nested in none. -/
def placed (m : Module) : List Placed := m.map (⟨·, []⟩)

/-- The statements of a module at a depth, from left to right. -/
def atDepth (m : Module) (depth : Nat) : List Placed := m.placed.flatMap (Placed.atDepth depth)

/-- The levels of a module above a depth, from the top. -/
def levels (m : Module) (depth : Nat) : List Placed := (List.range depth).flatMap m.atDepth

end Module

/-! ## Section 2: Statements to be visited -/

namespace Placed

/-- What the queue keeps of a statement in its place. -/
def pending (p : Placed) : Pending := ⟨p.stmt, p.InFunction⟩

theorem hasCapital_iff {t : Text} : t.HasCapital ↔ t.hasUpper = true := by
  unfold Text.HasCapital Text.hasUpper Byte.isUpper
  simp [List.any_eq_true]

/-- A list in which each element that passes adds the same finding. -/
theorem flatMap_ite_singleton {α : Type} (passes : α → Bool) (finding : Finding) (xs : List α) :
    (xs.flatMap fun x => if passes x then [finding] else []) =
      (xs.filter passes).map fun _ => finding := by
  induction xs with
  | nil => rfl
  | cons x xs ih =>
    rw [List.flatMap_cons, ih, List.filter_cons]
    split <;> simp

theorem exists_counted_iff (allDefaults : Bool) (params : Parameters) :
    (∃ e ∈ countedDefaults allDefaults params, e.form ≠ .constant) ↔
      params.hasMutableDefault allDefaults = true := by
  unfold countedDefaults Parameters.hasMutableDefault
  cases allDefaults with
  | true => simp [List.any_eq_true, Expr.isMutable]
  | false =>
    cases params.defaults with
    | nil => simp
    | cons e es => simp [Expr.isMutable]

/-- The queue reports a statement for what it is reported for where it
    stands. -/
theorem findings_pending (allDefaults : Bool) (p : Placed) :
    p.pending.findings allDefaults = p.findings allDefaults := by
  obtain ⟨stmt, ancestors⟩ := p
  unfold Pending.findings pending
  cases stmt with
  | functionDef line isAsync name params body =>
    cases isAsync with
    | true => rfl
    | false =>
      simp only [findings, Stmt.ownFindings, Parameters.findings, hasCapital_iff,
        exists_counted_iff, flatMap_ite_singleton, Bool.false_eq_true, if_false]
  | assign line targets value =>
    -- A target is reported for its form, and only names have one that is.
    have hform : ∀ target : Expr,
        (match target.form with
          | .name identifier =>
            if identifier.HasCapital then [(⟨line, .variableName⟩ : Finding)] else []
          | _ => []) =
          if Stmt.isMisnamed target then [⟨line, .variableName⟩] else [] := by
      intro target
      unfold Stmt.isMisnamed
      cases target.form <;> simp [hasCapital_iff]
    simp only [findings, Stmt.ownFindings, hform, flatMap_ite_singleton, decide_eq_true_eq]
  | classDef line name body => rfl
  | simple line kind => rfl
  | block line kind children => rfl

/-- Going down, the scope changes at definitions only. -/
theorem inFunction_below (p : Placed) (stmt : Stmt) :
    InFunction ⟨stmt, p.stmt :: p.ancestors⟩ ↔
      p.stmt.opensFunctionScope (decide p.InFunction) = true := by
  obtain ⟨parent, ancestors⟩ := p
  cases parent with
  | functionDef => simp [InFunction, Stmt.isDefinition, Stmt.isFunction, Stmt.opensFunctionScope]
  | classDef => simp [InFunction, Stmt.isDefinition, Stmt.isFunction, Stmt.opensFunctionScope]
  -- Anything else is passed over when the nearest definition is looked for.
  | assign => exact decide_eq_true_iff.symm
  | simple => exact decide_eq_true_iff.symm
  | block => exact decide_eq_true_iff.symm

theorem pending_below (p : Placed) : p.below.map pending = p.pending.below := by
  unfold below Pending.below
  rw [List.map_map]
  apply List.map_congr_left
  intro stmt _
  have hscope : decide (InFunction ⟨stmt, p.stmt :: p.ancestors⟩) =
      p.stmt.opensFunctionScope (decide p.InFunction) := by
    rw [Bool.eq_iff_iff, decide_eq_true_eq]
    exact inFunction_below p stmt
  exact congrArg (Pending.mk stmt) hscope

end Placed

/-! ## Section 3: Sizes and heights -/

/-- The number of statements in and below statements in their place. -/
def totalSize (ps : List Placed) : Nat := Stmt.sizeAll (ps.map (·.stmt))

theorem Stmt.size_eq (s : Stmt) : s.size = Stmt.sizeAll s.children + 1 := by
  cases s <;> simp [Stmt.size, Stmt.children, Stmt.sizeAll]

theorem Stmt.height_eq (s : Stmt) : s.height = Stmt.heightAll s.children + 1 := by
  cases s <;> simp [Stmt.height, Stmt.children, Stmt.heightAll]

theorem Stmt.sizeAll_append (ss ts : List Stmt) :
    Stmt.sizeAll (ss ++ ts) = Stmt.sizeAll ss + Stmt.sizeAll ts := by
  induction ss with
  | nil => simp [Stmt.sizeAll]
  | cons s ss ih =>
    simp only [List.cons_append, Stmt.sizeAll, ih]
    omega

theorem Stmt.height_le_heightAll {s : Stmt} {ss : List Stmt} (h : s ∈ ss) :
    s.height ≤ Stmt.heightAll ss := by
  induction ss with
  | nil => cases h
  | cons t ss ih =>
    simp only [Stmt.heightAll]
    rcases List.mem_cons.mp h with rfl | h
    · omega
    · have := ih h
      omega

theorem totalSize_append (ps qs : List Placed) :
    totalSize (ps ++ qs) = totalSize ps + totalSize qs := by
  unfold totalSize
  rw [List.map_append, Stmt.sizeAll_append]

/-- A statement counts for one, and for what is below it. -/
theorem totalSize_cons (p : Placed) (ps : List Placed) :
    totalSize (p :: ps) = totalSize p.below + 1 + totalSize ps := by
  have hbelow : p.below.map (·.stmt) = p.stmt.children := by
    unfold Placed.below
    rw [List.map_map]
    exact List.map_id' _
  unfold totalSize
  rw [hbelow, List.map_cons, Stmt.sizeAll, Stmt.size_eq]

theorem totalSize_flatMap_below (ps : List Placed) :
    totalSize ps = ps.length + totalSize (ps.flatMap Placed.below) := by
  induction ps with
  | nil => rfl
  | cons p ps ih =>
    rw [totalSize_cons, List.flatMap_cons, totalSize_append, List.length_cons, ih]
    omega

/-! ## Section 4: Serving a list from its front -/

/-- The statements that are visited when those below the front of a list
    are put at its end. -/
def visits : (fuel : Nat) → List Placed → List Placed
  | 0, _ => []
  | _ + 1, [] => []
  | fuel + 1, p :: rest => p :: visits fuel (rest ++ p.below)

/-- Statements that stand at the front are visited before all that is
    below them. -/
theorem visits_append (fuel : Nat) (ps rest : List Placed) :
    visits (ps.length + fuel) (ps ++ rest) =
      ps ++ visits fuel (rest ++ ps.flatMap Placed.below) := by
  induction ps generalizing rest with
  | nil => simp
  | cons p ps ih =>
    rw [List.length_cons, Nat.add_right_comm, List.cons_append, visits, List.append_assoc, ih]
    simp [List.append_assoc]

theorem visits_nil (fuel : Nat) : visits fuel [] = [] := by
  cases fuel <;> rfl

/-- The levels are visited one after the other, from the top. -/
theorem visits_eq_levels (depth : Nat) : ∀ {fuel : Nat} {ps : List Placed},
    totalSize ps ≤ fuel → (∀ p ∈ ps, p.stmt.height ≤ depth) →
      visits fuel ps = (List.range depth).flatMap fun d => ps.flatMap (Placed.atDepth d) := by
  induction depth with
  | zero =>
    intro fuel ps _ hheight
    -- Every statement has a level of its own, so there is none here.
    have hnil : ps = [] := by
      cases ps with
      | nil => rfl
      | cons p ps =>
        have := hheight p List.mem_cons_self
        rw [Stmt.height_eq] at this
        omega
    rw [hnil, visits_nil]
    rfl
  | succ depth ih =>
    intro fuel ps hsize hheight
    have htotal := totalSize_flatMap_below ps
    obtain ⟨fuel', rfl⟩ : ∃ fuel', fuel = ps.length + fuel' := Nat.exists_eq_add_of_le (by omega)
    have hbelow : ∀ q ∈ ps.flatMap Placed.below, q.stmt.height ≤ depth := by
      intro q hq
      obtain ⟨p, hp, hqp⟩ := List.mem_flatMap.mp hq
      obtain ⟨child, hchild, rfl⟩ := List.mem_map.mp hqp
      have hchild' := Stmt.height_le_heightAll hchild
      have hp' := hheight p hp
      rw [Stmt.height_eq] at hp'
      show child.height ≤ depth
      omega
    -- The first level is the list itself, and the others are those of what is below it.
    have htop : ps.flatMap (Placed.atDepth 0) = ps := List.flatMap_singleton' ps
    have hnext : ∀ d, ps.flatMap (Placed.atDepth (d + 1)) =
        (ps.flatMap Placed.below).flatMap (Placed.atDepth d) := by
      intro d
      rw [List.flatMap_assoc]
      rfl
    have hvisits := visits_append fuel' ps []
    rw [List.append_nil, List.nil_append] at hvisits
    rw [hvisits, ih (by omega) hbelow, List.range_succ_eq_map, List.flatMap_cons, htop,
      List.flatMap_map]
    simp only [hnext]

/-- Several trees are listed one after the other. -/
theorem Stmt.preorderAll_eq (ancestors : List Stmt) (ss : List Stmt) :
    Stmt.preorderAll ancestors ss =
      (ss.map (⟨·, ancestors⟩)).flatMap fun p : Placed => p.stmt.preorder p.ancestors := by
  induction ss with
  | nil => rfl
  | cons s ss ih =>
    rw [Stmt.preorderAll, ih]
    rfl

theorem Stmt.preorder_eq (p : Placed) : p.stmt.preorder p.ancestors =
    p :: p.below.flatMap fun q => q.stmt.preorder q.ancestors := by
  obtain ⟨stmt, ancestors⟩ := p
  cases stmt <;> simp [Stmt.preorder, Placed.below, Stmt.children, Stmt.preorderAll_eq]

/-- Every statement is visited once. -/
theorem visits_perm_preorder : ∀ {fuel : Nat} {ps : List Placed}, totalSize ps ≤ fuel →
    (visits fuel ps).Perm (ps.flatMap fun p => p.stmt.preorder p.ancestors) := by
  intro fuel
  induction fuel with
  | zero =>
    intro ps hsize
    cases ps with
    | nil => exact .nil
    | cons p ps =>
      rw [totalSize_cons] at hsize
      omega
  | succ fuel ih =>
    intro ps hsize
    cases ps with
    | nil => exact .nil
    | cons p ps =>
      rw [totalSize_cons] at hsize
      have hrest : totalSize (ps ++ p.below) ≤ fuel := by
        rw [totalSize_append]
        omega
      -- What is below the first goes to the end here, and stays in front there.
      rw [visits, List.flatMap_cons, Stmt.preorder_eq p, List.cons_append]
      refine List.Perm.cons p ((ih hrest).trans ?_)
      rw [List.flatMap_append]
      exact List.perm_append_comm

/-! ## Section 5: The queue -/

/-- The elements of a queue, the next one first. -/
def queued (q : Std.Queue Pending) : List Pending := q.dList ++ q.eList.reverse

theorem dequeue?_eq_none {q : Std.Queue Pending} (h : queued q = []) : q.dequeue? = none := by
  obtain ⟨eList, dList⟩ := q
  obtain ⟨hd, he⟩ := List.append_eq_nil_iff.mp h
  simp_all [Std.Queue.dequeue?]

theorem dequeue?_eq_some {q : Std.Queue Pending} {p : Pending} {rest : List Pending}
    (h : queued q = p :: rest) : ∃ q', q.dequeue? = some (p, q') ∧ queued q' = rest := by
  obtain ⟨eList, dList⟩ := q
  unfold queued at h
  cases dList with
  | cons d ds =>
    simp only [List.cons_append, List.cons.injEq] at h
    obtain ⟨rfl, hrest⟩ := h
    exact ⟨⟨eList, ds⟩, rfl, hrest⟩
  | nil =>
    rw [List.nil_append] at h
    refine ⟨⟨[], rest⟩, ?_, by simp [queued]⟩
    -- The front list is used up, so the other one is turned around.
    simp [Std.Queue.dequeue?, h]

theorem queued_enqueueAll (q : Std.Queue Pending) (ps : List Pending) :
    queued (q.enqueueAll ps.reverse) = queued q ++ ps := by
  simp [queued, Std.Queue.enqueueAll, List.append_assoc]

/-- The statements that a walk takes from its queue, in that order. -/
def visitQueue : (fuel : Nat) → Std.Queue Pending → List Pending
  | 0, _ => []
  | fuel + 1, queue =>
    match queue.dequeue? with
    | none => []
    | some (p, queue) => p :: visitQueue fuel (queue.enqueueAll p.below.reverse)

/-- A walk reports each statement when it takes it from the queue. -/
theorem walkQueue_eq_flatMap (allDefaults : Bool) (fuel : Nat) (q : Std.Queue Pending) :
    walkQueue allDefaults fuel q = (visitQueue fuel q).flatMap (·.findings allDefaults) := by
  induction fuel generalizing q with
  | zero => rfl
  | succ fuel ih =>
    unfold walkQueue visitQueue
    cases q.dequeue? with
    | none => rfl
    | some taken =>
      obtain ⟨p, q'⟩ := taken
      simp only [List.flatMap_cons, ih]

/-- A queue is a list that is served from its front. -/
theorem visitQueue_eq_map (fuel : Nat) : ∀ {q : Std.Queue Pending} {ps : List Placed},
    queued q = ps.map Placed.pending → visitQueue fuel q = (visits fuel ps).map Placed.pending := by
  induction fuel with
  | zero =>
    intro q ps _
    rfl
  | succ fuel ih =>
    intro q ps hq
    cases ps with
    | nil =>
      unfold visitQueue
      rw [dequeue?_eq_none hq]
      rfl
    | cons p ps =>
      obtain ⟨q', hdequeue, hq'⟩ := dequeue?_eq_some hq
      have hnext : queued (q'.enqueueAll p.pending.below.reverse) =
          (ps ++ p.below).map Placed.pending := by
        rw [queued_enqueueAll, hq', List.map_append, Placed.pending_below]
      unfold visitQueue
      rw [hdequeue]
      simp only [visits, List.map_cons, ih hnext]

/-! ## Section 6: Modules -/

namespace Module

/-- The statements that the walk over a module visits, in that order. -/
def visited (m : Module) : List Pending := visitQueue (Stmt.sizeAll m) m.queue

variable (m : Module)

theorem queued_queue : queued m.queue = m.placed.map Placed.pending := by
  unfold queued queue placed
  rw [List.map_map, List.reverse_nil, List.append_nil]
  rfl

theorem totalSize_placed : totalSize m.placed = Stmt.sizeAll m := by
  unfold totalSize placed
  rw [List.map_map]
  congr 1
  exact List.map_id' _

theorem visits_placed (extra : Nat) :
    visits (Stmt.sizeAll m) m.placed = m.levels (Stmt.heightAll m + extra) := by
  refine visits_eq_levels _ (Nat.le_of_eq m.totalSize_placed) ?_
  intro p hp
  obtain ⟨stmt, hstmt, rfl⟩ := List.mem_map.mp hp
  have := Stmt.height_le_heightAll hstmt
  show stmt.height ≤ _
  omega

/-- **Level order**: the walk over a module visits what stands at depth
    0, 1, 2 and so on, at each depth from left to right, and it visits
    every statement of the tree once.  What is reported is, in that
    order, what each statement is reported for where it stands, and it
    comes behind all that was reported for the file before. -/
theorem findings_eq_levelOrder (allDefaults : Bool) (extra : Nat) (report : Report)
    (path : Text) :
    m.findings allDefaults =
      (m.levels (Stmt.heightAll m + extra)).flatMap (Placed.findings allDefaults) ∧
    m.visited = (m.levels (Stmt.heightAll m + extra)).map Placed.pending ∧
    (m.levels (Stmt.heightAll m + extra)).Perm (Stmt.preorderAll [] m) ∧
    (report.append path (m.findings allDefaults)).findingsFor path =
      report.findingsFor path ++
        (m.levels (Stmt.heightAll m + extra)).flatMap (Placed.findings allDefaults) := by
  have hvisited : m.visited = (m.levels (Stmt.heightAll m + extra)).map Placed.pending := by
    rw [← m.visits_placed extra]
    exact visitQueue_eq_map _ m.queued_queue
  have hfindings : m.findings allDefaults =
      (m.levels (Stmt.heightAll m + extra)).flatMap (Placed.findings allDefaults) := by
    calc m.findings allDefaults
        = m.visited.flatMap (·.findings allDefaults) := walkQueue_eq_flatMap _ _ _
      _ = (m.levels (Stmt.heightAll m + extra)).flatMap (Placed.findings allDefaults) := by
        rw [hvisited, List.flatMap_map]
        simp only [Placed.findings_pending]
  have hperm : (m.levels (Stmt.heightAll m + extra)).Perm (Stmt.preorderAll [] m) := by
    have hperm := visits_perm_preorder (Nat.le_of_eq m.totalSize_placed)
    rw [m.visits_placed extra] at hperm
    rw [Stmt.preorderAll_eq]
    exact hperm
  refine ⟨hfindings, hvisited, hperm, ?_⟩
  rw [Report.findingsFor_append_self, hfindings]

end Module

end StyleCheck
