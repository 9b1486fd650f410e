import StyleCheck.LineRules
import StyleCheck.Proofs.Text.Lines

/-! # The Line Pass

    A line is reported for what it is and for the blank lines just
    before it.  This module gives the pass over a source without the run
    that it carries from line to line.

    * `lineFindings_eq_numbered`: each line by itself, with the run of
      blank lines read off the lines before it.
    * `rule_mem_of_mem_lineFindings`, `lineFindings_pairwise`: what the
      findings look like, and their order.
    * `lineFindings_eq_iff`: two sources, compared line by line and rule
      by rule.
    * `lineFindings_windows`: of the lines before a line, only the last
      three matter.
-/

namespace StyleCheck

open Byte

/-! ## Section 1: Runs of blank lines -/

namespace BlankRun

/-- The run of blank lines that some lines end with. -/
def after (lines : List Text) : BlankRun :=
  ⟨(lines.reverse.takeWhile fun line => line.withoutNewline = []).length⟩

@[simp] theorem after_nil : after [] = empty := rfl

/-- Reading a line takes the run of the lines before it to the run of
    the lines with it. -/
theorem feed_after (lines : List Text) (line : Text) :
    ((after lines).feed line).2 = after (lines ++ [line]) := by
  unfold feed after
  rw [List.reverse_append, List.reverse_singleton, List.singleton_append, List.takeWhile_cons]
  by_cases h : line.withoutNewline = []
  · simp [h]
  · simp [h, empty]

end BlankRun

/-! ## Section 2: Lines by themselves -/

/-- The rules on single lines come first in the catalog. -/
def Rule.ofLines : List Rule := Rule.all.take 9

/-- The rules on the syntax tree come behind them. -/
def Rule.ofTree : List Rule := Rule.all.drop 9

namespace Line

/-- The findings of numbered lines, each of them looked at by itself. -/
def numbered (limit : Nat) (lines : List Text) : List Finding :=
  lines.zipIdx.flatMap fun (line, i) =>
    (brokenRules limit line (BlankRun.after (lines.take i))).map (⟨i + 1, ·⟩)

/-- The same for lines that have others before them. -/
theorem checkAll_eq_flatMap (limit : Nat) (lines before : List Text) :
    checkAll limit lines (before.length + 1) (BlankRun.after before) =
      lines.zipIdx.flatMap fun (line, i) =>
        (brokenRules limit line (BlankRun.after (before ++ lines.take i))).map
          (⟨before.length + i + 1, ·⟩) := by
  induction lines generalizing before with
  | nil => rfl
  | cons line lines ih =>
    -- The line has the others before it, and is one of them for those behind.
    have hrest := ih (before ++ [line])
    rw [List.length_append, List.length_singleton] at hrest
    rw [List.zipIdx_cons', List.flatMap_cons, List.flatMap_map]
    simp only [checkAll, check, BlankRun.feed_after, hrest, List.take_zero, List.append_nil,
      Nat.add_zero, List.take_succ_cons, List.append_assoc, List.singleton_append,
      Prod.map_fst, Prod.map_snd, id_eq, Nat.add_assoc, Nat.add_comm 1]

variable {limit : Nat} {line : Text} {run : BlankRun} {lines : List Text} {number : Nat}
  {finding : Finding}

/-- The rules that are broken stand in the order of the checks. -/
theorem filterMap_broken_sublist (checks : List (Bool × Rule)) :
    (checks.filterMap fun (broken, rule) => if broken then some rule else none).Sublist
      (checks.map (·.2)) := by
  induction checks with
  | nil => exact .slnil
  | cons check checks ih =>
    obtain ⟨broken, rule⟩ := check
    cases broken with
    | true => exact ih.cons_cons rule
    | false => exact ih.cons rule

/-- A line breaks some rules on lines, each at most once. -/
theorem brokenRules_sublist : (brokenRules limit line run).Sublist Rule.ofLines :=
  filterMap_broken_sublist _

theorem mem_checkAll (h : finding ∈ checkAll limit lines number run) :
    number ≤ finding.line ∧ finding.line < number + lines.length ∧ finding.rule ∈ Rule.ofLines := by
  induction lines generalizing number run with
  | nil => cases h
  | cons line lines ih =>
    simp only [checkAll, check, List.mem_append] at h
    rw [List.length_cons]
    rcases h with h | h
    · obtain ⟨rule, hrule, rfl⟩ := List.mem_map.mp h
      exact ⟨Nat.le_refl _, by simp only; omega, brokenRules_sublist.subset hrule⟩
    · have ⟨hlow, hhigh, hrule⟩ := ih h
      exact ⟨by omega, by omega, hrule⟩

theorem checkAll_pairwise : (checkAll limit lines number run).Pairwise (·.line ≤ ·.line) := by
  induction lines generalizing number run with
  | nil => exact .nil
  | cons line lines ih =>
    unfold checkAll check
    refine List.pairwise_append.mpr ⟨?_, ih, ?_⟩
    · exact List.pairwise_map.mpr (List.pairwise_of_forall fun _ _ => Nat.le_refl number)
    · intro first hfirst second hsecond
      obtain ⟨rule, _, rfl⟩ := List.mem_map.mp hfirst
      have hlater := (mem_checkAll hsecond).1
      show number ≤ second.line
      omega

end Line

/-! ## Section 3: Whole sources -/

variable {limit : Nat} {source : Text} {finding : Finding}

/-- No state is left of the pass: each line is reported for itself and
    for the lines before it. -/
theorem lineFindings_eq_numbered (limit : Nat) (source : Text) :
    lineFindings limit source = Line.numbered limit source.splitLines := by
  have h := Line.checkAll_eq_flatMap limit source.splitLines []
  simp only [List.nil_append, List.length_nil, Nat.zero_add, BlankRun.after_nil] at h
  exact h

theorem rule_mem_of_mem_lineFindings (h : finding ∈ lineFindings limit source) :
    finding.rule ∈ Rule.ofLines :=
  (Line.mem_checkAll h).2.2

/-- Lines are reported in the order in which they stand in the source. -/
theorem lineFindings_pairwise : (lineFindings limit source).Pairwise (·.line ≤ ·.line) :=
  Line.checkAll_pairwise

/-! ## Section 4: Windows -/

namespace Line

/-- Whether a line by itself breaks a rule.  Nothing is said here of the
    rule on blank lines. -/
def breaks (limit : Nat) (line : Text) : Rule → Bool
  | .lineLength => isTooLong limit line
  | .indentation => isMisindented line
  | .trailingSemicolon => hasTrailingSemicolon line
  | .commentSpacing => lacksCommentSpacing line
  | .todoComment => hasTodo line
  | .constructionSpacing => hasWideConstruction line
  | .className => hasBadClassName line
  | .functionName => hasBadFunctionName line
  | .blankLines | .argumentName | .variableName | .mutableDefault => false

/-- The line at an index is no bare line feed, and the three lines before
    it are there and are nothing else. -/
def EndsBlanks (lines : List Text) (i : Nat) : Prop :=
  lines[i]?.any (· != [newline]) = true ∧ 3 ≤ i ∧ lines[i - 1]? = some [newline] ∧
    lines[i - 2]? = some [newline] ∧ lines[i - 3]? = some [newline]

instance (lines : List Text) (i : Nat) : Decidable (EndsBlanks lines i) :=
  inferInstanceAs (Decidable (_ ∧ _))

/-- Whether the line at an index breaks a rule where it stands. -/
def breaksAt (limit : Nat) (lines : List Text) (i : Nat) : Rule → Bool
  | .blankLines => decide (EndsBlanks lines i)
  | rule => lines[i]?.any (breaks limit · rule)

/-- What the line at an index is reported for, in catalog order. -/
def findingsAt (limit : Nat) (lines : List Text) (i : Nat) : List Finding :=
  (Rule.ofLines.filter (breaksAt limit lines i)).map (⟨i + 1, ·⟩)

variable {i : Nat}

/-- A prefix of elements is long if it has an element at each index. -/
theorem lt_length_takeWhile_iff {α : Type} (p : α → Bool) (l : List α) (n : Nat) :
    n < (l.takeWhile p).length ↔ ∀ k ≤ n, l[k]?.any p = true := by
  induction l generalizing n with
  | nil => simpa using ⟨0, Nat.zero_le n⟩
  | cons a l ih =>
    cases ha : p a with
    | false =>
      rw [List.takeWhile_cons_of_neg (by simp [ha])]
      simpa using ⟨0, Nat.zero_le n, by simp [ha]⟩
    | true =>
      rw [List.takeWhile_cons_of_pos ha, List.length_cons]
      cases n with
      | zero => simp [ha]
      | succ n =>
        rw [Nat.add_lt_add_iff_right, ih n]
        constructor
        · intro h k hk
          cases k with
          | zero => simpa using ha
          | succ k => simpa using h k (by omega)
        · intro h k hk
          simpa using h (k + 1) (by omega)

/-- The element so many places before an index. -/
theorem getElem?_reverse_take {α : Type} {l : List α} (hi : i ≤ l.length) (k : Nat) :
    (l.take i).reverse[k]? = if k < i then l[i - 1 - k]? else none := by
  have hlength : (l.take i).length = i := by rw [List.length_take, Nat.min_eq_left hi]
  split
  case isTrue hk =>
    rw [List.getElem?_reverse (by omega), hlength, List.getElem?_take_of_lt (by omega)]
  case isFalse hk =>
    exact List.getElem?_eq_none (by rw [List.length_reverse]; omega)

/-- A run of blank lines is too long if the last three lines are bare. -/
theorem two_lt_count_iff {source : Text} (hi : i ≤ source.splitLines.length) :
    2 < (BlankRun.after (source.splitLines.take i)).count ↔
      3 ≤ i ∧ source.splitLines[i - 1]? = some [newline] ∧
        source.splitLines[i - 2]? = some [newline] ∧
        source.splitLines[i - 3]? = some [newline] := by
  have hbare : ∀ j : Nat, (source.splitLines[j]?.any fun line : Text => decide (line.withoutNewline = [])) =
      true ↔ source.splitLines[j]? = some [newline] := by
    intro j
    cases hj : source.splitLines[j]? with
    | none => simp
    | some line => simpa using Text.withoutNewline_eq_nil_iff (List.mem_of_getElem? hj)
  unfold BlankRun.after
  rw [lt_length_takeWhile_iff]
  constructor
  · intro h
    have hback : ∀ k ≤ 2, k < i ∧ source.splitLines[i - 1 - k]? = some [newline] := by
      intro k hk
      have hk := h k hk
      rw [getElem?_reverse_take hi] at hk
      split at hk
      case isTrue hlt => exact ⟨hlt, (hbare _).mp hk⟩
      case isFalse => cases hk
    exact ⟨(hback 2 (by omega)).1, (hback 0 (by omega)).2, (hback 1 (by omega)).2,
      (hback 2 (by omega)).2⟩
  · intro ⟨hle, hfirst, hsecond, hthird⟩ k hk
    rw [getElem?_reverse_take hi, if_pos (by omega), hbare]
    obtain rfl | rfl | rfl : k = 0 ∨ k = 1 ∨ k = 2 := by omega
    · exact hfirst
    · exact hsecond
    · exact hthird

/-- The checks of a line, as a choice among the rules on lines. -/
theorem brokenRules_eq_filter (limit : Nat) (line : Text) (run : BlankRun) :
    brokenRules limit line run = Rule.ofLines.filter fun rule =>
      if rule = .blankLines then (run.feed line).1 else breaks limit line rule := by
  have hfilter : ∀ (holds : Rule → Bool) (rules : List Rule),
      (rules.map fun rule => (holds rule, rule)).filterMap
        (fun (broken, rule) => if broken then some rule else none) = rules.filter holds := by
    intro holds rules
    induction rules with
    | nil => rfl
    | cons rule rules ih =>
      rw [List.map_cons]
      cases hrule : holds rule with
      | true =>
        rw [List.filter_cons_of_pos hrule, ← ih]
        rfl
      | false =>
        rw [List.filter_cons_of_neg (by simp [hrule]), ← ih]
        rfl
  exact hfilter (fun rule =>
    if rule = .blankLines then (run.feed line).1 else breaks limit line rule) Rule.ofLines

/-- What a line is reported for with the run before it is what it is
    reported for where it stands. -/
theorem brokenRules_of_getElem? {source : Text} (h : source.splitLines[i]? = some line) :
    (brokenRules limit line (BlankRun.after (source.splitLines.take i))).map (⟨i + 1, ·⟩) =
      findingsAt limit source.splitLines i := by
  have hi : i ≤ source.splitLines.length := by
    have := (List.getElem?_eq_some_iff.mp h).1
    omega
  unfold findingsAt
  rw [brokenRules_eq_filter]
  congr 1
  refine List.filter_congr fun rule _ => ?_
  split
  case isTrue hblank =>
    subst hblank
    have hrun := two_lt_count_iff hi
    have hbare := Text.withoutNewline_eq_nil_iff (List.mem_of_getElem? h)
    simp only [breaksAt, EndsBlanks, h, Option.any_some, bne_iff_ne, BlankRun.feed, hbare]
    by_cases hline : line = [newline]
    · simp [hline]
    · simp [hline, hrun]
  case isFalse hother =>
    cases rule <;> first | exact absurd rfl hother | simp [breaksAt, h]

/-- The lines by themselves, by their index. -/
theorem numbered_eq_flatMap_range (limit : Nat) (source : Text) :
    numbered limit source.splitLines =
      (List.range source.splitLines.length).flatMap (findingsAt limit source.splitLines) := by
  have hrange : List.range source.splitLines.length = source.splitLines.zipIdx.map (·.2) := by
    rw [List.zipIdx_map_snd, List.range_eq_range']
  unfold numbered
  rw [hrange, List.flatMap_map]
  rw [List.flatMap_def, List.flatMap_def]
  congr 1
  refine List.map_congr_left fun (line, i) hmem => ?_
  exact brokenRules_of_getElem? (List.mk_mem_zipIdx_iff_getElem?.mp hmem)

/-! ## Section 5: Order and place -/

/-- The line of a finding comes first, or it is the same and the code
    comes first. -/
def precedes (a b : Finding) : Prop :=
  a.line < b.line ∨ a.line = b.line ∧ a.rule.id < b.rule.id

theorem not_precedes_self (a : Finding) : ¬ precedes a a := by
  rintro (h | ⟨_, h⟩)
  · exact Nat.lt_irrefl _ h
  · exact List.lt_irrefl _ h

theorem mem_findingsAt {lines : List Text} (h : finding ∈ findingsAt limit lines i) :
    finding.line = i + 1 := by
  obtain ⟨rule, _, rfl⟩ := List.mem_map.mp h
  rfl

/-- The codes of the rules on lines ascend. -/
theorem findingsAt_pairwise (limit : Nat) (lines : List Text) (i : Nat) :
    (findingsAt limit lines i).Pairwise precedes := by
  have hcodes : Rule.ofLines.Pairwise (·.id < ·.id) := by decide
  exact List.pairwise_map.mpr ((hcodes.filter _).imp fun h => .inr ⟨rfl, h⟩)

theorem flatMap_findingsAt_pairwise (limit : Nat) (lines : List Text) (n : Nat) :
    ((List.range n).flatMap (findingsAt limit lines)).Pairwise precedes := by
  induction n with
  | zero => exact .nil
  | succ n ih =>
    rw [List.range_succ, List.flatMap_append, List.flatMap_singleton]
    refine List.pairwise_append.mpr ⟨ih, findingsAt_pairwise limit lines n, ?_⟩
    intro first hfirst second hsecond
    obtain ⟨k, hk, hfirst⟩ := List.mem_flatMap.mp hfirst
    have hk := List.mem_range.mp hk
    refine .inl ?_
    rw [mem_findingsAt hfirst, mem_findingsAt hsecond]
    omega

/-- The findings at a line are those of its index, if there is one. -/
theorem filter_flatMap_findingsAt (limit : Nat) (lines : List Text) (i n : Nat) :
    ((List.range n).flatMap (findingsAt limit lines)).filter (·.line = i + 1) =
      if i < n then findingsAt limit lines i else [] := by
  induction n with
  | zero => rfl
  | succ n ih =>
    rw [List.range_succ, List.flatMap_append, List.flatMap_singleton, List.filter_append, ih]
    by_cases hi : i = n
    · subst hi
      rw [if_neg (Nat.lt_irrefl i), if_pos (Nat.lt_succ_self i), List.nil_append]
      exact List.filter_eq_self.mpr fun finding h => decide_eq_true (mem_findingsAt h)
    · have hnone : (findingsAt limit lines n).filter (·.line = i + 1) = [] := by
        refine List.filter_eq_nil_iff.mpr fun finding h => ?_
        have := mem_findingsAt h
        simp only [decide_eq_true_eq]
        omega
      rw [hnone, List.append_nil]
      split <;> split <;> first | rfl | omega

/-- Behind the last line, nothing is reported. -/
theorem findingsAt_of_le {lines : List Text} (h : lines.length ≤ i) :
    findingsAt limit lines i = [] := by
  have hline : lines[i]? = none := List.getElem?_eq_none h
  have hnone : Rule.ofLines.filter (breaksAt limit lines i) = [] := by
    refine List.filter_eq_nil_iff.mpr fun rule _ => ?_
    cases rule <;> simp [breaksAt, EndsBlanks, hline]
  unfold findingsAt
  rw [hnone, List.map_nil]

/-- What a line is reported for depends on it and on the three before. -/
theorem findingsAt_congr {lines others : List Text}
    (h : ∀ k, i ≤ k + 3 → k ≤ i → lines[k]? = others[k]?) :
    findingsAt limit lines i = findingsAt limit others i := by
  have hline := h i (by omega) (Nat.le_refl i)
  have hblanks : EndsBlanks lines i ↔ EndsBlanks others i := by
    unfold EndsBlanks
    rw [hline, h (i - 1) (by omega) (by omega), h (i - 2) (by omega) (by omega),
      h (i - 3) (by omega) (by omega)]
  have hbreaks : breaksAt limit lines i = breaksAt limit others i := by
    funext rule
    cases rule <;> simp only [breaksAt, hline, hblanks]
  unfold findingsAt
  rw [hbreaks]

/-- Lines are reported alike if they break the same rules. -/
theorem findingsAt_eq_iff {lines others : List Text} :
    findingsAt limit lines i = findingsAt limit others i ↔
      ∀ rule ∈ Rule.ofLines, breaksAt limit lines i rule = breaksAt limit others i rule := by
  have hinjective : ∀ rule other, (⟨i + 1, rule⟩ : Finding) = ⟨i + 1, other⟩ → rule = other :=
    fun _ _ h => (Finding.mk.inj h).2
  constructor
  · intro h rule hrule
    have hfilter := (List.map_inj_right hinjective).mp h
    have hmem : rule ∈ Rule.ofLines.filter (breaksAt limit lines i) ↔
        rule ∈ Rule.ofLines.filter (breaksAt limit others i) := by rw [hfilter]
    rw [List.mem_filter, List.mem_filter, and_iff_right hrule, and_iff_right hrule] at hmem
    exact Bool.eq_iff_iff.mpr hmem
  · intro h
    unfold findingsAt
    rw [List.filter_congr h]

end Line

/-- The findings of the pass, line by line. -/
theorem lineFindings_eq_flatMap_range (limit : Nat) (source : Text) :
    lineFindings limit source =
      (List.range source.splitLines.length).flatMap (Line.findingsAt limit source.splitLines) :=
  (lineFindings_eq_numbered limit source).trans (Line.numbered_eq_flatMap_range limit source)

/-- The findings of the pass at one line. -/
theorem filter_lineFindings (limit : Nat) (source : Text) (i : Nat) :
    (lineFindings limit source).filter (·.line = i + 1) =
      Line.findingsAt limit source.splitLines i := by
  rw [lineFindings_eq_flatMap_range, Line.filter_flatMap_findingsAt]
  split
  case isTrue => rfl
  case isFalse h => exact (Line.findingsAt_of_le (by omega)).symm

/-- Two sources have the same findings if they have them at each line. -/
theorem lineFindings_eq_iff {other : Text} :
    lineFindings limit source = lineFindings limit other ↔
      ∀ i, Line.findingsAt limit source.splitLines i =
        Line.findingsAt limit other.splitLines i := by
  -- Both may be read off as many lines, since behind the last there is nothing.
  have hlonger : ∀ (t : Text) (k : Nat), lineFindings limit t =
      (List.range (t.splitLines.length + k)).flatMap (Line.findingsAt limit t.splitLines) := by
    intro t k
    rw [lineFindings_eq_flatMap_range]
    induction k with
    | zero => rfl
    | succ k ih =>
      rw [← Nat.add_assoc, List.range_succ, List.flatMap_append, List.flatMap_singleton,
        Line.findingsAt_of_le (Nat.le_add_right _ k), List.append_nil]
      exact ih
  constructor
  · intro h i
    rw [← filter_lineFindings, ← filter_lineFindings, h]
  · intro h
    rw [hlonger source other.splitLines.length, hlonger other source.splitLines.length,
      Nat.add_comm, funext h]

/-- **Windows of the line pass**: each physical line is reported, in
    catalog order, for the rules that it breaks where it stands.  All of
    them are about the line itself, but for the rule on blank lines, which
    looks at the three lines before.  So the findings ascend by line and
    code, none of them is there twice, and sources that agree on four
    lines have the same findings at the last of them. -/
theorem lineFindings_windows (limit : Nat) (source : Text) :
    lineFindings limit source =
      (List.range source.splitLines.length).flatMap (Line.findingsAt limit source.splitLines) ∧
    (lineFindings limit source).Pairwise Line.precedes ∧
    (lineFindings limit source).Nodup ∧
    ∀ (other : Text) (i : Nat),
      (∀ k, i ≤ k + 3 → k ≤ i → source.splitLines[k]? = other.splitLines[k]?) →
      (lineFindings limit source).filter (·.line = i + 1) =
        (lineFindings limit other).filter (·.line = i + 1) := by
  have hall := lineFindings_eq_flatMap_range limit source
  have hordered : (lineFindings limit source).Pairwise Line.precedes := by
    rw [hall]
    exact Line.flatMap_findingsAt_pairwise limit _ _
  refine ⟨hall, hordered, hordered.imp ?_, fun other i hsame => ?_⟩
  · rintro a _ h rfl
    exact Line.not_precedes_self a h
  · rw [filter_lineFindings, filter_lineFindings, Line.findingsAt_congr hsame]

/-- Two sources with the same lines behind the first: the last of them
    ends three blank lines in both. -/
theorem windows_of_two_sources :
    (∀ k, 4 ≤ k + 3 → k ≤ 4 →
      (ascii "a\n\n\n\nb;\n").splitLines[k]? = (ascii "c  # todo\n\n\n\nb;\n").splitLines[k]?) ∧
    (lineFindings 79 (ascii "a\n\n\n\nb;\n")).filter (·.line = 4 + 1) =
      [⟨5, .trailingSemicolon⟩, ⟨5, .blankLines⟩] ∧
    (lineFindings 79 (ascii "c  # todo\n\n\n\nb;\n")).filter (·.line = 4 + 1) =
      [⟨5, .trailingSemicolon⟩, ⟨5, .blankLines⟩] := by
  have hsame : ∀ k, 4 ≤ k + 3 → k ≤ 4 →
      (ascii "a\n\n\n\nb;\n").splitLines[k]? =
        (ascii "c  # todo\n\n\n\nb;\n").splitLines[k]? := by
    intro k hlow hhigh
    obtain rfl | rfl | rfl | rfl : k = 1 ∨ k = 2 ∨ k = 3 ∨ k = 4 := by omega
    all_goals rfl
  have hfirst : (lineFindings 79 (ascii "a\n\n\n\nb;\n")).filter (·.line = 4 + 1) =
      [⟨5, .trailingSemicolon⟩, ⟨5, .blankLines⟩] := by decide
  obtain ⟨_, _, _, hwindow⟩ := lineFindings_windows 79 (ascii "a\n\n\n\nb;\n")
  exact ⟨hsame, hfirst, (hwindow _ 4 hsame).symm.trans hfirst⟩

end StyleCheck
