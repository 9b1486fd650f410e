import StyleCheck.Proofs.Check
import StyleCheck.Proofs.Parsing.Order

/-! # Where Findings Point

    A finding carries no more than a line.  This module says what is to be
    found there: for a rule on lines, a physical line; for a rule on the
    tree, the token that the statement starts with, however its parts are
    spread over lines.

    * `smallStatement_equal`: an assignment is read with its equals sign.
    * `DefinesAt`, `AssignsAt`: what starts on a line.
    * `checkSource_points`: the findings that the check of a source adds.
-/

namespace StyleCheck

open StyleCheck.Parser

/-! ## Section 1: Assignments -/

namespace Grammar

/-- If there is an equals sign at the front, it is read. -/
theorem assignment_equal (line : Nat) (first : Expr) (ts : List Token) :
    Ensures (assignment line first) ts fun _ rest =>
      (front ts).lexeme = .symbol .equal → rest <:+ ts.tail := by
  unfold assignment
  rw [ensures_bind]
  have hloop := @Ensures.loop_tokens _ _ nextValue
    (fun ts rest => rest <:+ ts ∧ ((front ts).lexeme = .symbol .equal → rest <:+ ts.tail))
    (fun read ts => ?_) ([], first) ts
  · refine hloop.mono fun read mid hmid => ?_
    refine ((Keeps.bind (checkTargets_keeps read.1) (fun _ => .pure _)).suffix mid).mono fun _ _ hrest => ?_
    exact fun hequal => hrest.trans (hmid.2 hequal)
  · unfold nextValue
    rw [ensures_bind, ensures_accept]
    refine ⟨fun _ => ?_, fun hother => ?_⟩
    · rw [if_pos rfl, ensures_bind]
      refine (assigned_advances.keeps.suffix ts.tail).mono fun next mid hmid => ?_
      refine (ensures_pure _).mpr fun rest hrest => ?_
      have hbehind := hrest.1.trans hmid
      exact ⟨hbehind.trans (List.tail_suffix ts), fun _ => hbehind⟩
    · rw [if_neg Bool.false_ne_true, ensures_pure]
      exact ⟨List.suffix_refl ts, fun hequal => absurd hequal hother⟩

/-- An assignment is read with an equals sign. -/
theorem smallStatement_equal (ts : List Token) : Ensures smallStatement ts fun stmt rest =>
    ∀ line targets value, stmt = .assign line targets value →
      ∃ mid, mid <:+ ts ∧ (front mid).lexeme = .symbol .equal ∧ rest <:+ mid.tail := by
  -- All but assignments are simple statements of some kind.
  have hsimple : ∀ {p : Parser Stmt}, (Makes p fun stmt => ∃ line kind, stmt = .simple line kind) →
      ∀ us, Ensures p us fun stmt rest => ∀ line targets value,
        stmt = .assign line targets value →
          ∃ mid, mid <:+ ts ∧ (front mid).lexeme = .symbol .equal ∧ rest <:+ mid.tail := by
    intro p hp us
    refine (hp us).mono fun stmt rest hstmt => ?_
    obtain ⟨_, _, rfl⟩ := hstmt
    exact fun _ _ _ h => by cases h
  have hfailAt : ∀ at_ fault, Makes (failAt at_ fault : Parser Stmt) fun stmt =>
      ∃ line kind, stmt = .simple line kind := fun _ _ _ => (ensures_failAt _ _).mpr trivial
  unfold smallStatement
  rw [ensures_bind, ensures_line, ensures_bind]
  refine (atTypeAlias_ensures ts).mono fun _ _ hsame => ?_
  subst hsame
  rw [ensures_ite]
  refine ⟨fun _ => hsimple (.bind fun _ => .pure ⟨_, _, rfl⟩) _, fun _ => ?_⟩
  rw [ensures_bind, ensures_peek]
  split
  case h_1 => exact hsimple (.bind fun _ => .bind fun _ => .pure ⟨_, _, rfl⟩) _
  case h_2 =>
    unfold expressionStatement
    rw [ensures_bind, ensures_line, ensures_bind]
    refine (assigned_advances.keeps.suffix _).mono fun first mid hmid => ?_
    rw [ensures_bind, ensures_peek]
    split
    case h_1 hequal =>
      refine (assignment_equal _ first mid).mono fun _ _ hrest => ?_
      exact fun _ _ _ _ => ⟨mid, hmid, hequal, hrest hequal⟩
    case h_2 =>
      refine hsimple (.ite (.bind fun _ => .bind fun _ => .bind fun _ => ?_) (hfailAt _ _)) _
      exact .ite (.bind fun _ => .pure ⟨_, _, rfl⟩) (.pure ⟨_, _, rfl⟩)
    case h_3 =>
      refine hsimple (.ite (.ite ?_ (hfailAt _ _)) (.pure ⟨_, _, rfl⟩)) _
      exact .bind fun _ => .bind fun _ => .pure ⟨_, _, rfl⟩
    case h_4 => exact hsimple (.pure ⟨_, _, rfl⟩) _

end Grammar

/-! ## Section 2: What starts on a line -/

variable {allDefaults : Bool} {finding : Finding} {source : Text} {tokens ts : List Token}
  {m : Module}

/-- A `def` is on a line, and no `async` is the token before it. -/
def DefinesAt (tokens : List Token) (line : Nat) : Prop :=
  ∃ before token behind, tokens = before ++ token :: behind ∧ token.lexeme = .keyword .def_ ∧
    token.position.line = line ∧ ∀ last ∈ before.getLast?, last.lexeme ≠ .keyword .async_

/-- A simple statement starts on a line, and has an equals sign among its
    tokens.  It is behind a boundary, and all of it is read at once. -/
def AssignsAt (tokens : List Token) (line : Nat) : Prop :=
  ∃ before first read behind stmt, tokens = before ++ (first :: read ++ behind) ∧
    first.position.line = line ∧ (∀ last ∈ before.getLast?, last.lexeme.isBoundary = true) ∧
    Grammar.smallStatement (first :: read ++ behind) = .ok (stmt, behind) ∧
    ∃ token ∈ first :: read, token.lexeme = .symbol .equal

theorem Introduces.definesAt {line : Nat} {name : Text} {parameters : Parameters}
    {body : List Stmt} (h : Introduces ts (.functionDef line false name parameters body))
    (hfresh : Fresh tokens ts) : DefinesAt tokens line := by
  obtain ⟨before, rfl, hnone⟩ := hfresh
  cases h with
  | function =>
    refine ⟨before, _, _, rfl, rfl, rfl, fun last hlast hasync => ?_⟩
    have hunspelled := hnone last (by rwa [List.head?_reverse])
    rw [hasync] at hunspelled
    cases hunspelled

theorem Introduces.assignsAt {line : Nat} {targets : List Expr} {value : Expr}
    (h : Introduces ts (.assign line targets value)) (hbegins : Begins tokens ts) :
    AssignsAt tokens line := by
  obtain ⟨before, rfl, hboundary⟩ := hbegins
  cases h with
  | @assign first ts behind _ _ h =>
    obtain ⟨mid, ⟨front, hfront⟩, hequal, more, hmore⟩ :=
      Grammar.smallStatement_equal _ _ _ h _ _ _ rfl
    obtain ⟨position, hmid⟩ := eq_cons_of_front hequal (by simp)
    obtain ⟨read, hread⟩ : ∃ read, front ++ ⟨.symbol .equal, position⟩ :: more = first :: read := by
      cases front with
      | nil => exact ⟨more, by rw [hmid] at hfront; rw [(List.cons.inj hfront).1]; rfl⟩
      | cons token front => exact ⟨_, by rw [(List.cons.inj hfront).1, List.cons_append]⟩
    -- The equals sign is one of the tokens that are read.
    have hall : first :: ts = first :: read ++ behind := by
      rw [← hread, ← hfront, hmid, ← hmore, List.append_assoc, List.cons_append]
    rw [hall] at h ⊢
    have hmem : (⟨.symbol .equal, position⟩ : Token) ∈ first :: read := by
      rw [← hread]
      exact List.mem_append_right _ List.mem_cons_self
    exact ⟨before, first, read, behind, _, rfl, rfl, hboundary, h, _, hmem, rfl⟩

/-! ## Section 3: Sources -/

/-- What a finding of a source points at. -/
structure Finding.PointsInto (source : Text) (finding : Finding) : Prop where
  line : 1 ≤ finding.line ∧ finding.line ≤ source.splitLines.length
  definition : finding.rule = .argumentName ∨ finding.rule = .mutableDefault →
    ∃ tokens, tokenize source = .ok tokens ∧ DefinesAt tokens finding.line
  assignment : finding.rule = .variableName →
    ∃ tokens, tokenize source = .ok tokens ∧ AssignsAt tokens finding.line

/-- A rule on lines is reported for a physical line, and is none of those
    on the tree. -/
theorem pointsInto_of_mem_lineFindings {limit : Nat} (h : finding ∈ lineFindings limit source) :
    finding.PointsInto source := by
  obtain ⟨hlow, hhigh, hrule⟩ := Line.mem_checkAll h
  have hline : finding.rule ≠ .argumentName ∧ finding.rule ≠ .mutableDefault ∧
      finding.rule ≠ .variableName := by
    refine ⟨?_, ?_, ?_⟩ <;> rintro hsame <;> rw [hsame] at hrule <;> revert hrule <;> decide
  refine ⟨⟨hlow, by omega⟩, ?_, fun hrule => absurd hrule hline.2.2⟩
  rintro (hrule | hrule)
  · exact absurd hrule hline.1
  · exact absurd hrule hline.2.1

theorem pointsInto_of_mem_findings (hread : Module.ofSource source = .ok m)
    (h : finding ∈ m.findings allDefaults) : finding.PointsInto source := by
  obtain ⟨tokens, htokens, hstmts⟩ := introduces_of_ofSource hread
  obtain ⟨⟨stmt, _⟩, hstmt, inFunction, hfinding⟩ := Module.exists_of_mem_findings h
  obtain ⟨ts, hintroduces, hbegins, hfresh⟩ := hstmts stmt (List.mem_map_of_mem hstmt)
  obtain ⟨token, behind, rfl, hspelled, hline⟩ := hintroduces.front
  have hphysical := line_of_isSpelled htokens (hbegins.suffix.subset List.mem_cons_self) hspelled
  rw [hline] at hphysical
  rcases Stmt.cases_of_mem_ownFindings hfinding with
    ⟨name, parameters, body, rfl, hrule⟩ | ⟨targets, value, rfl, hrule⟩
  · refine ⟨hphysical, fun _ => ?_, fun hvariable => ?_⟩
    · exact ⟨tokens, htokens, hintroduces.definesAt (hfresh rfl)⟩
    · rw [hvariable] at hrule
      rcases hrule with hrule | hrule <;> cases hrule
  · refine ⟨hphysical, ?_, fun _ => ⟨tokens, htokens, hintroduces.assignsAt hbegins⟩⟩
    rw [hrule]
    rintro (hdefinition | hdefinition) <;> cases hdefinition

theorem pointsInto_of_mem_treePass (h : finding ∈ treePass allDefaults source) :
    finding.PointsInto source := by
  unfold treePass at h
  split at h
  case h_1 m hread => exact pointsInto_of_mem_findings hread h
  case h_2 => cases h

theorem rule_mem_of_mem_treePass (h : finding ∈ treePass allDefaults source) :
    finding.rule ∈ Rule.ofTree := by
  unfold treePass at h
  split at h
  case h_1 => exact Module.rule_mem_of_mem_findings h
  case h_2 => cases h

variable (options : Options) (path source : Text) (report : Report)

/-- **Where findings point.**  The check of a source adds the findings of
    the two passes to those of its path.  Each is on a physical line of
    the source.  Those of the tree pass have the last three codes: one on
    the parameters of a function is on the line of a `def` without
    `async`, one on a variable on the line where a simple statement with
    an equals sign starts. -/
theorem checkSource_points :
    (checkSource options path source report).1.findingsFor path = report.findingsFor path ++
      (lineFindings options.maxLineLength source ++ treePass options.checkAllDefaults source) ∧
    (∀ other, other ≠ path →
      (checkSource options path source report).1.findingsFor other = report.findingsFor other) ∧
    (∀ finding ∈ lineFindings options.maxLineLength source ++
      treePass options.checkAllDefaults source, finding.PointsInto source) ∧
    ∀ finding ∈ treePass options.checkAllDefaults source,
      finding.rule.id ∈ [ascii "S010", ascii "S011", ascii "S012"] := by
  refine ⟨?_, ?_, fun finding hmem => ?_, fun finding hmem => ?_⟩
  · unfold treePass
    cases h : Module.ofSource source with
    | ok m => simp [checkSource_of_ok options path source report h]
    | error error => simp [checkSource_of_error options path source report h]
  · intro other hne
    cases h : Module.ofSource source with
    | ok m =>
      rw [checkSource_of_ok options path source report h]
      rw [Report.findingsFor_append_of_ne _ _ hne, Report.findingsFor_append_of_ne _ _ hne]
    | error error =>
      rw [checkSource_of_error options path source report h]
      rw [Report.findingsFor_append_of_ne _ _ hne]
  · rcases List.mem_append.mp hmem with hmem | hmem
    · exact pointsInto_of_mem_lineFindings hmem
    · exact pointsInto_of_mem_treePass hmem
  · exact List.mem_map_of_mem (rule_mem_of_mem_treePass hmem)

/-- A function behind a decorator, its parameters over two lines, and a
    misnamed variable on the line where the statement before it ends. -/
theorem points_of_spread_source :
    let source := ascii "@d\ndef f(A,\n B=[]): x = (\n1); Y = 2\n"
    treePass false source = [⟨2, .argumentName⟩, ⟨2, .argumentName⟩, ⟨2, .mutableDefault⟩,
      ⟨4, .variableName⟩] ∧
    (∃ tokens, tokenize source = .ok tokens ∧ DefinesAt tokens 2) ∧
    (∃ tokens, tokenize source = .ok tokens ∧ AssignsAt tokens 4) := by
  intro source
  have hread : Module.ofSource source = .ok [.functionDef 2 false (ascii "f")
      { regular := [ascii "A", ascii "B"], defaults := [⟨.list, ⟨3, 4⟩⟩] }
      [.assign 3 [⟨.name (ascii "x"), ⟨3, 9⟩⟩] ⟨.constant, ⟨4, 1⟩⟩,
        .assign 4 [⟨.name (ascii "Y"), ⟨4, 5⟩⟩] ⟨.constant, ⟨4, 9⟩⟩]] := by
    subst source
    decide +kernel
  have hpass : treePass false source = [⟨2, .argumentName⟩, ⟨2, .argumentName⟩,
      ⟨2, .mutableDefault⟩, ⟨4, .variableName⟩] := by
    unfold treePass
    rw [hread]
    rfl
  obtain ⟨_, _, hpoints, _⟩ := checkSource_points {} (ascii "a.py") source .empty
  have hmem : ∀ finding ∈ treePass false source, finding.PointsInto source :=
    fun finding hmem => hpoints finding (List.mem_append_right _ hmem)
  rw [hpass] at hmem
  refine ⟨hpass, (hmem ⟨2, .argumentName⟩ (by simp)).definition (.inl rfl), ?_⟩
  exact (hmem ⟨4, .variableName⟩ (by simp)).assignment rfl

end StyleCheck
