import StyleCheck.Proofs.Scan.Run
import StyleCheck.Proofs.Text.Lines

/-! # Indentation Levels

    The open levels of a scan increase from the level zero, which is never
    closed, and the indents and dedents among the tokens account for all
    others.

    * `Point`: every scan that a run comes past, also between two dedents
      of one line and at the end of the source.
    * `Disciplined`: what is true of the levels at each of them.
    * `codeColumn`: the indentation of the line on which a logical line
      begins.  `Visits.heeds` says that it is the innermost level there.
    * `Point.fits`: the numbers in a scan are numbers of 32 bits.
    * `tokenize_levels`: the tokens of a source that is accepted.
-/

namespace StyleCheck

open Byte

/-- The levels that tokens open. -/
def indents (tokens : List Token) : Nat := tokens.countP (·.lexeme == .indent)

/-- The levels that tokens close. -/
def dedents (tokens : List Token) : Nat := tokens.countP (·.lexeme == .dedent)

namespace Scan

variable {source : Text} {stage : Stage} {s s' t : Scan} {token : Token} {column : Nat}

/-! ## Section 1: Levels are closed one by one -/

/-- Closes the innermost level. -/
def closeLevel (s : Scan) : Scan :=
  { s with levels := s.levels.tail, tokens := ⟨.dedent, s.position⟩ :: s.tokens }

/-- One scan leads to another by closing levels, each of them because the
    levels that were open then were too deep. -/
inductive Unwinds (deep : List Nat → Prop) : Scan → Scan → Prop where
  | stay {s : Scan} : Unwinds deep s s
  | close {s t : Scan} (hdeep : deep s.levels) (h : Unwinds deep s.closeLevel t) : Unwinds deep s t

/-- Too deep for a column. -/
def deeperThan (column : Nat) (levels : List Nat) : Prop := column < levels.headD 0

/-- Too deep for the end of a source. -/
def anyOpen (levels : List Nat) : Prop := 1 < levels.length

/-- The scan with only some levels kept, and a dedent for each other one. -/
def closeTo (s : Scan) (kept : List Nat) (closed : Nat) : Scan :=
  { s with levels := kept, tokens := List.replicate closed ⟨.dedent, s.position⟩ ++ s.tokens }

theorem unwinds_closeTo {deep : List Nat → Prop} {closed kept : List Nat}
    (hlevels : s.levels = closed ++ kept)
    (hdeep : ∀ level others, level :: others <:+ closed → deep (level :: others ++ kept)) :
    Unwinds deep s (s.closeTo kept closed.length) := by
  induction closed generalizing s with
  | nil =>
    have hsame : s.closeTo kept 0 = s := by
      rw [← show s.levels = kept from hlevels]
      rfl
    exact hsame ▸ .stay
  | cons level closed ih =>
    have hfirst : deep s.levels := by
      rw [hlevels]
      exact hdeep level closed (List.suffix_refl _)
    have hrest : Unwinds deep s.closeLevel (s.closeLevel.closeTo kept closed.length) := by
      apply ih
      · simp [closeLevel, hlevels]
      · intro l others hsuffix
        exact hdeep l others (hsuffix.trans (List.suffix_cons level closed))
    have hsame : s.closeLevel.closeTo kept closed.length =
        s.closeTo kept (level :: closed).length := by
      simp [closeLevel, closeTo, List.replicate_succ', List.append_assoc]
    exact .close hfirst (hsame ▸ hrest)

/-- Settling a line closes levels while they are too deep for it. -/
theorem settle_unwinds (hcolumn : column ≤ s.level) :
    ∃ t, Unwinds (deeperThan column) s t ∧
      s.settle column = if t.level = column then .ok t else t.fail .inconsistentDedent := by
  have hsplit : s.levels = s.levels.takeWhile (column < ·) ++ s.levels.dropWhile (column < ·) :=
    List.takeWhile_append_dropWhile.symm
  refine ⟨_, unwinds_closeTo hsplit ?_, ?_⟩
  · intro level others hsuffix
    have hmem := hsuffix.subset List.mem_cons_self
    have hdeeper : decide (column < level) = true :=
      List.all_eq_true.mp (List.all_takeWhile) level hmem
    show column < level
    exact of_decide_eq_true hdeeper
  · unfold settle
    rw [if_neg (Nat.not_lt.mpr hcolumn)]
    rfl

/-! ## Section 2: Every point of a run -/

/-- The column that the blanks at the front amount to. -/
def indentColumn (s : Scan) : Nat := indentWidth (s.rest.takeWhile isBlank)

/-- The scan behind these blanks, once a line with code has begun. -/
def indented (s : Scan) : Scan := { s.skip s.blankCount with atLineStart := false }

/-- A logical line begins, on a physical line with code. -/
structure BeginsLine (source : Text) (s : Scan) : Prop where
  visit : Visits source .fresh s
  start : s.atLineStart = true
  brackets : s.brackets = []
  code : isLineOver (s.skip s.blankCount).rest = false

/-- The source has been read, and all brackets are closed. -/
structure EndsSource (source : Text) (s : Scan) : Prop where
  visit : Visits source .entered s
  rest : s.rest = []
  brackets : s.brackets = []

/-- The scans that a run comes past: between its pieces, between the
    dedents of a line, between those at the end of the source, and behind
    the end marker.  It does not matter whether the run succeeds. -/
inductive Point (source : Text) : Scan → Prop where
  | visit {stage : Stage} {s : Scan} (h : Visits source stage s) : Point source s
  | dedent {s t : Scan} (h : BeginsLine source s)
      (hcloses : Unwinds (deeperThan s.indentColumn) s.indented t) : Point source t
  | ending {s t : Scan} (h : EndsSource source s) (hcloses : Unwinds anyOpen s.endLine t) :
      Point source t
  | marked {s t : Scan} (h : EndsSource source s) (hcloses : Unwinds anyOpen s.endLine t)
      (hdone : ¬ anyOpen t.levels) : Point source (t.emit .endMarker)

/-- The levels, innermost first, decrease to zero.  There is one more of
    them than tokens have opened without closing it, and no more levels
    were ever closed than opened. -/
structure Disciplined (s : Scan) : Prop where
  bottom : s.levels.getLast? = some 0
  decreasing : s.levels.Pairwise (· > ·)
  balance : s.levels.length + dedents s.tokens = indents s.tokens + 1
  floor : ∀ older, older <:+ s.tokens → dedents older ≤ indents older

namespace Disciplined

/-- Only levels and tokens matter. -/
theorem congr (h : Disciplined s) (hlevels : s'.levels = s.levels)
    (htokens : s'.tokens = s.tokens) : Disciplined s' := by
  obtain ⟨hbottom, hdecreasing, hbalance, hfloor⟩ := h
  constructor <;> simpa only [hlevels, htokens]

theorem ofSource (source : Text) : Disciplined (ofSource source) where
  bottom := rfl
  decreasing := List.pairwise_singleton ..
  balance := rfl
  floor older h := by
    rw [List.suffix_nil.mp h]
    exact Nat.le_refl 0

/-- Tokens that are never more dedents than indents, with one more. -/
theorem floor_cons {tokens : List Token}
    (h : ∀ older, older <:+ tokens → dedents older ≤ indents older)
    (hcons : dedents (token :: tokens) ≤ indents (token :: tokens)) :
    ∀ older, older <:+ token :: tokens → dedents older ≤ indents older := by
  intro older holder
  rcases List.suffix_cons_iff.mp holder with rfl | holder
  · exact hcons
  · exact h older holder

/-- A token that is not at the margin is of no account. -/
theorem push (h : Disciplined s) (hmargin : isMargin token = false)
    (hlevels : s'.levels = s.levels) (htokens : s'.tokens = token :: s.tokens) :
    Disciplined s' := by
  simp only [isMargin, Bool.or_eq_false_iff] at hmargin
  have hindents : indents s'.tokens = indents s.tokens := by
    rw [htokens, indents, List.countP_cons, hmargin.1]
    rfl
  have hdedents : dedents s'.tokens = dedents s.tokens := by
    rw [htokens, dedents, List.countP_cons, hmargin.2]
    rfl
  have hbalance := h.balance
  refine ⟨hlevels ▸ h.bottom, hlevels ▸ h.decreasing, ?_, ?_⟩
  · rw [hlevels, hindents, hdedents]
    exact hbalance
  · have hle := h.floor s.tokens (List.suffix_refl _)
    rw [← hdedents, ← hindents, htokens] at hle
    rw [htokens]
    exact floor_cons h.floor hle

/-- There is an innermost level. -/
theorem exists_level (h : Disciplined s) : ∃ outer, s.levels = s.level :: outer := by
  have hbottom := h.bottom
  cases hlevels : s.levels with
  | nil =>
    rw [hlevels] at hbottom
    cases hbottom
  | cons top outer => exact ⟨outer, by simp [level, hlevels]⟩

/-- A level that is too deep for a column is not the only one. -/
theorem anyOpen_of_deeperThan (h : Disciplined s) (hdeeper : deeperThan column s.levels) :
    anyOpen s.levels := by
  have hbottom := h.bottom
  cases hlevels : s.levels with
  | nil =>
    rw [hlevels] at hbottom
    cases hbottom
  | cons top outer =>
    rw [hlevels] at hbottom hdeeper
    cases outer with
    | nil =>
      -- The only level is zero, and no column is less.
      obtain rfl : top = 0 := by simpa using hbottom
      exact absurd hdeeper (Nat.not_lt_zero column)
    | cons next outer => exact Nat.succ_lt_succ (Nat.succ_pos _)

theorem openLevel (h : Disciplined s) (hcolumn : s.level < column) :
    Disciplined { s.emit .indent with levels := column :: s.levels } := by
  obtain ⟨outer, hlevels⟩ := h.exists_level
  have hindents : indents (s.emit .indent).tokens = indents s.tokens + 1 :=
    List.countP_cons_of_pos rfl
  have hdedents : dedents (s.emit .indent).tokens = dedents s.tokens :=
    List.countP_cons_of_neg Bool.false_ne_true
  have hbalance := h.balance
  have hfloor := h.floor s.tokens (List.suffix_refl _)
  refine ⟨?_, ?_, ?_, floor_cons h.floor ?_⟩
  · show (column :: s.levels).getLast? = some 0
    have hbottom := h.bottom
    rw [hlevels] at hbottom ⊢
    rwa [List.getLast?_cons_cons]
  · show (column :: s.levels).Pairwise (· > ·)
    refine List.pairwise_cons.mpr ⟨fun level hmem => ?_, h.decreasing⟩
    have hdecreasing := h.decreasing
    rw [hlevels] at hdecreasing hmem
    rcases List.mem_cons.mp hmem with rfl | hmem
    · exact hcolumn
    · have := List.rel_of_pairwise_cons hdecreasing hmem
      omega
  · show s.levels.length + 1 + dedents (s.emit .indent).tokens = indents (s.emit .indent).tokens + 1
    omega
  · show dedents (s.emit .indent).tokens ≤ indents (s.emit .indent).tokens
    omega

/-- Where another level is open, the innermost may be closed. -/
theorem closeLevel (h : Disciplined s) (hopen : anyOpen s.levels) : Disciplined s.closeLevel := by
  obtain ⟨outer, hlevels⟩ := h.exists_level
  have hindents : indents s.closeLevel.tokens = indents s.tokens :=
    List.countP_cons_of_neg Bool.false_ne_true
  have hdedents : dedents s.closeLevel.tokens = dedents s.tokens + 1 :=
    List.countP_cons_of_pos rfl
  have hbottom := h.bottom
  have hdecreasing := h.decreasing
  have hbalance := h.balance
  have hkept : s.closeLevel.levels = outer := by simp [Scan.closeLevel, hlevels]
  unfold anyOpen at hopen
  rw [hlevels] at hbottom hdecreasing hbalance hopen
  simp only [List.length_cons] at hbalance hopen
  refine ⟨?_, ?_, ?_, floor_cons h.floor ?_⟩
  · rw [hkept]
    cases outer with
    | nil => exact absurd hopen (Nat.lt_irrefl 1)
    | cons next outer => rwa [List.getLast?_cons_cons] at hbottom
  · rw [hkept]
    exact hdecreasing.of_cons
  · rw [hkept, hindents, hdedents]
    omega
  · show dedents s.closeLevel.tokens ≤ indents s.closeLevel.tokens
    omega

/-- Closing levels that are too deep for something keeps the discipline,
    provided that the last one never is. -/
theorem unwinds {deep : List Nat → Prop} (hunwinds : Unwinds deep s t) (h : Disciplined s)
    (hopen : ∀ {u : Scan}, Disciplined u → deep u.levels → anyOpen u.levels) : Disciplined t := by
  induction hunwinds with
  | stay => exact h
  | close hdeep _ ih => exact ih (h.closeLevel (hopen h hdeep))

end Disciplined

theorem Visits.disciplined (h : Visits source stage s) : Disciplined s := by
  induction h with
  | start => exact .ofSource source
  | @enter s s' _ henter ih =>
    rcases enterLine_cases henter with ⟨rfl, _⟩ | ⟨_, _, ⟨rfl, _⟩ | ⟨_, hsettle⟩⟩
    · exact ih
    · exact ih.congr rfl rfl
    have hindented : Disciplined s.indented := ih.congr rfl rfl
    rcases settle_cases hsettle with ⟨hdeeper, rfl⟩ | ⟨hcolumn, _, _⟩
    · exact hindented.openLevel hdeeper
    · obtain ⟨t, hunwinds, hsettled⟩ := settle_unwinds hcolumn
      rw [hsettle] at hsettled
      split at hsettled
      case isTrue =>
        cases hsettled
        exact hindented.unwinds hunwinds fun hu => hu.anyOpen_of_deeperThan
      case isFalse => cases hsettled
  | piece hvisit hrest hpiece ih =>
    cases hvisit.turns hrest hpiece with
    | separator => exact ih.congr rfl rfl
    | newline => exact ih.push rfl rfl rfl
    | @token n lexeme _ hspelled =>
      refine ih.push ?_ rfl rfl
      cases lexeme <;> simp_all [isMargin, Lexeme.isSpelled]
    | symbol _ htracked =>
      rw [trackBrackets_eq htracked]
      exact ih.push rfl rfl rfl

theorem Point.disciplined (h : Point source s) : Disciplined s := by
  have hending : ∀ {s t : Scan}, EndsSource source s → Unwinds anyOpen s.endLine t →
      Disciplined t := by
    intro s t hends hunwinds
    have hended : Disciplined s.endLine := by
      unfold endLine
      split
      case isTrue => exact hends.visit.disciplined
      case isFalse => exact hends.visit.disciplined.push rfl rfl rfl
    exact hended.unwinds hunwinds fun _ hopen => hopen
  cases h with
  | visit h => exact h.disciplined
  | @dedent s _ h hunwinds =>
    have hindented : Disciplined s.indented := h.visit.disciplined.congr rfl rfl
    exact hindented.unwinds hunwinds fun hu => hu.anyOpen_of_deeperThan
  | ending h hunwinds => exact hending h hunwinds
  | marked h hunwinds => exact (hending h hunwinds).push rfl rfl rfl

/-! ## Section 3: How deep a line is -/

/-- A blank adds eight columns at most. -/
theorem indentWidth_le (blanks : Text) : indentWidth blanks ≤ 8 * blanks.length := by
  have hfrom : ∀ (blanks : Text) (column : Nat),
      blanks.foldl columnAfter column ≤ column + 8 * blanks.length := by
    intro blanks
    induction blanks with
    | nil => exact fun column => Nat.le_refl column
    | cons b blanks ih =>
      intro column
      have hbehind := ih (columnAfter column b)
      have hb : columnAfter column b ≤ column + 8 := by
        unfold columnAfter
        split
        · omega
        · split <;> omega
      rw [List.foldl_cons, List.length_cons]
      omega
  simpa [indentWidth] using hfrom blanks 0

/-- What closing levels leaves as it was. -/
theorem Unwinds.levels {deep : List Nat → Prop} (h : Unwinds deep s t) :
    t.levels <:+ s.levels ∧ t.rest = s.rest ∧ t.position = s.position := by
  induction h with
  | stay => exact ⟨List.suffix_refl _, rfl, rfl⟩
  | close _ _ ih =>
    obtain ⟨hlevels, hrest, hposition⟩ := ih
    exact ⟨hlevels.trans (List.tail_suffix _), hrest, hposition⟩

theorem At.indentColumn_le {offset : Nat} (h : At source s offset) :
    s.indentColumn ≤ 8 * source.length := by
  have hwidth := indentWidth_le (s.rest.takeWhile isBlank)
  have hblanks := (List.takeWhile_sublist isBlank (l := s.rest)).length_le
  have hrest := h.length_rest
  unfold indentColumn
  omega

/-- No level is deeper than eight columns for each byte of the source. -/
theorem Visits.levels_le (h : Visits source stage s) :
    ∀ level ∈ s.levels, level ≤ 8 * source.length := by
  induction h with
  | start =>
    intro level hmem
    rw [List.mem_singleton.mp hmem]
    exact Nat.zero_le _
  | @enter s s' hvisit henter ih =>
    obtain ⟨offset, hat⟩ := hvisit.exists_at
    rcases enterLine_cases henter with ⟨rfl, _⟩ | ⟨_, _, ⟨rfl, _⟩ | ⟨_, hsettle⟩⟩
    · exact ih
    · exact ih
    rcases settle_cases hsettle with ⟨_, rfl⟩ | ⟨hcolumn, _, _⟩
    -- The one level that is opened is the column of the line.
    · intro level hmem
      rcases List.mem_cons.mp hmem with rfl | hmem
      · exact hat.indentColumn_le
      · exact ih level hmem
    · obtain ⟨t, hunwinds, hsettled⟩ := settle_unwinds hcolumn
      rw [hsettle] at hsettled
      split at hsettled
      case isTrue =>
        cases hsettled
        exact fun level hmem => ih level (hunwinds.levels.1.subset hmem)
      case isFalse => cases hsettled
  | piece hvisit hrest hpiece ih =>
    cases hvisit.turns hrest hpiece with
    | separator | newline | token => exact ih
    | symbol _ htracked =>
      rw [trackBrackets_eq htracked]
      exact ih

/-- **Numbers of 32 bits are enough** for the line, the column and the levels
    at every point of a run, as long as eight times the bytes of the source
    are no more than that. -/
theorem Point.fits (h : Point source s) (hlength : source.length < 2 ^ 29) :
    s.position.Fits ∧ ∀ level ∈ s.levels, level < 2 ^ 32 := by
  have hfits : ∀ {stage : Stage} {s : Scan}, Visits source stage s →
      s.position.Fits ∧ ∀ level ∈ s.levels, level < 2 ^ 32 := by
    intro stage s hvisit
    obtain ⟨offset, hat⟩ := hvisit.exists_at
    refine ⟨hat.fits (by omega), fun level hmem => ?_⟩
    have hle := hvisit.levels_le level hmem
    omega
  have hending : ∀ {s t : Scan}, EndsSource source s → Unwinds anyOpen s.endLine t →
      t.position.Fits ∧ ∀ level ∈ t.levels, level < 2 ^ 32 := by
    intro s t hends hunwinds
    obtain ⟨hposition, hlevels⟩ := hfits hends.visit
    obtain ⟨hsuffix, _, hsame⟩ := hunwinds.levels
    have hended : s.endLine.position = s.position ∧ s.endLine.levels = s.levels := by
      unfold endLine
      split <;> exact ⟨rfl, rfl⟩
    exact ⟨hsame.trans hended.1 ▸ hposition,
      fun level hmem => hlevels level (hended.2 ▸ hsuffix.subset hmem)⟩
  cases h with
  | visit h => exact hfits h
  | @dedent s _ h hunwinds =>
    obtain ⟨offset, hat⟩ := h.visit.exists_at
    obtain ⟨hsuffix, _, hsame⟩ := hunwinds.levels
    have hindented : At source s.indented (offset + s.blankCount) :=
      (hat.skip (List.takeWhile_sublist isBlank).length_le).congr rfl rfl
    exact ⟨hsame ▸ hindented.fits (by omega),
      fun level hmem => (hfits h.visit).2 level (hsuffix.subset hmem)⟩
  | ending h hunwinds => exact hending h hunwinds
  | @marked _ t h hunwinds => exact @hending _ t h hunwinds

/-! ## Section 4: The line on which a logical line begins -/

/-- Whether there is more than blanks and a comment on a physical line. -/
def hasCode (line : Text) : Bool := !isLineOver (line.dropWhile isBlank)

/-- The indentation of the first of some physical lines that has code. -/
def codeColumn (lines : List Text) : Option Nat :=
  (lines.find? hasCode).map fun line => indentWidth (line.takeWhile isBlank)

/-- How many physical lines are over behind some tokens, the newest first,
    if a logical line begins there: all those up to the one that the last
    newline is on. -/
def linesOver (tokens : List Token) : Option Nat :=
  match tokens.dropWhile isMargin with
  | [] => some 0
  | token :: _ => if token.lexeme = .newline then some token.position.line else none

theorem codeColumn_cons_of_not {line : Text} {lines : List Text} (h : hasCode line = false) :
    codeColumn (line :: lines) = codeColumn lines := by
  simp [codeColumn, h]

theorem codeColumn_cons_of_code {line : Text} {lines : List Text} (h : hasCode line = true) :
    codeColumn (line :: lines) = some (indentWidth (line.takeWhile isBlank)) := by
  simp [codeColumn, h]

/-- Behind blanks or a comment, a line is still over. -/
theorem hasCode_append {front line : Text} (hfront : isLineOver (front.dropWhile isBlank) = true)
    (hline : isLineOver line = true) : hasCode (front ++ line) = false := by
  have hover : isLineOver ((front ++ line).dropWhile isBlank) = true := by
    rw [List.dropWhile_append]
    cases hrest : front.dropWhile isBlank with
    | nil =>
      -- What follows the blanks starts with no blank itself.
      cases line with
      | nil => rfl
      | cons b line =>
        have hb : isBlank b = false := by
          unfold isLineOver at hline
          rcases Bool.or_eq_true_iff.mp hline with hb | hb <;> rw [beq_iff_eq.mp hb] <;> decide
        simpa [hb] using hline
    | cons b rest =>
      rw [hrest] at hfront
      exact hfront
  rw [hasCode, hover]
  rfl

/-- Blanks and comments in front of a line that is over do not matter. -/
theorem codeColumn_append {front rest : Text} (hnewline : newline ∉ front)
    (hfront : isLineOver (front.dropWhile isBlank) = true) (hrest : isLineOver rest = true) :
    codeColumn (front ++ rest).splitLines = codeColumn rest.splitLines := by
  cases rest with
  | nil =>
    cases front with
    | nil => rfl
    | cons b front =>
      have hover := hasCode_append hfront hrest
      rw [List.append_nil] at hover ⊢
      rw [Text.splitLines_of_notMem hnewline (by simp), codeColumn_cons_of_not hover]
      rfl
  | cons b rest =>
    obtain ⟨first, others, heq, hlines, hne⟩ := Text.exists_splitLines (b :: rest) (by simp)
    have hfirst : isLineOver first = true := by
      cases first with
      | nil => rfl
      | cons c first =>
        obtain rfl : b = c := (List.cons.inj heq).1
        exact hrest
    have hover : hasCode first = false := @hasCode_append [] first rfl hfirst
    rw [Text.splitLines_append hnewline hlines, hlines,
      codeColumn_cons_of_not (hasCode_append hfront hfirst), codeColumn_cons_of_not hover]

theorem isBlank_of_mem_takeWhile {t : Text} : ∀ b ∈ t.takeWhile isBlank, isBlank b = true :=
  List.all_eq_true.mp List.all_takeWhile

theorem newline_notMem_takeWhile (t : Text) : newline ∉ t.takeWhile isBlank := by
  intro hmem
  exact absurd (isBlank_of_mem_takeWhile newline hmem) (by decide)

/-- A line that has code behind its blanks is the first such line. -/
theorem codeColumn_of_code {rest : Text} (h : isLineOver (rest.dropWhile isBlank) = false) :
    codeColumn rest.splitLines = some (indentWidth (rest.takeWhile isBlank)) := by
  have hsplit : rest.takeWhile isBlank ++ rest.dropWhile isBlank = rest :=
    List.takeWhile_append_dropWhile
  have hblank : ∀ b ∈ rest.takeWhile isBlank, isBlank b = true := isBlank_of_mem_takeWhile
  cases hcode : rest.dropWhile isBlank with
  | nil =>
    rw [hcode] at h
    cases h
  | cons b after =>
    have hb : isBlank b = false := by
      have := List.head?_dropWhile_not isBlank rest
      simpa [hcode] using this
    obtain ⟨first, others, heq, hlines, hne⟩ := Text.exists_splitLines (b :: after) (by simp)
    obtain ⟨line, rfl⟩ : ∃ line, first = b :: line := by
      cases first with
      | nil => exact absurd rfl hne
      | cons c line =>
        obtain rfl : b = c := (List.cons.inj heq).1
        exact ⟨line, rfl⟩
    -- The first line has the same blanks, and the same byte behind them.
    have htake : (rest.takeWhile isBlank ++ b :: line).takeWhile isBlank =
        rest.takeWhile isBlank := by
      rw [List.takeWhile_append_of_pos hblank, List.takeWhile_cons_of_neg (by simp [hb]),
        List.append_nil]
    have hhas : hasCode (rest.takeWhile isBlank ++ b :: line) = true := by
      rw [hasCode, List.dropWhile_append_of_pos hblank, List.dropWhile_cons_of_neg (by simp [hb])]
      rw [hcode] at h
      have hsame : isLineOver (b :: line) = isLineOver (b :: after) := rfl
      rw [hsame, h]
      rfl
    have hall : rest.splitLines = (rest.takeWhile isBlank ++ b :: line) :: others.splitLines := by
      rw [← Text.splitLines_append (newline_notMem_takeWhile rest) hlines, ← hcode, hsplit]
    rw [hall, codeColumn_cons_of_code hhas, htake]

/-! ## Section 5: The innermost level of a logical line -/

theorem linesOver_append_margin {margin tokens : List Token}
    (h : ∀ token ∈ margin, isMargin token = true) :
    linesOver (margin ++ tokens) = linesOver tokens := by
  unfold linesOver
  rw [List.dropWhile_append_of_pos h]

theorem linesOver_cons_of_spelled {tokens : List Token} (h : token.lexeme.isSpelled = true) :
    linesOver (token :: tokens) = none := by
  have hmargin : isMargin token = false := by
    obtain ⟨lexeme, p⟩ := token
    cases lexeme <;> simp_all [isMargin, Lexeme.isSpelled]
  have hnewline : token.lexeme ≠ .newline := by
    intro hlexeme
    rw [hlexeme] at h
    cases h
  unfold linesOver
  rw [List.dropWhile_cons_of_neg (by simp [hmargin])]
  exact if_neg hnewline

theorem NoneSpelled.of_linesOver {tokens : List Token} {lines : Nat}
    (h : linesOver tokens = some lines) : NoneSpelled tokens := by
  intro token hhead
  cases tokens with
  | nil => cases hhead
  | cons newest tokens =>
    obtain rfl : newest = token := by simpa using hhead
    cases hspelled : newest.lexeme.isSpelled with
    | false => rfl
    | true =>
      rw [linesOver_cons_of_spelled hspelled] at h
      cases h

/-- Behind a line feed, the lines that are left are those behind the line
    that the line feed is on. -/
theorem At.drop_splitLines {offset : Nat} {rest : Text} (h : At source s offset)
    (hrest : s.rest = newline :: rest) :
    source.body.splitLines.drop s.position.line = rest.splitLines := by
  obtain ⟨front, hbody, hline⟩ := h.body_eq
  rw [hbody, hline, hrest]
  exact Text.drop_splitLines front rest

/-- Where no logical line has begun since some physical lines were over,
    the next code of the source is the next code that is left.  Where one
    has begun, the innermost level is what its line is indented to. -/
def Heeds (source : Text) (s : Scan) : Prop :=
  ∀ lines, linesOver s.tokens = some lines →
    codeColumn (source.body.splitLines.drop lines) =
      if s.atLineStart then codeColumn s.rest.splitLines else some s.level

/-- Behind a comment, its line is over. -/
theorem isLineOver_drop_comment (t : Text) :
    isLineOver (t.drop (t.takeWhile (· != newline)).length) = true := by
  rw [Text.drop_length_takeWhile]
  cases hrest : t.dropWhile (· != newline) with
  | nil => rfl
  | cons b rest =>
    have hb := List.head?_dropWhile_not (· != newline) t
    rw [hrest] at hb
    obtain rfl : b = newline := by simpa using hb
    rfl

/-- A comment does not matter for the code that is next. -/
theorem codeColumn_comment (rest : Text) :
    codeColumn (Text.splitLines ((hash :: rest).drop
      ((hash :: rest).takeWhile (· != newline)).length)) =
    codeColumn (Text.splitLines (hash :: rest)) := by
  have hsplit : (hash :: rest).takeWhile (· != newline) ++ (hash :: rest).dropWhile (· != newline) =
      hash :: rest := List.takeWhile_append_dropWhile
  have hnewline : newline ∉ (hash :: rest).takeWhile (· != newline) := by
    intro hmem
    have := List.all_eq_true.mp List.all_takeWhile newline hmem
    exact absurd this (by decide)
  have hfront : isLineOver (((hash :: rest).takeWhile (· != newline)).dropWhile isBlank) = true := by
    rw [List.takeWhile_cons_of_pos (by decide), List.dropWhile_cons_of_neg (by decide)]
    rfl
  have hbehind := isLineOver_drop_comment (hash :: rest)
  rw [Text.drop_length_takeWhile] at hbehind ⊢
  rw [← codeColumn_append hnewline hfront hbehind, hsplit]

/-- Separators are skipped without a change. -/
theorem Heeds.separator {n : Nat} (h : Heeds source s) (hsep : Separates s.rest n)
    (hover : s.atLineStart = true → isLineOver s.rest = true) : Heeds source (s.skip n) := by
  intro lines hlines
  rw [h lines hlines]
  show (if s.atLineStart then _ else _) =
    if s.atLineStart then codeColumn (Text.splitLines (s.rest.drop n)) else some s.level
  split
  case isFalse => rfl
  case isTrue hstart =>
    -- There is no code on the line, so it is a line feed or a comment.
    have hrest := hover hstart
    generalize s.rest = rest at hsep hrest
    cases hsep with
    | @blank b rest hblank =>
      obtain rfl | rfl : b = hash ∨ b = newline := by simpa [isLineOver] using hrest
      · cases hblank
      · cases hblank
    | lineFeed =>
      rw [Text.splitLines_newline]
      exact codeColumn_cons_of_not rfl
    | continuation => cases hrest
    | @comment rest => exact (codeColumn_comment rest).symm

/-- The blanks at the front of a scan. -/
theorem takeWhile_append_skip (s : Scan) :
    s.rest.takeWhile isBlank ++ (s.skip s.blankCount).rest = s.rest ∧
      (s.skip s.blankCount).rest = s.rest.dropWhile isBlank := by
  have hsplit : s.rest.takeWhile isBlank ++ s.rest.dropWhile isBlank = s.rest :=
    List.takeWhile_append_dropWhile
  have hdrop : (s.skip s.blankCount).rest = s.rest.dropWhile isBlank :=
    Text.drop_length_takeWhile isBlank s.rest
  exact ⟨by rw [hdrop, hsplit], hdrop⟩

/-- Blanks in front of the end of a line are skipped without a change. -/
theorem Heeds.blanks (h : Heeds source s) (hover : isLineOver (s.skip s.blankCount).rest = true) :
    Heeds source (s.skip s.blankCount) := by
  obtain ⟨hsplit, _⟩ := s.takeWhile_append_skip
  have hfront : (s.rest.takeWhile isBlank ++ []).dropWhile isBlank = [] :=
    List.dropWhile_append_of_pos isBlank_of_mem_takeWhile
  rw [List.append_nil] at hfront
  have hsame := codeColumn_append (newline_notMem_takeWhile s.rest) (by rw [hfront]; rfl) hover
  rw [hsplit] at hsame
  intro lines hlines
  rw [h lines hlines, hsame]
  rfl

/-- Once a line with code has been settled, the innermost level is what
    it is indented to. -/
theorem Heeds.settle (h : Heeds source s) (hstart : s.atLineStart = true)
    (hcode : isLineOver (s.skip s.blankCount).rest = false)
    (hsettle : s.indented.settle s.indentColumn = .ok s') : Heeds source s' := by
  rw [(s.takeWhile_append_skip).2] at hcode
  have hsettled : s'.level = s.indentColumn ∧ s'.atLineStart = false ∧
      linesOver s'.tokens = linesOver s.tokens := by
    rcases settle_cases hsettle with ⟨_, rfl⟩ | ⟨_, hlevel, rfl⟩
    · exact ⟨rfl, rfl, @linesOver_append_margin [_] s.tokens (by simp [isMargin])⟩
    · refine ⟨hlevel, rfl, linesOver_append_margin fun token hmem => ?_⟩
      rw [(List.mem_replicate.mp hmem).2]
      rfl
  obtain ⟨hlevel, hentered, htokens⟩ := hsettled
  intro lines hlines
  rw [h lines (htokens ▸ hlines), if_pos hstart, hentered, hlevel]
  exact codeColumn_of_code hcode

theorem Visits.heeds (h : Visits source stage s) : Heeds source s := by
  induction h with
  | start =>
    intro lines hlines
    cases hlines
    rw [(at_ofSource source).rest]
    rfl
  | enter _ henter ih =>
    rcases enterLine_cases henter with ⟨rfl, _⟩ | ⟨hstart, _, ⟨rfl, hover⟩ | ⟨hcode, hsettle⟩⟩
    · exact ih
    · exact ih.blanks hover
    · exact ih.settle hstart hcode hsettle
  | @piece s s' b after hvisit hrest hpiece ih =>
    cases hvisit.turns hrest hpiece with
    | separator hsep => exact ih.separator hsep fun hstart => (hvisit.atStart hstart).lineOver rfl
    | newline hfeed =>
      intro lines hlines
      cases hlines
      obtain ⟨offset, hat⟩ := hvisit.exists_at
      rw [hat.drop_splitLines hfeed]
      show _ = codeColumn (Text.splitLines (s.rest.drop 1))
      rw [hfeed]
      rfl
    | token _ hspelled =>
      intro lines hlines
      cases (linesOver_cons_of_spelled hspelled).symm.trans hlines
    | symbol _ htracked =>
      intro lines hlines
      rw [trackBrackets_eq htracked] at hlines
      cases hlines

/-- The first token of a logical line is pushed where the innermost level
    is what the line is indented to. -/
theorem Pushes.heeds (h : Pushes source s token) {lines : Nat}
    (hlines : linesOver s.tokens = some lines) :
    codeColumn (source.body.splitLines.drop lines) = some s.level := by
  obtain ⟨hvisit, hrest, hpiece, htokens⟩ := h
  have hstart : s.atLineStart = false := by
    cases hvisit.turns hrest hpiece with
    | separator =>
      have := congrArg List.length htokens
      simp [skip] at this
    | newline _ _ hstart => exact hstart
    | token hstart => exact hstart
    | symbol hstart => exact hstart
  rw [hvisit.heeds lines hlines, hstart]
  rfl

/-! ## Section 6: The tokens of a source -/

/-- At the end, all levels but the last are closed, and the end marker is
    added. -/
theorem EndsSource.finish {tokens : List Token} (h : EndsSource source s)
    (hfinish : s.finish = .ok tokens) :
    ∃ t, Unwinds anyOpen s.endLine t ∧ t.levels.length = 1 ∧
      tokens = (t.emit .endMarker).tokens.reverse := by
  obtain ⟨_, htokens⟩ := finish_eq_ok hfinish
  have hlevels : s.endLine.levels = s.levels := by
    unfold endLine
    split <;> rfl
  have hposition : s.endLine.position = s.position := by
    unfold endLine
    split <;> rfl
  obtain ⟨closed, hclosed⟩ := List.getLast?_eq_some_iff.mp h.visit.disciplined.bottom
  refine ⟨_, unwinds_closeTo (hlevels.trans hclosed) ?_, rfl, ?_⟩
  · intro level others _
    show 1 < (level :: others ++ [0]).length
    simp
  · rw [htokens]
    simp [emit, closeTo, lastTokens, hposition, hclosed]

/-- Reversing tokens does not change what they open and close. -/
theorem balance_reverse (tokens : List Token) :
    indents tokens.reverse = indents tokens ∧ dedents tokens.reverse = dedents tokens :=
  ⟨List.countP_reverse, List.countP_reverse⟩

end Scan

open Scan in
/-- **Levels are disciplined**: at every point of a run, over any source,
    the levels decrease to zero and are accounted for by the tokens, and
    no level that is too deep for a column is the last one.  The tokens
    of an accepted source balance, no part of them from the start on
    closes more levels than it opens, and the only end marker is the last
    of them.  The first token of a logical line is pushed when the
    innermost level is the indentation of the physical line on which the
    logical line begins.  Lines, columns and levels are numbers of 32 bits
    in a source of fewer than 2 ^ 29 bytes, each of which may be a tab. -/
theorem tokenize_levels (source : Text) :
    (∀ s, Point source s →
      Disciplined s ∧ (∀ column, column < s.level → 1 < s.levels.length) ∧
        (source.length < 2 ^ 29 → s.position.Fits ∧ ∀ level ∈ s.levels, level < 2 ^ 32)) ∧
    ∀ tokens, tokenize source = .ok tokens →
      (∀ before, before <+: tokens → dedents before ≤ indents before) ∧
      dedents tokens = indents tokens ∧
      (∃ inner position, tokens = inner ++ [⟨.endMarker, position⟩] ∧
        ∀ token ∈ inner, token.lexeme ≠ .endMarker) ∧
      ∀ before first behind lines, tokens = before ++ first :: behind →
        isMargin first = false → first.lexeme ≠ .endMarker →
        linesOver before.reverse = some lines →
        ∃ s, Pushes source s first ∧ s.tokens = before.reverse ∧
          codeColumn (source.body.splitLines.drop lines) = some s.level := by
  refine ⟨fun s hpoint => ?_, fun tokens h => ?_⟩
  · exact ⟨hpoint.disciplined, fun column => hpoint.disciplined.anyOpen_of_deeperThan,
      hpoint.fits⟩
  obtain ⟨s, hvisit, hrest, hfinish⟩ := tokenize_eq_ok h
  have hends : EndsSource source s := ⟨hvisit, hrest, (finish_eq_ok hfinish).1⟩
  obtain ⟨t, hunwinds, hlength, htokens⟩ := hends.finish hfinish
  have hmarked : Disciplined (t.emit .endMarker) :=
    (Point.marked hends hunwinds (by unfold anyOpen; omega)).disciplined
  refine ⟨?_, ?_, ?_, ?_⟩
  · intro before hbefore
    have hsuffix : before.reverse <:+ (t.emit .endMarker).tokens := by
      rw [← List.reverse_prefix, List.reverse_reverse, ← htokens]
      exact hbefore
    have hfloor := hmarked.floor _ hsuffix
    rwa [(balance_reverse before).1, (balance_reverse before).2] at hfloor
  · have hbalance : t.levels.length + dedents (t.emit .endMarker).tokens =
        indents (t.emit .endMarker).tokens + 1 := hmarked.balance
    rw [htokens, (balance_reverse _).1, (balance_reverse _).2]
    omega
  · exact eq_concat_endMarker h
  · intro before first behind lines htokens hmargin hend hlines
    subst htokens
    rcases pushes_of_tokenize h hmargin hend with ⟨s, hpushes, hbefore⟩ | ⟨_, hspelled⟩
    · exact ⟨s, hpushes, hbefore, hpushes.heeds (hbefore ▸ hlines)⟩
    -- A line that is ended at the end of the source has a token already.
    · exact absurd (NoneSpelled.of_linesOver hlines) hspelled

open Scan in
/-- A tab opens a level of eight.  Behind the first line of a block, a
    comment and an empty line do not count. -/
theorem levels_of_tabs :
    (∃ s, Point (ascii "\tx") s ∧ s.level = 8 ∧ 1 < s.levels.length) ∧
    ∃ tokens s, tokenize (ascii "if x:\n  # c\n\n\ty\n") = .ok tokens ∧
      dedents tokens = indents tokens ∧
      Pushes (ascii "if x:\n  # c\n\n\ty\n") s ⟨.name (ascii "y"), ⟨4, 2⟩⟩ ∧ s.level = 8 := by
  refine ⟨?_, ?_⟩
  · let s : Scan :=
      { rest := ascii "x", position := ⟨1, 2⟩, atLineStart := false, levels := [8, 0],
        brackets := [], tokens := [⟨.indent, ⟨1, 2⟩⟩] }
    have hpoint : Point (ascii "\tx") s := .visit (.enter .start rfl)
    have hopen : 1 < s.levels.length :=
      ((tokenize_levels (ascii "\tx")).1 s hpoint).2.1 0 (by decide)
    exact ⟨s, hpoint, rfl, hopen⟩
  · let before : List Token :=
      [⟨.keyword .if_, ⟨1, 1⟩⟩, ⟨.name (ascii "x"), ⟨1, 4⟩⟩, ⟨.symbol .colon, ⟨1, 5⟩⟩,
        ⟨.newline, ⟨1, 6⟩⟩, ⟨.indent, ⟨4, 2⟩⟩]
    have htokens : tokenize (ascii "if x:\n  # c\n\n\ty\n") = .ok (before ++
        ⟨.name (ascii "y"), ⟨4, 2⟩⟩ :: [⟨.newline, ⟨4, 3⟩⟩, ⟨.dedent, ⟨5, 1⟩⟩,
          ⟨.endMarker, ⟨5, 1⟩⟩]) := rfl
    obtain ⟨_, hbalance, _, hfirst⟩ :=
      (tokenize_levels (ascii "if x:\n  # c\n\n\ty\n")).2 _ htokens
    obtain ⟨s, hpushes, _, hlevel⟩ :=
      hfirst before ⟨.name (ascii "y"), ⟨4, 2⟩⟩ _ 1 rfl rfl (by decide) rfl
    have hcolumn : codeColumn ((Text.body (ascii "if x:\n  # c\n\n\ty\n")).splitLines.drop 1) =
        some 8 := rfl
    exact ⟨_, s, htokens, hbalance, hpushes, Option.some.inj (hlevel.symm.trans hcolumn)⟩

end StyleCheck
