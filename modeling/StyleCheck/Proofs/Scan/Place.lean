import StyleCheck.Proofs.Scan.Run
import StyleCheck.Proofs.Text.Lines

/-! # Places in a Source

    A position is one of a source if reading some of its bytes leads to
    it.  All that a scan comes to, stores or fails at is such a position.

    * `Text.HasPosition.bounds`: the line is one of the source, and the
      column is in that line or just behind it.
    * `Scan.Visits.placed`: the positions of tokens and brackets.
    * `position_of_mem_tokenize`, `pairwise_of_tokenize`: the tokens of a
      source, and their order.
    * `position_of_tokenize_error`: where a source is rejected.
    * `line_of_isSpelled`: a token that is spelled is on a physical line.
-/

namespace StyleCheck

open Byte

/-! ## Section 1: Reading -/

namespace Position

theorem advance_append (p : Position) (t u : Text) :
    p.advance (t ++ u) = (p.advance t).advance u :=
  List.foldl_append

/-- Every line feed leads to the next line. -/
theorem line_advance (p : Position) (t : Text) :
    (p.advance t).line = p.line + t.count newline := by
  induction t generalizing p with
  | nil => rfl
  | cons b t ih =>
    have hb : (p.after b).line = p.line + [b].count newline := by
      unfold after
      split
      case isTrue hb => rw [hb, List.count_singleton_self]
      case isFalse hb =>
        rw [List.count_eq_zero.mpr (by simpa using Ne.symm hb)]
        rfl
    rw [show b :: t = [b] ++ t from rfl, List.count_append, ← Nat.add_assoc, ← hb]
    exact ih (p.after b)

theorem advance_of_notMem {t : Text} (p : Position) (h : newline ∉ t) :
    p.advance t = ⟨p.line, p.column + t.length⟩ := by
  induction t generalizing p with
  | nil => rfl
  | cons b t ih =>
    have hb : b ≠ newline := fun hb => h (by simp [hb])
    have hafter : p.after b = ⟨p.line, p.column + 1⟩ := if_neg hb
    have ht := ih (p.after b) fun hmem => h (List.mem_cons_of_mem b hmem)
    rw [List.length_cons, Nat.add_comm t.length, ← Nat.add_assoc]
    show (p.after b).advance t = _
    simpa only [hafter] using ht

/-- Whole lines lead to the start of a line. -/
theorem advance_start_of_endsLine {t : Text} (h : Text.EndsLine t) :
    Position.start.advance t = ⟨t.count newline + 1, 1⟩ := by
  have hline := line_advance Position.start t
  rcases h with rfl | ⟨front, rfl⟩
  · rfl
  · have hcolumn : (Position.start.advance (front ++ [newline])).column = 1 := by
      rw [advance_append]
      rfl
    cases hp : Position.start.advance (front ++ [newline]) with
    | mk line column =>
      rw [hp] at hline hcolumn
      rw [show line = _ from hline, show column = 1 from hcolumn, Nat.add_comm]
      rfl

end Position

namespace Text

/-- A text is made of whole lines, and of bytes of a line behind them. -/
theorem exists_endsLine_append (t : Text) :
    ∃ lines last, t = lines ++ last ∧ EndsLine lines ∧ newline ∉ last := by
  induction t with
  | nil => exact ⟨[], [], rfl, .inl rfl, by simp⟩
  | cons b t ih =>
    obtain ⟨lines, last, rfl, hlines, hlast⟩ := ih
    rcases hlines with rfl | ⟨front, rfl⟩
    · by_cases hb : b = newline
      · exact ⟨[b], last, rfl, .inr ⟨[], by rw [hb]; rfl⟩, hlast⟩
      · exact ⟨[], b :: last, rfl, .inl rfl, by simp [hlast, Ne.symm hb]⟩
    · exact ⟨b :: (front ++ [newline]), last, rfl, .inr ⟨b :: front, rfl⟩, hlast⟩

/-- Reading some of a source leads to a position. -/
def HasPosition (source : Text) (p : Position) : Prop :=
  ∃ read rest, source.body = read ++ rest ∧ p = Position.start.advance read

/-- A physical line of a source without its line feed, the first without a
    byte order mark.  Behind a line feed at the very end, there is an
    empty one. -/
def physicalLine (source : Text) (line : Nat) : Text :=
  withoutNewline
    ((source.splitLines[line - 1]?.getD []).drop (if line = 1 then source.bodyStart else 0))

/-- Without the byte order mark, the first line is that of the body. -/
theorem drop_first_splitLines (source : Text) :
    (source.splitLines[0]?.getD []).drop source.bodyStart =
      source.body.splitLines[0]?.getD [] := by
  have hmark := source.newline_not_mem_mark
  have hlength : (source.take source.bodyStart).length = source.bodyStart :=
    List.length_take_of_le source.bodyStart_le
  have hsource : source = source.take source.bodyStart ++ source.body :=
    (List.take_append_drop _ _).symm
  cases hlines : source.body.splitLines with
  | nil =>
    have hbody := eq_nil_of_splitLines hlines
    have hle : source.length ≤ source.bodyStart := List.drop_eq_nil_iff.mp hbody
    refine List.drop_eq_nil_of_le (Nat.le_trans ?_ hle)
    by_cases hne : source = []
    · simp [hne, splitLines]
    · rw [hbody, List.append_nil] at hsource
      rw [splitLines_of_notMem (hsource ▸ hmark) hne]
      exact Nat.le_refl _
  | cons first more =>
    rw [hsource, splitLines_append hmark hlines, ← hsource]
    exact List.drop_left' hlength

/-- Behind whole lines of the body, a line goes on as the body does. -/
theorem physicalLine_behind {source lines rest : Text} (h : EndsLine lines)
    (hbody : source.body = lines ++ rest) :
    source.physicalLine (lines.count newline + 1) =
      withoutNewline ((splitLines rest)[0]?.getD []) := by
  unfold physicalLine
  rw [Nat.add_sub_cancel]
  rcases h with rfl | ⟨front, rfl⟩
  · rw [List.count_nil, if_pos (Nat.zero_add 1), drop_first_splitLines, hbody, List.nil_append]
  · have hmark : (source.take source.bodyStart).count newline = 0 :=
      List.count_eq_zero.mpr source.newline_not_mem_mark
    have hsource : source = (source.take source.bodyStart ++ (front ++ [newline])) ++ rest := by
      rw [List.append_assoc, ← hbody]
      exact (List.take_append_drop _ _).symm
    have hwhole : EndsLine (source.take source.bodyStart ++ (front ++ [newline])) :=
      .inr ⟨source.take source.bodyStart ++ front, by simp⟩
    have hline := getElem?_splitLines hwhole rest
    rw [← hsource, List.count_append, hmark, Nat.zero_add] at hline
    rw [hline, if_neg (by simp), List.drop_zero]

/-- Bytes of a line are bytes of it without its line feed too. -/
theorem length_le_withoutNewline {last rest : Text} (h : newline ∉ last) :
    last.length ≤ (withoutNewline ((splitLines (last ++ rest))[0]?.getD [])).length := by
  cases hlines : rest.splitLines with
  | nil =>
    rw [eq_nil_of_splitLines hlines, List.append_nil]
    by_cases hne : last = []
    · simp [hne]
    · rw [splitLines_of_notMem h hne]
      simp [withoutNewline_of_notMem h]
  | cons first more =>
    have hmem : first ∈ rest.splitLines := by rw [hlines]; exact List.mem_cons_self
    obtain ⟨front, hfront, hfirst⟩ := exists_of_mem_splitLines hmem
    have hall : newline ∉ last ++ front := by simp [h, hfront]
    rw [splitLines_append h hlines]
    rcases hfirst with rfl | ⟨rfl, _⟩
    · simp [← List.append_assoc, withoutNewline_append hall]
    · simp [withoutNewline_of_notMem hall]

/-- **Bounds of positions**: the line is one of the source, and the column
    is that of a byte of the line, or the one behind its last. -/
theorem HasPosition.bounds {source : Text} {p : Position} (h : source.HasPosition p) :
    1 ≤ p.line ∧ p.line ≤ source.count newline + 1 ∧
      1 ≤ p.column ∧ p.column ≤ (source.physicalLine p.line).length + 1 := by
  obtain ⟨read, rest, hbody, rfl⟩ := h
  obtain ⟨lines, last, rfl, hlines, hlast⟩ := exists_endsLine_append read
  -- The position counts the lines, and then the bytes of the last.
  have hposition : Position.start.advance (lines ++ last) =
      ⟨lines.count newline + 1, 1 + last.length⟩ := by
    rw [Position.advance_append, Position.advance_start_of_endsLine hlines,
      Position.advance_of_notMem _ hlast]
  have hcount : lines.count newline ≤ source.count newline := by
    have hsublist : lines.Sublist source := by
      refine List.Sublist.trans ?_ (List.drop_sublist source.bodyStart source)
      rw [show source.drop source.bodyStart = source.body from rfl, hbody, List.append_assoc]
      exact List.sublist_append_left _ _
    exact hsublist.count_le _
  have hline := physicalLine_behind hlines (hbody.trans (List.append_assoc _ _ _))
  have hlength := @length_le_withoutNewline last rest hlast
  rw [hposition]
  simp only [hline]
  omega

end Text

/-! ## Section 2: The positions of a scan -/

namespace Scan

variable {source : Text} {stage : Stage} {s s' tracked : Scan} {symbol : Symbol} {offset n : Nat}
  {e : SyntaxError}

/-- A scan is where it has read to. -/
theorem At.exists_read (h : At source s offset) :
    ∃ read, source.body = read ++ s.rest ∧ s.position = Position.start.advance read := by
  have hbody := h.body
  -- What has been read is what lies between the mark and the offset.
  refine ⟨source.body.take (offset - source.bodyStart), ?_, ?_⟩
  · have hrest : s.rest = source.body.drop (offset - source.bodyStart) := by
      unfold Text.body
      rw [h.rest, List.drop_drop, Nat.add_sub_cancel' hbody]
    rw [hrest, List.take_append_drop]
  · have hle := h.le
    have hadvance := Text.advance_positionAt (Nat.le_refl source.bodyStart)
      (offset - source.bodyStart) (by omega)
    rw [Nat.add_sub_cancel' hbody, Text.positionAt_bodyStart] at hadvance
    exact h.position.trans hadvance.symm

theorem At.hasPosition (h : At source s offset) : source.HasPosition s.position := by
  obtain ⟨read, hbody, hposition⟩ := h.exists_read
  exact ⟨read, s.rest, hbody, hposition⟩

theorem At.hasPosition_of_ahead {p : Position} (h : At source s offset) (hp : s.Ahead p) :
    source.HasPosition p := by
  obtain ⟨n, hn, rfl⟩ := hp
  exact (h.skip hn).hasPosition

theorem line_le_skip (s : Scan) (n : Nat) : s.position.line ≤ (s.skip n).position.line := by
  show s.position.line ≤ (s.position.advance (s.rest.take n)).line
  rw [Position.line_advance]
  exact Nat.le_add_right _ _

/-- All that a scan has stored has a position of the source, and the
    tokens are in the order of their lines. -/
structure Placed (source : Text) (s : Scan) : Prop where
  tokens : ∀ token ∈ s.tokens, source.HasPosition token.position
  brackets : ∀ opened ∈ s.brackets, source.HasPosition opened.position
  ordered : s.tokens.Pairwise fun newer older => older.position.line ≤ newer.position.line
  behind : ∀ token ∈ s.tokens, token.position.line ≤ s.position.line

theorem placed_ofSource (source : Text) : Placed source (ofSource source) :=
  ⟨by simp [ofSource], by simp [ofSource], .nil, by simp [ofSource]⟩

/-- Whatever is added at the position of the scan, which then goes on. -/
theorem Placed.add (h : Placed source s) (hposition : source.HasPosition s.position)
    (added : List Token) (hadded : ∀ token ∈ added, token.position = s.position)
    (htokens : s'.tokens = added ++ s.tokens)
    (hbrackets : ∀ opened ∈ s'.brackets, opened ∈ s.brackets ∨ opened.position = s.position)
    (hline : s.position.line ≤ s'.position.line) : Placed source s' where
  tokens := by
    intro token hmem
    rw [htokens] at hmem
    rcases List.mem_append.mp hmem with hmem | hmem
    · exact hadded token hmem ▸ hposition
    · exact h.tokens token hmem
  brackets := by
    intro opened hmem
    rcases hbrackets opened hmem with hmem | hsame
    · exact h.brackets opened hmem
    · exact hsame ▸ hposition
  ordered := by
    rw [htokens]
    refine List.pairwise_append.mpr ⟨?_, h.ordered, ?_⟩
    · refine List.Pairwise.imp_of_mem (R := fun _ _ => True) ?_ (List.pairwise_of_forall (by simp))
      intro newer older hnewer holder _
      exact Nat.le_of_eq (by rw [hadded newer hnewer, hadded older holder])
    · intro newer hnewer older holder
      rw [hadded newer hnewer]
      exact h.behind older holder
  behind := by
    intro token hmem
    rw [htokens] at hmem
    rcases List.mem_append.mp hmem with hmem | hmem
    · rw [hadded token hmem]
      exact hline
    · exact Nat.le_trans (h.behind token hmem) hline

/-- Bytes may be read. -/
theorem Placed.skip (h : Placed source s) (hposition : source.HasPosition s.position) (n : Nat) :
    Placed source (s.skip n) :=
  h.add hposition [] (by simp) rfl (fun _ => .inl) (s.line_le_skip n)

/-- A symbol opens a bracket where it stands, or none. -/
theorem brackets_of_trackBrackets (h : s.trackBrackets symbol = .ok tracked) :
    ∀ opened ∈ tracked.brackets, opened ∈ s.brackets ∨ opened.position = s.position := by
  unfold trackBrackets at h
  split at h
  case h_1 =>
    cases h
    intro opened hmem
    rcases List.mem_cons.mp hmem with rfl | hmem
    · exact .inr rfl
    · exact .inl hmem
  case h_2 =>
    split at h
    case h_1 => cases h
    case h_2 innermost others hbrackets =>
      split at h
      case isTrue =>
        cases h
        exact fun opened hmem => .inl (hbrackets ▸ List.mem_cons_of_mem _ hmem)
      case isFalse => cases h
  case h_3 =>
    cases h
    exact fun _ => .inl

theorem Placed.enterLine (h : Placed source s) (hat : At source s offset)
    (henter : s.enterLine = .ok s') : Placed source s' := by
  have hblank : s.blankCount ≤ s.rest.length := (List.takeWhile_sublist _).length_le
  have hskipped := h.skip hat.hasPosition s.blankCount
  have hposition := (hat.skip hblank).hasPosition
  rcases enterLine_cases henter with ⟨rfl, _⟩ | ⟨_, _, ⟨rfl, _⟩ | ⟨_, hsettle⟩⟩
  · exact h
  · exact hskipped
  · rcases settle_cases hsettle with ⟨_, rfl⟩ | ⟨_, _, rfl⟩
    · refine hskipped.add hposition [⟨.indent, _⟩] ?_ rfl (fun _ => .inl) (Nat.le_refl _)
      intro token hmem
      rw [List.mem_singleton.mp hmem]
    · refine hskipped.add hposition (List.replicate _ ⟨.dedent, _⟩) ?_ rfl
        (fun _ => .inl) (Nat.le_refl _)
      intro token hmem
      rw [(List.mem_replicate.mp hmem).2]

theorem Placed.turns (h : Placed source s) (hat : At source s offset) (hturns : Turns s s') :
    Placed source s' := by
  have hone : ∀ {token added : Token}, token ∈ [added] → added.position = s.position →
      token.position = s.position := by
    intro token added hmem hadded
    rw [List.mem_singleton.mp hmem, hadded]
  cases hturns with
  | separator => exact h.skip hat.hasPosition _
  | newline =>
    exact h.add hat.hasPosition [⟨.newline, s.position⟩]
      (fun _ hmem => hone hmem rfl) rfl (fun _ => .inl) (s.line_le_skip 1)
  | @token n lexeme =>
    exact h.add hat.hasPosition [⟨lexeme, s.position⟩]
      (fun _ hmem => hone hmem rfl) rfl (fun _ => .inl) (s.line_le_skip n)
  | @symbol tracked symbol _ htracked =>
    have hbrackets := brackets_of_trackBrackets htracked
    obtain ⟨brackets, rfl⟩ : ∃ brackets, tracked = { s with brackets := brackets } :=
      ⟨_, trackBrackets_eq htracked⟩
    exact h.add hat.hasPosition [⟨.symbol symbol, s.position⟩]
      (fun _ hmem => hone hmem rfl) rfl hbrackets (s.line_le_skip _)

theorem Visits.placed (h : Visits source stage s) : Placed source s := by
  induction h with
  | start => exact placed_ofSource source
  | enter hvisit henter ih =>
    obtain ⟨_, hat⟩ := hvisit.exists_at
    exact ih.enterLine hat henter
  | piece hvisit hrest hpiece ih =>
    obtain ⟨_, hat⟩ := hvisit.exists_at
    exact ih.turns hat (hvisit.turns hrest hpiece)

/-- The tokens that are added at the end are there too. -/
theorem Placed.finish {tokens : List Token} (h : Placed source s) (hat : At source s offset)
    (hfinish : s.finish = .ok tokens) : Placed source { s with tokens := tokens.reverse } := by
  obtain ⟨_, rfl⟩ := finish_eq_ok hfinish
  have hposition := hat.hasPosition
  have hended : Placed source s.endLine ∧ s.endLine.position = s.position ∧
      s.endLine.brackets = s.brackets := by
    unfold endLine
    split
    case isTrue => exact ⟨h, rfl, rfl⟩
    case isFalse =>
      refine ⟨h.add hposition [⟨.newline, s.position⟩] ?_ rfl (fun _ => .inl)
        (Nat.le_refl _), rfl, rfl⟩
      intro token hmem
      rw [List.mem_singleton.mp hmem]
  obtain ⟨hended, hsame, hbrackets⟩ := hended
  have hlast : ∀ token ∈ s.lastTokens.reverse, token.position = s.endLine.position := by
    intro token hmem
    rw [hsame]
    rcases List.mem_append.mp (List.mem_reverse.mp hmem) with hmem | hmem
    · rw [(List.mem_replicate.mp hmem).2]
    · rw [List.mem_singleton.mp hmem]
  refine hended.add (hsame ▸ hposition) _ hlast ?_ ?_ (Nat.le_of_eq (by rw [hsame]))
  · rw [List.reverse_append, List.reverse_reverse]
  · rw [hbrackets]
    exact fun _ => .inl

theorem Stops.hasPosition (h : Stops source s e) : source.HasPosition e.position := by
  cases h with
  | line hvisit herror =>
    obtain ⟨_, hat⟩ := hvisit.exists_at
    exact hat.hasPosition_of_ahead (enterLine_eq_error herror).1
  | piece hvisit hrest herror =>
    obtain ⟨_, hat⟩ := hvisit.exists_at
    exact hat.hasPosition_of_ahead (piece_eq_error hrest herror).1
  | finish hvisit _ herror =>
    obtain ⟨innermost, others, hbrackets, rfl⟩ := finish_eq_error herror
    exact hvisit.placed.brackets innermost (by rw [hbrackets]; exact List.mem_cons_self)

/-- A token is pushed where the scan is. -/
theorem Pushes.position {token : Token} (h : Pushes source s token) :
    token.position = s.position := by
  obtain ⟨hvisit, hrest, hpiece, htokens⟩ := h
  have hsame : ∀ {added : Token}, added.position = s.position →
      added :: s.tokens = token :: s.tokens → token.position = s.position := by
    intro added hadded hcons
    rw [← (List.cons.inj hcons).1, hadded]
  cases hvisit.turns hrest hpiece with
  | separator => exact absurd htokens.symm (List.cons_ne_self _ _)
  | newline => exact hsame rfl htokens
  | token => exact hsame rfl htokens
  | @symbol tracked symbol _ htracked =>
    obtain ⟨brackets, rfl⟩ : ∃ brackets, tracked = { s with brackets := brackets } :=
      ⟨_, trackBrackets_eq htracked⟩
    exact hsame rfl htokens

end Scan

/-! ## Section 3: Whole sources -/

variable {source : Text} {tokens : List Token} {token : Token} {e : SyntaxError}

theorem placed_of_tokenize (h : tokenize source = .ok tokens) :
    ∃ s : Scan, s.tokens = tokens.reverse ∧ s.Placed source := by
  obtain ⟨s, hvisit, _, hfinish⟩ := Scan.tokenize_eq_ok h
  obtain ⟨_, hat⟩ := hvisit.exists_at
  exact ⟨_, rfl, hvisit.placed.finish hat hfinish⟩

theorem position_of_mem_tokenize (h : tokenize source = .ok tokens) (hmem : token ∈ tokens) :
    source.HasPosition token.position := by
  obtain ⟨s, hs, hplaced⟩ := placed_of_tokenize h
  exact hplaced.tokens token (hs ▸ List.mem_reverse.mpr hmem)

/-- The lines of the tokens never decrease. -/
theorem pairwise_of_tokenize (h : tokenize source = .ok tokens) :
    tokens.Pairwise fun a b => a.position.line ≤ b.position.line := by
  obtain ⟨s, hs, hplaced⟩ := placed_of_tokenize h
  exact List.pairwise_reverse.mp (hs ▸ hplaced.ordered)

theorem position_of_tokenize_error (h : tokenize source = .error e) :
    source.HasPosition e.position := by
  obtain ⟨s, hstops⟩ := Scan.tokenize_eq_error h
  exact hstops.hasPosition

/-- There are more lines than line feeds in front of a byte. -/
theorem Text.count_lt_length_splitLines (front : Text) {rest : Text} (hrest : rest ≠ []) :
    front.count newline < (front ++ rest).splitLines.length := by
  induction front with
  | nil =>
    obtain ⟨first, more, _, hlines, _⟩ := exists_splitLines rest hrest
    simp [hlines]
  | cons b front ih =>
    by_cases hb : b = newline
    · subst hb
      rw [List.cons_append, splitLines_newline, List.count_cons_self, List.length_cons]
      omega
    · obtain ⟨first, more, _, hlines, _⟩ := exists_splitLines (front ++ rest) (by simp [hrest])
      rw [hlines] at ih
      rw [List.cons_append, splitLines_cons hb hlines, List.count_cons_of_ne hb]
      exact ih

/-- A token that is spelled stands on one of the physical lines. -/
theorem line_of_isSpelled (h : tokenize source = .ok tokens) (hmem : token ∈ tokens)
    (hspelled : token.lexeme.isSpelled = true) :
    1 ≤ token.position.line ∧ token.position.line ≤ source.splitLines.length := by
  obtain ⟨before, behind, rfl⟩ := List.append_of_mem hmem
  obtain ⟨s, hpushes, _⟩ := Scan.pushes_of_isSpelled h hspelled
  rw [hpushes.position]
  obtain ⟨hvisit, hrest, _, _⟩ := hpushes
  obtain ⟨_, hat⟩ := hvisit.exists_at
  obtain ⟨front, hbody, hline⟩ := hat.body_eq
  have hsource : source = (source.take source.bodyStart ++ front) ++ s.rest := by
    rw [List.append_assoc, ← hbody]
    exact (List.take_append_drop source.bodyStart source).symm
  have hcount := Text.count_lt_length_splitLines (source.take source.bodyStart ++ front)
    (show s.rest ≠ [] by simp [hrest])
  rw [← hsource, List.count_append, List.count_eq_zero.mpr source.newline_not_mem_mark] at hcount
  omega

end StyleCheck
