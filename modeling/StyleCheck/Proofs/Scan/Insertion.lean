import StyleCheck.Proofs.Scan.Hollow
import StyleCheck.Proofs.Scan.Lookahead
import StyleCheck.Proofs.Scan.Place
import StyleCheck.Proofs.Scan.Span

/-! # Text Put In

    A line without code may be put in where a line starts, and blanks or a
    continuation behind any token.  The scan comes to that place as it did,
    since what is put in parts tokens; it reads over what is put in without
    a change but to its position; and it goes on behind it as it did, since
    it never looks at positions.

    * `tokenize_blankLine`: a line without code moves the tokens behind it
      to the next line, or the error.
    * `lexemes_of_filler`: what may stand between tokens leaves all lexemes
      as they are.
-/

namespace StyleCheck

open Byte

/-! ## Section 1: What is put in -/

/-- A line that holds nothing but blanks, and perhaps a comment. -/
inductive BlankLine : Text → Prop where
  | blank {blanks : Text} (hblanks : ∀ b ∈ blanks, isBlank b = true) :
      BlankLine (blanks ++ [newline])
  | comment {blanks text : Text} (hblanks : ∀ b ∈ blanks, isBlank b = true)
      (htext : newline ∉ text) : BlankLine (blanks ++ hash :: (text ++ [newline]))

/-- What may stand behind a token when the given brackets are open: blanks
    and continuations, and within brackets comments and line feeds too. -/
inductive Filler (brackets : List OpenBracket) : Text → Prop where
  | nothing : Filler brackets []
  | blank {b : UInt8} {more : Text} (hb : isBlank b = true) (h : Filler brackets more) :
      Filler brackets (b :: more)
  | continuation {more : Text} (h : Filler brackets more) :
      Filler brackets (backslash :: newline :: more)
  | lineFeed {more : Text} (hopen : brackets ≠ []) (h : Filler brackets more) :
      Filler brackets (newline :: more)
  /-- A comment, in front of the line feed that ends it. -/
  | comment {text more : Text} (htext : newline ∉ text)
      (h : Filler brackets (newline :: more)) : Filler brackets (hash :: (text ++ newline :: more))

theorem Byte.parts_of_isBlank {b : UInt8} (h : isBlank b = true) : parts b = true := by
  simp [parts, h]

theorem Byte.ne_newline_of_isBlank {b : UInt8} (h : isBlank b = true) : b ≠ newline := by
  rintro rfl
  cases h

/-- No token goes on with a line without code. -/
theorem BlankLine.isParted {line : Text} (h : BlankLine line) (rest : Text) :
    Text.IsParted (line ++ rest) := by
  cases h with
  | @blank blanks hblanks =>
    cases blanks with
    | nil => exact ⟨newline, rest, rfl, rfl⟩
    | cons b blanks => exact ⟨b, _, rfl, parts_of_isBlank (hblanks b List.mem_cons_self)⟩
  | @comment blanks text hblanks =>
    cases blanks with
    | nil => exact ⟨hash, _, rfl, rfl⟩
    | cons b blanks => exact ⟨b, _, rfl, parts_of_isBlank (hblanks b List.mem_cons_self)⟩

theorem Filler.isParted {brackets : List OpenBracket} {filler : Text} (h : Filler brackets filler)
    (hne : filler ≠ []) (rest : Text) : Text.IsParted (filler ++ rest) := by
  cases h with
  | nothing => exact absurd rfl hne
  | blank hb => exact ⟨_, _, rfl, parts_of_isBlank hb⟩
  | continuation => exact ⟨backslash, _, rfl, rfl⟩
  | lineFeed => exact ⟨newline, _, rfl, rfl⟩
  | comment => exact ⟨hash, _, rfl, rfl⟩

/-- A line without code leads from the start of a line to that of the next. -/
theorem BlankLine.advance {line : Text} (h : BlankLine line) (p : Position) :
    p.advance line = ⟨p.line + 1, 1⟩ := by
  obtain ⟨front, rfl, hfront⟩ : ∃ front, line = front ++ [newline] ∧ newline ∉ front := by
    cases h with
    | blank hblanks =>
      exact ⟨_, rfl, fun hmem => ne_newline_of_isBlank (hblanks _ hmem) rfl⟩
    | @comment blanks text hblanks htext =>
      refine ⟨blanks ++ hash :: text, by simp, ?_⟩
      intro hmem
      rcases List.mem_append.mp hmem with hmem | hmem
      · exact ne_newline_of_isBlank (hblanks _ hmem) rfl
      · rcases List.mem_cons.mp hmem with hhash | hmem
        · cases hhash
        · exact htext hmem
  rw [Position.advance_append, Position.advance_of_notMem p hfront]
  rfl

/-! ## Section 2: Reading over it -/

namespace Scan

variable {source a b other : Text} {stage : Stage} {s s' : Scan} {n : Nat}

theorem skip_skip (s : Scan) (n m : Nat) : (s.skip n).skip m = s.skip (n + m) := by
  unfold skip
  simp only [List.drop_drop, List.take_add, Position.advance_append]

/-- Where a logical line has begun, separators are read over. -/
theorem outcome_of_separates {c : UInt8} {after : Text} (hstart : s.atLineStart = false)
    (hrest : s.rest = c :: after) (hsep : Separates s.rest n) (hfeed : c ≠ newline) :
    outcome .fresh s = outcome .fresh (s.skip n) := by
  rw [outcome_of_started hstart]
  exact outcome_of_piece hrest (piece_of_separates hrest hsep hfeed)

theorem piece_newline (s : Scan) (after : Text) : s.piece newline after = .ok s.lineFeed := rfl

/-- Within brackets, so is a line feed. -/
theorem outcome_of_lineFeed {after : Text} (hstart : s.atLineStart = false)
    (hrest : s.rest = newline :: after) (hopen : s.brackets ≠ []) :
    outcome .fresh s = outcome .fresh (s.skip 1) := by
  have hfeed : s.lineFeed = s.skip 1 := if_neg hopen
  rw [outcome_of_started hstart, outcome_of_piece hrest (piece_newline s after), hfeed]

/-- The first bytes of a text are read over. -/
theorem rest_skip {front behind : Text} (hrest : s.rest = front ++ behind) :
    (s.skip front.length).rest = behind := by
  show s.rest.drop front.length = behind
  rw [hrest, List.drop_left]

/-- A comment is as long as what stands in front of the next line feed. -/
theorem separates_comment {text after : Text} (htext : newline ∉ text) :
    Separates (hash :: (text ++ newline :: after)) (hash :: text).length := by
  have hall : ∀ c ∈ hash :: text, (c != newline) = true := by
    intro c hc
    rw [bne_iff_ne]
    rintro rfl
    rcases List.mem_cons.mp hc with hhash | hc
    · cases hhash
    · exact htext hc
  have hcount : ((hash :: (text ++ newline :: after)).takeWhile (· != newline)).length =
      (hash :: text).length := by
    show ((hash :: text ++ newline :: after).takeWhile (· != newline)).length = _
    rw [List.takeWhile_append_of_pos hall, List.takeWhile_cons_of_neg (by decide), List.append_nil]
  rw [← hcount]
  exact .comment

/-- By induction on what is put in. -/
theorem outcome_filler {brackets : List OpenBracket} {filler : Text} (h : Filler brackets filler) :
    ∀ {s : Scan}, s.atLineStart = false → s.brackets = brackets → s.rest = filler ++ b →
      outcome .fresh s = outcome .fresh (s.skip filler.length) := by
  induction h with
  | nothing =>
    intro s _ _ _
    rfl
  | @blank c more hb _ ih =>
    intro s hstart hbrackets hrest
    have hsep : Separates s.rest 1 := hrest ▸ .blank hb
    have hmore := @ih (s.skip 1) hstart hbrackets (@rest_skip s [c] _ hrest)
    rw [outcome_of_separates hstart hrest hsep (ne_newline_of_isBlank hb), hmore, skip_skip,
      List.length_cons, Nat.add_comm]
  | @continuation more _ ih =>
    intro s hstart hbrackets hrest
    have hsep : Separates s.rest 2 := hrest ▸ .continuation
    have hmore := @ih (s.skip 2) hstart hbrackets (@rest_skip s [backslash, newline] _ hrest)
    rw [outcome_of_separates hstart hrest hsep (by decide), hmore, skip_skip, List.length_cons,
      List.length_cons, Nat.add_comm]
  | @lineFeed more hopen _ ih =>
    intro s hstart hbrackets hrest
    have hmore := @ih (s.skip 1) hstart hbrackets (@rest_skip s [newline] _ hrest)
    rw [outcome_of_lineFeed hstart hrest (hbrackets ▸ hopen), hmore, skip_skip, List.length_cons,
      Nat.add_comm]
  | @comment text more htext _ ih =>
    intro s hstart hbrackets hrest
    have hcons : s.rest = hash :: (text ++ newline :: (more ++ b)) := by
      rw [hrest, List.cons_append, List.append_assoc]
      rfl
    have hsep : Separates s.rest (hash :: text).length := by
      rw [hcons]
      exact separates_comment htext
    have hmore := @ih (s.skip (hash :: text).length) hstart hbrackets (rest_skip hcons)
    rw [outcome_of_separates hstart hcons hsep (by decide), hmore, skip_skip, ← List.length_append]
    rfl

/-- Blanks in front of the end of a line, or of a comment, are read when
    the line is entered, and change nothing. -/
theorem outcome_of_blanks {blanks after : Text} {c : UInt8} (hstart : s.atLineStart = true)
    (hbrackets : s.brackets = []) (hblanks : ∀ b ∈ blanks, isBlank b = true)
    (hrest : s.rest = blanks ++ c :: after) (hends : c = hash ∨ c = newline) :
    outcome .fresh s = outcome .entered (s.skip blanks.length) := by
  have hblank : ¬ isBlank c = true := by
    rcases hends with rfl | rfl <;> decide
  have hcount : s.blankCount = blanks.length := by
    unfold blankCount
    rw [hrest, List.takeWhile_append_of_pos hblanks, List.takeWhile_cons_of_neg hblank,
      List.append_nil]
  have hover : isLineOver (s.skip blanks.length).rest = true := by
    rw [rest_skip hrest]
    rcases hends with rfl | rfl <;> rfl
  have hline : (s.atLineStart && s.brackets.isEmpty) = true := by
    rw [hstart, hbrackets]
    rfl
  have henter : s.enterLine = .ok (s.skip blanks.length) := by
    unfold enterLine
    rw [if_pos hline, indentation_eq, hcount, if_pos hover]
  exact outcome_of_enter henter

/-- Where a logical line may start, a line feed ends nothing. -/
theorem lineFeed_of_start (hstart : s.atLineStart = true) (hbrackets : s.brackets = []) :
    s.lineFeed = s.skip 1 := by
  unfold lineFeed
  rw [if_pos hbrackets, if_pos hstart, ← hstart]
  rfl

/-- So does the line feed at the end of a line without code. -/
theorem outcome_of_blanks_newline {blanks after : Text} (hstart : s.atLineStart = true)
    (hbrackets : s.brackets = []) (hblanks : ∀ b ∈ blanks, isBlank b = true)
    (hrest : s.rest = blanks ++ newline :: after) :
    outcome .fresh s = outcome .fresh (s.skip (blanks.length + 1)) := by
  have hfeed : (s.skip blanks.length).lineFeed = (s.skip blanks.length).skip 1 :=
    lineFeed_of_start hstart hbrackets
  rw [outcome_of_blanks hstart hbrackets hblanks hrest (.inr rfl),
    outcome_of_piece (rest_skip hrest) (piece_newline _ after), hfeed, skip_skip]

theorem outcome_blankLine {line : Text} (h : BlankLine line) (hstart : s.atLineStart = true)
    (hbrackets : s.brackets = []) (hrest : s.rest = line ++ b) :
    outcome .fresh s = outcome .fresh (s.skip line.length) := by
  cases h with
  | @blank blanks hblanks =>
    rw [List.append_assoc] at hrest
    rw [outcome_of_blanks_newline hstart hbrackets hblanks hrest, List.length_append]
    rfl
  | @comment blanks text hblanks htext =>
    have hcomment : s.rest = blanks ++ hash :: (text ++ newline :: b) := by
      rw [hrest, List.append_assoc, List.cons_append, List.append_assoc]
      rfl
    have hsep : Separates (s.skip blanks.length).rest (hash :: text).length := by
      rw [rest_skip hcomment]
      exact separates_comment htext
    have hpiece := piece_of_separates (rest_skip hcomment) hsep (by decide)
    -- Behind the comment, the line has no blanks left.
    have hlast := @outcome_of_blanks_newline ((s.skip blanks.length).skip (hash :: text).length)
      [] b hstart hbrackets (by simp) (@rest_skip _ (hash :: text) _ (rest_skip hcomment))
    rw [outcome_of_blanks hstart hbrackets hblanks hcomment (.inl rfl),
      outcome_of_piece (rest_skip hcomment) hpiece, hlast, skip_skip, skip_skip]
    simp [Nat.add_assoc]

/-- **What is put in** and read over makes no difference behind it but to
    positions, and they are related as the place is to the one behind it. -/
theorem Visits.agree_of_read (h : Visits (a ++ b) .fresh s) (R : Position → Position → Prop)
    (hR : Position.Moves R) {middle : Text} (hrest : s.rest = b)
    (h' : Visits (a ++ (middle ++ b)) .fresh { s with rest := middle ++ b })
    (hread : outcome .fresh { s with rest := middle ++ b } =
      outcome .fresh (skip { s with rest := middle ++ b } middle.length))
    (hposition : R s.position (s.position.advance middle))
    (hbrackets : ∀ opened ∈ s.brackets, R opened.position opened.position) :
    Agree R (fun ts us => Newer R s.tokens ts.reverse us.reverse)
      (tokenize (a ++ b)) (tokenize (a ++ middle ++ b)) := by
  have halike : Alike R s.tokens s (skip { s with rest := middle ++ b } middle.length) :=
    { rest := by rw [rest_skip rfl, hrest]
      position := by
        show R s.position (s.position.advance ((middle ++ b).take middle.length))
        rw [List.take_left]
        exact hposition
      atLineStart := rfl
      levels := rfl
      brackets := List.forall₂_same.mpr fun opened hmem => ⟨rfl, hbrackets opened hmem⟩
      tokens := ⟨[], [], rfl, rfl, .nil⟩ }
  rw [List.append_assoc, h.tokenize_eq, h'.tokenize_eq, hread]
  exact halike.tokens_of_outcome hR

/-! ## Section 3: Lines -/

/-- Bytes of a line lead away from its start. -/
theorem Visits.column_skip (h : Visits source stage s) (hpos : 0 < n) (hle : n ≤ s.rest.length)
    (hline : newline ∉ s.rest.take n) : (s.skip n).position.column ≠ 1 := by
  obtain ⟨offset, hat⟩ := h.exists_at
  have hcolumn : 1 ≤ s.position.column := hat.hasPosition.bounds.2.2.1
  have hadvance : (s.skip n).position = ⟨s.position.line, s.position.column + n⟩ := by
    show s.position.advance (s.rest.take n) = _
    rw [Position.advance_of_notMem _ hline, List.length_take, Nat.min_eq_left hle]
  rw [hadvance]
  show s.position.column + n ≠ 1
  omega

/-- A logical line may start where a physical line does, and only a line
    feed leads there. -/
theorem Visits.eq_newline_of_column {c : UInt8} {after : Text} (h : Visits source .entered s)
    (hrest : s.rest = c :: after) (hpiece : s.piece c after = .ok s')
    (hstart : s'.atLineStart = true) (hcolumn : s'.position.column = 1) : c = newline := by
  cases h.turns hrest hpiece with
  | newline hfeed =>
    rw [hrest] at hfeed
    exact (List.cons.inj hfeed).1
  | token hbegun => exact absurd hstart (by simpa [skip, emit] using hbegun)
  | symbol hbegun htracked =>
    rw [trackBrackets_eq htracked] at hstart
    exact absurd hstart (by simpa [skip, emit] using hbegun)
  | @separator n hsep =>
    have haway := h.column_skip hsep.pos hsep.le_length
    by_cases hc : c = newline
    · exact hc
    refine absurd hcolumn (haway fun hmem => ?_)
    have hover : isLineOver s.rest = true := (h.atStart hstart).lineOver rfl
    rw [hrest] at hsep hmem hover
    -- Neither a blank nor a comment has a line feed in it.
    cases hsep with
    | blank hb => exact hc (List.mem_singleton.mp hmem).symm
    | lineFeed => exact hc rfl
    | continuation => cases hover
    | comment =>
      rw [← List.prefix_iff_eq_take.mp (List.takeWhile_prefix _)] at hmem
      simpa using List.all_eq_true.mp List.all_takeWhile newline hmem

/-- A run comes to the start of a line, whatever parts tokens there. -/
theorem Visits.swapped_of_column (hother : other.IsParted) (h : Visits (a ++ b) .fresh s)
    (hrest : s.rest = b) (hstart : s.atLineStart = true) (hcolumn : s.position.column = 1) :
    Visits (a ++ other) .fresh { s with rest := other } := by
  suffices hswapped : ∃ t, Visits (a ++ other) .fresh t ∧ Swapped b other s t by
    obtain ⟨t, hvisit, front, hfront, rfl⟩ := hswapped
    obtain rfl : front = [] := List.append_left_eq_self.mp (hfront.symm.trans hrest)
    exact hvisit
  have hle : b.length ≤ s.rest.length := Nat.le_of_eq (congrArg List.length hrest.symm)
  cases h with
  | start => exact ⟨_, .start, swapped_ofSource hother hle⟩
  | @piece before _ c after hvisit hcons hpiece =>
    have hshorter := (piece_reads hcons hpiece).length_lt
    obtain rfl := hvisit.eq_newline_of_column hcons hpiece hstart hcolumn
    obtain ⟨t, hvisit', hswapped⟩ := hvisit.swapped hother (by omega)
    obtain ⟨after', t', hcons', hpiece', hswapped'⟩ :=
      hswapped.piece hother hcons hpiece hle (fun hhash => by cases hhash)
    exact ⟨t', .piece hvisit' hcons' hpiece', hswapped'⟩

end Scan

/-- One line further down. -/
def Position.lowered (p : Position) : Position := ⟨p.line + 1, p.column⟩

/-- The token, one line further down. -/
def Token.lowered (token : Token) : Token := { token with position := token.position.lowered }

/-- The error, one line further down. -/
def SyntaxError.lowered (e : SyntaxError) : SyntaxError := { e with position := e.position.lowered }

theorem Position.moves_lowered : Position.Moves fun p q => q = p.lowered := by
  rintro p _ b rfl
  unfold after lowered
  by_cases hb : b = newline
  · rw [if_pos hb, if_pos hb]
  · rw [if_neg hb, if_neg hb]

theorem eq_map_lowered {ts us : List Token}
    (h : List.Forall₂ (Token.Alike fun p q => q = p.lowered) ts us) : us = ts.map Token.lowered := by
  induction h with
  | nil => rfl
  | @cons t u ts us hfirst _ ih =>
    obtain ⟨lexeme, p⟩ := t
    obtain ⟨lexeme', q⟩ := u
    obtain ⟨rfl, rfl⟩ : lexeme = lexeme' ∧ q = p.lowered := ⟨hfirst.lexeme, hfirst.position⟩
    rw [ih]
    rfl

/-- **Lines without code**: where a run comes to the start of a line on
    which a logical line may start, a line without code may be put in.  The
    tokens that have been read there stay, all behind them move to the next
    line, and so does the error if there is one. -/
theorem tokenize_blankLine {a b line : Text} {s : Scan} (hvisit : Scan.Visits (a ++ b) .fresh s)
    (hat : Scan.At (a ++ b) s a.length) (hphysical : (a ++ b).lineStart a.length = a.length)
    (hstart : s.atLineStart = true) (hline : BlankLine line) :
    (∀ tokens, tokenize (a ++ b) = .ok tokens → ∃ behind,
      tokens = s.tokens.reverse ++ behind ∧
      tokenize (a ++ line ++ b) = .ok (s.tokens.reverse ++ behind.map Token.lowered)) ∧
    ∀ e, tokenize (a ++ b) = .error e → tokenize (a ++ line ++ b) = .error e.lowered := by
  have hrest : s.rest = b := by rw [hat.rest, List.drop_left]
  have hcolumn : s.position.column = 1 := by
    rw [hat.position, Text.positionAt, hphysical, Nat.sub_self]
  have hbrackets : s.brackets = [] := (hvisit.atStart hstart).brackets
  have hposition : s.position.advance line = s.position.lowered := by
    rw [hline.advance, Position.lowered, hcolumn]
  -- The run comes to the line, and reads over it.
  have hagree := hvisit.agree_of_read (fun p q => q = p.lowered) Position.moves_lowered hrest
    (hvisit.swapped_of_column (hline.isParted b) hrest hstart hcolumn)
    (Scan.outcome_blankLine hline hstart hbrackets rfl) hposition (by simp [hbrackets])
  generalize tokenize (a ++ line ++ b) = result at hagree ⊢
  refine ⟨fun tokens htokens => ?_, fun e herror => ?_⟩
  · rw [htokens] at hagree
    cases hagree with
    | ok hnewer =>
      obtain ⟨behind, behind', hold, rfl, hall⟩ := hnewer.forwards
      exact ⟨behind, hold, by rw [eq_map_lowered hall]⟩
  · rw [herror] at hagree
    cases hagree with
    | error hposition =>
      rw [hposition]
      rfl

/-- A comment between a line and its block, deeper than either, with a quote
    in it, a bracket and a backslash: four tokens stay, five move. -/
theorem block_below_comment : ∃ (s : Scan) (behind : List Token),
    Scan.Visits (ascii "if x:\n" ++ ascii "  y\n") .fresh s ∧ s.atLineStart = true ∧
    BlankLine (ascii "\t# '(\\\n") ∧ s.tokens.length = 4 ∧ behind.length = 5 ∧
    tokenize (ascii "if x:\n" ++ ascii "  y\n") = .ok (s.tokens.reverse ++ behind) ∧
    tokenize (ascii "if x:\n" ++ ascii "\t# '(\\\n" ++ ascii "  y\n") =
      .ok (s.tokens.reverse ++ behind.map Token.lowered) := by
  -- Five rounds lead to the end of the first line.
  have hvisit : Scan.Visits (ascii "if x:\n" ++ ascii "  y\n") .fresh _ :=
    .piece (.enter (.piece (.enter (.piece (.enter (.piece (.enter (.piece (.enter .start rfl)
      rfl rfl) rfl) rfl rfl) rfl) rfl rfl) rfl) rfl rfl) rfl) rfl rfl
  have hline : BlankLine (ascii "\t# '(\\\n") :=
    @BlankLine.comment [tab] (ascii " '(\\") (List.forall_mem_singleton.mpr rfl) (by decide)
  obtain ⟨behind, htokens, hmoved⟩ :=
    (tokenize_blankLine hvisit ⟨by decide, by decide, rfl, rfl⟩ (by decide) rfl hline).1 _ rfl
  have hfive : behind.length = 5 := Nat.add_left_cancel
    ((List.length_append ..).symm.trans (congrArg List.length htokens).symm)
  exact ⟨_, behind, hvisit, rfl, hline, rfl, hfive, htokens ▸ rfl, hmoved⟩

/-! ## Section 4: Tokens -/

namespace Text

/-- Further on in a source there is another position. -/
theorem le_of_positionAt_eq {source : Text} {offset offset' : Nat}
    (hbody : source.bodyStart ≤ offset) (hle : offset' ≤ source.length)
    (h : source.positionAt offset = source.positionAt offset') : offset' ≤ offset := by
  by_cases hlt : offset < offset'
  · have hlength : ((source.drop offset).take (offset' - offset)).length = offset' - offset :=
      List.length_take_of_le (by rw [List.length_drop]; omega)
    have hadvance := advance_positionAt hbody (offset' - offset) (by omega)
    rw [Nat.add_sub_cancel' (Nat.le_of_lt hlt), ← h] at hadvance
    -- The position neither comes to another line nor to another column.
    have hlines := congrArg Position.line hadvance
    rw [Position.line_advance] at hlines
    have hline : newline ∉ (source.drop offset).take (offset' - offset) :=
      List.count_eq_zero.mp (by omega)
    rw [Position.advance_of_notMem _ hline, hlength] at hadvance
    have hcolumns : (source.positionAt offset).column + (offset' - offset) =
      (source.positionAt offset).column := congrArg Position.column hadvance
    omega
  · exact Nat.le_of_not_lt hlt

end Text

/-- The bytes of a source that a token stands for end at an offset. -/
def EndsAt (source : Text) (token : Token) (offset : Nat) : Prop :=
  ∃ start, source.bodyStart ≤ start ∧ start ≤ offset ∧ offset ≤ source.length ∧
    StandsFor source token ⟨start, offset⟩

namespace Scan

variable {source : Text} {s : Scan} {token : Token} {offset : Nat}

/-- The piece that a token is pushed for ends where the token does, with its
    line begun. -/
theorem Pushes.exists_behind (h : Pushes source s token) (hspelled : token.lexeme.isSpelled = true)
    (hends : EndsAt source token offset) :
    ∃ s' c after, Visits source .entered s ∧ s.rest = c :: after ∧ s.piece c after = .ok s' ∧
      s'.tokens = token :: s.tokens ∧ s'.rest = source.drop offset ∧ s'.atLineStart = false := by
  have hposition := h.position
  obtain ⟨hvisit, hrest, hpiece, htokens⟩ := h
  refine ⟨_, _, _, hvisit, hrest, hpiece, htokens, ?_⟩
  obtain ⟨start, hbody, hle, hlength, hstands⟩ := hends
  obtain ⟨here, hat⟩ := hvisit.exists_at
  have hsame : here = start := by
    have heq : source.positionAt here = source.positionAt start := by
      rw [← hat.position, ← hposition, hstands.position]
    have hle := Text.le_of_positionAt_eq hat.body (by omega) heq
    have hge := Text.le_of_positionAt_eq hbody hat.le heq.symm
    omega
  have hcount : token.lexeme.text.length = offset - start := by
    rw [hstands.text]
    show ((source.drop start).take (offset - start)).length = _
    rw [List.length_take, List.length_drop]
    omega
  -- So much is read for the token.
  have hskip : s.rest.drop token.lexeme.text.length = source.drop offset := by
    rw [hat.rest, hsame, hcount, List.drop_drop, Nat.add_sub_cancel' hle]
  cases hvisit.turns hrest hpiece with
  | separator => exact absurd htokens.symm (List.cons_ne_self _ _)
  | newline =>
    rw [← (List.cons.inj htokens).1] at hspelled
    cases hspelled
  | @token n lexeme hstart _ _ hfits htext =>
    have hn : token.lexeme.text.length = n := by
      rw [← (List.cons.inj htokens).1, htext, List.length_take, Nat.min_eq_left hfits]
    rw [hn] at hskip
    exact ⟨hskip, hstart⟩
  | @symbol tracked symbol hstart htracked =>
    obtain ⟨brackets, rfl⟩ : ∃ brackets, tracked = { s with brackets := brackets } :=
      ⟨_, trackBrackets_eq htracked⟩
    rw [← (List.cons.inj htokens).1] at hskip
    exact ⟨hskip, hstart⟩

/-- A run comes to the end of a token, whatever parts tokens there. -/
theorem Pushes.swapped {a b other : Text} (hother : other.IsParted)
    (h : Pushes (a ++ b) s token) (hspelled : token.lexeme.isSpelled = true)
    (hends : EndsAt (a ++ b) token a.length) :
    ∃ s', Visits (a ++ b) .fresh s' ∧ s'.tokens = token :: s.tokens ∧ s'.rest = b ∧
      s'.atLineStart = false ∧ Visits (a ++ other) .fresh { s' with rest := other } := by
  obtain ⟨s', c, after, hvisit, hcons, hpiece, htokens, hrest, hstart⟩ :=
    h.exists_behind hspelled hends
  rw [List.drop_left] at hrest
  refine ⟨s', .piece hvisit hcons hpiece, htokens, hrest, hstart, ?_⟩
  have hshorter := (piece_reads hcons hpiece).length_lt
  rw [hrest] at hshorter
  -- A comment would have added no token.
  have hcomment : c = hash → b.length < s'.rest.length := by
    rintro rfl
    have hsep : Separates s.rest (s.rest.takeWhile (· != newline)).length := by
      rw [hcons]
      exact .comment
    have hskipped := (piece_of_separates hcons hsep (by decide)).symm.trans hpiece
    rw [← Except.ok.inj hskipped] at htokens
    exact absurd htokens.symm (List.cons_ne_self _ _)
  obtain ⟨t, hvisit', hswapped⟩ := hvisit.swapped hother hshorter
  obtain ⟨after', t', hcons', hpiece', front, hfront, rfl⟩ := hswapped.piece hother hcons hpiece
    (Nat.le_of_eq (congrArg List.length hrest.symm)) hcomment
  obtain rfl : front = [] := List.append_left_eq_self.mp (hfront.symm.trans hrest)
  exact .piece hvisit' hcons' hpiece'

end Scan

theorem map_lexeme_eq {R : Position → Position → Prop} {ts us : List Token}
    (h : List.Forall₂ (Token.Alike R) ts us) : us.map (·.lexeme) = ts.map (·.lexeme) := by
  induction h with
  | nil => rfl
  | cons hfirst _ ih => rw [List.map_cons, List.map_cons, ih, hfirst.lexeme]

/-- **Trivia between tokens**: behind a token, blanks and continuations may
    be put in, and within brackets comments and line feeds too.  The tokens
    up to there stay, and all behind them keep their lexemes. -/
theorem lexemes_of_filler {source filler : Text} {before behind : List Token} {token : Token}
    {offset : Nat} {brackets : List OpenBracket}
    (htokens : tokenize source = .ok (before ++ token :: behind))
    (hspelled : token.lexeme.isSpelled = true) (hends : EndsAt source token offset)
    (hopen : openAfter [] (before ++ [token]) = some brackets) (hfiller : Filler brackets filler) :
    ∃ behind', tokenize (source.take offset ++ filler ++ source.drop offset) =
        .ok (before ++ token :: behind') ∧
      behind'.map (·.lexeme) = behind.map (·.lexeme) := by
  have hsource : source = source.take offset ++ source.drop offset :=
    (List.take_append_drop offset source).symm
  have hlength : (source.take offset).length = offset := by
    obtain ⟨_, _, _, hle, _⟩ := hends
    exact List.length_take_of_le hle
  generalize source.take offset = a at hsource hlength ⊢
  generalize source.drop offset = b at hsource ⊢
  subst hsource hlength
  by_cases hnone : filler = []
  · subst hnone
    exact ⟨behind, by rw [List.append_nil, htokens], rfl⟩
  obtain ⟨s, hpushes, hbefore⟩ := Scan.pushes_of_isSpelled htokens hspelled
  obtain ⟨s', hvisit, hadded, hrest, hstart, hvisit'⟩ :=
    hpushes.swapped (hfiller.isParted hnone b) hspelled hends
  have hbrackets : s'.brackets = brackets := by
    have hopened := hvisit.tracksBrackets.opened
    rw [hadded, hbefore, List.reverse_cons, List.reverse_reverse, hopen] at hopened
    exact (Option.some.inj hopened).symm
  have hagree := hvisit.agree_of_read (fun _ _ => True) (fun _ _ => trivial) hrest hvisit'
    (Scan.outcome_filler hfiller hstart hbrackets rfl) trivial fun _ _ => trivial
  rw [htokens] at hagree
  generalize tokenize (a ++ filler ++ b) = result at hagree ⊢
  cases hagree with
  | ok hnewer =>
    obtain ⟨later, later', hold, rfl, hall⟩ := hnewer.forwards
    have hfront : s'.tokens.reverse = before ++ [token] := by
      rw [hadded, hbefore, List.reverse_cons, List.reverse_reverse]
    rw [hfront, List.append_assoc] at hold ⊢
    obtain rfl := (List.cons.inj (List.append_cancel_left hold)).2
    exact ⟨later', rfl, map_lexeme_eq hall⟩

/-- A comment, a continuation and a tab behind a number in brackets, which
    ends in a letter with a sign behind it. -/
theorem lexemes_behind_number :
    EndsAt (ascii "f(0x1e+r)\n") ⟨.number (ascii "0x1e"), ⟨1, 3⟩⟩ 6 ∧
    Filler [⟨.round, ⟨1, 2⟩⟩] (ascii "# '\n\\\n\t") ∧
    ∃ behind,
      tokenize (ascii "f(0x1e" ++ ascii "# '\n\\\n\t" ++ ascii "+r)\n") =
        .ok ([⟨.name (ascii "f"), ⟨1, 1⟩⟩, ⟨.symbol (.opening .round), ⟨1, 2⟩⟩] ++
          ⟨.number (ascii "0x1e"), ⟨1, 3⟩⟩ :: behind) ∧
      behind.map (·.lexeme) =
        [.symbol .plus, .name (ascii "r"), .symbol (.closing .round), .newline, .endMarker] := by
  have hends : EndsAt (ascii "f(0x1e+r)\n") ⟨.number (ascii "0x1e"), ⟨1, 3⟩⟩ 6 :=
    ⟨2, by decide, by decide, by decide, rfl, rfl⟩
  have hfiller : Filler [⟨.round, ⟨1, 2⟩⟩] (ascii "# '\n\\\n\t") :=
    @Filler.comment _ (ascii " '") _ (by decide)
      (.lineFeed (by decide) (.continuation (.blank rfl .nothing)))
  refine ⟨hends, hfiller, ?_⟩
  exact @lexemes_of_filler _ _ [⟨.name (ascii "f"), ⟨1, 1⟩⟩, ⟨.symbol (.opening .round), ⟨1, 2⟩⟩]
    _ _ _ _ rfl rfl hends rfl hfiller

end StyleCheck
