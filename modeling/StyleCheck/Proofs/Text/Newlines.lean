import StyleCheck.Proofs.Text.Lines

/-! # Line Terminators

    A text from outside may end its lines in three ways.  This module
    says what a terminator is by what stands around it, cuts a text
    behind each of them, and compares with what the lines of the
    normalized text are.

    * `carriageReturn_notMem_normalizeNewlines`, `normalizeNewlines_eq_self`:
      normalized texts are those without a carriage return.
    * `normalizeNewlines_append_iff`: texts that are normalized part by part.
    * `flatten_splitLines`: nothing is lost between the lines.
    * `cut_iff`: the lines, by the terminators.
    * `universal_newlines`: all of it together.
-/

namespace StyleCheck.Text

open Byte

variable {before line rest terminator raw : Text} {lines : List Text}

/-! ## Section 1: Normalized texts -/

theorem carriageReturn_notMem_normalizeNewlines (t : Text) :
    carriageReturn ∉ t.normalizeNewlines := by
  induction t with
  | nil => simp [normalizeNewlines]
  | cons b t ih =>
    unfold normalizeNewlines
    by_cases hb : b = carriageReturn
    · rw [if_pos hb]
      by_cases hnext : t.head? = some newline
      · rw [if_pos hnext]
        exact ih
      · rw [if_neg hnext, List.mem_cons, not_or]
        exact ⟨by decide, ih⟩
    · rw [if_neg hb]
      simpa [Ne.symm hb] using ih

/-- Bytes other than carriage returns stay where they are. -/
theorem normalizeNewlines_append_left (h : carriageReturn ∉ line) (rest : Text) :
    normalizeNewlines (line ++ rest) = line ++ rest.normalizeNewlines := by
  induction line with
  | nil => rfl
  | cons b line ih =>
    have hb : b ≠ carriageReturn := fun hb => h (by simp [hb])
    have hline : carriageReturn ∉ line := fun hmem => h (List.mem_cons_of_mem b hmem)
    rw [List.cons_append, normalizeNewlines, if_neg hb, ih hline]
    rfl

theorem normalizeNewlines_eq_self (h : carriageReturn ∉ line) : line.normalizeNewlines = line := by
  have happend := normalizeNewlines_append_left h []
  simpa [normalizeNewlines] using happend

/-- A carriage return and the line feed behind it are one terminator. -/
theorem normalizeNewlines_both (rest : Text) :
    normalizeNewlines (carriageReturn :: newline :: rest) = newline :: rest.normalizeNewlines := by
  have hnext : (newline :: rest).head? = some newline := rfl
  rw [normalizeNewlines, if_pos rfl, if_pos hnext, normalizeNewlines, if_neg (by decide)]

theorem normalizeNewlines_carriageReturn (h : rest.head? ≠ some newline) :
    normalizeNewlines (carriageReturn :: rest) = newline :: rest.normalizeNewlines := by
  rw [normalizeNewlines, if_pos rfl, if_neg h]

/-- Two parts may be normalized by themselves if no terminator goes from
    the one into the other.  Otherwise one line feed becomes two. -/
theorem normalizeNewlines_append_iff (front rest : Text) :
    normalizeNewlines (front ++ rest) = front.normalizeNewlines ++ rest.normalizeNewlines ↔
      ¬ (front.getLast? = some carriageReturn ∧ rest.head? = some newline) := by
  induction front with
  | nil => simp [normalizeNewlines]
  | cons b front ih =>
    cases front with
    | nil =>
      by_cases hb : b = carriageReturn
      · subst hb
        by_cases hrest : rest.head? = some newline
        · obtain ⟨after, rfl⟩ := List.head?_eq_some_iff.mp hrest
          simp [normalizeNewlines]
        · simp [normalizeNewlines_carriageReturn hrest, normalizeNewlines, hrest]
      · simp [normalizeNewlines, hb]
    | cons c front =>
      have hlast : (b :: c :: front).getLast? = (c :: front).getLast? := List.getLast?_cons_cons
      rw [hlast, ← ih, List.cons_append]
      -- What becomes of the first byte is settled by the second.
      by_cases hb : b = carriageReturn
      · by_cases hc : c = newline
        · simp [normalizeNewlines, hb, hc]
        · simp [normalizeNewlines, hb, hc]
      · simp [normalizeNewlines, hb]

/-! ## Section 2: Lines of a text -/

/-- The lines of a text make up the text. -/
theorem flatten_splitLines (t : Text) : t.splitLines.flatten = t := by
  induction t with
  | nil => rfl
  | cons b t ih =>
    by_cases hb : b = newline
    · subst hb
      rw [splitLines_newline, List.flatten_cons, ih]
      rfl
    · cases hlines : splitLines t with
      | nil =>
        obtain rfl := eq_nil_of_splitLines hlines
        rw [splitLines_single hb]
        rfl
      | cons first more =>
        rw [hlines] at ih
        rw [splitLines_cons hb hlines, ← ih]
        rfl

/-- Up to its first line feed, a text is one line. -/
theorem splitLines_append_newline (h : newline ∉ line) (rest : Text) :
    splitLines (line ++ newline :: rest) = (line ++ [newline]) :: rest.splitLines :=
  splitLines_append h (splitLines_newline rest)

theorem ne_nil_of_mem_splitLines {t : Text} (h : line ∈ t.splitLines) :
    line ≠ [] ∧ newline ∉ line.dropLast := by
  obtain ⟨front, hfront, rfl | ⟨rfl, hne⟩⟩ := exists_of_mem_splitLines h
  · simpa using hfront
  · exact ⟨hne, fun hmem => hfront ((List.dropLast_sublist line).subset hmem)⟩

/-! ## Section 3: Cutting behind terminators -/

/-- What is a terminator between the text in front of it and the text
    behind it. -/
inductive Terminates (before : Text) : (terminator after : Text) → Prop where
  | both (after : Text) : Terminates before [carriageReturn, newline] after
  | carriageReturn {after : Text} (h : after.head? ≠ some newline) :
      Terminates before [carriageReturn] after
  | lineFeed (after : Text) (h : before.getLast? ≠ some Byte.carriageReturn) :
      Terminates before [newline] after

/-- No byte of a terminator stands in the text. -/
def IsBare (t : Text) : Prop := carriageReturn ∉ t ∧ newline ∉ t

theorem isBare_nil : IsBare [] := ⟨List.not_mem_nil, List.not_mem_nil⟩

theorem IsBare.cons {b : UInt8} (hcr : b ≠ carriageReturn) (hlf : b ≠ newline)
    (h : IsBare line) : IsBare (b :: line) :=
  ⟨List.not_mem_cons_of_ne_of_not_mem (Ne.symm hcr) h.1,
    List.not_mem_cons_of_ne_of_not_mem (Ne.symm hlf) h.2⟩

/-- The pieces of a text that stands behind another one, cut behind each
    terminator and with a line feed in the place of each.  What follows
    the last terminator is a piece if it is not empty. -/
inductive Cut : (before text : Text) → (pieces : List Text) → Prop where
  | nil (before : Text) : Cut before [] []
  | last (before : Text) {line : Text} (hbare : IsBare line) (hne : line ≠ []) :
      Cut before line [line]
  | line {before line terminator rest : Text} {pieces : List Text} (hbare : IsBare line)
      (hterminates : Terminates (before ++ line) terminator rest)
      (hrest : Cut (before ++ (line ++ terminator)) rest pieces) :
      Cut before (line ++ (terminator ++ rest)) ((line ++ [newline]) :: pieces)

theorem normalizeNewlines_of_terminates (h : Terminates before terminator rest) :
    normalizeNewlines (terminator ++ rest) = newline :: rest.normalizeNewlines := by
  cases h with
  | both => exact normalizeNewlines_both rest
  | carriageReturn hnext => exact normalizeNewlines_carriageReturn hnext
  | lineFeed =>
    rw [List.singleton_append, normalizeNewlines, if_neg (by decide)]

/-- Each piece is a line of the normalized text. -/
theorem Cut.eq_splitLines (h : Cut before raw lines) :
    lines = raw.normalizeNewlines.splitLines := by
  induction h with
  | nil => rfl
  | last _ hbare hne =>
    rw [normalizeNewlines_eq_self hbare.1, splitLines_of_notMem hbare.2 hne]
  | line hbare hterminates _ ih =>
    rw [normalizeNewlines_append_left hbare.1, normalizeNewlines_of_terminates hterminates,
      splitLines_append_newline hbare.2, ih]

theorem newline_ne_carriageReturn : newline ≠ carriageReturn := by decide

/-- A text is bare, or has a first terminator.  The text in front of it
    must not end within a terminator. -/
theorem isBare_or_exists_terminates (raw : Text)
    (h : before.getLast? = some carriageReturn → raw.head? ≠ some newline) :
    IsBare raw ∨ ∃ line terminator rest, raw = line ++ (terminator ++ rest) ∧ IsBare line ∧
      Terminates (before ++ line) terminator rest ∧
      ((before ++ (line ++ terminator)).getLast? = some carriageReturn →
        rest.head? ≠ some newline) := by
  induction raw generalizing before with
  | nil => exact .inl isBare_nil
  | cons b raw ih =>
    by_cases hcr : b = carriageReturn
    · subst hcr
      refine .inr ⟨[], ?_⟩
      by_cases hnext : raw.head? = some newline
      · obtain ⟨rest, rfl⟩ := List.head?_eq_some_iff.mp hnext
        refine ⟨_, rest, rfl, isBare_nil, .both rest, ?_⟩
        intro hlast
        simp [newline_ne_carriageReturn] at hlast
      · exact ⟨_, raw, rfl, isBare_nil, .carriageReturn hnext, fun _ => hnext⟩
    · by_cases hlf : b = newline
      · subst hlf
        have hbefore : before.getLast? ≠ some carriageReturn := fun hlast => h hlast rfl
        refine .inr ⟨[], _, raw, rfl, isBare_nil, .lineFeed raw (by simpa using hbefore), ?_⟩
        intro hlast
        simp [newline_ne_carriageReturn] at hlast
      -- The byte belongs to the line in front of what comes next.
      · have hnext : (before ++ [b]).getLast? = some carriageReturn → raw.head? ≠ some newline := by
          intro hlast
          rw [List.getLast?_concat] at hlast
          exact absurd (Option.some.inj hlast) hcr
        rcases ih hnext with hbare | ⟨line, terminator, rest, rfl, hbare, hterminates, hbehind⟩
        · exact .inl (hbare.cons hcr hlf)
        · refine .inr ⟨b :: line, terminator, rest, rfl, hbare.cons hcr hlf, ?_, ?_⟩
          · simpa using hterminates
          · simpa using hbehind

theorem Terminates.length_pos (h : Terminates before terminator rest) : 0 < terminator.length := by
  cases h <;> simp

/-- Every text can be cut. -/
theorem exists_cut (raw : Text)
    (h : before.getLast? = some carriageReturn → raw.head? ≠ some newline) :
    ∃ lines, Cut before raw lines := by
  -- What is left behind a terminator is shorter.
  induction hlength : raw.length using Nat.strongRecOn generalizing before raw with
  | ind n ih =>
    subst hlength
    rcases isBare_or_exists_terminates raw h with
      hbare | ⟨line, terminator, rest, rfl, hbare, hterminates, hbehind⟩
    · by_cases hne : raw = []
      · subst hne
        exact ⟨[], .nil before⟩
      · exact ⟨[raw], .last before hbare hne⟩
    · have hshorter : rest.length < (line ++ (terminator ++ rest)).length := by
        have := hterminates.length_pos
        simp only [List.length_append]
        omega
      obtain ⟨lines, hlines⟩ := ih _ hshorter rest hbehind rfl
      exact ⟨_, .line hbare hterminates hlines⟩

/-- There is one way to cut a text, and it gives the lines of the
    normalized text. -/
theorem cut_iff : Cut [] raw lines ↔ lines = raw.normalizeNewlines.splitLines := by
  constructor
  · exact Cut.eq_splitLines
  · intro hlines
    have hstart : ([] : Text).getLast? = some carriageReturn → raw.head? ≠ some newline := by
      simp
    obtain ⟨others, hcut⟩ := exists_cut raw hstart
    rw [hlines, ← hcut.eq_splitLines]
    exact hcut

/-- **Universal newlines**: the lines of a normalized text are the pieces
    of the text that was normalized, cut behind each terminator of any of
    the three kinds.  A normalized text has no carriage return, and is not
    changed by normalizing it again; two parts are normalized by
    themselves exactly if the cut between them goes through no terminator.
    The lines of any text, normalized or not, make up the text, and no
    line is empty or has a line feed before its end. -/
theorem universal_newlines :
    (∀ raw lines, Cut [] raw lines ↔ lines = splitLines (normalizeNewlines raw)) ∧
    (∀ raw, normalizeNewlines (normalizeNewlines raw) = normalizeNewlines raw) ∧
    (∀ raw, carriageReturn ∉ normalizeNewlines raw) ∧
    (∀ front rest, normalizeNewlines (front ++ rest) =
        normalizeNewlines front ++ normalizeNewlines rest ↔
      ¬ (front.getLast? = some carriageReturn ∧ rest.head? = some newline)) ∧
    (∀ t, (splitLines t).flatten = t) ∧
    ∀ t, ∀ line ∈ splitLines t, line ≠ [] ∧ newline ∉ line.dropLast := by
  refine ⟨fun _ _ => cut_iff, ?_, carriageReturn_notMem_normalizeNewlines,
    normalizeNewlines_append_iff, flatten_splitLines, fun _ _ => ne_nil_of_mem_splitLines⟩
  intro raw
  exact normalizeNewlines_eq_self (carriageReturn_notMem_normalizeNewlines raw)

/-- Terminators of all kinds, one behind the other: the first carriage
    return stands alone. -/
theorem newlines_of_mixed_text :
    let raw := ascii "\r\r\n\na"
    Cut [] raw [ascii "\n", ascii "\n", ascii "\n", ascii "a"] ∧
    ascii "a" ∈ splitLines (normalizeNewlines raw) ∧
    ascii "a" ≠ [] ∧ newline ∉ (ascii "a").dropLast := by
  intro raw
  obtain ⟨hcut, _, _, _, _, hpieces⟩ := universal_newlines
  have hmem : ascii "a" ∈ splitLines (normalizeNewlines raw) := by decide
  exact ⟨(hcut raw _).mpr (by decide), hmem, hpieces _ _ hmem⟩

end StyleCheck.Text
