import StyleCheck.Text.Lines

/-! # Physical Lines of a Text

    `splitLines` cuts behind every line feed, so the number of line feeds
    in front of a place in the text is the number of lines in front of
    it.

    * `drop_splitLines`: behind a line feed, the lines are those of what
      follows it.
    * `splitLines_append`: what has no line feed belongs to the line that
      follows it.
    * `getElem?_splitLines`: the line behind some whole lines.
    * `exists_of_mem_splitLines`: what a line looks like.
-/

namespace StyleCheck.Text

open Byte

variable {front rest first : Text} {more : List Text} {b : UInt8}

/-- What stands behind a longest run. -/
theorem drop_length_takeWhile (p : UInt8 → Bool) (t : Text) :
    t.drop (t.takeWhile p).length = t.dropWhile p := by
  have hsplit : t.takeWhile p ++ t.dropWhile p = t := List.takeWhile_append_dropWhile
  conv => lhs; arg 2; rw [← hsplit]
  exact List.drop_left

theorem splitLines_newline (rest : Text) :
    splitLines (newline :: rest) = [newline] :: splitLines rest :=
  if_pos rfl

theorem splitLines_cons (hb : b ≠ newline) (hrest : rest.splitLines = first :: more) :
    splitLines (b :: rest) = (b :: first) :: more := by
  rw [splitLines, if_neg hb, hrest]

theorem splitLines_single (hb : b ≠ newline) : splitLines [b] = [[b]] := by
  rw [splitLines, if_neg hb]
  rfl

/-- A text that is not empty has a first line, and the others are those
    of what follows it. -/
theorem exists_splitLines (t : Text) (h : t ≠ []) :
    ∃ first rest, t = first ++ rest ∧ t.splitLines = first :: rest.splitLines ∧ first ≠ [] := by
  induction t with
  | nil => exact absurd rfl h
  | cons b t ih =>
    by_cases hb : b = newline
    · subst hb
      exact ⟨[newline], t, rfl, splitLines_newline t, by simp⟩
    · cases t with
      | nil => exact ⟨[b], [], rfl, splitLines_single hb, by simp⟩
      | cons c t =>
        obtain ⟨first, rest, heq, hlines, _⟩ := ih (by simp)
        refine ⟨b :: first, rest, ?_, splitLines_cons hb hlines, by simp⟩
        rw [heq]
        rfl

theorem eq_nil_of_splitLines {t : Text} (h : t.splitLines = []) : t = [] := by
  cases t with
  | nil => rfl
  | cons b t =>
    obtain ⟨first, rest, _, hlines, _⟩ := exists_splitLines (b :: t) (by simp)
    rw [hlines] at h
    cases h

/-- Bytes without a line feed belong to the line that follows them. -/
theorem splitLines_append (hfront : newline ∉ front) (hrest : rest.splitLines = first :: more) :
    (front ++ rest).splitLines = (front ++ first) :: more := by
  induction front with
  | nil => exact hrest
  | cons b front ih =>
    have hb : b ≠ newline := fun hb => hfront (by simp [hb])
    exact splitLines_cons hb (ih fun hmem => hfront (List.mem_cons_of_mem b hmem))

/-- Without a line feed there is one line. -/
theorem splitLines_of_notMem {t : Text} (h : newline ∉ t) (hne : t ≠ []) : t.splitLines = [t] := by
  rcases List.eq_nil_or_concat t with rfl | ⟨front, last, rfl⟩
  · exact absurd rfl hne
  · rw [List.concat_eq_append, List.mem_append, not_or, List.mem_singleton] at h
    rw [List.concat_eq_append]
    exact splitLines_append h.1 (splitLines_single (Ne.symm h.2))

/-- There are as many lines up to a line feed as there are line feeds. -/
theorem drop_splitLines (front rest : Text) :
    (front ++ newline :: rest).splitLines.drop (front.count newline + 1) = rest.splitLines := by
  induction front with
  | nil =>
    rw [List.nil_append, splitLines_newline]
    rfl
  | cons b front ih =>
    by_cases hb : b = newline
    · subst hb
      rw [List.cons_append, splitLines_newline, List.count_cons_self]
      exact ih
    · obtain ⟨first, others, _, hlines, _⟩ :=
        exists_splitLines (front ++ newline :: rest) (by simp)
      rw [hlines] at ih
      rw [List.cons_append, splitLines_cons hb hlines, List.count_cons_of_ne hb]
      exact ih

/-- A text that lines end behind: it is empty, or ends in a line feed. -/
def EndsLine (t : Text) : Prop := t = [] ∨ ∃ front, t = front ++ [newline]

/-- Whole lines come before the others. -/
theorem getElem?_splitLines {lines : Text} (h : EndsLine lines) (rest : Text) :
    (lines ++ rest).splitLines[lines.count newline]? = rest.splitLines[0]? := by
  rcases h with rfl | ⟨front, rfl⟩
  · rfl
  · have hdrop := drop_splitLines front rest
    rw [List.append_assoc, List.singleton_append, List.count_append, List.count_singleton_self,
      ← hdrop, List.getElem?_drop, Nat.add_zero]

/-! ## Single lines -/

variable {t line : Text}

/-- A line has a line feed at its end at most, and is not empty. -/
theorem exists_of_mem_splitLines (h : line ∈ t.splitLines) :
    ∃ front, newline ∉ front ∧ (line = front ++ [newline] ∨ line = front ∧ front ≠ []) := by
  induction t generalizing line with
  | nil => cases h
  | cons b t ih =>
    by_cases hb : b = newline
    · subst hb
      rw [splitLines_newline] at h
      rcases List.mem_cons.mp h with rfl | h
      · exact ⟨[], by simp, .inl rfl⟩
      · exact ih h
    -- Any other byte belongs to the line of what follows it.
    · cases hlines : splitLines t with
      | nil =>
        rw [splitLines, if_neg hb, hlines, List.mem_singleton] at h
        exact ⟨[b], by simpa using Ne.symm hb, .inr ⟨h, by simp⟩⟩
      | cons first more =>
        rw [splitLines_cons hb hlines] at h
        rcases List.mem_cons.mp h with rfl | h
        · obtain ⟨front, hfront, hfirst⟩ := ih (by rw [hlines]; exact List.mem_cons_self)
          refine ⟨b :: front, by simp [hfront, Ne.symm hb], ?_⟩
          rcases hfirst with rfl | ⟨rfl, _⟩
          · exact .inl rfl
          · exact .inr ⟨rfl, by simp⟩
        · exact ih (by rw [hlines]; exact List.mem_cons_of_mem _ h)

theorem withoutNewline_of_notMem (h : newline ∉ front) : withoutNewline front = front := by
  unfold withoutNewline dropTrailing
  cases hlast : front.reverse with
  | nil => exact (List.reverse_eq_nil_iff.mp hlast).symm
  | cons b before =>
    have hb : b ≠ newline := by
      rintro rfl
      exact h (List.mem_reverse.mp (hlast ▸ List.mem_cons_self))
    rw [List.dropWhile_cons_of_neg (by simpa using hb), ← hlast, List.reverse_reverse]

theorem withoutNewline_append (h : newline ∉ front) :
    withoutNewline (front ++ [newline]) = front := by
  have hfront := withoutNewline_of_notMem h
  unfold withoutNewline dropTrailing at hfront ⊢
  rw [List.reverse_append, List.reverse_singleton, List.singleton_append,
    List.dropWhile_cons_of_pos (by rfl), hfront]

/-- Nothing but a line feed leaves nothing without it. -/
theorem withoutNewline_eq_nil_iff (h : line ∈ t.splitLines) :
    line.withoutNewline = [] ↔ line = [newline] := by
  obtain ⟨front, hfront, rfl | ⟨rfl, hne⟩⟩ := exists_of_mem_splitLines h
  · rw [withoutNewline_append hfront]
    cases front <;> simp
  · rw [withoutNewline_of_notMem hfront]
    refine ⟨fun hnil => absurd hnil hne, ?_⟩
    rintro rfl
    exact absurd hfront (by simp)

end StyleCheck.Text
