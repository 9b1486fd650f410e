import StyleCheck.Pattern

/-! # Matching by Longest Runs

    A pattern is matched by trying every division of a prefix of the
    text among its runs.  Mostly, one division is enough.

    * `Pattern.isMatch_cons`: the divisions, as a definition of what it
      means to match.
    * `Pattern.isMatch_atLeast_byte`, `Pattern.isMatch_optional_byte`: a run
      of a single byte, by how often it stands there.
    * `Pattern.isMatch_word_append`: a fixed word can be divided in one
      way only.
    * `Pattern.isMatch_longest`: an unbounded run may as well be the
      longest there is, when nothing behind it starts with a byte that
      the run accepts.
    * `Pattern.isMatch_inner`: a byte that the run before it accepts too.
-/

namespace StyleCheck

/-! ## Section 1: Longest runs -/

/-- Bytes of a class are the longest run of it, when none follows. -/
theorem Text.longest_append {p : UInt8 → Bool} {part rest : Text} (hpart : ∀ b ∈ part, p b = true)
    (hrest : ∀ b ∈ rest.head?, p b = false) :
    (part ++ rest).takeWhile p = part ∧ (part ++ rest).dropWhile p = rest := by
  rw [List.takeWhile_append_of_pos hpart, List.dropWhile_append_of_pos hpart]
  cases rest with
  | nil => exact ⟨List.append_nil part, rfl⟩
  | cons b rest =>
    have hb : ¬ p b = true := by simp [hrest b rfl]
    rw [List.takeWhile_cons_of_neg hb, List.dropWhile_cons_of_neg hb]
    exact ⟨List.append_nil part, rfl⟩

/-- No byte of the class stands behind a longest run. -/
theorem Text.head?_of_longest {p : UInt8 → Bool} {part rest : Text}
    (h : part = (part ++ rest).takeWhile p) : ∀ b ∈ rest.head?, p b = false := by
  have hpart : ∀ b ∈ part, p b = true := by
    rw [h]
    exact List.all_eq_true.mp List.all_takeWhile
  rw [List.takeWhile_append_of_pos hpart, List.self_eq_append_right] at h
  intro b hb
  obtain ⟨after, rfl⟩ := List.head?_eq_some_iff.mp hb
  rw [Bool.eq_false_iff]
  intro hp
  rw [List.takeWhile_cons_of_pos hp] at h
  cases h

/-! ## Section 2: Divisions -/

/-- A text that a run may stand for. -/
structure Run.Covers (run : Run) (part : Text) : Prop where
  accepts : ∀ b ∈ part, run.accepts b = true
  least : run.least ≤ part.length
  most : ∀ n ∈ run.most, part.length ≤ n

/-- Every division is tried. -/
theorem Run.matchesThen_iff {accepts : UInt8 → Bool} {followed : Text → Bool} {least : Nat}
    {most : Option Nat} {t : Text} :
    matchesThen accepts followed least most t = true ↔
      ∃ part rest, t = part ++ rest ∧ Covers ⟨accepts, least, most⟩ part ∧
        followed rest = true := by
  induction t generalizing least most with
  | nil =>
    simp only [matchesThen, Bool.and_eq_true, beq_iff_eq]
    constructor
    · rintro ⟨rfl, hfollowed⟩
      exact ⟨[], [], rfl, ⟨by simp, Nat.zero_le _, by simp⟩, hfollowed⟩
    · rintro ⟨part, rest, hsplit, hcovers, hfollowed⟩
      obtain ⟨rfl, rfl⟩ := List.append_eq_nil_iff.mp hsplit.symm
      exact ⟨Nat.le_zero.mp hcovers.least, hfollowed⟩
  | cons b t ih =>
    simp only [matchesThen, Bool.or_eq_true, Bool.and_eq_true, beq_iff_eq, bne_iff_ne, ih]
    constructor
    · rintro (⟨rfl, hfollowed⟩ | ⟨⟨hb, hmost⟩, part, rest, rfl, hcovers, hfollowed⟩)
      · exact ⟨[], b :: t, rfl, ⟨by simp, Nat.zero_le _, by simp⟩, hfollowed⟩
      · have hleast : least - 1 ≤ part.length := hcovers.least
        refine ⟨b :: part, rest, rfl, ⟨?_, ?_, ?_⟩, hfollowed⟩
        · exact List.forall_mem_cons.mpr ⟨hb, hcovers.accepts⟩
        · show least ≤ (b :: part).length
          simp only [List.length_cons]
          omega
        · rintro n rfl
          have hbound := hcovers.most (n - 1) rfl
          have hpos : n ≠ 0 := fun hn => hmost (by rw [hn])
          simp only [List.length_cons]
          omega
    · rintro ⟨part, rest, hsplit, hcovers, hfollowed⟩
      have hleast : least ≤ part.length := hcovers.least
      cases part with
      | nil =>
        rw [show rest = b :: t from hsplit.symm] at hfollowed
        exact .inl ⟨Nat.le_zero.mp hleast, hfollowed⟩
      | cons c part =>
        obtain ⟨rfl, rfl⟩ := List.cons.inj hsplit
        obtain ⟨hb, hpart⟩ := List.forall_mem_cons.mp hcovers.accepts
        refine .inr ⟨⟨hb, ?_⟩, part, rest, rfl, ⟨hpart, ?_, ?_⟩, hfollowed⟩
        · intro hzero
          exact absurd (hcovers.most 0 hzero) (by simp)
        · show least - 1 ≤ part.length
          simp only [List.length_cons] at hleast
          omega
        · intro n hn
          obtain ⟨m, rfl, rfl⟩ := Option.map_eq_some_iff.mp hn
          have hbound := hcovers.most m rfl
          simp only [List.length_cons] at hbound
          omega

namespace Pattern

variable {run : Run} {runs : Pattern} {accepts : UInt8 → Bool} {t w : Text}

theorem isMatch_cons : isMatch (run :: runs) t = true ↔
    ∃ part rest, t = part ++ rest ∧ run.Covers part ∧ isMatch runs rest = true :=
  Run.matchesThen_iff

/-! ## Section 3: Single divisions -/

theorem isMatch_one : isMatch (.one accepts :: runs) t = true ↔
    ∃ b rest, t = b :: rest ∧ accepts b = true ∧ isMatch runs rest = true := by
  rw [isMatch_cons]
  constructor
  · rintro ⟨part, rest, rfl, hcovers, hmatch⟩
    have hlength : part.length = 1 := Nat.le_antisymm (hcovers.most 1 rfl) hcovers.least
    obtain ⟨b, rfl⟩ := List.length_eq_one_iff.mp hlength
    exact ⟨b, rest, rfl, hcovers.accepts b (by simp), hmatch⟩
  · rintro ⟨b, rest, rfl, hb, hmatch⟩
    refine ⟨[b], rest, rfl, ⟨List.forall_mem_singleton.mpr hb, Nat.le_refl 1, ?_⟩, hmatch⟩
    rintro n hn
    obtain rfl : 1 = n := Option.some.inj hn
    exact Nat.le_refl 1

theorem isMatch_singleton : isMatch [.one accepts] t = t.head?.any accepts := by
  cases t with
  | nil => rfl
  | cons b rest => cases rest <;> simp [isMatch, Run.one, Run.matchesThen]

/-- A run of a single byte stands for as many of it as its bounds allow. -/
theorem isMatch_byte {c : UInt8} {least : Nat} {most : Option Nat} :
    isMatch (⟨(· == c), least, most⟩ :: runs) t = true ↔
      ∃ n rest, least ≤ n ∧ (∀ m ∈ most, n ≤ m) ∧ t = List.replicate n c ++ rest ∧
        isMatch runs rest = true := by
  rw [isMatch_cons]
  constructor
  · rintro ⟨part, rest, rfl, hcovers, hmatch⟩
    have hpart : part = List.replicate part.length c := by
      rw [List.eq_replicate_iff]
      exact ⟨rfl, fun b hb => beq_iff_eq.mp (hcovers.accepts b hb)⟩
    exact ⟨part.length, rest, hcovers.least, hcovers.most, by rw [← hpart], hmatch⟩
  · rintro ⟨n, rest, hleast, hmost, rfl, hmatch⟩
    refine ⟨List.replicate n c, rest, rfl, ⟨?_, ?_, ?_⟩, hmatch⟩
    · intro b hb
      exact beq_iff_eq.mpr (List.eq_of_mem_replicate hb)
    · rw [List.length_replicate]
      exact hleast
    · rw [List.length_replicate]
      exact hmost

theorem isMatch_atLeast_byte {c : UInt8} {least : Nat} :
    isMatch (.atLeast least (· == c) :: runs) t = true ↔
      ∃ n rest, t = List.replicate (n + least) c ++ rest ∧ isMatch runs rest = true := by
  rw [Run.atLeast, isMatch_byte]
  constructor
  · rintro ⟨n, rest, hleast, _, rfl, hmatch⟩
    refine ⟨n - least, rest, ?_, hmatch⟩
    rw [Nat.sub_add_cancel hleast]
  · rintro ⟨n, rest, rfl, hmatch⟩
    exact ⟨n + least, rest, Nat.le_add_left least n, by simp, rfl, hmatch⟩

theorem isMatch_optional_byte {c : UInt8} :
    isMatch (.optional (· == c) :: runs) t = true ↔
      ∃ n rest, n ≤ 1 ∧ t = List.replicate n c ++ rest ∧ isMatch runs rest = true := by
  rw [Run.optional, isMatch_byte]
  constructor
  · rintro ⟨n, rest, _, hmost, rfl, hmatch⟩
    exact ⟨n, rest, hmost 1 rfl, rfl, hmatch⟩
  · rintro ⟨n, rest, hn, rfl, hmatch⟩
    refine ⟨n, rest, Nat.zero_le n, ?_, rfl, hmatch⟩
    rintro m ⟨⟩
    exact hn

theorem isMatch_word_append : isMatch (word w ++ runs) t = true ↔
    ∃ rest, t = w ++ rest ∧ isMatch runs rest = true := by
  induction w generalizing t with
  | nil => exact ⟨fun hmatch => ⟨t, rfl, hmatch⟩, fun ⟨_, ht, hmatch⟩ => ht ▸ hmatch⟩
  | cons b w ih =>
    rw [show word (b :: w) ++ runs = .one (· == b) :: (word w ++ runs) from rfl, isMatch_one]
    simp only [ih, beq_iff_eq]
    constructor
    · rintro ⟨_, _, rfl, rfl, rest, rfl, hmatch⟩
      exact ⟨rest, rfl, hmatch⟩
    · rintro ⟨rest, rfl, hmatch⟩
      exact ⟨b, w ++ rest, rfl, rfl, rest, rfl, hmatch⟩

/-- Giving back a byte of the longest run is of no use to a pattern that
    cannot start with one. -/
theorem isMatch_longest {least : Nat}
    (hrefuse : ∀ b rest, accepts b = true → isMatch runs (b :: rest) = false) :
    isMatch (.atLeast least accepts :: runs) t = true ↔
      least ≤ (t.takeWhile accepts).length ∧ isMatch runs (t.dropWhile accepts) = true := by
  rw [isMatch_cons]
  constructor
  · rintro ⟨part, rest, rfl, hcovers, hmatch⟩
    have hrest : ∀ b ∈ rest.head?, accepts b = false := by
      intro b hb
      obtain ⟨after, rfl⟩ := List.head?_eq_some_iff.mp hb
      cases haccepts : accepts b with
      | false => rfl
      | true => rw [hrefuse b after haccepts] at hmatch; cases hmatch
    have hpart : ∀ b ∈ part, accepts b = true := hcovers.accepts
    obtain ⟨htake, hdrop⟩ := Text.longest_append hpart hrest
    rw [htake, hdrop]
    exact ⟨hcovers.least, hmatch⟩
  · rintro ⟨hleast, hmatch⟩
    refine ⟨t.takeWhile accepts, t.dropWhile accepts, List.takeWhile_append_dropWhile.symm,
      ⟨?_, hleast, by rintro n hn; cases hn⟩, hmatch⟩
    exact List.all_eq_true.mp List.all_takeWhile

/-- A byte of the class behind another one may stand anywhere in the
    longest run, but not at its front. -/
theorem isMatch_inner {c : UInt8} (hc : accepts c = true) :
    isMatch [.atLeast 1 accepts, .one (· == c)] t = true ↔ c ∈ (t.takeWhile accepts).tail := by
  rw [isMatch_cons]
  simp only [isMatch_one, beq_iff_eq]
  constructor
  · rintro ⟨part, _, rfl, hcovers, _, rest, rfl, rfl, _⟩
    have hpart : ∀ b ∈ part, accepts b = true := hcovers.accepts
    have hleast : 1 ≤ part.length := hcovers.least
    obtain ⟨b, part, rfl⟩ := List.exists_cons_of_length_pos hleast
    rw [List.takeWhile_append_of_pos hpart, List.takeWhile_cons_of_pos hc]
    simp
  · intro hmem
    have hrun : ∀ b ∈ t.takeWhile accepts, accepts b = true :=
      List.all_eq_true.mp List.all_takeWhile
    have hsplit := t.takeWhile_append_dropWhile (p := accepts)
    cases hfront : t.takeWhile accepts with
    | nil =>
      rw [hfront] at hmem
      cases hmem
    | cons b inner =>
      rw [hfront] at hmem hrun hsplit
      obtain ⟨before, behind, rfl⟩ := List.append_of_mem hmem
      refine ⟨b :: before, c :: (behind ++ t.dropWhile accepts), ?_, ⟨?_, ?_, ?_⟩, c, _, rfl, rfl,
        rfl⟩
      · simpa using hsplit.symm
      · exact fun x hx => hrun x (List.mem_append_left (c :: behind) hx)
      · simp [Run.atLeast]
      · rintro n hn
        cases hn

end Pattern

end StyleCheck
