import StyleCheck.Proofs.Scan.Run

/-! # The Outcome of a Run

    How a run ends is settled by any one of the scans that it comes past.
    Neither the fuel that is left there nor the way to it has a part in
    it, so a run can be followed forwards from the middle of a source.

    * `outcome`: how a run ends that has come to a scan.
    * `outcome_of_piece`: a round that succeeds does not change it.
    * `Visits.tokenize_eq`: the tokens of a source, from any scan of its
      run.
    * `outcome_tokens`: tokens are added, and never taken back.
-/

namespace StyleCheck

namespace Scan

variable {source : Text} {stage : Stage} {s s' entered : Scan}

/-- Where nothing is left, entering the line is all there is to do. -/
theorem run_of_nil {fuel : Nat} (hrest : s.rest = []) : run fuel s = s.enterLine := by
  cases fuel with
  | zero => rfl
  | succ fuel =>
    unfold run
    cases hentered : s.enterLine with
    | error e => rfl
    | ok entered =>
      have hle := enterLine_length_le hentered
      rw [hrest] at hle
      have hnil : entered.rest = [] := List.eq_nil_of_length_eq_zero (Nat.le_zero.mp hle)
      simp [bind, Except.bind, hnil]

/-- More fuel than there are bytes does not matter. -/
theorem run_eq_run {fuel : Nat} : ∀ {more : Nat} {s : Scan}, s.rest.length ≤ fuel →
    s.rest.length ≤ more → run fuel s = run more s := by
  induction fuel with
  | zero =>
    intro more s hfuel _
    have hrest : s.rest = [] := List.eq_nil_of_length_eq_zero (Nat.le_zero.mp hfuel)
    rw [run_of_nil hrest, run_of_nil hrest]
  | succ fuel ih =>
    intro more s hfuel hmore
    cases more with
    | zero =>
      have hrest : s.rest = [] := List.eq_nil_of_length_eq_zero (Nat.le_zero.mp hmore)
      rw [run_of_nil hrest, run_of_nil hrest]
    | succ more =>
      unfold run
      cases hentered : s.enterLine with
      | error e => rfl
      | ok entered =>
        have hle := enterLine_length_le hentered
        simp only [bind, Except.bind]
        cases hrest : entered.rest with
        | nil => rfl
        | cons b after =>
          cases hpiece : entered.piece b after with
          | error e => simp only [hpiece]
          | ok next =>
            -- The piece has used up a byte, so the fuel of both is enough still.
            have hlt := (piece_reads hrest hpiece).length_lt
            simp only [hpiece]
            exact ih (by omega) (by omega)

/-- How a run ends that has come to a scan. -/
def outcome : Stage → Scan → Except SyntaxError Scan
  | .fresh, s => run s.rest.length s
  | .entered, s =>
    match s.rest with
    | [] => .ok s
    | b :: after => do
      let next ← s.piece b after
      run next.rest.length next

theorem outcome_fresh (s : Scan) : outcome .fresh s = s.enterLine.bind (outcome .entered) := by
  have hmore : outcome .fresh s = run (s.rest.length + 1) s :=
    run_eq_run (Nat.le_refl _) (Nat.le_succ _)
  rw [hmore]
  unfold run
  cases hentered : s.enterLine with
  | error e => rfl
  | ok entered =>
    have hle := enterLine_length_le hentered
    simp only [bind, Except.bind, outcome]
    cases hrest : entered.rest with
    | nil => rfl
    | cons b after =>
      cases hpiece : entered.piece b after with
      | error e => simp only [hpiece]
      | ok next =>
        have hlt := (piece_reads hrest hpiece).length_lt
        simp only [hpiece]
        exact run_eq_run (by omega) (Nat.le_refl _)

theorem outcome_of_enter (henter : s.enterLine = .ok entered) :
    outcome .fresh s = outcome .entered entered := by
  rw [outcome_fresh, henter]
  rfl

theorem enterLine_of_started (hstart : s.atLineStart = false) : s.enterLine = .ok s := by
  simp [enterLine, hstart]

/-- A line that has begun is not entered again. -/
theorem outcome_of_started (hstart : s.atLineStart = false) :
    outcome .fresh s = outcome .entered s :=
  outcome_of_enter (enterLine_of_started hstart)

theorem outcome_of_piece {b : UInt8} {after : Text} (hrest : s.rest = b :: after)
    (hpiece : s.piece b after = .ok s') : outcome .entered s = outcome .fresh s' := by
  simp only [outcome, hrest, hpiece, bind, Except.bind]

theorem outcome_of_nil (hrest : s.rest = []) : outcome .entered s = .ok s := by
  simp only [outcome, hrest]

/-- All scans of a run have the same outcome. -/
theorem Visits.outcome_eq (h : Visits source stage s) :
    outcome stage s = outcome .fresh (ofSource source) := by
  induction h with
  | start => rfl
  | enter _ henter ih => rw [← outcome_of_enter henter, ih]
  | piece _ hrest hpiece ih => rw [← outcome_of_piece hrest hpiece, ih]

theorem tokenize_eq (source : Text) :
    tokenize source = (outcome .fresh (ofSource source)).bind finish := by
  have hfuel : run source.length (ofSource source) = outcome .fresh (ofSource source) :=
    run_eq_run (ofSource_length_le source) (Nat.le_refl _)
  unfold tokenize
  rw [hfuel]
  rfl

/-- The tokens of a source, from a scan that its run comes past. -/
theorem Visits.tokenize_eq (h : Visits source stage s) :
    tokenize source = (outcome stage s).bind finish := by
  rw [Scan.tokenize_eq, h.outcome_eq]

/-- Where a source is accepted, a run goes on to its end. -/
theorem Visits.outcome_ok {tokens : List Token} (h : Visits source stage s)
    (htokens : tokenize source = .ok tokens) :
    ∃ last, outcome stage s = .ok last ∧ last.finish = .ok tokens := by
  rw [h.tokenize_eq] at htokens
  cases houtcome : outcome stage s with
  | error e =>
    rw [houtcome] at htokens
    cases htokens
  | ok last =>
    rw [houtcome] at htokens
    exact ⟨last, rfl, htokens⟩

/-- The line is entered, if the source is accepted. -/
theorem Visits.exists_enter {tokens : List Token} (h : Visits source .fresh s)
    (htokens : tokenize source = .ok tokens) : ∃ entered, s.enterLine = .ok entered := by
  obtain ⟨last, houtcome, _⟩ := h.outcome_ok htokens
  rw [outcome_fresh] at houtcome
  cases hentered : s.enterLine with
  | error e =>
    rw [hentered] at houtcome
    cases houtcome
  | ok entered => exact ⟨entered, rfl⟩

/-- The next piece is read, if the source is accepted. -/
theorem Visits.exists_piece {tokens : List Token} {b : UInt8} {after : Text}
    (h : Visits source .entered s) (hrest : s.rest = b :: after)
    (htokens : tokenize source = .ok tokens) : ∃ next, s.piece b after = .ok next := by
  obtain ⟨last, houtcome, _⟩ := h.outcome_ok htokens
  unfold outcome at houtcome
  simp only [hrest] at houtcome
  cases hpiece : s.piece b after with
  | error e =>
    rw [hpiece] at houtcome
    cases houtcome
  | ok next => exact ⟨next, rfl⟩

/-- A run only adds tokens. -/
theorem outcome_tokens (h : outcome .fresh s = .ok s') : s.tokens <:+ s'.tokens := by
  refine @run_induction (fun later => s.tokens <:+ later.tokens) ?_ ?_ _ s s' (List.suffix_refl _) h
  · intro later entered hlater henter
    obtain ⟨margin, _, htokens⟩ := enterLine_tokens henter
    rw [htokens]
    exact hlater.trans (List.suffix_append margin _)
  · intro later next hlater hreads
    refine hlater.trans ?_
    cases hreads with
    | separator => exact List.suffix_refl _
    | lineFeed =>
      unfold lineFeed
      split
      · split
        · exact List.suffix_refl _
        · exact List.suffix_cons _ _
      · exact List.suffix_refl _
    | token => exact List.suffix_cons _ _
    | symbol htracked =>
      rw [trackBrackets_eq htracked]
      exact List.suffix_cons _ _

/-- What has been read of an accepted source is the front of its tokens. -/
theorem Visits.tokens_prefix {tokens : List Token} (h : Visits source .fresh s)
    (htokens : tokenize source = .ok tokens) : s.tokens.reverse <+: tokens := by
  obtain ⟨last, houtcome, hfinish⟩ := h.outcome_ok htokens
  obtain ⟨_, rfl⟩ := finish_eq_ok hfinish
  have hmore : s.tokens <:+ last.endLine.tokens := by
    refine (outcome_tokens houtcome).trans ?_
    unfold endLine
    split
    · exact List.suffix_refl _
    · exact List.suffix_cons _ _
  exact (List.reverse_prefix.mpr hmore).trans (List.prefix_append _ _)

end Scan

end StyleCheck
