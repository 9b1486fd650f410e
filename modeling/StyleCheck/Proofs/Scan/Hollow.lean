import StyleCheck.Proofs.Scan.Brackets
import StyleCheck.Proofs.Scan.Outcome
import StyleCheck.Proofs.Scan.Words

/-! # Logical Lines without Tokens

    Blank lines and comments add nothing to the tokens.  A line with a
    continuation counts as code, however: its indentation is settled and
    it starts a logical line, even if no token follows before that line
    is over.  Such a hollow line leaves a newline without a token in front
    of it, or an indent without one behind it, and nothing else does.

    * `pastSeparators`: what stands behind the separators at the front of
      a logical line.
    * `BeginsLine.next`: the token that is next where a logical line
      begins, read forwards from there.
    * `Visits.exists_begins`: the place where a line without tokens has
      begun, read backwards.
    * `tokenize_logicalLines`: tokens without such lines, and the sources
      that have them.
-/

namespace StyleCheck

open Byte

namespace Scan

variable {source : Text} {stage : Stage} {s s' : Scan} {t : Text} {n : Nat} {b : UInt8}

/-! ## Section 1: Behind the separators of a line -/

/-- What follows the blanks, the continuations and the comment that a text
    starts with: a line feed, another piece, or nothing at all. -/
def pastSeparators : Text → Text
  | [] => []
  | [b] => if isBlank b || b == hash then [] else [b]
  | b :: c :: rest =>
    if isBlank b then pastSeparators (c :: rest)
    else if b == backslash && c == newline then pastSeparators rest
    else if b == hash then (c :: rest).dropWhile (· != newline)
    else b :: c :: rest

theorem pastSeparators_cons_of_blank (hb : isBlank b = true) (rest : Text) :
    pastSeparators (b :: rest) = pastSeparators rest := by
  cases rest with
  | nil => simp [pastSeparators, hb]
  | cons c rest => rw [pastSeparators, if_pos hb]

theorem pastSeparators_newline (rest : Text) :
    pastSeparators (newline :: rest) = newline :: rest := by
  cases rest <;> rfl

theorem pastSeparators_comment (rest : Text) :
    pastSeparators (hash :: rest) = rest.dropWhile (· != newline) := by
  cases rest <;> rfl

theorem pastSeparators_append {blanks : Text} (hblanks : ∀ b ∈ blanks, isBlank b = true)
    (rest : Text) : pastSeparators (blanks ++ rest) = pastSeparators rest := by
  induction blanks with
  | nil => rfl
  | cons b blanks ih =>
    obtain ⟨hb, hothers⟩ := List.forall_mem_cons.mp hblanks
    rw [List.cons_append, pastSeparators_cons_of_blank hb, ih hothers]

theorem pastSeparators_length_le (t : Text) : (pastSeparators t).length ≤ t.length := by
  fun_induction pastSeparators t with
  | case1 => exact Nat.le_refl _
  | case2 => exact Nat.zero_le _
  | case3 => exact Nat.le_refl _
  | case4 b c rest _ ih => exact Nat.le_succ_of_le ih
  | case5 b c rest _ _ ih =>
    simp only [List.length_cons]
    omega
  | case6 b c rest => exact Nat.le_succ_of_le (List.dropWhile_sublist _).length_le
  | case7 => exact Nat.le_refl _

/-- Behind a comment, its line is over. -/
theorem pastSeparators_dropWhile (t : Text) :
    pastSeparators (t.dropWhile (· != newline)) = t.dropWhile (· != newline) := by
  have hhead := List.head?_dropWhile_not (· != newline) t
  cases hdrop : t.dropWhile (· != newline) with
  | nil => rfl
  | cons b rest =>
    rw [hdrop] at hhead
    obtain rfl : b = newline := by simpa using hhead
    exact pastSeparators_newline rest

/-- A separator that is no line feed does not matter. -/
theorem pastSeparators_drop (hsep : Separates t n) (hfeed : t.head? ≠ some newline) :
    pastSeparators (t.drop n) = pastSeparators t := by
  cases hsep with
  | blank hb => exact (pastSeparators_cons_of_blank hb _).symm
  | lineFeed => exact absurd rfl hfeed
  | continuation => rfl
  | @comment rest =>
    have hdrop : (hash :: rest).drop ((hash :: rest).takeWhile (· != newline)).length =
        rest.dropWhile (· != newline) := Text.drop_length_takeWhile _ (hash :: rest)
    rw [hdrop, pastSeparators_dropWhile, pastSeparators_comment]

/-- Behind the separators of a line, at most a line feed separates. -/
theorem head?_of_pastSeparators_eq (h : pastSeparators t = t) (hsep : Separates t n) :
    t.head? = some newline := by
  refine Decidable.byContradiction fun hfeed => ?_
  have hle := pastSeparators_length_le (t.drop n)
  have hpos := hsep.pos
  have hlength := hsep.le_length
  rw [pastSeparators_drop hsep hfeed, h, List.length_drop] at hle
  omega

/-- Unless a text is behind its separators, there is one at its front. -/
theorem pastSeparators_eq_or (t : Text) :
    pastSeparators t = t ∨ ∃ n, Separates t n ∧ t.head? ≠ some newline := by
  have hblank : ∀ b rest, isBlank b = true →
      ∃ n, Separates (b :: rest) n ∧ (b :: rest).head? ≠ some newline := by
    intro b rest hb
    refine ⟨1, .blank hb, fun hfeed => ?_⟩
    obtain rfl : b = newline := by simpa using hfeed
    cases hb
  have hcomment : ∀ rest, ∃ n, Separates (hash :: rest) n ∧ (hash :: rest).head? ≠ some newline :=
    fun rest => ⟨_, .comment, by rw [List.head?_cons]; decide⟩
  fun_cases pastSeparators t with
  | case1 => exact .inl rfl
  | case2 b h =>
    rcases Bool.or_eq_true_iff.mp h with hb | hb
    · exact .inr (hblank b [] hb)
    · obtain rfl := beq_iff_eq.mp hb
      exact .inr (hcomment [])
  | case3 => exact .inl rfl
  | case4 b c rest hb => exact .inr (hblank b _ hb)
  | case5 b c rest _ h =>
    simp only [Bool.and_eq_true, beq_iff_eq] at h
    obtain ⟨rfl, rfl⟩ := h
    exact .inr ⟨2, .continuation, by rw [List.head?_cons]; decide⟩
  | case6 b c rest _ _ hb =>
    obtain rfl := beq_iff_eq.mp hb
    exact .inr (hcomment _)
  | case7 => exact .inl rfl

/-! ## Section 2: Forwards from the start of a line -/

variable {tokens : List Token} {token : Token}

/-- A separator that is no line feed is read over. -/
theorem piece_of_separates {after : Text} (hrest : s.rest = b :: after)
    (hsep : Separates s.rest n) (hfeed : b ≠ newline) : s.piece b after = .ok (s.skip n) := by
  rw [hrest] at hsep
  unfold piece
  cases hsep with
  | blank hb => rw [if_pos hb]
  | lineFeed => exact absurd rfl hfeed
  | continuation =>
    rw [if_neg (by decide), if_neg (by decide), if_neg (by decide), if_pos rfl]
    rfl
  | comment =>
    rw [if_neg (by decide), if_pos rfl, hrest]

/-- Where a logical line has begun, a run comes past the place behind the
    separators, and has not added a token on the way. -/
theorem Visits.exists_past (h : Visits source .entered s) (hstart : s.atLineStart = false) :
    ∃ s', Visits source .entered s' ∧ s'.rest = pastSeparators s.rest ∧
      pastSeparators s'.rest = s'.rest ∧ s'.tokens = s.tokens ∧ s'.brackets = s.brackets ∧
      s'.atLineStart = false := by
  induction hlength : s.rest.length using Nat.strongRecOn generalizing s
  case ind length ih =>
  rcases pastSeparators_eq_or s.rest with hpast | ⟨n, hsep, hfeed⟩
  · exact ⟨s, h, hpast.symm, hpast, rfl, rfl, hstart⟩
  have hpos := hsep.pos
  have hle := hsep.le_length
  obtain ⟨b, after, hrest⟩ : ∃ b after, s.rest = b :: after := by
    cases hrest : s.rest with
    | nil =>
      rw [hrest] at hle
      exact absurd hle (by simp only [List.length_nil]; omega)
    | cons b after => exact ⟨b, after, rfl⟩
  have hb : b ≠ newline := by
    rintro rfl
    exact hfeed (by rw [hrest]; rfl)
  have hskip : Visits source .fresh (s.skip n) := .piece h hrest (piece_of_separates hrest hsep hb)
  have hentered : Visits source .entered (s.skip n) :=
    .enter hskip (enterLine_of_started (s := s.skip n) hstart)
  have hshorter : (s.skip n).rest.length < length := by
    rw [← hlength]
    simp only [skip, List.length_drop]
    omega
  obtain ⟨s', hvisit, hpast, hsame⟩ := ih _ hshorter hentered hstart rfl
  exact ⟨s', hvisit, hpast.trans (pastSeparators_drop hsep hfeed), hsame⟩

/-- What is next behind the separators: the source ends, or its line does,
    or there is a token. -/
def IsNext (rest : Text) (lexeme : Lexeme) : Prop :=
  match rest with
  | [] => lexeme = .dedent ∨ lexeme = .endMarker
  | b :: _ => if b = newline then lexeme = .newline else lexeme.isSpelled = true

/-- Behind the separators of a line that has begun, a piece adds the next
    token. -/
theorem Visits.next_of_past {after : Text} (h : Visits source .entered s)
    (hrest : s.rest = b :: after) (hpast : pastSeparators s.rest = s.rest)
    (hstart : s.atLineStart = false) (hbrackets : s.brackets = [])
    (htokens : tokenize source = .ok tokens) :
    ∃ token, IsNext s.rest token.lexeme ∧
      ∃ s', Visits source .fresh s' ∧ s'.tokens = token :: s.tokens := by
  obtain ⟨s', hpiece⟩ := h.exists_piece hrest htokens
  have hvisit : Visits source .fresh s' := .piece h hrest hpiece
  by_cases hb : b = newline
  · subst hb
    have hfeed : s' = { (s.emit .newline).skip 1 with atLineStart := true } := by
      unfold Scan.piece at hpiece
      rw [if_neg (by decide), if_neg (by decide), if_pos rfl] at hpiece
      unfold lineFeed at hpiece
      rw [if_pos hbrackets, hstart] at hpiece
      exact (Except.ok.inj hpiece).symm
    refine ⟨⟨.newline, s.position⟩, ?_, s', hvisit, by rw [hfeed]; rfl⟩
    rw [hrest]
    exact rfl
  have hspelled : ∀ {lexeme : Lexeme}, lexeme.isSpelled = true → IsNext s.rest lexeme := by
    intro lexeme hlexeme
    rw [hrest]
    show if b = newline then _ else _
    rwa [if_neg hb]
  cases h.turns hrest hpiece with
  | separator hsep =>
    have hfeed := head?_of_pastSeparators_eq hpast hsep
    rw [hrest] at hfeed
    exact absurd (by simpa using hfeed) hb
  | newline hnewline =>
    rw [hrest] at hnewline
    exact absurd (List.cons.inj hnewline).1 hb
  | token _ hlexeme => exact ⟨_, hspelled hlexeme, _, hvisit, rfl⟩
  | @symbol tracked symbol _ htracked =>
    refine ⟨⟨.symbol symbol, tracked.position⟩, hspelled rfl, _, hvisit, ?_⟩
    rw [trackBrackets_eq htracked]
    rfl

theorem NoneSpelled.margin_append {margin tokens : List Token} (h : NoneSpelled tokens)
    (hmargin : ∀ t ∈ margin, isMargin t = true) : NoneSpelled (margin ++ tokens) := by
  intro t hhead
  cases margin with
  | nil => exact h t hhead
  | cons newest margin =>
    obtain rfl : newest = t := by simpa using hhead
    have hnewest := hmargin newest List.mem_cons_self
    obtain ⟨lexeme, p⟩ := newest
    cases lexeme <;> simp_all [isMargin, Lexeme.isSpelled]

/-- Entering a logical line settles its levels by tokens at the margin, and
    reads the blanks at the front. -/
theorem BeginsLine.enter {entered : Scan} (h : BeginsLine source s)
    (henter : s.enterLine = .ok entered) :
    entered.atLineStart = false ∧ entered.brackets = [] ∧
      entered.rest = (s.skip s.blankCount).rest ∧ ∃ margin : List Token,
        (∀ t ∈ margin, isMargin t = true) ∧
        (s.level < s.indentColumn → ∃ p, margin = [⟨.indent, p⟩]) ∧
        entered.tokens = margin ++ s.tokens := by
  rcases enterLine_cases henter with ⟨rfl, hno⟩ | ⟨_, _, ⟨rfl, hover⟩ | ⟨_, hsettle⟩⟩
  · exact absurd ⟨h.start, h.brackets⟩ hno
  · rw [h.code] at hover
    cases hover
  · rcases settle_cases hsettle with ⟨_, rfl⟩ | ⟨hlevel, _, rfl⟩
    · exact ⟨rfl, h.brackets, rfl, [⟨.indent, _⟩], by simp [isMargin], fun _ => ⟨_, rfl⟩, rfl⟩
    · refine ⟨rfl, h.brackets, rfl, List.replicate _ ⟨.dedent, _⟩, ?_, ?_, rfl⟩
      · intro t hmem
        rw [(List.mem_replicate.mp hmem).2]
        rfl
      · intro hdeeper
        exact absurd hdeeper (Nat.not_lt.mpr hlevel)

/-- The blanks at the front are separators. -/
theorem pastSeparators_skip_blankCount (s : Scan) :
    pastSeparators (s.skip s.blankCount).rest = pastSeparators s.rest := by
  conv => rhs; rw [← s.takeWhile_append_skip.1]
  rw [pastSeparators_append isBlank_of_mem_takeWhile]

/-- Where a logical line begins, there are tokens at the margin first, and
    then what stands behind the separators. -/
theorem BeginsLine.next (h : BeginsLine source s) (htokens : tokenize source = .ok tokens) :
    ∃ margin token behind, (∀ t ∈ margin, isMargin t = true) ∧
      (s.level < s.indentColumn → ∃ p, margin = [⟨.indent, p⟩]) ∧
      tokens = (margin ++ s.tokens).reverse ++ token :: behind ∧
      IsNext (pastSeparators s.rest) token.lexeme := by
  obtain ⟨entered, henter⟩ := h.visit.exists_enter htokens
  have hentered : Visits source .entered entered := .enter h.visit henter
  obtain ⟨hstarted, hbrackets, hrest, margin, hmargin, hindent, hadded⟩ := h.enter henter
  obtain ⟨s', hvisit, hpast, hidle, hsame, hbrackets', hstarted'⟩ := hentered.exists_past hstarted
  have hback : pastSeparators entered.rest = pastSeparators s.rest := by
    rw [hrest, pastSeparators_skip_blankCount]
  have hnone : NoneSpelled s'.tokens := by
    rw [hsame, hadded]
    exact (h.visit.atStart h.start).tokens.margin_append hmargin
  rw [← hback, ← hpast]
  cases hrest' : s'.rest with
  | nil =>
    -- The source is over, and there is no line to be ended.
    obtain ⟨last, houtcome, hfinish⟩ := hvisit.outcome_ok htokens
    rw [outcome_of_nil hrest', Except.ok.injEq] at houtcome
    subst houtcome
    obtain ⟨_, hall⟩ := finish_eq_ok hfinish
    have hended : s'.endLine = s' := if_pos (hvisit.isLineEnded_iff.mpr hnone)
    rw [hended, hsame, hadded] at hall
    unfold lastTokens at hall
    cases hopen : s'.levels.length - 1 with
    | zero =>
      rw [hopen, List.replicate_zero, List.nil_append] at hall
      exact ⟨margin, _, [], hmargin, hindent, hall, .inr rfl⟩
    | succ count =>
      rw [hopen, List.replicate_succ, List.cons_append] at hall
      exact ⟨margin, _, _, hmargin, hindent, hall, .inl rfl⟩
  | cons b after =>
    obtain ⟨token, hnext, after', hvisit', hpushed⟩ :=
      hvisit.next_of_past hrest' hidle hstarted' (hbrackets'.trans hbrackets) htokens
    obtain ⟨behind, hbehind⟩ := hvisit'.tokens_prefix htokens
    refine ⟨margin, token, behind, hmargin, hindent, ?_, hrest' ▸ hnext⟩
    rw [← hbehind, hpushed, hsame, hadded]
    simp

/-! ## Section 3: Backwards to the start of a line -/

/-- Inside of brackets, a token of the logical line has been read. -/
theorem Visits.brackets_of_noneSpelled (h : Visits source stage s) (hnone : NoneSpelled s.tokens) :
    s.brackets = [] := by
  induction h with
  | start => rfl
  | @enter s s' hvisit henter ih =>
    obtain ⟨hbrackets, hsame | hclosed⟩ := enterLine_brackets henter
    · rw [hbrackets]
      exact ih (hsame ▸ hnone)
    · rw [hbrackets, hclosed]
  | @piece s s' b after hvisit hrest hpiece ih =>
    cases hvisit.turns hrest hpiece with
    | separator => exact ih hnone
    | newline _ hbrackets => exact hbrackets
    | token _ hspelled => exact absurd hnone (not_noneSpelled_cons hspelled)
    | symbol => exact absurd hnone (not_noneSpelled_cons rfl)

/-- A logical line without tokens has begun somewhere, with the same behind
    its separators. -/
theorem Visits.exists_begins (h : Visits source stage s) (hstart : s.atLineStart = false)
    (hnone : NoneSpelled s.tokens) :
    ∃ s₀, BeginsLine source s₀ ∧ pastSeparators s₀.rest = pastSeparators s.rest := by
  induction h with
  | start => cases hstart
  | @enter s s' hvisit henter ih =>
    rcases enterLine_cases henter with ⟨rfl, _⟩ | ⟨hold, hbrackets, ⟨rfl, _⟩ | ⟨hcode, hsettle⟩⟩
    · exact ih hstart hnone
    · exact absurd hold (by simpa [skip] using hstart)
    · have hrest : s'.rest = (s.skip s.blankCount).rest := by
        rcases settle_cases hsettle with ⟨_, rfl⟩ | ⟨_, _, rfl⟩ <;> rfl
      refine ⟨s, ⟨hvisit, hold, hbrackets, hcode⟩, ?_⟩
      rw [hrest, pastSeparators_skip_blankCount]
  | @piece s s' b after hvisit hrest hpiece ih =>
    cases hvisit.turns hrest hpiece with
    | @separator n hsep =>
      obtain ⟨s₀, hbegins, hpast⟩ := ih hstart hnone
      refine ⟨s₀, hbegins, hpast.trans (pastSeparators_drop hsep ?_).symm⟩
      -- A line feed would have ended the line, as no bracket is open.
      rintro hfeed
      rw [hrest] at hfeed
      obtain rfl : b = newline := by simpa using hfeed
      have hbrackets := hvisit.brackets_of_noneSpelled hnone
      have hended : (s.skip n).atLineStart = true := by
        have hsame : s.lineFeed = s.skip n := Except.ok.inj hpiece
        rw [← hsame]
        unfold lineFeed
        rw [if_pos hbrackets]
      rw [hended] at hstart
      cases hstart
    | newline => cases hstart
    | token _ hspelled => exact absurd hnone (not_noneSpelled_cons hspelled)
    | symbol => exact absurd hnone (not_noneSpelled_cons rfl)

/-- An indent is added where a logical line begins that is deeper than the
    innermost level. -/
theorem Visits.begins_of_indent (h : Visits source stage s) : ∀ {newer older : List Token},
    s.tokens = newer ++ token :: older → token.lexeme = .indent →
      ∃ s₀, BeginsLine source s₀ ∧ s₀.tokens = older ∧ s₀.level < s₀.indentColumn := by
  induction h with
  | start =>
    intro newer older htokens _
    simp [ofSource] at htokens
  | @enter s s' hvisit henter ih =>
    intro newer older htokens hindent
    rcases enterLine_cases henter with ⟨rfl, _⟩ | ⟨hstart, hbrackets, ⟨rfl, _⟩ | ⟨hcode, hsettle⟩⟩
    · exact ih htokens hindent
    · exact ih htokens hindent
    rcases settle_cases hsettle with ⟨hdeeper, rfl⟩ | ⟨_, _, rfl⟩
    · cases newer with
      | nil =>
        obtain ⟨_, rfl⟩ := List.cons.inj htokens
        exact ⟨s, ⟨hvisit, hstart, hbrackets, hcode⟩, rfl, hdeeper⟩
      | cons newest newer => exact ih (List.cons.inj htokens).2 hindent
    · -- The token is none of the dedents, so it was there before.
      have hnotMem : token ∉ List.replicate
          (({ s.skip s.blankCount with atLineStart := false } : Scan).levels.takeWhile
            (indentWidth (s.rest.takeWhile isBlank) < ·)).length
          ⟨.dedent, (s.skip s.blankCount).position⟩ := by
        intro hmem
        rw [(List.mem_replicate.mp hmem).2] at hindent
        cases hindent
      obtain ⟨more, hmore⟩ := exists_append_cons_of_notMem htokens.symm hnotMem
      exact ih hmore hindent
  | @piece s s' b after hvisit hrest hpiece ih =>
    intro newer older htokens hindent
    rcases (hvisit.turns hrest hpiece).tokens with hsame | ⟨added, hmargin, _, hadded⟩
    · exact ih (hsame ▸ htokens) hindent
    · rw [hadded] at htokens
      cases newer with
      | nil =>
        obtain ⟨rfl, _⟩ := List.cons.inj htokens
        simp [isMargin, hindent] at hmargin
      | cons newest newer => exact ih (List.cons.inj htokens).2 hindent

/-- The same for the tokens of a source. -/
theorem begins_of_indent {before behind : List Token}
    (h : tokenize source = .ok (before ++ token :: behind)) (hindent : token.lexeme = .indent) :
    ∃ s, BeginsLine source s ∧ s.tokens = before.reverse ∧ s.level < s.indentColumn := by
  obtain ⟨s, hvisit, _, hfinish⟩ := tokenize_eq_ok h
  obtain ⟨_, htokens⟩ := finish_eq_ok hfinish
  -- The token is none of those that are added at the end.
  have hnotMem : token ∉ s.lastTokens.reverse := by
    intro hmem
    rcases List.mem_append.mp (List.mem_reverse.mp hmem) with hmem | hmem
    · rw [(List.mem_replicate.mp hmem).2] at hindent
      cases hindent
    · rw [List.mem_singleton.mp hmem] at hindent
      cases hindent
  have hreverse := congrArg List.reverse htokens
  rw [List.reverse_append, List.reverse_cons, List.append_assoc, List.singleton_append,
    List.reverse_append, List.reverse_reverse] at hreverse
  obtain ⟨newer, hnewer⟩ := exists_append_cons_of_notMem hreverse hnotMem
  unfold endLine at hnewer
  split at hnewer
  case isTrue => exact hvisit.begins_of_indent hnewer hindent
  case isFalse =>
    cases newer with
    | nil =>
      obtain ⟨hnewline, _⟩ := List.cons.inj hnewer
      rw [← hnewline] at hindent
      cases hindent
    | cons newest newer => exact hvisit.begins_of_indent (List.cons.inj hnewer).2 hindent

/-- Behind an indent there is what is next on its line. -/
theorem exists_next_of_indent {before behind : List Token}
    (h : tokenize source = .ok (before ++ token :: behind)) (hindent : token.lexeme = .indent) :
    ∃ s next others, BeginsLine source s ∧ s.level < s.indentColumn ∧ behind = next :: others ∧
      IsNext (pastSeparators s.rest) next.lexeme := by
  obtain ⟨s, hbegins, hbefore, hdeeper⟩ := begins_of_indent h hindent
  obtain ⟨margin, next, others, _, hmargin, hall, hnext⟩ := hbegins.next h
  obtain ⟨p, rfl⟩ := hmargin hdeeper
  rw [List.singleton_append, List.reverse_cons, hbefore, List.reverse_reverse, List.append_assoc,
    List.singleton_append] at hall
  obtain ⟨_, hbehind⟩ := List.cons.inj (List.append_cancel_left hall)
  exact ⟨s, next, others, hbegins, hdeeper, hbehind, hnext⟩

/-! ## Section 4: Hollow lines -/

/-- The logical line opens a block, and the source is over before there is
    a token in it. -/
def opensEmptyBlock (s : Scan) : Bool :=
  decide (s.level < s.indentColumn) && (pastSeparators s.rest).isEmpty

/-- The logical line is ended by a line feed before there is a token. -/
def endsEmpty (s : Scan) : Bool := (pastSeparators s.rest).head? == some newline

/-- The logical line that begins here has no token, and still adds to the
    tokens. -/
def isHollow (s : Scan) : Bool := s.opensEmptyBlock || s.endsEmpty

/-- A physical line with nothing but blanks in front of a continuation. -/
def isContinuationOnly (line : Text) : Bool := line.dropWhile isBlank == [backslash, newline]

/-- In front of every newline there is a token that is spelled, and behind
    every indent too. -/
structure LinesHold (tokens : List Token) : Prop where
  newline : ∀ before token behind, tokens = before ++ token :: behind →
    token.lexeme = .newline → ∃ t ∈ before.getLast?, t.lexeme.isSpelled = true
  indent : ∀ before token behind, tokens = before ++ token :: behind →
    token.lexeme = .indent → ∃ t ∈ behind.head?, t.lexeme.isSpelled = true

theorem exists_spelled_iff {before : List Token} :
    (∃ t ∈ before.getLast?, t.lexeme.isSpelled = true) ↔ ¬ NoneSpelled before.reverse := by
  unfold NoneSpelled
  rw [List.head?_reverse]
  cases before.getLast? <;> simp

/-- A hollow line leaves a newline or an indent by itself. -/
theorem BeginsLine.isHollow_eq_false (h : BeginsLine source s)
    (htokens : tokenize source = .ok tokens) (hold : LinesHold tokens) : s.isHollow = false := by
  obtain ⟨margin, token, behind, hmargin, hindent, htokens, hnext⟩ := h.next htokens
  refine Bool.or_eq_false_iff.mpr ⟨?_, ?_⟩ <;> rw [Bool.eq_false_iff]
  · intro hempty
    simp only [opensEmptyBlock, Bool.and_eq_true, decide_eq_true_eq, List.isEmpty_iff] at hempty
    obtain ⟨hdeeper, hpast⟩ := hempty
    obtain ⟨p, rfl⟩ := hindent hdeeper
    have hsplit : tokens = s.tokens.reverse ++ ⟨.indent, p⟩ :: (token :: behind) := by
      simp [htokens]
    obtain ⟨t, hhead, hspelled⟩ := hold.indent _ _ _ hsplit rfl
    obtain rfl : token = t := by simpa using hhead
    rw [hpast] at hnext
    rcases hnext with hdedent | hend
    · rw [hdedent] at hspelled
      cases hspelled
    · rw [hend] at hspelled
      cases hspelled
  · intro hempty
    obtain ⟨rest, hpast⟩ := List.head?_eq_some_iff.mp (beq_iff_eq.mp hempty)
    rw [hpast] at hnext
    have hspelled := hold.newline _ _ _ htokens hnext
    rw [exists_spelled_iff, List.reverse_reverse] at hspelled
    exact hspelled ((h.visit.atStart h.start).tokens.margin_append hmargin)

/-- Without hollow lines, every newline ends a line with a token. -/
theorem linesHold_of_not_hollow (htokens : tokenize source = .ok tokens)
    (h : ∀ s, BeginsLine source s → s.isHollow = false) : LinesHold tokens where
  newline before token behind hsplit hnewline := by
    subst hsplit
    rw [exists_spelled_iff]
    intro hnone
    have hmargin : isMargin token = false := by simp [isMargin, hnewline]
    rcases pushes_of_tokenize htokens hmargin (by simp [hnewline])
      with ⟨s, hpushes, hbefore⟩ | hspelled
    · obtain ⟨hvisit, hrest, hpiece, hadded⟩ := hpushes
      rw [← hbefore] at hnone
      cases hvisit.turns hrest hpiece with
      | separator =>
        have := congrArg List.length hadded
        simp [skip] at this
      | @newline rest hfeed _ hstart =>
        -- The line has begun further back, with nothing but separators since.
        obtain ⟨s₀, hbegins, hpast⟩ := hvisit.exists_begins hstart hnone
        rw [hfeed, pastSeparators_newline] at hpast
        have hhollow := h s₀ hbegins
        simp [isHollow, endsEmpty, hpast] at hhollow
      | token _ hspelled =>
        obtain ⟨rfl, _⟩ := List.cons.inj hadded
        obtain rfl : _ = Lexeme.newline := hnewline
        cases hspelled
      | symbol =>
        obtain ⟨rfl, _⟩ := List.cons.inj hadded
        cases hnewline
    · exact hspelled.2 hnone
  indent before token behind hsplit hindent := by
    subst hsplit
    obtain ⟨s, next, others, hbegins, hdeeper, rfl, hnext⟩ := exists_next_of_indent htokens hindent
    refine ⟨next, rfl, ?_⟩
    have hhollow := h s hbegins
    simp only [isHollow, opensEmptyBlock, endsEmpty, Bool.or_eq_false_iff] at hhollow
    cases hpast : pastSeparators s.rest with
    | nil => simp [hdeeper, hpast] at hhollow
    | cons b rest =>
      have hb : b ≠ newline := by
        rintro rfl
        simp [hpast] at hhollow
      rw [hpast] at hnext
      simpa only [IsNext, if_neg hb] using hnext

theorem isLineOver_of_isHollow (h : s.isHollow = true) :
    isLineOver (pastSeparators s.rest) = true := by
  simp only [isHollow, opensEmptyBlock, endsEmpty, Bool.or_eq_true, Bool.and_eq_true,
    List.isEmpty_iff, beq_iff_eq] at h
  rcases h with ⟨_, hnil⟩ | hfeed
  · rw [hnil]
    rfl
  · obtain ⟨rest, hpast⟩ := List.head?_eq_some_iff.mp hfeed
    rw [hpast]
    rfl

/-- If a line is over behind its separators, and not in front of them, the
    first that is no blank belongs to a continuation. -/
theorem eq_continuation_of_past (hblank : ∀ b ∈ t.head?, isBlank b = false)
    (hcode : isLineOver t = false) (hover : isLineOver (pastSeparators t) = true) :
    ∃ more, t = backslash :: newline :: more := by
  cases t with
  | nil => cases hcode
  | cons b after =>
    have hb := hblank b rfl
    simp only [isLineOver, Bool.or_eq_false_iff] at hcode
    cases after with
    | nil => simp [pastSeparators, isLineOver, hb, hcode] at hover
    | cons c more =>
      by_cases hcontinued : (b == backslash && c == newline) = true
      · simp only [Bool.and_eq_true, beq_iff_eq] at hcontinued
        obtain ⟨rfl, rfl⟩ := hcontinued
        exact ⟨more, rfl⟩
      · simp [pastSeparators, isLineOver, hb, hcode, hcontinued] at hover

/-- Only blanks stand between the start of a physical line and the place
    where a logical line begins. -/
theorem BeginsLine.onMargin (h : BeginsLine source s) : OnMargin source s := by
  rcases h.visit.margin (h.visit.atStart h.start).tokens with hmargin | hover
  · exact hmargin
  · have hcode := h.code
    rw [s.takeWhile_append_skip.2, isLineOver_dropWhile hover] at hcode
    cases hcode

/-- So a continuation behind blanks has its physical line to itself. -/
theorem OnMargin.exists_continuation {more : Text} (h : OnMargin source s)
    (hrest : (s.skip s.blankCount).rest = backslash :: newline :: more) :
    ∃ line ∈ source.body.splitLines, isContinuationOnly line = true := by
  obtain ⟨lines, blanks, hbody, hlines, hblanks⟩ := h
  have hfront : ∀ b ∈ blanks ++ s.rest.takeWhile isBlank, isBlank b = true := by
    intro b hb
    rcases List.mem_append.mp hb with hb | hb
    · exact hblanks b hb
    · exact isBlank_of_mem_takeWhile b hb
  have hnewline : newline ∉ (blanks ++ s.rest.takeWhile isBlank) ++ [backslash] := by
    intro hmem
    rcases List.mem_append.mp hmem with hmem | hmem
    · exact absurd (hfront newline hmem) (by decide)
    · exact absurd hmem (by decide)
  have hline := Text.splitLines_append hnewline (Text.splitLines_newline more)
  refine ⟨((blanks ++ s.rest.takeWhile isBlank) ++ [backslash]) ++ [newline], ?_, ?_⟩
  · have hbehind : blanks ++ s.rest =
        ((blanks ++ s.rest.takeWhile isBlank) ++ [backslash]) ++ newline :: more := by
      conv => lhs; rw [← s.takeWhile_append_skip.1, hrest]
      simp
    refine List.mem_of_getElem? (i := lines.count newline) ?_
    rw [hbody, Text.getElem?_splitLines hlines, hbehind, hline]
    rfl
  · unfold isContinuationOnly
    rw [List.append_assoc, List.dropWhile_append_of_pos hfront]
    rfl

/-- A hollow line starts with a physical line that holds a continuation and
    nothing else. -/
theorem BeginsLine.exists_continuation (h : BeginsLine source s) (hhollow : s.isHollow = true) :
    ∃ line ∈ source.body.splitLines, isContinuationOnly line = true := by
  have hblank : ∀ b ∈ (s.skip s.blankCount).rest.head?, isBlank b = false := by
    intro b hb
    rw [s.takeWhile_append_skip.2] at hb
    have hnot := List.head?_dropWhile_not isBlank s.rest
    rw [Option.mem_def.mp hb] at hnot
    simpa using hnot
  have hover := isLineOver_of_isHollow hhollow
  rw [← pastSeparators_skip_blankCount] at hover
  obtain ⟨more, hmore⟩ := eq_continuation_of_past hblank h.code hover
  exact h.onMargin.exists_continuation hmore

end Scan

open Scan in
/-- **Logical lines**: in the tokens of an accepted source, every newline
    has a spelled token in front of it and every indent one behind it, if
    and only if no hollow line begins anywhere in the source.  So it is in
    any source in which no physical line holds nothing but a continuation:
    blank lines and comments are of no account. -/
theorem tokenize_logicalLines {source : Text} {tokens : List Token}
    (h : tokenize source = .ok tokens) :
    (LinesHold tokens ↔ ∀ s, BeginsLine source s → s.isHollow = false) ∧
    ((∀ line ∈ source.body.splitLines, isContinuationOnly line = false) → LinesHold tokens) := by
  have hexact : LinesHold tokens ↔ ∀ s, BeginsLine source s → s.isHollow = false :=
    ⟨fun hold _ hbegins => hbegins.isHollow_eq_false h hold, linesHold_of_not_hollow h⟩
  refine ⟨hexact, fun hlines => hexact.mpr fun s hbegins => ?_⟩
  cases hhollow : s.isHollow with
  | false => rfl
  | true =>
    obtain ⟨line, hmem, hcontinued⟩ := hbegins.exists_continuation hhollow
    rw [hlines line hmem] at hcontinued
    cases hcontinued

open Scan in
/-- A comment and an empty line in a block leave its tokens alone. -/
theorem logicalLines_of_commented_block :
    ∃ tokens, tokenize (ascii "if x:\n  # c\n\n  y\n") = .ok tokens ∧ LinesHold tokens := by
  have htokens : tokenize (ascii "if x:\n  # c\n\n  y\n") = .ok
      [⟨.keyword .if_, ⟨1, 1⟩⟩, ⟨.name (ascii "x"), ⟨1, 4⟩⟩, ⟨.symbol .colon, ⟨1, 5⟩⟩,
        ⟨.newline, ⟨1, 6⟩⟩, ⟨.indent, ⟨4, 3⟩⟩, ⟨.name (ascii "y"), ⟨4, 3⟩⟩, ⟨.newline, ⟨4, 4⟩⟩,
        ⟨.dedent, ⟨5, 1⟩⟩, ⟨.endMarker, ⟨5, 1⟩⟩] := rfl
  have hlines : (ascii "if x:\n  # c\n\n  y\n").body.splitLines.all
      (fun line => !isContinuationOnly line) = true := rfl
  refine ⟨_, htokens, (tokenize_logicalLines htokens).2 fun line hmem => ?_⟩
  simpa using List.all_eq_true.mp hlines line hmem

open Scan in
/-- An empty line behind a continuation is a newline with no token in front
    of it. -/
theorem newline_of_continued_empty_line :
    ∃ source tokens, tokenize source = .ok tokens ∧ ¬ LinesHold tokens := by
  refine ⟨ascii "\\\n\n", [⟨.newline, ⟨2, 1⟩⟩, ⟨.endMarker, ⟨3, 1⟩⟩], rfl, fun hold => ?_⟩
  obtain ⟨t, hlast, _⟩ := hold.newline [] _ _ rfl rfl
  cases hlast

end StyleCheck
