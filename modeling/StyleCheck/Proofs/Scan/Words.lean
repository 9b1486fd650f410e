import StyleCheck.Proofs.Pattern
import StyleCheck.Proofs.Scan.Levels

/-! # Words on Physical Lines

    Where the words of a source stand on its physical lines.  Positions
    are all that a token keeps of its place, so that the text around it
    has to be found again from the run of the scan.

    * `Visits.margin`: in front of the first token of a logical line,
      there is nothing but blanks on its physical line.
    * `Visits.apart`: between a token and the next one there are only
      separators.
    * `word_of_pushes`: a word is as long as it can be.
    * `rest_of_first_keyword`, `name_of_pushes`: what stands behind the
      first word of a logical line, and behind a name.
    * `first_words`: two words at the start of a logical line, on the
      physical line that the first of them is on.
-/

namespace StyleCheck

open Byte

namespace Scan

variable {source : Text} {stage : Stage} {s s' : Scan} {token : Token} {older : List Token}

/-! ## Section 1: The margin of a line -/

/-- Nothing but blanks has been read of the physical line. -/
def OnMargin (source : Text) (s : Scan) : Prop :=
  ∃ lines blanks, source.body = lines ++ (blanks ++ s.rest) ∧ Text.EndsLine lines ∧
    ∀ b ∈ blanks, isBlank b = true

/-- Blanks may follow. -/
theorem OnMargin.skip {n : Nat} (h : OnMargin source s)
    (hblank : ∀ b ∈ s.rest.take n, isBlank b = true) : OnMargin source (s.skip n) := by
  obtain ⟨lines, blanks, hbody, hlines, hblanks⟩ := h
  refine ⟨lines, blanks ++ s.rest.take n, ?_, hlines, ?_⟩
  · show source.body = lines ++ ((blanks ++ s.rest.take n) ++ s.rest.drop n)
    rw [List.append_assoc, List.take_append_drop, hbody]
  · intro b hb
    rcases List.mem_append.mp hb with hb | hb
    · exact hblanks b hb
    · exact hblank b hb

/-- A line feed leads to the start of a line. -/
theorem onMargin_of_newline {front : Text} (h : source.body = (front ++ [newline]) ++ s.rest) :
    OnMargin source s :=
  ⟨front ++ [newline], [], h, .inr ⟨front, rfl⟩, by simp⟩

theorem OnMargin.congr (h : OnMargin source s) (hrest : s'.rest = s.rest) :
    OnMargin source s' := by
  obtain ⟨lines, blanks, hbody, hlines⟩ := h
  exact ⟨lines, blanks, hrest ▸ hbody, hlines⟩

/-- A separator leads over blanks, to the start of a line, or to the end
    of one. -/
theorem OnMargin.separator {n : Nat} (h : OnMargin source s ∨ isLineOver s.rest = true)
    (hsep : Separates s.rest n) (hbody : ∃ front, source.body = front ++ s.rest) :
    OnMargin source (s.skip n) ∨ isLineOver (s.skip n).rest = true := by
  obtain ⟨front, hbody⟩ := hbody
  have hskip : (s.skip n).rest = s.rest.drop n := rfl
  cases hrest : s.rest with
  | nil =>
    rw [hrest] at hsep
    cases hsep
  | cons b after =>
    rw [hrest] at hsep
    rw [hrest] at hbody hskip
    cases hsep with
    | blank hb =>
      rcases h with h | hover
      · exact .inl (h.skip (by simpa [hrest] using hb))
      · rw [hrest] at hover
        simp only [isLineOver, Bool.or_eq_true, beq_iff_eq] at hover
        rcases hover with rfl | rfl <;> cases hb
    | lineFeed => exact .inl (onMargin_of_newline (by simpa [hskip] using hbody))
    | @continuation rest =>
      refine .inl (@onMargin_of_newline _ _ (front ++ [backslash]) ?_)
      simpa [hskip] using hbody
    | comment =>
      rw [hskip]
      exact .inr (isLineOver_drop_comment _)

theorem isLineOver_dropWhile {t : Text} (h : isLineOver t = true) :
    isLineOver (t.dropWhile isBlank) = true := by
  cases t with
  | nil => rfl
  | cons b rest =>
    have hb : isBlank b = false := by
      simp only [isLineOver, Bool.or_eq_true, beq_iff_eq] at h
      rcases h with rfl | rfl <;> rfl
    rw [List.dropWhile_cons_of_neg (by simp [hb])]
    exact h

theorem not_noneSpelled_cons (hspelled : token.lexeme.isSpelled = true) :
    ¬ NoneSpelled (token :: older) := by
  intro hnone
  rw [hnone token rfl] at hspelled
  cases hspelled

/-- As long as no token of the logical line has been read, there are only
    blanks on the physical line, unless it is over. -/
theorem Visits.margin (h : Visits source stage s) (hnone : NoneSpelled s.tokens) :
    OnMargin source s ∨ isLineOver s.rest = true := by
  induction h with
  | start => exact .inl ⟨[], [], (at_ofSource source).rest.symm, .inl rfl, by simp⟩
  | @enter s s' hvisit henter ih =>
    rcases enterLine_cases henter with ⟨rfl, _⟩ | ⟨hstart, _, ⟨rfl, hover⟩ | ⟨hcode, hsettle⟩⟩
    · exact ih hnone
    · exact .inr hover
    -- The blanks at the front have been read, and then the levels have been settled.
    · obtain ⟨hsplit, hdrop⟩ := s.takeWhile_append_skip
      have hskipped : OnMargin source (s.skip s.blankCount) := by
        rcases ih (hvisit.atStart hstart).tokens with hmargin | hover
        · refine hmargin.skip fun b hb => ?_
          have htake : s.rest.take s.blankCount = s.rest.takeWhile isBlank :=
            (List.prefix_iff_eq_take.mp (List.takeWhile_prefix isBlank)).symm
          exact isBlank_of_mem_takeWhile b (htake ▸ hb)
        -- A line that is over has no code.
        · rw [hdrop, isLineOver_dropWhile hover] at hcode
          cases hcode
      rcases settle_cases hsettle with ⟨_, rfl⟩ | ⟨_, _, rfl⟩ <;> exact .inl (hskipped.congr rfl)
  | @piece s s' b after hvisit hrest hpiece ih =>
    obtain ⟨offset, hat⟩ := hvisit.exists_at
    obtain ⟨front, hbody, _⟩ := hat.body_eq
    cases hvisit.turns hrest hpiece with
    | separator hsep => exact OnMargin.separator (ih hnone) hsep ⟨front, hbody⟩
    | @newline rest hnewline =>
      refine .inl (@onMargin_of_newline _ _ front ?_)
      rw [hbody, hnewline]
      simp [skip, emit, hnewline]
    | token _ hspelled => exact absurd hnone (not_noneSpelled_cons hspelled)
    | symbol => exact absurd hnone (not_noneSpelled_cons rfl)

/-- The physical line of a place that has only blanks in front of it, with
    a byte order mark perhaps. -/
theorem OnMargin.exists_line {first : Text} {others : List Text} {offset : Nat}
    (h : OnMargin source s) (hat : At source s offset)
    (hrest : s.rest.splitLines = first :: others) :
    ∃ front, source.splitLines[s.position.line - 1]? = some (front ++ first) ∧
      ((∀ b ∈ front, isBlank b = true) ∨ front.head? = some 0xEF) := by
  obtain ⟨lines, blanks, hbody, hlines, hblanks⟩ := h
  obtain ⟨front, hfront, hline⟩ := hat.body_eq
  have hmark := source.newline_not_mem_mark
  have hblank : newline ∉ blanks := fun hmem => absurd (hblanks newline hmem) (by decide)
  have hread : front = lines ++ blanks := by
    rw [hbody, ← List.append_assoc] at hfront
    exact (List.append_cancel_right hfront).symm
  have hindex : s.position.line - 1 = lines.count newline := by
    rw [hline, hread, List.count_append, List.count_eq_zero.mpr hblank]
    rfl
  have hsource : source = source.take source.bodyStart ++ (lines ++ (blanks ++ s.rest)) := by
    rw [← hbody]
    exact (List.take_append_drop source.bodyStart source).symm
  rw [hindex]
  rcases hlines with rfl | ⟨before, rfl⟩
  -- On the first line, there may be the mark.
  · refine ⟨source.take source.bodyStart ++ blanks, ?_, ?_⟩
    · have hfirst : newline ∉ source.take source.bodyStart ++ blanks := by simp [hmark, hblank]
      conv => lhs; rw [hsource, List.nil_append, ← List.append_assoc]
      rw [Text.splitLines_append hfirst hrest]
      rfl
    · unfold Text.bodyStart
      split
      case isTrue hprefix =>
        obtain ⟨rest, rfl⟩ := List.isPrefixOf_iff_prefix.mp hprefix
        exact .inr rfl
      case isFalse => exact .inl (by simpa using hblanks)
  · refine ⟨blanks, ?_, .inl hblanks⟩
    have hends : Text.EndsLine (source.take source.bodyStart ++ (before ++ [newline])) :=
      .inr ⟨source.take source.bodyStart ++ before, by simp⟩
    have hcount : (source.take source.bodyStart ++ (before ++ [newline])).count newline =
        (before ++ [newline]).count newline := by
      rw [List.count_append, List.count_eq_zero.mpr hmark, Nat.zero_add]
    have hget := Text.getElem?_splitLines hends (blanks ++ s.rest)
    rw [hcount, List.append_assoc, ← hsource, Text.splitLines_append hblank hrest] at hget
    exact hget

/-! ## Section 2: Between tokens -/

/-- Nothing but separators between two places. -/
inductive Apart (t : Text) : Text → Prop where
  | refl : Apart t t
  | step {u : Text} {n : Nat} (h : Apart t u) (hsep : Separates u n) : Apart t (u.drop n)

theorem separates_space {t : Text} {n : Nat} (h : Separates (space :: t) n) : n = 1 := by
  generalize hx : space = x at h
  cases h with
  | blank | lineFeed => rfl
  | continuation | comment => exact absurd hx (by decide)

/-- Where spaces stand before a byte that separates nothing, a place apart
    from them is one of theirs, or that of the byte. -/
theorem Apart.spaces {n : Nat} {b : UInt8} {rest u : Text} (hb : ∀ n, ¬ Separates (b :: rest) n)
    (h : Apart (List.replicate n space ++ b :: rest) u) :
    ∃ m, u = List.replicate m space ++ b :: rest := by
  induction h with
  | refl => exact ⟨n, rfl⟩
  | step _ hsep ih =>
    obtain ⟨m, rfl⟩ := ih
    cases m with
    | zero => exact absurd hsep (hb _)
    | succ m =>
      rw [List.replicate_succ, List.cons_append] at hsep ⊢
      obtain rfl := separates_space hsep
      exact ⟨m, rfl⟩

/-- The spelling of a token that has been pushed is read. -/
theorem Visits.apart (h : Visits source stage s) (htokens : s.tokens = token :: older)
    (hspelled : token.lexeme.isSpelled = true) :
    ∃ s₀, Pushes source s₀ token ∧ s₀.tokens = older ∧
      Apart (s₀.rest.drop token.lexeme.text.length) s.rest := by
  induction h with
  | start => cases htokens
  | @enter s s' hvisit henter ih =>
    rcases enterLine_cases henter with ⟨rfl, _⟩ | ⟨hstart, _, _⟩
    · exact ih htokens
    -- Where a line is entered, the newest token is no spelled one.
    · obtain ⟨margin, hmargin, hadded⟩ := enterLine_tokens henter
      rw [htokens] at hadded
      cases margin with
      | nil =>
        have hnone := (hvisit.atStart hstart).tokens
        rw [← List.nil_append s.tokens, ← hadded] at hnone
        exact absurd hnone (not_noneSpelled_cons hspelled)
      | cons newest margin =>
        obtain rfl : token = newest := (List.cons.inj hadded).1
        have hnewest := hmargin token List.mem_cons_self
        obtain ⟨lexeme, position⟩ := token
        cases lexeme <;> simp_all [isMargin, Lexeme.isSpelled]
  | @piece s s' b after hvisit hrest hpiece ih =>
    have hpush : ∀ {added : Token}, s'.tokens = added :: s.tokens →
        s'.rest = s.rest.drop added.lexeme.text.length →
        ∃ s₀, Pushes source s₀ token ∧ s₀.tokens = older ∧
          Apart (s₀.rest.drop token.lexeme.text.length) s'.rest := by
      intro added hadded hread
      obtain ⟨rfl, rfl⟩ := List.cons.inj (htokens.symm.trans hadded)
      exact ⟨s, ⟨hvisit, hrest, hpiece, hadded⟩, rfl, hread ▸ .refl⟩
    cases hvisit.turns hrest hpiece with
    | separator hsep =>
      obtain ⟨s₀, hpushes, htokens₀, hapart⟩ := ih htokens
      exact ⟨s₀, hpushes, htokens₀, hapart.step hsep⟩
    | newline =>
      obtain ⟨rfl, _⟩ := List.cons.inj htokens
      cases hspelled
    | token _ _ _ hle htext =>
      refine hpush rfl ?_
      rw [htext, List.length_take, Nat.min_eq_left hle]
      rfl
    | @symbol tracked symbol _ htracked =>
      obtain ⟨brackets, rfl⟩ : ∃ brackets, tracked = { s with brackets := brackets } :=
        ⟨_, trackBrackets_eq htracked⟩
      exact hpush rfl rfl

/-! ## Section 3: Words -/

/-- If a token is added, it is no word. -/
def AddsNoWord (s s' : Scan) : Prop :=
  ∀ token, s'.tokens = token :: s.tokens → token.lexeme.isWord = false

theorem addsNoWord_of_same (h : s'.tokens = s.tokens) : AddsNoWord s s' := by
  intro token htoken
  rw [h] at htoken
  exact absurd htoken.symm (List.cons_ne_self _ _)

theorem addsNoWord_of_cons {tokens : List Token} (h : s'.tokens = token :: tokens)
    (hword : token.lexeme.isWord = false) : AddsNoWord s s' := by
  intro added hadded
  obtain ⟨rfl, _⟩ := List.cons.inj (hadded.symm.trans h)
  exact hword

theorem lineFeed_addsNoWord (s : Scan) : AddsNoWord s s.lineFeed := by
  unfold lineFeed
  split
  case isTrue =>
    cases s.atLineStart with
    | true => exact addsNoWord_of_same rfl
    | false => exact @addsNoWord_of_cons s _ ⟨.newline, s.position⟩ _ rfl rfl
  case isFalse => exact addsNoWord_of_same rfl

theorem continuation_addsNoWord {after : Text} (h : s.continuation after = .ok s') :
    AddsNoWord s s' := by
  unfold continuation at h
  split at h
  case h_1 => cases h
  case h_2 =>
    split at h
    case isTrue =>
      cases h
      exact addsNoWord_of_same rfl
    case isFalse => cases h

theorem string_addsNoWord {word : Text} (h : s.string word = .ok s') : AddsNoWord s s' := by
  unfold string at h
  split at h
  case h_1 n _ =>
    cases h
    exact addsNoWord_of_cons rfl rfl
  case h_2 => cases h

theorem symbol_addsNoWord {b : UInt8} (h : s.symbol b = .ok s') : AddsNoWord s s' := by
  unfold symbol at h
  split at h
  case h_1 => cases h
  case h_2 symbol _ =>
    cases htracked : s.trackBrackets symbol with
    | error e => simp [htracked, bind, Except.bind] at h
    | ok tracked =>
      simp only [htracked, bind, Except.bind, Except.ok.injEq] at h
      subst h
      exact addsNoWord_of_cons rfl rfl

/-- What starts like a word is a word, or the prefix of a literal. -/
theorem word_cases (h : s.word = .ok s') :
    s.string (s.rest.takeWhile isNameByte) = .ok s' ∨
      s' = (s.emit (.ofWord (s.rest.takeWhile isNameByte))).skip
        (s.rest.takeWhile isNameByte).length := by
  unfold word at h
  dsimp only at h
  split at h
  case h_1 =>
    cases h
    exact .inr rfl
  case h_2 =>
    split at h
    case isTrue => exact .inl h
    case isFalse =>
      cases h
      exact .inr rfl

/-- A piece that adds a word is one. -/
theorem word_of_piece {b : UInt8} {after : Text} (hpiece : s.piece b after = .ok s')
    (htokens : s'.tokens = token :: s.tokens) (hword : token.lexeme.isWord = true) :
    isNameStart b = true ∧ s.word = .ok s' := by
  have hadds : ¬ AddsNoWord s s' := fun hno => by
    rw [hno token htokens] at hword
    cases hword
  unfold piece at hpiece
  split at hpiece
  case isTrue =>
    cases hpiece
    exact absurd (addsNoWord_of_same rfl) hadds
  split at hpiece
  case isTrue =>
    cases hpiece
    exact absurd (addsNoWord_of_same rfl) hadds
  split at hpiece
  case isTrue =>
    cases hpiece
    exact absurd s.lineFeed_addsNoWord hadds
  split at hpiece
  case isTrue => exact absurd (continuation_addsNoWord hpiece) hadds
  split at hpiece
  case isTrue hstart => exact ⟨hstart, hpiece⟩
  split at hpiece
  case isTrue =>
    cases hpiece
    exact absurd (addsNoWord_of_cons rfl rfl) hadds
  split at hpiece
  case isTrue => exact absurd (string_addsNoWord hpiece) hadds
  case isFalse => exact absurd (symbol_addsNoWord hpiece) hadds

/-- A word is pushed where it starts, and it goes on as long as there are
    bytes of names. -/
theorem word_of_pushes (h : Pushes source s token) (hword : token.lexeme.isWord = true) :
    token.position = s.position ∧ token.lexeme.text = s.rest.takeWhile isNameByte ∧
      ∃ b after, s.rest = b :: after ∧ isNameStart b = true := by
  obtain ⟨_, hrest, hpiece, htokens⟩ := h
  obtain ⟨hstart, hread⟩ := word_of_piece hpiece htokens hword
  rcases word_cases hread with hstring | rfl
  · rw [string_addsNoWord hstring token htokens] at hword
    cases hword
  · obtain ⟨rfl, _⟩ := List.cons.inj htokens
    exact ⟨rfl, Lexeme.text_ofWord _, _, _, hrest, hstart⟩

/-- What a word starts with separates nothing. -/
theorem not_separates {b : UInt8} {rest : Text} (hb : isNameStart b = true) (n : Nat) :
    ¬ Separates (b :: rest) n := by
  intro hsep
  cases hsep with
  | blank hblank =>
    simp only [isBlank, Bool.or_eq_true, beq_iff_eq] at hblank
    rcases hblank with (rfl | rfl) | rfl <;> cases hb
  | lineFeed | continuation | comment => cases hb

/-- The blanks at the front of a line end where the first other byte is. -/
theorem blanks_inj {front front' rest rest' : Text} {b b' : UInt8}
    (h : front ++ b :: rest = front' ++ b' :: rest') (hfront : ∀ x ∈ front, isBlank x = true)
    (hfront' : ∀ x ∈ front', isBlank x = true) (hb : isBlank b = false) (hb' : isBlank b' = false) :
    front = front' ∧ b :: rest = b' :: rest' := by
  have hblanks := congrArg (List.takeWhile isBlank) h
  rw [List.takeWhile_append_of_pos hfront, List.takeWhile_append_of_pos hfront',
    List.takeWhile_cons_of_neg (by simp [hb]), List.takeWhile_cons_of_neg (by simp [hb']),
    List.append_nil, List.append_nil] at hblanks
  subst hblanks
  exact ⟨rfl, List.append_cancel_left h⟩

end Scan

/-- A keyword is made of letters. -/
theorem Keyword.isLetter_of_mem_text (word : Keyword) : ∀ b ∈ word.text, isLetter b = true := by
  have hall : word.text.all isLetter = true := by cases word <;> rfl
  exact List.all_eq_true.mp hall

/-- A name as it is read: it starts as a name does, and goes on so. -/
def IsIdentifier (name : Text) : Prop :=
  (∃ b rest, name = b :: rest ∧ isNameStart b = true) ∧ ∀ b ∈ name, isNameByte b = true

instance : DecidablePred IsIdentifier
  | [] => isFalse fun h => by
      obtain ⟨⟨_, _, hnil, _⟩, _⟩ := h
      cases hnil
  | b :: rest => decidable_of_iff (isNameStart b = true ∧ (b :: rest).all isNameByte = true)
      (and_congr ⟨fun hb => ⟨b, rest, rfl, hb⟩, by rintro ⟨_, _, ⟨⟩, hb⟩; exact hb⟩
        List.all_eq_true)

theorem isIdentifier_takeWhile {b : UInt8} {rest : Text} (hb : isNameStart b = true) :
    IsIdentifier ((b :: rest).takeWhile isNameByte) := by
  have hbyte : isNameByte b = true := by simp [isNameByte, hb]
  refine ⟨⟨b, rest.takeWhile isNameByte, List.takeWhile_cons_of_pos hbyte, hb⟩, ?_⟩
  exact List.all_eq_true.mp List.all_takeWhile

namespace Scan

variable {source : Text}

/-- A physical line with a keyword behind its blanks goes on with what
    stands behind the keyword. -/
theorem behind_keyword {front first more rest after : Text} {word : Keyword} {b : UInt8} {i : Nat}
    (h : front ++ first = List.replicate i space ++ (word.text ++ rest))
    (hfront : (∀ x ∈ front, isBlank x = true) ∨ front.head? = some 0xEF)
    (hword : word.text = (b :: after).takeWhile isNameByte) (hfirst : b :: after = first ++ more)
    (hne : first ≠ []) (hb : isNameStart b = true) : first = word.text ++ rest := by
  obtain ⟨first, rfl⟩ : ∃ first', first = b :: first' := by
    cases first with
    | nil => exact absurd rfl hne
    | cons c first => exact ⟨first, by rw [(List.cons.inj hfirst).1]⟩
  have hbyte : isNameByte b = true := by simp [isNameByte, hb]
  rw [List.takeWhile_cons_of_pos hbyte] at hword
  have hletter : isLetter b = true :=
    word.isLetter_of_mem_text b (by rw [hword]; exact List.mem_cons_self)
  have hblank : isBlank b = false := by
    cases hblank : isBlank b with
    | false => rfl
    | true =>
      simp only [isBlank, Bool.or_eq_true, beq_iff_eq] at hblank
      rcases hblank with (rfl | rfl) | rfl <;> cases hb
  rw [hword, List.cons_append] at h ⊢
  have hspaces : ∀ x ∈ List.replicate i space, isBlank x = true := by
    intro x hx
    rw [(List.mem_replicate.mp hx).2]
    rfl
  rcases hfront with hfront | hmark
  · exact (blanks_inj h hfront hspaces hblank hblank).2
  -- No mark stands in front of spaces or a keyword.
  · cases front with
    | nil => cases hmark
    | cons c front =>
      obtain rfl : c = 0xEF := by simpa using hmark
      cases i with
      | zero =>
        obtain ⟨rfl, _⟩ := List.cons.inj h
        cases hletter
      | succ i => cases (List.cons.inj h).1

/-- The first word of a logical line, on a physical line that goes on
    behind it. -/
theorem rest_of_first_keyword {word : Keyword} {p : Position} {i : Nat} {rest : Text}
    (h : Pushes source s ⟨.keyword word, p⟩) (hnone : NoneSpelled s.tokens)
    (hline : source.splitLines[p.line - 1]? =
      some (List.replicate i space ++ (word.text ++ rest))) :
    ∃ more, s.rest = (word.text ++ rest) ++ more := by
  obtain ⟨hposition, htext, b, after, hrest, hb⟩ := word_of_pushes h rfl
  obtain ⟨hvisit, _, _, _⟩ := h
  have hmargin : OnMargin source s := by
    rcases hvisit.margin hnone with hmargin | hover
    · exact hmargin
    · rw [hrest] at hover
      simp only [isLineOver, Bool.or_eq_true, beq_iff_eq] at hover
      rcases hover with rfl | rfl <;> cases hb
  obtain ⟨offset, hat⟩ := hvisit.exists_at
  obtain ⟨first, more, hfirst, hlines, hne⟩ := Text.exists_splitLines s.rest (by simp [hrest])
  obtain ⟨front, hphysical, hfront⟩ := hmargin.exists_line hat hlines
  have hsame : front ++ first = List.replicate i space ++ (word.text ++ rest) := by
    rw [show p = s.position from hposition] at hline
    exact Option.some.inj (hphysical.symm.trans hline)
  have hkeyword : word.text = (b :: after).takeWhile isNameByte := htext.trans (hrest ▸ rfl)
  rw [hfirst, behind_keyword hsame hfront hkeyword (hrest ▸ hfirst) hne hb]
  exact ⟨more, rfl⟩

/-- A keyword and a name one behind the other have been pushed, with
    nothing but separators between them. -/
theorem pushes_of_words {before behind : List Token} {word : Keyword} {name : Text}
    {p q : Position}
    (h : tokenize source = .ok (before ++ ⟨.keyword word, p⟩ :: ⟨.name name, q⟩ :: behind)) :
    ∃ s s', Pushes source s ⟨.keyword word, p⟩ ∧ s.tokens = before.reverse ∧
      Pushes source s' ⟨.name name, q⟩ ∧ Apart (s.rest.drop word.text.length) s'.rest := by
  have hname : tokenize source =
      .ok ((before ++ [⟨.keyword word, p⟩]) ++ ⟨.name name, q⟩ :: behind) := by
    rw [h, List.append_assoc, List.singleton_append]
  rcases pushes_of_tokenize hname rfl (by simp) with ⟨s', hpushes', htokens'⟩ | ⟨hnewline, _⟩
  · have htokens : s'.tokens = ⟨.keyword word, p⟩ :: before.reverse := by simpa using htokens'
    have ⟨hvisit, _, _, _⟩ := hpushes'
    obtain ⟨s, hpushes, htokens, hapart⟩ := hvisit.apart htokens rfl
    exact ⟨s, s', hpushes, htokens, hpushes', hapart⟩
  · cases hnewline

/-- A name is read to its end, where spaces lead to it. -/
theorem name_of_pushes {name tail : Text} {q : Position} {j : Nat}
    (h : Pushes source s ⟨.name name, q⟩)
    (hapart : Apart (List.replicate j space ++ (name ++ tail)) s.rest) :
    IsIdentifier name ∧ ∀ b ∈ tail.head?, isNameByte b = false := by
  obtain ⟨_, htext, b, after, hrest, hb⟩ := word_of_pushes h rfl
  have hname : name = s.rest.takeWhile isNameByte := htext
  have hidentifier : IsIdentifier name := by
    rw [hname, hrest]
    exact isIdentifier_takeWhile hb
  refine ⟨hidentifier, ?_⟩
  obtain ⟨⟨c, others, hcons, hc⟩, _⟩ := hidentifier
  rw [hcons, List.cons_append] at hapart
  obtain ⟨m, hm⟩ := hapart.spaces (not_separates hc)
  cases m with
  -- No name starts with a space.
  | succ m =>
    rw [hrest] at hm
    obtain ⟨rfl, _⟩ := List.cons.inj hm
    cases hb
  | zero =>
    have hlongest : name = (name ++ tail).takeWhile isNameByte := by
      conv => lhs; rw [hname, hm]
      rw [hcons]
      rfl
    exact Text.head?_of_longest hlongest

/-- A keyword and a name at the start of a logical line.  Where the
    physical line of the keyword goes on, behind spaces, with the name, it
    has no more of a name there. -/
theorem first_words {before behind : List Token} {word : Keyword} {name tail : Text}
    {p q : Position} {i j : Nat}
    (h : tokenize source = .ok (before ++ ⟨.keyword word, p⟩ :: ⟨.name name, q⟩ :: behind))
    (hnone : NoneSpelled before.reverse)
    (hline : source.splitLines[p.line - 1]? = some (List.replicate i space ++
      (word.text ++ (List.replicate j space ++ (name ++ tail))))) :
    IsIdentifier name ∧ ∀ b ∈ tail.head?, isNameByte b = false := by
  obtain ⟨s, s', hpushes, htokens, hpushes', hapart⟩ := pushes_of_words h
  obtain ⟨more, hrest⟩ := rest_of_first_keyword hpushes (htokens ▸ hnone) hline
  have hdrop : s.rest.drop word.text.length =
      List.replicate j space ++ (name ++ (tail ++ more)) := by
    rw [hrest]
    simp
  obtain ⟨hname, hmore⟩ := name_of_pushes hpushes' (hdrop ▸ hapart)
  refine ⟨hname, fun b hb => hmore b ?_⟩
  obtain ⟨after, rfl⟩ := List.head?_eq_some_iff.mp hb
  rfl

end Scan

end StyleCheck
