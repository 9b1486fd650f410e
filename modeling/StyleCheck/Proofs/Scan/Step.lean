import StyleCheck.Syntax.Scan

/-! # Steps of a Scan

    A scan changes in two ways: it reads the indentation of a physical
    line, or it reads one piece of a line.  `enterLine_cases` and
    `piece_reads` say everything that either of them can do; invariants
    of the scanner are proved from these two and carried over a whole
    source by `run_induction`.  `enterLine_eq_error` and `piece_eq_error`
    say what each of them is refused for, and where.

    `run_rest` says that a run that succeeds has read its source to the
    end: a piece is never empty, so the fuel is enough.
-/

namespace StyleCheck

open Byte

/-! ## Section 1: Separators -/

/-- The first `n` bytes of a text separate tokens: a blank, a line feed,
    a backslash and a line feed, or a comment up to the end of its line. -/
inductive Separates : Text → Nat → Prop where
  | blank {b : UInt8} {rest : Text} (h : isBlank b = true) : Separates (b :: rest) 1
  | lineFeed {rest : Text} : Separates (newline :: rest) 1
  | continuation {rest : Text} : Separates (backslash :: newline :: rest) 2
  | comment {rest : Text} :
      Separates (hash :: rest) ((hash :: rest).takeWhile (· != newline)).length

theorem Separates.pos {t : Text} {n : Nat} (h : Separates t n) : 0 < n := by
  cases h with
  | blank _ => exact Nat.one_pos
  | lineFeed => exact Nat.one_pos
  | continuation => exact Nat.two_pos
  | comment =>
    rw [List.takeWhile_cons_of_pos (by decide)]
    exact Nat.succ_pos _

theorem Separates.le_length {t : Text} {n : Nat} (h : Separates t n) : n ≤ t.length := by
  cases h with
  | blank _ => simp
  | lineFeed => simp
  | continuation => simp
  | comment => exact (List.takeWhile_sublist _).length_le

/-- Whether a lexeme stands for bytes of the source.  The layout lexemes
    stand for none. -/
def Lexeme.isSpelled : Lexeme → Bool
  | newline | indent | dedent | endMarker => false
  | _ => true

/-! ## Section 2: Extents of tokens -/

/-- No symbol is spelled with nothing. -/
theorem Symbol.text_length_pos (symbol : Symbol) : 0 < symbol.text.length := by
  cases symbol with
  | opening bracket => exact Nat.one_pos
  | closing bracket => exact Nat.one_pos
  | _ => decide

namespace NumberLiteral

theorem tailLength_le (hexadecimal : Bool) (before : UInt8) (t : Text) :
    tailLength hexadecimal before t ≤ t.length := by
  induction t generalizing before with
  | nil => simp [tailLength]
  | cons b rest ih =>
    unfold tailLength
    -- What follows is bounded whether or not the byte is part of the number.
    have := ih b
    split
    · simp only [List.length_cons]; omega
    · omega

theorem length_pos {b : UInt8} {rest : Text} : 0 < length (b :: rest) := by
  simp [length]

theorem length_le (t : Text) : length t ≤ t.length := by
  cases t with
  | nil => simp [length]
  | cons b rest =>
    have := tailLength_le (isHexadecimal (b :: rest)) b rest
    simp only [length, List.length_cons]
    omega

end NumberLiteral

namespace StringLiteral

/-- A literal is closed by its own quote, written three times if it was
    opened so. -/
theorem quote_of_piece {literal : Unclosed} {b : UInt8} {rest : Text}
    (h : literal.piece b rest = .closing) :
    b = literal.quote ∧ (literal.triple = true → isTriple b rest = true) := by
  unfold Unclosed.piece at h
  repeat' split at h
  all_goals try cases h
  -- One branch is left, and both facts stand in its guard.
  rename_i hclose
  simp only [Bool.and_eq_true, beq_iff_eq, Bool.or_eq_true, Bool.not_eq_true'] at hclose
  obtain ⟨hb, ht⟩ := hclose
  exact ⟨hb, fun htriple => ht.resolve_left (by simp [htriple])⟩

/-- The closing quotes are all there. -/
theorem quoteCount_le_of_piece {literal : Unclosed} {b : UInt8} {rest : Text}
    (h : literal.piece b rest = .closing) :
    quoteCount literal.triple ≤ rest.length + 1 := by
  obtain ⟨_, htriple⟩ := quote_of_piece h
  cases ht : literal.triple with
  | false => simp [quoteCount]
  | true =>
    have hstarts := List.isPrefixOf_iff_prefix.mp (htriple ht)
    have hlen : 2 ≤ rest.length := by simpa using hstarts.length_le
    simp only [quoteCount, if_true]
    omega

/-- A literal that is closed ends behind the place it was continued at,
    and within the text. -/
theorem close_bounds {t : Text} : ∀ {inner : Unclosed} {outer : List Unclosed}
    {skip offset : Nat} {before : UInt8} {n : Nat},
    close inner outer skip offset before t = .ok n → offset < n ∧ n ≤ offset + t.length := by
  induction t with
  | nil =>
    intro inner outer skip offset before n h
    simp [close] at h
  | cons b rest ih =>
    intro inner outer skip offset before n h
    -- Whatever is open then, the rest is closed from one byte further on.
    have hstep : ∀ {inner' outer' skip'},
        close inner' outer' skip' (offset + 1) b rest = .ok n →
          offset < n ∧ n ≤ offset + (b :: rest).length := by
      intro inner' outer' skip' h'
      have := ih h'
      simp only [List.length_cons]
      omega
    unfold close at h
    cases skip with
    | succ skip => exact hstep h
    | zero =>
      cases hpiece : inner.piece b rest <;> simp only [hpiece] at h
      case content => exact hstep h
      case openField => exact hstep h
      case closeField => exact hstep h
      case nested => exact hstep h
      case lineEnd => cases h
      case closing =>
        cases outer with
        -- A literal within a field hands back to the one around it.
        | cons next others => exact hstep h
        | nil =>
          -- The outermost literal ends behind its quotes, which are all there.
          have hcount := quoteCount_le_of_piece hpiece
          have hpos : 0 < quoteCount inner.triple := by cases inner.triple <;> simp [quoteCount]
          simp only [Except.ok.injEq] at h
          simp only [List.length_cons]
          omega

/-- A literal that is never closed is one of those that are open, or one
    that has been opened further on. -/
theorem close_start_le {t : Text} : ∀ {inner : Unclosed} {outer : List Unclosed}
    {skip offset : Nat} {before : UInt8} {u : Unterminated},
    (∀ literal ∈ inner :: outer, literal.start ≤ offset) →
      close inner outer skip offset before t = .error u → u.start ≤ offset + t.length := by
  induction t with
  | nil =>
    intro inner outer skip offset before u hstart h
    cases h
    exact hstart inner List.mem_cons_self
  | cons b rest ih =>
    intro inner outer skip offset before u hstart h
    have hinner : inner.start ≤ offset := hstart inner List.mem_cons_self
    have houter : ∀ literal ∈ outer, literal.start ≤ offset + 1 := fun literal hmem =>
      Nat.le_succ_of_le (hstart literal (List.mem_cons_of_mem _ hmem))
    -- Whatever is open then has been opened before the next byte.
    have hstep : ∀ {inner' outer' skip'}, inner'.start ≤ offset →
        (∀ literal ∈ outer', literal.start ≤ offset + 1) →
        close inner' outer' skip' (offset + 1) b rest = .error u →
          u.start ≤ offset + (b :: rest).length := by
      intro inner' outer' skip' hinner' houter' h'
      have hopen : ∀ literal ∈ inner' :: outer', literal.start ≤ offset + 1 := by
        intro literal hmem
        rcases List.mem_cons.mp hmem with rfl | hmem
        · exact Nat.le_succ_of_le hinner'
        · exact houter' literal hmem
      have := ih hopen h'
      rw [List.length_cons]
      omega
    unfold close at h
    cases skip with
    | succ skip => exact hstep hinner houter h
    | zero =>
      cases hpiece : inner.piece b rest <;> simp only [hpiece] at h
      case content => exact hstep hinner houter h
      case openField => exact @hstep { inner with depth := inner.depth + 1 } _ _ hinner houter h
      case closeField => exact @hstep { inner with depth := inner.depth - 1 } _ _ hinner houter h
      case nested =>
        refine hstep (Nat.le_refl offset) ?_ h
        intro literal hmem
        rcases List.mem_cons.mp hmem with rfl | hmem
        · exact Nat.le_succ_of_le hinner
        · exact houter literal hmem
      case lineEnd =>
        cases h
        exact Nat.le_add_right_of_le hinner
      case closing =>
        cases outer with
        | nil => cases h
        | cons next others =>
          refine hstep (hstart next (by simp)) (fun literal hmem => ?_) h
          exact houter literal (List.mem_cons_of_mem _ hmem)

theorem length?_start_le {word t : Text} {u : Unterminated}
    (h : length? word t = .error u) : u.start ≤ t.length := by
  unfold length? at h
  split at h
  case h_1 => cases h
  case h_2 quote rest hdrop =>
    have hlen := congrArg List.length hdrop
    simp only [List.length_drop, List.length_cons] at hlen
    have := close_start_le (by simp) h
    omega

theorem length?_bounds {word t : Text} {n : Nat} (hquote : word.length < t.length)
    (h : length? word t = .ok n) : word.length < n ∧ n ≤ t.length := by
  unfold length? at h
  split at h
  case h_1 hdrop =>
    have := congrArg List.length hdrop
    simp only [List.length_drop, List.length_nil] at this
    omega
  case h_2 quote rest hdrop =>
    have hlen := congrArg List.length hdrop
    simp only [List.length_drop, List.length_cons] at hlen
    have := close_bounds h
    omega

end StringLiteral

/-! ## Section 3: Lines -/

namespace Scan

/-- Settling opens one level, or closes those that are deeper than the
    column, of which there may be none. -/
theorem settle_cases {s s' : Scan} {column : Nat} (h : s.settle column = .ok s') :
    (s.level < column ∧ s' = { s.emit .indent with levels := column :: s.levels }) ∨
    (s.level ≥ column ∧ s'.level = column ∧
      s' = { s with
        levels := s.levels.dropWhile (column < ·)
        tokens := List.replicate (s.levels.takeWhile (column < ·)).length
          ⟨.dedent, s.position⟩ ++ s.tokens }) := by
  unfold settle at h
  split at h
  case isTrue hlt => exact .inl ⟨hlt, (Except.ok.inj h).symm⟩
  case isFalse hge =>
    dsimp only at h
    split at h
    case isTrue hcolumn =>
      cases h
      exact .inr ⟨Nat.le_of_not_lt hge, hcolumn, rfl⟩
    case isFalse => cases h

/-- The number of blanks at the front. -/
def blankCount (s : Scan) : Nat := (s.rest.takeWhile isBlank).length

/-- Whether nothing is left of a physical line, or nothing but a comment. -/
def isLineOver : Text → Bool
  | [] => true
  | b :: _ => b == hash || b == newline

/-- Where a line starts, its blanks are read.  The levels are settled to
    what they amount to, unless nothing but a comment follows. -/
theorem enterLine_cases {s s' : Scan} (h : s.enterLine = .ok s') :
    (s' = s ∧ ¬ (s.atLineStart = true ∧ s.brackets = [])) ∨
    (s.atLineStart = true ∧ s.brackets = [] ∧
      ((s' = s.skip s.blankCount ∧ isLineOver s'.rest = true) ∨
        (isLineOver (s.skip s.blankCount).rest = false ∧
          settle { s.skip s.blankCount with atLineStart := false }
            (indentWidth (s.rest.takeWhile isBlank)) = .ok s'))) := by
  unfold enterLine at h
  split at h
  case isFalse hstart =>
    simp only [Bool.and_eq_true, List.isEmpty_iff] at hstart
    exact .inl ⟨(Except.ok.inj h).symm, hstart⟩
  case isTrue hstart =>
    simp only [Bool.and_eq_true, List.isEmpty_iff] at hstart
    refine .inr ⟨hstart.1, hstart.2, ?_⟩
    unfold indentation at h
    dsimp only at h
    split at h
    -- Blanks up to the end of the source, or up to a comment or a line feed, leave the levels alone.
    case h_1 hrest =>
      cases h
      exact .inl ⟨rfl, by rw [hrest]; rfl⟩
    case h_2 b after hrest =>
      split at h
      case isTrue hover =>
        cases h
        exact .inl ⟨rfl, by rw [hrest]; simpa [isLineOver] using hover⟩
      case isFalse hcode =>
        exact .inr ⟨by rw [blankCount, hrest]; simpa [isLineOver] using hcode, h⟩

/-! ## Section 4: Pieces -/

/-- What reading one piece of a line can do. -/
inductive Reads (s : Scan) : Scan → Prop where
  /-- Bytes that separate tokens are skipped. -/
  | separator {n : Nat} (hsep : Separates s.rest n) : Reads s (s.skip n)
  /-- A line feed is read. -/
  | lineFeed {rest : Text} (hrest : s.rest = newline :: rest) : Reads s s.lineFeed
  /-- A token is added, and the bytes that it stands for are skipped. -/
  | token {n : Nat} {lexeme : Lexeme} (hspelled : lexeme.isSpelled = true)
      (hsymbol : ∀ symbol, lexeme ≠ .symbol symbol) (hpos : 0 < n)
      (hle : n ≤ s.rest.length) (htext : lexeme.text = s.rest.take n) :
      Reads s ((s.emit lexeme).skip n)
  /-- A symbol is added, behind the brackets that it opens or closes. -/
  | symbol {tracked : Scan} {symbol : Symbol}
      (htracked : s.trackBrackets symbol = .ok tracked)
      (hstarts : symbol.text <+: s.rest) :
      Reads s ((tracked.emit (.symbol symbol)).skip symbol.text.length)

theorem number_reads {s : Scan} (hrest : s.rest ≠ []) : Reads s s.number := by
  obtain ⟨b, rest, hb⟩ := List.exists_cons_of_ne_nil hrest
  refine .token rfl (by simp) ?_ (NumberLiteral.length_le _) rfl
  rw [hb]
  exact NumberLiteral.length_pos

theorem string_reads {s s' : Scan} {word : Text} (hquote : word.length < s.rest.length)
    (h : s.string word = .ok s') : Reads s s' := by
  unfold string at h
  split at h
  case h_1 n hn =>
    have hbounds := StringLiteral.length?_bounds hquote hn
    cases h
    exact .token rfl (by simp) (by omega) hbounds.2 rfl
  case h_2 => cases h

theorem word_reads {s s' : Scan} {b : UInt8} {after : Text} (hrest : s.rest = b :: after)
    (hb : isNameStart b = true) (h : s.word = .ok s') : Reads s s' := by
  have hbyte : isNameByte b = true := by simp [isNameByte, hb]
  have hpos : 0 < (s.rest.takeWhile isNameByte).length := by
    rw [hrest, List.takeWhile_cons_of_pos hbyte]
    exact Nat.succ_pos _
  have hstarts : s.rest.takeWhile isNameByte <+: s.rest := List.takeWhile_prefix _
  have htext := List.prefix_iff_eq_take.mp hstarts
  -- A word that is no prefix of a literal is a token by itself.
  have hplain : Reads s ((s.emit (.ofWord (s.rest.takeWhile isNameByte))).skip
      (s.rest.takeWhile isNameByte).length) := by
    refine .token ?_ ?_ hpos hstarts.length_le ((Lexeme.text_ofWord _).trans htext)
    all_goals
      unfold Lexeme.ofWord
      split <;> simp [Lexeme.isSpelled]
  unfold word at h
  dsimp only at h
  split at h
  case h_1 =>
    cases h
    exact hplain
  case h_2 quote rest hdrop =>
    split at h
    case isTrue =>
      -- There is a quote behind the prefix, so the text is longer than it.
      refine string_reads ?_ h
      have hlen := congrArg List.length hdrop
      simp only [List.length_drop, List.length_cons] at hlen
      omega
    case isFalse =>
      cases h
      exact hplain

theorem symbol_reads {s s' : Scan} {b : UInt8} (h : s.symbol b = .ok s') : Reads s s' := by
  unfold symbol at h
  split at h
  case h_1 => cases h
  case h_2 symbol hsymbol =>
    unfold Symbol.leading? at hsymbol
    -- The symbol was found because the text starts with it.
    have hstarts := List.find?_some hsymbol
    cases htracked : s.trackBrackets symbol with
    | error e => simp [htracked, bind, Except.bind] at h
    | ok tracked =>
      simp only [htracked, bind, Except.bind, Except.ok.injEq] at h
      subst h
      exact .symbol htracked (List.isPrefixOf_iff_prefix.mp hstarts)

theorem continuation_reads {s s' : Scan} {after : Text} (hrest : s.rest = backslash :: after)
    (h : s.continuation after = .ok s') : Reads s s' := by
  unfold continuation at h
  split at h
  case h_1 => cases h
  case h_2 b rest =>
    split at h
    case isTrue hb =>
      cases h
      refine .separator ?_
      rw [hrest, hb]
      exact .continuation
    case isFalse => cases h

/-- Everything that reading a piece can do. -/
theorem piece_reads {s s' : Scan} {b : UInt8} {after : Text} (hrest : s.rest = b :: after)
    (h : s.piece b after = .ok s') : Reads s s' := by
  unfold piece at h
  split at h
  case isTrue hblank =>
    cases h
    exact .separator (hrest ▸ .blank hblank)
  split at h
  case isTrue hhash =>
    cases h
    refine .separator ?_
    rw [hrest, hhash]
    exact .comment
  split at h
  case isTrue hfeed =>
    cases h
    exact .lineFeed (hfeed ▸ hrest)
  split at h
  case isTrue hslash => exact continuation_reads (hslash ▸ hrest) h
  split at h
  case isTrue hname => exact word_reads hrest hname h
  split at h
  case isTrue =>
    cases h
    exact number_reads (by simp [hrest])
  split at h
  case isTrue => exact string_reads (by simp [hrest]) h
  case isFalse => exact symbol_reads h

/-! ## Section 5: Whole runs -/

/-- Tracking a bracket changes nothing but the brackets. -/
theorem trackBrackets_eq {s tracked : Scan} {symbol : Symbol}
    (h : s.trackBrackets symbol = .ok tracked) :
    tracked = { s with brackets := tracked.brackets } := by
  unfold trackBrackets at h
  split at h
  case h_1 => cases h; rfl
  case h_2 =>
    split at h
    case h_1 => cases h
    case h_2 =>
      split at h
      case isTrue => cases h; rfl
      case isFalse => cases h
  case h_3 => cases h; rfl

/-- A piece has at least one byte. -/
theorem Reads.length_lt {s s' : Scan} (h : Reads s s') : s'.rest.length < s.rest.length := by
  cases h with
  | separator hsep =>
    have hpos := hsep.pos
    have hle := hsep.le_length
    simp only [skip, List.length_drop]
    omega
  | lineFeed hrest =>
    -- A line feed is one byte, whatever it ends.
    have hskip : s.lineFeed.rest = s.rest.drop 1 := by
      unfold Scan.lineFeed
      repeat' split
      all_goals rfl
    rw [hskip, hrest]
    simp
  | token _ _ hpos hle _ =>
    simp only [skip, emit, List.length_drop]
    omega
  | @symbol tracked symbol htracked hstarts =>
    -- The brackets do not touch the bytes.
    have hrest : tracked.rest = s.rest := by rw [trackBrackets_eq htracked]
    have hle := hstarts.length_le
    have hpos := symbol.text_length_pos
    simp only [skip, emit, List.length_drop, hrest]
    omega

/-- Entering a line reads blanks at most. -/
theorem enterLine_length_le {s s' : Scan} (h : s.enterLine = .ok s') :
    s'.rest.length ≤ s.rest.length := by
  rcases enterLine_cases h with ⟨rfl, _⟩ | ⟨_, _, ⟨rfl, _⟩ | ⟨_, hsettle⟩⟩
  · exact Nat.le_refl _
  · simp only [skip, List.length_drop]
    omega
  · rcases settle_cases hsettle with ⟨_, rfl⟩ | ⟨_, _, rfl⟩ <;>
      simp [skip, emit, List.length_drop]

/-- What entering a line and reading a piece preserve, a run preserves. -/
theorem run_induction {P : Scan → Prop}
    (henter : ∀ {s s' : Scan}, P s → s.enterLine = .ok s' → P s')
    (hreads : ∀ {s s' : Scan}, P s → Reads s s' → P s') :
    ∀ {fuel : Nat} {s s' : Scan}, P s → run fuel s = .ok s' → P s' := by
  intro fuel
  induction fuel with
  | zero =>
    intro s s' hs h
    exact henter hs h
  | succ fuel ih =>
    intro s s' hs h
    unfold run at h
    cases hentered : s.enterLine with
    | error e => simp [hentered, bind, Except.bind] at h
    | ok entered =>
      -- One round: enter the line, and then read a piece if there is one.
      have hp := henter hs hentered
      simp only [hentered, bind, Except.bind] at h
      split at h
      case h_1 => cases h; exact hp
      case h_2 b after hrest =>
        cases hpiece : entered.piece b after with
        | error e => simp [hpiece] at h
        | ok next =>
          simp only [hpiece] at h
          exact ih (hreads hp (piece_reads hrest hpiece)) h

/-- With as much fuel as there are bytes, a run ends at the end. -/
theorem run_rest {fuel : Nat} : ∀ {s s' : Scan}, s.rest.length ≤ fuel →
    run fuel s = .ok s' → s'.rest = [] := by
  induction fuel with
  | zero =>
    intro s s' hfuel h
    have hle := enterLine_length_le h
    exact List.eq_nil_of_length_eq_zero (by omega)
  | succ fuel ih =>
    intro s s' hfuel h
    unfold run at h
    cases hentered : s.enterLine with
    | error e => simp [hentered, bind, Except.bind] at h
    | ok entered =>
      -- Entering does not lengthen the rest, and the piece shortens it.
      have hle := enterLine_length_le hentered
      simp only [hentered, bind, Except.bind] at h
      split at h
      case h_1 hrest => cases h; exact hrest
      case h_2 b after hrest =>
        cases hpiece : entered.piece b after with
        | error e => simp [hpiece] at h
        | ok next =>
          have hlt := (piece_reads hrest hpiece).length_lt
          simp only [hpiece] at h
          exact ih (by omega) h

/-! ## Section 6: Refusals -/

variable {s : Scan} {e : SyntaxError}

/-- A position that is reached by reading over some of the bytes. -/
def Ahead (s : Scan) (p : Position) : Prop := ∃ n ≤ s.rest.length, p = (s.skip n).position

theorem ahead_here (s : Scan) : s.Ahead s.position := ⟨0, Nat.zero_le _, rfl⟩

theorem settle_eq_error {column : Nat} (h : s.settle column = .error e) :
    e.position = s.position ∧ e.fault = .inconsistentDedent := by
  unfold settle at h
  split at h
  case isTrue => cases h
  case isFalse =>
    dsimp only at h
    split at h
    case isTrue => cases h
    case isFalse =>
      cases h
      exact ⟨rfl, rfl⟩

/-- The indentation of a line can only be inconsistent. -/
theorem enterLine_eq_error (h : s.enterLine = .error e) :
    s.Ahead e.position ∧ e.fault = .inconsistentDedent := by
  unfold enterLine at h
  split at h
  case isFalse => cases h
  case isTrue =>
    unfold indentation at h
    dsimp only at h
    split at h
    case h_1 => cases h
    case h_2 =>
      split at h
      case isTrue => cases h
      case isFalse =>
        obtain ⟨hposition, hfault⟩ := settle_eq_error h
        exact ⟨⟨s.blankCount, (List.takeWhile_sublist _).length_le, hposition⟩, hfault⟩

/-- The faults of pieces that are no symbols of the language. -/
def isPieceFault : Fault → Bool
  | .unterminatedString _ | .invalidCharacter _ | .endAfterBackslash | .strayBackslash => true
  | _ => false

theorem string_eq_error {word : Text} (h : s.string word = .error e) :
    s.Ahead e.position ∧ isPieceFault e.fault = true := by
  unfold string at h
  split at h
  case h_1 => cases h
  case h_2 literal hliteral =>
    cases h
    exact ⟨⟨literal.start, StringLiteral.length?_start_le hliteral, rfl⟩, rfl⟩

theorem continuation_eq_error {b : UInt8} {after : Text} (hrest : s.rest = b :: after)
    (h : s.continuation after = .error e) :
    s.Ahead e.position ∧ isPieceFault e.fault = true := by
  unfold continuation at h
  split at h
  case h_1 =>
    cases h
    exact ⟨s.ahead_here, rfl⟩
  case h_2 =>
    split at h
    case isTrue => cases h
    case isFalse =>
      cases h
      exact ⟨⟨1, by simp [hrest], rfl⟩, rfl⟩

theorem word_eq_error (h : s.word = .error e) :
    s.Ahead e.position ∧ isPieceFault e.fault = true := by
  unfold word at h
  dsimp only at h
  split at h
  case h_1 => cases h
  case h_2 =>
    split at h
    case isTrue => exact string_eq_error h
    case isFalse => cases h

/-- A bracket is refused where it stands. -/
theorem position_of_trackBrackets {symbol : Symbol} (h : s.trackBrackets symbol = .error e) :
    e.position = s.position := by
  unfold trackBrackets at h
  split at h
  case h_1 => cases h
  case h_2 =>
    split at h
    case h_1 =>
      cases h
      rfl
    case h_2 =>
      split at h
      case isTrue => cases h
      case isFalse =>
        cases h
        rfl
  case h_3 => cases h

theorem symbol_eq_error {b : UInt8} (h : s.symbol b = .error e) :
    s.Ahead e.position ∧ (isPieceFault e.fault = true ∨
      ∃ symbol, symbol.text <+: s.rest ∧ s.trackBrackets symbol = .error e) := by
  unfold symbol at h
  split at h
  case h_1 =>
    cases h
    exact ⟨s.ahead_here, .inl rfl⟩
  case h_2 symbol hsymbol =>
    unfold Symbol.leading? at hsymbol
    have hfound := List.find?_some hsymbol
    have hstarts : symbol.text <+: s.rest := List.isPrefixOf_iff_prefix.mp hfound
    cases htracked : s.trackBrackets symbol with
    | error e' =>
      simp only [htracked, bind, Except.bind, Except.error.injEq] at h
      subst h
      exact ⟨position_of_trackBrackets htracked ▸ s.ahead_here, .inr ⟨symbol, hstarts, htracked⟩⟩
    | ok tracked => simp [htracked, bind, Except.bind] at h

/-- A piece is refused for itself, or for a bracket that it closes. -/
theorem piece_eq_error {b : UInt8} {after : Text} (hrest : s.rest = b :: after)
    (h : s.piece b after = .error e) :
    s.Ahead e.position ∧ (isPieceFault e.fault = true ∨
      ∃ symbol, symbol.text <+: s.rest ∧ s.trackBrackets symbol = .error e) := by
  unfold piece at h
  split at h
  case isTrue => cases h
  split at h
  case isTrue => cases h
  split at h
  case isTrue => cases h
  split at h
  case isTrue => exact (continuation_eq_error hrest h).imp_right .inl
  split at h
  case isTrue => exact (word_eq_error h).imp_right .inl
  split at h
  case isTrue => cases h
  split at h
  case isTrue => exact (string_eq_error h).imp_right .inl
  case isFalse => exact symbol_eq_error h

theorem finish_eq_error (h : s.finish = .error e) :
    ∃ innermost others, s.brackets = innermost :: others ∧
      e = ⟨innermost.position, .unclosedBracket innermost.bracket⟩ := by
  unfold finish at h
  split at h
  case h_1 innermost others hbrackets =>
    cases h
    exact ⟨innermost, others, hbrackets, rfl⟩
  case h_2 => cases h

end Scan

end StyleCheck
