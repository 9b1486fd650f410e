import StyleCheck.Proofs.Scan.Offset

/-! # Runs of a Scan

    A run goes in rounds: it enters the line, and then reads a piece.
    `Visits` is every scan that the run over a source comes past, and
    `Stops` the scan at which it fails, so that a statement about the
    middle of a run can be made at all.

    * `tokenize_eq_ok`, `tokenize_eq_error`: how a run ends.
    * `Turns`: all that reading a piece does to a scan that is visited.
      It adds tokens only inside of logical lines.
    * `pushes_of_tokenize`, `pushes_of_isSpelled`: every token but the
      layout tokens was added by a piece at a scan that is visited.
-/

namespace StyleCheck

open Byte

namespace Scan

/-! ## Section 1: The scans of a run -/

/-- Where a run is in its round. -/
inductive Stage where
  /-- The round starts. -/
  | fresh
  /-- The line has been entered, and a piece is next. -/
  | entered
  deriving DecidableEq, Repr

/-- The scans that the run over a source comes past. -/
inductive Visits (source : Text) : Stage → Scan → Prop where
  | start : Visits source .fresh (ofSource source)
  | enter {s s' : Scan} (h : Visits source .fresh s) (henter : s.enterLine = .ok s') :
      Visits source .entered s'
  | piece {s s' : Scan} {b : UInt8} {after : Text} (h : Visits source .entered s)
      (hrest : s.rest = b :: after) (hpiece : s.piece b after = .ok s') :
      Visits source .fresh s'

/-- The run over a source stops at a scan with an error. -/
inductive Stops (source : Text) : Scan → SyntaxError → Prop where
  | line {s : Scan} {e : SyntaxError} (h : Visits source .fresh s)
      (herror : s.enterLine = .error e) : Stops source s e
  | piece {s : Scan} {e : SyntaxError} {b : UInt8} {after : Text}
      (h : Visits source .entered s) (hrest : s.rest = b :: after)
      (herror : s.piece b after = .error e) : Stops source s e
  | finish {s : Scan} {e : SyntaxError} (h : Visits source .entered s) (hrest : s.rest = [])
      (herror : s.finish = .error e) : Stops source s e

variable {source : Text} {stage : Stage} {s s' : Scan} {e : SyntaxError}

/-- A run that has fuel enough ends at a scan that is visited, be it at
    the end of the source or with an error. -/
theorem Visits.run {fuel : Nat} : ∀ {s : Scan}, Visits source .fresh s →
    s.rest.length ≤ fuel →
    match Scan.run fuel s with
      | .ok s' => Visits source .entered s' ∧ s'.rest = []
      | .error e => ∃ s', Stops source s' e := by
  induction fuel with
  | zero =>
    intro s h hfuel
    unfold Scan.run
    cases hentered : s.enterLine with
    | error e => exact ⟨s, .line h hentered⟩
    | ok entered =>
      have hle := enterLine_length_le hentered
      exact ⟨.enter h hentered, List.eq_nil_of_length_eq_zero (by omega)⟩
  | succ fuel ih =>
    intro s h hfuel
    unfold Scan.run
    cases hentered : s.enterLine with
    | error e => exact ⟨s, .line h hentered⟩
    | ok entered =>
      have hle := enterLine_length_le hentered
      have hvisit : Visits source .entered entered := .enter h hentered
      simp only [bind, Except.bind]
      cases hrest : entered.rest with
      | nil => exact ⟨hvisit, hrest⟩
      | cons b after =>
        cases hpiece : entered.piece b after with
        | error e => simpa [hpiece] using ⟨entered, .piece hvisit hrest hpiece⟩
        | ok next =>
          -- The piece has used up a byte, and so has the round its fuel.
          have hlt := (piece_reads hrest hpiece).length_lt
          simpa [hpiece] using ih (.piece hvisit hrest hpiece) (by omega)

theorem ofSource_length_le (source : Text) : (ofSource source).rest.length ≤ source.length := by
  unfold ofSource
  dsimp only
  split
  · simp
  · exact Nat.le_refl _

/-- The tokens of a source are those of the last scan of its run. -/
theorem tokenize_eq_ok {tokens : List Token} (h : tokenize source = .ok tokens) :
    ∃ s, Visits source .entered s ∧ s.rest = [] ∧ s.finish = .ok tokens := by
  have hrun := Visits.start.run (ofSource_length_le source)
  unfold tokenize at h
  cases hs : Scan.run source.length (ofSource source) with
  | error e => simp [hs, bind, Except.bind] at h
  | ok s =>
    rw [hs] at hrun
    simp only [hs, bind, Except.bind] at h
    exact ⟨s, hrun.1, hrun.2, h⟩

/-- A source that is rejected is rejected at a scan of its run. -/
theorem tokenize_eq_error (h : tokenize source = .error e) : ∃ s, Stops source s e := by
  have hrun := Visits.start.run (ofSource_length_le source)
  unfold tokenize at h
  cases hs : Scan.run source.length (ofSource source) with
  | error e' =>
    rw [hs] at hrun
    simp only [hs, bind, Except.bind, Except.error.injEq] at h
    exact h ▸ hrun
  | ok s =>
    rw [hs] at hrun
    simp only [hs, bind, Except.bind] at h
    exact ⟨s, .finish hrun.1 hrun.2 h⟩

/-! ## Section 2: Starts of lines -/

/-- The newest token is no spelled one, if there is one at all. -/
def NoneSpelled (tokens : List Token) : Prop :=
  ∀ token ∈ tokens.head?, token.lexeme.isSpelled = false

/-- What holds where a logical line may start: no bracket is open, the
    line before has been ended, and once the line has been entered there
    is no code on it. -/
structure AtStart (stage : Stage) (s : Scan) : Prop where
  brackets : s.brackets = []
  tokens : NoneSpelled s.tokens
  lineOver : stage = .entered → isLineOver s.rest = true

/-- What reading a piece does to a scan that is visited. -/
inductive Turns (s : Scan) : Scan → Prop where
  | separator {n : Nat} (hsep : Separates s.rest n) : Turns s (s.skip n)
  /-- A line feed that ends a logical line. -/
  | newline {rest : Text} (hrest : s.rest = newline :: rest) (hbrackets : s.brackets = [])
      (hstart : s.atLineStart = false) :
      Turns s { (s.emit .newline).skip 1 with atLineStart := true }
  | token {n : Nat} {lexeme : Lexeme} (hstart : s.atLineStart = false)
      (hspelled : lexeme.isSpelled = true) (hsymbol : ∀ symbol, lexeme ≠ .symbol symbol)
      (hle : n ≤ s.rest.length) (htext : lexeme.text = s.rest.take n) :
      Turns s ((s.emit lexeme).skip n)
  | symbol {tracked : Scan} {symbol : Symbol} (hstart : s.atLineStart = false)
      (htracked : s.trackBrackets symbol = .ok tracked) (hstarts : symbol.text <+: s.rest) :
      Turns s ((tracked.emit (.symbol symbol)).skip symbol.text.length)

/-- A line feed is a separator, unless it ends a logical line. -/
theorem lineFeed_turns {rest : Text} (hrest : s.rest = newline :: rest) :
    Turns s s.lineFeed := by
  have hsep : Separates s.rest 1 := by
    rw [hrest]
    exact .lineFeed
  unfold lineFeed
  split
  case isFalse => exact .separator hsep
  case isTrue hbrackets =>
    cases hstart : s.atLineStart with
    | true =>
      have hsame : { s.skip 1 with atLineStart := true } = s.skip 1 := by
        rw [← hstart]
        rfl
      simpa [hsame] using Turns.separator hsep
    | false => simpa using Turns.newline hrest hbrackets hstart

/-- Where a line has been entered, pieces with tokens are read only if it
    has code. -/
theorem turns_of_piece {b : UInt8} {after : Text} (hrest : s.rest = b :: after)
    (hpiece : s.piece b after = .ok s')
    (hover : s.atLineStart = true → isLineOver s.rest = true) : Turns s s' := by
  cases hstart : s.atLineStart with
  | false =>
    cases piece_reads hrest hpiece with
    | separator hsep => exact .separator hsep
    | lineFeed hrest => exact lineFeed_turns hrest
    | token hspelled hsymbol _ hle htext => exact .token hstart hspelled hsymbol hle htext
    | symbol htracked hstarts => exact .symbol hstart htracked hstarts
  | true =>
    -- A comment is skipped, and a line feed behind it ends nothing.
    have hends : b = hash ∨ b = newline := by
      have := hover hstart
      rw [hrest] at this
      simpa [isLineOver] using this
    unfold piece at hpiece
    rcases hends with rfl | rfl
    · rw [if_neg (by decide), if_pos rfl] at hpiece
      cases hpiece
      refine .separator ?_
      rw [hrest]
      exact .comment
    · rw [if_neg (by decide), if_neg (by decide), if_pos rfl] at hpiece
      cases hpiece
      exact lineFeed_turns hrest

theorem NoneSpelled.cons {token : Token} {tokens : List Token}
    (h : token.lexeme.isSpelled = false) : NoneSpelled (token :: tokens) := by
  intro newest hnewest
  obtain rfl : token = newest := by simpa using hnewest
  exact h

theorem Visits.atStart (h : Visits source stage s) (hstart : s.atLineStart = true) :
    AtStart stage s := by
  induction h with
  | start => exact ⟨rfl, fun _ h => by simp [ofSource] at h, fun h => by cases h⟩
  | enter _ henter ih =>
    rcases enterLine_cases henter with ⟨rfl, hno⟩ | ⟨hold, _, ⟨rfl, hover⟩ | ⟨_, hsettle⟩⟩
    · exact absurd ⟨hstart, (ih hstart).brackets⟩ hno
    · exact ⟨(ih hold).brackets, (ih hold).tokens, fun _ => hover⟩
    -- A line that has been settled has been started.
    · rcases settle_cases hsettle with ⟨_, rfl⟩ | ⟨_, _, rfl⟩ <;> cases hstart
  | piece _ hrest hpiece ih =>
    cases turns_of_piece hrest hpiece fun h => (ih h).lineOver rfl with
    | separator =>
      exact ⟨(ih hstart).brackets, (ih hstart).tokens, fun h => by cases h⟩
    | newline _ hbrackets _ => exact ⟨hbrackets, .cons rfl, fun h => by cases h⟩
    | token hold => exact absurd hstart (by simpa [skip, emit] using hold)
    | symbol hold htracked =>
      rw [trackBrackets_eq htracked] at hstart
      exact absurd hstart (by simpa [skip, emit] using hold)

/-- A piece at a scan that is visited. -/
theorem Visits.turns {b : UInt8} {after : Text} (h : Visits source .entered s)
    (hrest : s.rest = b :: after) (hpiece : s.piece b after = .ok s') : Turns s s' :=
  turns_of_piece hrest hpiece fun hstart => (h.atStart hstart).lineOver rfl

/-- Every scan that is visited has read its source up to an offset. -/
theorem Visits.exists_at (h : Visits source stage s) : ∃ offset, At source s offset := by
  induction h with
  | start => exact ⟨_, at_ofSource source⟩
  | @enter s s' _ henter ih =>
    obtain ⟨offset, hat⟩ := ih
    have hblank : s.blankCount ≤ s.rest.length := (List.takeWhile_sublist _).length_le
    rcases enterLine_cases henter with ⟨rfl, _⟩ | ⟨_, _, ⟨rfl, _⟩ | ⟨_, hsettle⟩⟩
    · exact ⟨offset, hat⟩
    · exact ⟨_, hat.skip hblank⟩
    · rcases settle_cases hsettle with ⟨_, rfl⟩ | ⟨_, _, rfl⟩ <;>
        exact ⟨_, (hat.skip hblank).congr rfl rfl⟩
  | @piece s s' b after hvisit hrest hpiece ih =>
    obtain ⟨offset, hat⟩ := ih
    cases hvisit.turns hrest hpiece with
    | separator hsep => exact ⟨_, hat.skip hsep.le_length⟩
    | newline =>
      have hle : 1 ≤ s.rest.length := by
        rw [hrest]
        exact Nat.succ_pos after.length
      exact ⟨_, (hat.skip hle).congr rfl rfl⟩
    | token _ _ _ hle => exact ⟨_, (hat.skip hle).congr rfl rfl⟩
    | @symbol tracked symbol _ htracked hstarts =>
      refine ⟨_, (hat.skip hstarts.length_le).congr ?_ ?_⟩ <;>
        rw [trackBrackets_eq htracked] <;> rfl

/-! ## Section 3: Tokens and the scans that push them -/

/-- The tokens at the margin: they are there for the levels only. -/
def isMargin (token : Token) : Bool :=
  token.lexeme == .indent || token.lexeme == .dedent

/-- A piece that is read at a scan adds a token. -/
inductive Pushes (source : Text) (s : Scan) (token : Token) : Prop where
  | intro {s' : Scan} {b : UInt8} {after : Text} (h : Visits source .entered s)
      (hrest : s.rest = b :: after) (hpiece : s.piece b after = .ok s')
      (htokens : s'.tokens = token :: s.tokens)

/-- Entering a line adds tokens at the margin only. -/
theorem enterLine_tokens (h : s.enterLine = .ok s') :
    ∃ margin : List Token, (∀ token ∈ margin, isMargin token = true) ∧
      s'.tokens = margin ++ s.tokens := by
  rcases enterLine_cases h with ⟨rfl, _⟩ | ⟨_, _, ⟨rfl, _⟩ | ⟨_, hsettle⟩⟩
  · exact ⟨[], by simp, rfl⟩
  · exact ⟨[], by simp, rfl⟩
  · rcases settle_cases hsettle with ⟨_, rfl⟩ | ⟨_, _, rfl⟩
    · refine ⟨[⟨.indent, _⟩], ?_, rfl⟩
      intro token hmem
      rw [List.mem_singleton.mp hmem]
      rfl
    · refine ⟨List.replicate _ ⟨.dedent, _⟩, ?_, rfl⟩
      intro token hmem
      rw [(List.mem_replicate.mp hmem).2]
      rfl

/-- Reading a piece adds a token at most, and none at the margin. -/
theorem Turns.tokens (h : Turns s s') :
    s'.tokens = s.tokens ∨
      ∃ token, isMargin token = false ∧ token.lexeme ≠ .endMarker ∧
        s'.tokens = token :: s.tokens := by
  cases h with
  | separator => exact .inl rfl
  | newline => exact .inr ⟨_, rfl, by simp, rfl⟩
  | @token n lexeme _ hspelled =>
    refine .inr ⟨⟨lexeme, s.position⟩, ?_, ?_, rfl⟩
    · cases lexeme <;> simp_all [isMargin, Lexeme.isSpelled]
    · rintro rfl
      cases hspelled
  | @symbol tracked symbol _ htracked =>
    refine .inr ⟨⟨.symbol symbol, tracked.position⟩, rfl, by simp, ?_⟩
    rw [trackBrackets_eq htracked]
    rfl

/-- An element that is not among those in front is behind them. -/
theorem exists_append_cons_of_notMem {front behind newer older : List Token} {token : Token}
    (h : newer ++ token :: older = front ++ behind) (hmem : token ∉ front) :
    ∃ more, behind = more ++ token :: older := by
  rcases List.append_eq_append_iff.mp h with ⟨more, hfront, hrest⟩ | ⟨more, _, hrest⟩
  · cases more with
    | nil => exact ⟨[], by simpa using hrest.symm⟩
    | cons first more =>
      have hfirst : token = first := (List.cons.inj hrest).1
      exact absurd (by simp [hfront, hfirst]) hmem
  · exact ⟨more, hrest⟩

/-- Where a token not at the margin stands, its own piece was read. -/
theorem Visits.pushes_of_mem (h : Visits source stage s) :
    ∀ {newer older : List Token} {token : Token}, s.tokens = newer ++ token :: older →
      isMargin token = false → ∃ s₀, Pushes source s₀ token ∧ s₀.tokens = older := by
  induction h with
  | start =>
    intro newer older token htokens _
    simp [ofSource] at htokens
  | enter _ henter ih =>
    intro newer older token htokens htoken
    obtain ⟨margin, hmargin, hadded⟩ := enterLine_tokens henter
    -- The token is none of those that were added, so it was there before.
    have hnotMem : token ∉ margin := by
      intro hmem
      rw [hmargin token hmem] at htoken
      cases htoken
    obtain ⟨more, hmore⟩ := exists_append_cons_of_notMem (htokens.symm.trans hadded) hnotMem
    exact ih hmore htoken
  | @piece s s' b after hvisit hrest hpiece ih =>
    intro newer older token htokens htoken
    rcases (hvisit.turns hrest hpiece).tokens with hsame | ⟨added, _, _, hadded⟩
    · exact ih (hsame ▸ htokens) htoken
    · rw [hadded] at htokens
      cases newer with
      | nil =>
        obtain ⟨rfl, rfl⟩ := List.cons.inj htokens
        exact ⟨s, ⟨hvisit, hrest, hpiece, hadded⟩, rfl⟩
      | cons newest newer => exact ih (List.cons.inj htokens).2 htoken

/-- The scan with its last line ended. -/
def endLine (s : Scan) : Scan := if s.isLineEnded then s else s.emit .newline

/-- The last tokens of all: a dedent for every level that is still open,
    and the end marker. -/
def lastTokens (s : Scan) : List Token :=
  List.replicate (s.levels.length - 1) ⟨.dedent, s.position⟩ ++ [⟨.endMarker, s.position⟩]

theorem finish_eq_ok {tokens : List Token} (h : s.finish = .ok tokens) :
    s.brackets = [] ∧ tokens = s.endLine.tokens.reverse ++ s.lastTokens := by
  unfold finish at h
  split at h
  case h_1 => cases h
  case h_2 hbrackets =>
    refine ⟨hbrackets, ?_⟩
    dsimp only at h
    cases h
    unfold endLine lastTokens
    split <;> simp [emit]

/-- No end marker is added before the end. -/
theorem Visits.ne_endMarker (h : Visits source stage s) :
    ∀ token ∈ s.tokens, token.lexeme ≠ .endMarker := by
  induction h with
  | start => simp [ofSource]
  | enter _ henter ih =>
    obtain ⟨margin, hmargin, hadded⟩ := enterLine_tokens henter
    intro token hmem
    rw [hadded] at hmem
    rcases List.mem_append.mp hmem with hmem | hmem
    · intro hend
      have := hmargin token hmem
      simp [isMargin, hend] at this
    · exact ih token hmem
  | piece hvisit hrest hpiece ih =>
    intro token hmem
    rcases (hvisit.turns hrest hpiece).tokens with hsame | ⟨added, _, hne, hadded⟩
    · exact ih token (hsame ▸ hmem)
    · rw [hadded] at hmem
      rcases List.mem_cons.mp hmem with rfl | hmem
      · exact hne
      · exact ih token hmem

/-- A line that has not been ended has a spelled token at its end. -/
theorem Visits.isLineEnded_iff (h : Visits source stage s) :
    s.isLineEnded = true ↔ NoneSpelled s.tokens := by
  have hne := h.ne_endMarker
  unfold isLineEnded NoneSpelled
  cases htokens : s.tokens with
  | nil => simp
  | cons token older =>
    have hend : token.lexeme ≠ .endMarker := hne token (by simp [htokens])
    cases hlexeme : token.lexeme <;> simp_all [Lexeme.isSpelled]

/-- The tokens of a source end with an end marker, and no other token is
    one. -/
theorem eq_concat_endMarker {tokens : List Token} (h : tokenize source = .ok tokens) :
    ∃ inner position, tokens = inner ++ [⟨.endMarker, position⟩] ∧
      ∀ token ∈ inner, token.lexeme ≠ .endMarker := by
  obtain ⟨s, hvisit, _, hfinish⟩ := tokenize_eq_ok h
  have hlast := (finish_eq_ok hfinish).2
  refine ⟨s.endLine.tokens.reverse ++ List.replicate (s.levels.length - 1) ⟨.dedent, s.position⟩,
    s.position, by rw [hlast, lastTokens, List.append_assoc], ?_⟩
  intro token hmem
  rcases List.mem_append.mp hmem with hmem | hmem
  · unfold endLine at hmem
    split at hmem
    case isTrue => exact hvisit.ne_endMarker token (List.mem_reverse.mp hmem)
    case isFalse =>
      rcases List.mem_cons.mp (List.mem_reverse.mp hmem) with rfl | hmem
      · exact fun h => by cases h
      · exact hvisit.ne_endMarker token hmem
  · rw [(List.mem_replicate.mp hmem).2]
    exact fun h => by cases h

/-- Every token of a source but those at the margin and the end marker
    was pushed when its piece was read, with the tokens before it read
    already.  Only a line that the source leaves open is ended without. -/
theorem pushes_of_tokenize {before behind : List Token} {token : Token}
    (h : tokenize source = .ok (before ++ token :: behind)) (hmargin : isMargin token = false)
    (hend : token.lexeme ≠ .endMarker) :
    (∃ s, Pushes source s token ∧ s.tokens = before.reverse) ∨
      token.lexeme = .newline ∧ ¬ NoneSpelled before.reverse := by
  obtain ⟨s, hvisit, _, hfinish⟩ := tokenize_eq_ok h
  obtain ⟨_, htokens⟩ := finish_eq_ok hfinish
  -- The token is none of those that are added at the end, except perhaps a newline.
  have hnotMem : token ∉ s.lastTokens.reverse := by
    intro hmem
    rcases List.mem_append.mp (List.mem_reverse.mp hmem) with hmem | hmem
    · rw [(List.mem_replicate.mp hmem).2] at hmargin
      cases hmargin
    · rw [List.mem_singleton.mp hmem] at hend
      exact hend rfl
  have hreverse := congrArg List.reverse htokens
  rw [List.reverse_append, List.reverse_cons, List.append_assoc, List.singleton_append,
    List.reverse_append, List.reverse_reverse] at hreverse
  obtain ⟨newer, hnewer⟩ := exists_append_cons_of_notMem hreverse hnotMem
  unfold endLine at hnewer
  split at hnewer
  case isTrue => exact .inl (hvisit.pushes_of_mem hnewer hmargin)
  case isFalse hopen =>
    cases newer with
    | nil =>
      obtain ⟨hnewline, hbefore⟩ := List.cons.inj hnewer
      refine .inr ⟨by rw [← hnewline], ?_⟩
      rw [← hbefore]
      exact fun hnone => hopen (hvisit.isLineEnded_iff.mpr hnone)
    | cons newest newer => exact .inl (hvisit.pushes_of_mem (List.cons.inj hnewer).2 hmargin)

/-- Every token that is spelled was pushed by its own piece. -/
theorem pushes_of_isSpelled {before behind : List Token} {token : Token}
    (h : tokenize source = .ok (before ++ token :: behind))
    (hspelled : token.lexeme.isSpelled = true) :
    ∃ s, Pushes source s token ∧ s.tokens = before.reverse := by
  have hmargin : isMargin token = false := by
    obtain ⟨lexeme, position⟩ := token
    cases lexeme <;> first | rfl | cases hspelled
  have hne : ∀ {lexeme : Lexeme}, lexeme.isSpelled = false → token.lexeme ≠ lexeme := by
    rintro lexeme hnot rfl
    rw [hspelled] at hnot
    cases hnot
  rcases pushes_of_tokenize h hmargin (hne rfl) with hpushes | ⟨hnewline, _⟩
  · exact hpushes
  · exact absurd hnewline (hne rfl)

end Scan

end StyleCheck
