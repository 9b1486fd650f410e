import Mathlib.Data.List.Forall2
import StyleCheck.Proofs.Scan.Offset

/-! # Spans of Tokens

    Nothing of a source is lost between its tokens.  Every token that is
    spelled stands for a span of bytes; the spans follow each other in
    the order of the tokens, and what lies between them separates tokens.

    `Tiled` is the invariant that carries this through a scan: the bytes
    read so far are tiled by separators and by the tokens read so far.
-/

namespace StyleCheck

open Byte

/-! ## Section 1: What a token stream is compared with -/

/-- The bytes between two offsets are separators, one behind the other. -/
inductive Trivia (source : Text) : Nat → Nat → Prop where
  | nothing {start : Nat} : Trivia source start start
  | more {start stop n : Nat} (before : Trivia source start stop)
      (next : Separates (source.drop stop) n) : Trivia source start (stop + n)

/-- A token stands for a span: it is spelled like the bytes there, and
    its position is that of the first of them. -/
structure StandsFor (source : Text) (token : Token) (span : Span) : Prop where
  text : token.lexeme.text = source.slice span
  position : token.position = source.positionAt span.start

/-- What is left between two offsets by spans that follow each other. -/
def gaps (start stop : Nat) : List Span → List Span
  | [] => [⟨start, stop⟩]
  | span :: spans => ⟨start, span.start⟩ :: gaps span.stop stop spans

/-- The tokens that are spelled, in their order. -/
def spelledTokens (tokens : List Token) : List Token :=
  tokens.filter (·.lexeme.isSpelled)

theorem spelledTokens_append (ts us : List Token) :
    spelledTokens (ts ++ us) = spelledTokens ts ++ spelledTokens us :=
  List.filter_append ..

/-! ## Section 2: Spans in a row -/

/-- Spans between two offsets, none of them empty, each behind the one
    before. -/
structure InRow (start stop : Nat) (spans : List Span) : Prop where
  nonempty : ∀ span ∈ spans, span.start < span.stop
  within : ∀ span ∈ spans, start ≤ span.start ∧ span.stop ≤ stop
  ordered : spans.Pairwise fun a b => a.stop ≤ b.start

theorem InRow.extend {start stop stop' : Nat} {spans : List Span}
    (h : InRow start stop spans) (hle : stop ≤ stop') : InRow start stop' spans where
  nonempty := h.nonempty
  within := fun span hmem => by
    have := h.within span hmem
    omega
  ordered := h.ordered

theorem InRow.concat {start stop stop' : Nat} {spans : List Span}
    (h : InRow start stop spans) (hbody : start ≤ stop) (hlt : stop < stop') :
    InRow start stop' (spans ++ [⟨stop, stop'⟩]) where
  nonempty := by
    intro span hmem
    rcases List.mem_append.mp hmem with hmem | hmem
    · exact h.nonempty span hmem
    · rw [List.mem_singleton.mp hmem]
      exact hlt
  within := by
    intro span hmem
    rcases List.mem_append.mp hmem with hmem | hmem
    · have := h.within span hmem
      omega
    · rw [List.mem_singleton.mp hmem]
      exact ⟨hbody, Nat.le_refl _⟩
  ordered := by
    rw [List.pairwise_append]
    refine ⟨h.ordered, List.pairwise_singleton _ _, ?_⟩
    intro a ha b hb
    rw [List.mem_singleton.mp hb]
    exact (h.within a ha).2

/-- A span at the end leaves one more gap, which is empty. -/
theorem gaps_concat (start stop stop' : Nat) (spans : List Span) :
    gaps start stop' (spans ++ [⟨stop, stop'⟩]) = gaps start stop spans ++ [⟨stop', stop'⟩] := by
  induction spans generalizing start with
  | nil => rfl
  | cons span spans ih =>
    simp only [List.cons_append, gaps]
    rw [ih]

/-- Trivia at the end belong to the last gap. -/
theorem gaps_extend {source : Text} {stop n : Nat} {spans : List Span}
    (hsep : Separates (source.drop stop) n) : ∀ {start : Nat},
    (∀ gap ∈ gaps start stop spans, Trivia source gap.start gap.stop) →
      ∀ gap ∈ gaps start (stop + n) spans, Trivia source gap.start gap.stop := by
  induction spans with
  | nil =>
    intro start h gap hmem
    rw [List.mem_singleton.mp hmem]
    exact (h ⟨start, stop⟩ List.mem_cons_self).more hsep
  | cons span spans ih =>
    intro start h gap hmem
    rcases List.mem_cons.mp hmem with rfl | hmem
    · exact h _ List.mem_cons_self
    -- Only the last gap reaches up to the end.
    · exact ih (fun gap hgap => h gap (List.mem_cons_of_mem _ hgap)) gap hmem

/-! ## Section 3: The invariant of a scan -/

/-- The source up to an offset is tiled by separators and by the spans
    that the tokens stand for. -/
structure Tiled (source : Text) (tokens : List Token) (offset : Nat) (spans : List Span) :
    Prop where
  tokens : List.Forall₂ (StandsFor source) (spelledTokens tokens) spans
  row : InRow source.bodyStart offset spans
  trivia : ∀ gap ∈ gaps source.bodyStart offset spans, Trivia source gap.start gap.stop

namespace Tiled

variable {source : Text} {tokens : List Token} {offset n : Nat} {spans : List Span}

theorem nothing (source : Text) : Tiled source [] source.bodyStart [] where
  tokens := .nil
  row := ⟨by simp, by simp, .nil⟩
  trivia := by
    intro gap hmem
    rw [List.mem_singleton.mp hmem]
    exact .nothing

theorem separator (h : Tiled source tokens offset spans)
    (hsep : Separates (source.drop offset) n) : Tiled source tokens (offset + n) spans where
  tokens := h.tokens
  row := h.row.extend (Nat.le_add_right _ _)
  trivia := gaps_extend hsep h.trivia

/-- Tokens that are not spelled tile nothing. -/
theorem layout (h : Tiled source tokens offset spans) {added : List Token}
    (hadded : ∀ token ∈ added, token.lexeme.isSpelled = false) :
    Tiled source (tokens ++ added) offset spans where
  tokens := by
    have hnone : spelledTokens added = [] := by
      unfold spelledTokens
      rw [List.filter_eq_nil_iff]
      intro token hmem
      simp [hadded token hmem]
    rw [spelledTokens_append, hnone, List.append_nil]
    exact h.tokens
  row := h.row
  trivia := h.trivia

theorem token (h : Tiled source tokens offset spans) (hbody : source.bodyStart ≤ offset)
    {lexeme : Lexeme} (hspelled : lexeme.isSpelled = true) (hpos : 0 < n)
    (htext : lexeme.text = (source.drop offset).take n) :
    Tiled source (tokens ++ [⟨lexeme, source.positionAt offset⟩]) (offset + n)
      (spans ++ [⟨offset, offset + n⟩]) where
  tokens := by
    have hstands : StandsFor source ⟨lexeme, source.positionAt offset⟩ ⟨offset, offset + n⟩ :=
      { text := by
          unfold Text.slice
          rw [Nat.add_sub_cancel_left]
          exact htext
        position := rfl }
    have hone : spelledTokens [⟨lexeme, source.positionAt offset⟩] =
        [⟨lexeme, source.positionAt offset⟩] := List.filter_cons_of_pos hspelled
    rw [spelledTokens_append, hone]
    exact List.rel_append h.tokens (.cons hstands .nil)
  row := h.row.concat hbody (by omega)
  trivia := by
    rw [gaps_concat]
    intro gap hmem
    rcases List.mem_append.mp hmem with hmem | hmem
    · exact h.trivia gap hmem
    · rw [List.mem_singleton.mp hmem]
      exact .nothing

/-- Blanks are separators one by one. -/
theorem blanks {t : Text} : ∀ {offset : Nat},
    Tiled source tokens offset spans → source.drop offset = t →
      Tiled source tokens (offset + (t.takeWhile isBlank).length) spans := by
  induction t with
  | nil =>
    intro offset h _
    exact h
  | cons b rest ih =>
    intro offset h hdrop
    by_cases hb : isBlank b = true
    · have hnext : source.drop (offset + 1) = rest := by
        rw [← List.drop_drop, hdrop, List.drop_one, List.tail_cons]
      have hsep : Separates (source.drop offset) 1 := by
        rw [hdrop]
        exact .blank hb
      have htail := ih (h.separator hsep) hnext
      rw [List.takeWhile_cons_of_pos hb, List.length_cons, Nat.add_comm _ 1, ← Nat.add_assoc]
      exact htail
    · rw [List.takeWhile_cons_of_neg hb]
      exact h

end Tiled

/-! ## Section 4: Steps keep the invariant -/

namespace Scan

/-- The source of a scan is tiled as far as it has been read. -/
def Covers (source : Text) (s : Scan) : Prop :=
  ∃ offset spans, At source s offset ∧ Tiled source s.tokens.reverse offset spans

variable {source : Text} {s s' : Scan}

theorem covers_ofSource (source : Text) : Covers source (ofSource source) :=
  ⟨source.bodyStart, [], at_ofSource source, .nothing source⟩

/-- Layout tokens may be added anywhere, and whatever is no token, byte
    or position may change. -/
theorem Covers.layout (h : Covers source s) (added : List Token)
    (hadded : ∀ token ∈ added, token.lexeme.isSpelled = false)
    (hrest : s'.rest = s.rest) (hposition : s'.position = s.position)
    (htokens : s'.tokens = added ++ s.tokens) : Covers source s' := by
  obtain ⟨offset, spans, hat, htiled⟩ := h
  refine ⟨offset, spans, hat.congr hrest hposition, ?_⟩
  rw [htokens, List.reverse_append]
  exact htiled.layout fun token hmem => hadded token (List.mem_reverse.mp hmem)

theorem Covers.separator {n : Nat} (h : Covers source s) (hsep : Separates s.rest n) :
    Covers source (s.skip n) := by
  obtain ⟨offset, spans, hat, htiled⟩ := h
  refine ⟨offset + n, spans, hat.skip hsep.le_length, ?_⟩
  rw [hat.rest] at hsep
  exact htiled.separator hsep

theorem Covers.skipBlanks (h : Covers source s) : Covers source (s.skip s.blankCount) := by
  obtain ⟨offset, spans, hat, htiled⟩ := h
  have hle : s.blankCount ≤ s.rest.length := (List.takeWhile_sublist _).length_le
  refine ⟨offset + s.blankCount, spans, hat.skip hle, ?_⟩
  exact Tiled.blanks htiled hat.rest.symm

theorem Covers.enterLine (h : Covers source s) (hs' : s.enterLine = .ok s') :
    Covers source s' := by
  rcases enterLine_cases hs' with ⟨rfl, _⟩ | ⟨_, _, ⟨rfl, _⟩ | ⟨_, hsettle⟩⟩
  · exact h
  · exact h.skipBlanks
  · rcases settle_cases hsettle with ⟨_, rfl⟩ | ⟨_, _, rfl⟩
    -- A level is opened by an indent, and levels are closed by dedents.
    · refine h.skipBlanks.layout [⟨.indent, _⟩] ?_ rfl rfl rfl
      intro token hmem
      rw [List.mem_singleton.mp hmem]
      rfl
    · refine h.skipBlanks.layout (List.replicate _ ⟨.dedent, _⟩) ?_ rfl rfl rfl
      intro token hmem
      rw [(List.mem_replicate.mp hmem).2]
      rfl

/-- A token is added for the bytes that are skipped behind it. -/
theorem Covers.token {n : Nat} {lexeme : Lexeme} (h : Covers source s)
    (hspelled : lexeme.isSpelled = true) (hpos : 0 < n) (hle : n ≤ s.rest.length)
    (htext : lexeme.text = s.rest.take n) : Covers source ((s.emit lexeme).skip n) := by
  obtain ⟨offset, spans, hat, htiled⟩ := h
  -- The token stands where the scan is before its bytes are skipped.
  have hemit : At source (s.emit lexeme) offset := hat.congr rfl rfl
  refine ⟨offset + n, spans ++ [⟨offset, offset + n⟩], hemit.skip hle, ?_⟩
  have htokens : ((s.emit lexeme).skip n).tokens.reverse =
      s.tokens.reverse ++ [⟨lexeme, source.positionAt offset⟩] := by
    rw [← hat.position]
    exact List.reverse_cons
  rw [htokens]
  rw [hat.rest] at htext
  exact htiled.token hat.body hspelled hpos htext

theorem Covers.lineFeed (h : Covers source s) {rest : Text} (hrest : s.rest = newline :: rest) :
    Covers source s.lineFeed := by
  have hsep : Separates s.rest 1 := by
    rw [hrest]
    exact .lineFeed
  have hnothing : ∀ token ∈ ([] : List Token), token.lexeme.isSpelled = false := by simp
  unfold Scan.lineFeed
  split
  case isTrue =>
    split
    case isTrue => exact (h.separator hsep).layout [] hnothing rfl rfl rfl
    case isFalse =>
      -- The newline token stands before the line feed that it is there for.
      have hemit : Covers source (s.emit .newline) := by
        refine h.layout [⟨.newline, _⟩] ?_ rfl rfl rfl
        intro token hmem
        rw [List.mem_singleton.mp hmem]
        rfl
      exact (hemit.separator hsep).layout [] hnothing rfl rfl rfl
  case isFalse => exact h.separator hsep

theorem Covers.reads (h : Covers source s) (hs' : Reads s s') : Covers source s' := by
  cases hs' with
  | separator hsep => exact h.separator hsep
  | lineFeed hrest => exact h.lineFeed hrest
  | token hspelled _ hpos hle htext => exact h.token hspelled hpos hle htext
  | @symbol tracked symbol htracked hstarts =>
    have htracked' := trackBrackets_eq htracked
    have hcovers : Covers source tracked := by
      rw [htracked']
      exact h.layout [] (by simp) rfl rfl rfl
    have hrest : tracked.rest = s.rest := by rw [htracked']
    rw [← hrest] at hstarts
    exact hcovers.token rfl symbol.text_length_pos hstarts.length_le
      (List.prefix_iff_eq_take.mp hstarts)

/-! ## Section 5: Whole sources -/

/-- What a scan ends with is the tokens that it has read, and layout. -/
theorem finish_tokens {tokens : List Token} (h : s.finish = .ok tokens) :
    ∃ added : List Token, (∀ token ∈ added, token.lexeme.isSpelled = false) ∧
      tokens = s.tokens.reverse ++ added := by
  unfold finish at h
  split at h
  case h_1 => cases h
  case h_2 =>
    have hdedents : ∀ (n : Nat) (p : Position),
        ∀ token ∈ List.replicate n (⟨.dedent, p⟩ : Token), token.lexeme.isSpelled = false := by
      intro n p token hmem
      rw [(List.mem_replicate.mp hmem).2]
      rfl
    dsimp only at h
    cases h
    split
    -- The last line has been ended, or else a newline token comes first.
    case isTrue =>
      refine ⟨List.replicate (s.levels.length - 1) ⟨.dedent, s.position⟩ ++
        [⟨.endMarker, s.position⟩], ?_, by simp⟩
      intro token hmem
      rcases List.mem_append.mp hmem with hmem | hmem
      · exact hdedents _ _ token hmem
      · rw [List.mem_singleton.mp hmem]
        rfl
    case isFalse =>
      refine ⟨⟨.newline, s.position⟩ :: (List.replicate (s.levels.length - 1)
        ⟨.dedent, s.position⟩ ++ [⟨.endMarker, s.position⟩]), ?_, by simp [emit]⟩
      intro token hmem
      rcases List.mem_cons.mp hmem with rfl | hmem
      · rfl
      rcases List.mem_append.mp hmem with hmem | hmem
      · exact hdedents _ _ token hmem
      · rw [List.mem_singleton.mp hmem]
        rfl

end Scan

/-- **Lossless tokens**: the spelled tokens of a source stand for spans
    of it that follow each other, and the gaps between them, before the
    first and behind the last hold nothing but separators. -/
theorem tokenize_lossless {source : Text} {tokens : List Token}
    (h : tokenize source = .ok tokens) :
    ∃ spans : List Span,
      List.Forall₂ (StandsFor source) (spelledTokens tokens) spans ∧
      InRow source.bodyStart source.length spans ∧
      ∀ gap ∈ gaps source.bodyStart source.length spans,
        Trivia source gap.start gap.stop := by
  unfold tokenize at h
  cases hrun : Scan.run source.length (.ofSource source) with
  | error e => simp [hrun, bind, Except.bind] at h
  | ok s =>
    simp only [hrun, bind, Except.bind] at h
    have hcovers : Scan.Covers source s :=
      Scan.run_induction (fun hs => hs.enterLine) (fun hs => hs.reads)
        (Scan.covers_ofSource source) hrun
    obtain ⟨offset, spans, hat, htiled⟩ := hcovers
    -- The run has used up the source, so the last gap ends where it does.
    have hend : offset = source.length := by
      have hfuel : (Scan.ofSource source).rest.length ≤ source.length := by
        have := (Scan.at_ofSource source).length_rest
        omega
      have hrest := congrArg List.length (Scan.run_rest hfuel hrun)
      have hlen := hat.length_rest
      have hle := hat.le
      simp only [List.length_nil] at hrest
      omega
    obtain ⟨added, hadded, rfl⟩ := Scan.finish_tokens h
    have hall := htiled.layout hadded
    rw [hend] at hall
    exact ⟨spans, hall.tokens, hall.row, hall.trivia⟩

/-- A byte order mark, a comment, a tab, an escaped line feed within a
    literal and a continuation: eight spelled tokens on three lines. -/
theorem spans_of_marked_source :
    ∃ tokens,
      tokenize (Scan.byteOrderMark ++ ascii "if x:  # c\n\ty = b'\\\n' \\\n  + 1\n") = .ok tokens ∧
      (spelledTokens tokens).map (·.position) =
        [⟨1, 1⟩, ⟨1, 4⟩, ⟨1, 5⟩, ⟨2, 2⟩, ⟨2, 4⟩, ⟨2, 6⟩, ⟨4, 3⟩, ⟨4, 5⟩] ∧
      ∃ spans : List Span,
        List.Forall₂ (StandsFor
          (Scan.byteOrderMark ++ ascii "if x:  # c\n\ty = b'\\\n' \\\n  + 1\n"))
          (spelledTokens tokens) spans ∧
        InRow 3 33 spans ∧
        ∀ gap ∈ gaps 3 33 spans, Trivia
          (Scan.byteOrderMark ++ ascii "if x:  # c\n\ty = b'\\\n' \\\n  + 1\n")
          gap.start gap.stop := by
  refine ⟨_, rfl, ?_, tokenize_lossless rfl⟩
  decide

end StyleCheck
