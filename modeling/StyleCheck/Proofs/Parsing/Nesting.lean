import Mathlib.Data.List.Nodup
import StyleCheck.Proofs.Parsing.Definitions
import StyleCheck.Proofs.Parsing.Knot
import StyleCheck.Proofs.Scan.Brackets
import StyleCheck.Proofs.Scan.Hollow
import StyleCheck.Proofs.Scan.Levels

/-! # Blocks between Levels

    An indent and the dedent that closes its level are read by one call of
    the parser, and the statements between them by calls one behind the
    other.

    * `Levelled`: tokens that close the levels that they open.
    * `Block`: the tokens and the statements between an indent and a dedent.
      `Block.IsRead` says which calls read them.
    * `Nesting`: the tokens between two places, with their blocks.
      `Nesting.covers` says that every token at the margin belongs to one of
      them, and `Nesting.apart` that it belongs to no other.
    * `LaidOut`: where the tokens of a source change levels.
-/

namespace StyleCheck

open StyleCheck.Parser
open Scan (isMargin)

/-! ## Section 1: Levels and blocks -/

/-- Tokens in which each level that is opened is closed again. -/
inductive Levelled : List Token → Prop where
  | nil : Levelled []
  | token {t : Token} {ts : List Token} (ht : isMargin t = false) (hbehind : Levelled ts) :
      Levelled (t :: ts)
  | block {p q : Position} {inside ts : List Token} (hinside : Levelled inside)
      (hbehind : Levelled ts) : Levelled (⟨.indent, p⟩ :: (inside ++ ⟨.dedent, q⟩ :: ts))

/-- Statements that are read one behind the other, where `reads` says what
    one call makes of a stream and what it leaves.  Each call takes a token
    at least. -/
inductive Sequence (reads : List Token → List Stmt → List Token → Prop) :
    List Token → List Stmt → List Token → Prop where
  | nothing (ts : List Token) : Sequence reads ts [] ts
  | more {ts mid rest : List Token} {stmts others : List Stmt} (hreads : reads ts stmts mid)
      (hmid : mid <:+ ts.tail) (hbehind : Sequence reads mid others rest) :
      Sequence reads ts (stmts ++ others) rest

/-- One call reads a statement, or a line of simple ones. -/
def ReadsStatement (ts : List Token) (stmts : List Stmt) (rest : List Token) : Prop :=
  statementGrammar.statement ts = .ok (stmts, rest)

/-- One call reads a case of a `match`. -/
def ReadsCase (ts : List Token) (stmts : List Stmt) (rest : List Token) : Prop :=
  (front ts).lexeme = .name SoftKeyword.case_ ∧
    ∃ stmt, stmts = [stmt] ∧ Grammar.matchCase statementGrammar ts = .ok (stmt, rest)

/-- What stands between an indent and a dedent. -/
structure Block where
  /-- The tokens behind the indent. -/
  inside : List Token
  /-- The tokens behind the dedent. -/
  behind : List Token
  stmts : List Stmt
  /-- The statements are the cases of a `match`. -/
  ofCases : Bool

namespace Block

/-- One call reads a block with its indent and its dedent, and leaves what
    is behind them: that of a suite, or that of a whole `match`.  The
    statements are those that it reads in between. -/
inductive IsRead (all : List Token) : Block → Prop where
  | suite {inside behind : List Token} {stmts : List Stmt} {p q r : Position}
      (hline : ⟨.newline, p⟩ :: ⟨.indent, q⟩ :: inside <:+ all)
      (hcall : Grammar.suite statementGrammar (⟨.newline, p⟩ :: ⟨.indent, q⟩ :: inside) =
        .ok (stmts, behind))
      (hstmts : Sequence ReadsStatement inside stmts (⟨.dedent, r⟩ :: behind)) :
      IsRead all ⟨inside, behind, stmts, false⟩
  | cases {head inside behind : List Token} {stmts : List Stmt} {line : Nat} {p q r : Position}
      (hline : head ++ ⟨.newline, p⟩ :: ⟨.indent, q⟩ :: inside <:+ all)
      (hcall : Grammar.matchBlock statementGrammar
        (head ++ ⟨.newline, p⟩ :: ⟨.indent, q⟩ :: inside) =
          .ok (.block line .matchBlock stmts, behind))
      (hstmts : Sequence ReadsCase inside stmts (⟨.dedent, r⟩ :: behind)) :
      IsRead all ⟨inside, behind, stmts, true⟩

/-- A block of a parse: its indent ends a line that has a colon at its end,
    its dedent is the one that closes the level, and one call reads it. -/
structure Delimits (all : List Token) (b : Block) : Prop where
  opening : ∃ p q r, ⟨.symbol .colon, p⟩ :: ⟨.newline, q⟩ :: ⟨.indent, r⟩ :: b.inside <:+ all
  closing : ∃ between p, b.inside = between ++ ⟨.dedent, p⟩ :: b.behind ∧ Levelled between
  read : b.IsRead all

end Block

/-- The tokens from `ts` up to `rest` close the levels that they open, each
    of them in one of the blocks. -/
inductive Nesting (all : List Token) : List Token → List Token → List Block → Prop where
  | nothing (ts : List Token) : Nesting all ts ts []
  | token {t : Token} {ts rest : List Token} {blocks : List Block} (ht : isMargin t = false)
      (hbehind : Nesting all ts rest blocks) : Nesting all (t :: ts) rest blocks
  | block {b : Block} {p q r s : Position} {rest : List Token} {inner others : List Block}
      (hread : b.IsRead all) (hinside : Nesting all b.inside (⟨.dedent, s⟩ :: b.behind) inner)
      (hbehind : Nesting all b.behind rest others) :
      Nesting all (⟨.symbol .colon, p⟩ :: ⟨.newline, q⟩ :: ⟨.indent, r⟩ :: b.inside) rest
        (b :: (inner ++ others))

variable {all ts us mid rest : List Token} {t : Token} {b : Block} {blocks others : List Block}
  {stmts : List Stmt}

/-! ## Section 2: Levels that are closed -/

namespace Levelled

/-- As many levels are closed as are opened. -/
theorem balance (h : Levelled ts) : indents ts = dedents ts := by
  induction h with
  | nil => rfl
  | @token t ts ht _ ih =>
    have hne : (t.lexeme == .indent) = false ∧ (t.lexeme == .dedent) = false := by
      simpa [isMargin] using ht
    simpa [indents, dedents, List.countP_cons, hne] using ih
  | block _ _ ihinside ih =>
    simp only [indents, dedents, List.countP_cons, List.countP_append] at ihinside ih ⊢
    simp
    omega

end Levelled

namespace Nesting

theorem trans (h : Nesting all ts mid blocks) (h' : Nesting all mid rest others) :
    Nesting all ts rest (blocks ++ others) := by
  induction h with
  | nothing => exact h'
  | token ht _ ih => exact .token ht (ih h')
  | @block b _ _ _ _ _ _ _ hread hinside _ _ ih =>
    rw [List.cons_append, List.append_assoc]
    exact .block hread hinside (ih h')

/-- What is between two places. -/
theorem exists_between (h : Nesting all ts rest blocks) :
    ∃ between, ts = between ++ rest ∧ Levelled between := by
  induction h with
  | nothing ts => exact ⟨[], rfl, .nil⟩
  | @token t _ _ _ ht _ ih =>
    obtain ⟨between, rfl, hbetween⟩ := ih
    exact ⟨t :: between, rfl, .token ht hbetween⟩
  | @block b p q r s rest _ _ _ _ _ ihinside ih =>
    obtain ⟨inside, hinside, hlevelled⟩ := ihinside
    obtain ⟨between, hbehind, hbetween⟩ := ih
    refine ⟨⟨.symbol .colon, p⟩ :: ⟨.newline, q⟩ :: ⟨.indent, r⟩ ::
      (inside ++ ⟨.dedent, s⟩ :: between), ?_, .token rfl (.token rfl (.block hlevelled hbetween))⟩
    rw [hinside, hbehind]
    simp

theorem suffix (h : Nesting all ts rest blocks) : rest <:+ ts := by
  obtain ⟨between, rfl, _⟩ := h.exists_between
  exact List.suffix_append between rest

/-- What is left opens as many levels that it does not close. -/
theorem balance (h : Nesting all ts rest blocks) :
    indents ts + dedents rest = indents rest + dedents ts := by
  obtain ⟨between, rfl, hlevelled⟩ := h.exists_between
  have hbalance := hlevelled.balance
  simp only [indents, dedents, List.countP_append] at hbalance ⊢
  omega

theorem of_not_margin (h : ∀ t ∈ ts, isMargin t = false) : Nesting all (ts ++ rest) rest [] := by
  induction ts with
  | nil => exact .nothing rest
  | cons t ts ih =>
    obtain ⟨ht, hts⟩ := List.forall_mem_cons.mp h
    exact .token ht (ih hts)

/-- A token at the front that is not at the margin. -/
theorem tail (h : isMargin (front ts) = false) : Nesting all ts ts.tail [] := by
  cases ts with
  | nil => exact .nothing []
  | cons t ts => exact .token h (.nothing ts)

/-! ## Section 3: The blocks of a nesting -/

theorem delimits (h : Nesting all ts rest blocks) (hts : ts <:+ all) :
    ∀ b ∈ blocks, b.Delimits all := by
  induction h with
  | nothing => simp
  | token _ _ ih => exact ih ((List.suffix_cons _ _).trans hts)
  | @block b p q r s rest inner others hread hinside _ ihinside ih =>
    obtain ⟨between, hbetween, hlevelled⟩ := hinside.exists_between
    have hopened : b.inside <:+ all := .trans ⟨[_, _, _], rfl⟩ hts
    have hclosed : b.behind <:+ b.inside := (List.suffix_cons _ _).trans hinside.suffix
    simp only [List.forall_mem_cons, List.forall_mem_append]
    exact ⟨⟨⟨p, q, r, hts⟩, ⟨between, s, hbetween, hlevelled⟩, hread⟩, ihinside hopened,
      ih (hclosed.trans hopened)⟩

/-- Every token at the margin opens or closes a block. -/
theorem covers (h : Nesting all ts rest blocks) (hmargin : isMargin t = true)
    (hsuffix : t :: us <:+ ts) (hrest : ¬ t :: us <:+ rest) :
    ∃ b ∈ blocks, t.lexeme = .indent ∧ b.inside = us ∨ t.lexeme = .dedent ∧ b.behind = us := by
  -- The token is none of the others in front.
  have hskip : ∀ {other : Token} {ts : List Token}, isMargin other = false →
      t :: us <:+ other :: ts → t :: us <:+ ts := by
    intro other ts hother hsuffix
    rcases List.suffix_cons_iff.mp hsuffix with heq | hsuffix
    · obtain ⟨rfl, _⟩ := List.cons.inj heq
      rw [hmargin] at hother
      cases hother
    · exact hsuffix
  induction h with
  | nothing => exact absurd hsuffix hrest
  | token ht _ ih => exact ih (hskip ht hsuffix) hrest
  | @block b p q r s rest inner others _ _ _ ihinside ih =>
    have hopening := hskip rfl (hskip rfl hsuffix)
    rcases List.suffix_cons_iff.mp hopening with heq | hinside
    · obtain ⟨rfl, rfl⟩ := List.cons.inj heq
      exact ⟨b, List.mem_cons_self, .inl ⟨rfl, rfl⟩⟩
    by_cases hclosing : t :: us <:+ ⟨.dedent, s⟩ :: b.behind
    · rcases List.suffix_cons_iff.mp hclosing with heq | hbehind
      · obtain ⟨rfl, rfl⟩ := List.cons.inj heq
        exact ⟨b, List.mem_cons_self, .inr ⟨rfl, rfl⟩⟩
      · obtain ⟨other, hmem, hother⟩ := ih hbehind hrest
        exact ⟨other, List.mem_cons_of_mem _ (List.mem_append_right _ hmem), hother⟩
    · obtain ⟨other, hmem, hother⟩ := ihinside hinside hclosing
      exact ⟨other, List.mem_cons_of_mem _ (List.mem_append_left _ hmem), hother⟩

/-- Where the blocks are, by the tokens behind them. -/
theorem bounds (h : Nesting all ts rest blocks) : ∀ b ∈ blocks,
    b.inside.length < ts.length ∧ b.behind.length < b.inside.length ∧
      rest.length ≤ b.behind.length := by
  induction h with
  | nothing => simp
  | token _ _ ih =>
    intro b hmem
    obtain ⟨hinside, hrest⟩ := ih b hmem
    exact ⟨Nat.lt_succ_of_lt hinside, hrest⟩
  | @block b _ _ _ s rest inner others _ hinside hbehind ihinside ih =>
    have hinner := hinside.suffix.length_le
    have houter := hbehind.suffix.length_le
    simp only [List.length_cons] at hinner ihinside ⊢
    intro c hmem
    rcases List.mem_cons.mp hmem with rfl | hmem
    · omega
    rcases List.mem_append.mp hmem with hmem | hmem
    · obtain ⟨hc, hc', hc''⟩ := ihinside c hmem
      omega
    · obtain ⟨hc, hc', hc''⟩ := ih c hmem
      omega

/-- No two blocks share an indent or a dedent. -/
theorem apart (h : Nesting all ts rest blocks) : blocks.Pairwise fun b c =>
    b.inside.length ≠ c.inside.length ∧ b.behind.length ≠ c.behind.length := by
  induction h with
  | nothing => exact .nil
  | token _ _ ih => exact ih
  | @block b _ _ _ s rest inner others _ hinside hbehind ihinside ih =>
    have hinner := hinside.bounds
    have houter := hbehind.bounds
    have hwithin := hinside.suffix.length_le
    simp only [List.length_cons] at hinner hwithin
    rw [List.pairwise_cons, List.pairwise_append]
    refine ⟨fun c hmem => ?_, ihinside, ih, fun c hc d hd => ?_⟩
    · rcases List.mem_append.mp hmem with hmem | hmem
      · obtain ⟨hc, hc', hc''⟩ := hinner c hmem
        omega
      · obtain ⟨hc, hc', hc''⟩ := houter c hmem
        omega
    · obtain ⟨hc, hc', hc''⟩ := hinner c hc
      obtain ⟨hd, hd', hd''⟩ := houter d hd
      omega

/-- A block is the only one with its indent. -/
theorem eq_of_inside (h : Nesting all ts rest blocks) {b c : Block} (hb : b ∈ blocks)
    (hc : c ∈ blocks) (hsame : b.inside = c.inside) : b = c := by
  have hnodup : (blocks.map (·.inside)).Nodup :=
    List.pairwise_map.mpr (h.apart.imp fun hne heq => hne.1 (congrArg List.length heq))
  exact List.inj_on_of_nodup_map hnodup hb hc hsame

/-- A block is the only one with its dedent. -/
theorem eq_of_behind (h : Nesting all ts rest blocks) {b c : Block} (hb : b ∈ blocks)
    (hc : c ∈ blocks) (hsame : b.behind = c.behind) : b = c := by
  have hnodup : (blocks.map (·.behind)).Nodup :=
    List.pairwise_map.mpr (h.apart.imp fun hne heq => hne.2 (congrArg List.length heq))
  exact List.inj_on_of_nodup_map hnodup hb hc hsame

end Nesting

theorem Parser.Spans.nesting (h : Spans ts rest) : Nesting all ts rest [] := by
  induction h with
  | nothing ts => exact .nothing ts
  | @token t _ _ hfits _ ih =>
    refine .token ?_ ih
    obtain ⟨lexeme, p⟩ := t
    cases lexeme <;> first | rfl | cases hfits
  | group _ _ ihinner ih => exact .token rfl (ihinner.trans (.token rfl ih))

/-! ## Section 4: The levels of a source -/

/-- Tokens that close all the levels that they open, and where: at the start
    of a logical line, and outside of brackets.  The end marker is the last
    of them. -/
structure LaidOut (all : List Token) : Prop where
  balanced : indents all = dedents all
  fresh {t : Token} {ts : List Token} (hts : t :: ts <:+ all) (ht : isMargin t = true) :
    Fresh all (t :: ts)
  outside : LayoutOutside all
  last {t : Token} {ts : List Token} (hts : t :: ts <:+ all) (ht : t.lexeme = .endMarker) : ts = []

namespace Scan

variable {source : Text} {stage : Stage} {s : Scan} {tokens : List Token}

/-- Tokens, the newest of them first, that change levels only where a
    logical line may start. -/
def MarginsAtStart (tokens : List Token) : Prop :=
  ∀ newer t older, tokens = newer ++ t :: older → isMargin t = true → NoneSpelled older

theorem MarginsAtStart.cons (h : MarginsAtStart tokens)
    (ht : isMargin t = true → NoneSpelled tokens) : MarginsAtStart (t :: tokens) := by
  intro newer other older htokens hmargin
  cases newer with
  | nil =>
    obtain ⟨rfl, rfl⟩ := List.cons.inj htokens
    exact ht hmargin
  | cons newest newer => exact h newer other older (List.cons.inj htokens).2 hmargin

theorem MarginsAtStart.append {margin : List Token} (h : MarginsAtStart tokens)
    (hnone : NoneSpelled tokens) (hmargin : ∀ t ∈ margin, isMargin t = true) :
    MarginsAtStart (margin ++ tokens) := by
  induction margin with
  | nil => exact h
  | cons t margin ih =>
    obtain ⟨_, hothers⟩ := List.forall_mem_cons.mp hmargin
    exact (ih hothers).cons fun _ => hnone.margin_append hothers

theorem Visits.marginsAtStart (h : Visits source stage s) : MarginsAtStart s.tokens := by
  induction h with
  | start =>
    intro newer t older htokens
    simp [ofSource] at htokens
  | @enter s s' hvisit henter ih =>
    rcases enterLine_cases henter with ⟨rfl, _⟩ | ⟨hstart, _⟩
    · exact ih
    · obtain ⟨margin, hmargin, hadded⟩ := enterLine_tokens henter
      rw [hadded]
      exact ih.append (hvisit.atStart hstart).tokens hmargin
  | piece hvisit hrest hpiece ih =>
    rcases (hvisit.turns hrest hpiece).tokens with hsame | ⟨added, hadded, _, htokens⟩
    · rwa [hsame]
    · rw [htokens]
      refine ih.cons fun hmargin => ?_
      rw [hadded] at hmargin
      cases hmargin

/-- At the end the last line is ended first. -/
theorem marginsAtStart_of_tokenize (h : tokenize source = .ok tokens) :
    MarginsAtStart tokens.reverse := by
  obtain ⟨s, hvisit, _, hfinish⟩ := tokenize_eq_ok h
  have hended : MarginsAtStart s.endLine.tokens ∧ NoneSpelled s.endLine.tokens := by
    have hvisited := hvisit.marginsAtStart
    unfold endLine
    split
    case isTrue hline => exact ⟨hvisited, hvisit.isLineEnded_iff.mp hline⟩
    case isFalse => exact ⟨hvisited.cons (fun hmargin => by cases hmargin), .cons rfl⟩
  rw [(finish_eq_ok hfinish).2, List.reverse_append, List.reverse_reverse, lastTokens,
    List.reverse_append, List.reverse_singleton, List.append_assoc, List.reverse_replicate]
  refine MarginsAtStart.cons (hended.1.append hended.2 fun t hmem => ?_) fun hmargin => by
    cases hmargin
  rw [(List.mem_replicate.mp hmem).2]
  rfl

/-- At the end all levels are closed. -/
theorem balanced_of_tokenize (h : tokenize source = .ok tokens) :
    indents tokens = dedents tokens := by
  obtain ⟨s, hvisit, hrest, hfinish⟩ := tokenize_eq_ok h
  have hends : EndsSource source s := ⟨hvisit, hrest, (finish_eq_ok hfinish).1⟩
  obtain ⟨t, hunwinds, hlength, rfl⟩ := hends.finish hfinish
  have hbalance : t.levels.length + dedents (t.emit .endMarker).tokens =
      indents (t.emit .endMarker).tokens + 1 :=
    (Point.marked hends hunwinds (by unfold anyOpen; omega)).disciplined.balance
  rw [(balance_reverse _).1, (balance_reverse _).2]
  omega

theorem laidOut_of_tokenize (h : tokenize source = .ok tokens) : LaidOut tokens := by
  obtain ⟨s, hvisit, _, hfinish⟩ := tokenize_eq_ok h
  refine ⟨balanced_of_tokenize h, ?_, (hvisit.tracksBrackets.finish hfinish).2, ?_⟩
  · rintro t ts ⟨before, rfl⟩ ht
    refine ⟨before, rfl, marginsAtStart_of_tokenize h ts.reverse t before.reverse ?_ ht⟩
    simp
  · intro t ts hts hend
    obtain ⟨inner, p, rfl, hne⟩ := eq_concat_endMarker h
    rcases List.suffix_concat_iff.mp hts with heq | ⟨us, heq, hus⟩
    · cases heq
    cases us with
    | nil => exact (List.cons.inj heq).2
    | cons other us =>
      obtain ⟨rfl, _⟩ := List.cons.inj heq
      exact absurd hend (hne _ (hus.subset List.mem_cons_self))

end Scan

/-- Where a logical line may start, no spelled token is in front. -/
theorem Fresh.not_spelled (h : Fresh all ts) (hsuffix : t :: ts <:+ all) :
    t.lexeme.isSpelled = false := by
  obtain ⟨before, rfl, hnone⟩ := h
  obtain ⟨front, hfront⟩ := hsuffix
  rw [← List.append_cancel_right (by simpa using hfront : (front ++ [t]) ++ ts = before ++ ts)]
    at hnone
  exact hnone t (by simp)

/-- The bracket in front of what is read stays open up to the one that
    closes it. -/
theorem IsBracketed.exists_open {more : List Token} {p : Position}
    {outer after : List OpenBracket} : ∀ {depth : Nat} {ts : List Token} {inner : List OpenBracket},
      IsBracketed depth (ts ++ more) → inner.countP (·.bracket = .square) = depth →
      openAfter (inner ++ ⟨.square, p⟩ :: outer) ts = some after →
      ∃ left, after = left ++ ⟨.square, p⟩ :: outer := by
  intro depth ts
  induction ts generalizing depth with
  | nil =>
    intro inner _ _ hafter
    exact ⟨inner, (Option.some.inj hafter).symm⟩
  | cons t ts ih =>
    intro inner h hdepth hafter
    rw [openAfter_cons] at hafter
    obtain ⟨between, hbetween, hbehind⟩ := Option.bind_eq_some_iff.mp hafter
    unfold openBehind at hbetween
    cases h with
    | opening hopening h =>
      rw [hopening] at hbetween
      cases hbetween
      refine @ih _ (_ :: inner) h ?_ hbehind
      rw [List.countP_cons_of_pos (by simp), hdepth]
    | closing hclosing h =>
      rw [hclosing] at hbetween
      cases inner with
      | nil => cases hdepth
      | cons innermost inner =>
        simp only [List.cons_append, Option.ite_none_right_eq_some, Option.some.injEq] at hbetween
        obtain ⟨hsquare, rfl⟩ := hbetween
        rw [List.countP_cons_of_pos (by simpa using hsquare)] at hdepth
        exact ih h (Nat.succ.inj hdepth) hbehind
    | other hopening hclosing h =>
      split at hbetween
      case h_1 bracket hlexeme =>
        cases hbetween
        refine @ih _ (_ :: inner) h ?_ hbehind
        rw [List.countP_cons_of_neg, hdepth]
        rintro hsquare
        exact hopening (hlexeme.trans (by simpa using hsquare))
      case h_2 bracket hlexeme =>
        have hkind : bracket ≠ .square := by
          rintro rfl
          exact hclosing hlexeme
        cases inner with
        | nil =>
          simp only [List.nil_append, Option.ite_none_right_eq_some] at hbetween
          exact absurd hbetween.1.symm hkind
        | cons innermost inner =>
          simp only [List.cons_append, Option.ite_none_right_eq_some, Option.some.injEq]
            at hbetween
          obtain ⟨rfl, rfl⟩ := hbetween
          rw [List.countP_cons_of_neg (by simpa using hkind)] at hdepth
          exact ih h hdepth hbehind
      case h_3 =>
        cases hbetween
        exact ih h hdepth hbehind

namespace LaidOut

/-- A pattern is on one line, so that no level changes in it. -/
theorem pattern (h : LaidOut all) {pattern : List Token} {depth : Int}
    (hpattern : IsPattern depth pattern) : ∀ {t : Token}, t :: (pattern ++ rest) <:+ all →
      t.lexeme.isSpelled = true → ∀ u ∈ pattern, isMargin u = false := by
  induction hpattern with
  | nil => simp
  | @cons depth u us hline hend _ _ ih =>
    intro t hsuffix ht
    have hbehind : u :: (us ++ rest) <:+ all := (List.suffix_cons t _).trans hsuffix
    have hu : isMargin u = false := by
      rw [Bool.eq_false_iff]
      intro hmargin
      have hnot := (h.fresh hbehind hmargin).not_spelled hsuffix
      rw [ht] at hnot
      cases hnot
    refine List.forall_mem_cons.mpr ⟨hu, ih hbehind ?_⟩
    obtain ⟨lexeme, p⟩ := u
    cases lexeme <;> simp_all [isMargin, Lexeme.isSpelled]

/-- No level changes between square brackets either. -/
theorem bracketed (h : LaidOut all) {inner : List Token} {p : Position}
    (hsuffix : ⟨.symbol (.opening .square), p⟩ :: (inner ++ rest) <:+ all)
    (hinner : IsBracketed 0 inner) : ∀ t ∈ inner, isMargin t = false := by
  intro t hmem
  rw [Bool.eq_false_iff]
  intro hmargin
  have hlayout : t.lexeme.isLayout = true := by
    obtain ⟨lexeme, q⟩ := t
    cases lexeme <;> first | rfl | cases hmargin
  obtain ⟨before, hbefore⟩ := hsuffix
  obtain ⟨ts, more, rfl⟩ := List.append_of_mem hmem
  have houtside : openAfter [] (before ++ ⟨.symbol (.opening .square), p⟩ :: ts) = some [] :=
    h.outside _ t (more ++ rest) (by rw [← hbefore]; simp) hlayout
  rw [openAfter_append] at houtside
  obtain ⟨outer, _, hopened⟩ := Option.bind_eq_some_iff.mp houtside
  obtain ⟨left, hleft⟩ := @IsBracketed.exists_open _ p outer _ _ ts [] hinner rfl hopened
  simp at hleft

end LaidOut

end StyleCheck
