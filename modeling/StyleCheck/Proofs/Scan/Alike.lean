import Mathlib.Data.List.Forall2
import StyleCheck.Proofs.Scan.Outcome

/-! # Scans Apart in Position

    A scan copies its position into tokens, brackets and errors, and
    never looks at it.  So two scans that differ in their positions only
    have outcomes that differ in their positions only, and whatever
    relation the positions have had is the relation that they keep.

    * `Position.Moves`: the relations that reading a byte keeps.
    * `Scan.Alike`: two scans that are the same but for positions.  The
      tokens that both have read before may be left as they are.
    * `Alike.enterLine`, `Alike.piece`: what one round keeps.
    * `Alike.outcome`, `Alike.tokens_of_outcome`: what a run keeps.
-/

namespace StyleCheck

open Byte

/-! ## Section 1: What may differ -/

/-- Positions that are related stay related behind a byte. -/
def Position.Moves (R : Position → Position → Prop) : Prop :=
  ∀ {p q : Position} (b : UInt8), R p q → R (p.after b) (q.after b)

/-- So they do behind a text. -/
theorem Position.Moves.advance {R : Position → Position → Prop} (hR : Moves R) {p q : Position}
    (t : Text) (h : R p q) : R (p.advance t) (q.advance t) := by
  induction t generalizing p q with
  | nil => exact h
  | cons b t ih =>
    show R ((p.after b).advance t) ((q.after b).advance t)
    exact ih (hR b h)

/-- The same lexeme, at related positions. -/
structure Token.Alike (R : Position → Position → Prop) (t u : Token) : Prop where
  lexeme : t.lexeme = u.lexeme
  position : R t.position u.position

/-- The same bracket, opened at related positions. -/
structure OpenBracket.Alike (R : Position → Position → Prop) (x y : OpenBracket) : Prop where
  bracket : x.bracket = y.bracket
  position : R x.position y.position

/-- Both succeed, with values that are alike, or both are refused for the
    same fault, at related positions. -/
inductive Agree {α : Type} (R : Position → Position → Prop) (P : α → α → Prop) :
    Except SyntaxError α → Except SyntaxError α → Prop where
  | ok {a b : α} (h : P a b) : Agree R P (.ok a) (.ok b)
  | error {p q : Position} {fault : Fault} (h : R p q) :
      Agree R P (.error ⟨p, fault⟩) (.error ⟨q, fault⟩)

theorem Agree.bind {α β : Type} {R : Position → Position → Prop} {P : α → α → Prop}
    {Q : β → β → Prop} {x y : Except SyntaxError α} {f g : α → Except SyntaxError β}
    (h : Agree R P x y) (hfg : ∀ a b, P a b → Agree R Q (f a) (g b)) :
    Agree R Q (x.bind f) (y.bind g) := by
  cases h with
  | ok h => exact hfg _ _ h
  | error h => exact .error h

namespace Scan

/-- Tokens that are alike, in front of those that both had before. -/
def Newer (R : Position → Position → Prop) (older ts us : List Token) : Prop :=
  ∃ newer newer', ts = newer ++ older ∧ us = newer' ++ older ∧
    List.Forall₂ (Token.Alike R) newer newer'

/-- Scans that are the same but for their positions, and those of what
    they have read behind `older`. -/
structure Alike (R : Position → Position → Prop) (older : List Token) (s t : Scan) : Prop where
  rest : s.rest = t.rest
  position : R s.position t.position
  atLineStart : s.atLineStart = t.atLineStart
  levels : s.levels = t.levels
  brackets : List.Forall₂ (OpenBracket.Alike R) s.brackets t.brackets
  tokens : Newer R older s.tokens t.tokens

/-- The indentation of a line, by whether the line is over behind it. -/
theorem indentation_eq (s : Scan) :
    s.indentation =
      if isLineOver (s.skip s.blankCount).rest then .ok (s.skip s.blankCount)
      else settle { s.skip s.blankCount with atLineStart := false }
        (indentWidth (s.rest.takeWhile isBlank)) := by
  unfold indentation
  dsimp only
  split
  case h_1 hnil =>
    have hrest : (s.skip s.blankCount).rest = [] := hnil
    rw [hrest]
    rfl
  case h_2 b after hcons =>
    have hrest : (s.skip s.blankCount).rest = b :: after := hcons
    have hover : isLineOver (s.skip s.blankCount).rest = (b == hash || b == newline) := by
      rw [hrest]
      rfl
    rw [hover]
    simp [blankCount]

/-- Without open brackets, a scan can be ended. -/
theorem finish_of_closed {s : Scan} (h : s.brackets = []) :
    s.finish = .ok (s.endLine.tokens.reverse ++ s.lastTokens) := by
  unfold finish endLine lastTokens
  rw [h]
  dsimp only
  split <;> simp [emit]

/-! ## Section 2: Moves -/

variable {R : Position → Position → Prop} {older : List Token} {s t : Scan}

/-- Tokens may be put in front that are alike themselves. -/
theorem Newer.append {ts us added added' : List Token} (h : Newer R older ts us)
    (hadded : List.Forall₂ (Token.Alike R) added added') :
    Newer R older (added ++ ts) (added' ++ us) := by
  obtain ⟨newer, newer', rfl, rfl, hnewer⟩ := h
  exact ⟨added ++ newer, added' ++ newer', by simp, by simp, List.rel_append hadded hnewer⟩

/-- In the order of the source, the tokens that both had come first. -/
theorem Newer.forwards {ts us : List Token} (h : Newer R older ts.reverse us.reverse) :
    ∃ later later', ts = older.reverse ++ later ∧ us = older.reverse ++ later' ∧
      List.Forall₂ (Token.Alike R) later later' := by
  obtain ⟨newer, newer', hts, hus, hnewer⟩ := h
  refine ⟨newer.reverse, newer'.reverse, ?_, ?_, List.rel_reverse hnewer⟩
  · rw [← List.reverse_append, ← hts, List.reverse_reverse]
  · rw [← List.reverse_append, ← hus, List.reverse_reverse]

/-- As many tokens of a kind at each of two related positions. -/
theorem replicate_alike (n : Nat) (lexeme : Lexeme) {p q : Position} (h : R p q) :
    List.Forall₂ (Token.Alike R) (List.replicate n ⟨lexeme, p⟩) (List.replicate n ⟨lexeme, q⟩) := by
  induction n with
  | zero => exact .nil
  | succ n ih => exact .cons ⟨rfl, h⟩ ih

namespace Alike

theorem brackets_eq_nil_iff (h : Alike R older s t) : s.brackets = [] ↔ t.brackets = [] := by
  rw [← List.length_eq_zero_iff, ← List.length_eq_zero_iff, h.brackets.length_eq]

theorem emit (h : Alike R older s t) (lexeme : Lexeme) :
    Alike R older (s.emit lexeme) (t.emit lexeme) :=
  { h with tokens := h.tokens.append (replicate_alike 1 lexeme h.position) }

theorem startLine (h : Alike R older s t) (start : Bool) :
    Alike R older { s with atLineStart := start } { t with atLineStart := start } :=
  { h with atLineStart := rfl }

theorem fail (h : Alike R older s t) (fault : Fault) :
    Agree R (Alike R older) (s.fail fault) (t.fail fault) :=
  .error h.position

/-- Tokens of one kind are added, and the levels are changed, in both. -/
theorem relevel (h : Alike R older s t) (levels : List Nat) (n : Nat) (lexeme : Lexeme) :
    Alike R older
      { s with levels := levels, tokens := List.replicate n ⟨lexeme, s.position⟩ ++ s.tokens }
      { t with levels := levels, tokens := List.replicate n ⟨lexeme, t.position⟩ ++ t.tokens } :=
  { h with levels := rfl, tokens := h.tokens.append (replicate_alike n lexeme h.position) }

theorem settle (h : Alike R older s t) (column : Nat) :
    Agree R (Alike R older) (s.settle column) (t.settle column) := by
  have hlevel : s.level = t.level := by unfold level; rw [h.levels]
  unfold Scan.settle
  rw [← hlevel, ← h.levels]
  dsimp only
  by_cases hdeeper : s.level < column
  · rw [if_pos hdeeper, if_pos hdeeper]
    exact .ok (h.relevel (column :: s.levels) 1 .indent)
  · rw [if_neg hdeeper, if_neg hdeeper]
    have hclosed := h.relevel (s.levels.dropWhile (column < ·))
      (s.levels.takeWhile (column < ·)).length .dedent
    -- Both are settled at the same level, or neither is.
    by_cases hcolumn : (s.levels.dropWhile (column < ·)).headD 0 = column
    · rw [level, level, if_pos hcolumn, if_pos hcolumn]
      exact .ok hclosed
    · rw [level, level, if_neg hcolumn, if_neg hcolumn]
      exact hclosed.fail .inconsistentDedent

variable (hR : Position.Moves R)

include hR

theorem skip (h : Alike R older s t) (n : Nat) : Alike R older (s.skip n) (t.skip n) :=
  { h with
    rest := congrArg (List.drop n) h.rest
    position := by
      show R (s.position.advance (s.rest.take n)) (t.position.advance (t.rest.take n))
      rw [← h.rest]
      exact hR.advance _ h.position }

/-! ## Section 3: Rounds -/

theorem enterLine (h : Alike R older s t) :
    Agree R (Alike R older) s.enterLine t.enterLine := by
  have hopen : s.brackets.isEmpty = t.brackets.isEmpty := by
    rw [Bool.eq_iff_iff, List.isEmpty_iff, List.isEmpty_iff]
    exact h.brackets_eq_nil_iff
  unfold Scan.enterLine
  rw [← h.atLineStart, ← hopen]
  split
  case isFalse => exact .ok h
  case isTrue =>
    have hblanks : s.blankCount = t.blankCount := by
      unfold blankCount
      rw [h.rest]
    have hskipped := h.skip hR s.blankCount
    rw [indentation_eq, indentation_eq, ← hblanks, ← hskipped.rest, ← h.rest]
    -- What stands behind the blanks is the same.
    by_cases hover : isLineOver (s.skip s.blankCount).rest = true
    · rw [if_pos hover, if_pos hover]
      exact .ok hskipped
    · rw [if_neg hover, if_neg hover]
      exact (hskipped.startLine false).settle _

theorem lineFeed (h : Alike R older s t) : Alike R older s.lineFeed t.lineFeed := by
  unfold Scan.lineFeed
  rw [← h.atLineStart]
  by_cases hopen : s.brackets = []
  · rw [if_pos hopen, if_pos (h.brackets_eq_nil_iff.mp hopen)]
    refine startLine ?_ true
    split
    · exact h.skip hR 1
    · exact (h.emit .newline).skip hR 1
  · rw [if_neg hopen, if_neg fun hnil => hopen (h.brackets_eq_nil_iff.mpr hnil)]
    exact h.skip hR 1

theorem continuation (h : Alike R older s t) (after : Text) :
    Agree R (Alike R older) (s.continuation after) (t.continuation after) := by
  cases after with
  | nil => exact h.fail .endAfterBackslash
  | cons b rest =>
    unfold Scan.continuation
    dsimp only
    by_cases hb : b = newline
    · rw [if_pos hb, if_pos hb]
      exact .ok (h.skip hR 2)
    · rw [if_neg hb, if_neg hb]
      exact (h.skip hR 1).fail .strayBackslash

theorem number (h : Alike R older s t) : Alike R older s.number t.number := by
  unfold Scan.number
  dsimp only
  rw [← h.rest]
  exact (h.emit _).skip hR _

theorem string (h : Alike R older s t) (word : Text) :
    Agree R (Alike R older) (s.string word) (t.string word) := by
  unfold Scan.string
  rw [← h.rest]
  cases StringLiteral.length? word s.rest with
  | ok n => exact .ok ((h.emit _).skip hR n)
  | error literal => exact (h.skip hR literal.start).fail _

theorem word (h : Alike R older s t) : Agree R (Alike R older) s.word t.word := by
  unfold Scan.word
  dsimp only
  rw [← h.rest]
  generalize Bool.and _ _ = quoted
  cases quoted with
  | true => exact h.string hR _
  | false => exact .ok ((h.emit _).skip hR _)

omit hR in
theorem trackBrackets (h : Alike R older s t) (symbol : Symbol) :
    Agree R (Alike R older) (s.trackBrackets symbol) (t.trackBrackets symbol) := by
  unfold Scan.trackBrackets
  cases symbol with
  | opening bracket => exact .ok { h with brackets := .cons ⟨rfl, h.position⟩ h.brackets }
  | closing bracket =>
    have hbrackets := h.brackets
    dsimp only
    -- The innermost brackets are of one kind, if there are any.
    cases hs : s.brackets with
    | nil =>
      rw [hs] at hbrackets
      rw [List.forall₂_nil_left_iff.mp hbrackets]
      exact h.fail _
    | cons x xs =>
      rw [hs] at hbrackets
      obtain ⟨y, ys, hxy, hothers, ht⟩ := List.forall₂_cons_left_iff.mp hbrackets
      rw [ht]
      dsimp only
      rw [← hxy.bracket]
      by_cases hsame : x.bracket = bracket
      · rw [if_pos hsame, if_pos hsame]
        exact .ok { h with brackets := hothers }
      · rw [if_neg hsame, if_neg hsame]
        exact h.fail _
  | _ => exact .ok h

theorem symbol (h : Alike R older s t) (b : UInt8) :
    Agree R (Alike R older) (s.symbol b) (t.symbol b) := by
  unfold Scan.symbol
  rw [← h.rest]
  cases Symbol.leading? s.rest with
  | none => exact h.fail _
  | some symbol => exact (h.trackBrackets symbol).bind fun _ _ h' => .ok ((h'.emit _).skip hR _)

/-- Each kind of piece is read in both. -/
theorem piece (h : Alike R older s t) (b : UInt8) (after : Text) :
    Agree R (Alike R older) (s.piece b after) (t.piece b after) := by
  unfold Scan.piece
  rw [← h.rest]
  split
  · exact .ok (h.skip hR 1)
  split
  · exact .ok (h.skip hR _)
  split
  · exact .ok (h.lineFeed hR)
  split
  · exact h.continuation hR after
  split
  · exact h.word hR
  split
  · exact .ok (h.number hR)
  split
  · exact h.string hR []
  · exact h.symbol hR b

/-! ## Section 4: Runs -/

/-- By induction on the rounds that are left. -/
theorem run {fuel : Nat} : ∀ {s t : Scan}, Alike R older s t →
    Agree R (Alike R older) (Scan.run fuel s) (Scan.run fuel t) := by
  induction fuel with
  | zero => exact fun h => h.enterLine hR
  | succ fuel ih =>
    intro s t h
    refine (h.enterLine hR).bind fun entered entered' hentered => ?_
    rw [← hentered.rest]
    cases entered.rest with
    | nil => exact .ok hentered
    | cons b after => exact (hentered.piece hR b after).bind fun _ _ hnext => ih hnext

theorem outcome (h : Alike R older s t) :
    Agree R (Alike R older) (outcome .fresh s) (outcome .fresh t) := by
  show Agree R (Alike R older) (Scan.run s.rest.length s) (Scan.run t.rest.length t)
  rw [← h.rest]
  exact h.run hR

omit hR

theorem isLineEnded (h : Alike R older s t) : s.isLineEnded = t.isLineEnded := by
  obtain ⟨newer, newer', hs, ht, hnewer⟩ := h.tokens
  unfold Scan.isLineEnded
  rw [hs, ht]
  cases hnewer with
  | nil => rfl
  | cons hfirst _ => simp only [List.cons_append, hfirst.lexeme]

theorem endLine (h : Alike R older s t) : Alike R older s.endLine t.endLine := by
  unfold Scan.endLine
  rw [← h.isLineEnded]
  split
  · exact h
  · exact h.emit .newline

theorem lastTokens (h : Alike R older s t) :
    List.Forall₂ (Token.Alike R) s.lastTokens.reverse t.lastTokens.reverse := by
  unfold Scan.lastTokens
  rw [← h.levels]
  refine List.rel_reverse (List.rel_append ?_ (.cons ⟨rfl, h.position⟩ .nil))
  exact replicate_alike _ .dedent h.position

theorem finish (h : Alike R older s t) :
    Agree R (fun ts us => Newer R older ts.reverse us.reverse) s.finish t.finish := by
  have hbrackets := h.brackets
  cases hs : s.brackets with
  | cons x xs =>
    rw [hs] at hbrackets
    obtain ⟨y, ys, hxy, _, ht⟩ := List.forall₂_cons_left_iff.mp hbrackets
    unfold Scan.finish
    rw [hs, ht]
    dsimp only
    rw [← hxy.bracket]
    exact .error hxy.position
  | nil =>
    rw [finish_of_closed hs, finish_of_closed (h.brackets_eq_nil_iff.mp hs)]
    refine .ok ?_
    rw [List.reverse_append, List.reverse_append, List.reverse_reverse, List.reverse_reverse]
    exact h.endLine.tokens.append h.lastTokens

/-- **Positions do not matter**: two scans that are alike lead to the same
    tokens behind those that they had, or to the same fault. -/
theorem tokens_of_outcome (hR : Position.Moves R) (h : Alike R older s t) :
    Agree R (fun ts us => Newer R older ts.reverse us.reverse)
      ((Scan.outcome .fresh s).bind Scan.finish) ((Scan.outcome .fresh t).bind Scan.finish) :=
  (h.outcome hR).bind fun _ _ hlast => hlast.finish

end Alike

end Scan

end StyleCheck
