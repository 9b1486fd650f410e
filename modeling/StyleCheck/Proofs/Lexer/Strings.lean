import StyleCheck.Proofs.Lexer.Behind
import StyleCheck.Proofs.Scan.Fields
import StyleCheck.Proofs.Scan.Insertion

/-! # Bytes and String Literals of a Lexer

    `Lexer.scan` is the scan that a lexer stands for: the bytes that are
    left, and the position that the two offsets come to.  All that a
    lexer does to its cursor is to read over bytes, `Lexer.past`, and
    there lexer and scan agree.

    A lexer reads the literals inside of a formatted literal by calls of
    the same function, and where such a call starts it looks at the byte
    behind it.  A scan keeps the literals that are open in a list.

    * `scan_past`: reading over bytes.
    * `skipStringBody_succ`: one piece of the body of a literal.
    * `skipStringBody_ends`: the whole body, with all that is in it.
    * `scan_string`: a string literal.
-/

namespace StyleCheck

open Byte

/-- At the end there is nothing to read over. -/
theorem Scan.skip_of_nil {s : Scan} (hrest : s.rest = []) (n : Nat) : s.skip n = s := by
  obtain ⟨rest, position, atLineStart, levels, brackets, tokens⟩ := s
  obtain rfl : rest = [] := hrest
  simp [skip, Position.advance]

namespace Lexer

/-- The scan that a lexer stands for. -/
def scan (source : Text) (l : Lexer) : Scan where
  rest := source.drop l.pos
  position := l.place l.pos
  atLineStart := l.atLineStart
  levels := l.levels
  brackets := l.brackets
  tokens := l.tokens

/-- Reads over `n` bytes, as far as there are any. -/
def past (source : Text) : (n : Nat) → Lexer → Lexer
  | 0, l => l
  | n + 1, l =>
    match source[l.pos]? with
    | none => l
    | some b => past source n (if b = newline then (l.move 1).startLine else l.move 1)

/-! ## Section 1: Reading over bytes -/

section Cursor

variable {source after : Text} {l : Lexer} {b : UInt8} {n : Nat}

theorem left_eq (source : Text) (l : Lexer) : l.left source = (l.scan source).rest.length :=
  List.length_drop.symm

theorem atEnd_iff : l.atEnd source = true ↔ source.drop l.pos = [] := by
  unfold atEnd
  rw [decide_eq_true_iff, List.drop_eq_nil_iff]

theorem getElem?_pos (source : Text) (l : Lexer) (ahead : Nat) :
    source[l.pos + ahead]? = (source.drop l.pos)[ahead]? :=
  List.getElem?_drop.symm

/-- The next bytes are those that are left. -/
theorem peek_eq (source : Text) (l : Lexer) (ahead : Nat) :
    l.peek source ahead = (source.drop l.pos)[ahead]?.getD 0 := by
  unfold peek
  rw [getElem?_pos]

theorem getElem?_of_drop (hrest : source.drop l.pos = b :: after) : source[l.pos]? = some b := by
  have hbyte := getElem?_pos source l 0
  rw [hrest] at hbyte
  exact hbyte

theorem atEnd_of_cons (hrest : source.drop l.pos = b :: after) : l.atEnd source = false := by
  rw [← Bool.not_eq_true, atEnd_iff, hrest]
  exact List.cons_ne_nil _ _

theorem peek_of_cons (hrest : source.drop l.pos = b :: after) : l.peek source 0 = b := by
  rw [peek_eq, hrest]
  rfl

theorem left_of_cons (hrest : source.drop l.pos = b :: after) :
    l.left source = after.length + 1 := by
  rw [left_eq, show (l.scan source).rest = _ from hrest]
  rfl

theorem past_succ (hrest : source.drop l.pos = b :: after) (n : Nat) :
    l.past source (n + 1) =
      (if b = newline then (l.move 1).startLine else l.move 1).past source n := by
  simp only [past, getElem?_of_drop hrest]

theorem past_of_nil (hrest : source.drop l.pos = []) (n : Nat) : l.past source n = l := by
  have hnone : source[l.pos]? = none := by
    have hbyte := getElem?_pos source l 0
    rw [hrest] at hbyte
    exact hbyte
  cases n with
  | zero => rfl
  | succ n => simp only [past, hnone]

theorem past_past (m n : Nat) : (l.past source m).past source n = l.past source (m + n) := by
  induction m generalizing l with
  | zero => rw [Nat.zero_add]; rfl
  | succ m ih =>
    cases hrest : source.drop l.pos with
    | nil => rw [past_of_nil hrest, past_of_nil hrest, past_of_nil hrest]
    | cons b after => rw [Nat.succ_add, past_succ hrest, past_succ hrest, ih]

/-- One byte is read over alike. -/
theorem scan_past_one (hrest : source.drop l.pos = b :: after) :
    (if b = newline then (l.move 1).startLine else l.move 1).scan source =
      (l.scan source).skip 1 := by
  have hdrop : source.drop (l.pos + 1) = (source.drop l.pos).drop 1 := List.drop_drop.symm
  have hinLine := l.inLine
  have hcolumn : l.pos + 1 - l.lineStart + 1 = l.pos - l.lineStart + 1 + 1 := by omega
  unfold scan Scan.skip
  rw [hrest]
  split
  case isTrue hb =>
    simp [startLine, move, place, hdrop, hrest, Position.advance, Position.after, hb]
  case isFalse hb =>
    simp [move, place, hdrop, hrest, Position.advance, Position.after, hb, hcolumn]

/-- **Reading over bytes** is the same for the lexer and its scan. -/
theorem scan_past (n : Nat) : (l.past source n).scan source = (l.scan source).skip n := by
  induction n generalizing l with
  | zero => rfl
  | succ n ih =>
    cases hrest : source.drop l.pos with
    | nil =>
      rw [past_of_nil hrest]
      exact (Scan.skip_of_nil hrest _).symm
    | cons b after =>
      rw [past_succ hrest, ih, scan_past_one hrest, Scan.skip_skip, Nat.add_comm]

theorem drop_past (n : Nat) : source.drop (l.past source n).pos = (source.drop l.pos).drop n :=
  congrArg Scan.rest (scan_past n)

theorem left_past (n : Nat) : (l.past source n).left source = l.left source - n := by
  rw [left_eq, left_eq, scan_past]
  exact List.length_drop

theorem pos_past (hn : n ≤ l.left source) : (l.past source n).pos = l.pos + n := by
  induction n generalizing l with
  | zero => rfl
  | succ n ih =>
    cases hrest : source.drop l.pos with
    | nil =>
      have hleft := l.left_eq source
      rw [show (l.scan source).rest = [] from hrest] at hleft
      rw [hleft] at hn
      cases hn
    | cons b after =>
      have hnext := left_eq source (if b = newline then (l.move 1).startLine else l.move 1)
      rw [scan_past_one hrest] at hnext
      have hleft := l.left_eq source
      have hskip : ((l.scan source).skip 1).rest.length = (l.scan source).rest.length - 1 :=
        List.length_drop
      rw [past_succ hrest, ih (by omega), Nat.add_comm n 1, ← Nat.add_assoc]
      split <;> rfl

/-- Bytes of the line are moved over. -/
theorem move_eq_past (hn : n ≤ l.left source) (hline : newline ∉ (source.drop l.pos).take n) :
    l.move n = l.past source n := by
  induction n generalizing l with
  | zero => rfl
  | succ n ih =>
    cases hrest : source.drop l.pos with
    | nil =>
      have hleft := l.left_eq source
      rw [show (l.scan source).rest = [] from hrest] at hleft
      rw [hleft] at hn
      cases hn
    | cons b after =>
      rw [hrest, List.take_succ_cons, List.mem_cons, not_or] at hline
      have hdrop : source.drop (l.move 1).pos = after := by
        show source.drop (l.pos + 1) = after
        rw [← List.drop_drop, hrest]
        rfl
      have hmove : l.move (n + 1) = (l.move 1).move n := by
        simp [move, Nat.add_comm n, Nat.add_assoc]
      have hleft : n ≤ (l.move 1).left source := by
        unfold left at hn ⊢
        show n ≤ source.length - (l.pos + 1)
        omega
      rw [past_succ hrest, if_neg (Ne.symm hline.1), hmove]
      exact ih hleft (hdrop ▸ hline.2)

theorem follows_past_one (hrest : source.drop l.pos = b :: after) (letter : UInt8) :
    (l.past source 1).follows source letter = (toLower b == letter) := by
  have hbyte := getElem?_of_drop hrest
  have hpos : (l.past source 1).pos = l.pos + 1 := by
    rw [past_succ hrest]
    split <;> rfl
  unfold follows
  rw [hpos, Nat.add_sub_cancel, hbyte]
  simp

/-- Behind the cursor stands the last byte that has been read. -/
theorem follows_past (hrest : source.drop l.pos = b :: after) (n : Nat) (letter : UInt8) :
    (l.past source (n + 1)).follows source letter =
      (toLower ((b :: after.take n).getLastD 0) == letter) := by
  induction n generalizing l b after with
  | zero => exact follows_past_one hrest letter
  | succ n ih =>
    have hnext : source.drop (l.past source 1).pos = after := by
      rw [drop_past, hrest]
      rfl
    rw [Nat.add_comm (n + 1), ← past_past]
    cases after with
    | nil =>
      rw [past_of_nil hnext]
      exact follows_past_one hrest letter
    | cons c after =>
      rw [ih hnext]
      rfl

/-! Single moves, as a lexer makes them. -/

theorem startLine_eq_past (hrest : source.drop l.pos = newline :: after) :
    (l.move 1).startLine = l.past source 1 := by
  rw [past_succ hrest, if_pos rfl]
  rfl

theorem move_one (hrest : source.drop l.pos = b :: after) (hb : b ≠ newline) :
    l.move 1 = l.past source 1 := by
  rw [past_succ hrest, if_neg hb]
  rfl

theorem move_two {c : UInt8} (hrest : source.drop l.pos = b :: c :: after) (hb : b ≠ newline) :
    (if c = newline then (l.move 2).startLine else l.move 2) = l.past source 2 := by
  have hnext : source.drop (l.move 1).pos = c :: after := by
    show source.drop (l.pos + 1) = _
    rw [← List.drop_drop, hrest]
    rfl
  rw [past_succ hrest, if_neg hb, past_succ hnext]
  rfl

/-- The quotes of a literal are moved over. -/
theorem move_quotes (hrest : source.drop l.pos = b :: after) (hb : b ≠ newline) (triple : Bool)
    (htriple : triple = true → StringLiteral.isTriple b after = true) :
    l.move (StringLiteral.quoteCount triple) = l.past source (StringLiteral.quoteCount triple) := by
  cases triple with
  | false => exact move_one hrest hb
  | true =>
    obtain ⟨rest, hafter⟩ := List.isPrefixOf_iff_prefix.mp (htriple rfl)
    have hthree : source.drop l.pos = [b, b, b] ++ rest := by
      rw [hrest, ← hafter]
      rfl
    refine move_eq_past ?_ ?_
    · rw [left_eq, show (l.scan source).rest = _ from hthree]
      simp [StringLiteral.quoteCount]
    · rw [hthree]
      simp [StringLiteral.quoteCount, Ne.symm hb]

end Cursor

/-! ## Section 2: String literals -/

section Strings

variable {source after : Text} {l : Lexer} {b quote : UInt8} {triple formatted : Bool}
  {start : Position} {depth fuel : Nat}

/-- What comes next is seen by the byte there, which is no zero. -/
theorem getD_eq_iff {c : UInt8} (hc : c ≠ 0) (t : Text) : t[0]?.getD 0 = c ↔ t.head? = some c := by
  cases t with
  | nil => simp [Ne.symm hc]
  | cons b t => simp

/-- Whether two quotes follow is seen by two bytes, or in the rest. -/
theorem isTriple_eq (hb : b ≠ 0) (after : Text) :
    (after[0]?.getD 0 == b && after[1]?.getD 0 == b) = StringLiteral.isTriple b after := by
  match after with
  | [] => simp [StringLiteral.isTriple, Ne.symm hb]
  | [c] => simp [StringLiteral.isTriple, List.isPrefixOf, Ne.symm hb]
  | c :: d :: rest =>
    simp only [StringLiteral.isTriple, List.isPrefixOf, Bool.and_true]
    rw [Bool.beq_comm (a := b), Bool.beq_comm (a := b)]
    rfl

/-- A backslash hides the byte behind it, of which there may be none. -/
theorem move_hidden (hrest : source.drop l.pos = b :: after) (hb : b ≠ newline)
    (hafter : after.head? ≠ some newline) :
    l.move (if l.pos + 1 < source.length then 2 else 1) = l.past source 2 := by
  have hleft := left_of_cons hrest
  unfold left at hleft
  cases after with
  | nil =>
    have hnil : source.drop (l.past source 1).pos = [] := by
      rw [drop_past, hrest]
      rfl
    rw [if_neg (by simp at hleft; omega), move_one hrest hb, ← past_past 1 1, past_of_nil hnil]
  | cons c rest =>
    have hc : c ≠ newline := fun hc => hafter (congrArg some hc)
    rw [if_pos (by simp at hleft; omega), ← move_two hrest hb, if_neg hc]

/-- Two bytes of the line. -/
theorem move_doubled {c : UInt8} (hrest : source.drop l.pos = b :: after) (hb : b ≠ newline)
    (hc : c ≠ newline) (hafter : after.head? = some c) : l.move 2 = l.past source 2 := by
  obtain ⟨rest, rfl⟩ := List.head?_eq_some_iff.mp hafter
  rw [← move_two hrest hb, if_neg hc]

open StringLiteral in
/-- A round of the body of a literal reads a piece of it. -/
theorem skipStringBody_succ (hrest : source.drop l.pos = b :: after) (hquote : quote ≠ 0)
    (reported : Nat) :
    l.skipStringBody source (fuel + 1) quote triple formatted start depth =
      match Unclosed.piece ⟨quote, triple, formatted, depth, reported⟩ b after with
      | .content n =>
        (l.past source n).skipStringBody source fuel quote triple formatted start depth
      | .openField =>
        (l.past source 1).skipStringBody source fuel quote triple formatted start (depth + 1)
      | .closeField =>
        (l.past source 1).skipStringBody source fuel quote triple formatted start (depth - 1)
      | .nested inner innerTriple =>
        (l.past source (quoteCount innerTriple)).skipStringBody source fuel inner innerTriple
            (l.follows source 0x66) (l.place l.pos) 0 >>=
          skipStringBody source fuel quote triple formatted start depth
      | .closing => .ok (l.past source (quoteCount triple))
      | .lineEnd => .error (.error ⟨start, .unterminatedString triple⟩) := by
  have hfirst : l.peek source 1 = after[0]?.getD 0 := by
    rw [peek_eq, hrest]
    rfl
  have hsecond : l.peek source 2 = after[1]?.getD 0 := by
    rw [peek_eq, hrest]
    rfl
  have hfeed := getD_eq_iff (c := newline) (by decide) after
  have hopener := getD_eq_iff (c := leftBrace) (by decide) after
  have hcloser := getD_eq_iff (c := rightBrace) (by decide) after
  simp only [skipStringBody, atEnd_of_cons hrest, peek_of_cons hrest, hfirst, hsecond, hfeed,
    hopener, hcloser, Bool.false_eq_true, if_false]
  by_cases hslash : b = backslash
  · have hline : b ≠ newline := by
      rw [hslash]
      decide
    rw [if_pos hslash, show Unclosed.piece _ b after = _ from if_pos hslash]
    by_cases hnext : after.head? = some newline
    · obtain ⟨rest, rfl⟩ := List.head?_eq_some_iff.mp hnext
      have htwo := move_two hrest hline
      rw [if_pos rfl] at htwo
      simp [htwo, show newline ≠ leftBrace ∧ newline ≠ rightBrace by decide]
    · simp [hnext, move_hidden hrest hline hnext, move_one hrest hline]
      split <;> rfl
  rw [if_neg hslash, show Unclosed.piece _ b after = _ from if_neg hslash]
  by_cases hline : b = newline
  · subst hline
    rw [if_pos rfl, if_pos rfl, startLine_eq_past hrest]
    cases triple <;> cases depth <;> rfl
  rw [if_neg hline, if_neg hline]
  have hone := move_one hrest hline
  by_cases hleft : (formatted && b == leftBrace) = true
  · rw [if_pos (by simpa using hleft), if_pos hleft, hone]
    by_cases hdouble : after.head? = some leftBrace
    · cases depth <;> simp [hdouble, move_doubled hrest hline (by decide) hdouble]
    · cases depth <;> simp [hdouble]
  rw [if_neg (by simpa using hleft), if_neg hleft]
  by_cases hright : (formatted && b == rightBrace) = true
  · rw [if_pos (by simpa using hright), if_pos hright]
    by_cases hdouble : after.head? = some rightBrace
    · cases depth <;> simp [hdouble, move_doubled hrest hline (by decide) hdouble, hone]
    · cases depth <;> simp [hdouble, hone]
  have hfields : (decide (0 < depth) && isQuote b) = (depth != 0 && isQuote b) := by
    cases depth <;> simp
  rw [if_neg (by simpa using hright), if_neg hright, hfields]
  by_cases hnested : (depth != 0 && isQuote b) = true
  · have hne : b ≠ 0 := by
      rintro rfl
      cases (Bool.and_eq_true_iff.mp hnested).2
    rw [if_pos hnested, if_pos hnested, isTriple_eq hne, move_quotes hrest hline _ id]
  rw [if_neg hnested, if_neg hnested]
  by_cases hb : b = quote
  · subst hb
    have hclosing := isTriple_eq hquote after
    simp only [beq_self_eq_true, decide_true, Bool.true_and, ← beq_eq_decide, ← hclosing]
    cases triple with
    | false => simp [move_quotes hrest hline false (by simp)]
    | true =>
      by_cases hthree : (after[0]?.getD 0 == b && after[1]?.getD 0 == b) = true
      · simp [hthree, move_quotes hrest hline true fun _ => hclosing ▸ hthree]
      · simp [hthree, hone]
  · simp [hb, hone]

open StringLiteral in
/-- Bytes that belong to a piece are skipped. -/
theorem close_skip {inner : Unclosed} {outer : List Unclosed} {offset n : Nat} {b : UInt8}
    {rest : Text} :
    close inner outer n (offset + 1) b rest =
      close inner outer 0 (offset + (n + 1)) ((b :: rest.take n).getLastD 0) (rest.drop n) := by
  induction n generalizing offset b rest with
  | zero => rfl
  | succ n ih =>
    cases rest with
    | nil => rfl
    | cons c rest =>
      show close inner outer n (offset + 1 + 1) c rest = _
      rw [ih, Nat.add_assoc, Nat.add_comm 1]
      rfl

/-- The literals that go on where one of them is closed. -/
def resume (outer : List StringLiteral.Unclosed) (offset : Nat) (before : UInt8) (rest : Text) :
    Except StringLiteral.Unterminated Nat :=
  match outer with
  | [] => .ok offset
  | next :: others => StringLiteral.close next others 0 offset before rest

/-- How the body of a literal ends, if the lexer has come over `offset`
    bytes from the start of the outermost literal. -/
inductive BodyEnds (source : Text) (first l : Lexer) (literal : StringLiteral.Unclosed)
    (offset : Nat) (before : UInt8) : Lexing Lexer → Prop where
  | closed {n : Nat} {last : UInt8} (hpos : 0 < n) (hle : n ≤ l.left source)
      (hlast : (l.past source n).follows source 0x66 = (toLower last == 0x66))
      (hclose : ∀ outer, StringLiteral.close literal outer 0 offset before (source.drop l.pos) =
        resume outer (offset + n) last (source.drop (l.past source n).pos)) :
      BodyEnds source first l literal offset before (.ok (l.past source n))
  | unterminated {u : StringLiteral.Unterminated}
      (hclose : ∀ outer, StringLiteral.close literal outer 0 offset before (source.drop l.pos) =
        .error u) :
      BodyEnds source first l literal offset before
        (.error (.error ⟨((first.scan source).skip u.start).position,
          .unterminatedString u.triple⟩))

open StringLiteral in
theorem content_pos {literal : Unclosed} {n : Nat} (h : literal.piece b after = .content n) :
    0 < n := by
  unfold Unclosed.piece at h
  split_ifs at h <;> cases h <;> decide

theorem exists_quoteCount (triple : Bool) : ∃ k, StringLiteral.quoteCount triple = k + 1 := by
  cases triple with
  | false => exact ⟨0, rfl⟩
  | true => exact ⟨2, rfl⟩

open StringLiteral in
theorem quote_ne_zero_of_nested {literal : Unclosed}
    (h : literal.piece b after = .nested quote triple) : quote ≠ 0 := by
  unfold Unclosed.piece at h
  split_ifs at h with _ _ _ _ _ _ _ _ _ hquote
  cases h
  rintro rfl
  cases (Bool.and_eq_true_iff.mp hquote).2

section Body

variable {first : Lexer} {literal literal' : StringLiteral.Unclosed} {offset n : Nat}
  {before before' : UInt8} {r : Lexing Lexer}

/-- Bytes in front of the end of a body. -/
theorem BodyEnds.behind (hpos : 0 < n)
    (h : BodyEnds source first (l.past source n) literal' (offset + n) before' r)
    (hclose : ∀ outer, StringLiteral.close literal outer 0 offset before (source.drop l.pos) =
      StringLiteral.close literal' outer 0 (offset + n) before'
        (source.drop (l.past source n).pos)) :
    BodyEnds source first l literal offset before r := by
  cases h with
  | @closed k last hk hle hlast hend =>
    rw [left_past] at hle
    rw [past_past] at hlast hend ⊢
    refine .closed (by omega) (by omega) hlast fun outer => ?_
    rw [hclose, hend, Nat.add_assoc]
  | unterminated hend => exact .unterminated fun outer => (hclose outer).trans (hend outer)

/-- A literal in front of the end of the body that it is in. -/
theorem BodyEnds.nested {goOn : Lexer → Lexing Lexer}
    (h : BodyEnds source first (l.past source n) literal' (offset + n) before' r)
    (hclose : ∀ outer, StringLiteral.close literal outer 0 offset before (source.drop l.pos) =
      StringLiteral.close literal' (literal :: outer) 0 (offset + n) before'
        (source.drop (l.past source n).pos))
    (hgoOn : ∀ {m : Nat} {last : UInt8}, 0 < m →
      (l.past source (n + m)).follows source 0x66 = (toLower last == 0x66) →
      BodyEnds source first (l.past source (n + m)) literal (offset + (n + m)) last
        (goOn (l.past source (n + m)))) :
    BodyEnds source first l literal offset before (r >>= goOn) := by
  cases h with
  | @closed m last hpos _ hlast hend =>
    rw [past_past] at hlast hend ⊢
    refine (hgoOn hpos hlast).behind (Nat.add_pos_right n hpos) fun outer => ?_
    rw [hclose, hend, Nat.add_assoc]
    rfl
  | unterminated hend => exact .unterminated fun outer => (hclose outer).trans (hend _)

open StringLiteral in
/-- **The body of a literal** ends for the lexer where it is closed for the
    scan, and is reported where it is reported there. -/
theorem skipStringBody_ends (hfuel : l.left source < fuel) (hl : l = first.past source offset)
    (hquote : literal.quote ≠ 0) (hbefore : l.follows source 0x66 = (toLower before == 0x66)) :
    BodyEnds source first l literal offset before
      (l.skipStringBody source fuel literal.quote literal.triple literal.formatted
        ((first.scan source).skip literal.start).position literal.depth) := by
  induction fuel generalizing l literal offset before with
  | zero => cases hfuel
  | succ fuel ih =>
    cases hrest : source.drop l.pos with
    | nil =>
      have hend : l.atEnd source = true := atEnd_iff.mpr hrest
      simp only [skipStringBody, hend, if_true]
      refine .unterminated (u := literal.unterminated) fun outer => ?_
      rw [hrest]
      rfl
    | cons b after =>
      have hleft := left_of_cons hrest
      -- Where the next `n + 1` bytes are read, and the last of them.
      have hskip : ∀ (literal' : Unclosed) outer n, close literal' outer n (offset + 1) b after =
          close literal' outer 0 (offset + (n + 1)) ((b :: after.take n).getLastD 0)
            (source.drop (l.past source (n + 1)).pos) := by
        intro literal' outer n
        rw [close_skip, drop_past, hrest]
        rfl
      have hlast := fun n => follows_past hrest n 0x66
      have hbody : ∀ {literal' : Unclosed} (n : Nat), literal'.quote ≠ 0 →
          BodyEnds source first (l.past source (n + 1)) literal' (offset + (n + 1))
            ((b :: after.take n).getLastD 0)
            ((l.past source (n + 1)).skipStringBody source fuel literal'.quote literal'.triple
              literal'.formatted ((first.scan source).skip literal'.start).position
              literal'.depth) := by
        intro literal' n hquote'
        refine ih ?_ ?_ hquote' (hlast n)
        · rw [left_past]
          omega
        · rw [hl, past_past]
      have hgoOn : ∀ {literal' : Unclosed} {n : Nat}, literal'.quote ≠ 0 →
          (∀ outer, close literal outer 0 offset before (b :: after) =
            close literal' outer n (offset + 1) b after) →
          BodyEnds source first l literal offset before
            ((l.past source (n + 1)).skipStringBody source fuel literal'.quote literal'.triple
              literal'.formatted ((first.scan source).skip literal'.start).position
              literal'.depth) := by
        intro literal' n hquote' hclose
        refine (hbody n hquote').behind (Nat.succ_pos n) fun outer => ?_
        rw [hrest, hclose, hskip]
      rw [skipStringBody_succ hrest hquote literal.start]
      cases hpiece : literal.piece b after with
      | content n =>
        obtain ⟨n, rfl⟩ := Nat.exists_eq_succ_of_ne_zero (Nat.ne_of_gt (content_pos hpiece))
        exact hgoOn hquote fun _ => close_of_content hpiece
      | openField =>
        let literal' := { literal with depth := literal.depth + 1 }
        exact @hgoOn literal' 0 hquote fun _ => close_of_openField hpiece
      | closeField =>
        let literal' := { literal with depth := literal.depth - 1 }
        exact @hgoOn literal' 0 hquote fun _ => close_of_closeField hpiece
      | nested quote triple =>
        obtain ⟨k, hk⟩ := exists_quoteCount triple
        -- The body of the nested literal comes first, and then this one goes on.
        let inner : Unclosed := ⟨quote, triple, toLower before == 0x66, 0, offset⟩
        have hplace : l.place l.pos = ((first.scan source).skip inner.start).position := by
          rw [← scan_past, ← hl]
          rfl
        have hinner : BodyEnds source first _ inner _ _ _ :=
          hbody k (quote_ne_zero_of_nested hpiece)
        have hclose : ∀ outer, close literal outer 0 offset before (b :: after) =
            close inner (literal :: outer) 0 (offset + (k + 1)) ((b :: after.take k).getLastD 0)
              (source.drop (l.past source (k + 1)).pos) := by
          intro outer
          rw [close_of_nested hpiece, hk]
          exact hskip inner _ k
        simp only [hk, hbefore, hplace]
        refine hinner.nested (hrest ▸ hclose) fun {m last} hpos hend => ?_
        refine ih ?_ ?_ hquote hend
        · rw [left_past]
          omega
        · rw [hl, past_past]
      | closing =>
        obtain ⟨k, hk⟩ := exists_quoteCount literal.triple
        have hle := quoteCount_le_of_piece hpiece
        simp only [hk] at hle ⊢
        refine .closed (Nat.succ_pos k) (by omega) (hlast k) fun outer => ?_
        rw [hrest]
        cases outer with
        | nil =>
          rw [close_of_closed hpiece, hk]
          rfl
        | cons next others =>
          rw [close_of_closing hpiece, hk]
          exact hskip next others k
      | lineEnd =>
        refine .unterminated (u := literal.unterminated) fun outer => ?_
        rw [hrest]
        simp only [close.eq_def literal outer 0, hpiece]

end Body

/-- The bytes that are read. -/
theorem slice_pos (n : Nat) :
    source.slice ⟨l.pos, l.pos + n⟩ = (l.scan source).rest.take n := by
  unfold Text.slice
  rw [Nat.add_sub_cancel_left]
  rfl

/-- A token is added in front of the bytes that it stands for, or behind
    them. -/
theorem scan_push (source : Text) (l : Lexer) (n : Nat) (lexeme : Lexeme) :
    ((l.past source n).push lexeme (l.place l.pos)).scan source =
      ((l.scan source).emit lexeme).skip n :=
  congrArg (fun s : Scan => { s with tokens := ⟨lexeme, l.place l.pos⟩ :: s.tokens }) (scan_past n)

open StringLiteral in
/-- A string literal behind its prefix. -/
theorem scan_string (word : Text) (hrest : source.drop l.pos = word ++ b :: after)
    (hword : newline ∉ word) (hb : isQuote b = true) :
    scan source <$> (l.past source word.length).string source l.pos word =
      ((l.scan source).string word).mapError Stop.error := by
  have hline : b ≠ newline := by
    rintro rfl
    cases hb
  have hquote : b ≠ 0 := by
    rintro rfl
    cases hb
  have hleft : l.left source = word.length + (after.length + 1) := by
    rw [left_eq, show (l.scan source).rest = _ from hrest, List.length_append]
    rfl
  have hmove : l.move word.length = l.past source word.length := by
    refine move_eq_past (by omega) ?_
    rwa [hrest, List.take_left]
  have hbehind : source.drop (l.past source word.length).pos = b :: after := by
    rw [drop_past, hrest, List.drop_left]
  have hplace : (l.past source word.length).place l.pos = l.place l.pos := by
    rw [← hmove]
    rfl
  have hpeek : (l.past source word.length).peek source 0 = b := by
    rw [peek_eq, hbehind]
    rfl
  have htriple : ((l.past source word.length).peek source 1 == b &&
      (l.past source word.length).peek source 2 == b) = isTriple b after := by
    rw [peek_eq, peek_eq, hbehind, ← isTriple_eq hquote]
    rfl
  have hopen := move_quotes hbehind hline _ id
  obtain ⟨k, hk⟩ := exists_quoteCount (isTriple b after)
  rw [hk, past_past] at hopen
  -- Both read the body of the same literal from the same place on.
  let literal : Unclosed := ⟨b, isTriple b after, isFormatted word, 0, 0⟩
  have hlength : length? word (l.scan source).rest =
      close literal [] 0 (word.length + (k + 1)) ((b :: after.take k).getLastD 0)
        (source.drop (l.past source (word.length + (k + 1))).pos) := by
    unfold length?
    rw [show (l.scan source).rest = _ from hrest, List.drop_left]
    show close literal [] (quoteCount (isTriple b after) - 1) _ b after = _
    rw [hk, ← past_past, drop_past, hbehind]
    exact close_skip
  have hends : BodyEnds source l (l.past source (word.length + (k + 1))) literal
      (word.length + (k + 1)) ((b :: after.take k).getLastD 0)
      (skipStringBody source ((l.past source (word.length + (k + 1))).left source + 1) b
        (isTriple b after) (isFormatted word) (l.place l.pos) 0
        (l.past source (word.length + (k + 1)))) := by
    have hfollows := follows_past hbehind k 0x66
    rw [past_past] at hfollows
    exact skipStringBody_ends (Nat.lt_succ_self _) rfl hquote hfollows
  unfold string Scan.string
  simp only [hpeek, htriple, hk, hopen, hlength, hplace]
  generalize skipStringBody source _ b _ _ _ _ _ = r at hends ⊢
  cases hends with
  | @closed m last _ hle _ hclose =>
    rw [left_past] at hle
    rw [hclose, past_past]
    show Except.ok _ = Except.ok _
    rw [pos_past (by omega), slice_pos, scan_push]
  | @unterminated u hclose =>
    rw [hclose]
    rfl

end Strings

end Lexer

end StyleCheck
