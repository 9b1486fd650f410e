import StyleCheck.Proofs.Lexer.Strings

/-! # Lexers and Scans

    A scan forgets what it has read and moves its position over each
    byte; a lexer keeps the source and subtracts offsets.  They read the
    same tokens.

    * `scan_piece`, `scan_enterLine`: what a lexer does is done by the
      scan that it stands for.
    * `scan_run`: whole runs.
    * `lex_eq`: the tokens of a source.  In particular, no loop of a lexer
      runs out of fuel.
-/

namespace StyleCheck

open Byte

namespace Lexer

/-! ## Section 1: Loops -/

/-- A lexer that reads as its scan comes to an end as the scan does. -/
theorem exists_of_map_eq {source : Text} {r : Lexing Lexer} {r' : Except SyntaxError Scan}
    (h : scan source <$> r = r'.mapError Stop.error) :
    (∃ next, r = .ok next ∧ r' = .ok (next.scan source)) ∨
      ∃ e, r = .error (.error e) ∧ r' = .error e := by
  cases r with
  | ok next =>
    cases r' with
    | ok s => exact .inl ⟨next, rfl, congrArg Except.ok (Except.ok.inj h).symm⟩
    | error e => cases h
  | error stop =>
    cases r' with
    | ok s => cases h
    | error e => exact .inr ⟨e, congrArg Except.error (Except.error.inj h), rfl⟩

section Loops

variable {source after : Text} {l : Lexer} {b : UInt8} {p : UInt8 → Bool} {fuel : Nat}

theorem drop_move_one (hrest : source.drop l.pos = b :: after) :
    source.drop (l.move 1).pos = after := by
  show source.drop (l.pos + 1) = after
  rw [← List.drop_drop, hrest]
  rfl

theorem left_move_one (hrest : source.drop l.pos = b :: after) :
    (l.move 1).left source = after.length := by
  rw [left_eq, show ((l.move 1).scan source).rest = _ from drop_move_one hrest]

theorem drop_of_left (h : l.left source ≤ 0) : source.drop l.pos = [] :=
  List.eq_nil_of_length_eq_zero (List.length_drop.trans (Nat.le_zero.mp h))

theorem mapError_inj {α : Type} {r r' : Except SyntaxError α}
    (h : r.mapError Stop.error = r'.mapError Stop.error) : r = r' := by
  cases r <;> cases r' <;> cases h <;> rfl

/-- A loop over bytes other than line feeds. -/
theorem overWhile_eq (hp : p newline = false) (hfuel : l.left source ≤ fuel) :
    l.overWhile source p fuel = l.past source ((source.drop l.pos).takeWhile p).length := by
  induction fuel generalizing l with
  | zero =>
    rw [drop_of_left hfuel]
    rfl
  | succ fuel ih =>
    cases hrest : source.drop l.pos with
    | nil => simp [overWhile, atEnd_iff.mpr hrest, past]
    | cons b after =>
      simp only [overWhile, atEnd_of_cons hrest, peek_of_cons hrest]
      by_cases hb : p b = true
      · have hline : b ≠ newline := by
          rintro rfl
          rw [hp] at hb
          cases hb
        have hmoved := left_of_cons hrest ▸ hfuel
        rw [if_pos (by simpa using hb), ih (by rw [left_move_one hrest]; omega),
          drop_move_one hrest, List.takeWhile_cons_of_pos hb, List.length_cons, past_succ hrest,
          if_neg hline]
      · rw [if_neg (by simpa using hb), List.takeWhile_cons_of_neg hb]
        rfl

/-- The loop over blanks, which counts columns as well. -/
theorem overBlanks_eq (column : Nat) (hfuel : l.left source ≤ fuel) :
    l.overBlanks source fuel column =
      (((source.drop l.pos).takeWhile isBlank).foldl Scan.columnAfter column,
        l.past source ((source.drop l.pos).takeWhile isBlank).length) := by
  induction fuel generalizing l column with
  | zero =>
    rw [drop_of_left hfuel]
    rfl
  | succ fuel ih =>
    cases hrest : source.drop l.pos with
    | nil => simp [overBlanks, atEnd_iff.mpr hrest, past]
    | cons b after =>
      simp only [overBlanks, atEnd_of_cons hrest, peek_of_cons hrest]
      by_cases hb : isBlank b = true
      · have hmoved := left_of_cons hrest ▸ hfuel
        rw [if_pos (by simpa using hb), ih _ (by rw [left_move_one hrest]; omega),
          drop_move_one hrest, List.takeWhile_cons_of_pos hb, List.length_cons, past_succ hrest,
          if_neg (ne_newline_of_isBlank hb)]
        rfl
      · rw [if_neg (by simpa using hb), List.takeWhile_cons_of_neg hb]
        rfl

open NumberLiteral in
/-- The loop over the bytes of a number. -/
theorem overNumber_eq (hexadecimal : Bool) {before : UInt8} (hfuel : l.left source ≤ fuel)
    (hbefore : l.follows source 0x65 = (toLower before == 0x65)) :
    l.overNumber source hexadecimal fuel =
      l.past source (tailLength hexadecimal before (source.drop l.pos)) := by
  induction fuel generalizing l before with
  | zero =>
    rw [drop_of_left hfuel]
    rfl
  | succ fuel ih =>
    cases hrest : source.drop l.pos with
    | nil => simp [overNumber, atEnd_iff.mpr hrest, past, tailLength]
    | cons b after =>
      simp only [overNumber, atEnd_of_cons hrest, peek_of_cons hrest, hbefore, Bool.false_eq_true,
        if_false]
      show (if goesOn hexadecimal before b = true then _ else l) = _
      by_cases hb : goesOn hexadecimal before b = true
      · have hline : b ≠ newline := by
          rintro rfl
          cases hb
        have hmoved := left_of_cons hrest ▸ hfuel
        have hfollows := follows_past_one hrest 0x65
        rw [← move_one hrest hline] at hfollows
        rw [if_pos hb, ih (by rw [left_move_one hrest]; omega) hfollows, drop_move_one hrest,
          tailLength, if_pos hb, past_succ hrest, if_neg hline]
      · rw [if_neg hb, tailLength, if_neg hb]
        rfl

end Loops

/-! ## Section 2: Pieces of a line -/

section Pieces

variable {source after : Text} {l : Lexer} {b : UInt8}

/-- The cursor stays on the line. -/
theorem place_past {n : Nat} (hn : n ≤ l.left source) (hline : newline ∉ (source.drop l.pos).take n)
    (offset : Nat) : (l.past source n).place offset = l.place offset := by
  rw [← move_eq_past hn hline]
  rfl

/-- A run of bytes other than line feeds is on the line. -/
theorem newline_notMem_takeWhile {p : UInt8 → Bool} (hp : p newline = false) (t : Text) :
    newline ∉ t.takeWhile p := by
  intro hmem
  rw [List.all_eq_true.mp List.all_takeWhile _ hmem] at hp
  cases hp

theorem scan_word :
    scan source <$> l.word source = ((l.scan source).word).mapError Stop.error := by
  have hprefix := List.takeWhile_prefix isNameByte (l := source.drop l.pos)
  have hline := newline_notMem_takeWhile (p := isNameByte) rfl (source.drop l.pos)
  have hover := overWhile_eq (p := isNameByte) (l := l) rfl (Nat.le_refl (l.left source))
  obtain ⟨behind, hbehind⟩ := hprefix
  unfold word Scan.word
  simp only [show (l.scan source).rest = source.drop l.pos from rfl, hover]
  generalize hword : (source.drop l.pos).takeWhile isNameByte = word at hline hbehind
  have hle : word.length ≤ l.left source := by
    rw [left_eq, show (l.scan source).rest = _ from hbehind.symm, List.length_append]
    exact Nat.le_add_right _ _
  have hslice : source.slice ⟨l.pos, (l.past source word.length).pos⟩ = word := by
    rw [pos_past hle, slice_pos, show (l.scan source).rest = _ from hbehind.symm, List.take_left]
  have hplace : (l.past source word.length).place l.pos = l.place l.pos :=
    place_past hle (by rwa [← hbehind, List.take_left]) l.pos
  have hpeek : (l.past source word.length).peek source 0 = behind[0]?.getD 0 := by
    rw [peek_eq, drop_past, ← hbehind, List.drop_left]
  simp only [hslice, hplace, hpeek, ← hbehind, List.drop_left]
  have hname := scan_push source l word.length (.ofWord word)
  cases behind with
  | nil => exact congrArg Except.ok hname
  | cons c behind =>
    show scan source <$>
        (if (isQuote c && StringLiteral.isLiteralPrefix word) = true then _ else _) =
      (if (isQuote c && StringLiteral.isLiteralPrefix word) = true then _ else _ :
        Except SyntaxError Scan).mapError Stop.error
    by_cases hquoted : (isQuote c && StringLiteral.isLiteralPrefix word) = true
    · rw [if_pos hquoted, if_pos hquoted]
      exact scan_string word hbehind.symm hline (Bool.and_eq_true_iff.mp hquoted).1
    · rw [if_neg hquoted, if_neg hquoted]
      exact congrArg Except.ok hname

open NumberLiteral in
theorem newline_notMem_number (hexadecimal : Bool) (before : UInt8) (t : Text) :
    newline ∉ t.take (tailLength hexadecimal before t) := by
  induction t generalizing before with
  | nil => exact List.not_mem_nil
  | cons b t ih =>
    unfold tailLength
    split
    case isFalse => exact List.not_mem_nil
    case isTrue hb =>
      rw [List.take_succ_cons, List.mem_cons, not_or]
      refine ⟨?_, ih b⟩
      rintro rfl
      cases hb

open NumberLiteral in
theorem scan_number (hrest : source.drop l.pos = b :: after)
    (hstarts : startsAt (b :: after) = true) :
    (l.number source).scan source = (l.scan source).number := by
  have hb : isNameByte b = true ∨ b = dot := by
    cases after with
    | nil => exact .inl (by simp [isNameByte, show isDigit b = true from hstarts])
    | cons c after =>
      simp only [startsAt, Bool.or_eq_true, Bool.and_eq_true, beq_iff_eq] at hstarts
      exact hstarts.imp (fun hdigit => by simp [isNameByte, hdigit]) And.left
  -- The first byte goes on with nothing, so it does not matter what stands before it.
  have hlength : ∀ before, tailLength (isHexadecimal (b :: after)) before (b :: after) =
      length (b :: after) := by
    intro before
    have hgoesOn : goesOn (isHexadecimal (b :: after)) before b = true := by
      rcases hb with hb | hb <;> simp [goesOn, hb]
    rw [tailLength, if_pos hgoesOn, length]
  have hhex : (l.peek source 0 == zero && toLower (l.peek source 1) == 0x78) =
      isHexadecimal (b :: after) := by
    rw [peek_eq, peek_eq, hrest]
    cases after with
    | nil => exact Bool.and_false _
    | cons c after => rfl
  obtain ⟨before, hbefore⟩ : ∃ before, l.follows source 0x65 = (toLower before == 0x65) := by
    cases l.follows source 0x65 with
    | true => exact ⟨0x65, rfl⟩
    | false => exact ⟨0, rfl⟩
  have hover := overNumber_eq (isHexadecimal (b :: after)) (Nat.le_refl _) hbefore
  have hline := newline_notMem_number (isHexadecimal (b :: after)) before (b :: after)
  have hle := length_le (b :: after)
  rw [hrest, hlength] at hover
  rw [hlength] at hline
  rw [List.length_cons, ← left_of_cons hrest] at hle
  unfold number Scan.number
  simp only [hhex, hover, show (l.scan source).rest = _ from hrest]
  rw [place_past hle (by rwa [hrest]), pos_past hle, slice_pos, scan_push,
    show (l.scan source).rest = _ from hrest]

theorem scan_lineFeed (hrest : source.drop l.pos = newline :: after) :
    l.lineFeed.scan source = (l.scan source).lineFeed := by
  have hover : ∀ l' : Lexer, l'.pos = l.pos →
      ((l'.move 1).startLine).scan source = (l'.scan source).skip 1 := by
    intro l' hpos
    rw [startLine_eq_past (hpos ▸ hrest), scan_past]
  have hbrackets : ∀ l' : Lexer, ((l'.move 1).startLine).brackets = l'.brackets := fun _ => rfl
  unfold lineFeed Scan.lineFeed
  simp only [show (l.scan source).brackets = l.brackets from rfl,
    show (l.scan source).atLineStart = l.atLineStart from rfl, hbrackets]
  by_cases hopen : l.brackets = []
  · have hempty : l.brackets.isEmpty = true := List.isEmpty_iff.mpr hopen
    rw [if_pos hopen]
    -- The line feed is a token only behind a token of its line.
    cases hstart : l.atLineStart with
    | true =>
      simp only [hempty, Bool.not_true, Bool.and_false, Bool.false_eq_true, if_false, if_true]
      exact congrArg (fun s : Scan => { s with atLineStart := true }) (hover l rfl)
    | false =>
      have hbegun := hover (l.push .newline (l.place l.pos)) rfl
      have hpushed : (l.push .newline (l.place l.pos)).brackets.isEmpty = true := hempty
      simp only [hempty, hpushed, Bool.not_false, Bool.and_self, Bool.false_eq_true, if_false,
        if_true]
      exact congrArg (fun s : Scan => { s with atLineStart := true }) hbegun
  · have hempty : l.brackets.isEmpty = false := by simpa using hopen
    simp only [if_neg hopen, hempty, Bool.false_and, Bool.false_eq_true, if_false]
    exact hover l rfl

theorem scan_continuation (hrest : source.drop l.pos = backslash :: after) :
    scan source <$> l.continuation source =
      ((l.scan source).continuation after).mapError Stop.error := by
  have hne : backslash ≠ newline := by decide
  have hlength : source.length ≤ l.pos + 1 ↔ after = [] := by
    have hleft := left_of_cons hrest
    unfold left at hleft
    rw [← List.length_eq_zero_iff]
    omega
  have hpeek : l.peek source 1 = after[0]?.getD 0 := by
    rw [peek_eq, hrest]
    rfl
  simp only [continuation, hpeek, hlength]
  cases after with
  | nil => rfl
  | cons c after =>
    have htwo := move_two hrest hne
    by_cases hc : c = newline
    · rw [if_pos hc] at htwo
      simp only [Scan.continuation, List.getElem?_cons_zero, Option.getD_some, if_pos hc, htwo]
      exact congrArg Except.ok (scan_past 2)
    · have hone : (l.scan source).skip 1 = (l.move 1).scan source := by
        rw [move_one hrest hne, scan_past]
      simp only [Scan.continuation, List.getElem?_cons_zero, Option.getD_some, if_neg hc, hone]
      rfl

theorem scan_trackBrackets (source : Text) (l : Lexer) (symbol : Symbol) :
    scan source <$> l.trackBrackets symbol =
      ((l.scan source).trackBrackets symbol).mapError Stop.error := by
  unfold trackBrackets Scan.trackBrackets
  cases symbol with
  | closing bracket =>
    rw [show (l.scan source).brackets = l.brackets from rfl]
    cases l.brackets with
    | nil => rfl
    | cons innermost others =>
      by_cases hmatch : innermost.bracket = bracket
      · simp only [if_pos hmatch]
        rfl
      · simp only [if_neg hmatch]
        rfl
  | _ => rfl

/-- Brackets are no reason to move. -/
theorem pos_of_trackBrackets {next : Lexer} {symbol : Symbol}
    (h : l.trackBrackets symbol = .ok next) : next.pos = l.pos := by
  unfold trackBrackets at h
  split at h
  · cases h
    rfl
  · split at h
    · cases h
    · split at h <;> cases h
      rfl
  · cases h
    rfl

theorem scan_symbol (hrest : source.drop l.pos = b :: after) :
    scan source <$> l.symbol source = ((l.scan source).symbol b).mapError Stop.error := by
  unfold symbol Scan.symbol
  rw [show (l.scan source).rest = source.drop l.pos from rfl]
  cases hsymbol : Symbol.leading? (source.drop l.pos) with
  | none =>
    rw [← peek_of_cons hrest]
    rfl
  | some symbol =>
    have hspelled := List.find?_some hsymbol
    obtain ⟨behind, hbehind⟩ := List.isPrefixOf_iff_prefix.mp hspelled
    rcases exists_of_map_eq (scan_trackBrackets source l symbol) with
      ⟨next, htracked, hscan⟩ | ⟨e, htracked, hscan⟩
    · simp only [htracked, hscan]
      show Except.ok _ = Except.ok _
      -- The symbol is added first, and then moved over.
      have hrest : source.drop (next.push (.symbol symbol) (next.place next.pos)).pos =
          symbol.text ++ behind := by
        show source.drop next.pos = _
        rw [pos_of_trackBrackets htracked, hbehind]
      rw [move_eq_past, scan_past]
      · rfl
      · rw [left_eq, show (scan source _).rest = _ from hrest, List.length_append]
        exact Nat.le_add_right _ _
      · rw [hrest, List.take_left]
        exact symbol.notMem_text_of_parts rfl
    · simp only [htracked, hscan]
      rfl

/-- **One piece** is read by the lexer as by its scan. -/
theorem scan_piece (hrest : source.drop l.pos = b :: after) :
    scan source <$> l.piece source = ((l.scan source).piece b after).mapError Stop.error := by
  have hpeek : l.peek source 1 = after[0]?.getD 0 := by
    rw [peek_eq, hrest]
    rfl
  have hstarts : (isDigit b || (b == dot && isDigit (l.peek source 1))) =
      NumberLiteral.startsAt (b :: after) := by
    rw [hpeek]
    cases after with
    | nil => exact (congrArg (isDigit b || ·) (Bool.and_false _)).trans (Bool.or_false _)
    | cons c after => rfl
  unfold piece Scan.piece
  simp only [peek_of_cons hrest, hstarts, show (l.scan source).rest = b :: after from hrest,
    apply_ite (scan source <$> ·), apply_ite (Except.mapError Stop.error)]
  refine ite_congr rfl (fun hblank => ?_) fun _ => ite_congr rfl (fun hhash => ?_) fun _ =>
    ite_congr rfl (fun hfeed => ?_) fun _ => ite_congr rfl (fun hslash => ?_) fun _ =>
    ite_congr rfl (fun _ => scan_word) fun _ => ite_congr rfl (fun hnumber => ?_) fun _ =>
    ite_congr rfl (fun hquote => ?_) fun _ => scan_symbol hrest
  case refine_1 =>
    rw [move_one hrest (ne_newline_of_isBlank hblank)]
    exact congrArg Except.ok (scan_past 1)
  case refine_2 =>
    rw [overWhile_eq (by simp) (Nat.le_refl _), hrest]
    exact congrArg Except.ok (scan_past _)
  case refine_3 =>
    subst hfeed
    exact congrArg Except.ok (scan_lineFeed hrest)
  case refine_4 =>
    subst hslash
    exact scan_continuation hrest
  case refine_5 => exact congrArg Except.ok (scan_number hrest hnumber)
  case refine_6 => exact scan_string [] hrest List.not_mem_nil hquote

end Pieces

/-! ## Section 3: Lines -/

section Lines

variable {source : Text} {l : Lexer}

/-- One level after the other is closed, and all that are deeper at once. -/
theorem scan_closeLevels (source : Text) (column : Nat) (levels : List Nat)
    (hlevels : l.levels = levels) :
    (l.closeLevels column levels).scan source =
      { l.scan source with
        levels := levels.dropWhile (column < ·)
        tokens := List.replicate (levels.takeWhile (column < ·)).length
          ⟨.dedent, l.place l.pos⟩ ++ l.tokens } := by
  induction levels generalizing l with
  | nil => simp [closeLevels, scan, hlevels]
  | cons level outer ih =>
    unfold closeLevels
    by_cases hdeeper : column < level
    · have hdrop : (level :: outer).dropWhile (column < ·) = outer.dropWhile (column < ·) :=
        List.dropWhile_cons_of_pos (decide_eq_true hdeeper)
      have htake : (level :: outer).takeWhile (column < ·) =
          level :: outer.takeWhile (column < ·) :=
        List.takeWhile_cons_of_pos (decide_eq_true hdeeper)
      rw [if_pos hdeeper, ih (by simp [dedent, hlevels]), hdrop, htake, List.length_cons,
        List.replicate_succ', List.append_assoc]
      rfl
    · have hdrop : (level :: outer).dropWhile (column < ·) = level :: outer :=
        List.dropWhile_cons_of_neg (by simpa using hdeeper)
      have htake : (level :: outer).takeWhile (column < ·) = [] :=
        List.takeWhile_cons_of_neg (by simpa using hdeeper)
      rw [if_neg hdeeper, hdrop, htake, ← hlevels]
      rfl

theorem scan_settle (source : Text) (l : Lexer) (column : Nat) :
    scan source <$> l.settle column = ((l.scan source).settle column).mapError Stop.error := by
  have hclosed := scan_closeLevels source column l.levels rfl
  have hlevels := congrArg Scan.levels hclosed
  have hposition := congrArg Scan.position hclosed
  unfold settle Scan.settle
  simp only [apply_ite (scan source <$> ·), apply_ite (Except.mapError Stop.error)]
  refine ite_congr rfl (fun _ => rfl) fun _ => ite_congr ?_ (fun _ => ?_) fun _ => ?_
  · exact congrArg (fun levels : List Nat => levels.headD 0 = column) hlevels
  · exact congrArg Except.ok hclosed
  · exact congrArg (fun p => Except.error (Stop.error ⟨p, .inconsistentDedent⟩)) hposition

theorem scan_indentation (source : Text) (l : Lexer) :
    scan source <$> l.indentation source = (l.scan source).indentation.mapError Stop.error := by
  have hblanks := overBlanks_eq 0 (Nat.le_refl (l.left source))
  unfold indentation Scan.indentation
  simp only [hblanks, show (l.scan source).rest = source.drop l.pos from rfl]
  generalize (source.drop l.pos).takeWhile isBlank = blanks
  rw [← scan_past]
  generalize l.past source blanks.length = entered
  rw [show (entered.scan source).rest = source.drop entered.pos from rfl]
  cases hrest : source.drop entered.pos with
  | nil =>
    rw [if_pos (atEnd_iff.mpr hrest)]
    rfl
  | cons b after =>
    simp only [atEnd_of_cons hrest, peek_of_cons hrest, Bool.false_eq_true, if_false,
      apply_ite (scan source <$> ·), apply_ite (Except.mapError Stop.error)]
    refine ite_congr rfl (fun _ => rfl) fun _ => ?_
    rw [← hrest]
    exact scan_settle source _ _

/-- **Lines** are entered by the lexer as by its scan. -/
theorem scan_enterLine (source : Text) (l : Lexer) :
    scan source <$> l.enterLine source = (l.scan source).enterLine.mapError Stop.error := by
  unfold enterLine Scan.enterLine
  simp only [apply_ite (scan source <$> ·), apply_ite (Except.mapError Stop.error)]
  exact ite_congr rfl (fun _ => scan_indentation source l) fun _ => rfl

end Lines

/-! ## Section 4: Runs -/

section Runs

variable {source : Text} {l : Lexer}

/-- **A whole run** of a lexer is that of its scan, and never runs out of
    fuel. -/
theorem scan_run {fuel : Nat} (hfuel : l.left source ≤ fuel) :
    scan source <$> l.run source (fuel + 1) =
      ((l.scan source).run fuel).mapError Stop.error := by
  induction fuel generalizing l with
  | zero =>
    rcases exists_of_map_eq (scan_enterLine source l) with
      ⟨entered, henter, hscan⟩ | ⟨e, henter, hscan⟩
    · have hle := Scan.enterLine_length_le hscan
      rw [← left_eq, ← left_eq] at hle
      have hend : entered.atEnd source = true :=
        atEnd_iff.mpr (drop_of_left (Nat.le_trans hle hfuel))
      simp only [run, Scan.run, henter, hscan, bind, Except.bind, hend, if_true]
      rfl
    · simp only [run, Scan.run, henter, hscan]
      rfl
  | succ fuel ih =>
    rcases exists_of_map_eq (scan_enterLine source l) with
      ⟨entered, henter, hscan⟩ | ⟨e, henter, hscan⟩
    · have hle := Scan.enterLine_length_le hscan
      rw [← left_eq, ← left_eq] at hle
      rw [run, Scan.run]
      simp only [henter, hscan, bind, Except.bind]
      rw [show (entered.scan source).rest = source.drop entered.pos from rfl]
      cases hrest : source.drop entered.pos with
      | nil =>
        rw [if_pos (atEnd_iff.mpr hrest)]
        rfl
      | cons b after =>
        simp only [atEnd_of_cons hrest, Bool.false_eq_true, if_false]
        rcases exists_of_map_eq (scan_piece hrest) with ⟨next, hpiece, hnext⟩ | ⟨e, hpiece, hnext⟩
        · have hlt := (Scan.piece_reads hrest hnext).length_lt
          rw [← left_eq, ← left_eq] at hlt
          simp only [hpiece, hnext]
          exact ih (by omega)
        · simp only [hpiece, hnext]
          rfl
    · rw [run, Scan.run]
      simp only [henter, hscan]
      rfl

/-- Closing blocks adds as many tokens as there are levels to close. -/
theorem exists_closeBlocks (levels : List Nat) (l : Lexer) :
    ∃ levels', l.closeBlocks levels =
      { l with
        levels := levels'
        tokens := List.replicate (levels.length - 1) ⟨.dedent, l.place l.pos⟩ ++ l.tokens } := by
  induction levels generalizing l with
  | nil => exact ⟨l.levels, rfl⟩
  | cons level outer ih =>
    cases outer with
    | nil => exact ⟨l.levels, rfl⟩
    | cons level outer =>
      obtain ⟨levels', hclosed⟩ := ih l.dedent
      refine ⟨levels', ?_⟩
      rw [closeBlocks, hclosed]
      simp only [List.length_cons, Nat.add_sub_cancel, List.replicate_succ', List.append_assoc]
      rfl

theorem isLineEnded_eq (source : Text) (l : Lexer) :
    l.isLineEnded = (l.scan source).isLineEnded := by
  unfold isLineEnded Scan.isLineEnded
  rw [show (l.scan source).tokens = l.tokens from rfl]
  cases l.tokens with
  | nil => rfl
  | cons token tokens =>
    obtain ⟨lexeme, position⟩ := token
    cases lexeme <;> rfl

theorem finish_eq (source : Text) (l : Lexer) :
    l.finish = (l.scan source).finish.mapError Stop.error := by
  unfold finish Scan.finish
  rw [show (l.scan source).brackets = l.brackets from rfl, ← isLineEnded_eq]
  cases l.brackets with
  | cons innermost others => rfl
  | nil =>
    cases hended : l.isLineEnded with
    | true =>
      obtain ⟨levels', hclosed⟩ := exists_closeBlocks l.levels l
      simp only [if_true, hclosed]
      rfl
    | false =>
      obtain ⟨levels', hclosed⟩ := exists_closeBlocks l.levels (l.push .newline (l.place l.pos))
      simp only [Bool.false_eq_true, if_false, show (l.push _ _).levels = l.levels from rfl,
        hclosed]
      rfl

theorem scan_start : (start source).scan source = Scan.ofSource source := by
  unfold scan start Scan.ofSource
  simp only
  split
  · rfl
  · rfl

end Runs

end Lexer

/-- **Lexer and scan** read the same tokens of every source, or report the
    same error. -/
theorem lex_eq (source : Text) : lex source = (tokenize source).mapError Lexer.Stop.error := by
  have hrun := Lexer.scan_run (Nat.le_refl ((Lexer.start source).left source))
  have hfuel : (Scan.ofSource source).run ((Lexer.start source).left source) =
      (Scan.ofSource source).run source.length := by
    have hleft := Lexer.left_eq source (.start source)
    rw [Lexer.scan_start] at hleft
    exact Scan.run_eq_run (Nat.le_of_eq hleft.symm) (Scan.ofSource_length_le source)
  rw [Lexer.scan_start, hfuel] at hrun
  unfold lex tokenize
  rcases Lexer.exists_of_map_eq hrun with ⟨last, hlast, hscan⟩ | ⟨e, hlast, hscan⟩
  · simp only [hlast, hscan]
    exact last.finish_eq source
  · simp only [hlast, hscan]
    rfl

end StyleCheck
