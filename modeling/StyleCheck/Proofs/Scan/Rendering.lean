import Mathlib.Data.List.Chain
import StyleCheck.Proofs.Scan.Brackets
import StyleCheck.Proofs.Scan.Numbers
import StyleCheck.Proofs.Scan.Words

/-! # Tokens Written Out

    Words are written with a space between them, and logical lines on
    lines of their own, four spaces deeper for each block that they are in.
    The tokens of such a text are the words again, with the layout tokens
    that the depths ask for: every word is read to its end and no further,
    every bracket finds its partner, and the levels are those of the
    depths.

    * `Layout`: words on lines at depths, with what makes them well-formed.
    * `Inside.word`: the round that reads a word.
    * `AtLine.line`: the rounds that read a logical line.
    * `tokenize_layout`: the tokens of a layout that is written out.
-/

namespace StyleCheck

open Byte

/-! ## Section 1: Layouts -/

/-- What stands between the spaces of a line: a name, reserved or not, a
    number, or a symbol. -/
inductive Word where
  | name (text : Text)
  | number (text : Text)
  | symbol (sign : Symbol)

namespace Word

def text : Word → Text
  | name text | number text => text
  | symbol sign => sign.text

def lexeme : Word → Lexeme
  | name text => .ofWord text
  | number text => .number text
  | symbol sign => .symbol sign

/-- The word as a token.  It does not matter where. -/
def token (word : Word) : Token := ⟨word.lexeme, .start⟩

/-- Names are ASCII, and numbers are decimal digits. -/
def IsPlain : Word → Prop
  | name text => IsIdentifier text ∧ ∀ b ∈ text, isHigh b = false
  | number text => text ≠ [] ∧ ∀ b ∈ text, isDigit b = true
  | symbol _ => True

instance : DecidablePred IsPlain
  | name text => decidable_of_iff (IsIdentifier text ∧ text.any isHigh = false)
      (and_congr_right' (List.any_eq_false.trans (by simp)))
  | number text => decidable_of_iff (text ≠ [] ∧ text.all isDigit = true)
      (and_congr_right' List.all_eq_true)
  | symbol _ => .isTrue trivial

end Word

/-- A logical line, and the number of blocks that it is in. -/
structure LogicalLine where
  depth : Nat
  words : List Word
  nonempty : words ≠ []
  plain : ∀ word ∈ words, word.IsPlain
  nested : Nested (bracketTokens (words.map Word.token))

namespace LogicalLine

/-- The words with single spaces between them. -/
def spell (words : List Word) : Text := [space].intercalate (words.map Word.text)

/-- A physical line with the words, indented by four spaces for each block. -/
def text (line : LogicalLine) : Text :=
  List.replicate (4 * line.depth) space ++ spell line.words ++ [newline]

/-- The words, and the end of the line. -/
def lexemes (line : LogicalLine) : List Lexeme := line.words.map Word.lexeme ++ [.newline]

end LogicalLine

/-- Logical lines.  The first is in no block, and each is deeper than the
    one before by one block at most. -/
structure Layout where
  lines : List LogicalLine
  start : ∀ line ∈ lines.head?, line.depth = 0
  steps : lines.IsChain fun line next => next.depth ≤ line.depth + 1

/-- What leads from a line to one at another depth: an indent, or as many
    dedents as blocks end. -/
def marginLexemes (depth next : Nat) : List Lexeme :=
  if depth < next then [.indent] else List.replicate (depth - next) .dedent

/-- The lexemes of lines behind one at a depth.  At the end, all blocks
    end. -/
def lexemesBehind (depth : Nat) : List LogicalLine → List Lexeme
  | [] => marginLexemes depth 0 ++ [.endMarker]
  | line :: lines => marginLexemes depth line.depth ++ line.lexemes ++ lexemesBehind line.depth lines

namespace Layout

def text (layout : Layout) : Text := layout.lines.flatMap LogicalLine.text

def lexemes (layout : Layout) : List Lexeme := lexemesBehind 0 layout.lines

end Layout

/-! ## Section 2: Words by their bytes -/

/-- A byte of ASCII at which a line has code. -/
def Byte.startsCode (b : UInt8) : Bool :=
  !isBlank b && b != hash && b != newline && b != backslash && !isHigh b

/-- A byte that stands behind a word. -/
def Byte.endsWord (b : UInt8) : Bool := b == space || b == newline

theorem Byte.endsWord_cases {b : UInt8} (h : endsWord b = true) : b = space ∨ b = newline := by
  simpa [endsWord] using h

/-- The bytes of a class start code, if no other byte is in it. -/
theorem Byte.startsCode_of_class {p : UInt8 → Bool} {b : UInt8} (hb : p b = true)
    (hother : [space, tab, formFeed, hash, newline, backslash].any p = false)
    (hascii : isHigh b = false) : startsCode b = true := by
  have hne : ∀ c ∈ [space, tab, formFeed, hash, newline, backslash], b ≠ c := by
    rintro c hc rfl
    exact List.any_eq_false.mp hother b hc hb
  simp only [List.forall_mem_cons] at hne
  simp [startsCode, isBlank, hascii, hne]

theorem Byte.not_isNameStart_of_isDigit {b : UInt8} (h : isDigit b = true) :
    isNameStart b = false := by
  have hunderscore : b ≠ underscore := by
    rintro rfl
    cases h
  simp only [isDigit, Bool.and_eq_true, decide_eq_true_eq, UInt8.le_iff_toNat_le] at h
  have hhigh : b.toNat ≤ 0x39 := h.2
  simp only [isNameStart, isLetter, isUpper, isLower, isHigh, Bool.or_eq_false_iff,
    Bool.and_eq_false_iff, decide_eq_false_iff_not, UInt8.le_iff_toNat_le, beq_eq_false_iff_ne]
  have hupper : (0x41 : UInt8).toNat = 0x41 := rfl
  have hlower : (0x61 : UInt8).toNat = 0x61 := rfl
  have hascii : (0x80 : UInt8).toNat = 0x80 := rfl
  exact ⟨⟨⟨.inl (by omega), .inl (by omega)⟩, hunderscore⟩, by omega⟩

theorem Symbol.exists_front (sign : Symbol) : ∃ b more, sign.text = b :: more ∧
    startsCode b = true ∧ isNameStart b = false ∧ isQuote b = false := by
  cases sign with
  | opening bracket => cases bracket <;> exact ⟨_, _, rfl, rfl, rfl, rfl⟩
  | closing bracket => cases bracket <;> exact ⟨_, _, rfl, rfl, rfl, rfl⟩
  | _ => exact ⟨_, _, rfl, rfl, rfl, rfl⟩

/-- No word is empty, and none starts with anything but code. -/
theorem Word.IsPlain.exists_front {word : Word} (h : word.IsPlain) :
    ∃ b more, word.text = b :: more ∧ startsCode b = true := by
  cases word with
  | name text =>
    obtain ⟨⟨⟨b, more, rfl, hb⟩, _⟩, hascii⟩ := h
    exact ⟨b, more, rfl, startsCode_of_class hb rfl (hascii b List.mem_cons_self)⟩
  | number text =>
    obtain ⟨hne, hdigits⟩ := h
    obtain ⟨b, more, rfl⟩ := List.exists_cons_of_ne_nil hne
    have hb := hdigits b List.mem_cons_self
    have hascii := not_isNameStart_of_isDigit hb
    simp only [isNameStart, Bool.or_eq_false_iff] at hascii
    exact ⟨b, more, rfl, startsCode_of_class hb rfl hascii.2⟩
  | symbol sign =>
    obtain ⟨b, more, htext, hb, _⟩ := sign.exists_front
    exact ⟨b, more, htext, hb⟩

/-- So a line that is spelled out starts with code. -/
theorem LogicalLine.exists_front (line : LogicalLine) :
    ∃ b more, spell line.words = b :: more ∧ startsCode b = true := by
  obtain ⟨word, words, hwords⟩ := List.exists_cons_of_ne_nil line.nonempty
  obtain ⟨b, more, htext, hb⟩ := (line.plain word (by simp [hwords])).exists_front
  rw [hwords]
  unfold spell
  cases words with
  | nil => exact ⟨b, more, by simp [htext], hb⟩
  | cons next words =>
    rw [List.map_cons, List.map_cons, List.intercalate_cons_cons, htext]
    exact ⟨b, _, rfl, hb⟩

/-! ## Section 3: Where words end -/

/-- The longest symbol in front of a byte that is in none is the whole
    symbol. -/
theorem Symbol.leading?_append {after : Text} {b : UInt8} (sign : Symbol) (hb : endsWord b = true) :
    leading? (sign.text ++ b :: after) = some sign := by
  have hparts : parts b = true := by
    rcases endsWord_cases hb with rfl | rfl <;> rfl
  have hsame : leading? (sign.text ++ b :: after) = leading? sign.text :=
    leading?_parted ⟨b, after, rfl, hparts⟩
  rw [hsame]
  cases sign with
  | opening bracket => cases bracket <;> rfl
  | closing bracket => cases bracket <;> rfl
  | _ => rfl

/-- No number starts where a symbol does. -/
theorem Symbol.not_startsAt {after : Text} {b : UInt8} (sign : Symbol) (hb : endsWord b = true) :
    NumberLiteral.startsAt (sign.text ++ b :: after) = false := by
  rcases endsWord_cases hb with rfl | rfl
  all_goals
    cases sign with
    | opening bracket => cases bracket <;> rfl
    | closing bracket => cases bracket <;> rfl
    | _ => rfl

/-! ## Section 4: Rounds in a line -/

namespace Scan

variable {s : Scan} {rest after : Text} {b : UInt8} {levels : List Nat}
  {stack stack' : List OpenBracket} {lexemes : List Lexeme}

/-- A scan in a logical line, by what it still has to read and what it has
    made of the rest.  Only the kinds of its brackets are told, and no
    positions. -/
structure Inside (s : Scan) (rest : Text) (levels : List Nat) (stack : List OpenBracket)
    (lexemes : List Lexeme) : Prop where
  rest : s.rest = rest
  started : s.atLineStart = false
  levels : s.levels = levels
  brackets : s.brackets.map (·.bracket) = stack.map (·.bracket)
  lexemes : s.tokens.map (·.lexeme) = lexemes

/-- A name is read up to the end of the word. -/
theorem piece_name {name : Text} (hname : IsIdentifier name) (hascii : ∀ c ∈ name, isHigh c = false)
    (hb : endsWord b = true) (hrest : s.rest = name ++ b :: after) :
    ∃ c more, s.rest = c :: more ∧
      s.piece c more = .ok ((s.emit (.ofWord name)).skip name.length) := by
  have hother : ∀ c ∈ (b :: after).head?, isNameByte c = false := by
    intro c hc
    obtain rfl := Option.some.inj hc
    rcases endsWord_cases hb with rfl | rfl <;> rfl
  obtain ⟨htake, _⟩ := Text.longest_append hname.2 hother
  obtain ⟨⟨c, more, rfl, hc⟩, _⟩ := hname
  have hcode := startsCode_of_class hc rfl (hascii c List.mem_cons_self)
  simp only [startsCode, Bool.and_eq_true, Bool.not_eq_true', bne_iff_ne] at hcode
  refine ⟨c, more ++ b :: after, hrest, ?_⟩
  have hword : s.word = .ok ((s.emit (.ofWord (c :: more))).skip (c :: more).length) := by
    have hquote : isQuote b = false := by
      rcases endsWord_cases hb with rfl | rfl <;> rfl
    unfold word
    dsimp only
    rw [hrest, htake, List.drop_left]
    simp [hquote]
  unfold piece
  simp [hcode, hc, hword]

/-- So is a number. -/
theorem piece_number {digits : Text} (hne : digits ≠ []) (hdigits : ∀ c ∈ digits, isDigit c = true)
    (hb : endsWord b = true) (hrest : s.rest = digits ++ b :: after) :
    ∃ c more, s.rest = c :: more ∧
      s.piece c more = .ok ((s.emit (.number digits)).skip digits.length) := by
  have hnumeral : NumberLiteral.IsDigits digits := by
    obtain ⟨c, more, rfl⟩ := List.exists_cons_of_ne_nil hne
    obtain ⟨hc, hmore⟩ := List.forall_mem_cons.mp hdigits
    exact .intro hc (.of_forall hmore)
  have hreadable : NumberLiteral.Readable (NumberLiteral.isHexadecimal digits) digits :=
    hnumeral.readable
  have hends : NumberLiteral.EndsNumber (b :: after) := by
    intro c hc
    obtain rfl := Option.some.inj hc
    rcases endsWord_cases hb with rfl | rfl <;> rfl
  exact piece_numeral hrest hnumeral.startsAt hreadable hends

/-- A symbol is read whole, behind the bracket that it opens or closes. -/
theorem piece_symbol {sign : Symbol} {tracked : Scan} (hb : endsWord b = true)
    (hrest : s.rest = sign.text ++ b :: after) (htracked : s.trackBrackets sign = .ok tracked) :
    ∃ c more, s.rest = c :: more ∧
      s.piece c more = .ok ((tracked.emit (.symbol sign)).skip sign.text.length) := by
  have hstarts : NumberLiteral.startsAt s.rest = false := by
    rw [hrest]
    exact sign.not_startsAt hb
  have hleading : Symbol.leading? s.rest = some sign := by
    rw [hrest]
    exact sign.leading?_append hb
  obtain ⟨c, more, htext, hcode, hname, hquote⟩ := sign.exists_front
  simp only [startsCode, Bool.and_eq_true, Bool.not_eq_true', bne_iff_ne] at hcode
  refine ⟨c, more ++ b :: after, by rw [hrest, htext, List.cons_append], ?_⟩
  have hsymbol : s.symbol c = .ok ((tracked.emit (.symbol sign)).skip sign.text.length) := by
    unfold Scan.symbol
    simp [hleading, htracked, bind, Except.bind]
  unfold piece
  simp [hcode, hname, hquote, hstarts, hsymbol]

/-- The brackets of a scan keep their kinds in step with those that are
    open in any other place. -/
theorem trackBrackets_of_openBehind {sign : Symbol} {p : Position}
    (hopen : openBehind stack ⟨.symbol sign, p⟩ = some stack')
    (hbrackets : s.brackets.map (·.bracket) = stack.map (·.bracket)) :
    ∃ brackets, s.trackBrackets sign = .ok { s with brackets := brackets } ∧
      brackets.map (·.bracket) = stack'.map (·.bracket) := by
  unfold openBehind at hopen
  unfold trackBrackets
  cases sign with
  | opening bracket =>
    obtain rfl := Option.some.inj hopen
    exact ⟨_, rfl, by simp [hbrackets]⟩
  | closing bracket =>
    cases stack with
    | nil => cases hopen
    | cons innermost others =>
      obtain ⟨first, more, hfirst, hkind, hmore⟩ := List.map_eq_cons_iff.mp hbrackets
      dsimp only at hopen ⊢
      split at hopen
      case isTrue hsame =>
        obtain rfl := Option.some.inj hopen
        rw [hfirst]
        refine ⟨more, ?_, hmore⟩
        dsimp only
        rw [if_pos (hkind.trans hsame)]
      case isFalse => cases hopen
  | _ =>
    obtain rfl := Option.some.inj hopen
    exact ⟨s.brackets, rfl, hbrackets⟩

namespace Inside

/-- What a round that reads a word leaves, if it tracks the brackets. -/
theorem emit {text : Text} {lexeme : Lexeme} {brackets : List OpenBracket} {c : UInt8} {more : Text}
    (h : Inside s (text ++ b :: after) levels stack lexemes) (hrest : s.rest = c :: more)
    (hbrackets : brackets.map (·.bracket) = stack'.map (·.bracket))
    (hpiece : s.piece c more =
      .ok ((({ s with brackets := brackets } : Scan).emit lexeme).skip text.length)) :
    ∃ s', Inside s' (b :: after) levels stack' (lexeme :: lexemes) ∧
      outcome .entered s = outcome .entered s' := by
  refine ⟨(({ s with brackets := brackets } : Scan).emit lexeme).skip text.length,
    ⟨?_, h.started, h.levels, hbrackets, ?_⟩,
    (outcome_of_piece hrest hpiece).trans (outcome_of_started h.started)⟩
  · show s.rest.drop text.length = b :: after
    rw [h.rest, List.drop_left]
  · show lexeme :: s.tokens.map (·.lexeme) = lexeme :: lexemes
    rw [h.lexemes]

/-- A word is read in one round, with the token that it is. -/
theorem word {word : Word} (h : Inside s (word.text ++ b :: after) levels stack lexemes)
    (hplain : word.IsPlain) (hb : endsWord b = true)
    (hopen : openBehind stack word.token = some stack') :
    ∃ s', Inside s' (b :: after) levels stack' (word.lexeme :: lexemes) ∧
      outcome .entered s = outcome .entered s' := by
  -- Brackets are the only words that change the stack.
  have hsame : ∀ l : Lexeme, word.lexeme = l → l.isBracket = false →
      s.brackets.map (·.bracket) = stack'.map (·.bracket) := by
    intro l hl hbracket
    subst hl
    have hkept : openBehind stack word.token = some stack := openBehind_of_not_bracket hbracket
    rw [hkept] at hopen
    obtain rfl := Option.some.inj hopen
    exact h.brackets
  cases word with
  | name name =>
    obtain ⟨c, more, hrest, hpiece⟩ := piece_name hplain.1 hplain.2 hb h.rest
    refine h.emit hrest (hsame (.ofWord name) rfl ?_) hpiece
    unfold Lexeme.ofWord
    split <;> rfl
  | number digits =>
    obtain ⟨c, more, hrest, hpiece⟩ := piece_number hplain.1 hplain.2 hb h.rest
    exact h.emit hrest (hsame (.number digits) rfl rfl) hpiece
  | symbol sign =>
    obtain ⟨brackets, htracked, hbrackets⟩ := trackBrackets_of_openBehind hopen h.brackets
    obtain ⟨c, more, hrest, hpiece⟩ := piece_symbol hb h.rest htracked
    exact h.emit hrest hbrackets hpiece

/-- A space is read over. -/
theorem space (h : Inside s (Byte.space :: after) levels stack lexemes) :
    ∃ s', Inside s' after levels stack lexemes ∧ outcome .entered s = outcome .entered s' := by
  have hpiece : s.piece Byte.space after = .ok (s.skip 1) := rfl
  refine ⟨s.skip 1, ⟨?_, h.started, h.levels, h.brackets, h.lexemes⟩,
    (outcome_of_piece h.rest hpiece).trans (outcome_of_started h.started)⟩
  show s.rest.drop 1 = after
  rw [h.rest]
  rfl

/-- The words of a line are read one after the other. -/
theorem words {words : List Word} (hplain : ∀ word ∈ words, word.IsPlain)
    (h : Inside s (LogicalLine.spell words ++ newline :: after) levels stack lexemes)
    (hopen : openAfter stack (words.map Word.token) = some stack') :
    ∃ s', Inside s' (newline :: after) levels stack' ((words.map Word.lexeme).reverse ++ lexemes) ∧
      outcome .entered s = outcome .entered s' := by
  induction words generalizing s stack lexemes with
  | nil =>
    obtain rfl := Option.some.inj hopen
    exact ⟨s, h, rfl⟩
  | cons word words ih =>
    obtain ⟨hword, hwords⟩ := List.forall_mem_cons.mp hplain
    obtain ⟨between, hfirst, hothers⟩ := Option.bind_eq_some_iff.mp hopen
    -- What follows the word is the end of the line, or a space and the other words.
    obtain ⟨s', hinside, houtcome⟩ :
        ∃ s', Inside s' (LogicalLine.spell words ++ newline :: after) levels between
          (word.lexeme :: lexemes) ∧ outcome .entered s = outcome .entered s' := by
      cases words with
      | nil =>
        have hspell : LogicalLine.spell [word] = word.text := by
          simp [LogicalLine.spell]
        rw [hspell] at h
        exact h.word hword rfl hfirst
      | cons next words =>
        have hspell : LogicalLine.spell (word :: next :: words) ++ newline :: after =
            word.text ++ Byte.space :: (LogicalLine.spell (next :: words) ++ newline :: after) := by
          unfold LogicalLine.spell
          rw [List.map_cons, List.map_cons, List.intercalate_cons_cons]
          simp
        rw [hspell] at h
        obtain ⟨s₁, hinside₁, houtcome₁⟩ := h.word hword rfl hfirst
        obtain ⟨s₂, hinside₂, houtcome₂⟩ := hinside₁.space
        exact ⟨s₂, hinside₂, houtcome₁.trans houtcome₂⟩
    obtain ⟨s'', hinside', houtcome'⟩ := ih hwords hinside hothers
    refine ⟨s'', ?_, houtcome.trans houtcome'⟩
    simpa using hinside'

end Inside

/-! ## Section 5: Rounds over lines -/

/-- The levels of a line that is in so many blocks. -/
def levelsAt : Nat → List Nat
  | 0 => [0]
  | depth + 1 => 4 * (depth + 1) :: levelsAt depth

theorem length_levelsAt (depth : Nat) : (levelsAt depth).length = depth + 1 := by
  induction depth with
  | zero => rfl
  | succ depth ih => rw [levelsAt, List.length_cons, ih]

theorem headD_levelsAt (depth : Nat) : (levelsAt depth).headD 0 = 4 * depth := by
  cases depth <;> rfl

/-- As many levels are closed as blocks end, and those of the line are left. -/
theorem closes_levelsAt {depth next : Nat} (h : next ≤ depth) :
    ((levelsAt depth).takeWhile (4 * next < ·)).length = depth - next ∧
      (levelsAt depth).dropWhile (4 * next < ·) = levelsAt next := by
  induction depth with
  | zero =>
    obtain rfl : next = 0 := Nat.le_zero.mp h
    exact ⟨rfl, rfl⟩
  | succ depth ih =>
    rw [levelsAt, List.takeWhile_cons, List.dropWhile_cons]
    by_cases hnext : next = depth + 1
    · subst hnext
      have hkept : ¬ decide (4 * (depth + 1) < 4 * (depth + 1)) = true := by simp
      rw [if_neg hkept, if_neg hkept, Nat.sub_self]
      exact ⟨rfl, rfl⟩
    · have hclosed : decide (4 * next < 4 * (depth + 1)) = true := by
        simp only [decide_eq_true_eq]
        omega
      obtain ⟨hcount, hleft⟩ := ih (by omega)
      rw [if_pos hclosed, if_pos hclosed, List.length_cons, hcount]
      exact ⟨by omega, hleft⟩

/-- The levels are settled for the next line, by the lexemes of its margin. -/
theorem settle_levelsAt {depth next : Nat} (hlevels : s.levels = levelsAt depth)
    (hnext : next ≤ depth + 1) :
    ∃ tokens, s.settle (4 * next) = .ok { s with levels := levelsAt next, tokens := tokens } ∧
      tokens.map (·.lexeme) = marginLexemes depth next ++ s.tokens.map (·.lexeme) := by
  have hlevel : s.level = 4 * depth := by
    rw [level, hlevels, headD_levelsAt]
  unfold settle
  rw [hlevel]
  by_cases hdeeper : depth < next
  · obtain rfl : next = depth + 1 := by omega
    rw [if_pos (by omega)]
    refine ⟨⟨.indent, s.position⟩ :: s.tokens, ?_, ?_⟩
    · rw [hlevels]
      rfl
    · rw [marginLexemes, if_pos hdeeper]
      rfl
  · obtain ⟨hcount, hleft⟩ := closes_levelsAt (Nat.le_of_not_lt hdeeper)
    rw [if_neg (by omega)]
    dsimp only
    rw [hlevels, hcount, hleft, level, headD_levelsAt, if_pos rfl]
    refine ⟨_, rfl, ?_⟩
    rw [marginLexemes, if_neg hdeeper, List.map_append, List.map_replicate]

theorem indentWidth_replicate (n : Nat) : indentWidth (List.replicate n Byte.space) = n := by
  have hfold : ∀ column, (List.replicate n Byte.space).foldl columnAfter column = column + n := by
    induction n with
    | zero => exact fun _ => rfl
    | succ n ih =>
      intro column
      rw [List.replicate_succ, List.foldl_cons, ih]
      show column + 1 + n = column + (n + 1)
      omega
  rw [indentWidth, hfold, Nat.zero_add]

/-- A scan where a line may start, behind one at a depth. -/
structure AtLine (s : Scan) (rest : Text) (depth : Nat) (lexemes : List Lexeme) : Prop where
  rest : s.rest = rest
  start : s.atLineStart = true
  levels : s.levels = levelsAt depth
  brackets : s.brackets = []
  lexemes : s.tokens.map (·.lexeme) = lexemes
  ended : s.isLineEnded = true

namespace AtLine

variable {depth next : Nat}

/-- No bracket goes on, so the line is a logical line's first. -/
theorem begins (h : AtLine s rest depth lexemes) :
    (s.atLineStart && s.brackets.isEmpty) = true := by
  rw [h.start, h.brackets]
  rfl

/-- The indentation of a line is read where its code starts. -/
theorem enter (h : AtLine s (List.replicate (4 * next) Byte.space ++ b :: after) depth lexemes)
    (hb : startsCode b = true) (hnext : next ≤ depth + 1) :
    ∃ s', Inside s' (b :: after) (levelsAt next) [] (marginLexemes depth next ++ lexemes) ∧
      outcome .fresh s = outcome .entered s' := by
  simp only [startsCode, Bool.and_eq_true, Bool.not_eq_true', bne_iff_ne] at hb
  obtain ⟨⟨⟨⟨hblank, hhash⟩, hfeed⟩, _⟩, _⟩ := hb
  have hspaces : ∀ c ∈ List.replicate (4 * next) Byte.space, isBlank c = true := by
    intro c hc
    rw [List.eq_of_mem_replicate hc]
    rfl
  have hcode : ∀ c ∈ (b :: after).head?, isBlank c = false := by
    intro c hc
    obtain rfl := Option.some.inj hc
    exact hblank
  obtain ⟨htake, _⟩ := Text.longest_append hspaces hcode
  rw [← h.rest] at htake
  let s₁ : Scan := { s.skip (4 * next) with atLineStart := false }
  have hrest : (s.skip (4 * next)).rest = b :: after := by
    show s.rest.drop (4 * next) = b :: after
    rw [h.rest, List.drop_left' (List.length_replicate)]
  obtain ⟨tokens, hsettle, htokens⟩ := @settle_levelsAt s₁ _ _ h.levels hnext
  have henter : s.enterLine = .ok { s₁ with levels := levelsAt next, tokens := tokens } := by
    unfold enterLine
    rw [if_pos h.begins]
    unfold indentation
    rw [htake]
    dsimp only
    rw [List.length_replicate, indentWidth_replicate, hrest]
    dsimp only
    rw [if_neg (by simp [hhash, hfeed]), ← hrest]
    exact hsettle
  refine ⟨{ s₁ with levels := levelsAt next, tokens := tokens },
    ⟨hrest, rfl, rfl, ?_, ?_⟩, outcome_of_enter henter⟩
  · show s.brackets.map (·.bracket) = [].map (fun opened : OpenBracket => opened.bracket)
    rw [h.brackets]
  · rw [htokens, ← h.lexemes]
    rfl

end AtLine

/-- The line feed ends the line. -/
theorem Inside.newline {depth : Nat}
    (h : Inside s (Byte.newline :: after) (levelsAt depth) [] lexemes) :
    ∃ s', AtLine s' after depth (.newline :: lexemes) ∧ outcome .entered s = outcome .fresh s' := by
  have hbrackets : s.brackets = [] := List.map_eq_nil_iff.mp h.brackets
  let ended : Scan := { (s.emit .newline).skip 1 with atLineStart := true }
  have hpiece : s.piece Byte.newline after = .ok ended := by
    have hfeed : s.piece Byte.newline after = .ok s.lineFeed := rfl
    rw [hfeed]
    unfold lineFeed
    rw [if_pos hbrackets, h.started]
    rfl
  refine ⟨ended, ⟨?_, rfl, h.levels, hbrackets, ?_, rfl⟩, outcome_of_piece h.rest hpiece⟩
  · show s.rest.drop 1 = after
    rw [h.rest]
    rfl
  · show Lexeme.newline :: s.tokens.map (·.lexeme) = .newline :: lexemes
    rw [h.lexemes]

namespace AtLine

variable {depth : Nat}

/-- A logical line is read to its end. -/
theorem line {line : LogicalLine} (h : AtLine s (line.text ++ after) depth lexemes)
    (hdepth : line.depth ≤ depth + 1) :
    ∃ s', AtLine s' after line.depth
        (line.lexemes.reverse ++ (marginLexemes depth line.depth ++ lexemes)) ∧
      outcome .fresh s = outcome .fresh s' := by
  obtain ⟨b, more, hspell, hb⟩ := line.exists_front
  have htext : line.text ++ after = List.replicate (4 * line.depth) Byte.space ++
      (LogicalLine.spell line.words ++ Byte.newline :: after) := by
    simp [LogicalLine.text]
  rw [htext, hspell, List.cons_append] at h
  obtain ⟨s₁, hinside₁, houtcome₁⟩ := h.enter hb hdepth
  rw [← List.cons_append, ← hspell] at hinside₁
  have hopen := nested_bracketTokens_iff.mp line.nested
  obtain ⟨s₂, hinside₂, houtcome₂⟩ := hinside₁.words line.plain hopen
  obtain ⟨s₃, hline, houtcome₃⟩ := hinside₂.newline
  refine ⟨s₃, ?_, houtcome₁.trans (houtcome₂.trans houtcome₃)⟩
  simpa [LogicalLine.lexemes] using hline

/-- Where nothing is left, all blocks end. -/
theorem finish (h : AtLine s [] depth lexemes) :
    ∃ tokens, (outcome .fresh s).bind Scan.finish = .ok tokens ∧
      tokens.map (·.lexeme) = lexemes.reverse ++ (marginLexemes depth 0 ++ [.endMarker]) := by
  have henter : s.enterLine = .ok (s.skip 0) := by
    unfold enterLine
    rw [if_pos h.begins]
    unfold indentation
    rw [h.rest]
    simp [skip, h.rest]
  have hrest : (s.skip 0).rest = [] := h.rest
  rw [outcome_of_enter henter, outcome_of_nil hrest]
  have hbrackets : (s.skip 0).brackets = [] := h.brackets
  have hended : (s.skip 0).isLineEnded = true := h.ended
  have hlevels : (s.skip 0).levels = levelsAt depth := h.levels
  show ∃ tokens, (s.skip 0).finish = .ok tokens ∧ _
  unfold Scan.finish
  rw [hbrackets]
  dsimp only
  rw [if_pos hended, hlevels, length_levelsAt]
  refine ⟨_, rfl, ?_⟩
  have htokens : (s.skip 0).tokens.map (·.lexeme) = lexemes := h.lexemes
  simp [marginLexemes, htokens]

/-- The lines are read one after the other. -/
theorem lines {lines : List LogicalLine}
    (h : AtLine s (lines.flatMap LogicalLine.text) depth lexemes)
    (hfirst : ∀ line ∈ lines.head?, line.depth ≤ depth + 1)
    (hsteps : lines.IsChain fun line next => next.depth ≤ line.depth + 1) :
    ∃ tokens, (outcome .fresh s).bind Scan.finish = .ok tokens ∧
      tokens.map (·.lexeme) = lexemes.reverse ++ lexemesBehind depth lines := by
  induction lines generalizing s depth lexemes with
  | nil => exact h.finish
  | cons line lines ih =>
    obtain ⟨hnext, hothers⟩ := List.isChain_cons.mp hsteps
    rw [List.flatMap_cons] at h
    obtain ⟨s', hline, houtcome⟩ := h.line (hfirst line rfl)
    obtain ⟨tokens, hfinish, htokens⟩ := ih hline hnext hothers
    refine ⟨tokens, houtcome ▸ hfinish, ?_⟩
    have hmargin : (marginLexemes depth line.depth).reverse = marginLexemes depth line.depth := by
      unfold marginLexemes
      split
      · rfl
      · exact List.reverse_replicate
    rw [htokens, lexemesBehind]
    simp [hmargin]

end AtLine

end Scan

/-! ## Section 6: The tokens of a layout -/

/-- No layout starts with a byte order mark: it has ASCII at its front. -/
theorem Layout.ofSource_text (layout : Layout) :
    (Scan.ofSource layout.text).rest = layout.text := by
  have hbare : ¬ Scan.byteOrderMark.isPrefixOf layout.text = true := by
    unfold Layout.text
    cases hlines : layout.lines with
    | nil => exact Bool.false_ne_true
    | cons line lines =>
      have hdepth : line.depth = 0 := layout.start line (by rw [hlines]; rfl)
      obtain ⟨b, more, hspell, hb⟩ := line.exists_front
      have hmark : b ≠ 0xEF := by
        rintro rfl
        cases hb
      simp [LogicalLine.text, hdepth, hspell, Scan.byteOrderMark, List.isPrefixOf, Ne.symm hmark]
  unfold Scan.ofSource
  exact if_neg hbare

/-- **Layouts are read back**: the text of a layout is accepted, and its
    tokens are the words of the lines, each line with its end, and between
    the lines the indents and dedents that their depths ask for.  Nothing
    else is read from the spaces that part the words, and the end of the
    source ends all blocks. -/
theorem tokenize_layout (layout : Layout) :
    ∃ tokens, tokenize layout.text = .ok tokens ∧ tokens.map (·.lexeme) = layout.lexemes := by
  have hstart : Scan.AtLine (Scan.ofSource layout.text) layout.text 0 [] :=
    ⟨layout.ofSource_text, rfl, rfl, rfl, rfl, rfl⟩
  have hfirst : ∀ line ∈ layout.lines.head?, line.depth ≤ 0 + 1 := by
    intro line hline
    rw [layout.start line hline]
    exact Nat.zero_le _
  rw [Scan.tokenize_eq]
  exact hstart.lines hfirst layout.steps

/-- A header, and the block behind it. -/
theorem lexemes_of_indented_suite :
    ∃ tokens, tokenize (ascii "if x :\n    y [ 0 ]\n") = .ok tokens ∧
      tokens.map (·.lexeme) = [.keyword .if_, .name (ascii "x"), .symbol .colon, .newline,
        .indent, .name (ascii "y"), .symbol (.opening .square), .number (ascii "0"),
        .symbol (.closing .square), .newline, .dedent, .endMarker] := by
  let header : LogicalLine :=
    { depth := 0
      words := [.name (ascii "if"), .name (ascii "x"), .symbol .colon]
      nonempty := by simp
      plain := by decide
      nested := nested_bracketTokens_iff.mpr rfl }
  let body : LogicalLine :=
    { depth := 1
      words := [.name (ascii "y"), .symbol (.opening .square), .number (ascii "0"),
        .symbol (.closing .square)]
      nonempty := by simp
      plain := by decide
      nested := nested_bracketTokens_iff.mpr rfl }
  exact tokenize_layout
    { lines := [header, body], start := by simp [header], steps := by simp [header, body] }

end StyleCheck
