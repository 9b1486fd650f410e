import Mathlib.Data.List.Chain
import StyleCheck.Proofs.Scan.Lookahead
import StyleCheck.Proofs.Scan.Outcome
import StyleCheck.Proofs.Scan.Span

/-! # Numeric Literals

    The numbers of the language have a grammar: integers in four bases with
    underscores between their digits, decimal fractions with exponents, and
    imaginary numbers.  The scanner knows none of it.  It goes on as long as
    there are letters, digits, underscores and dots, and takes in a sign
    behind an `e` unless the number is hexadecimal.

    * `IsNumeric`: the grammar of numeric literals.
    * `Readable`: all that the scanner has to see of a text in order to read
      over it.  There is a rule for each way to put texts together.
    * `IsNumeric.readable`: literals are readable, by induction on them.
    * `Readable.length_append`: what is readable is read whole.
    * `numericLiterals_whole`: literals at any place of a source.
-/

namespace StyleCheck

open Byte

namespace NumberLiteral

/-! ## Section 1: The grammar -/

/-- The bases that a letter behind a zero stands for. -/
inductive Base where
  | binary
  | octal
  | hexadecimal
  deriving DecidableEq, Repr

namespace Base

/-- The letter in lower case. -/
def letter : Base → UInt8
  | binary => 0x62
  | octal => 0x6F
  | hexadecimal => 0x78

def isDigit : Base → UInt8 → Bool
  | binary, b => b == 0x30 || b == 0x31
  | octal, b => 0x30 ≤ b && b ≤ 0x37
  | hexadecimal, b => Byte.isDigit b || (0x61 ≤ toLower b && toLower b ≤ 0x66)

end Base

/-- Digits behind other digits.  An underscore may stand in front of each. -/
inductive MoreDigits (isDigit : UInt8 → Bool) : Text → Prop where
  | nil : MoreDigits isDigit []
  | digit {b : UInt8} {w : Text} (hb : isDigit b = true) (hw : MoreDigits isDigit w) :
      MoreDigits isDigit (b :: w)
  | grouped {b : UInt8} {w : Text} (hb : isDigit b = true) (hw : MoreDigits isDigit w) :
      MoreDigits isDigit (underscore :: b :: w)

/-- A decimal digit, and more of them. -/
inductive IsDigits : Text → Prop where
  | intro {b : UInt8} {w : Text} (hb : isDigit b = true) (hw : MoreDigits isDigit w) :
      IsDigits (b :: w)

/-- Decimal digits with a dot, on at least one of its sides. -/
inductive IsPointed : Text → Prop where
  | fraction {f : Text} (hf : IsDigits f) : IsPointed (dot :: f)
  | whole {w : Text} (hw : IsDigits w) : IsPointed (w ++ [dot])
  | both {w f : Text} (hw : IsDigits w) (hf : IsDigits f) : IsPointed (w ++ dot :: f)

/-- An exponent of ten, with a sign or without. -/
inductive IsExponent : Text → Prop where
  | plain {e : UInt8} {d : Text} (he : toLower e = 0x65) (hd : IsDigits d) : IsExponent (e :: d)
  | signed {e sign : UInt8} {d : Text} (he : toLower e = 0x65)
      (hsign : sign = plus ∨ sign = minus) (hd : IsDigits d) : IsExponent (e :: sign :: d)

/-- A floating-point number has a dot, an exponent, or both. -/
inductive IsFloat : Text → Prop where
  | pointed {w : Text} (hw : IsPointed w) : IsFloat w
  | exponent {w x : Text} (hw : IsDigits w ∨ IsPointed w) (hx : IsExponent x) : IsFloat (w ++ x)

/-- A numeric literal.  A decimal integer does not start with a zero, unless
    it has no other digits. -/
inductive IsNumeric : Text → Prop where
  | decimal {b : UInt8} {w : Text} (hb : isDigit b = true) (hzero : b ≠ zero)
      (hw : MoreDigits isDigit w) : IsNumeric (b :: w)
  | zeros {w : Text} (hw : MoreDigits (· == zero) w) : IsNumeric (zero :: w)
  | based (base : Base) {x : UInt8} {w : Text} (hx : toLower x = base.letter) (hne : w ≠ [])
      (hw : MoreDigits base.isDigit w) : IsNumeric (zero :: x :: w)
  | float {w : Text} (hw : IsFloat w) : IsNumeric w
  | imaginary {j : UInt8} {w : Text} (hw : IsDigits w ∨ IsFloat w) (hj : toLower j = 0x6A) :
      IsNumeric (w ++ [j])

/-! ## Section 2: Bytes of numbers -/

/-- The bytes that a number goes on with, whatever is in front of them. -/
def isPart (b : UInt8) : Bool := isNameByte b || b == dot

theorem goesOn_of_isPart {b : UInt8} (hb : isPart b = true) (hexadecimal : Bool)
    (before : UInt8) : goesOn hexadecimal before b = true := by
  unfold isPart at hb
  unfold goesOn
  rw [hb, Bool.true_or]

theorem toLower_of_isDigit {b : UInt8} (hb : isDigit b = true) : toLower b = b := by
  unfold isDigit at hb
  unfold toLower isUpper
  grind

/-- A digit is a part of a number, and it is neither of the letters that the
    scanner looks for. -/
structure IsDigitByte (hexadecimal : Bool) (b : UInt8) : Prop where
  isName : isNameByte b = true
  ne_e : hexadecimal = false → toLower b ≠ 0x65
  ne_x : toLower b ≠ 0x78

theorem isDigitByte_of_isDigit {b : UInt8} (hb : isDigit b = true) (hexadecimal : Bool) :
    IsDigitByte hexadecimal b := by
  have hlower := toLower_of_isDigit hb
  unfold isDigit at hb
  refine ⟨?_, ?_, ?_⟩
  · unfold isNameByte isDigit
    rw [hb, Bool.or_true]
  · intro _
    rw [hlower]
    grind
  · rw [hlower]
    grind

/-- Only the digits of hexadecimal numbers have an `e` among them. -/
theorem Base.isDigitByte (base : Base) {b : UInt8} (hb : base.isDigit b = true) :
    IsDigitByte (base == .hexadecimal) b := by
  cases base with
  | binary =>
    have hb : b = 0x30 ∨ b = 0x31 := by simpa [Base.isDigit] using hb
    rcases hb with rfl | rfl
    · exact isDigitByte_of_isDigit rfl false
    · exact isDigitByte_of_isDigit rfl false
  | octal =>
    have ⟨hlow, hhigh⟩ : 0x30 ≤ b ∧ b ≤ 0x37 := by simpa [Base.isDigit] using hb
    have hle : b ≤ 0x39 := UInt8.le_trans hhigh (by decide)
    exact isDigitByte_of_isDigit (by simp [Byte.isDigit, hlow, hle]) false
  | hexadecimal =>
    unfold Base.isDigit at hb
    rcases Bool.or_eq_true_iff.mp hb with hdigit | hletter
    · exact isDigitByte_of_isDigit hdigit true
    · refine ⟨?_, nofun, by grind⟩
      apply isNameByte_of_toLower rfl
      unfold isLower
      grind

/-! ## Section 3: Readable texts -/

variable {hexadecimal : Bool} {u v w rest : Text} {b : UInt8}

/-- A number that is read up to the text goes on over all of it; and if it
    is not hexadecimal, the text does not make it so, and has no `e` at its
    end that a sign could follow. -/
structure Readable (hexadecimal : Bool) (w : Text) : Prop where
  front : ∀ b ∈ w.head?, isPart b = true
  chain : w.IsChain fun before b => goesOn hexadecimal before b = true
  ends : hexadecimal = false → ∀ b ∈ w.getLast?, toLower b ≠ 0x65
  noX : hexadecimal = false → ∀ b ∈ w, toLower b ≠ 0x78

namespace Readable

theorem nil : Readable hexadecimal [] where
  front := nofun
  chain := .nil
  ends := nofun
  noX := nofun

theorem single (hb : isPart b = true) (he : hexadecimal = false → toLower b ≠ 0x65)
    (hx : hexadecimal = false → toLower b ≠ 0x78) : Readable hexadecimal [b] where
  front := by simpa using hb
  chain := .singleton b
  ends := by simpa using he
  noX := by simpa using hx

theorem append (hu : Readable hexadecimal u) (hv : Readable hexadecimal v) :
    Readable hexadecimal (u ++ v) where
  front := by
    intro b hb
    cases u with
    | nil => exact hv.front b hb
    | cons c u => exact hu.front b hb
  chain := by
    apply List.isChain_append.mpr
    refine ⟨hu.chain, hv.chain, ?_⟩
    intro before _ b hb
    exact goesOn_of_isPart (hv.front b hb) hexadecimal before
  ends := by
    intro hhex b hb
    rw [List.getLast?_append] at hb
    cases hlast : v.getLast? with
    | none =>
      rw [hlast] at hb
      exact hu.ends hhex b hb
    | some c =>
      rw [hlast] at hb
      exact hv.ends hhex b (hlast.trans hb)
  noX := by
    intro hhex b hb
    rcases List.mem_append.mp hb with hb | hb
    · exact hu.noX hhex b hb
    · exact hv.noX hhex b hb

theorem cons (hb : Readable hexadecimal [b]) (hw : Readable hexadecimal w) :
    Readable hexadecimal (b :: w) :=
  hb.append hw

theorem digit (hb : IsDigitByte hexadecimal b) : Readable hexadecimal [b] := by
  refine single ?_ hb.ne_e (fun _ => hb.ne_x)
  unfold isPart
  rw [hb.isName, Bool.true_or]

theorem dot : Readable hexadecimal [dot] :=
  single rfl (fun _ => by decide) (fun _ => by decide)

/-- A letter is a part of a number, if it is neither `e` nor `x`. -/
theorem letter {c : UInt8} (hb : toLower b = c) (hc : isLower c = true) (he : c ≠ 0x65)
    (hx : c ≠ 0x78) : Readable hexadecimal [b] := by
  refine single ?_ (fun _ => hb ▸ he) (fun _ => hb ▸ hx)
  unfold isPart
  rw [isNameByte_of_toLower hb hc, Bool.true_or]

/-- An `e` with something readable behind it, or a sign and something
    readable. -/
theorem behind_e {e : UInt8} (he : toLower e = 0x65) (hne : w ≠ [])
    (hgoesOn : ∀ b ∈ w.head?, goesOn false e b = true)
    (hchain : w.IsChain fun before b => goesOn false before b = true)
    (hends : ∀ b ∈ w.getLast?, toLower b ≠ 0x65) (hnoX : ∀ b ∈ w, toLower b ≠ 0x78) :
    Readable false (e :: w) where
  front := by
    intro b hb
    obtain rfl := Option.some.inj hb
    unfold isPart
    rw [isNameByte_of_toLower he rfl, Bool.true_or]
  chain := List.isChain_cons.mpr ⟨hgoesOn, hchain⟩
  ends := by
    intro _ b hb
    rw [List.getLast?_cons_of_ne_nil hne] at hb
    exact hends b hb
  noX := by
    intro _ b hb
    rcases List.mem_cons.mp hb with rfl | hb
    · rw [he]
      decide
    · exact hnoX b hb

end Readable

theorem MoreDigits.readable {isDigit : UInt8 → Bool} (h : MoreDigits isDigit w)
    (hdigit : ∀ b, isDigit b = true → IsDigitByte hexadecimal b) : Readable hexadecimal w := by
  induction h with
  | nil => exact .nil
  | digit hb _ ih => exact (Readable.digit (hdigit _ hb)).cons ih
  | grouped hb _ ih =>
    have hunderscore : Readable hexadecimal [underscore] :=
      .single rfl (fun _ => by decide) (fun _ => by decide)
    exact hunderscore.cons ((Readable.digit (hdigit _ hb)).cons ih)

theorem MoreDigits.of_forall {isDigit : UInt8 → Bool} (h : ∀ b ∈ w, isDigit b = true) :
    MoreDigits isDigit w := by
  induction w with
  | nil => exact .nil
  | cons b w ih =>
    obtain ⟨hb, hw⟩ := List.forall_mem_cons.mp h
    exact .digit hb (ih hw)

theorem IsDigits.readable (h : IsDigits w) : Readable hexadecimal w := by
  cases h with
  | intro hb hw =>
    have hdigit := fun b hb => @isDigitByte_of_isDigit b hb hexadecimal
    exact (Readable.digit (hdigit _ hb)).cons (hw.readable hdigit)

theorem IsPointed.readable (h : IsPointed w) : Readable hexadecimal w := by
  cases h with
  | fraction hf => exact Readable.dot.cons hf.readable
  | whole hw => exact hw.readable.append .dot
  | both hw hf => exact hw.readable.append (Readable.dot.cons hf.readable)

theorem IsDigits.ne_nil (h : IsDigits w) : w ≠ [] := by
  cases h with
  | intro => exact List.cons_ne_nil _ _

/-- The sign of an exponent is read because of the `e` in front of it. -/
theorem IsExponent.readable (h : IsExponent w) : Readable false w := by
  cases h with
  | plain he hd =>
    have hdigits : Readable false _ := hd.readable
    refine .behind_e he hd.ne_nil ?_ hdigits.chain (hdigits.ends rfl) (hdigits.noX rfl)
    intro b hb
    exact goesOn_of_isPart (hdigits.front b hb) false _
  | @signed e sign d he hsign hd =>
    have hdigits : Readable false d := hd.readable
    refine .behind_e he (List.cons_ne_nil _ _) ?_ ?_ ?_ ?_
    · intro b hb
      obtain rfl := Option.some.inj hb
      rcases hsign with rfl | rfl <;> simp [goesOn, he]
    · apply List.isChain_cons.mpr
      refine ⟨?_, hdigits.chain⟩
      intro b hb
      exact goesOn_of_isPart (hdigits.front b hb) false sign
    · rw [List.getLast?_cons_of_ne_nil hd.ne_nil]
      exact hdigits.ends rfl
    · intro b hb
      rcases List.mem_cons.mp hb with rfl | hb
      · rcases hsign with rfl | rfl <;> decide
      · exact hdigits.noX rfl b hb

theorem IsFloat.readable (h : IsFloat w) : Readable false w := by
  cases h with
  | pointed hw => exact hw.readable
  | exponent hw hx =>
    rcases hw with hw | hw
    · exact hw.readable.append hx.readable
    · exact hw.readable.append hx.readable

/-! ## Section 4: Literals -/

/-- A text without an `x` is not taken for a hexadecimal number. -/
theorem Readable.not_isHexadecimal (h : Readable false w) : isHexadecimal w = false := by
  unfold isHexadecimal
  split
  case h_1 b c rest =>
    have hc : toLower c ≠ 0x78 := h.noX rfl c (by simp)
    simp [hc]
  case h_2 => rfl

/-- A literal is readable as a number of its own kind. -/
theorem IsNumeric.readable (h : IsNumeric w) : Readable (isHexadecimal w) w := by
  -- All but the numbers with a base are readable as decimal ones.
  have hplain : ∀ {w : Text}, Readable false w → Readable (isHexadecimal w) w := by
    intro w hw
    rw [hw.not_isHexadecimal]
    exact hw
  cases h with
  | decimal hb _ hw => exact hplain (IsDigits.intro hb hw).readable
  | zeros hw =>
    have hzero : ∀ b, (b == zero) = true → IsDigitByte false b := by
      intro b hb
      obtain rfl := eq_of_beq hb
      exact isDigitByte_of_isDigit rfl false
    exact hplain ((Readable.digit (hzero zero rfl)).cons (hw.readable hzero))
  | @based base x w hx hne hw =>
    have hkind : isHexadecimal (zero :: x :: w) = (base == .hexadecimal) := by
      show (zero == zero && toLower x == 0x78) = _
      rw [hx]
      cases base <;> rfl
    rw [hkind]
    have hletter : Readable (base == .hexadecimal) [x] := by
      cases base with
      | binary => exact .letter hx rfl (by decide) (by decide)
      | octal => exact .letter hx rfl (by decide) (by decide)
      | hexadecimal =>
        refine .single ?_ nofun nofun
        unfold isPart
        rw [isNameByte_of_toLower hx rfl, Bool.true_or]
    have hzero : Readable (base == .hexadecimal) [zero] := .digit (isDigitByte_of_isDigit rfl _)
    exact hzero.cons (hletter.cons (hw.readable fun _ => base.isDigitByte))
  | float hw => exact hplain hw.readable
  | imaginary hw hj =>
    have hletter : Readable false [_] := .letter hj rfl (by decide) (by decide)
    rcases hw with hw | hw
    · exact hplain (hw.readable.append hletter)
    · exact hplain (hw.readable.append hletter)

theorem startsAt_append (h : startsAt u = true) (v : Text) : startsAt (u ++ v) = true := by
  cases u with
  | nil => cases h
  | cons b u =>
    cases u with
    | nil =>
      have hb : isDigit b = true := h
      cases v <;> simp [startsAt, hb]
    | cons c u => exact h

theorem IsDigits.startsAt (h : IsDigits w) : startsAt w = true := by
  cases h with
  | @intro b w hb =>
    cases w <;> simp [NumberLiteral.startsAt, hb]

theorem IsPointed.startsAt (h : IsPointed w) : startsAt w = true := by
  cases h with
  | fraction hf =>
    cases hf with
    | intro hb => simp [NumberLiteral.startsAt, hb]
  | whole hw => exact startsAt_append hw.startsAt _
  | both hw => exact startsAt_append hw.startsAt _

theorem IsFloat.startsAt (h : IsFloat w) : startsAt w = true := by
  cases h with
  | pointed hw => exact hw.startsAt
  | exponent hw =>
    rcases hw with hw | hw
    · exact startsAt_append hw.startsAt _
    · exact startsAt_append hw.startsAt _

/-- A literal starts with a digit, or with a dot and a digit. -/
theorem IsNumeric.startsAt (h : IsNumeric w) : startsAt w = true := by
  cases h with
  | decimal hb _ hw => exact (IsDigits.intro hb hw).startsAt
  | @zeros w => cases w <;> rfl
  | based => rfl
  | float hw => exact hw.startsAt
  | imaginary hw =>
    rcases hw with hw | hw
    · exact startsAt_append hw.startsAt _
    · exact startsAt_append hw.startsAt _

/-! ## Section 5: Where numbers end -/

/-- A number goes on as far as it can. -/
theorem tailLength_append {before : UInt8}
    (hchain : (before :: w).IsChain fun before b => goesOn hexadecimal before b = true)
    (hends : ∀ last ∈ (before :: w).getLast?, ∀ b ∈ rest.head?, goesOn hexadecimal last b = false) :
    tailLength hexadecimal before (w ++ rest) = w.length := by
  induction w generalizing before with
  | nil =>
    cases rest with
    | nil => rfl
    | cons b rest =>
      have hb : goesOn hexadecimal before b = false := hends before rfl b rfl
      rw [List.nil_append, tailLength, hb]
      rfl
  | cons b w ih =>
    obtain ⟨hb, hchain⟩ := List.isChain_cons_cons.mp hchain
    rw [List.getLast?_cons_cons] at hends
    rw [List.cons_append, tailLength, if_pos hb, ih hchain hends, List.length_cons]

/-- What stands behind a literal is no part of it. -/
def EndsNumber (rest : Text) : Prop := ∀ b ∈ rest.head?, isPart b = false

/-- A sign does not go on with a literal: a literal has an `e` at its end
    only as a hexadecimal digit. -/
theorem Readable.not_goesOn (h : Readable hexadecimal w) (hrest : EndsNumber rest) :
    ∀ last ∈ w.getLast?, ∀ b ∈ rest.head?, goesOn hexadecimal last b = false := by
  intro last hlast b hb
  have hpart : isPart b = false := hrest b hb
  have hsign : ((b == plus || b == minus) && !hexadecimal && toLower last == 0x65) = false := by
    cases hexadecimal with
    | true => simp
    | false =>
      have hne : toLower last ≠ 0x65 := h.ends rfl last hlast
      simp [hne]
  unfold isPart at hpart
  unfold goesOn
  rw [hpart, hsign]
  rfl

/-- What is behind a literal does not change its kind. -/
theorem isHexadecimal_append (hne : w ≠ []) (hrest : EndsNumber rest) :
    isHexadecimal (w ++ rest) = isHexadecimal w := by
  cases w with
  | nil => exact absurd rfl hne
  | cons b w =>
    cases w with
    | cons c w => rfl
    | nil =>
      cases rest with
      | nil => rfl
      | cons c rest =>
        show (b == zero && toLower c == 0x78) = false
        have hc : toLower c ≠ 0x78 := by
          intro hx
          have hpart : isPart c = false := hrest c rfl
          unfold isPart at hpart
          rw [isNameByte_of_toLower hx rfl] at hpart
          cases hpart
        simp [hc]

/-- A readable text is read whole. -/
theorem Readable.length_append (h : Readable (isHexadecimal w) w) (hne : w ≠ [])
    (hrest : EndsNumber rest) : length (w ++ rest) = w.length := by
  cases w with
  | nil => exact absurd rfl hne
  | cons b w =>
    show tailLength (isHexadecimal (b :: w ++ rest)) b (w ++ rest) + 1 = (b :: w).length
    rw [isHexadecimal_append hne hrest, tailLength_append h.chain (h.not_goesOn hrest),
      List.length_cons]

theorem IsNumeric.ne_nil (h : IsNumeric w) : w ≠ [] := by
  intro hnil
  have hstarts := h.startsAt
  rw [hnil] at hstarts
  cases hstarts

/-- A sign ends a number, unless it is the sign of an exponent. -/
theorem endsNumber_sign {sign : UInt8} (h : sign = plus ∨ sign = minus) (rest : Text) :
    EndsNumber (sign :: rest) := by
  intro b hb
  obtain rfl := Option.some.inj hb
  rcases h with rfl | rfl <;> rfl

end NumberLiteral

/-! ## Section 6: Literals in a source -/

open NumberLiteral

/-- Where a number starts, a number is read. -/
theorem Scan.piece_number_of_startsAt {s : Scan} {b : UInt8} {after : Text}
    (hrest : s.rest = b :: after) (hstarts : startsAt (b :: after) = true) :
    s.piece b after = .ok s.number := by
  have hb : isDigit b = true ∨ b = dot := by
    cases after with
    | nil => exact .inl hstarts
    | cons c after =>
      have hcases : isDigit b = true ∨ (b == dot && isDigit c) = true := by
        simpa [startsAt] using hstarts
      rcases hcases with hdigit | hdot
      · exact .inl hdigit
      · exact .inr (by simpa using (Bool.and_eq_true_iff.mp hdot).1)
  have hother : isBlank b = false ∧ b ≠ hash ∧ b ≠ newline ∧ b ≠ backslash ∧
      isNameStart b = false := by
    rcases hb with hdigit | rfl
    · unfold isDigit at hdigit
      unfold isBlank isNameStart isLetter isUpper isLower isHigh
      grind
    · decide
  obtain ⟨hblank, hhash, hnewline, hbackslash, hname⟩ := hother
  unfold Scan.piece
  rw [hrest]
  simp [hblank, hhash, hnewline, hbackslash, hname, hstarts]

/-- A number that starts at the place of a scan is the piece that is read
    there. -/
theorem Scan.piece_numeral {s : Scan} {w rest : Text} (hrest : s.rest = w ++ rest)
    (hstarts : startsAt w = true) (hreadable : Readable (isHexadecimal w) w)
    (hends : EndsNumber rest) :
    ∃ b after, s.rest = b :: after ∧
      s.piece b after = .ok ((s.emit (.number w)).skip w.length) := by
  cases w with
  | nil => cases hstarts
  | cons b after =>
    refine ⟨b, after ++ rest, hrest, ?_⟩
    have hlength : NumberLiteral.length s.rest = (b :: after).length := by
      rw [hrest]
      exact hreadable.length_append (List.cons_ne_nil _ _) hends
    have hnumber : s.number = (s.emit (.number (b :: after))).skip (b :: after).length := by
      unfold Scan.number
      rw [hlength, hrest]
      dsimp only
      rw [List.take_left]
    rw [← hnumber]
    exact Scan.piece_number_of_startsAt hrest (startsAt_append hstarts rest)

/-- **Numeric literals stay whole.**  Wherever a numeric literal stands in a
    source, with nothing behind it or a byte that is no letter, digit,
    underscore, dot or byte beyond ASCII, the scanner reads one number at its
    start, whose text is exactly the literal.  So the sign of an exponent is
    inside of the number, with the literal that it belongs to; a sign behind
    a literal is not, be the last byte of the literal an `e` or not. -/
theorem numericLiterals_whole :
    (∀ {source literal rest : Text} {s : Scan} {offset : Nat},
      Scan.Visits source .entered s → Scan.At source s offset → s.rest = literal ++ rest →
      IsNumeric literal → (∀ b ∈ rest.head?, isNameByte b = false ∧ b ≠ dot) →
        let token : Token := ⟨.number literal, source.positionAt offset⟩
        StandsFor source token ⟨offset, offset + literal.length⟩ ∧
        ∃ b after s', s.rest = b :: after ∧ s.piece b after = .ok s' ∧
          s'.tokens = token :: s.tokens ∧ s'.rest = rest ∧
          Scan.At source s' (offset + literal.length) ∧
          ∀ tokens, tokenize source = .ok tokens → s'.tokens.reverse <+: tokens) ∧
    (∀ {before digits : Text} {e sign : UInt8}, IsDigits before ∨ IsPointed before →
      toLower e = 0x65 → sign = plus ∨ sign = minus → IsDigits digits →
        IsNumeric (before ++ e :: sign :: digits)) ∧
    ∀ {literal rest : Text} {sign : UInt8}, IsNumeric literal → sign = plus ∨ sign = minus →
      NumberLiteral.length (literal ++ sign :: rest) = literal.length := by
  refine ⟨?_, ?_, ?_⟩
  · intro source literal rest s offset hvisit hat hrest hliteral hends token
    have hpart : EndsNumber rest := by
      intro b hb
      obtain ⟨hname, hdot⟩ := hends b hb
      simp [isPart, hname, hdot]
    obtain ⟨b, after, hcons, hpiece⟩ :=
      Scan.piece_numeral hrest hliteral.startsAt hliteral.readable hpart
    have hle : literal.length ≤ s.rest.length := by
      rw [hrest, List.length_append]
      omega
    have hslice : source.slice ⟨offset, offset + literal.length⟩ = literal := by
      unfold Text.slice
      rw [Nat.add_sub_cancel_left, ← hat.rest, hrest]
      exact List.take_left
    refine ⟨⟨hslice.symm, rfl⟩, b, after, _, hcons, hpiece, ?_, ?_, ?_, ?_⟩
    · show _ = (⟨.number literal, source.positionAt offset⟩ : Token) :: s.tokens
      rw [← hat.position]
      rfl
    · show s.rest.drop literal.length = rest
      rw [hrest]
      exact List.drop_left
    · exact (hat.skip hle).congr rfl rfl
    · intro tokens htokens
      exact Scan.Visits.tokens_prefix (.piece hvisit hcons hpiece) htokens
  · intro before digits e sign hbefore he hsign hdigits
    exact .float (.exponent hbefore (.signed he hsign hdigits))
  · intro literal rest sign hliteral hsign
    exact hliteral.readable.length_append hliteral.ne_nil (endsNumber_sign hsign rest)

/-- The sign behind `0xE` is a token of its own, the one in `1_0.e-5` is
    not. -/
theorem numericLiterals_signs :
    (∃ b after s', Scan.piece ⟨ascii "0xE+1_0.e-5", .start, false, [0], [], []⟩ b after = .ok s' ∧
      s'.tokens = [⟨.number (ascii "0xE"), (ascii "0xE+1_0.e-5").positionAt 0⟩] ∧
      s'.rest = ascii "+1_0.e-5") ∧
    IsNumeric (ascii "1_0.e-5") ∧
    NumberLiteral.length (ascii "0xE+1_0.e-5") = 3 := by
  have hhexadecimal : IsNumeric (ascii "0xE") :=
    .based .hexadecimal (by decide) (List.cons_ne_nil _ _) (.digit (by decide) .nil)
  have hplace : Scan.At (ascii "0xE+1_0.e-5")
      ⟨ascii "0xE+1_0.e-5", .start, false, [0], [], []⟩ 0 :=
    (Scan.at_ofSource _).congr rfl rfl
  have hends : ∀ b ∈ (ascii "+1_0.e-5").head?, isNameByte b = false ∧ b ≠ dot := by
    decide +kernel
  have hpointed : IsPointed (ascii "1_0.") :=
    .whole (.intro (by decide) (.grouped (by decide) .nil))
  have hdigits : IsDigits (ascii "5") := .intro (by decide) .nil
  obtain ⟨hwhole, hexponent, hbehind⟩ := numericLiterals_whole
  obtain ⟨_, b, after, s', _, hpiece, htokens, hrest, _⟩ :=
    hwhole (.enter .start rfl) hplace rfl hhexadecimal hends
  refine ⟨⟨b, after, s', hpiece, htokens, hrest⟩, ?_, ?_⟩
  · exact hexponent (.inr hpointed) rfl (.inr rfl) hdigits
  · exact hbehind hhexadecimal (.inl rfl)

end StyleCheck
