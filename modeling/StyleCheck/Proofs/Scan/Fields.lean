import StyleCheck.Proofs.Scan.Outcome
import StyleCheck.Proofs.Scan.Place
import StyleCheck.Proofs.Scan.Words

/-! # Replacement Fields

    A formatted literal is made of ordinary bytes, doubled braces, and
    replacement fields, some of them with a conversion or a specification.
    The quote that closes it is the first one outside of its fields, and
    inside of them every quote opens a literal of its own.  So what matters
    is that the quotes in the specifications come in pairs: then each piece
    of the literal is read over, and the literal ends where it should.

    * `FormatItem`: what a formatted literal is made of.
    * `Paired`: a specification whose quotes open and close literals.
    * `Passes`: a text that leaves a literal as open as it was.
    * `FormatItem.passes`: every item does, with its quotes in pairs.
    * `tokenize_formatted`: a literal of such items is one token.
-/

namespace StyleCheck

open Byte

/-! ## Section 1: What formatted literals are made of -/

/-- Neither a brace, nor a backslash, nor the end of a line. -/
def Byte.isOrdinary (b : UInt8) : Bool :=
  b != leftBrace && b != rightBrace && b != backslash && b != newline

theorem Byte.ne_newline_of_isOrdinary {b : UInt8} (h : isOrdinary b = true) : b ≠ newline := by
  simp only [isOrdinary, Bool.and_eq_true, bne_iff_ne] at h
  exact h.2

theorem Byte.ne_of_not_isQuote {quote b : UInt8} (hquote : isQuote quote = true)
    (hb : isQuote b = false) : b ≠ quote := by
  rintro rfl
  rw [hquote] at hb
  cases hb

/-- The quote that does not close a literal opened by this one. -/
def Byte.otherQuote (quote : UInt8) : UInt8 :=
  if quote = apostrophe then doubleQuote else apostrophe

theorem Byte.eq_otherQuote {quote b : UInt8} (hquote : isQuote quote = true) (hb : isQuote b = true)
    (hne : b ≠ quote) : b = otherQuote quote := by
  unfold isQuote at hquote hb
  unfold otherQuote
  grind

theorem Byte.isQuote_otherQuote (quote : UInt8) : isQuote (otherQuote quote) = true := by
  unfold otherQuote
  split <;> rfl

/-- A byte of a name is neither a quote nor anything with a role of its own. -/
theorem Byte.isOrdinary_of_isNameByte {b : UInt8} (h : isNameByte b = true) :
    isOrdinary b = true ∧ isQuote b = false := by
  have hne : ∀ c ∈ [leftBrace, rightBrace, backslash, newline, apostrophe, doubleQuote], b ≠ c := by
    rintro c hc rfl
    have hother : [leftBrace, rightBrace, backslash, newline, apostrophe, doubleQuote].any
      isNameByte = false := rfl
    exact List.any_eq_false.mp hother b hc h
  simp only [List.forall_mem_cons] at hne
  simp [isOrdinary, isQuote, hne]

/-- What stands behind the name in a replacement field. -/
inductive FieldFormat where
  | plain
  /-- The conversion `!r`. -/
  | converted
  | specified (specification : Text)

/-- A piece of a formatted literal. -/
inductive FormatItem where
  | byte (b : UInt8)
  /-- A doubled brace that stands for itself. -/
  | openingBraces
  | closingBraces
  | field (name : Text) (format : FieldFormat)

namespace FieldFormat

def text : FieldFormat → Text
  | plain => []
  | converted => ascii "!r"
  | specified specification => ascii ":" ++ specification

/-- A specification is not empty, and the quote of the literal does not
    stand in it.  The other one may. -/
def IsValid (quote : UInt8) : FieldFormat → Prop
  | plain | converted => True
  | specified specification =>
    specification ≠ [] ∧ ∀ b ∈ specification, isOrdinary b = true ∧ b ≠ quote

instance (quote : UInt8) : DecidablePred (IsValid quote)
  | plain | converted => .isTrue trivial
  | specified specification => decidable_of_iff (specification ≠ [] ∧
      specification.all (fun b => isOrdinary b && b != quote) = true)
      (and_congr_right' (by simp [List.all_eq_true]))

end FieldFormat

namespace FormatItem

def text : FormatItem → Text
  | byte b => [b]
  | openingBraces => [leftBrace, leftBrace]
  | closingBraces => [rightBrace, rightBrace]
  | field name format => leftBrace :: (name ++ (format.text ++ [rightBrace]))

/-- The items of a literal that a quote opens and closes. -/
def IsValid (quote : UInt8) : FormatItem → Prop
  | byte b => isOrdinary b = true ∧ b ≠ quote
  | openingBraces | closingBraces => True
  | field name format =>
    (IsIdentifier name ∧ ∀ b ∈ name, isHigh b = false) ∧ format.IsValid quote

instance (quote : UInt8) : DecidablePred (IsValid quote)
  | byte b => inferInstanceAs (Decidable (isOrdinary b = true ∧ b ≠ quote))
  | openingBraces | closingBraces => .isTrue trivial
  | field name format => decidable_of_iff
      ((IsIdentifier name ∧ name.all (!isHigh ·) = true) ∧ format.IsValid quote)
      (and_congr_left' (and_congr_right' (by simp [List.all_eq_true])))

end FormatItem

/-! ## Section 2: Pairs of quotes -/

/-- The quotes in a text open and close literals, one behind the other.
    Where three of them stand in a row, they are read as one. -/
inductive Paired (quote : UInt8) : Text → Prop where
  | nil : Paired quote []
  | byte {b : UInt8} {rest : Text} (hb : b ≠ quote) (hrest : Paired quote rest) :
      Paired quote (b :: rest)
  | single {inside rest : Text} (hinside : quote ∉ inside)
      (hopens : StringLiteral.isTriple quote (inside ++ quote :: rest) = false)
      (hrest : Paired quote rest) : Paired quote (quote :: (inside ++ quote :: rest))
  | triple {inside rest : Text}
      (hinside : ¬ [quote, quote, quote] <:+: inside ++ [quote, quote])
      (hrest : Paired quote rest) :
      Paired quote (quote :: quote :: quote :: (inside ++ quote :: quote :: quote :: rest))

theorem paired_of_notMem {quote : UInt8} {t : Text} (h : quote ∉ t) : Paired quote t := by
  induction t with
  | nil => exact .nil
  | cons b t ih =>
    rw [List.mem_cons, not_or] at h
    exact .byte (Ne.symm h.1) (ih h.2)

namespace StringLiteral

variable {literal : Unclosed} {outer : List Unclosed} {offset : Nat} {quote before b : UInt8}
  {v w inside rest : Text}

/-- Whether two quotes follow is settled by two bytes. -/
theorem isTriple_append (h : 2 ≤ w.length) : isTriple quote (w ++ rest) = isTriple quote w := by
  match w, h with
  | a :: b :: w, _ => simp [isTriple, List.isPrefixOf]

theorem isTriple_append_of_head (h : isTriple quote w = false)
    (hrest : ∀ b ∈ rest.head?, b ≠ quote) : isTriple quote (w ++ rest) = false := by
  match w, h with
  | [], _ =>
    cases rest with
    | nil => rfl
    | cons c rest => simp [isTriple, List.isPrefixOf, Ne.symm (hrest c rfl)]
  | [a], _ =>
    cases rest with
    | nil => simp [isTriple, List.isPrefixOf]
    | cons c rest => simp [isTriple, List.isPrefixOf, Ne.symm (hrest c rfl)]
  | a :: b :: w, h => rwa [isTriple_append (by simp)]

/-- Where a piece starts, the literal goes on as the piece says. -/
theorem close_of_content {n : Nat} (h : literal.piece b rest = .content n) :
    close literal outer 0 offset before (b :: rest) =
      close literal outer (n - 1) (offset + 1) b rest := by
  simp only [close.eq_def literal outer 0, h]

theorem close_of_openField (h : literal.piece b rest = .openField) :
    close literal outer 0 offset before (b :: rest) =
      close { literal with depth := literal.depth + 1 } outer 0 (offset + 1) b rest := by
  simp only [close.eq_def literal outer 0, h]

theorem close_of_closeField (h : literal.piece b rest = .closeField) :
    close literal outer 0 offset before (b :: rest) =
      close { literal with depth := literal.depth - 1 } outer 0 (offset + 1) b rest := by
  simp only [close.eq_def literal outer 0, h]

theorem close_of_nested {triple : Bool} (h : literal.piece b rest = .nested quote triple) :
    close literal outer 0 offset before (b :: rest) =
      close ⟨quote, triple, toLower before == 0x66, 0, offset⟩ (literal :: outer)
        (quoteCount triple - 1) (offset + 1) b rest := by
  simp only [close.eq_def literal outer 0, h]

theorem close_of_closing {next : Unclosed} (h : literal.piece b rest = .closing) :
    close literal (next :: outer) 0 offset before (b :: rest) =
      close next outer (quoteCount literal.triple - 1) (offset + 1) b rest := by
  simp only [close.eq_def literal (next :: outer) 0, h]

theorem close_of_closed (h : literal.piece b rest = .closing) :
    close literal [] 0 offset before (b :: rest) = .ok (offset + quoteCount literal.triple) := by
  simp only [close.eq_def literal [] 0, h]

/-- A text in front of `rest` leaves a literal as open as it was. -/
def Passes (literal : Unclosed) (w rest : Text) : Prop :=
  ∀ outer offset before, ∃ before', close literal outer 0 offset before (w ++ rest) =
    close literal outer 0 (offset + w.length) before' rest

namespace Passes

theorem nil : Passes literal [] rest := fun _ _ before => ⟨before, rfl⟩

theorem append (hv : Passes literal v (w ++ rest)) (hw : Passes literal w rest) :
    Passes literal (v ++ w) rest := by
  intro outer offset before
  obtain ⟨between, hfirst⟩ := hv outer offset before
  obtain ⟨before', hsecond⟩ := hw outer (offset + v.length) between
  refine ⟨before', ?_⟩
  rw [List.append_assoc, hfirst, hsecond, List.length_append, Nat.add_assoc]

theorem content (hpiece : literal.piece b rest = .content 1) : Passes literal [b] rest := by
  intro outer offset before
  refine ⟨b, ?_⟩
  exact close_of_content hpiece

theorem cons (hpiece : literal.piece b (w ++ rest) = .content 1) (hw : Passes literal w rest) :
    Passes literal (b :: w) rest :=
  append (content hpiece) hw

/-- Two bytes that are one piece of content. -/
theorem doubled (hpiece : literal.piece b (b :: rest) = .content 2) :
    Passes literal [b, b] rest := by
  intro outer offset before
  refine ⟨b, ?_⟩
  exact close_of_content hpiece

end Passes

/-! ## Section 3: Bytes, and literals in a field -/

/-- An ordinary byte is content, unless it is a quote that matters. -/
theorem Unclosed.piece_ordinary (hb : isOrdinary b = true) (hne : b ≠ literal.quote)
    (hfield : literal.depth = 0 ∨ isQuote b = false) : literal.piece b rest = .content 1 := by
  simp only [isOrdinary, Bool.and_eq_true, bne_iff_ne] at hb
  obtain ⟨⟨⟨hleft, hright⟩, hescape⟩, hfeed⟩ := hb
  unfold piece
  rcases hfield with hdepth | hquote
  · simp [hescape, hfeed, hleft, hright, hdepth, hne]
  · simp [hescape, hfeed, hleft, hright, hquote, hne]

/-- Neither is a quote where three are needed, unless it is the first of
    three. -/
theorem Unclosed.piece_triple (hb : isOrdinary b = true) (htriple : literal.triple = true)
    (hdepth : literal.depth = 0) (hclosing : b = literal.quote → isTriple b rest = false) :
    literal.piece b rest = .content 1 := by
  simp only [isOrdinary, Bool.and_eq_true, bne_iff_ne] at hb
  obtain ⟨⟨⟨hleft, hright⟩, hescape⟩, hfeed⟩ := hb
  unfold piece
  by_cases hquote : b = literal.quote
  · simp [hescape, hfeed, hleft, hright, hdepth, htriple, hclosing hquote]
  · simp [hescape, hfeed, hleft, hright, hdepth, hquote]

theorem passes_ordinary (h : ∀ b ∈ w, isOrdinary b = true ∧ b ≠ literal.quote ∧
    (literal.depth = 0 ∨ isQuote b = false)) : Passes literal w rest := by
  induction w with
  | nil => exact .nil
  | cons b w ih =>
    obtain ⟨⟨hb, hne, hfield⟩, hw⟩ := List.forall_mem_cons.mp h
    exact .cons (Unclosed.piece_ordinary hb hne hfield) (ih hw)

/-- In a field, a quote opens a literal. -/
theorem Unclosed.piece_nested (hdepth : literal.depth ≠ 0) (hquote : isQuote quote = true) :
    literal.piece quote rest = .nested quote (isTriple quote rest) := by
  have hne : ∀ c ∈ [leftBrace, rightBrace, backslash, newline], quote ≠ c := by
    rintro c hc rfl
    have hother : [leftBrace, rightBrace, backslash, newline].any isQuote = false := rfl
    exact List.any_eq_false.mp hother quote hc hquote
  simp only [List.forall_mem_cons] at hne
  unfold piece
  simp [hne, hdepth, hquote]

/-- A quote that closes a literal outside of fields. -/
theorem Unclosed.piece_closing (hquote : isQuote literal.quote = true) (hdepth : literal.depth = 0)
    (hclosing : literal.triple = false ∨ isTriple literal.quote rest = true) :
    literal.piece literal.quote rest = .closing := by
  have hne : ∀ c ∈ [leftBrace, rightBrace, backslash, newline], literal.quote ≠ c := by
    intro c hc heq
    have hother : [leftBrace, rightBrace, backslash, newline].any isQuote = false := rfl
    exact List.any_eq_false.mp hother c hc (heq ▸ hquote)
  simp only [List.forall_mem_cons] at hne
  unfold piece
  rcases hclosing with hsingle | htriple
  · simp [hne, hdepth, hsingle]
  · simp [hne, hdepth, htriple]

/-- A literal in a field is read over to its closing quote. -/
theorem passes_nested (hdepth : literal.depth ≠ 0) (hquote : isQuote quote = true)
    (hinside : ∀ b ∈ inside, isOrdinary b = true ∧ b ≠ quote)
    (hopens : isTriple quote (inside ++ quote :: rest) = false) :
    Passes literal (quote :: (inside ++ [quote])) rest := by
  intro outer offset before
  let nested : Unclosed := ⟨quote, false, toLower before == 0x66, 0, offset⟩
  have hopening : literal.piece quote (inside ++ quote :: rest) = .nested quote false :=
    hopens ▸ Unclosed.piece_nested hdepth hquote
  have hclosing : nested.piece quote rest = .closing :=
    Unclosed.piece_closing hquote rfl (.inl rfl)
  have hbytes : Passes nested inside (quote :: rest) :=
    passes_ordinary fun b hb => ⟨(hinside b hb).1, (hinside b hb).2, .inl rfl⟩
  obtain ⟨before', hmiddle⟩ := hbytes (literal :: outer) (offset + 1) quote
  have htext : quote :: (inside ++ [quote]) ++ rest = quote :: (inside ++ quote :: rest) := by simp
  have hlength : offset + (quote :: (inside ++ [quote])).length =
      offset + 1 + inside.length + 1 := by
    simp only [List.length_cons, List.length_append, List.length_nil]
    omega
  rw [htext, hlength]
  refine ⟨quote, (close_of_nested hopening).trans (hmiddle.trans (close_of_closing hclosing))⟩

/-- So is one with three quotes, which is closed by the first three. -/
theorem passes_triple (hdepth : literal.depth ≠ 0) (hquote : isQuote quote = true)
    (hbytes : ∀ b ∈ inside, isOrdinary b = true)
    (hinside : ¬ [quote, quote, quote] <:+: inside ++ [quote, quote]) :
    Passes literal (quote :: quote :: quote :: (inside ++ [quote, quote, quote])) rest := by
  intro outer offset before
  let nested : Unclosed := ⟨quote, true, toLower before == 0x66, 0, offset⟩
  have htriple : ∀ t, isTriple quote (quote :: quote :: t) = true := fun t => by
    simp [isTriple, List.isPrefixOf]
  have hopening : literal.piece quote (quote :: quote :: (inside ++ quote :: quote :: quote :: rest)) =
      .nested quote true := htriple _ ▸ Unclosed.piece_nested hdepth hquote
  have hclosing : nested.piece quote (quote :: quote :: rest) = .closing :=
    Unclosed.piece_closing hquote rfl (.inr (htriple rest))
  have hmiddle : Passes nested inside (quote :: quote :: quote :: rest) := by
    clear hopening
    induction inside with
    | nil => exact .nil
    | cons b inside ih =>
      obtain ⟨hb, hothers⟩ := List.forall_mem_cons.mp hbytes
      rw [List.cons_append, List.infix_cons_iff, not_or] at hinside
      refine .cons (Unclosed.piece_triple hb rfl rfl fun heq => ?_) (ih hothers hinside.2)
      -- Two bytes are looked at, and they are there in front of the last quote.
      have hfront : isTriple b (inside ++ [quote, quote]) = false := by
        have hstarts := hinside.1
        rw [show b = quote from heq] at hstarts ⊢
        rw [← Bool.not_eq_true, isTriple, List.isPrefixOf_iff_prefix]
        exact fun hprefix => hstarts (List.cons_prefix_cons.mpr ⟨rfl, hprefix⟩)
      have hsplit : inside ++ quote :: quote :: quote :: rest =
          (inside ++ [quote, quote]) ++ quote :: rest := by simp
      rw [hsplit, isTriple_append (by simp), hfront]
  obtain ⟨before', hmiddle⟩ := hmiddle (literal :: outer) (offset + 1 + 1 + 1) quote
  have htext : quote :: quote :: quote :: (inside ++ [quote, quote, quote]) ++ rest =
      quote :: quote :: quote :: (inside ++ quote :: quote :: quote :: rest) := by simp
  have hlength : offset + (quote :: quote :: quote :: (inside ++ [quote, quote, quote])).length =
      offset + 1 + 1 + 1 + inside.length + 1 + 1 + 1 := by
    simp only [List.length_cons, List.length_append, List.length_nil]
    omega
  rw [htext, hlength]
  exact ⟨quote, (close_of_nested hopening).trans (hmiddle.trans (close_of_closing hclosing))⟩

/-! ## Section 4: Fields -/

/-- A specification whose quotes are in pairs is read over.  By induction
    on the pairs. -/
theorem passes_paired (hdepth : literal.depth ≠ 0) (hliteral : isQuote literal.quote = true)
    (hpaired : Paired (otherQuote literal.quote) w)
    (hw : ∀ b ∈ w, isOrdinary b = true ∧ b ≠ literal.quote)
    (hrest : ∀ b ∈ rest.head?, b ≠ otherQuote literal.quote) : Passes literal w rest := by
  have hother := isQuote_otherQuote literal.quote
  induction hpaired with
  | nil => exact .nil
  | @byte b behind hb _ ih =>
    obtain ⟨⟨hordinary, hne⟩, hothers⟩ := List.forall_mem_cons.mp hw
    have hquote : isQuote b = false := by
      rw [Bool.eq_false_iff]
      exact fun hquote => hb (eq_otherQuote hliteral hquote hne)
    exact .cons (Unclosed.piece_ordinary hordinary hne (.inr hquote)) (ih hothers)
  | @single inside behind hinside hopens _ ih =>
    simp only [List.forall_mem_cons, List.forall_mem_append] at hw
    obtain ⟨-, hbytes, -, hothers⟩ := hw
    have htext : otherQuote literal.quote :: (inside ++ otherQuote literal.quote :: behind) =
        otherQuote literal.quote :: (inside ++ [otherQuote literal.quote]) ++ behind := by simp
    have hopens' := isTriple_append_of_head hopens hrest
    rw [List.append_assoc, List.cons_append] at hopens'
    rw [htext]
    refine .append (passes_nested hdepth hother (fun b hb => ⟨(hbytes b hb).1, ?_⟩) hopens')
      (ih hothers)
    rintro rfl
    exact hinside hb
  | @triple inside behind hinside _ ih =>
    simp only [List.forall_mem_cons, List.forall_mem_append] at hw
    obtain ⟨-, -, -, hbytes, -, -, -, hothers⟩ := hw
    generalize otherQuote literal.quote = quote at *
    have htext : quote :: quote :: quote :: (inside ++ quote :: quote :: quote :: behind) =
        quote :: quote :: quote :: (inside ++ [quote, quote, quote]) ++ behind := by simp
    rw [htext]
    exact .append (passes_triple hdepth hother (fun b hb => (hbytes b hb).1) hinside) (ih hothers)

/-- A brace opens a field, unless another one follows. -/
theorem close_leftBrace (hformatted : literal.formatted = true) (hdepth : literal.depth = 0)
    (hrest : ∀ b ∈ rest.head?, b ≠ leftBrace) :
    close literal outer 0 offset before (leftBrace :: rest) =
      close { literal with depth := 1 } outer 0 (offset + 1) leftBrace rest := by
  have hnone : (rest.head? == some leftBrace) = false := by
    rw [beq_eq_false_iff_ne]
    exact fun h => hrest leftBrace h rfl
  have hopening : literal.piece leftBrace rest = .openField := by
    rw [Unclosed.piece, if_neg (by decide), if_neg (by decide), hformatted, hdepth, hnone]
    rfl
  rw [close_of_openField hopening, hdepth]

/-- The braces of a field are read over with what stands between them. -/
theorem passes_field (hformatted : literal.formatted = true) (hdepth : literal.depth = 0)
    (hinside : ∀ b ∈ (inside ++ rightBrace :: rest).head?, b ≠ leftBrace)
    (hpasses : Passes { literal with depth := 1 } inside (rightBrace :: rest)) :
    Passes literal (leftBrace :: (inside ++ [rightBrace])) rest := by
  intro outer offset before
  have hclosing : Unclosed.piece { literal with depth := 1 } rightBrace rest = .closeField := by
    rw [Unclosed.piece, if_neg (by decide), if_neg (by decide), hformatted]
    rfl
  have hclosed : { literal with depth := 1 - 1 } = literal := by
    rw [Nat.sub_self, ← hdepth]
  obtain ⟨before', hmiddle⟩ := hpasses outer (offset + 1) leftBrace
  refine ⟨rightBrace, ?_⟩
  have htext : leftBrace :: (inside ++ [rightBrace]) ++ rest =
      leftBrace :: (inside ++ rightBrace :: rest) := by simp
  have hlength : offset + (leftBrace :: (inside ++ [rightBrace])).length =
      offset + 1 + inside.length + 1 := by
    simp only [List.length_cons, List.length_append, List.length_nil]
    omega
  rw [htext, hlength, close_leftBrace hformatted hdepth hinside, hmiddle,
    close_of_closeField hclosing]
  simp only [hclosed]

end StringLiteral

/-- The quotes in a specification are in pairs.  There are none elsewhere in
    a field. -/
def FieldFormat.IsPaired (quote : UInt8) : FieldFormat → Prop
  | plain | converted => True
  | specified specification => Paired (otherQuote quote) specification

def FormatItem.IsPaired (quote : UInt8) : FormatItem → Prop
  | field _ format => format.IsPaired quote
  | _ => True

/-- There is nothing to pair without a quote. -/
theorem FormatItem.isPaired_of_notMem {quote : UInt8} {item : FormatItem}
    (h : otherQuote quote ∉ item.text) : item.IsPaired quote := by
  cases item with
  | field name format =>
    cases format with
    | specified specification =>
      refine paired_of_notMem fun hmem => h ?_
      simp [FormatItem.text, FieldFormat.text, hmem]
    | _ => trivial
  | _ => trivial

open StringLiteral

variable {literal : Unclosed} {quote : UInt8} {rest : Text}

/-- Bytes of names are content, in a field as well. -/
theorem passes_nameBytes {w : Text} (hliteral : isQuote literal.quote = true)
    (hw : ∀ b ∈ w, isNameByte b = true) : Passes literal w rest := by
  refine passes_ordinary fun b hb => ?_
  obtain ⟨hordinary, hquote⟩ := isOrdinary_of_isNameByte (hw b hb)
  exact ⟨hordinary, ne_of_not_isQuote hliteral hquote, .inr hquote⟩

/-- No name starts with a brace. -/
theorem head?_of_isIdentifier {name : Text} (h : IsIdentifier name) :
    ∀ b ∈ (name ++ rest).head?, b ≠ leftBrace := by
  obtain ⟨⟨b, more, rfl, hb⟩, _⟩ := h
  intro c hc
  obtain rfl : b = c := Option.some.inj hc
  rintro rfl
  cases hb

/-- The bytes in front of what a field says of its format. -/
theorem isOrdinary_of_isMark {b : UInt8} (hb : b ∈ ascii "!r:") :
    isOrdinary b = true ∧ isQuote b = false := by
  have hmarks : (ascii "!r:").all (fun b => isOrdinary b && !isQuote b) = true := rfl
  simpa using List.all_eq_true.mp hmarks b hb

/-- The marks of a conversion and of a specification are content. -/
theorem piece_of_mark {b : UInt8} (hliteral : isQuote literal.quote = true) (hb : b ∈ ascii "!r:") :
    literal.piece b rest = .content 1 := by
  obtain ⟨hordinary, hquote⟩ := isOrdinary_of_isMark hb
  exact Unclosed.piece_ordinary hordinary (ne_of_not_isQuote hliteral hquote) (.inr hquote)

theorem FieldFormat.passes {format : FieldFormat} (hliteral : isQuote literal.quote = true)
    (hdepth : literal.depth ≠ 0) (hvalid : format.IsValid literal.quote)
    (hpaired : format.IsPaired literal.quote) :
    Passes literal format.text (rightBrace :: rest) := by
  have hbrace : ∀ b ∈ (rightBrace :: rest).head?, b ≠ otherQuote literal.quote := by
    intro b hb heq
    obtain rfl : rightBrace = b := Option.some.inj hb
    have hother := isQuote_otherQuote literal.quote
    rw [← heq] at hother
    cases hother
  cases format with
  | plain => exact .nil
  | converted =>
    exact .cons (piece_of_mark hliteral (by decide)) (.content (piece_of_mark hliteral (by decide)))
  | specified specification =>
    exact .cons (piece_of_mark hliteral (by decide))
      (passes_paired hdepth hliteral hpaired hvalid.2 hbrace)

/-- Every item is read over, and leaves the literal outside of fields. -/
theorem FormatItem.passes {item : FormatItem} (hliteral : isQuote literal.quote = true)
    (hformatted : literal.formatted = true) (hdepth : literal.depth = 0)
    (hvalid : item.IsValid literal.quote) (hpaired : item.IsPaired literal.quote) :
    Passes literal item.text rest := by
  cases item with
  | byte b =>
    exact .content (Unclosed.piece_ordinary hvalid.1 hvalid.2 (.inl hdepth))
  | openingBraces =>
    refine .doubled ?_
    rw [Unclosed.piece, if_neg (by decide), if_neg (by decide), hformatted, hdepth]
    rfl
  | closingBraces =>
    refine .doubled ?_
    rw [Unclosed.piece, if_neg (by decide), if_neg (by decide), hformatted, hdepth]
    rfl
  | field name format =>
    obtain ⟨⟨hname, _⟩, hformat⟩ := hvalid
    have hbytes := hname.2
    have htext : (FormatItem.field name format).text =
        leftBrace :: ((name ++ format.text) ++ [rightBrace]) := by
      simp [FormatItem.text]
    rw [htext]
    refine passes_field hformatted hdepth ?_ (.append (passes_nameBytes hliteral hbytes)
      (FieldFormat.passes hliteral Nat.one_ne_zero hformat hpaired))
    rw [List.append_assoc]
    exact head?_of_isIdentifier hname

theorem passes_items {items : List FormatItem} (hliteral : isQuote literal.quote = true)
    (hformatted : literal.formatted = true) (hdepth : literal.depth = 0)
    (hvalid : ∀ item ∈ items, item.IsValid literal.quote)
    (hpaired : ∀ item ∈ items, item.IsPaired literal.quote) :
    Passes literal (items.flatMap FormatItem.text) rest := by
  induction items with
  | nil => exact .nil
  | cons item items ih =>
    obtain ⟨hitem, hitems⟩ := List.forall_mem_cons.mp hvalid
    obtain ⟨hpair, hpairs⟩ := List.forall_mem_cons.mp hpaired
    rw [List.flatMap_cons]
    exact .append (item.passes hliteral hformatted hdepth hitem hpair) (ih hitems hpairs)

/-! ## Section 5: Quotes without a partner -/

namespace StringLiteral

variable {outer : List Unclosed} {offset : Nat} {before : UInt8} {w inside : Text}

/-- The quotes that open a literal, and close it. -/
def delimiter (quote : UInt8) (triple : Bool) : Text :=
  List.replicate (quoteCount triple) quote

theorem delimiter_prefix_of_closing {b : UInt8} (h : literal.piece b rest = .closing) :
    delimiter literal.quote literal.triple <+: b :: rest := by
  obtain ⟨rfl, htriple⟩ := quote_of_piece h
  cases hsingle : literal.triple with
  | false => exact ⟨rest, rfl⟩
  | true =>
    have hstarts := List.isPrefixOf_iff_prefix.mp (htriple hsingle)
    exact List.cons_prefix_cons.mpr ⟨rfl, hstarts⟩

/-- Where a literal ends, all literals that are open find their closing
    quotes, the ones within it first. -/
theorem quotes_infix_of_close {n : Nat} : ∀ {t : Text} {inner : Unclosed} {outer : List Unclosed}
    {skip offset : Nat} {before : UInt8}, close inner outer skip offset before t = .ok n →
      ∀ literal ∈ inner :: outer, delimiter literal.quote literal.triple <:+: t.drop skip := by
  intro t
  induction t with
  | nil =>
    intro inner outer skip offset before h
    cases h
  | cons b rest ih =>
    intro inner outer skip offset before h
    have hlater : ∀ {text : Text} {k : Nat}, text <:+: rest.drop k → text <:+: b :: rest :=
      fun htext => htext.trans
        ((List.drop_suffix _ rest).isInfix.trans (List.suffix_cons b rest).isInfix)
    cases skip with
    | succ skip => exact ih (show close inner outer skip (offset + 1) b rest = .ok n from h)
    | zero =>
      rw [List.drop_zero]
      unfold close at h
      dsimp only at h
      cases hpiece : inner.piece b rest <;> simp only [hpiece] at h
      case content => exact fun literal hmem => hlater (ih h literal hmem)
      case openField =>
        obtain ⟨hinner, houter⟩ := List.forall_mem_cons.mp (ih h)
        exact List.forall_mem_cons.mpr
          ⟨hlater hinner, fun literal hmem => hlater (houter literal hmem)⟩
      case closeField =>
        obtain ⟨hinner, houter⟩ := List.forall_mem_cons.mp (ih h)
        exact List.forall_mem_cons.mpr
          ⟨hlater hinner, fun literal hmem => hlater (houter literal hmem)⟩
      case nested =>
        exact fun literal hmem => hlater (ih h literal (List.mem_cons_of_mem _ hmem))
      case lineEnd => cases h
      case closing =>
        intro literal hmem
        rcases List.mem_cons.mp hmem with rfl | hmem
        · exact (delimiter_prefix_of_closing hpiece).isInfix
        · cases outer with
          | nil => cases hmem
          | cons next others => exact hlater (ih h literal hmem)

/-- Quotes that stand in a text are in front of one without them. -/
theorem infix_of_append {triple : Bool} (hrest : quote ∉ rest)
    (h : delimiter quote triple <:+: w ++ rest) : delimiter quote triple <:+: w := by
  induction w with
  | nil =>
    have hmem : quote ∈ delimiter quote triple := by cases triple <;> simp [delimiter, quoteCount]
    exact absurd (h.subset hmem) hrest
  | cons b w ih =>
    rw [List.cons_append, List.infix_cons_iff] at h
    rcases h with hfront | hinfix
    · rw [← List.cons_append] at hfront
      rcases List.prefix_or_prefix_of_prefix hfront (List.prefix_append (b :: w) rest) with
        hshort | ⟨more, hmore⟩
      · exact hshort.isInfix
      -- What goes on into the other text would be quotes.
      · rw [← hmore, List.prefix_append_right_inj] at hfront
        cases more with
        | nil => exact (hmore ▸ List.append_nil (b :: w)) ▸ List.infix_refl _
        | cons c more =>
          have hc : c ∈ delimiter quote triple := hmore ▸ by simp
          obtain rfl := List.eq_of_mem_replicate hc
          exact absurd (hfront.subset List.mem_cons_self) hrest
    · exact List.infix_cons_iff.mpr (.inr (ih hinfix))

/-- The first three quotes in a row. -/
theorem exists_first_triple (h : [quote, quote, quote] <:+: w) : ∃ inside rest,
    w = inside ++ quote :: quote :: quote :: rest ∧
      ¬ [quote, quote, quote] <:+: inside ++ [quote, quote] := by
  induction w with
  | nil => cases List.infix_nil.mp h
  | cons b w ih =>
    by_cases hstarts : [quote, quote, quote] <+: b :: w
    · obtain ⟨rest, hrest⟩ := hstarts
      exact ⟨[], rest, hrest.symm, fun hinfix => absurd hinfix.length_le (by simp)⟩
    · obtain ⟨inside, rest, rfl, hinside⟩ := ih ((List.infix_cons_iff.mp h).resolve_left hstarts)
      refine ⟨b :: inside, rest, rfl, fun hinfix => ?_⟩
      rw [List.cons_append, List.infix_cons_iff] at hinfix
      refine hinfix.elim (fun hfront => hstarts (hfront.trans ?_)) hinside
      exact ⟨quote :: rest, by simp⟩

/-- A quote in a field has a partner, if the literal ends further on. -/
theorem exists_single {n : Nat} (hdepth : literal.depth ≠ 0) (hquote : isQuote quote = true)
    (hw : ∀ b ∈ w, isOrdinary b = true) (hrest : quote ∉ rest) (htriple : isTriple quote w = false)
    (h : close literal outer 0 offset before (quote :: (w ++ rest)) = .ok n) :
    ∃ inside behind, w = inside ++ quote :: behind ∧ quote ∉ inside ∧
      ∃ offset before, close literal outer 0 offset before (behind ++ rest) = .ok n := by
  have hhead : ∀ c ∈ rest.head?, c ≠ quote := by
    rintro c hc rfl
    exact hrest (List.mem_of_mem_head? hc)
  have hnested : literal.piece quote (w ++ rest) = .nested quote false := by
    rw [Unclosed.piece_nested hdepth hquote, isTriple_append_of_head htriple hhead]
  have hinfix := quotes_infix_of_close ((close_of_nested hnested).symm.trans h) _ List.mem_cons_self
  have hmem : quote ∈ w := (infix_of_append hrest hinfix).subset List.mem_cons_self
  obtain ⟨inside, behind, rfl, hinside⟩ := List.eq_append_cons_of_mem hmem
  refine ⟨inside, behind, rfl, hinside, ?_⟩
  have hopens := isTriple_append_of_head htriple hhead
  rw [List.append_assoc, List.cons_append] at hopens
  have hbytes : ∀ c ∈ inside, isOrdinary c = true ∧ c ≠ quote := fun c hc =>
    ⟨hw c (List.mem_append_left _ hc), fun hcq => hinside (hcq ▸ hc)⟩
  obtain ⟨before', hclose⟩ := passes_nested hdepth hquote hbytes hopens outer offset before
  have htext : quote :: (inside ++ [quote]) ++ (behind ++ rest) =
      quote :: (inside ++ quote :: behind ++ rest) := by simp
  rw [htext, h] at hclose
  exact ⟨_, before', hclose.symm⟩

/-- So do three of them in a row. -/
theorem exists_triple {n : Nat} (hdepth : literal.depth ≠ 0) (hquote : isQuote quote = true)
    (hw : ∀ b ∈ w, isOrdinary b = true) (hrest : quote ∉ rest)
    (h : close literal outer 0 offset before (quote :: quote :: quote :: (w ++ rest)) = .ok n) :
    ∃ inside behind, w = inside ++ quote :: quote :: quote :: behind ∧
      ¬ [quote, quote, quote] <:+: inside ++ [quote, quote] ∧
      ∃ offset before, close literal outer 0 offset before (behind ++ rest) = .ok n := by
  have hthree : isTriple quote (quote :: quote :: (w ++ rest)) = true :=
    List.isPrefixOf_iff_prefix.mpr ⟨w ++ rest, rfl⟩
  have hnested : literal.piece quote (quote :: quote :: (w ++ rest)) = .nested quote true := by
    rw [Unclosed.piece_nested hdepth hquote, hthree]
  have hinfix := quotes_infix_of_close ((close_of_nested hnested).symm.trans h) _ List.mem_cons_self
  obtain ⟨inside, behind, rfl, hinside⟩ := exists_first_triple (infix_of_append hrest hinfix)
  refine ⟨inside, behind, rfl, hinside, ?_⟩
  have hbytes : ∀ c ∈ inside, isOrdinary c = true := fun c hc => hw c (List.mem_append_left _ hc)
  have hpasses : Passes literal _ (behind ++ rest) := passes_triple hdepth hquote hbytes hinside
  obtain ⟨before', hclose⟩ := hpasses outer offset before
  have htext : quote :: quote :: quote :: (inside ++ [quote, quote, quote]) ++ (behind ++ rest) =
      quote :: quote :: quote :: (inside ++ quote :: quote :: quote :: behind ++ rest) := by simp
  rw [htext, h] at hclose
  exact ⟨_, before', hclose.symm⟩

/-- In a field, the quotes of a text are in pairs if the literal ends
    further on, and no partner can be found there.  By induction on how long
    the text is, as each pair is followed by a shorter one. -/
theorem paired_of_close {n : Nat} (hdepth : literal.depth ≠ 0)
    (hliteral : isQuote literal.quote = true) (hother : otherQuote literal.quote = quote)
    (hw : ∀ b ∈ w, isOrdinary b = true ∧ b ≠ literal.quote) (hrest : quote ∉ rest)
    (h : close literal outer 0 offset before (w ++ rest) = .ok n) : Paired quote w := by
  have hquote : isQuote quote = true := hother ▸ isQuote_otherQuote literal.quote
  induction hn : w.length using Nat.strongRecOn generalizing w offset before with
  | _ n ih =>
  subst hn
  cases w with
  | nil => exact .nil
  | cons b t =>
    obtain ⟨⟨hordinary, hne⟩, ht⟩ := List.forall_mem_cons.mp hw
    have hbytes : ∀ c ∈ t, isOrdinary c = true := fun c hc => (ht c hc).1
    by_cases hb : b = quote
    · subst hb
      cases htriple : isTriple b t with
      | false =>
        obtain ⟨inside, behind, rfl, hinside, _, _, hclose⟩ :=
          exists_single hdepth hquote hbytes hrest htriple h
        simp only [List.forall_mem_cons, List.forall_mem_append] at ht
        obtain ⟨-, -, hothers⟩ := ht
        exact .single hinside htriple (ih behind.length (by simp; omega) hothers hclose rfl)
      | true =>
        obtain ⟨more, rfl⟩ := List.isPrefixOf_iff_prefix.mp htriple
        obtain ⟨inside, behind, rfl, hinside, _, _, hclose⟩ := exists_triple hdepth hquote
          (fun c hc => hbytes c (List.mem_append_right _ hc)) hrest h
        simp only [List.forall_mem_cons, List.forall_mem_append] at ht
        obtain ⟨-, -, -, -, -, hothers⟩ := ht
        exact .triple hinside (ih behind.length (by simp; omega) hothers hclose rfl)
    · have hplain : isQuote b = false := by
        rw [Bool.eq_false_iff]
        exact fun hplain => hb (hother ▸ eq_otherQuote hliteral hplain hne)
      have hcontent : literal.piece b (t ++ rest) = .content 1 :=
        Unclosed.piece_ordinary hordinary hne (.inr hplain)
      have hclose := (close_of_content hcontent).symm.trans h
      exact .byte hb (ih t.length (Nat.lt_succ_self _) ht hclose rfl)

end StringLiteral

/-! ## Section 6: Whole literals -/

/-- Neither the quote nor the end of a line stands in a format. -/
theorem FieldFormat.mem_text {format : FieldFormat} {b : UInt8} (hquote : isQuote quote = true)
    (hvalid : format.IsValid quote) (hb : b ∈ format.text) : b ≠ quote ∧ b ≠ newline := by
  have hmark : ∀ b ∈ ascii "!r:", isQuote b = false ∧ b ≠ newline := fun b hb =>
    ⟨(isOrdinary_of_isMark hb).2, ne_newline_of_isOrdinary (isOrdinary_of_isMark hb).1⟩
  cases format with
  | plain => cases hb
  | converted =>
    obtain ⟨hne, hfeed⟩ := hmark b (List.mem_append_left [0x3A] hb)
    exact ⟨ne_of_not_isQuote hquote hne, hfeed⟩
  | specified specification =>
    rcases List.mem_append.mp hb with hcolon | hspecification
    · obtain ⟨hne, hfeed⟩ := hmark b (List.mem_append_right (ascii "!r") hcolon)
      exact ⟨ne_of_not_isQuote hquote hne, hfeed⟩
    · obtain ⟨hordinary, hne⟩ := hvalid.2 b hspecification
      exact ⟨hne, ne_newline_of_isOrdinary hordinary⟩

theorem FormatItem.mem_text {item : FormatItem} {b : UInt8} (hquote : isQuote quote = true)
    (hvalid : item.IsValid quote) (hb : b ∈ item.text) : b ≠ quote ∧ b ≠ newline := by
  have hbrace : ∀ b ∈ [leftBrace, rightBrace], b ≠ quote ∧ b ≠ newline := by
    intro b hb
    simp only [List.mem_cons, List.not_mem_nil, or_false] at hb
    rcases hb with rfl | rfl
    · exact ⟨ne_of_not_isQuote hquote rfl, by decide⟩
    · exact ⟨ne_of_not_isQuote hquote rfl, by decide⟩
  cases item with
  | byte c =>
    obtain rfl := List.mem_singleton.mp hb
    exact ⟨hvalid.2, ne_newline_of_isOrdinary hvalid.1⟩
  | openingBraces => exact hbrace b (by simp_all [FormatItem.text])
  | closingBraces => exact hbrace b (by simp_all [FormatItem.text])
  | field name format =>
    simp only [FormatItem.text, List.mem_cons, List.mem_append, List.not_mem_nil, or_false] at hb
    rcases hb with rfl | hname | hformat | rfl
    · exact hbrace _ (by simp)
    · obtain ⟨hordinary, hb⟩ := isOrdinary_of_isNameByte (hvalid.1.1.2 b hname)
      exact ⟨ne_of_not_isQuote hquote hb, ne_newline_of_isOrdinary hordinary⟩
    · exact FieldFormat.mem_text hquote hvalid.2 hformat
    · exact hbrace _ (by simp)

/-- The literal with these items between its quotes. -/
def formattedLiteral (quote : UInt8) (items : List FormatItem) : Text :=
  ascii "f" ++ quote :: (items.flatMap FormatItem.text ++ [quote])

variable {items : List FormatItem}

theorem notMem_formattedLiteral (hquote : isQuote quote = true)
    (hvalid : ∀ item ∈ items, item.IsValid quote) :
    quote ∉ items.flatMap FormatItem.text ∧ newline ∉ formattedLiteral quote items := by
  have hitems : ∀ b ∈ items.flatMap FormatItem.text, b ≠ quote ∧ b ≠ newline := by
    intro b hb
    obtain ⟨item, hitem, hb⟩ := List.mem_flatMap.mp hb
    exact FormatItem.mem_text hquote (hvalid item hitem) hb
  have hfeed : newline ≠ quote := ne_of_not_isQuote hquote rfl
  refine ⟨fun hmem => (hitems quote hmem).1 rfl, fun hmem => ?_⟩
  simp only [formattedLiteral, ascii, List.mem_append, List.mem_cons, List.not_mem_nil,
    or_false] at hmem
  rcases hmem with hprefix | hopens | hmem | hcloses
  · exact absurd hprefix (by decide)
  · exact hfeed hopens
  · exact (hitems newline hmem).2 rfl
  · exact hfeed hcloses

/-- The literal is opened by a single quote. -/
theorem length?_formattedLiteral (hquote : isQuote quote = true)
    (hvalid : ∀ item ∈ items, item.IsValid quote) :
    length? (ascii "f") (formattedLiteral quote items ++ [newline]) =
      close ⟨quote, false, true, 0, 0⟩ [] 0 2 quote
        (items.flatMap FormatItem.text ++ [quote, newline]) := by
  have hnotMem := (notMem_formattedLiteral hquote hvalid).1
  unfold formattedLiteral
  generalize items.flatMap FormatItem.text = body at hnotMem
  have hsingle : isTriple quote (body ++ [quote, newline]) = false := by
    cases body with
    | nil =>
      have hfeed : quote ≠ newline := (ne_of_not_isQuote hquote rfl).symm
      simp [isTriple, List.isPrefixOf, hfeed]
    | cons b body =>
      have hb : quote ≠ b := fun h => hnotMem (h ▸ List.mem_cons_self)
      simp [isTriple, List.isPrefixOf, hb]
  have hlength : length? (ascii "f") (0x66 :: quote :: (body ++ [quote, newline])) =
      close ⟨quote, isTriple quote (body ++ [quote, newline]), true, 0, 0⟩ []
        (quoteCount (isTriple quote (body ++ [quote, newline])) - 1) 2 quote
        (body ++ [quote, newline]) := rfl
  have htext : ascii "f" ++ quote :: (body ++ [quote]) ++ [newline] =
      0x66 :: quote :: (body ++ [quote, newline]) := by
    simp [ascii]
  rw [htext, hlength, hsingle]
  rfl

/-- It ends at its last quote, if the quotes in its fields are in pairs. -/
theorem length?_of_paired (hquote : isQuote quote = true)
    (hvalid : ∀ item ∈ items, item.IsValid quote) (hpaired : ∀ item ∈ items, item.IsPaired quote) :
    length? (ascii "f") (formattedLiteral quote items ++ [newline]) =
      .ok (formattedLiteral quote items).length := by
  let literal : Unclosed := ⟨quote, false, true, 0, 0⟩
  have hpasses : Passes literal (items.flatMap FormatItem.text) [quote, newline] :=
    passes_items hquote rfl rfl hvalid hpaired
  obtain ⟨before, hclose⟩ := hpasses [] 2 quote
  have hclosing : literal.piece quote [newline] = .closing :=
    Unclosed.piece_closing hquote rfl (.inl rfl)
  rw [length?_formattedLiteral hquote hvalid, hclose, close_of_closed hclosing]
  refine congrArg _ ?_
  show 2 + (items.flatMap FormatItem.text).length + 1 = _
  simp only [formattedLiteral, ascii, List.length_append, List.length_cons, List.length_nil]
  simp
  omega

/-- If it ends, the quotes in its last specification with one of the other
    kind are in pairs. -/
theorem paired_of_length? {before after : List FormatItem} {name specification : Text} {n : Nat}
    (hquote : isQuote quote = true)
    (hvalid : ∀ item ∈ before ++ .field name (.specified specification) :: after,
      item.IsValid quote)
    (hbefore : ∀ item ∈ before, item.IsPaired quote)
    (hafter : otherQuote quote ∉ after.flatMap FormatItem.text)
    (h : length? (ascii "f") (formattedLiteral quote
      (before ++ .field name (.specified specification) :: after) ++ [newline]) = .ok n) :
    Paired (otherQuote quote) specification := by
  let literal : Unclosed := ⟨quote, false, true, 0, 0⟩
  let opened : Unclosed := { literal with depth := 1 }
  rw [length?_formattedLiteral hquote hvalid] at h
  obtain ⟨hfirst, hfield, hlast⟩ :
      (∀ item ∈ before, item.IsValid quote) ∧
        (FormatItem.field name (.specified specification)).IsValid quote ∧
          ∀ item ∈ after, item.IsValid quote := by
    simpa only [List.forall_mem_append, List.forall_mem_cons] using hvalid
  obtain ⟨⟨hname, _⟩, hspecification⟩ := hfield
  let rest := rightBrace :: (after.flatMap FormatItem.text ++ [quote, newline])
  have htext : (before ++ .field name (.specified specification) :: after).flatMap FormatItem.text ++
      [quote, newline] = before.flatMap FormatItem.text ++
        (leftBrace :: (name ++ ([0x3A] ++ (specification ++ rest)))) := by
    simp [rest, FormatItem.text, FieldFormat.text, ascii]
  -- In front of the specification, a field of the literal is open.
  have hitems : Passes literal (before.flatMap FormatItem.text)
      (leftBrace :: (name ++ ([0x3A] ++ (specification ++ rest)))) :=
    passes_items hquote rfl rfl hfirst hbefore
  have hopen : Passes opened (name ++ [0x3A]) (specification ++ rest) :=
    .append (passes_nameBytes hquote hname.2) (.content (piece_of_mark hquote (by decide)))
  obtain ⟨between, hfront⟩ := hitems [] 2 quote
  obtain ⟨before', hmark⟩ := hopen [] (2 + (before.flatMap FormatItem.text).length + 1) leftBrace
  rw [List.append_assoc] at hmark
  rw [htext, hfront, close_leftBrace rfl rfl (head?_of_isIdentifier hname), hmark] at h
  refine paired_of_close Nat.one_ne_zero hquote rfl hspecification.2 ?_ h
  have hother := isQuote_otherQuote quote
  have hne : otherQuote quote ≠ quote := by
    unfold otherQuote
    grind
  simp only [rest, List.mem_cons, List.mem_append, List.not_mem_nil, or_false]
  rintro (hbrace | hmem | hsame | hfeed)
  · rw [hbrace] at hother
    cases hother
  · exact hafter hmem
  · exact hne hsame
  · rw [hfeed] at hother
    cases hother

namespace Scan

/-- The scan of a line that consists of a text, in front of it. -/
def started (text : Text) : Scan := ⟨text ++ [newline], .start, false, [0], [], []⟩

/-- The prefix of a literal is read together with it. -/
theorem tokenize_eq_string {text inside : Text} (htext : text = 0x66 :: quote :: inside)
    (hquote : isQuote quote = true) : tokenize (text ++ [newline]) =
      (((started text).string (ascii "f")).bind (outcome .fresh)).bind finish := by
  have henter : (ofSource (text ++ [newline])).enterLine = .ok (started text) := by
    subst htext
    rfl
  have hrest : (started text).rest = 0x66 :: quote :: (inside ++ [newline]) := by
    show text ++ [newline] = _
    rw [htext]
    rfl
  have hname : isNameByte quote = false := by
    rw [Bool.eq_false_iff]
    intro hname
    have hother := (isOrdinary_of_isNameByte hname).2
    rw [hquote] at hother
    cases hother
  have htake : (started text).rest.takeWhile isNameByte = ascii "f" := by
    rw [hrest, List.takeWhile_cons_of_pos rfl, List.takeWhile_cons_of_neg (by simp [hname])]
    rfl
  have hdrop : (started text).rest.drop (ascii "f").length = quote :: (inside ++ [newline]) := by
    rw [hrest]
    rfl
  have hquoted : (isQuote quote && isLiteralPrefix (ascii "f")) = true := by
    rw [hquote]
    rfl
  have hword : (started text).word = (started text).string (ascii "f") := by
    unfold word
    dsimp only
    rw [htake, hdrop]
    exact if_pos hquoted
  rw [tokenize_eq, outcome_of_enter henter, ← hword]
  unfold outcome
  simp only [hrest]
  rfl

/-- A line that is accepted has its literal ended. -/
theorem exists_length_of_tokenize {text inside : Text} {tokens : List Token}
    (htext : text = 0x66 :: quote :: inside) (hquote : isQuote quote = true)
    (h : tokenize (text ++ [newline]) = .ok tokens) :
    ∃ n, length? (ascii "f") (text ++ [newline]) = .ok n := by
  rw [tokenize_eq_string htext hquote] at h
  unfold string at h
  cases hlength : length? (ascii "f") (started text).rest with
  | ok n => exact ⟨n, hlength⟩
  | error literal =>
    rw [hlength] at h
    cases h

/-- Behind a token that a line consists of, only the line is ended. -/
theorem finish_literal (text : Text) (lexeme : Lexeme) :
    (outcome .fresh (((started text).emit lexeme).skip text.length)).bind finish = .ok
      [⟨lexeme, .start⟩, ⟨.newline, Position.start.advance text⟩,
        ⟨.endMarker, Position.start.advance (text ++ [newline])⟩] := by
  let read : Scan := ⟨[newline], Position.start.advance text, false, [0], [], [⟨lexeme, .start⟩]⟩
  let ended : Scan := ⟨[], (Position.start.advance text).advance [newline], true, [0], [],
    [⟨.newline, Position.start.advance text⟩, ⟨lexeme, .start⟩]⟩
  have hread : ((started text).emit lexeme).skip text.length = read := by
    unfold skip emit started
    rw [List.drop_left, List.take_left]
  have hline : read.piece newline [] = .ok ended := rfl
  have hlast : ended.enterLine = .ok ended := rfl
  have houtcome : outcome .fresh read = .ok ended := by
    rw [outcome_of_started rfl, outcome_of_piece rfl hline, outcome_of_enter hlast,
      outcome_of_nil rfl]
  rw [hread, houtcome, Position.advance_append]
  rfl

/-- A literal that a line consists of is one token. -/
theorem tokenize_literal {text inside : Text} (htext : text = 0x66 :: quote :: inside)
    (hquote : isQuote quote = true) (hfeed : newline ∉ text)
    (hlength : length? (ascii "f") (text ++ [newline]) = .ok text.length) :
    tokenize (text ++ [newline]) = .ok
      [⟨.string text true false, ⟨1, 1⟩⟩, ⟨.newline, ⟨1, text.length + 1⟩⟩, ⟨.endMarker, ⟨2, 1⟩⟩] := by
  have hposition : Position.start.advance text = ⟨1, text.length + 1⟩ := by
    rw [Position.advance_of_notMem _ hfeed, Nat.add_comm]
    rfl
  have hread : (started text).string (ascii "f") =
      .ok (((started text).emit (.string text true false)).skip text.length) := by
    unfold string
    rw [show length? (ascii "f") (started text).rest = .ok text.length from hlength]
    dsimp only
    rw [show (started text).rest.take text.length = text from List.take_left]
    rfl
  rw [tokenize_eq_string htext hquote, hread]
  refine (finish_literal text _).trans ?_
  rw [Position.advance_append, hposition]
  rfl

end Scan

/-- **Formatted literals end where they should**: a formatted literal of
    ordinary bytes, doubled braces and replacement fields is one token with
    all of its text, if the quotes of the other kind are in pairs in each of
    its specifications.  Elsewhere they may stand as they like.  There is no
    other way for the last specification that has one: unless its quotes are
    in pairs, the literal is not terminated. -/
theorem tokenize_formatted (hquote : isQuote quote = true)
    (hvalid : ∀ item ∈ items, item.IsValid quote) :
    ((∀ item ∈ items, item.IsPaired quote) →
      tokenize (formattedLiteral quote items ++ [newline]) = .ok
        [⟨.string (formattedLiteral quote items) true false, ⟨1, 1⟩⟩,
          ⟨.newline, ⟨1, (formattedLiteral quote items).length + 1⟩⟩, ⟨.endMarker, ⟨2, 1⟩⟩]) ∧
    ∀ before name specification after,
      items = before ++ .field name (.specified specification) :: after →
        (∀ item ∈ before, item.IsPaired quote) →
          otherQuote quote ∉ after.flatMap FormatItem.text →
            ((∃ tokens, tokenize (formattedLiteral quote items ++ [newline]) = .ok tokens) ↔
              Paired (otherQuote quote) specification) := by
  have htoken : (∀ item ∈ items, item.IsPaired quote) →
      tokenize (formattedLiteral quote items ++ [newline]) = .ok
        [⟨.string (formattedLiteral quote items) true false, ⟨1, 1⟩⟩,
          ⟨.newline, ⟨1, (formattedLiteral quote items).length + 1⟩⟩, ⟨.endMarker, ⟨2, 1⟩⟩] :=
    fun hpaired => Scan.tokenize_literal rfl hquote (notMem_formattedLiteral hquote hvalid).2
      (length?_of_paired hquote hvalid hpaired)
  refine ⟨htoken, ?_⟩
  rintro before name specification after rfl hbefore hafter
  constructor
  · rintro ⟨tokens, htokens⟩
    obtain ⟨n, hlength⟩ := Scan.exists_length_of_tokenize rfl hquote htokens
    exact paired_of_length? hquote hvalid hbefore hafter hlength
  · intro hpaired
    refine ⟨_, htoken fun item hmem => ?_⟩
    rcases List.mem_append.mp hmem with hfirst | hmem
    · exact hbefore item hfirst
    · rcases List.mem_cons.mp hmem with rfl | hlast
      · exact hpaired
      · exact FormatItem.isPaired_of_notMem fun hother =>
          hafter (List.mem_flatMap.mpr ⟨item, hlast, hother⟩)

/-- A specification in quotes, between doubled braces, and an apostrophe. -/
theorem formatted_of_quoted_specification :
    tokenize (ascii "f\"\x7b\x7b\x7bx:'<'\x7d'\x7b_a1!r\x7d\x7d\x7d\"\n") = .ok
      [⟨.string (ascii "f\"\x7b\x7b\x7bx:'<'\x7d'\x7b_a1!r\x7d\x7d\x7d\"") true false, ⟨1, 1⟩⟩,
        ⟨.newline, ⟨1, 23⟩⟩, ⟨.endMarker, ⟨2, 1⟩⟩] := by
  let items : List FormatItem :=
    [.openingBraces, .field (ascii "x") (.specified (ascii "'<'")), .byte apostrophe,
      .field (ascii "_a1") .converted, .closingBraces]
  have hvalid : ∀ item ∈ items, item.IsValid doubleQuote := by decide
  have hpaired : ∀ item ∈ items, item.IsPaired doubleQuote := by
    simp only [items, List.forall_mem_cons]
    have hquoted : Paired apostrophe (apostrophe :: (ascii "<" ++ apostrophe :: [])) :=
      .single (by decide) rfl .nil
    exact ⟨trivial, hquoted, trivial, trivial, trivial, by simp⟩
  exact (@tokenize_formatted doubleQuote items rfl hvalid).1 hpaired

/-- A quote of the other kind in a specification is taken for one that opens
    a literal, although the literal around it is closed. -/
theorem unterminated_of_quote_in_specification :
    ∃ (quote : UInt8) (items : List FormatItem), isQuote quote = true ∧
      (∀ item ∈ items, item.IsValid quote) ∧
        tokenize (formattedLiteral quote items ++ [newline]) =
          .error ⟨⟨1, 6⟩, .unterminatedString false⟩ :=
  ⟨apostrophe, [.field (ascii "x") (.specified [doubleQuote])], rfl, by decide, rfl⟩

end StyleCheck
