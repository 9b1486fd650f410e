import StyleCheck.Proofs.Scan.Fields
import StyleCheck.Proofs.Scan.Rendering
import StyleCheck.Proofs.Scan.Span

/-! # Plain Literals

    A string literal without replacement fields ends at the first of its
    delimiters that no backslash hides.  Its body is read in units, each a
    byte or a backslash with the byte behind it, so that a delimiter counts
    where a unit ends and nowhere else.  A literal of one line must not have
    a line feed for a unit.

    * `BodyUnit`: what a body is read in.
    * `FirstBoundary`: the first place between units with a delimiter
      behind it.  `EndsBody`: a literal ends there.
    * `StringLiteral.close_plain`: the scanner finds this place, or there is
      none, by induction on the body.
    * `plainLiterals_end`: literals at any place of a source, and texts that
      are put in quotes.
-/

namespace StyleCheck

open Byte

/-! ## Section 1: Units -/

/-- What the body of a plain literal is read in: a byte that is no
    backslash, or a backslash with the byte behind it. -/
inductive BodyUnit where
  | plain (b : UInt8) (hb : b ≠ backslash)
  | escaped (b : UInt8)

namespace BodyUnit

def text : BodyUnit → Text
  | plain b _ => [b]
  | escaped b => [backslash, b]

/-- The text of some units, one behind the other. -/
def spell (units : List BodyUnit) : Text := units.flatMap text

@[simp] theorem spell_nil : spell [] = [] := rfl

@[simp] theorem spell_cons (unit : BodyUnit) (units : List BodyUnit) :
    spell (unit :: units) = unit.text ++ spell units := rfl

theorem text_length_pos (unit : BodyUnit) : 0 < unit.text.length := by
  cases unit <;> simp [text]

/-- A text starts with one unit at most. -/
theorem eq_of_text_append {unit other : BodyUnit} {rest rest' : Text}
    (h : unit.text ++ rest = other.text ++ rest') : unit = other ∧ rest = rest' := by
  cases unit with
  | plain b hb =>
    cases other with
    | plain c hc =>
      obtain ⟨rfl, hrest⟩ := List.cons.inj h
      exact ⟨rfl, hrest⟩
    | escaped c => exact absurd (List.cons.inj h).1 hb
  | escaped b =>
    cases other with
    | plain c hc => exact absurd (List.cons.inj h).1.symm hc
    | escaped c =>
      obtain ⟨rfl, hrest⟩ := List.cons.inj (List.cons.inj h).2
      exact ⟨rfl, hrest⟩

end BodyUnit

open StringLiteral BodyUnit

/-- Behind the units, and at no place between units in front of it, a text
    goes on with the delimiter. -/
structure FirstBoundary (delimiter body : Text) (units : List BodyUnit) : Prop where
  closes : spell units ++ delimiter <+: body
  first : ∀ earlier, spell earlier ++ delimiter <+: body →
    (spell units).length ≤ (spell earlier).length

/-- The body of a literal consists of the units: its delimiter is behind
    them for the first time, and none of them ends the line of a literal
    that may not reach across it. -/
structure EndsBody (quote : UInt8) (triple : Bool) (body : Text) (units : List BodyUnit) :
    Prop where
  boundary : FirstBoundary (delimiter quote triple) body units
  oneLine : triple = false → ∀ unit ∈ units, unit.text ≠ [newline]

variable {quote : UInt8} {triple : Bool} {body rest : Text} {unit : BodyUnit}
  {units others : List BodyUnit}

/-- A literal has one end at most. -/
theorem FirstBoundary.spell_eq {delimiter : Text} (h : FirstBoundary delimiter body units)
    (h' : FirstBoundary delimiter body others) : spell units = spell others := by
  have hlength := Nat.le_antisymm (h.first others h'.closes) (h'.first units h.closes)
  have hunits := (List.prefix_append _ _).trans h.closes
  have hothers := (List.prefix_append _ _).trans h'.closes
  exact (List.prefix_of_prefix_length_le hunits hothers (Nat.le_of_eq hlength)).eq_of_length hlength

/-- A literal ends at once where its delimiter stands. -/
theorem EndsBody.nil (h : delimiter quote triple <+: body) : EndsBody quote triple body [] :=
  ⟨⟨h, fun _ _ => Nat.zero_le _⟩, fun _ => List.forall_mem_nil _⟩

/-- Where its delimiter does not stand, it ends behind a unit. -/
theorem endsBody_append_iff (hclosing : ¬ delimiter quote triple <+: unit.text ++ rest)
    (hline : triple = false → unit.text ≠ [newline]) :
    EndsBody quote triple (unit.text ++ rest) units ↔
      ∃ behind, units = unit :: behind ∧ EndsBody quote triple rest behind := by
  have hsplit : ∀ {earlier}, spell earlier ++ delimiter quote triple <+: unit.text ++ rest →
      ∃ behind, earlier = unit :: behind ∧ spell behind ++ delimiter quote triple <+: rest := by
    intro earlier hprefix
    cases earlier with
    | nil => exact absurd hprefix hclosing
    | cons other behind =>
      obtain ⟨more, hmore⟩ := hprefix
      rw [spell_cons, List.append_assoc, List.append_assoc] at hmore
      obtain ⟨rfl, hrest⟩ := eq_of_text_append hmore
      exact ⟨behind, rfl, more, by rw [List.append_assoc, hrest]⟩
  have hjoin : ∀ {behind}, spell behind ++ delimiter quote triple <+: rest →
      spell (unit :: behind) ++ delimiter quote triple <+: unit.text ++ rest := by
    intro behind hprefix
    rw [spell_cons, List.append_assoc]
    exact (List.prefix_append_right_inj _).mpr hprefix
  constructor
  · intro h
    obtain ⟨behind, rfl, hcloses⟩ := hsplit h.boundary.closes
    refine ⟨behind, rfl, ⟨hcloses, fun earlier hearlier => ?_⟩, fun hsingle => ?_⟩
    · have hle := h.boundary.first _ (hjoin hearlier)
      simpa using hle
    · exact (List.forall_mem_cons.mp (h.oneLine hsingle)).2
  · rintro ⟨behind, rfl, h⟩
    refine ⟨⟨hjoin h.boundary.closes, fun earlier hearlier => ?_⟩, fun hsingle => ?_⟩
    · obtain ⟨others, rfl, hothers⟩ := hsplit hearlier
      have hle := h.boundary.first _ hothers
      simpa using hle
    · exact List.forall_mem_cons.mpr ⟨hline hsingle, h.oneLine hsingle⟩

/-! ## Section 2: Closing a literal -/

namespace StringLiteral

/-- What closing a literal should come to, behind an offset: the place
    behind the delimiter, or that there is no such place. -/
def Settles (literal : Unclosed) (body : Text) (offset : Nat) : Except Unterminated Nat → Prop
  | .ok stop => ∃ units, EndsBody literal.quote literal.triple body units ∧
      stop = offset + (spell units).length + quoteCount literal.triple
  | .error e => e = literal.unterminated ∧
      ∀ units, ¬ EndsBody literal.quote literal.triple body units

variable {literal : Unclosed} {offset : Nat} {b : UInt8} {result : Except Unterminated Nat}

theorem delimiter_prefix_cons :
    delimiter quote triple <+: b :: rest ↔ b = quote ∧ (triple = true → isTriple b rest = true) := by
  have hflip : b = quote ↔ quote = b := ⟨Eq.symm, Eq.symm⟩
  cases triple with
  | false => simp [delimiter, quoteCount, List.cons_prefix_cons, hflip]
  | true =>
    simp only [delimiter, quoteCount, if_true, List.replicate, List.cons_prefix_cons, isTriple,
      List.isPrefixOf_iff_prefix, hflip, forall_const]
    constructor
    · rintro ⟨rfl, h⟩
      exact ⟨rfl, h⟩
    · rintro ⟨rfl, h⟩
      exact ⟨rfl, h⟩

/-- Without replacement fields, only four kinds of bytes are told apart. -/
theorem Unclosed.piece_plain (hformatted : literal.formatted = false) (hdepth : literal.depth = 0) :
    literal.piece b rest =
      if b = backslash then .content 2
      else if b = newline then if literal.triple then .content 1 else .lineEnd
      else if delimiter literal.quote literal.triple <+: b :: rest then .closing
      else .content 1 := by
  unfold Unclosed.piece
  cases literal.triple <;> simp [hformatted, hdepth, delimiter_prefix_cons]

/-- A unit is passed that the literal does not end at. -/
theorem Settles.append (hclosing : ¬ delimiter literal.quote literal.triple <+: unit.text ++ rest)
    (hline : literal.triple = false → unit.text ≠ [newline])
    (h : Settles literal rest (offset + unit.text.length) result) :
    Settles literal (unit.text ++ rest) offset result := by
  cases result with
  | ok stop =>
    obtain ⟨units, hends, rfl⟩ := h
    refine ⟨unit :: units, (endsBody_append_iff hclosing hline).mpr ⟨units, rfl, hends⟩, ?_⟩
    rw [spell_cons, List.length_append]
    omega
  | error e =>
    obtain ⟨rfl, hnone⟩ := h
    refine ⟨rfl, fun units hends => ?_⟩
    obtain ⟨behind, rfl, hbehind⟩ := (endsBody_append_iff hclosing hline).mp hends
    exact hnone behind hbehind

/-- There is no end where neither the delimiter nor a unit stands that
    belongs to the literal. -/
theorem Settles.error (hclosing : ¬ delimiter literal.quote literal.triple <+: body)
    (hunit : ∀ unit rest, body = BodyUnit.text unit ++ rest →
      literal.triple = false ∧ unit.text = [newline]) :
    Settles literal body offset (.error literal.unterminated) := by
  refine ⟨rfl, fun units h => ?_⟩
  cases units with
  | nil => exact hclosing h.boundary.closes
  | cons unit units =>
    obtain ⟨more, hmore⟩ := h.boundary.closes
    rw [spell_cons, List.append_assoc, List.append_assoc] at hmore
    obtain ⟨hsingle, hnewline⟩ := hunit unit _ hmore.symm
    exact h.oneLine hsingle unit List.mem_cons_self hnewline

theorem close_of_lineEnd {before : UInt8} (h : literal.piece b rest = .lineEnd) :
    close literal [] 0 offset before (b :: rest) = .error literal.unterminated := by
  simp only [close.eq_def literal [] 0, h]

/-- Where the delimiter does not stand, a unit is read over, or there is no
    unit that belongs to the literal. -/
theorem close_unit (hformatted : literal.formatted = false) (hdepth : literal.depth = 0)
    (hclosing : ¬ delimiter literal.quote literal.triple <+: body) :
    (∃ unit behind before', body = BodyUnit.text unit ++ behind ∧
      (literal.triple = false → unit.text ≠ [newline]) ∧
      ∀ offset before, close literal [] 0 offset before body =
        close literal [] 0 (offset + unit.text.length) before' behind) ∨
    (∀ offset before, close literal [] 0 offset before body = .error literal.unterminated) ∧
      ∀ unit rest, body = BodyUnit.text unit ++ rest →
        literal.triple = false ∧ unit.text = [newline] := by
  cases body with
  | nil =>
    refine .inr ⟨fun _ _ => rfl, fun unit rest h => ?_⟩
    cases unit <;> cases h
  | cons b rest =>
    have hpiece := @Unclosed.piece_plain rest literal b hformatted hdepth
    by_cases hescape : b = backslash
    · rw [if_pos hescape] at hpiece
      subst hescape
      cases rest with
      | nil =>
        -- The last byte of the source hides nothing.
        refine .inr ⟨fun _ _ => close_of_content hpiece, fun unit rest h => ?_⟩
        cases unit with
        | plain c hc => exact absurd (List.cons.inj h).1.symm hc
        | escaped c => cases (List.cons.inj h).2
      | cons c rest =>
        exact .inl ⟨.escaped c, rest, c, rfl, fun _ => nofun, fun _ _ => close_of_content hpiece⟩
    rw [if_neg hescape] at hpiece
    -- Any other byte is a unit of its own, if the literal goes on behind it.
    have hplain : literal.piece b rest = .content 1 → ∀ offset before,
        close literal [] 0 offset before (b :: rest) = close literal [] 0 (offset + 1) b rest :=
      fun hone _ _ => close_of_content hone
    by_cases hfeed : b = newline
    · rw [if_pos hfeed] at hpiece
      cases htriple : literal.triple with
      | true =>
        rw [htriple, if_pos rfl] at hpiece
        exact .inl ⟨.plain b hescape, rest, b, rfl, fun hsingle => (by cases hsingle),
          hplain hpiece⟩
      | false =>
        rw [htriple, if_neg Bool.false_ne_true] at hpiece
        refine .inr ⟨fun _ _ => close_of_lineEnd hpiece, fun unit rest h => ⟨rfl, ?_⟩⟩
        cases unit with
        | plain c hc => exact congrArg (fun d => [d]) ((List.cons.inj h).1.symm.trans hfeed)
        | escaped c => exact absurd (List.cons.inj h).1 hescape
    · rw [if_neg hfeed, if_neg hclosing] at hpiece
      exact .inl ⟨.plain b hescape, rest, b, rfl, fun _ heq => hfeed (List.cons.inj heq).1,
        hplain hpiece⟩

/-- A quote is neither a backslash nor a line feed, so the delimiter ends a
    literal wherever it stands. -/
theorem close_delimiter (hformatted : literal.formatted = false) (hdepth : literal.depth = 0)
    (hquote : isQuote literal.quote = true)
    (hclosing : delimiter literal.quote literal.triple <+: body) {before : UInt8} :
    close literal [] 0 offset before body = .ok (offset + quoteCount literal.triple) := by
  cases body with
  | nil => cases htriple : literal.triple <;> simp [delimiter, quoteCount, htriple] at hclosing
  | cons b rest =>
    obtain ⟨rfl, _⟩ := delimiter_prefix_cons.mp hclosing
    have hescape : literal.quote ≠ backslash := fun heq => by
      rw [heq] at hquote
      cases hquote
    have hfeed : literal.quote ≠ newline := fun heq => by
      rw [heq] at hquote
      cases hquote
    have hpiece := @Unclosed.piece_plain rest literal literal.quote hformatted hdepth
    rw [if_neg hescape, if_neg hfeed, if_pos hclosing] at hpiece
    exact close_of_closed hpiece

/-- **Plain literals are settled**: the scanner finds the end of the body,
    or there is none.  By induction on the length of the body, which is read
    a unit at a time. -/
theorem close_plain (hformatted : literal.formatted = false) (hdepth : literal.depth = 0)
    (hquote : isQuote literal.quote = true) (body : Text) (offset : Nat) (before : UInt8) :
    Settles literal body offset (close literal [] 0 offset before body) := by
  induction hlength : body.length using Nat.strong_induction_on generalizing body offset before with
  | _ n ih =>
    by_cases hclosing : delimiter literal.quote literal.triple <+: body
    · rw [close_delimiter hformatted hdepth hquote hclosing]
      exact ⟨[], .nil hclosing, rfl⟩
    rcases close_unit hformatted hdepth hclosing with
      ⟨unit, behind, before', rfl, hline, hclose⟩ | ⟨herror, hunit⟩
    · rw [hclose]
      have hpos := unit.text_length_pos
      rw [List.length_append] at hlength
      exact .append hclosing hline (ih behind.length (by omega) behind _ _ rfl)
    · rw [herror]
      exact .error hclosing hunit

end StringLiteral

/-! ## Section 3: Literals in a source -/

/-- A literal without replacement fields starts at the front of a text: a
    prefix with neither `f` nor `F`, the opening quotes, and the body. -/
structure OpensPlain (word : Text) (quote : UInt8) (triple : Bool) (body t : Text) : Prop where
  text : t = word ++ (delimiter quote triple ++ body)
  isQuote : Byte.isQuote quote = true
  isPrefix : word = [] ∨ isLiteralPrefix word = true
  plain : ∀ b ∈ ascii "fF", b ∉ word
  /-- Two quotes behind the first would be opening quotes, too. -/
  single : triple = false → ¬ [quote, quote] <+: body

variable {word t : Text}

theorem Byte.toLower_eq_f {b : UInt8} (h : toLower b = 0x66) : b ∈ ascii "fF" := by
  unfold toLower at h
  have hascii : ascii "fF" = [0x66, 0x46] := rfl
  rw [hascii]
  split at h
  · have hb : b = 0x46 := by
      grind
    simp [hb]
  · simp [h]

theorem OpensPlain.isFormatted (h : OpensPlain word quote triple body t) :
    isFormatted word = false := by
  rw [Bool.eq_false_iff]
  intro hformatted
  obtain ⟨b, hb, hlower⟩ := List.mem_map.mp (List.elem_iff.mp hformatted)
  exact h.plain b (toLower_eq_f hlower) hb

/-- The opening quotes are read over to the body. -/
theorem OpensPlain.length?_eq (h : OpensPlain word quote triple body t) :
    length? word t =
      close ⟨quote, triple, false, 0, 0⟩ [] 0 (word.length + quoteCount triple) quote body := by
  have htriple : isTriple quote ((delimiter quote triple).tail ++ body) = triple := by
    cases htriple : triple with
    | true => simp [delimiter, quoteCount, isTriple]
    | false =>
      rw [← Bool.not_eq_true]
      simpa [delimiter, quoteCount, isTriple] using h.single htriple
  have hdrop : t.drop word.length = quote :: ((delimiter quote triple).tail ++ body) := by
    rw [h.text, List.drop_left]
    cases triple <;> rfl
  unfold length?
  simp only [hdrop, htriple, h.isFormatted]
  cases triple <;> rfl

/-- The prefix of a literal is made of letters. -/
theorem StringLiteral.isLetter_of_isLiteralPrefix (h : isLiteralPrefix word = true) {b : UInt8}
    (hb : b ∈ word) : isLetter b = true := by
  have hlower : isLower (toLower b) = true := by
    have hmem : Text.toLower word ∈ [ascii "r", ascii "u", ascii "b", ascii "f", ascii "br",
        ascii "rb", ascii "fr", ascii "rf"] := List.elem_iff.mp h
    have hall : ∀ p ∈ [ascii "r", ascii "u", ascii "b", ascii "f", ascii "br", ascii "rb",
        ascii "fr", ascii "rf"], p.all isLower = true := by decide
    exact List.all_eq_true.mp (hall _ hmem) _ (List.mem_map_of_mem hb)
  unfold isLetter
  unfold toLower at hlower
  split at hlower
  case isTrue hupper => rw [hupper, Bool.true_or]
  case isFalse => rw [hlower, Bool.or_true]

theorem Byte.not_isHigh_of_isLetter {b : UInt8} (h : isLetter b = true) : isHigh b = false := by
  unfold isLetter isUpper isLower at h
  unfold isHigh
  grind

/-- The next piece is the literal, with its prefix if it has one. -/
theorem OpensPlain.piece_eq {s : Scan} {b : UInt8} {after : Text}
    (h : OpensPlain word quote triple body (b :: after)) (hrest : s.rest = b :: after) :
    s.piece b after = s.string word := by
  have hquote := h.isQuote
  have hopening : ∃ inside, delimiter quote triple ++ body = quote :: inside := by
    cases triple <;> exact ⟨_, rfl⟩
  obtain ⟨inside, hinside⟩ := hopening
  have htext := h.text
  rw [hinside] at htext
  rcases h.isPrefix with rfl | hprefix
  · obtain ⟨rfl, rfl⟩ := List.cons.inj htext
    have hcases : b = apostrophe ∨ b = doubleQuote := by simpa [Byte.isQuote] using hquote
    have hstarts : NumberLiteral.startsAt s.rest = false := by
      rw [hrest]
      rcases hcases with rfl | rfl <;> cases after <;> rfl
    unfold Scan.piece
    rw [hstarts]
    rcases hcases with rfl | rfl <;> rfl
  · have hletters : ∀ c ∈ word, isLetter c = true := fun c =>
      isLetter_of_isLiteralPrefix hprefix
    have hfirst : isLetter b = true := by
      cases word with
      | nil => cases hprefix
      | cons c more =>
        obtain ⟨rfl, -⟩ := List.cons.inj htext
        exact hletters b List.mem_cons_self
    have hname : isNameStart b = true := by
      unfold isNameStart
      rw [hfirst, Bool.true_or, Bool.true_or]
    have hother : (quote :: inside).head?.all (isNameByte · = false) := by
      have hcases : quote = apostrophe ∨ quote = doubleQuote := by
        simpa [Byte.isQuote] using hquote
      rcases hcases with rfl | rfl <;> rfl
    have htake : s.rest.takeWhile isNameByte = word := by
      rw [hrest, htext]
      refine (Text.longest_append (fun c hc => ?_) (by simpa using hother)).1
      unfold isNameByte isNameStart
      rw [hletters c hc, Bool.true_or, Bool.true_or, Bool.true_or]
    have hprefixed : s.isPrefixed = true := by
      unfold Scan.isPrefixed
      rw [htake, hrest, htext, List.drop_left, hprefix]
      simp [hquote]
    have hcode := @startsCode_of_class isLetter b hfirst rfl (not_isHigh_of_isLetter hfirst)
    simp only [startsCode, Bool.and_eq_true, Bool.not_eq_true', bne_iff_ne] at hcode
    unfold Scan.piece
    simp [hcode, hname, Scan.word_eq, hprefixed, htake]

/-- A literal with its prefix and its quotes. -/
def plainText (word : Text) (quote : UInt8) (triple : Bool) (units : List BodyUnit) : Text :=
  word ++ (delimiter quote triple ++ (spell units ++ delimiter quote triple))

/-- What a literal is read as: its text, and whether it is made of bytes. -/
def plainLexeme (word : Text) (quote : UInt8) (triple : Bool) (units : List BodyUnit) : Lexeme :=
  .string (plainText word quote triple units) false (decide (∃ b ∈ ascii "bB", b ∈ word))

theorem Byte.toLower_eq_b (b : UInt8) : toLower b = 0x62 ↔ b ∈ ascii "bB" := by
  unfold toLower isUpper
  have hascii : ascii "bB" = [0x62, 0x42] := rfl
  rw [hascii, List.mem_cons, List.mem_singleton]
  grind

theorem StringLiteral.isBytes_eq (word : Text) :
    isBytes word = decide (∃ b ∈ ascii "bB", b ∈ word) := by
  have hiff : isBytes word = true ↔ ∃ b ∈ ascii "bB", b ∈ word := by
    simp only [isBytes, Text.toLower, List.elem_iff, List.mem_map, toLower_eq_b]
    exact exists_congr fun _ => and_comm
  rw [Bool.eq_iff_iff, hiff, decide_eq_true_iff]

theorem OpensPlain.plainText_prefix (h : OpensPlain word quote triple body t)
    (hends : EndsBody quote triple body units) : plainText word quote triple units <+: t := by
  rw [h.text]
  exact (List.prefix_append_right_inj _).mpr
    ((List.prefix_append_right_inj _).mpr hends.boundary.closes)

/-- A literal that has an end is read up to there. -/
theorem OpensPlain.string_eq_ok {s : Scan} (h : OpensPlain word quote triple body s.rest)
    (hends : EndsBody quote triple body units) :
    s.string word = .ok ((s.emit (plainLexeme word quote triple units)).skip
      (plainText word quote triple units).length) := by
  have hsettles := @close_plain ⟨quote, triple, false, 0, 0⟩ rfl rfl h.isQuote body
    (word.length + quoteCount triple) quote
  rw [← h.length?_eq] at hsettles
  unfold Scan.string
  cases hlength : length? word s.rest with
  | error e =>
    rw [hlength] at hsettles
    exact absurd hends (hsettles.2 units)
  | ok n =>
    rw [hlength] at hsettles
    obtain ⟨others, hothers, hn⟩ := hsettles
    have hspell := hothers.boundary.spell_eq hends.boundary
    have hn : n = (plainText word quote triple units).length := by
      rw [hn, hspell]
      simp only [plainText, delimiter, List.length_append, List.length_replicate]
      omega
    have htake : s.rest.take (plainText word quote triple units).length =
        plainText word quote triple units :=
      (List.prefix_iff_eq_take.mp (h.plainText_prefix hends)).symm
    rw [hn]
    simp only [htake, h.isFormatted, isBytes_eq]
    rfl

/-- One that has none is reported at its start. -/
theorem OpensPlain.string_eq_error {s : Scan} (h : OpensPlain word quote triple body s.rest)
    (hends : ¬ ∃ units, EndsBody quote triple body units) :
    s.string word = .error ⟨s.position, .unterminatedString triple⟩ := by
  have hsettles := @close_plain ⟨quote, triple, false, 0, 0⟩ rfl rfl h.isQuote body
    (word.length + quoteCount triple) quote
  rw [← h.length?_eq] at hsettles
  unfold Scan.string
  cases hlength : length? word s.rest with
  | error e =>
    rw [hlength] at hsettles
    obtain rfl := hsettles.1
    rfl
  | ok n =>
    rw [hlength] at hsettles
    obtain ⟨others, hothers, _⟩ := hsettles
    exact absurd ⟨others, hothers⟩ hends

/-! ## Section 4: Texts in quotes -/

/-- A text in quotes, some of its bytes behind a backslash. -/
def quoted (quote : UInt8) (escapes : UInt8 → Bool) (t : Text) : Text :=
  quote :: ((t.flatMap fun b => if escapes b then [backslash, b] else [b]) ++ [quote])

/-- Units that neither start with the quote nor end a line are the body of
    a literal that the quote closes. -/
theorem endsBody_of_heads
    (h : ∀ unit ∈ units, unit.text ≠ [newline] ∧ unit.text.head? ≠ some quote) :
    EndsBody quote false (spell units ++ quote :: rest) units := by
  induction units with
  | nil => exact .nil (List.prefix_append [quote] rest)
  | cons unit units ih =>
    obtain ⟨⟨hline, hhead⟩, hunits⟩ := List.forall_mem_cons.mp h
    rw [spell_cons, List.append_assoc]
    refine (endsBody_append_iff ?_ fun _ => hline).mpr ⟨units, rfl, ih hunits⟩
    rintro ⟨more, hmore⟩
    cases unit <;> exact hhead (congrArg List.head? hmore).symm

/-- With a backslash in front of every quote, backslash and line feed, a
    text is made of such units. -/
theorem exists_units_of_escapes {escapes : UInt8 → Bool}
    (hescapes : ∀ b, b = quote ∨ b = backslash ∨ b = newline → escapes b = true)
    (hquote : isQuote quote = true) (t : Text) :
    ∃ units, spell units = (t.flatMap fun b => if escapes b then [backslash, b] else [b]) ∧
      ∀ unit ∈ units, unit.text ≠ [newline] ∧ unit.text.head? ≠ some quote := by
  induction t with
  | nil => exact ⟨[], rfl, List.forall_mem_nil _⟩
  | cons b t ih =>
    obtain ⟨units, hspell, hunits⟩ := ih
    rw [List.flatMap_cons, ← hspell]
    cases hb : escapes b with
    | true =>
      refine ⟨.escaped b :: units, rfl, List.forall_mem_cons.mpr ⟨⟨nofun, fun hhead => ?_⟩, hunits⟩⟩
      obtain rfl := Option.some.inj hhead
      cases hquote
    | false =>
      have hne : b ≠ quote ∧ b ≠ backslash ∧ b ≠ newline := by
        refine ⟨fun h => ?_, fun h => ?_, fun h => ?_⟩
        all_goals simp [hescapes b (by simp [h])] at hb
      refine ⟨.plain b hne.2.1 :: units, rfl,
        List.forall_mem_cons.mpr ⟨⟨fun h => ?_, fun h => ?_⟩, hunits⟩⟩
      · exact hne.2.2 (List.cons.inj h).1
      · exact hne.1 (Option.some.inj h)

/-- A text in quotes is one token. -/
theorem tokenize_quoted {escapes : UInt8 → Bool} (hquote : isQuote quote = true)
    (hescapes : ∀ b, b = quote ∨ b = backslash ∨ b = newline → escapes b = true) (t : Text) :
    tokenize (quoted quote escapes t ++ [newline]) = .ok
      [⟨.string (quoted quote escapes t) false false, .start⟩,
        ⟨.newline, Position.start.advance (quoted quote escapes t)⟩,
        ⟨.endMarker, Position.start.advance (quoted quote escapes t ++ [newline])⟩] := by
  obtain ⟨units, hspell, hunits⟩ := exists_units_of_escapes hescapes hquote t
  have htext : quoted quote escapes t = quote :: (spell units ++ [quote]) := by
    rw [hspell]
    rfl
  generalize quoted quote escapes t = text at htext
  have hends : EndsBody quote false (spell units ++ [quote, newline]) units :=
    endsBody_of_heads hunits
  have hsource : text ++ [newline] = quote :: (spell units ++ [quote, newline]) := by
    rw [htext]
    simp
  have hopens : OpensPlain [] quote false (spell units ++ [quote, newline]) (text ++ [newline]) := by
    refine ⟨hsource, hquote, .inl rfl, fun _ _ => List.not_mem_nil, fun _ hprefix => ?_⟩
    -- Behind the quote stands a unit, or the quote that closes and a line feed.
    cases units with
    | nil =>
      have hfeed : quote = newline := by simpa [List.cons_prefix_cons] using hprefix
      rw [hfeed] at hquote
      cases hquote
    | cons unit units =>
      obtain ⟨more, hmore⟩ := hprefix
      have hhead := (hunits unit List.mem_cons_self).2
      cases unit <;> exact hhead (congrArg List.head? hmore).symm
  have hplain : plainText [] quote false units = text := htext.symm
  have henter : (Scan.ofSource (text ++ [newline])).enterLine = .ok (Scan.started text) := by
    have hcases : quote = apostrophe ∨ quote = doubleQuote := by
      simpa [Byte.isQuote] using hquote
    rw [htext]
    rcases hcases with rfl | rfl <;> rfl
  have hpiece : (Scan.started text).piece quote (spell units ++ [quote, newline]) =
      .ok (((Scan.started text).emit (.string text false false)).skip text.length) := by
    rw [OpensPlain.piece_eq (hsource ▸ hopens) hsource, OpensPlain.string_eq_ok hopens hends, ← hplain]
    rfl
  rw [Scan.tokenize_eq, Scan.outcome_of_enter henter, Scan.outcome_of_piece hsource hpiece,
    Scan.finish_literal]

/-- **Plain literals end at the first unescaped delimiter**, wherever in a
    source one starts whose prefix has no `f`.  Reading it succeeds if and
    only if its body has an end: a boundary between units with the delimiter
    behind it, and no line feed for a unit in front of the first one, unless
    there are three quotes.  Then the token is the source from the prefix
    through the delimiter at that boundary.  If not, the source is rejected
    at the start of the literal, whose line and column are numbers of 32
    bits if the source has fewer bytes than that.  So every text is one token in quotes, if
    there is a backslash in front of its quotes, backslashes and line feeds;
    other bytes may have one, too. -/
theorem plainLiterals_end :
    (∀ {source word body after : Text} {s : Scan} {offset : Nat} {b quote : UInt8} {triple : Bool},
      Scan.Visits source .entered s → Scan.At source s offset → s.rest = b :: after →
      OpensPlain word quote triple body (b :: after) →
        ((∃ s', s.piece b after = .ok s') ↔ ∃ units, EndsBody quote triple body units) ∧
        (∀ units, EndsBody quote triple body units →
          let text := plainText word quote triple units
          let token : Token := ⟨plainLexeme word quote triple units, source.positionAt offset⟩
          StandsFor source token ⟨offset, offset + text.length⟩ ∧
            ∃ s', s.piece b after = .ok s' ∧ s'.tokens = token :: s.tokens ∧
              Scan.At source s' (offset + text.length) ∧
              ∀ tokens, tokenize source = .ok tokens → s'.tokens.reverse <+: tokens) ∧
        ((¬ ∃ units, EndsBody quote triple body units) →
          tokenize source =
            .error ⟨source.positionAt offset, .unterminatedString triple⟩) ∧
        (source.length + 1 < 2 ^ 32 → (source.positionAt offset).Fits)) ∧
    ∀ (quote : UInt8) (escapes : UInt8 → Bool) (t : Text), isQuote quote = true →
      (∀ b, b = quote ∨ b = backslash ∨ b = newline → escapes b = true) →
        tokenize (quoted quote escapes t ++ [newline]) = .ok
          [⟨.string (quoted quote escapes t) false false, .start⟩,
            ⟨.newline, Position.start.advance (quoted quote escapes t)⟩,
            ⟨.endMarker, Position.start.advance (quoted quote escapes t ++ [newline])⟩] := by
  refine ⟨?_, fun quote escapes t hquote hescapes => tokenize_quoted hquote hescapes t⟩
  intro source word body after s offset b quote triple hvisit hat hrest hopens
  have hpiece := hopens.piece_eq hrest
  have hopens : OpensPlain word quote triple body s.rest := hrest ▸ hopens
  have hend : ∀ units, EndsBody quote triple body units → s.piece b after = .ok
      ((s.emit (plainLexeme word quote triple units)).skip
        (plainText word quote triple units).length) :=
    fun units hends => hpiece.trans (hopens.string_eq_ok hends)
  have hnone : (¬ ∃ units, EndsBody quote triple body units) →
      s.piece b after = .error ⟨s.position, .unterminatedString triple⟩ :=
    fun hends => hpiece.trans (hopens.string_eq_error hends)
  refine ⟨⟨?_, fun ⟨units, hends⟩ => ⟨_, hend units hends⟩⟩, fun units hends => ?_,
    fun hends => ?_, Text.positionAt_fits hat.le⟩
  · rintro ⟨s', hs'⟩
    by_contra hends
    rw [hnone hends] at hs'
    cases hs'
  · have hprefix := hopens.plainText_prefix hends
    have hslice : source.slice ⟨offset, offset + (plainText word quote triple units).length⟩ =
        plainText word quote triple units := by
      unfold Text.slice
      rw [Nat.add_sub_cancel_left, ← hat.rest]
      exact (List.prefix_iff_eq_take.mp hprefix).symm
    refine ⟨⟨hslice.symm, rfl⟩, _, hend units hends, ?_, ?_, ?_⟩
    · rw [← hat.position]
      rfl
    · exact (hat.skip hprefix.length_le).congr rfl rfl
    · exact fun tokens htokens =>
        Scan.Visits.tokens_prefix (.piece hvisit hrest (hend units hends)) htokens
  · rw [hvisit.tokenize_eq, ← hat.position]
    simp only [Scan.outcome, hrest, hnone hends, bind, Except.bind]

/-- Two quotes are not three, and neither are three with a backslash in
    front; a backslash that is the last byte of a source hides nothing. -/
theorem literals_with_escapes :
    let literal := ascii "Rb\"\"\"a\"\"\\\"b\"\"\""
    let unclosed := ascii "u'a\\"
    (∃ s', (Scan.started literal).piece 0x52 (ascii "b\"\"\"a\"\"\\\"b\"\"\"\n") = .ok s' ∧
      s'.tokens = [⟨.string literal false true, ⟨1, 1⟩⟩]) ∧
    tokenize unclosed = .error ⟨⟨1, 1⟩, .unterminatedString false⟩ ∧
    tokenize (ascii "'\\'\\\\\\\n'\n") = .ok
      [⟨.string (ascii "'\\'\\\\\\\n'") false false, ⟨1, 1⟩⟩, ⟨.newline, ⟨2, 2⟩⟩, ⟨.endMarker, ⟨3, 1⟩⟩] := by
  intro literal unclosed
  obtain ⟨hplain, hquoted⟩ := plainLiterals_end
  refine ⟨?_, ?_, hquoted apostrophe (fun b => isQuote b || b == backslash || b == newline)
    (ascii "'\\\n") rfl ?_⟩
  · have hvisit : Scan.Visits (literal ++ [newline]) .entered (Scan.started literal) :=
      .enter .start rfl
    have hat : Scan.At (literal ++ [newline]) (Scan.started literal) 0 :=
      (Scan.at_ofSource (literal ++ [newline])).congr rfl rfl
    have hopens : OpensPlain (ascii "Rb") doubleQuote true (ascii "a\"\"\\\"b\"\"\"\n")
        (0x52 :: ascii "b\"\"\"a\"\"\\\"b\"\"\"\n") :=
      ⟨rfl, rfl, .inr rfl, by decide +kernel, nofun⟩
    have hends : EndsBody doubleQuote true (ascii "a\"\"\\\"b\"\"\"\n")
        [.plain 0x61 (by decide), .plain doubleQuote (by decide), .plain doubleQuote (by decide),
          .escaped doubleQuote, .plain 0x62 (by decide)] := by
      have hbyte : ∀ {b : UInt8} {rest : Text} {units : List BodyUnit} (hb : b ≠ backslash),
          ¬ delimiter doubleQuote true <+: b :: rest → EndsBody doubleQuote true rest units →
          EndsBody doubleQuote true (b :: rest) (.plain b hb :: units) :=
        fun hb hclosing hrest => (@endsBody_append_iff _ true _ (.plain _ hb) _ hclosing nofun).mpr
          ⟨_, rfl, hrest⟩
      have hescape : ∀ {b : UInt8} {rest : Text} {units : List BodyUnit},
          ¬ delimiter doubleQuote true <+: backslash :: b :: rest →
          EndsBody doubleQuote true rest units →
          EndsBody doubleQuote true (backslash :: b :: rest) (.escaped b :: units) :=
        fun hclosing hrest => (@endsBody_append_iff _ true _ (.escaped _) _ hclosing nofun).mpr
          ⟨_, rfl, hrest⟩
      exact hbyte _ (by decide) (hbyte _ (by decide) (hbyte _ (by decide) (hescape (by decide)
        (hbyte _ (by decide) (.nil (by decide))))))
    obtain ⟨_, s', hpiece, htokens, _⟩ := (hplain hvisit hat rfl hopens).2.1 _ hends
    exact ⟨s', hpiece, htokens⟩
  · have hvisit : Scan.Visits unclosed .entered ⟨unclosed, .start, false, [0], [], []⟩ :=
      .enter .start rfl
    have hat : Scan.At unclosed ⟨unclosed, .start, false, [0], [], []⟩ 0 :=
      (Scan.at_ofSource unclosed).congr rfl rfl
    have hopens : OpensPlain (ascii "u") apostrophe false (ascii "a\\") (0x75 :: ascii "'a\\") :=
      ⟨rfl, rfl, .inr rfl, by decide +kernel, fun _ => by decide⟩
    refine (hplain hvisit hat rfl hopens).2.2.1 ?_
    rintro ⟨units, hends⟩
    -- The body has no quote.
    have hmem : apostrophe ∈ ascii "a\\" :=
      hends.boundary.closes.subset (by simp [delimiter, quoteCount])
    exact absurd hmem (by decide)
  · rintro b (rfl | rfl | rfl) <;> rfl

end StyleCheck
