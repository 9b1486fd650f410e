import StyleCheck.Proofs.Scan.Run

/-! # Nested Brackets

    The tokens of a source nest their brackets, and no line ends and no
    level changes inside of them.  A source whose brackets do not nest is
    rejected at the bracket that is to blame.

    * `Nested`: what it means for brackets to nest, as a grammar.
    * `openAfter`: the brackets that tokens leave open, read from left to
      right.  A scan keeps exactly those (`Visits.tracksBrackets`).
    * `tokenize_brackets`: tokens that are accepted, and both ways in
      which brackets get a source rejected.
-/

namespace StyleCheck

open Byte

/-! ## Section 1: What it means to nest -/

/-- Whether a lexeme is a bracket. -/
def Lexeme.isBracket : Lexeme → Bool
  | symbol (.opening _) | symbol (.closing _) => true
  | _ => false

/-- The brackets among tokens, in their order. -/
def bracketTokens (tokens : List Token) : List Token := tokens.filter (·.lexeme.isBracket)

/-- Brackets that are closed in the reverse order of being opened, each
    by its own kind. -/
inductive Nested : List Token → Prop where
  | nil : Nested []
  | pair {bracket : Bracket} {p q : Position} {inner outer : List Token} (hinner : Nested inner)
      (houter : Nested outer) :
      Nested (⟨.symbol (.opening bracket), p⟩ ::
        (inner ++ ⟨.symbol (.closing bracket), q⟩ :: outer))

/-- The brackets that are open behind a token, the innermost first, if
    those in `before` were open in front of it.  A bracket must not be
    closed unless it is the innermost. -/
def openBehind (before : List OpenBracket) (token : Token) : Option (List OpenBracket) :=
  match token.lexeme with
  | .symbol (.opening bracket) => some (⟨bracket, token.position⟩ :: before)
  | .symbol (.closing bracket) =>
    match before with
    | [] => none
    | innermost :: others => if innermost.bracket = bracket then some others else none
  | _ => some before

/-- The same behind several tokens. -/
def openAfter (before : List OpenBracket) (tokens : List Token) : Option (List OpenBracket) :=
  tokens.foldlM openBehind before

/-! ## Section 2: Brackets left open -/

variable {before after : List OpenBracket} {tokens : List Token} {token : Token}

theorem openAfter_cons (before : List OpenBracket) (token : Token) (tokens : List Token) :
    openAfter before (token :: tokens) = (openBehind before token).bind (openAfter · tokens) :=
  rfl

theorem openAfter_append (before : List OpenBracket) (ts us : List Token) :
    openAfter before (ts ++ us) = (openAfter before ts).bind (openAfter · us) :=
  List.foldlM_append ..

/-- The last of several tokens goes on from those before it. -/
theorem openAfter_concat (h : openAfter before (tokens ++ [token]) = some after) :
    ∃ between, openAfter before tokens = some between ∧ openBehind between token = some after := by
  rw [openAfter_append] at h
  obtain ⟨between, hbetween, hlast⟩ := Option.bind_eq_some_iff.mp h
  obtain ⟨behind, hbehind, hnil⟩ := Option.bind_eq_some_iff.mp hlast
  exact ⟨between, hbetween, hbehind.trans hnil⟩

theorem openBehind_of_not_bracket (h : token.lexeme.isBracket = false) :
    openBehind before token = some before := by
  unfold openBehind
  split
  case h_1 hlexeme => simp [hlexeme, Lexeme.isBracket] at h
  case h_2 hlexeme => simp [hlexeme, Lexeme.isBracket] at h
  case h_3 => rfl

theorem openAfter_of_not_brackets (h : ∀ token ∈ tokens, token.lexeme.isBracket = false) :
    openAfter before tokens = some before := by
  induction tokens with
  | nil => rfl
  | cons token tokens ih =>
    rw [openAfter_cons, openBehind_of_not_bracket (h token List.mem_cons_self)]
    exact ih fun t hmem => h t (List.mem_cons_of_mem _ hmem)

/-- Only the brackets among the tokens matter. -/
theorem openAfter_bracketTokens (before : List OpenBracket) (tokens : List Token) :
    openAfter before (bracketTokens tokens) = openAfter before tokens := by
  unfold bracketTokens
  induction tokens generalizing before with
  | nil => rfl
  | cons token tokens ih =>
    rw [List.filter_cons]
    split
    case isTrue =>
      rw [openAfter_cons, openAfter_cons]
      exact congrArg _ (funext ih)
    case isFalse h =>
      rw [openAfter_cons, openBehind_of_not_bracket (by simpa using h)]
      exact ih before

/-- Brackets further out do not matter. -/
theorem openBehind_append_left (h : openBehind before token = some after)
    (more : List OpenBracket) : openBehind (before ++ more) token = some (after ++ more) := by
  unfold openBehind at h ⊢
  split at h
  case h_1 =>
    cases h
    rfl
  case h_2 =>
    cases before with
    | nil => cases h
    | cons innermost others =>
      dsimp only [List.cons_append] at h ⊢
      split at h
      case isTrue hkind =>
        cases h
        rw [if_pos hkind]
      case isFalse => cases h
  case h_3 =>
    cases h
    rfl

theorem openAfter_append_left (h : openAfter before tokens = some after)
    (more : List OpenBracket) : openAfter (before ++ more) tokens = some (after ++ more) := by
  induction tokens generalizing before with
  | nil =>
    cases h
    rfl
  | cons token tokens ih =>
    obtain ⟨between, hfirst, hrest⟩ := Option.bind_eq_some_iff.mp h
    rw [openAfter_cons, openBehind_append_left hfirst]
    exact ih hrest

theorem openAfter_of_nested (h : Nested tokens) (before : List OpenBracket) :
    openAfter before tokens = some before := by
  induction h generalizing before with
  | nil => rfl
  | @pair bracket p q inner outer _ _ ihinner ihouter =>
    have hclose : openBehind (⟨bracket, p⟩ :: before) ⟨.symbol (.closing bracket), q⟩ =
        some before := if_pos rfl
    calc openAfter before (⟨.symbol (.opening bracket), p⟩ ::
          (inner ++ ⟨.symbol (.closing bracket), q⟩ :: outer))
        = openAfter (⟨bracket, p⟩ :: before) (inner ++ ⟨.symbol (.closing bracket), q⟩ :: outer) :=
          rfl
      _ = openAfter (⟨bracket, p⟩ :: before) (⟨.symbol (.closing bracket), q⟩ :: outer) := by
          rw [openAfter_append, ihinner, Option.bind_some]
      _ = openAfter before outer := by rw [openAfter_cons, hclose, Option.bind_some]
      _ = some before := ihouter before

/-- Brackets that close what is open and nest otherwise. -/
inductive Closes : List OpenBracket → List Token → Prop where
  | nested {tokens : List Token} (h : Nested tokens) : Closes [] tokens
  | close {innermost : OpenBracket} {others : List OpenBracket} {q : Position}
      {inner outer : List Token} (hinner : Nested inner) (houter : Closes others outer) :
      Closes (innermost :: others) (inner ++ ⟨.symbol (.closing innermost.bracket), q⟩ :: outer)

theorem Closes.open_cons {innermost : OpenBracket} {p : Position}
    (h : Closes (innermost :: before) tokens) :
    Closes before (⟨.symbol (.opening innermost.bracket), p⟩ :: tokens) := by
  cases h with
  | @close _ _ q inner outer hinner houter =>
    cases houter with
    | nested houter => exact .nested (.pair hinner houter)
    -- The pair stands in front of what nests inside of the next bracket out.
    | @close next others q' inner' outer' hinner' houter' =>
      have hpair : Nested (⟨.symbol (.opening innermost.bracket), p⟩ ::
          (inner ++ ⟨.symbol (.closing innermost.bracket), q⟩ :: inner')) := .pair hinner hinner'
      have hclose := @Closes.close next others q' _ _ hpair houter'
      simpa using hclose

theorem closes_of_openAfter (hbrackets : ∀ token ∈ tokens, token.lexeme.isBracket = true)
    (h : openAfter before tokens = some []) : Closes before tokens := by
  induction tokens generalizing before with
  | nil =>
    cases h
    exact .nested .nil
  | cons token tokens ih =>
    have ih' : ∀ {open_ : List OpenBracket}, openAfter open_ tokens = some [] → Closes open_ tokens :=
      fun h => ih (fun t hmem => hbrackets t (List.mem_cons_of_mem _ hmem)) h
    obtain ⟨between, hfirst, hrest⟩ := Option.bind_eq_some_iff.mp h
    obtain ⟨lexeme, p⟩ := token
    unfold openBehind at hfirst
    split at hfirst
    case h_1 bracket hlexeme =>
      obtain rfl : lexeme = _ := hlexeme
      cases hfirst
      exact (ih' hrest).open_cons
    case h_2 bracket hlexeme =>
      obtain rfl : lexeme = _ := hlexeme
      split at hfirst
      case h_1 => cases hfirst
      case h_2 innermost others =>
        split at hfirst
        case isTrue hkind =>
          cases hfirst
          subst hkind
          exact .close .nil (ih' hrest)
        case isFalse => cases hfirst
    case h_3 hopening hclosing =>
      have hbracket : lexeme.isBracket = true := hbrackets _ List.mem_cons_self
      unfold Lexeme.isBracket at hbracket
      split at hbracket
      case h_1 => exact absurd rfl (hopening _)
      case h_2 => exact absurd rfl (hclosing _)
      case h_3 => cases hbracket

/-- Brackets nest if and only if none is left open and none is closed
    that is not the innermost. -/
theorem nested_bracketTokens_iff : Nested (bracketTokens tokens) ↔ openAfter [] tokens = some [] := by
  rw [← openAfter_bracketTokens]
  refine ⟨fun h => openAfter_of_nested h [], fun h => ?_⟩
  have hbrackets : ∀ token ∈ bracketTokens tokens, token.lexeme.isBracket = true :=
    fun token hmem => (List.mem_filter.mp hmem).2
  cases closes_of_openAfter hbrackets h with
  | nested h => exact h

/-- The brackets that are open can be closed. -/
theorem exists_nested_append (h : openAfter [] tokens = some after) :
    ∃ more, Nested (bracketTokens tokens ++ more) := by
  have hclosers : ∀ before : List OpenBracket, openAfter before
      (before.map fun o => ⟨.symbol (.closing o.bracket), o.position⟩) = some [] := by
    intro before
    induction before with
    | nil => rfl
    | cons innermost others ih =>
      have hclose : openBehind (innermost :: others)
          ⟨.symbol (.closing innermost.bracket), innermost.position⟩ = some others := if_pos rfl
      rw [List.map_cons, openAfter_cons, hclose]
      exact ih
  let closers := after.map fun o => (⟨.symbol (.closing o.bracket), o.position⟩ : Token)
  refine ⟨bracketTokens closers, ?_⟩
  have hall : openAfter [] (tokens ++ closers) = some [] := by
    rw [openAfter_append, h]
    exact hclosers after
  have hnested := nested_bracketTokens_iff.mpr hall
  rwa [bracketTokens, List.filter_append] at hnested

/-- Nothing goes on nested behind a bracket that must not be closed. -/
theorem not_nested_of_openBehind (h : openAfter [] tokens = some after)
    (hclose : openBehind after token = none) (more : List Token) :
    ¬ Nested (bracketTokens tokens ++ token :: more) := by
  intro hnested
  have hall := openAfter_of_nested hnested []
  rw [openAfter_append, openAfter_bracketTokens, h, Option.bind_some, openAfter_cons, hclose] at hall
  cases hall

/-- The innermost open bracket stands among the tokens, and those behind
    it nest. -/
theorem exists_innermost {innermost : OpenBracket} {others : List OpenBracket} :
    ∀ {tokens : List Token}, openAfter [] tokens = some (innermost :: others) →
      ∃ before inside, tokens = before ++
          ⟨.symbol (.opening innermost.bracket), innermost.position⟩ :: inside ∧
        openAfter [] before = some others ∧ openAfter [] inside = some [] := by
  intro tokens
  induction hlength : tokens.length using Nat.strongRecOn generalizing tokens innermost others
  case ind length ih =>
  intro h
  rcases List.eq_nil_or_concat tokens with rfl | ⟨ts, token, rfl⟩
  · cases h
  rw [List.concat_eq_append] at h hlength ⊢
  obtain ⟨between, hts, hbehind⟩ := openAfter_concat h
  have hshorter : ts.length < length := by
    rw [← hlength]
    simp
  obtain ⟨lexeme, p⟩ := token
  unfold openBehind at hbehind
  split at hbehind
  case h_1 bracket hlexeme =>
    -- The last token opens the bracket, and nothing is behind it.
    obtain rfl : lexeme = _ := hlexeme
    cases hbehind
    exact ⟨ts, [], rfl, hts, rfl⟩
  case h_2 bracket hlexeme =>
    obtain rfl : lexeme = _ := hlexeme
    split at hbehind
    case h_1 => cases hbehind
    case h_2 closed rest =>
      split at hbehind
      case isFalse => cases hbehind
      case isTrue hkind =>
        cases hbehind
        subst hkind
        -- The last token closes a bracket inside of the one that is looked for.
        obtain ⟨before, inner, hinner, hopen, hnested⟩ := ih _ hshorter rfl hts
        have hbefore : before.length < length := by
          have := congrArg List.length hinner
          simp only [List.length_append, List.length_cons] at this
          omega
        obtain ⟨outer, inside, rfl, houter, hinside⟩ := ih _ hbefore rfl hopen
        refine ⟨outer, inside ++ (⟨.symbol (.opening closed.bracket), closed.position⟩ :: inner ++
          [⟨.symbol (.closing closed.bracket), p⟩]), by simp [hinner], houter, ?_⟩
        have hpair : openAfter [] (⟨.symbol (.opening closed.bracket), closed.position⟩ :: inner) =
            some [closed] := openAfter_append_left hnested [closed]
        have hclose : openBehind [closed] ⟨.symbol (.closing closed.bracket), p⟩ = some [] :=
          if_pos rfl
        rw [openAfter_append, hinside, Option.bind_some, openAfter_append, hpair, Option.bind_some,
          openAfter_cons, hclose]
        rfl
  case h_3 hopening hclosing =>
    cases hbehind
    obtain ⟨before, inside, rfl, hbefore, hinside⟩ := ih _ hshorter rfl hts
    refine ⟨before, inside ++ [⟨lexeme, p⟩], by simp, hbefore, ?_⟩
    have hlast : openBehind [] ⟨lexeme, p⟩ = some [] := by
      unfold openBehind
      split
      · exact absurd ‹_› (hopening _)
      · exact absurd ‹_› (hclosing _)
      · rfl
    rw [openAfter_append, hinside, Option.bind_some, openAfter_cons, hlast]
    rfl

/-! ## Section 3: Layout stands outside of brackets -/

/-- Line ends and changes of level. -/
def Lexeme.isLayout : Lexeme → Bool
  | newline | indent | dedent => true
  | _ => false

/-- Where a line ends or a level changes, no bracket is open. -/
def LayoutOutside (tokens : List Token) : Prop :=
  ∀ before token behind, tokens = before ++ token :: behind → token.lexeme.isLayout = true →
    openAfter [] before = some []

theorem LayoutOutside.concat (h : LayoutOutside tokens)
    (hopen : token.lexeme.isLayout = true → openAfter [] tokens = some []) :
    LayoutOutside (tokens ++ [token]) := by
  intro before t behind heq ht
  rcases List.eq_nil_or_concat behind with rfl | ⟨behind, last, rfl⟩
  · obtain ⟨rfl, hlast⟩ := List.append_inj' heq rfl
    obtain rfl : token = t := by simpa using hlast
    exact hopen ht
  · rw [List.concat_eq_append, ← List.cons_append, ← List.append_assoc] at heq
    exact h before t behind (List.append_inj' heq rfl).1 ht

/-- Where no bracket is open, layout and anything else that is no bracket
    may be added. -/
theorem LayoutOutside.append {added : List Token} (h : LayoutOutside tokens)
    (hopen : openAfter [] tokens = some [])
    (hadded : ∀ token ∈ added, token.lexeme.isBracket = false) : LayoutOutside (tokens ++ added) := by
  induction added generalizing tokens with
  | nil => simpa using h
  | cons token added ih =>
    have hstill : openAfter [] (tokens ++ [token]) = some [] := by
      rw [openAfter_append, hopen, Option.bind_some]
      exact openAfter_of_not_brackets fun t hmem => by
        rw [List.mem_singleton.mp hmem]
        exact hadded token List.mem_cons_self
    have hall := ih (h.concat fun _ => hopen) hstill fun t hmem =>
      hadded t (List.mem_cons_of_mem _ hmem)
    rwa [List.append_assoc, List.singleton_append] at hall

/-- Among the tokens, an opening bracket, its match, and what is between
    them. -/
inductive Encloses (tokens : List Token) (opener : Token) (inside : List Token) (closer : Token) :
    Prop where
  | intro {before behind : List Token} {bracket : Bracket}
      (heq : tokens = before ++ opener :: (inside ++ closer :: behind))
      (hopener : opener.lexeme = .symbol (.opening bracket))
      (hcloser : closer.lexeme = .symbol (.closing bracket))
      (hinside : Nested (bracketTokens inside))

/-- Between an opening bracket and its match, no line ends and no level
    changes. -/
theorem LayoutOutside.not_isLayout (h : LayoutOutside tokens) {opener closer : Token}
    {inside : List Token} (hencloses : Encloses tokens opener inside closer) :
    ∀ token ∈ inside, token.lexeme.isLayout = false := by
  obtain @⟨outside, behind, bracket, heq, hopener, _, hinside⟩ := hencloses
  intro token hmem
  cases hlayout : token.lexeme.isLayout with
  | false => rfl
  | true =>
  obtain ⟨front, back, rfl⟩ := List.append_of_mem hmem
  -- Nothing would be open before the token, but the bracket around it is.
  have houtside : openAfter [] (outside ++ opener :: front) = some [] :=
    h _ token (back ++ closer :: behind) (by simp [heq]) hlayout
  rw [openAfter_append] at houtside
  obtain ⟨outer, _, hrest⟩ := Option.bind_eq_some_iff.mp houtside
  have hbehind : openBehind outer opener = some (⟨bracket, opener.position⟩ :: outer) := by
    unfold openBehind
    rw [hopener]
  rw [openAfter_cons, hbehind, Option.bind_some] at hrest
  have hnested := nested_bracketTokens_iff.mp hinside
  rw [openAfter_append] at hnested
  obtain ⟨inner, hfront, _⟩ := Option.bind_eq_some_iff.mp hnested
  have houter := openAfter_append_left hfront (⟨bracket, opener.position⟩ :: outer)
  rw [List.nil_append, hrest] at houter
  simp at houter

/-! ## Section 4: The brackets of a scan -/

namespace Scan

variable {source : Text} {stage : Stage} {s s' tracked : Scan} {symbol : Symbol} {e : SyntaxError}

/-- A scan keeps the brackets that a symbol leaves open. -/
theorem openBehind_of_trackBrackets (h : s.trackBrackets symbol = .ok tracked) :
    openBehind s.brackets ⟨.symbol symbol, s.position⟩ = some tracked.brackets := by
  unfold trackBrackets at h
  unfold openBehind
  split at h
  case h_1 =>
    cases h
    rfl
  case h_2 bracket =>
    split at h
    case h_1 => cases h
    case h_2 innermost others hbrackets =>
      rw [hbrackets]
      split at h
      case isTrue hkind =>
        cases h
        exact if_pos hkind
      case isFalse => cases h
  case h_3 hopening hclosing =>
    cases h
    split
    case h_1 hlexeme => exact absurd (Lexeme.symbol.inj hlexeme) (hopening _)
    case h_2 hlexeme => exact absurd (Lexeme.symbol.inj hlexeme) (hclosing _)
    case h_3 => rfl

/-- A fault about a closing bracket. -/
inductive BlamesCloser (closer : Bracket) : Fault → Prop where
  | unmatched : BlamesCloser closer (.unmatchedCloser closer)
  | mismatched (opener : Bracket) : BlamesCloser closer (.mismatchedCloser closer opener)

/-- A symbol is refused only if it closes what must not be closed. -/
theorem trackBrackets_eq_error (h : s.trackBrackets symbol = .error e) :
    ∃ closer, symbol = .closing closer ∧ BlamesCloser closer e.fault ∧
      openBehind s.brackets ⟨.symbol symbol, s.position⟩ = none := by
  unfold trackBrackets at h
  split at h
  case h_1 => cases h
  case h_2 bracket =>
    split at h
    case h_1 hbrackets =>
      cases h
      refine ⟨bracket, rfl, .unmatched, ?_⟩
      simp [openBehind, hbrackets]
    case h_2 innermost others hbrackets =>
      split at h
      case isTrue => cases h
      case isFalse hkind =>
        cases h
        refine ⟨bracket, rfl, .mismatched _, ?_⟩
        simp [openBehind, hbrackets, hkind]
  case h_3 => cases h

/-- What a scan knows of the brackets that it has read. -/
structure TracksBrackets (s : Scan) : Prop where
  opened : openAfter [] s.tokens.reverse = some s.brackets
  layout : LayoutOutside s.tokens.reverse

/-- Bytes, position, levels and starts of lines are of no account. -/
theorem TracksBrackets.congr (h : TracksBrackets s) (htokens : s'.tokens = s.tokens)
    (hbrackets : s'.brackets = s.brackets) : TracksBrackets s' where
  opened := by rw [htokens, hbrackets]; exact h.opened
  layout := by rw [htokens]; exact h.layout

theorem TracksBrackets.push (h : TracksBrackets s) {token : Token}
    (htokens : s'.tokens = token :: s.tokens)
    (hbehind : openBehind s.brackets token = some s'.brackets)
    (hlayout : token.lexeme.isLayout = true → s.brackets = []) : TracksBrackets s' where
  opened := by
    rw [htokens, List.reverse_cons, openAfter_append, h.opened, Option.bind_some, openAfter_cons,
      hbehind]
    rfl
  layout := by
    rw [htokens, List.reverse_cons]
    refine h.layout.concat fun ht => ?_
    rw [h.opened, hlayout ht]

/-- Entering a line leaves the brackets alone, and adds tokens only where
    none is open. -/
theorem enterLine_brackets (h : s.enterLine = .ok s') :
    s'.brackets = s.brackets ∧ (s'.tokens = s.tokens ∨ s.brackets = []) := by
  rcases enterLine_cases h with ⟨rfl, _⟩ | ⟨_, hbrackets, ⟨rfl, _⟩ | ⟨_, hsettle⟩⟩
  · exact ⟨rfl, .inl rfl⟩
  · exact ⟨rfl, .inl rfl⟩
  · rcases settle_cases hsettle with ⟨_, rfl⟩ | ⟨_, _, rfl⟩ <;> exact ⟨rfl, .inr hbrackets⟩

theorem not_isBracket_of_isMargin {token : Token} (h : isMargin token = true) :
    token.lexeme.isBracket = false := by
  obtain ⟨lexeme, p⟩ := token
  cases lexeme <;> simp_all [isMargin, Lexeme.isBracket]

theorem Visits.tracksBrackets (h : Visits source stage s) : TracksBrackets s := by
  induction h with
  | start =>
    refine ⟨rfl, ?_⟩
    intro before token behind heq
    simp [ofSource] at heq
  | @enter s s' _ henter ih =>
    obtain ⟨hbrackets, hsame | hnone⟩ := enterLine_brackets henter
    · exact ih.congr hsame hbrackets
    obtain ⟨margin, hmargin, hadded⟩ := enterLine_tokens henter
    have hnot : ∀ token ∈ margin.reverse, token.lexeme.isBracket = false := fun token hmem =>
      not_isBracket_of_isMargin (hmargin token (List.mem_reverse.mp hmem))
    have hopened : openAfter [] s.tokens.reverse = some [] := by rw [ih.opened, hnone]
    refine ⟨?_, ?_⟩
    · rw [hadded, List.reverse_append, openAfter_append, hopened, Option.bind_some,
        openAfter_of_not_brackets hnot, hbrackets, hnone]
    · rw [hadded, List.reverse_append]
      exact ih.layout.append hopened hnot
  | @piece s s' b after hvisit hrest hpiece ih =>
    cases hvisit.turns hrest hpiece with
    | separator => exact ih.congr rfl rfl
    | newline _ hbrackets => exact ih.push rfl rfl fun _ => hbrackets
    | @token n lexeme _ hspelled hsymbol =>
      refine ih.push rfl (openBehind_of_not_bracket ?_) fun hlayout => ?_
      · cases lexeme <;> simp_all [Lexeme.isBracket]
      · cases lexeme <;> simp_all [Lexeme.isLayout, Lexeme.isSpelled]
    | @symbol tracked symbol _ htracked =>
      have htokens : tracked.tokens = s.tokens := by rw [trackBrackets_eq htracked]
      have hposition : tracked.position = s.position := by rw [trackBrackets_eq htracked]
      have hpushed : ((tracked.emit (.symbol symbol)).skip symbol.text.length).tokens =
          ⟨.symbol symbol, s.position⟩ :: s.tokens := by
        rw [← htokens, ← hposition]
        rfl
      have hbehind := openBehind_of_trackBrackets htracked
      exact ih.push hpushed hbehind fun hlayout => by cases hlayout

/-! ## Section 5: Brackets to blame -/

/-- Only a piece that closes a bracket is blamed for that. -/
theorem Stops.of_blamesCloser {closer : Bracket} (h : Stops source s e)
    (hblame : BlamesCloser closer e.fault) :
    Visits source .entered s ∧ (Symbol.closing closer).text <+: s.rest ∧ e.position = s.position ∧
      openBehind s.brackets ⟨.symbol (.closing closer), s.position⟩ = none := by
  obtain ⟨p, fault⟩ := e
  cases h with
  | line _ herror =>
    obtain rfl : fault = .inconsistentDedent := (enterLine_eq_error herror).2
    cases hblame
  | piece hvisit hrest herror =>
    rcases (piece_eq_error hrest herror).2 with hfault | ⟨symbol, hstarts, htrack⟩
    · cases hblame <;> cases hfault
    · obtain ⟨closer', rfl, hblame', hbehind⟩ := trackBrackets_eq_error htrack
      -- The fault names the bracket.
      have hsame : closer' = closer := by cases hblame <;> cases hblame' <;> rfl
      subst hsame
      exact ⟨hvisit, hstarts, position_of_trackBrackets htrack, hbehind⟩
  | finish _ _ herror =>
    obtain ⟨innermost, others, _, heq⟩ := finish_eq_error herror
    obtain rfl : fault = .unclosedBracket innermost.bracket := congrArg SyntaxError.fault heq
    cases hblame

/-- Only at the end is a bracket found to be left open. -/
theorem Stops.of_unclosedBracket {bracket : Bracket} (h : Stops source s e)
    (hfault : e.fault = .unclosedBracket bracket) :
    Visits source .entered s ∧ s.rest = [] ∧
      ∃ others, s.brackets = ⟨bracket, e.position⟩ :: others := by
  cases h with
  | line _ herror =>
    rw [(enterLine_eq_error herror).2] at hfault
    cases hfault
  | piece _ hrest herror =>
    rcases (piece_eq_error hrest herror).2 with hpiece | ⟨symbol, _, htrack⟩
    · rw [hfault] at hpiece
      cases hpiece
    · obtain ⟨closer, _, hblame, _⟩ := trackBrackets_eq_error htrack
      rw [hfault] at hblame
      cases hblame
  | finish hvisit hrest herror =>
    obtain ⟨innermost, others, hbrackets, rfl⟩ := finish_eq_error herror
    cases hfault
    exact ⟨hvisit, hrest, others, hbrackets⟩

/-- A bracket that must not be closed is the byte at which the run stops.
    Up to there brackets could go on to nest, but not with it. -/
theorem Stops.closer {closer : Bracket} (h : Stops source s e)
    (hblame : BlamesCloser closer e.fault) :
    (∃ offset, At source s offset ∧ e.position = source.positionAt offset ∧
      source[offset]? = some closer.closer) ∧
    (∃ more, Nested (bracketTokens s.tokens.reverse ++ more)) ∧
    ∀ more, ¬ Nested (bracketTokens s.tokens.reverse ++
      ⟨.symbol (.closing closer), e.position⟩ :: more) := by
  obtain ⟨hvisit, hstarts, hposition, hbehind⟩ := h.of_blamesCloser hblame
  obtain ⟨offset, hat⟩ := hvisit.exists_at
  have hopened := hvisit.tracksBrackets.opened
  refine ⟨⟨offset, hat, hposition.trans hat.position, ?_⟩, exists_nested_append hopened, ?_⟩
  · obtain ⟨more, hmore⟩ := hstarts
    have hfirst : (source.drop offset)[0]? = some closer.closer := by
      rw [← hat.rest, ← hmore]
      rfl
    simpa using hfirst
  · rw [hposition]
    exact not_nested_of_openBehind hopened hbehind

/-- A bracket that is left open is found at the end of the source, and it
    is the innermost one. -/
theorem Stops.unclosed {bracket : Bracket} (h : Stops source s e)
    (hfault : e.fault = .unclosedBracket bracket) :
    s.rest = [] ∧ ¬ Nested (bracketTokens s.tokens.reverse) ∧
    (∃ more, Nested (bracketTokens s.tokens.reverse ++ more)) ∧
    ∃ before inside,
      s.tokens.reverse = before ++ ⟨.symbol (.opening bracket), e.position⟩ :: inside ∧
      Nested (bracketTokens inside) := by
  obtain ⟨hvisit, hrest, others, hbrackets⟩ := h.of_unclosedBracket hfault
  have hopened := hvisit.tracksBrackets.opened
  rw [hbrackets] at hopened
  refine ⟨hrest, fun hnested => ?_, exists_nested_append hopened, ?_⟩
  · rw [nested_bracketTokens_iff.mp hnested] at hopened
    cases hopened
  · obtain ⟨before, inside, htokens, _, hinside⟩ := exists_innermost hopened
    exact ⟨before, inside, htokens, nested_bracketTokens_iff.mpr hinside⟩

/-- What is added at the end of a source leaves its brackets alone. -/
theorem TracksBrackets.finish {tokens : List Token} (h : TracksBrackets s)
    (hfinish : s.finish = .ok tokens) :
    openAfter [] tokens = some [] ∧ LayoutOutside tokens := by
  obtain ⟨hbrackets, rfl⟩ := finish_eq_ok hfinish
  have hlast : ∀ token ∈ s.lastTokens, token.lexeme.isBracket = false := by
    intro token hmem
    rcases List.mem_append.mp hmem with hmem | hmem
    · rw [(List.mem_replicate.mp hmem).2]
      rfl
    · rw [List.mem_singleton.mp hmem]
      rfl
  have hended : TracksBrackets s.endLine := by
    unfold endLine
    split
    case isTrue => exact h
    case isFalse => exact h.push rfl rfl fun _ => hbrackets
  have hopened : openAfter [] s.endLine.tokens.reverse = some [] := by
    rw [hended.opened]
    unfold endLine
    split <;> exact congrArg some hbrackets
  refine ⟨?_, hended.layout.append hopened hlast⟩
  rw [openAfter_append, hopened, Option.bind_some]
  exact openAfter_of_not_brackets hlast

end Scan

open Scan in
/-- **Brackets nest**: those of an accepted source do, and there is no
    layout inside of them.  A source with a bracket that must not be
    closed is rejected at that bracket, where its brackets could still
    go on to nest.  One with a bracket left open is rejected when all of
    it has been read, at the innermost such bracket. -/
theorem tokenize_brackets (source : Text) :
    (∀ tokens, tokenize source = .ok tokens →
      Nested (bracketTokens tokens) ∧
      ∀ opener inside closer, Encloses tokens opener inside closer →
        ∀ token ∈ inside, token.lexeme.isLayout = false) ∧
    (∀ e closer, tokenize source = .error e → BlamesCloser closer e.fault →
      ∃ s, Stops source s e ∧
        (∃ offset, At source s offset ∧ e.position = source.positionAt offset ∧
          source[offset]? = some closer.closer) ∧
        (∃ more, Nested (bracketTokens s.tokens.reverse ++ more)) ∧
        ∀ more, ¬ Nested (bracketTokens s.tokens.reverse ++
          ⟨.symbol (.closing closer), e.position⟩ :: more)) ∧
    (∀ e bracket, tokenize source = .error e → e.fault = .unclosedBracket bracket →
      ∃ s, Stops source s e ∧ s.rest = [] ∧ ¬ Nested (bracketTokens s.tokens.reverse) ∧
        (∃ more, Nested (bracketTokens s.tokens.reverse ++ more)) ∧
        ∃ before inside,
          s.tokens.reverse = before ++ ⟨.symbol (.opening bracket), e.position⟩ :: inside ∧
          Nested (bracketTokens inside)) := by
  refine ⟨fun tokens h => ?_, fun e closer h hblame => ?_, fun e bracket h hfault => ?_⟩
  · obtain ⟨s, hvisit, _, hfinish⟩ := tokenize_eq_ok h
    obtain ⟨hopened, hlayout⟩ := hvisit.tracksBrackets.finish hfinish
    exact ⟨nested_bracketTokens_iff.mpr hopened, fun _ _ _ => hlayout.not_isLayout⟩
  · obtain ⟨s, hstops⟩ := tokenize_eq_error h
    exact ⟨s, hstops, hstops.closer hblame⟩
  · obtain ⟨s, hstops⟩ := tokenize_eq_error h
    exact ⟨s, hstops, hstops.unclosed hfault⟩

open Scan in
/-- A call over two lines, a bracket closed by one of another kind, and a
    bracket that stays open behind one that is closed. -/
theorem brackets_of_three_sources :
    (∃ tokens, tokenize (ascii "f([\n])\n") = .ok tokens ∧ Nested (bracketTokens tokens) ∧
      ∀ token ∈ (tokens.drop 2).take 2, token.lexeme.isLayout = false) ∧
    (∃ s, Stops (ascii "a(b]") s ⟨⟨1, 4⟩, .mismatchedCloser .square .round⟩ ∧
      ∃ more, Nested (bracketTokens s.tokens.reverse ++ more)) ∧
    ∃ s, Stops (ascii "(\n[()") s ⟨⟨2, 1⟩, .unclosedBracket .square⟩ ∧
      ¬ Nested (bracketTokens s.tokens.reverse) := by
  refine ⟨?_, ?_, ?_⟩
  · have htokens : tokenize (ascii "f([\n])\n") = .ok
        (⟨.name (ascii "f"), ⟨1, 1⟩⟩ :: ⟨.symbol (.opening .round), ⟨1, 2⟩⟩ ::
          ([⟨.symbol (.opening .square), ⟨1, 3⟩⟩, ⟨.symbol (.closing .square), ⟨2, 1⟩⟩] ++
            ⟨.symbol (.closing .round), ⟨2, 2⟩⟩ ::
              [⟨.newline, ⟨2, 3⟩⟩, ⟨.endMarker, ⟨3, 1⟩⟩])) := rfl
    have hpair : Nested
        [⟨.symbol (.opening .square), ⟨1, 3⟩⟩, ⟨.symbol (.closing .square), ⟨2, 1⟩⟩] :=
      .pair .nil .nil
    obtain ⟨hnested, hlayout⟩ := (tokenize_brackets (ascii "f([\n])\n")).1 _ htokens
    exact ⟨_, htokens, hnested, hlayout _ _ _
      (@Encloses.intro _ _ _ _ [⟨.name (ascii "f"), ⟨1, 1⟩⟩] _ _ rfl rfl rfl hpair)⟩
  · obtain ⟨s, hstops, _, hmore, _⟩ :=
      (tokenize_brackets (ascii "a(b]")).2.1 ⟨⟨1, 4⟩, _⟩ .square rfl (.mismatched .round)
    exact ⟨s, hstops, hmore⟩
  · obtain ⟨s, hstops, _, hnot, _⟩ :=
      (tokenize_brackets (ascii "(\n[()")).2.2 ⟨⟨2, 1⟩, _⟩ .square rfl rfl
    exact ⟨s, hstops, hnot⟩

end StyleCheck
