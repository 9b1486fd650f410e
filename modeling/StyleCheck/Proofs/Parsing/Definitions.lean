import Mathlib.Control.Monad.Basic
import StyleCheck.Proofs.Parsing.Lines

/-! # Definitions in Tokens and in Trees

    A `def` or a `class` in the tokens of an accepted source is a
    definition in its tree, under the name behind it, and the definitions
    come in the order of their keywords.  The parser skips patterns and
    type parameters without a look at them, and a keyword may name an
    argument; these are the places where a keyword defines nothing.

    * `Definition.namesBehind`, `Definition.namesIn`: the names that the
      tokens announce, and those that the tree defines.
    * `DefinitionsSeen`: no keyword stands at one of the places above.
    * `Collects`: a parser makes the definitions of the tokens that it
      reads, with one rule for each way to compose parsers; `CollectsAt`
      says so of a statement from its first token on.
    * `Module.definitions_kept`: the definitions of a source.
-/

namespace StyleCheck

open StyleCheck.Parser

/-! ## Section 1: Names in tokens and in trees -/

/-- What a definition defines. -/
inductive Definition where
  | function
  | class_

namespace Definition

/-- The keyword in front of the name. -/
def keyword : Definition → Keyword
  | function => .def_
  | class_ => .class_

/-- The name that a statement defines, if it is such a definition. -/
def name? : Definition → Stmt → Option Text
  | function, .functionDef _ _ name _ _ => some name
  | class_, .classDef _ name _ => some name
  | _, _ => none

variable (kind : Definition)

/-- The texts behind the successive keywords. -/
def namesBehind : List Token → List Text
  | [] => []
  | t :: ts =>
    if t.lexeme = .keyword kind.keyword then (front ts).lexeme.text :: namesBehind ts
    else namesBehind ts

/-- The names that some trees define, a definition before those in it. -/
def namesIn (stmts : List Stmt) : List Text := (nodes stmts).filterMap kind.name?

end Definition

/-- Whether a lexeme is in front of the name of a definition. -/
def Lexeme.opensDefinition : Lexeme → Bool
  | keyword .def_ | keyword .class_ => true
  | _ => false

/-- Whether type parameters may follow a name that a lexeme is in front
    of. -/
def Lexeme.takesTypeParameters (l : Lexeme) : Bool :=
  l.opensDefinition || l == .name SoftKeyword.type_

/-- The tokens of a pattern and its guard, up to the colon, with `depth`
    brackets open already. -/
inductive IsPattern : Int → List Token → Prop where
  | nil : IsPattern 0 []
  | cons {depth : Int} {t : Token} {ts : List Token} (hline : t.lexeme ≠ .newline)
      (hend : t.lexeme ≠ .endMarker) (hcolon : depth = 0 → t.lexeme ≠ .symbol .colon)
      (hbehind : IsPattern (depth + t.lexeme.depthChange) ts) : IsPattern depth (t :: ts)

/-- The tokens between square brackets, with `depth` inner ones open
    already. -/
inductive IsBracketed : Nat → List Token → Prop where
  | nil : IsBracketed 0 []
  | opening {depth : Nat} {t : Token} {ts : List Token}
      (h : t.lexeme = .symbol (.opening .square)) (hbehind : IsBracketed (depth + 1) ts) :
      IsBracketed depth (t :: ts)
  | closing {depth : Nat} {t : Token} {ts : List Token}
      (h : t.lexeme = .symbol (.closing .square)) (hbehind : IsBracketed depth ts) :
      IsBracketed (depth + 1) (t :: ts)
  | other {depth : Nat} {t : Token} {ts : List Token}
      (hopening : t.lexeme ≠ .symbol (.opening .square))
      (hclosing : t.lexeme ≠ .symbol (.closing .square)) (hbehind : IsBracketed depth ts) :
      IsBracketed depth (t :: ts)

/-- No keyword of a definition stands where the parser looks for none: in
    the pattern of a case, between the brackets of type parameters, or in
    front of an equals sign. -/
structure DefinitionsSeen (tokens : List Token) : Prop where
  pattern {pattern behind : List Token} {p q : Position}
    (h : Fresh tokens (⟨.name SoftKeyword.case_, p⟩ :: (pattern ++ ⟨.symbol .colon, q⟩ :: behind)))
    (hpattern : IsPattern 0 pattern) : ∀ t ∈ pattern, t.lexeme.opensDefinition = false
  typeParameters {owner : Token} {name : Text} {inner behind : List Token} {p q r : Position}
    (h : owner :: ⟨.name name, p⟩ :: ⟨.symbol (.opening .square), q⟩ ::
      (inner ++ ⟨.symbol (.closing .square), r⟩ :: behind) <:+ tokens)
    (howner : owner.lexeme.takesTypeParameters = true) (hinner : IsBracketed 0 inner) :
    ∀ t ∈ inner, t.lexeme.opensDefinition = false
  argument {t : Token} {behind : List Token} {p : Position}
    (h : t :: ⟨.symbol .equal, p⟩ :: behind <:+ tokens) : t.lexeme.opensDefinition = false

variable {kind : Definition} {all ts mid rest : List Token} {t : Token} {stmt : Stmt}
  {stmts others : List Stmt}

namespace Definition

/-- A token that is no keyword of a definition. -/
theorem namesBehind_cons (h : t.lexeme.opensDefinition = false) :
    kind.namesBehind (t :: ts) = kind.namesBehind ts := by
  refine if_neg fun hkeyword => ?_
  rw [hkeyword] at h
  cases kind <;> cases h

theorem namesBehind_append (h : ∀ t ∈ ts, t.lexeme.opensDefinition = false) :
    kind.namesBehind (ts ++ rest) = kind.namesBehind rest := by
  induction ts with
  | nil => rfl
  | cons t ts ih =>
    obtain ⟨ht, hts⟩ := List.forall_mem_cons.mp h
    rw [List.cons_append, namesBehind_cons ht, ih hts]

/-- The same of a token at the front that is known. -/
theorem namesBehind_tail (h : (front ts).lexeme.opensDefinition = false) :
    kind.namesBehind ts.tail = kind.namesBehind ts := by
  cases ts with
  | nil => rfl
  | cons t ts => exact (namesBehind_cons h).symm

/-- There is a name for every keyword. -/
theorem length_namesBehind (ts : List Token) :
    (kind.namesBehind ts).length = ts.countP (·.lexeme = .keyword kind.keyword) := by
  induction ts with
  | nil => rfl
  | cons t ts ih =>
    unfold namesBehind
    split
    case isTrue h => rw [List.length_cons, ih, List.countP_cons_of_pos (by simpa using h)]
    case isFalse h => rw [ih, List.countP_cons_of_neg (by simpa using h)]

theorem namesIn_append :
    kind.namesIn (stmts ++ others) = kind.namesIn stmts ++ kind.namesIn others := by
  unfold namesIn
  rw [nodes_append, List.filterMap_append]

/-- A statement defines its own name before those below it. -/
theorem namesIn_singleton :
    kind.namesIn [stmt] = (kind.name? stmt).toList ++ kind.namesIn stmt.children := by
  unfold namesIn
  rw [nodes_singleton]
  cases h : kind.name? stmt with
  | none => rw [List.filterMap_cons_none h]; rfl
  | some name => rw [List.filterMap_cons_some h]; rfl

theorem namesIn_block {line : Nat} {block : BlockKind} :
    kind.namesIn [.block line block stmts] = kind.namesIn stmts := by
  rw [namesIn_singleton]
  cases kind <;> rfl

theorem namesIn_small (h : stmt.isSmall = true) : kind.namesIn [stmt] = [] := by
  cases stmt with
  | functionDef | classDef | block => cases h
  | assign | simple => cases kind <;> rfl

/-- There is a name for every definition. -/
theorem length_namesIn : (kind.namesIn stmts).length =
    (nodes stmts).countP fun stmt => (kind.name? stmt).isSome :=
  List.length_filterMap_eq_countP

end Definition

/-! ## Section 2: Tokens that are read over -/

namespace DefinitionsSeen

/-- There may be no such places at all. -/
theorem of_notMem (hcase : .name SoftKeyword.case_ ∉ all.map (·.lexeme))
    (hsquare : .symbol (.opening .square) ∉ all.map (·.lexeme))
    (hequal : .symbol .equal ∉ all.map (·.lexeme)) : DefinitionsSeen all where
  pattern h := absurd (List.mem_map_of_mem (h.suffix.subset List.mem_cons_self)) hcase
  typeParameters h := by
    have hmem := h.subset (List.mem_cons_of_mem _ (List.mem_cons_of_mem _ List.mem_cons_self))
    exact absurd (List.mem_map_of_mem hmem) hsquare
  argument h :=
    absurd (List.mem_map_of_mem (h.subset (List.mem_cons_of_mem _ List.mem_cons_self))) hequal

variable (hall : DefinitionsSeen all)

include hall

/-- In an expression, a keyword could only name an argument. -/
theorem of_fits (h : t :: ts <:+ all) (hfits : t.lexeme.fits (front ts).lexeme = true) :
    t.lexeme.opensDefinition = false := by
  rw [Bool.eq_false_iff]
  intro hopens
  have hequal : (front ts).lexeme = .symbol .equal := by
    unfold Lexeme.opensDefinition at hopens
    split at hopens
    case h_1 hkeyword | h_2 hkeyword =>
      rw [hkeyword] at hfits
      exact beq_iff_eq.mp hfits
    case h_3 => cases hopens
  obtain ⟨p, hts⟩ := eq_cons_of_front hequal (by simp)
  rw [hts] at h
  rw [hall.argument h] at hopens
  cases hopens

/-- No definition is in an expression. -/
theorem of_spans (h : Spans ts rest) (hts : ts <:+ all) :
    kind.namesBehind ts = kind.namesBehind rest := by
  induction h with
  | nothing => rfl
  | token hfits _ ih =>
    rw [Definition.namesBehind_cons (hall.of_fits hts hfits)]
    exact ih ((List.suffix_cons _ _).trans hts)
  | group hinner _ ihinner ih =>
    have hinside := (List.suffix_cons _ _).trans hts
    rw [Definition.namesBehind_cons rfl, ihinner hinside, Definition.namesBehind_cons rfl]
    exact ih ((List.suffix_cons _ _).trans (hinner.suffix.trans hinside))

end DefinitionsSeen

/-- From `ts` up to `rest`, the definitions are made whose names are in
    `made` and were not in `before`. -/
structure Collected (kind : Definition) (all : List Token) (before : List Text) (ts : List Token)
    (made : List Text) (rest : List Token) : Prop where
  suffix : rest <:+ all
  names : before ++ kind.namesBehind ts = made ++ kind.namesBehind rest

namespace Collected

variable {before made made' : List Text}

theorem trans (h : Collected kind all before ts made mid)
    (h' : Collected kind all made mid made' rest) : Collected kind all before ts made' rest :=
  ⟨h'.suffix, h.names.trans h'.names⟩

theorem frame (outer : List Text) (h : Collected kind all before ts made rest) :
    Collected kind all (outer ++ before) ts (outer ++ made) rest :=
  ⟨h.suffix, by rw [List.append_assoc, h.names, List.append_assoc]⟩

/-- What is read over, with names read before. -/
theorem across (h : Collected kind all [] ts [] rest) :
    Collected kind all before ts before rest := by
  simpa using h.frame before

/-- A token at the front. -/
theorem tail (hts : ts <:+ all) (h : (front ts).lexeme.opensDefinition = false) :
    Collected kind all before ts before ts.tail :=
  ⟨(List.tail_suffix ts).trans hts, by rw [Definition.namesBehind_tail h]⟩

end Collected

/-- The parser makes the definitions of the tokens that it reads. -/
def Collects {α : Type} (kind : Definition) (all : List Token) (before : List Text) (p : Parser α)
    (after : α → List Text) : Prop :=
  ∀ ts, ts <:+ all → Ensures p ts fun a rest => Collected kind all before ts (after a) rest

/-- The parser reads over tokens in which nothing is defined. -/
abbrev Skips {α : Type} (kind : Definition) (all : List Token) (p : Parser α) : Prop :=
  Collects kind all [] p fun _ => []

/-- The parser makes a statement with the definitions of the tokens that
    it reads from `ts` on. -/
abbrev CollectsAt (kind : Definition) (all ts : List Token) (p : Parser Stmt) : Prop :=
  Ensures p ts fun stmt rest => Collected kind all [] ts (kind.namesIn [stmt]) rest

/-- The line is read off the front. -/
theorem CollectsAt.line {f : Nat → Parser Stmt}
    (h : CollectsAt kind all ts (f (front ts).position.line)) :
    CollectsAt kind all ts (do
      let line ← line
      f line) := by
  rw [CollectsAt, ensures_bind, ensures_line]
  exact h

/-- The statement on its own is all that is read. -/
theorem CollectsAt.singleton {p : Parser Stmt} (h : CollectsAt kind all ts p) :
    Ensures (do
      let stmt ← p
      pure [stmt]) ts fun stmts rest => Collected kind all [] ts (kind.namesIn stmts) rest := by
  rw [ensures_bind]
  exact h.mono fun _ _ hrest => (ensures_pure _).mpr hrest

/-- The parsers that the grammar of statements refers back to make the
    definitions of the tokens that they read. -/
structure StatementParsers.Collect (kind : Definition) (p : StatementParsers) (all : List Token) :
    Prop where
  placing : Grammar.Placing p all
  statement : Collects kind all [] p.statement kind.namesIn
  conditional : ∀ ts, ts <:+ all → (front ts).lexeme.opensDefinition = false →
    CollectsAt kind all ts p.conditional

/-- The names in a state that a loop goes on with, or in its result. -/
def Parser.Next.names {σ α : Type} (before : σ → List Text) (after : α → List Text) :
    Next σ α → List Text
  | .again state => before state
  | .done result => after result

namespace Collects

variable {α β σ : Type} {p p' : Parser α} {q : Parser β} {f : β → Parser α}
  {before : List Text} {after : α → List Text} {made : β → List Text}

theorem pure {a : α} (h : before = after a) : Collects kind all before (pure a) after :=
  fun _ hts => (ensures_pure a).mpr ⟨hts, by rw [h]⟩

theorem bind (hq : Collects kind all [] q made)
    (hf : ∀ b, Collects kind all (before ++ made b) (f b) after) :
    Collects kind all before (q >>= f) after := by
  intro ts hts
  rw [ensures_bind]
  refine (hq ts hts).mono fun b mid hmid => (hf b mid hmid.suffix).mono fun a rest hrest => ?_
  have hbefore : Collected kind all before ts (before ++ made b) mid := by
    simpa using hmid.frame before
  exact hbefore.trans hrest

theorem across (hq : Skips kind all q) (hf : ∀ b, Collects kind all before (f b) after) :
    Collects kind all before (q >>= f) after :=
  .bind hq fun b => by simpa using hf b

theorem ite {c : Prop} [Decidable c] (hp : c → Collects kind all before p after)
    (hp' : ¬ c → Collects kind all before p' after) :
    Collects kind all before (if c then p else p') after := by
  intro ts hts
  rw [ensures_ite]
  exact ⟨fun hc => hp hc ts hts, fun hc => hp' hc ts hts⟩

theorem fail (fault : Fault) : Collects kind all before (fail fault : Parser α) after :=
  fun _ _ => (ensures_fail fault).mpr trivial

theorem spent : Collects kind all before (spent : Parser α) after :=
  fun _ _ => ensures_spent.mpr trivial

/-- A token at the front that is known not to open a definition. -/
theorem advance (hp : Collects kind all before p after) (hts : ts <:+ all)
    (h : (front ts).lexeme.opensDefinition = false) : Ensures (do
      Parser.advance
      p) ts fun a rest => Collected kind all before ts (after a) rest := by
  rw [ensures_bind, ensures_advance]
  have htail : Collected kind all before ts before ts.tail := .tail hts h
  exact (hp ts.tail htail.suffix).mono fun _ _ hrest => htail.trans hrest

theorem loop {body : σ → Parser (Next σ α)} (names : σ → List Text)
    (hbody : ∀ state, Collects kind all (names state) (body state) (Next.names names after))
    {state : σ} (hstate : before = names state) :
    Collects kind all before (loop body state) after := by
  subst hstate
  intro ts hts
  have hloop : Ensures (Parser.loop body state) ts fun result rest => ts <:+ all →
      Collected kind all (names state) ts (after result) rest := by
    refine @Ensures.loop _ _ body (fun state ts result rest => ts <:+ all →
      Collected kind all (names state) ts (after result) rest) (fun state ts next mid hread => ?_)
      state ts
    cases next with
    | done result => exact fun hts => hbody state ts hts _ _ hread
    | again next =>
      intro result rest hbehind hts
      have hround : Collected kind all (names state) ts (names next) mid :=
        hbody state ts hts _ _ hread
      exact hround.trans (hbehind hround.suffix)
  exact hloop.mono fun _ _ h => h hts

end Collects

namespace Skips

variable {α : Type} {p : Parser α}

theorem acceptIf {test : Lexeme → Bool} (h : ∀ l, test l = true → l.opensDefinition = false) :
    Skips kind all (acceptIf test) :=
  fun _ hts => (ensures_acceptIf test).mpr ⟨fun htest => .tail hts (h _ htest), fun _ => ⟨hts, rfl⟩⟩

theorem accept (symbol : Symbol) : Skips kind all (accept symbol) :=
  acceptIf fun _ htest => beq_iff_eq.mp htest ▸ rfl

theorem acceptKeyword {word : Keyword} (h : (Lexeme.keyword word).opensDefinition = false) :
    Skips kind all (acceptKeyword word) :=
  acceptIf fun _ htest => beq_iff_eq.mp htest ▸ h

theorem expect (symbol : Symbol) : Skips kind all (expect symbol) :=
  .across (accept symbol) fun _ => .ite (fun _ => .pure rfl) (fun _ => .fail _)

theorem expectNewline (fault : Fault) : Skips kind all (expectNewline fault) :=
  .across (acceptIf fun _ htest => beq_iff_eq.mp htest ▸ rfl) fun _ =>
    .ite (fun _ => .pure rfl) (fun _ => .fail _)

theorem repeatWhile {body : Parser Bool} (h : Skips kind all body) :
    Skips kind all (repeatWhile body) := by
  unfold Parser.repeatWhile whileTrue
  refine .loop (fun _ => []) (fun _ => .across h fun _ => ?_) rfl
  exact .ite (fun _ => .pure rfl) (fun _ => .pure rfl)

/-- What an expression may read. -/
theorem of_spanning (hall : DefinitionsSeen all) (h : Spanning p) : Skips kind all p :=
  fun ts hts => (h ts).mono fun _ _ hrest =>
    ⟨hrest.suffix.trans hts, hall.of_spans hrest hts⟩

end Skips

namespace Grammar

/-! ## Section 3: Parts that are skipped -/

theorem skipSquare_ensures (depth : Nat) (ts : List Token) :
    Ensures (skipSquare depth) ts fun _ rest => ∃ inner p,
      ts = inner ++ ⟨.symbol (.closing .square), p⟩ :: rest ∧ IsBracketed depth inner := by
  induction ts generalizing depth with
  | nil => exact (ensures_fail _).mpr trivial
  | cons t ts ih =>
    intro a rest hread
    unfold skipSquare at hread
    split at hread
    case h_1 => cases hread
    case h_2 hopening =>
      obtain ⟨inner, p, rfl, hinner⟩ := ih _ _ _ hread
      exact ⟨t :: inner, p, rfl, .opening hopening hinner⟩
    case h_3 hclosing =>
      -- At depth zero the bracket is the last one, else one of the inner.
      split at hread
      case h_1 =>
        cases hread
        exact ⟨[], t.position, by rw [← hclosing]; rfl, .nil⟩
      case h_2 =>
        obtain ⟨inner, p, rfl, hinner⟩ := ih _ _ _ hread
        exact ⟨t :: inner, p, rfl, .closing hclosing hinner⟩
    case h_4 _ hopening hclosing =>
      obtain ⟨inner, p, rfl, hinner⟩ := ih _ _ _ hread
      exact ⟨t :: inner, p, rfl, .other hopening hclosing hinner⟩

theorem skipPattern_ensures (isEmpty : Bool) (depth : Int) (ts : List Token) :
    Ensures (skipPattern isEmpty depth) ts fun _ rest => ∃ pattern p,
      ts = pattern ++ ⟨.symbol .colon, p⟩ :: rest ∧ IsPattern depth pattern := by
  induction ts generalizing isEmpty depth with
  | nil => exact (ensures_fail _).mpr trivial
  | cons t ts ih =>
    intro a rest hread
    unfold skipPattern at hread
    split at hread
    case h_1 | h_2 => cases hread
    case h_3 hline hend =>
      split at hread
      case isTrue hcolon =>
        -- The colon ends the pattern, which may not be empty.
        split at hread
        case isTrue => cases hread
        case isFalse =>
          cases hread
          simp only [Bool.and_eq_true, decide_eq_true_eq, beq_iff_eq] at hcolon
          obtain ⟨rfl, hcolon⟩ := hcolon
          exact ⟨[], t.position, by rw [← hcolon]; rfl, .nil⟩
      case isFalse hcolon =>
        obtain ⟨pattern, p, rfl, hpattern⟩ := ih _ _ _ _ hread
        refine ⟨t :: pattern, p, rfl, .cons hline hend (fun hdepth hsymbol => ?_) hpattern⟩
        exact hcolon (by simp [hdepth, hsymbol])

variable (hall : DefinitionsSeen all)

include hall

/-- Type parameters are read over, behind the name that they belong to. -/
theorem typeParameters_collected {owner : Token} {name : Text} {p : Position}
    (h : owner :: ⟨.name name, p⟩ :: ts <:+ all)
    (howner : owner.lexeme.takesTypeParameters = true) :
    Ensures typeParameters ts fun _ rest => Collected kind all [] ts [] rest := by
  have hts : ts <:+ all := ((List.suffix_cons _ ts).trans (List.suffix_cons _ _)).trans h
  unfold typeParameters
  rw [ensures_bind, ensures_accept]
  refine ⟨fun hopening => ?_, fun _ => (ensures_pure _).mpr ⟨hts, rfl⟩⟩
  rw [if_pos rfl]
  refine (skipSquare_ensures 0 ts.tail).mono fun _ rest hrest => ?_
  obtain ⟨inner, r, htail, hinner⟩ := hrest
  obtain ⟨q, hcons⟩ := eq_cons_of_front hopening (by simp)
  rw [htail] at hcons
  have hseen := hall.typeParameters (hcons ▸ h) howner hinner
  rw [hcons] at hts ⊢
  refine ⟨.trans ?_ hts, ?_⟩
  · exact ⟨⟨.symbol (.opening .square), q⟩ :: (inner ++ [⟨.symbol (.closing .square), r⟩]), by simp⟩
  · rw [Definition.namesBehind_cons rfl, Definition.namesBehind_append hseen,
      Definition.namesBehind_cons rfl]

/-- A pattern is read over with its colon. -/
theorem pattern_collected (h : Fresh all ts)
    (hfront : (front ts).lexeme = .name SoftKeyword.case_) :
    Ensures (skipPattern true 0) ts.tail fun _ rest => Collected kind all [] ts [] rest := by
  refine (skipPattern_ensures true 0 ts.tail).mono fun _ rest hrest => ?_
  obtain ⟨pattern, q, htail, hpattern⟩ := hrest
  obtain ⟨p, hcons⟩ := eq_cons_of_front hfront (by simp)
  rw [htail] at hcons
  have hseen := hall.pattern (hcons ▸ h) hpattern
  have hts := h.suffix
  rw [hcons] at hts ⊢
  refine ⟨.trans ?_ hts, ?_⟩
  · exact ⟨⟨.name SoftKeyword.case_, p⟩ :: (pattern ++ [⟨.symbol .colon, q⟩]), by simp⟩
  · rw [Definition.namesBehind_cons rfl, Definition.namesBehind_append hseen,
      Definition.namesBehind_cons rfl]

/-! ## Section 4: Lines and suites -/

theorem typeAlias_collected (hts : ts <:+ all) (h : atTypeAlias ts = .ok (true, ts)) :
    Ensures typeAlias ts fun _ rest => Collected kind all [] ts [] rest := by
  obtain ⟨p, name, q, us, rfl⟩ := names_of_atTypeAlias h
  have hvalue : Skips kind all (do
      expect .equal
      let _ ← grammar.expression) := by
    refine .across (.expect _) fun _ =>
      .across (.of_spanning hall grammar_span.expression) fun _ => ?_
    exact .pure rfl
  unfold typeAlias
  rw [ensures_bind, ensures_advance, ensures_bind, ensures_name]
  rintro _ -
  rw [ensures_bind]
  have hparameters : Ensures typeParameters us fun _ rest => Collected kind all [] us [] rest :=
    typeParameters_collected hall hts rfl
  refine hparameters.mono fun _ mid hmid => ?_
  refine (hvalue mid hmid.suffix).mono fun _ rest hrest => ?_
  have hnames : Collected kind all [] _ [] rest := hmid.trans hrest
  refine ⟨hnames.suffix, ?_⟩
  rw [Definition.namesBehind_cons rfl, Definition.namesBehind_cons rfl]
  exact hnames.names

/-- A small statement defines nothing. -/
theorem smallStatement_collects : Collects kind all [] smallStatement fun stmt =>
    kind.namesIn [stmt] := by
  have hskips : Skips kind all smallStatement := by
    intro ts hts
    obtain ⟨found, hfound⟩ := atTypeAlias_eq_ok ts
    cases found with
    | false =>
      exact (smallStatement_spans hfound).mono fun _ _ hrest =>
        ⟨hrest.suffix.trans hts, hall.of_spans hrest hts⟩
    | true =>
      unfold smallStatement
      rw [ensures_bind, ensures_line, ensures_bind]
      intro found mid hread
      rw [hfound] at hread
      cases hread
      rw [if_pos rfl, ensures_bind]
      exact (typeAlias_collected hall hts hfound).mono fun _ _ hrest => (ensures_pure _).mpr hrest
  -- The names in the tree are none either, since the statement is small.
  intro ts hts stmt rest hread
  dsimp only
  rw [Definition.namesIn_small (smallStatement_makes ts stmt rest hread).1]
  exact hskips ts hts stmt rest hread

theorem simpleStatements_collects : Collects kind all [] simpleStatements kind.namesIn := by
  have hloop : Collects kind all [] (loop nextSmall []) fun read => kind.namesIn read.reverse := by
    refine .loop (fun read => kind.namesIn read.reverse) (fun read => ?_) rfl
    unfold nextSmall
    refine .bind (smallStatement_collects hall) fun stmt => ?_
    rw [← Definition.namesIn_append, ← List.reverse_cons]
    refine .across (.accept _) fun _ => .ite (fun _ => ?_) (fun _ => .pure rfl)
    exact .across (.of_spanning hall .peek) fun _ => .ite (fun _ => .pure rfl) (fun _ => .pure rfl)
  unfold simpleStatements
  exact .bind hloop fun read => .across (.expectNewline _) fun _ => .pure rfl

omit hall in
theorem statementsUntil_ends (ends : Lexeme → Bool) (statement : Parser (List Stmt))
    (ts : List Token) : Ensures (statementsUntil ends statement) ts
      fun _ rest => ends (front rest).lexeme = true := by
  unfold statementsUntil nextStatement
  refine Ensures.loop_tokens (fun _ rest => ends (front rest).lexeme = true)
    (fun read ts => ?_) [] ts
  rw [ensures_bind, ensures_peek, ensures_ite, ensures_pure, ensures_bind]
  exact ⟨id, fun _ _ _ _ => (ensures_pure _).mpr fun _ => id⟩

theorem statementsUntil_collects {statement : Parser (List Stmt)}
    (hstatement : Collects kind all [] statement kind.namesIn) (ends : Lexeme → Bool) :
    Collects kind all [] (statementsUntil ends statement) kind.namesIn := by
  unfold statementsUntil nextStatement
  refine .loop (fun read => kind.namesIn read.reverse) (fun read => ?_) rfl
  refine .across (.of_spanning hall .peek) fun _ => .ite (fun _ => .pure rfl) (fun _ => ?_)
  exact .bind hstatement fun stmts => .pure (by simp [Next.names, Definition.namesIn_append])

variable {p : StatementParsers} (hp : p.Collect kind all)

include hp

theorem suite_collects : Collects kind all [] (suite p) kind.namesIn := by
  have hlayout : ∀ {l : Lexeme}, l.opensDefinition = false →
      Skips kind all (acceptIf (· == l)) :=
    fun hl => .acceptIf fun _ htest => beq_iff_eq.mp htest ▸ hl
  have hstatements := statementsUntil_collects hall hp.statement endsBlock
  unfold suite
  refine .across (hlayout rfl) fun _ => .ite (fun _ => ?_) (fun _ => simpleStatements_collects hall)
  refine .across (hlayout rfl) fun _ => .ite (fun _ => ?_) (fun _ => .fail _)
  exact .bind hstatements fun _ => .across (hlayout rfl) fun _ => .pure rfl

theorem body_collects : Collects kind all [] (body p) kind.namesIn := by
  unfold body
  exact .across (.expect _) fun _ => suite_collects hall hp

/-- The body of a statement whose own name is in `before`. -/
theorem owner_collects {α : Type} {make : List Stmt → α} (owner : α → Stmt) {before : List Text}
    (hnames : ∀ inner, kind.namesIn [owner (make inner)] = before ++ kind.namesIn inner) :
    Collects kind all before (do
      let inner ← body p
      pure (make inner)) fun a => kind.namesIn [owner a] :=
  .bind (body_collects hall hp) fun inner => .pure (hnames inner).symm

theorem optionalBody_collects {keyword : Keyword}
    (h : (Lexeme.keyword keyword).opensDefinition = false) :
    Collects kind all [] (optionalBody p keyword) fun stmts => kind.namesIn (stmts.getD []) := by
  unfold optionalBody
  refine .across (.acceptKeyword h) fun _ => .ite (fun _ => ?_) (fun _ => .pure rfl)
  exact .bind (body_collects hall hp) fun _ => .pure rfl

/-! ## Section 5: Compound statements -/

theorem alternative_collects : Collects kind all [] (alternative p) kind.namesIn := by
  intro ts hts
  unfold alternative
  rw [ensures_bind, ensures_atKeyword, ensures_ite]
  refine ⟨fun helif => ?_, fun _ => ?_⟩
  · have hfront : (front ts).lexeme.opensDefinition = false := by
      rw [of_decide_eq_true helif]
      rfl
    exact CollectsAt.singleton (hp.conditional ts hts hfront)
  · refine Collects.bind (optionalBody_collects hall hp rfl) (fun _ => ?_) ts hts
    exact .pure rfl

/-- A body and what hangs on it. -/
theorem block_collects {α : Type} {line : Nat} {block : BlockKind} {hanging : Parser α}
    {below : α → List Stmt}
    (hhanging : Collects kind all [] hanging fun a => kind.namesIn (below a)) :
    Collects kind all [] (do
      let first ← body p
      let last ← hanging
      pure (Stmt.block line block (first ++ below last))) fun stmt => kind.namesIn [stmt] := by
  refine .bind (body_collects hall hp) fun first => .bind hhanging fun last => .pure ?_
  rw [Definition.namesIn_block, Definition.namesIn_append, List.nil_append]

theorem conditional_collected (hts : ts <:+ all) (h : (front ts).lexeme.opensDefinition = false) :
    CollectsAt kind all ts (conditional p) := by
  unfold conditional
  refine .line ?_
  refine Collects.advance (.across ?_ fun _ => ?_) hts h
  · exact .of_spanning hall (namedExpression_opening grammar_span).spanning
  · exact block_collects hall hp (alternative_collects hall hp)

theorem whileLoop_collected (hts : ts <:+ all) (h : (front ts).lexeme = .keyword .while_) :
    CollectsAt kind all ts (whileLoop p) := by
  unfold whileLoop
  refine .line ?_
  refine Collects.advance (.across ?_ fun _ => ?_) hts (by rw [h]; rfl)
  · exact .of_spanning hall (namedExpression_opening grammar_span).spanning
  · exact block_collects hall hp (optionalBody_collects hall hp rfl)

theorem forLoop_collected {line : Nat} {isAsync : Bool} (hts : ts <:+ all)
    (h : (front ts).lexeme = .keyword .for_) : CollectsAt kind all ts (forLoop p line isAsync) := by
  unfold forLoop
  refine Collects.advance ?_ hts (by rw [h]; rfl)
  refine .across (.of_spanning hall (targets_opening grammar_span).spanning) fun _ =>
    .across (.of_spanning hall (.expectKeyword _ fun _ => rfl)) fun _ =>
    .across (.of_spanning hall (starExpressions_opening grammar_span).spanning) fun _ => ?_
  exact block_collects hall hp (optionalBody_collects hall hp rfl)

theorem handler_collected (hts : ts <:+ all) (h : (front ts).lexeme = .keyword .except_) :
    Ensures (handler p) ts
      fun read rest => Collected kind all [] ts (kind.namesIn [read.1]) rest := by
  have hhandled : ∀ (line : Nat) (star : Bool), Collects kind all [] (do
      let handled ← body p
      pure (Stmt.block line .handler handled, star)) fun read => kind.namesIn [read.1] :=
    fun _ _ => owner_collects hall hp Prod.fst fun _ => Definition.namesIn_block
  unfold handler
  rw [ensures_bind, ensures_line]
  refine Collects.advance (.across (.accept _) fun star => ?_) hts (by rw [h]; rfl)
  refine .across (.of_spanning hall (.atSymbol _)) fun _ =>
    .ite (fun _ => hhandled _ star) (fun _ => ?_)
  exact .across (.of_spanning hall grammar_span.expression) fun _ =>
    .across (.of_spanning hall asName_spanning) fun _ => hhandled _ star

theorem handlers_collects : Collects kind all [] (loop (nextHandler p) ([], false))
    fun read => kind.namesIn read.1 := by
  refine .loop (fun read => kind.namesIn read.1) (fun read ts hts => ?_) rfl
  unfold nextHandler
  rw [ensures_bind, ensures_atKeyword, ensures_ite, ensures_bind, ensures_pure]
  refine ⟨fun hexcept => ?_, fun _ => ⟨hts, rfl⟩⟩
  refine (handler_collected hall hp hts (of_decide_eq_true hexcept)).mono fun next mid hnext => ?_
  have hboth := hnext.frame (kind.namesIn read.1)
  rw [List.append_nil, ← Definition.namesIn_append] at hboth
  exact (ensures_pure _).mpr hboth

theorem tryBlock_collected (hts : ts <:+ all) (h : (front ts).lexeme = .keyword .try_) :
    CollectsAt kind all ts (tryBlock p) := by
  unfold tryBlock
  refine .line ?_
  refine Collects.advance (.bind (body_collects hall hp) fun first =>
    .bind (handlers_collects hall hp) fun (handlers, star) => ?_) hts (by rw [h]; rfl)
  -- The alternative is optional like the final block, or left out.
  have hfinal : ∀ q : Parser (Option (List Stmt)),
      Collects kind all [] q (fun stmts => kind.namesIn (stmts.getD [])) →
      Collects kind all (kind.namesIn (first ++ handlers)) (do
        let alternative ← q
        let final ← optionalBody p .finally_
        if handlers.isEmpty && final.isNone then fail .missingHandler
        else pure (Stmt.block (front ts).position.line (.tryBlock star)
          (first ++ handlers ++ alternative.getD [] ++ final.getD [])))
        fun stmt => kind.namesIn [stmt] := by
    refine fun q hq => .bind hq fun alternative =>
      .bind (optionalBody_collects hall hp rfl) fun final => ?_
    refine .ite (fun _ => .fail _) (fun _ => .pure ?_)
    rw [Definition.namesIn_block, ← Definition.namesIn_append, ← Definition.namesIn_append]
  dsimp only
  rw [List.nil_append, ← Definition.namesIn_append]
  exact .ite (fun _ => hfinal _ (.pure rfl)) (fun _ => hfinal _ (optionalBody_collects hall hp rfl))

theorem withBlock_collected {line : Nat} {isAsync : Bool} (hts : ts <:+ all)
    (h : (front ts).lexeme = .keyword .with_) :
    CollectsAt kind all ts (withBlock p line isAsync) := by
  unfold withBlock
  refine Collects.advance (.across (.of_spanning hall withItems_spanning) fun _ => ?_) hts
    (by rw [h]; rfl)
  exact owner_collects hall hp id fun _ => Definition.namesIn_block

omit hp in
/-- The keyword of a definition, its name, and its type parameters. -/
theorem definition_collected {word : Keyword} {f : Text → Parser Stmt} (hts : ts <:+ all)
    (h : (front ts).lexeme = .keyword word)
    (hopens : (Lexeme.keyword word).opensDefinition = true)
    (hf : ∀ name, Collects kind all (if kind.keyword = word then [name] else []) (f name)
      fun stmt => kind.namesIn [stmt]) : CollectsAt kind all ts (do
      advance
      let name ← name
      typeParameters
      f name) := by
  rw [CollectsAt, ensures_bind, ensures_advance, ensures_bind, ensures_name]
  intro name hname
  obtain ⟨p, hcons⟩ := eq_cons_of_front h (by simp)
  obtain ⟨q, htail⟩ := eq_cons_of_front hname (by simp)
  -- The keyword adds the name behind it to those of its own kind only.
  have hown : kind.namesBehind ts =
      (if kind.keyword = word then [name] else []) ++ kind.namesBehind ts.tail.tail := by
    have hbehind : kind.namesBehind ts.tail.tail = kind.namesBehind ts.tail :=
      Definition.namesBehind_tail (by rw [hname]; rfl)
    rw [hbehind, hcons, Definition.namesBehind, List.tail_cons, hname]
    by_cases hkind : kind.keyword = word
    · simp [hkind, Lexeme.text]
    · simp [hkind, Ne.symm hkind]
  have hparameters : Ensures typeParameters ts.tail.tail
      fun _ rest => Collected kind all [] ts.tail.tail [] rest := by
    rw [htail] at hcons
    exact typeParameters_collected hall (hcons ▸ hts) (Bool.or_eq_true_iff.mpr (.inl hopens))
  rw [ensures_bind]
  refine hparameters.mono fun _ mid hmid => (hf name mid hmid.suffix).mono fun _ rest hrest => ?_
  exact ⟨hrest.suffix, hown.trans (hmid.across.trans hrest).names⟩

theorem functionDef_collected {line : Nat} {isAsync : Bool} (hts : ts <:+ all)
    (h : (front ts).lexeme = .keyword .def_) :
    CollectsAt kind all ts (functionDef p line isAsync) := by
  unfold functionDef
  refine definition_collected hall hts h rfl fun name => ?_
  refine .across (.expect _) fun _ =>
    .across (.of_spanning hall (parameters_spanning grammar_span _ _)) fun params => ?_
  have hbody : Collects kind all (if kind.keyword = .def_ then [name] else []) (do
      let inner ← body p
      pure (Stmt.functionDef line isAsync name params inner)) fun stmt => kind.namesIn [stmt] := by
    refine owner_collects hall hp id fun inner => ?_
    rw [Definition.namesIn_singleton]
    cases kind <;> rfl
  refine .across (.expect _) fun _ => .across (.accept _) fun _ =>
    .ite (fun _ => ?_) (fun _ => hbody)
  exact .across (.of_spanning hall grammar_span.expression) fun _ => hbody

theorem classDef_collected {line : Nat} (hts : ts <:+ all)
    (h : (front ts).lexeme = .keyword .class_) : CollectsAt kind all ts (classDef p line) := by
  unfold classDef
  refine definition_collected hall hts h rfl fun name => ?_
  have hbody : Collects kind all (if kind.keyword = .class_ then [name] else []) (do
      let inner ← body p
      pure (Stmt.classDef line name inner)) fun stmt => kind.namesIn [stmt] := by
    refine owner_collects hall hp id fun inner => ?_
    rw [Definition.namesIn_singleton]
    cases kind <;> rfl
  refine .across (.of_spanning hall (.atSymbol _)) fun _ => .ite (fun _ => ?_) (fun _ => hbody)
  exact .across (.of_spanning hall (arguments_spanning grammar_span)) fun _ => hbody

theorem decorated_collects :
    Collects kind all [] (decorated p) fun stmt => kind.namesIn [stmt] := by
  have hdecorators : Skips kind all (repeatWhile do
      if ← accept .atSign then
        let _ ← namedExpression grammar
        expectNewline .invalidSyntax
        pure true
      else pure false) := by
    refine .repeatWhile (.across (.accept _) fun _ => .ite (fun _ => ?_) (fun _ => .pure rfl))
    refine .across (.of_spanning hall (namedExpression_opening grammar_span).spanning) fun _ => ?_
    exact .across (.expectNewline _) fun _ => .pure rfl
  unfold decorated nextDecorator
  refine .across hdecorators fun _ ts hts => ?_
  rw [ensures_bind, ensures_line, ensures_bind, ensures_peekSecond, ensures_bind, ensures_peek]
  split
  case h_1 hdef => exact functionDef_collected hall hp hts hdef
  case h_2 hclass => exact classDef_collected hall hp hts hclass
  case h_3 hasync =>
    rw [ensures_ite, ensures_fail, ensures_bind, ensures_advance]
    refine ⟨fun hdef => ?_, fun _ => trivial⟩
    have htail : Collected kind all [] ts [] ts.tail := .tail hts (by rw [hasync]; rfl)
    exact (functionDef_collected hall hp htail.suffix (beq_iff_eq.mp hdef)).mono
      fun _ _ hrest => htail.trans hrest
  case h_4 => exact (ensures_fail _).mpr trivial

theorem asyncStatement_collected (hts : ts <:+ all) (h : (front ts).lexeme = .keyword .async_) :
    CollectsAt kind all ts (asyncStatement p) := by
  unfold asyncStatement
  refine .line ?_
  refine Collects.advance (fun us hus => ?_) hts (by rw [h]; rfl)
  rw [ensures_bind, ensures_peek]
  split
  case h_1 hdef => exact functionDef_collected hall hp hus hdef
  case h_2 hfor => exact forLoop_collected hall hp hus hfor
  case h_3 hwith => exact withBlock_collected hall hp hus hwith
  case h_4 => exact (ensures_fail _).mpr trivial

/-! ## Section 6: Matching -/

theorem matchCase_collected (h : Fresh all ts)
    (hfront : (front ts).lexeme = .name SoftKeyword.case_) :
    CollectsAt kind all ts (matchCase p) := by
  have hpattern : Ensures (skipPattern true 0) ts.tail
      fun _ rest => Collected kind all [] ts [] rest := pattern_collected hall h hfront
  unfold matchCase
  refine .line ?_
  rw [CollectsAt, ensures_bind, ensures_advance, ensures_bind]
  refine hpattern.mono fun _ mid hmid => ?_
  rw [ensures_bind]
  refine (suite_collects hall hp mid hmid.suffix).mono fun inner rest hinner => ?_
  rw [ensures_pure, Definition.namesIn_block]
  exact hmid.trans hinner

/-- A case starts a logical line, and so does what follows it. -/
theorem cases_collected (h : Fresh all ts) : Ensures (loop (nextCase p) []) ts
    fun stmts rest => Collected kind all [] ts (kind.namesIn stmts) rest := by
  have hloop : Ensures (loop (nextCase p) []) ts fun stmts rest => Fresh all ts →
      Collected kind all (kind.namesIn [].reverse) ts (kind.namesIn stmts) rest := by
    refine @Ensures.loop _ _ (nextCase p) (fun read ts stmts rest => Fresh all ts →
      Collected kind all (kind.namesIn read.reverse) ts (kind.namesIn stmts) rest)
      (fun read ts => ?_) [] ts
    unfold nextCase
    rw [ensures_bind, ensures_peek, ensures_ite, ensures_pure, ensures_bind]
    refine ⟨fun hcase next mid hnext => ?_, fun _ hfresh => ⟨hfresh.suffix, rfl⟩⟩
    refine (ensures_pure _).mpr fun stmts rest hbehind hfresh => ?_
    have hfront := beq_iff_eq.mp hcase
    have hcollected : Collected kind all [] ts (kind.namesIn [next]) mid :=
      matchCase_collected hall hp hfresh hfront next mid hnext
    have hround := hcollected.frame (kind.namesIn read.reverse)
    rw [List.append_nil, ← Definition.namesIn_append, ← List.reverse_cons] at hround
    exact hround.trans (hbehind (matchCase_places hp.placing hfresh hfront next mid hnext).fresh)
  exact hloop.mono fun _ _ hrest => hrest h

theorem matchBlock_collected (hts : ts <:+ all)
    (h : (front ts).lexeme = .name SoftKeyword.match_) : CollectsAt kind all ts (matchBlock p) := by
  unfold matchBlock
  refine .line ?_
  rw [CollectsAt, ensures_bind, ensures_advance, ensures_bind]
  have hword : Collected kind all [] ts [] ts.tail := .tail hts (by rw [h]; rfl)
  have hsubject : Skips kind all (starExpressions grammar) :=
    .of_spanning hall (starExpressions_opening grammar_span).spanning
  have hsymbol : Skips kind all (expect .colon) := .expect _
  refine (hsubject ts.tail hword.suffix).mono fun _ mid hmid => ?_
  rw [ensures_bind]
  refine (hsymbol mid hmid.suffix).mono fun _ us hcolon => ?_
  have hhead : Collected kind all [] ts [] us := hword.trans (hmid.trans hcolon)
  rw [ensures_bind, ensures_expectNewline]
  intro hnewline
  have hline : Collected kind all [] us [] us.tail := .tail hhead.suffix (by rw [hnewline]; rfl)
  rw [ensures_bind, ensures_acceptIf]
  refine ⟨fun hindent => ?_, fun _ => (ensures_fail _).mpr trivial⟩
  have hindent := beq_iff_eq.mp hindent
  -- Behind the indent the first case starts a logical line.
  have hblock : Collected kind all [] us [] us.tail.tail :=
    hline.trans (.tail hline.suffix (by rw [hindent]; rfl))
  have hfresh : Fresh all us.tail.tail := .tail hline.suffix hindent rfl (by simp)
  rw [if_pos rfl, ensures_bind]
  refine (cases_collected hall hp hfresh).mono fun cases behind hcases => ?_
  rw [ensures_ite, ensures_fail, ensures_bind, ensures_acceptIf]
  refine ⟨fun _ => trivial, fun _ => ⟨fun hdedent => ?_, fun _ => (ensures_fail _).mpr trivial⟩⟩
  rw [if_pos rfl, ensures_pure, Definition.namesIn_block]
  refine hhead.trans (hblock.trans (hcases.trans (.tail hcases.suffix ?_)))
  rw [beq_iff_eq.mp hdedent]
  rfl

/-! ## Section 7: The knot -/

theorem compound?_collected {parser : Parser Stmt} (hts : ts <:+ all)
    (hparser : compound? p (front ts).lexeme = some parser) : CollectsAt kind all ts parser := by
  unfold compound? at hparser
  split at hparser
  case h_11 => cases hparser
  all_goals cases hparser
  case h_1 h => exact conditional_collected hall hp hts (by rw [h]; rfl)
  case h_2 h => exact whileLoop_collected hall hp hts h
  case h_3 h => exact .line (forLoop_collected hall hp hts h)
  case h_4 h => exact tryBlock_collected hall hp hts h
  case h_5 h => exact .line (withBlock_collected hall hp hts h)
  case h_6 h => exact .line (functionDef_collected hall hp hts h)
  case h_7 h => exact .line (classDef_collected hall hp hts h)
  case h_8 h => exact asyncStatement_collected hall hp hts h
  case h_9 => exact decorated_collects hall hp _ hts
  case h_10 => exact (ensures_fail _).mpr trivial

theorem statement_collects : Collects kind all [] (statement p) kind.namesIn := by
  intro ts hts
  unfold statement
  rw [ensures_bind]
  refine (atMatch_ensures ts).mono fun found _ hfound => ?_
  obtain ⟨rfl, hfound⟩ := hfound
  rw [ensures_ite]
  refine ⟨fun hmatch => ?_, fun _ => ?_⟩
  · have hword := beq_iff_eq.mp (hfound hmatch)
    exact CollectsAt.singleton (matchBlock_collected hall hp hts hword)
  rw [ensures_bind, ensures_peek]
  split
  case h_1 parser hparser => exact CollectsAt.singleton (compound?_collected hall hp hts hparser)
  case h_2 => exact simpleStatements_collects hall _ hts

omit hp in
theorem statementsUpTo_collect (fuel : List Token) : (statementsUpTo fuel).Collect kind all := by
  induction fuel with
  | nil => exact ⟨statementsUpTo_placing _ _, .spent, fun _ _ _ => ensures_spent.mpr trivial⟩
  | cons _ fuel ih =>
    exact ⟨statementsUpTo_placing _ _, statement_collects hall ih,
      fun _ => conditional_collected hall ih⟩

end Grammar

/-! ## Section 8: The definitions of a source -/

/-- **No definition is lost.**  Unless a keyword of a definition stands in
    a pattern, between the brackets of type parameters or in front of an
    equals sign, the tree of a source has a definition for every such
    keyword, at whatever depth, and no other, under the names that are
    behind the keywords and in their order. -/
theorem Module.definitions_kept {source : Text} {m : Module} {tokens : List Token}
    (h : ofSource source = .ok m) (htokens : tokenize source = .ok tokens)
    (hseen : DefinitionsSeen tokens) (kind : Definition) :
    (nodes m).filterMap kind.name? = kind.namesBehind tokens ∧
    (nodes m).countP (fun stmt => (kind.name? stmt).isSome) =
      tokens.countP (·.lexeme = .keyword kind.keyword) := by
  obtain ⟨tokens', htokens', htree⟩ := ofSource_eq_ok h
  rw [htokens, Except.ok.injEq] at htokens'
  subst htokens'
  obtain ⟨rest, hread⟩ := ofTokens_eq_ok htree
  rw [withEndMarker_of_tokenize htokens] at hread
  have hstatement : Collects kind tokens [] statementGrammar.statement kind.namesIn :=
    fun ts hts => (Grammar.statement_collects hseen (Grammar.statementsUpTo_collect hseen ts) ts
      hts).congr rfl
  have hmodule : Collected kind tokens [] tokens (kind.namesIn m) rest :=
    Grammar.statementsUntil_collects hseen hstatement _ tokens (List.suffix_refl _) m rest hread
  -- What is left is the end marker.
  have hend : (front rest).lexeme = .endMarker :=
    beq_iff_eq.mp (Grammar.statementsUntil_ends _ _ _ m rest hread)
  obtain ⟨inner, p, hinner, hne⟩ := Scan.eq_concat_endMarker htokens
  have hsuffix := hmodule.suffix
  rw [hinner, List.suffix_concat_iff] at hsuffix
  have hrest : kind.namesBehind rest = [] := by
    rcases hsuffix with rfl | ⟨us, rfl, hus⟩
    · rfl
    · cases us with
      | nil => exact Definition.namesBehind_cons rfl
      | cons t us => exact absurd hend (hne t (hus.subset List.mem_cons_self))
  have hnames : kind.namesIn m = kind.namesBehind tokens := by
    simpa [hrest] using hmodule.names.symm
  refine ⟨hnames, ?_⟩
  rw [← Definition.length_namesIn, hnames, Definition.length_namesBehind]

/-- Definitions in each other, one of them with a decorator. -/
theorem Module.definitions_of_nested_classes :
    ∃ m, ofSource (ascii "@d\nclass C(B):\n  async def f(x):\n    class D: pass\n") = .ok m ∧
      (nodes m).filterMap Definition.class_.name? = [ascii "C", ascii "D"] ∧
      (nodes m).filterMap Definition.function.name? = [ascii "f"] := by
  let tokens : List Token :=
    [⟨.symbol .atSign, ⟨1, 1⟩⟩, ⟨.name (ascii "d"), ⟨1, 2⟩⟩, ⟨.newline, ⟨1, 3⟩⟩,
      ⟨.keyword .class_, ⟨2, 1⟩⟩, ⟨.name (ascii "C"), ⟨2, 7⟩⟩, ⟨.symbol (.opening .round), ⟨2, 8⟩⟩,
      ⟨.name (ascii "B"), ⟨2, 9⟩⟩, ⟨.symbol (.closing .round), ⟨2, 10⟩⟩,
      ⟨.symbol .colon, ⟨2, 11⟩⟩, ⟨.newline, ⟨2, 12⟩⟩, ⟨.indent, ⟨3, 3⟩⟩,
      ⟨.keyword .async_, ⟨3, 3⟩⟩, ⟨.keyword .def_, ⟨3, 9⟩⟩, ⟨.name (ascii "f"), ⟨3, 13⟩⟩,
      ⟨.symbol (.opening .round), ⟨3, 14⟩⟩, ⟨.name (ascii "x"), ⟨3, 15⟩⟩,
      ⟨.symbol (.closing .round), ⟨3, 16⟩⟩, ⟨.symbol .colon, ⟨3, 17⟩⟩, ⟨.newline, ⟨3, 18⟩⟩,
      ⟨.indent, ⟨4, 5⟩⟩, ⟨.keyword .class_, ⟨4, 5⟩⟩, ⟨.name (ascii "D"), ⟨4, 11⟩⟩,
      ⟨.symbol .colon, ⟨4, 12⟩⟩, ⟨.keyword .pass_, ⟨4, 14⟩⟩, ⟨.newline, ⟨4, 18⟩⟩,
      ⟨.dedent, ⟨5, 1⟩⟩, ⟨.dedent, ⟨5, 1⟩⟩, ⟨.endMarker, ⟨5, 1⟩⟩]
  have htokens : tokenize (ascii "@d\nclass C(B):\n  async def f(x):\n    class D: pass\n") =
      .ok tokens := rfl
  have hread : ofSource (ascii "@d\nclass C(B):\n  async def f(x):\n    class D: pass\n") = .ok
      [.classDef 2 (ascii "C") [.functionDef 3 true (ascii "f") { regular := [ascii "x"] }
        [.classDef 4 (ascii "D") [.simple 4 .pass]]]] := by decide +kernel
  have hseen : DefinitionsSeen tokens := .of_notMem (by decide) (by decide) (by decide)
  exact ⟨_, hread, (definitions_kept hread htokens hseen .class_).1,
    (definitions_kept hread htokens hseen .function).1⟩

/-- A keyword that names an argument defines nothing. -/
example : Module.ofSource (ascii "f(def=1)\n") = .ok [.simple 1 .expression] := by decide +kernel

end StyleCheck
