import Mathlib.Control.Monad.Basic
import StyleCheck.Proofs.Parsing.Lines
import StyleCheck.Proofs.Parsing.Name
import StyleCheck.Proofs.Parsing.Renaming

/-! # Soft Keywords as Names

    A soft keyword opens a statement in some places and is a name in all
    others.  A source that is accepted with other names in place of the
    soft keywords is accepted as it is, with the same tree: what is a
    statement with plain names is no `match` and no type alias.

    * `SoftKeyword.replace`, `Stmt.rename`: other names for the soft
      keywords, in tokens and in trees.
    * `TracksTo`: what a parser reads of renamed tokens, it reads of the
      tokens, with one rule for each way to compose parsers.
    * `Module.ofTokens_of_replaced`: the tree of a token stream.
-/

namespace StyleCheck

open StyleCheck.Parser

/-! ## Section 1: Soft keywords replaced -/

namespace SoftKeyword

/-- Every soft keyword. -/
def all : List Text := [match_, case_, type_]

/-- A word, or `z` in place of a soft keyword. -/
def replace (z x : Text) : Text := if x ∈ all then z else x

end SoftKeyword

/-- The lexeme of a name, or of the word `z` in place of a soft keyword. -/
def Lexeme.replaceSoft (z : Text) : Lexeme → Lexeme
  | name x => if x ∈ SoftKeyword.all then ofWord z else name x
  | l => l

/-- A token with another word in place of a soft keyword. -/
def Token.replaceSoft (z : Text) (t : Token) : Token := { t with lexeme := t.lexeme.replaceSoft z }

mutual

/-- A statement with all its names replaced, and those below it. -/
def Stmt.rename (f : Text → Text) : Stmt → Stmt
  | .functionDef line isAsync name params body =>
    .functionDef line isAsync (f name) (params.rename f) (Stmt.renameAll f body)
  | .classDef line name body => .classDef line (f name) (Stmt.renameAll f body)
  | .assign line targets value => .assign line (targets.map (Expr.rename f)) (value.rename f)
  | .simple line kind => .simple line kind
  | .block line kind children => .block line kind (Stmt.renameAll f children)

/-- Statements with all their names replaced. -/
def Stmt.renameAll (f : Text → Text) : List Stmt → List Stmt
  | [] => []
  | stmt :: stmts => stmt.rename f :: Stmt.renameAll f stmts

end

variable {f : Text → Text} {ts us mid rest : List Token}

@[simp] theorem Stmt.renameAll_eq_map (stmts : List Stmt) :
    Stmt.renameAll f stmts = stmts.map (Stmt.rename f) := by
  induction stmts with
  | nil => rfl
  | cons stmt stmts ih => rw [Stmt.renameAll, ih, List.map_cons]

@[simp] theorem Stmt.rename_block (line : Nat) (kind : BlockKind) (children : List Stmt) :
    (Stmt.block line kind children).rename f = .block line kind (children.map (Stmt.rename f)) := by
  rw [Stmt.rename, Stmt.renameAll_eq_map]

namespace SoftKeyword

/-- No soft keyword is left. -/
theorem replace_notMem {z : Text} (hz : z ∉ all) (x : Text) : replace z x ∉ all := by
  unfold replace
  split
  case isTrue => exact hz
  case isFalse h => exact h

end SoftKeyword

/-- Soft keywords are replaced by a name, unless by a reserved word. -/
theorem map_replaceSoft {z : Text} (hz : Keyword.ofText? z = none) (tokens : List Token) :
    tokens.map (Token.replaceSoft z) = renamed (SoftKeyword.replace z) tokens := by
  have hlexeme : ∀ l : Lexeme, l.replaceSoft z = l.rename (SoftKeyword.replace z) := by
    intro l
    cases l with
    | name x =>
      have hofWord : Lexeme.ofWord z = .name z := by rw [Lexeme.ofWord, hz]
      show (if x ∈ SoftKeyword.all then .ofWord z else .name x) =
        Lexeme.name (if x ∈ SoftKeyword.all then z else x)
      rw [hofWord]
      split <;> rfl
    | _ => rfl
  refine List.map_congr_left fun t _ => ?_
  rw [Token.replaceSoft, Token.rename, hlexeme]

/-- Tokens in which no name is a soft keyword. -/
def Unsoft (ts : List Token) : Prop :=
  ∀ t ∈ ts, ∀ x, t.lexeme = .name x → x ∉ SoftKeyword.all

theorem Unsoft.suffix (h : Unsoft ts) (hrest : rest <:+ ts) : Unsoft rest :=
  fun t hmem => h t (hrest.subset hmem)

theorem unsoft_renamed (hf : ∀ x, f x ∉ SoftKeyword.all) (ts : List Token) :
    Unsoft (renamed f ts) := by
  intro t hmem x hname
  obtain ⟨⟨lexeme, p⟩, _, rfl⟩ := List.mem_map.mp hmem
  cases lexeme with
  | name y =>
    obtain rfl : f y = x := Lexeme.name.inj hname
    exact hf y
  | _ => cases hname

namespace Grammar

/-! ## Section 2: Small statements -/

theorem skipSquare_commutes (depth : Nat) :
    Commutes f id (skipSquare depth) (skipSquare depth) := by
  intro ts
  induction ts generalizing depth with
  | nil => rfl
  | cons t ts ih =>
    obtain ⟨lexeme, p⟩ := t
    show skipSquare depth (⟨lexeme.rename f, p⟩ :: renamed f ts) = _
    unfold skipSquare
    cases lexeme with
    | endMarker => rfl
    | symbol =>
      dsimp only [Lexeme.rename]
      split
      case h_1 h => cases h
      case h_2 => exact ih _
      case h_3 =>
        cases depth with
        | zero => rfl
        | succ depth => exact ih depth
      case h_4 => exact ih _
    | _ => exact ih depth

theorem typeParameters_commutes : Commutes f id typeParameters typeParameters := by
  unfold typeParameters
  exact .seq (.accept _) fun _ => .ite rfl (skipSquare_commutes 0) (.pure rfl)

theorem names_commutes (separator : Symbol) :
    Commutes f id (names separator) (names separator) := by
  unfold names nextName
  exact .repeatWhile (.bind .name fun _ => .accept _)

theorem asName_commutes : Commutes f id asName asName := by
  unfold asName
  exact .seq (.acceptKeyword _) fun _ => .ite rfl (.bind .name fun _ => .pure rfl) (.pure rfl)

theorem imports_commutes : Commutes f id imports imports := by
  unfold imports nextImport
  exact .repeatWhile (.seq (names_commutes _) fun _ => .seq asName_commutes fun _ => .accept _)

theorem importedNames_commutes (parenthesized : Bool) :
    Commutes f id (importedNames parenthesized) (importedNames parenthesized) := by
  unfold importedNames nextImportedName
  refine .repeatWhile (.seq (.atSymbol _) fun _ => .ite rfl (.pure rfl) ?_)
  exact .bind .name fun _ => .seq asName_commutes fun _ => .accept _

theorem isDots_rename (l : Lexeme) : isDots (l.rename f) = isDots l := by
  unfold isDots
  rw [Lexeme.beq_symbol_rename, Lexeme.beq_symbol_rename]

theorem importsFrom_commutes : Commutes f id importsFrom importsFrom := by
  have hnames : Commutes f id
      (do
        expectKeyword .import_ .invalidSyntax
        unless ← accept .star do
          let parenthesized ← accept (.opening .round)
          importedNames parenthesized
          if parenthesized then expect (.closing .round))
      (do
        expectKeyword .import_ .invalidSyntax
        unless ← accept .star do
          let parenthesized ← accept (.opening .round)
          importedNames parenthesized
          if parenthesized then expect (.closing .round)) := by
    refine .seq (.expectKeyword _ _) fun _ => .seq (.accept _) fun _ => .ite rfl (.pure rfl) ?_
    exact .seq (.accept _) fun _ => .seq (importedNames_commutes _) fun _ =>
      .ite rfl (.expect _) (.pure rfl)
  unfold importsFrom
  refine .bind .peek fun l => .seq (.repeatWhile (.acceptIf isDots_rename)) fun _ =>
    .seq (.atKeyword _) fun _ => .ite rfl (.ite (isDots_rename l) hnames ?_) ?_
  · exact .seq (.fail _) fun _ => hnames
  · exact .seq (names_commutes _) fun _ => hnames

theorem assigned_commutes : Commutes f (Expr.rename f) assigned assigned := by
  unfold assigned
  exact .seq (.atKeyword _) fun _ =>
    .ite rfl (yieldExpression_commutes grammar_commutes) (starExpressions_commutes grammar_commutes)

theorem unassignable?_rename (form : Form) :
    unassignable? (form.rename f) = unassignable? form := by
  cases form <;> rfl

theorem isSingleTarget_rename (form : Form) :
    isSingleTarget (form.rename f) = isSingleTarget form := by
  cases form <;> rfl

theorem checkTargets_commutes (targets : List Expr) :
    Commutes f id (checkTargets targets) (checkTargets (targets.map (Expr.rename f))) := by
  induction targets with
  | nil => exact .pure rfl
  | cons target targets ih =>
    rw [List.map_cons, checkTargets, checkTargets, Expr.rename, unassignable?_rename]
    split
    · exact .failAt _ _
    · exact ih

theorem assignment_commutes (line : Nat) (first : Expr) :
    Commutes f (Stmt.rename f) (assignment line first) (assignment line (first.rename f)) := by
  unfold assignment nextValue
  refine .bind (.loop (s := Prod.map (List.map (Expr.rename f)) (Expr.rename f))
    (r := Prod.map (List.map (Expr.rename f)) (Expr.rename f)) (fun read => ?_) rfl) fun read => ?_
  · refine .seq (.accept _) fun _ => .ite rfl ?_ (.pure rfl)
    exact .bind assigned_commutes fun _ => .pure (by simp [Next.map])
  · exact .seq (checkTargets_commutes read.1) fun _ => .pure (by simp [Stmt.rename])

theorem expressionStatement_commutes :
    Commutes f (Stmt.rename f) expressionStatement expressionStatement := by
  unfold expressionStatement
  refine .seq .line fun line => .bind assigned_commutes fun first => .bind .peek fun l => ?_
  cases l with
  | symbol symbol =>
    dsimp only [Lexeme.rename]
    split
    case h_1 => exact assignment_commutes line first
    case h_2 =>
      refine .ite (isSingleTarget_rename _) (.seq .advance fun _ => ?_) (.failAt _ _)
      refine .bind grammar_commutes.expression fun _ => .seq (.accept _) fun _ => .ite rfl ?_ ?_
      · exact .bind assigned_commutes fun _ => .pure (by simp [Stmt.rename])
      · exact .pure (by simp [Stmt.rename])
    case h_3 =>
      refine .ite rfl (.ite (isSingleTarget_rename _) (.seq .advance fun _ => ?_) (.failAt _ _)) ?_
      · exact .bind assigned_commutes fun _ => .pure (by simp [Stmt.rename])
      · exact .pure (by simp [Stmt.rename])
    case h_4 => exact .pure (by simp [Stmt.rename])
  | _ => exact .pure (by simp [Stmt.rename])

theorem optionalExpressions_commutes : Commutes f id optionalExpressions optionalExpressions := by
  unfold optionalExpressions
  exact .bind .peek fun l => .ite l.startsExpression_rename
    (.bind (starExpressions_commutes grammar_commutes) fun _ => .pure rfl) (.pure rfl)

theorem afterKeyword?_commutes {word : Keyword} {parser : Parser SimpleKind}
    (h : afterKeyword? word = some parser) : Commutes f id parser parser := by
  have hexpression := @Nonterminals.Commute.expression f grammar grammar_commutes
  unfold afterKeyword? at h
  split at h
  case h_12 => cases h
  all_goals cases h
  case h_1 | h_2 | h_3 => exact .pure rfl
  case h_4 => exact .seq optionalExpressions_commutes fun _ => .pure rfl
  case h_5 =>
    refine .bind .peek fun l => .ite l.startsExpression_rename (.bind hexpression fun _ => ?_)
      (.pure rfl)
    exact .seq (.acceptKeyword _) fun _ =>
      .ite rfl (.bind hexpression fun _ => .pure rfl) (.pure rfl)
  case h_6 | h_7 => exact .seq (names_commutes _) fun _ => .pure rfl
  case h_8 => exact .bind (starExpressions_commutes grammar_commutes) fun _ => .pure rfl
  case h_9 =>
    refine .bind hexpression fun _ => .seq (.accept _) fun _ => ?_
    exact .ite rfl (.bind hexpression fun _ => .pure rfl) (.pure rfl)
  case h_10 => exact .seq imports_commutes fun _ => .pure rfl
  case h_11 => exact .seq importsFrom_commutes fun _ => .pure rfl

end Grammar

namespace Parser

/-! ## Section 3: Parsers that track -/

variable {α β γ δ σ τ : Type} {p q : Parser α} {p' q' : Parser β} {r : α → β}
  {good : β → List Token → Prop}

/-- What `p'` reads of renamed tokens and is good, `p` reads of the
    tokens themselves. -/
def TracksTo (good : β → List Token → Prop) (f : Text → Text) (r : α → β) (p : Parser α)
    (p' : Parser β) : Prop :=
  ∀ ts, Ensures p' (renamed f ts) fun b rest' => good b rest' →
    ∃ a rest, p ts = .ok (a, rest) ∧ r a = b ∧ renamed f rest = rest'

/-- Whatever `p'` reads of renamed tokens, `p` reads of the tokens
    themselves. -/
abbrev Tracks (f : Text → Text) (r : α → β) (p : Parser α) (p' : Parser β) : Prop :=
  TracksTo (fun _ _ => True) f r p p'

/-- What a loop is done with is good. -/
def Next.Good (good : β → List Token → Prop) : Next τ β → List Token → Prop
  | .again _, _ => True
  | .done result, rest => good result rest

namespace TracksTo

theorem of_commutes (h : Commutes f r p p') : TracksTo good f r p p' := by
  intro ts b rest' hread _
  rw [h ts] at hread
  exact Result.rename_eq_ok hread

theorem pure {a : α} {b : β} (h : r a = b) : TracksTo good f r (pure a) (pure b) :=
  of_commutes (.pure h)

/-- What is rejected has not to be tracked. -/
theorem fail (fault : Fault) : TracksTo good f r p (Parser.fail fault) :=
  fun _ => (ensures_fail fault).mpr trivial

theorem spent : TracksTo good f r p Parser.spent := fun _ => ensures_spent.mpr trivial

theorem ite {c c' : Bool} (hc : c' = c) (hp : TracksTo good f r p p')
    (hq : TracksTo good f r q q') :
    TracksTo good f r (if c then p else q) (if c' then p' else q') := by
  subst hc
  cases c'
  · exact hq
  · exact hp

/-- The first part has read something good where the whole has. -/
theorem bind_good {first : δ → List Token → Prop} {o : Parser γ} {o' : Parser δ} {s : γ → δ}
    {g : γ → Parser α} {g' : δ → Parser β} (ho : TracksTo first f s o o')
    (hfirst : ∀ d mid, Ensures (g' d) mid fun b rest => good b rest → first d mid)
    (hg : ∀ c, TracksTo good f r (g c) (g' (s c))) :
    TracksTo good f r (o >>= g) (o' >>= g') := by
  intro ts
  rw [ensures_bind]
  intro d mid' ho' b rest' hg' hgood
  obtain ⟨c, mid, hread, rfl, rfl⟩ := ho ts d mid' ho' (hfirst d mid' b rest' hg' hgood)
  obtain ⟨a, rest, hbehind, ha, hrest⟩ := hg c mid b rest' hg' hgood
  exact ⟨a, rest, by rw [bind_apply, hread]; exact hbehind, ha, hrest⟩

theorem bind {o : Parser γ} {o' : Parser δ} {s : γ → δ} {g : γ → Parser α} {g' : δ → Parser β}
    (ho : Tracks f s o o') (hg : ∀ c, TracksTo good f r (g c) (g' (s c))) :
    TracksTo good f r (o >>= g) (o' >>= g') :=
  bind_good ho (fun _ _ _ _ _ _ => trivial) hg

/-- What does not look at names at all. -/
theorem behind {o : Parser γ} {o' : Parser δ} {s : γ → δ} {g : γ → Parser α} {g' : δ → Parser β}
    (ho : Commutes f s o o') (hg : ∀ c, TracksTo good f r (g c) (g' (s c))) :
    TracksTo good f r (o >>= g) (o' >>= g') := bind (of_commutes ho) hg

/-- The same where no name is in what has been read. -/
theorem across {o o' : Parser γ} {g : γ → Parser α} {g' : γ → Parser β}
    (ho : Commutes f id o o') (hg : ∀ c, TracksTo good f r (g c) (g' c)) :
    TracksTo good f r (o >>= g) (o' >>= g') := behind ho hg

/-- Each round tracks, and the last one to a good result. -/
theorem loop_good {body : σ → Parser (Next σ α)} {body' : τ → Parser (Next τ β)} {s : σ → τ}
    (h : ∀ state, TracksTo (Next.Good good) f (Next.map s r) (body state) (body' (s state)))
    {state : σ} {state' : τ} (hstate : s state = state') :
    TracksTo good f r (loop body state) (loop body' state') := by
  have hfor : ∀ (fuel : List Token) (state : σ),
      TracksTo good f r (loopFor body fuel state) (loopFor body' (renamed f fuel) (s state)) := by
    intro fuel
    induction fuel with
    | nil => exact fun _ => .spent
    | cons _ fuel ih =>
      intro state
      refine bind_good (h state) (fun next mid => ?_) fun next => ?_
      · cases next with
        | again => exact fun _ _ _ _ => trivial
        | done result => exact (ensures_pure result).mpr id
      · cases next with
        | again next => exact ih next
        | done result => exact .pure rfl
  subst hstate
  intro ts
  have hloop : Parser.loop body' (s state) (renamed f ts) =
      loopFor body' (renamed f (front ts :: ts)) (s state) (renamed f ts) := by
    unfold Parser.loop
    rw [front_renamed]
    rfl
  exact (hfor _ state ts).congr hloop

theorem loop {body : σ → Parser (Next σ α)} {body' : τ → Parser (Next τ β)} {s : σ → τ}
    (h : ∀ state, Tracks f (Next.map s r) (body state) (body' (s state))) {state : σ} {state' : τ}
    (hstate : s state = state') : Tracks f r (loop body state) (loop body' state') :=
  loop_good (fun state ts => (h state ts).mono fun _ _ hread _ => hread trivial) hstate

end TracksTo

end Parser

/-- The parsers that the grammar of statements refers back to track
    themselves. -/
structure StatementParsers.Track (f : Text → Text) (p : StatementParsers) : Prop where
  statement : Tracks f (List.map (Stmt.rename f)) p.statement p.statement
  conditional : Tracks f (Stmt.rename f) p.conditional p.conditional

namespace Grammar

/-! ## Section 4: Lines -/

/-- A small statement that is no type alias. -/
def plainStatement : Parser Stmt := do
  let line ← line
  match keywordStatement? (← peek) with
  | some rest =>
    advance
    let kind ← rest
    pure (.simple line kind)
  | none => expressionStatement

theorem smallStatement_eq (h : atTypeAlias ts = .ok (false, ts)) :
    smallStatement ts = plainStatement ts := by
  unfold smallStatement plainStatement
  rw [bind_apply, line_apply, bind_apply, line_apply, Result.andThen_ok, Result.andThen_ok,
    bind_apply, h]
  rfl

theorem keywordStatement?_rename (l : Lexeme) :
    keywordStatement? (l.rename f) = keywordStatement? l := by
  cases l <;> rfl

theorem plainStatement_commutes : Commutes f (Stmt.rename f) plainStatement plainStatement := by
  unfold plainStatement
  refine .seq .line fun line => .bind .peek fun l => ?_
  rw [keywordStatement?_rename]
  split
  case h_1 parser hparser =>
    have hrest : Commutes f id parser parser := by
      unfold keywordStatement? at hparser
      split at hparser
      case h_1 => exact afterKeyword?_commutes hparser
      case h_2 => cases hparser
    exact .seq .advance fun _ => .seq hrest fun _ => .pure (by simp [Stmt.rename])
  case h_2 => exact expressionStatement_commutes

/-- Two names are an expression and what is left behind it. -/
theorem plainStatement_names (x y : Text) (p q : Position) (ts : List Token) :
    plainStatement (⟨.name x, p⟩ :: ⟨.name y, q⟩ :: ts) =
      .ok (.simple p.line .expression, ⟨.name y, q⟩ :: ts) := rfl

/-- Without soft keywords, there are no type aliases. -/
theorem atTypeAlias_unsoft (h : Unsoft ts) : atTypeAlias ts = .ok (false, ts) := by
  obtain ⟨found, hfound⟩ := atTypeAlias_eq_ok ts
  cases found with
  | false => exact hfound
  | true =>
    obtain ⟨p, name, q, us, rfl⟩ := names_of_atTypeAlias hfound
    exact absurd (by decide) (h _ List.mem_cons_self SoftKeyword.type_ rfl)

/-- What may stand behind a small statement. -/
def endsSmall : Lexeme → Bool
  | .newline | .symbol .semicolon => true
  | _ => false

variable (hf : ∀ x, f x ∉ SoftKeyword.all)

include hf

/-- A type alias is two names for an expression, and then no end is where
    the statement must end. -/
theorem smallStatement_tracks :
    TracksTo (fun _ rest => endsSmall (front rest).lexeme = true) f (Stmt.rename f)
      smallStatement smallStatement := by
  intro ts stmt rest' hread hends
  rw [smallStatement_eq (atTypeAlias_unsoft (unsoft_renamed hf ts))] at hread
  obtain ⟨found, hfound⟩ := atTypeAlias_eq_ok ts
  cases found with
  | false =>
    have hplain : Tracks f (Stmt.rename f) plainStatement plainStatement :=
      .of_commutes plainStatement_commutes
    rw [smallStatement_eq hfound]
    exact hplain ts stmt rest' hread trivial
  | true =>
    obtain ⟨p, name, q, us, rfl⟩ := names_of_atTypeAlias hfound
    have hnames := plainStatement_names (f SoftKeyword.type_) (f name) p q (renamed f us)
    obtain ⟨rfl, rfl⟩ := Prod.mk.inj (Result.ok_inj.mp (hread.symm.trans hnames))
    cases hends

theorem nextSmall_tracks (read : List Stmt) :
    TracksTo (Next.Good fun _ rest => (front rest).lexeme = .newline) f
      (Next.map (List.map (Stmt.rename f)) (List.map (Stmt.rename f)))
      (nextSmall read) (nextSmall (read.map (Stmt.rename f))) := by
  unfold nextSmall
  refine .bind_good (smallStatement_tracks hf) (fun stmt mid => ?_) fun stmt => ?_
  -- The loop goes on behind a semicolon only, and is good at a newline.
  · rw [ensures_bind, ensures_accept]
    refine ⟨fun hsemicolon _ _ _ _ => by rw [hsemicolon]; rfl, fun _ => ?_⟩
    rw [if_neg Bool.false_ne_true, ensures_pure]
    intro hnewline
    have hnewline : (front mid).lexeme = .newline := hnewline
    rw [hnewline]
    rfl
  · refine .across (.accept _) fun _ => .ite rfl (.behind .peek fun l => ?_) (.pure rfl)
    exact .ite (Lexeme.beq_rename (fun _ h => by cases h) l) (.pure rfl) (.pure rfl)

theorem simpleStatements_tracks :
    Tracks f (List.map (Stmt.rename f)) simpleStatements simpleStatements := by
  have hloop : TracksTo (fun _ rest => (front rest).lexeme = .newline) f
      (List.map (Stmt.rename f)) (loop nextSmall []) (loop nextSmall []) :=
    .loop_good (nextSmall_tracks hf) rfl
  unfold simpleStatements
  refine .bind_good hloop (fun read mid => ?_) fun read => ?_
  · rw [ensures_bind, ensures_expectNewline]
    exact fun hnewline => (ensures_pure _).mpr fun _ => hnewline
  · exact .across (.expectNewline _) fun _ => .pure List.map_reverse

omit hf in
theorem nextSmall_spans (read : List Stmt) (h : Unsoft ts) :
    Ensures (nextSmall read) ts fun _ mid => Spans ts mid := by
  have hbehind : ∀ read : List Stmt, Spanning (do
      if ← accept .semicolon then
        if (← peek) == .newline then pure (Next.done (σ := List Stmt) read) else pure (.again read)
      else pure (.done read)) := fun _ =>
    .bind (.accept fun _ => rfl) fun _ =>
      .ite (.bind .peek fun _ => .ite (.pure _) (.pure _)) (.pure _)
  unfold nextSmall
  rw [ensures_bind]
  refine (smallStatement_spans (atTypeAlias_unsoft h)).mono fun stmt mid hmid => ?_
  exact (hbehind _ mid).mono fun _ _ hrest => hmid.trans hrest

omit hf in
/-- Without soft keywords, a line is what expressions may read. -/
theorem simpleStatements_spans (h : Unsoft ts) : Ensures simpleStatements ts fun _ _ =>
    ∃ mid, Spans ts mid ∧ (front mid).lexeme = .newline := by
  have hloop : Ensures (loop nextSmall []) ts fun _ mid => Unsoft ts → Spans ts mid := by
    refine Ensures.loop_tokens (fun ts mid => Unsoft ts → Spans ts mid)
      (fun read ts next mid hread => ?_) [] ts
    cases next with
    | done => exact fun h => nextSmall_spans read h _ _ hread
    | again =>
      intro rest hbehind h
      have hround : Spans ts mid := nextSmall_spans read h _ _ hread
      exact hround.trans (hbehind (h.suffix hround.suffix))
  unfold simpleStatements
  rw [ensures_bind]
  refine hloop.mono fun _ mid hspans => ?_
  rw [ensures_bind, ensures_expectNewline]
  exact fun hnewline => (ensures_pure _).mpr ⟨mid, hspans h, hnewline⟩

omit hf in
/-- On a line, the last token counts. -/
theorem opensBlock_cons {t : Token} {before : Lexeme} (hline : t.lexeme ≠ .newline)
    (hend : t.lexeme ≠ .endMarker) : opensBlock before (t :: ts) = opensBlock t.lexeme ts := by
  rw [opensBlock]
  split
  case h_1 h => exact absurd h hline
  case h_2 h => exact absurd h hend
  case h_3 => rfl

omit hf in
/-- Where a line has been read as an expression, no block is opened. -/
theorem opensBlock_of_spans (h : Spans ts rest) (before : Lexeme) :
    ∃ last, opensBlock before ts = opensBlock last rest ∧
      (ts = rest ∧ last = before ∨ ((front rest).lexeme = .newline → last ≠ .symbol .colon)) := by
  induction h generalizing before with
  | nothing ts => exact ⟨before, rfl, .inl ⟨rfl, rfl⟩⟩
  | @token t ts rest hfits _ ih =>
    obtain ⟨last, hopens, hlast⟩ := ih t.lexeme
    refine ⟨last, ?_, .inr fun hnewline => ?_⟩
    -- Nothing fits behind a newline or the end marker, and no newline
    -- fits behind a colon.
    · rw [← hopens]
      refine opensBlock_cons (fun hlexeme => ?_) (fun hlexeme => ?_)
      all_goals
        rw [hlexeme] at hfits
        cases hfits
    · rcases hlast with ⟨rfl, rfl⟩ | hlast
      · intro hcolon
        rw [hnewline, hcolon] at hfits
        cases hfits
      · exact hlast hnewline
  | @group bracket p q ts mid rest _ _ ihinner ih =>
    obtain ⟨inner, hinner, _⟩ := ihinner (.symbol (.opening bracket))
    obtain ⟨last, hopens, hlast⟩ := ih (.symbol (.closing bracket))
    refine ⟨last, hinner.trans hopens, .inr fun hnewline => ?_⟩
    rcases hlast with ⟨rfl, rfl⟩ | hlast
    · exact fun h => by cases h
    · exact hlast hnewline

omit hf in
theorem opensBlock_rename (before : Lexeme) (ts : List Token) :
    opensBlock (before.rename f) (renamed f ts) = opensBlock before ts := by
  induction ts generalizing before with
  | nil => rfl
  | cons t ts ih =>
    obtain ⟨lexeme, p⟩ := t
    show opensBlock (before.rename f) (⟨lexeme.rename f, p⟩ :: renamed f ts) = _
    cases lexeme with
    | endMarker => rfl
    | newline =>
      show (before.rename f == .symbol .colon && (front (renamed f ts)).lexeme == .indent) = _
      rw [Lexeme.beq_symbol_rename, front_renamed, Token.rename,
        Lexeme.beq_rename fun _ h => by cases h]
      rfl
    | _ =>
      rw [opensBlock_cons (by simp [Lexeme.rename]) (by simp [Lexeme.rename]),
        opensBlock_cons (by simp) (by simp)]
      dsimp only
      exact ih _

omit hf in
theorem endsBlock_rename (l : Lexeme) : endsBlock (l.rename f) = endsBlock l := by
  cases l <;> rfl

omit hf in
theorem statementsUntil_tracks {statement : Parser (List Stmt)} {ends : Lexeme → Bool}
    (hstatement : Tracks f (List.map (Stmt.rename f)) statement statement)
    (hends : ∀ l, ends (l.rename f) = ends l) :
    Tracks f (List.map (Stmt.rename f)) (statementsUntil ends statement)
      (statementsUntil ends statement) := by
  unfold statementsUntil nextStatement
  refine .loop (s := List.map (Stmt.rename f)) (fun read => ?_) rfl
  refine .behind .peek fun l => .ite (hends l) (.pure ?_) (.bind hstatement fun stmts => .pure ?_)
  all_goals simp [Next.map]

variable {p : StatementParsers} (hp : p.Track f)

include hp

theorem suite_tracks : Tracks f (List.map (Stmt.rename f)) (suite p) (suite p) := by
  have hlayout : ∀ {l : Lexeme}, (∀ x, l ≠ .name x) →
      Commutes f id (acceptIf (· == l)) (acceptIf (· == l)) :=
    fun hl => .acceptIf (Lexeme.beq_rename hl)
  have hstatements := statementsUntil_tracks hp.statement endsBlock_rename
  unfold suite
  refine .across (hlayout fun _ h => by cases h) fun _ => .ite rfl ?_ (simpleStatements_tracks hf)
  refine .across (hlayout fun _ h => by cases h) fun _ => .ite rfl ?_ (.fail _)
  exact .bind hstatements fun _ => .across (hlayout fun _ h => by cases h) fun _ => .pure rfl

theorem body_tracks : Tracks f (List.map (Stmt.rename f)) (body p) (body p) := by
  unfold body
  exact .across (.expect _) fun _ => suite_tracks hf hp

theorem optionalBody_tracks (keyword : Keyword) :
    Tracks f (Option.map (List.map (Stmt.rename f))) (optionalBody p keyword)
      (optionalBody p keyword) := by
  unfold optionalBody
  exact .across (.acceptKeyword _) fun _ =>
    .ite rfl (.bind (body_tracks hf hp) fun _ => .pure rfl) (.pure rfl)

/-! ## Section 5: Compound statements -/

omit hf hp in
/-- A block that may be left out. -/
theorem getD_rename (stmts : Option (List Stmt)) :
    (stmts.map (List.map (Stmt.rename f))).getD [] = (stmts.getD []).map (Stmt.rename f) := by
  cases stmts <;> rfl

theorem alternative_tracks :
    Tracks f (List.map (Stmt.rename f)) (alternative p) (alternative p) := by
  unfold alternative
  refine .across (.atKeyword _) fun _ => .ite rfl (.bind hp.conditional fun _ => .pure rfl) ?_
  exact .bind (optionalBody_tracks hf hp .else_) fun stmts => .pure (getD_rename stmts).symm

/-- A body and what hangs on it. -/
theorem block_tracks {α : Type} {line : Nat} {block : BlockKind} {hanging : Parser α} {r : α → α}
    {below : α → List Stmt} (hhanging : Tracks f r hanging hanging)
    (hbelow : ∀ a, below (r a) = (below a).map (Stmt.rename f)) :
    Tracks f (Stmt.rename f)
      (do
        let first ← body p
        let last ← hanging
        pure (Stmt.block line block (first ++ below last)))
      (do
        let first ← body p
        let last ← hanging
        pure (Stmt.block line block (first ++ below last))) := by
  refine .bind (body_tracks hf hp) fun first => .bind hhanging fun last => .pure ?_
  rw [Stmt.rename_block, List.map_append, hbelow]

theorem conditional_tracks : Tracks f (Stmt.rename f) (conditional p) (conditional p) := by
  unfold conditional
  refine .across .line fun line => .across .advance fun _ =>
    .behind (namedExpression_commutes grammar_commutes) fun _ => ?_
  exact block_tracks hf hp (alternative_tracks hf hp) fun _ => rfl

theorem whileLoop_tracks : Tracks f (Stmt.rename f) (whileLoop p) (whileLoop p) := by
  unfold whileLoop
  refine .across .line fun line => .across .advance fun _ =>
    .behind (namedExpression_commutes grammar_commutes) fun _ => ?_
  exact block_tracks hf hp (optionalBody_tracks hf hp .else_) getD_rename

theorem forLoop_tracks (line : Nat) (isAsync : Bool) :
    Tracks f (Stmt.rename f) (forLoop p line isAsync) (forLoop p line isAsync) := by
  unfold forLoop
  refine .across .advance fun _ => .behind (targets_commutes grammar_commutes) fun _ =>
    .across (.expectKeyword _ _) fun _ =>
    .behind (starExpressions_commutes grammar_commutes) fun _ => ?_
  exact block_tracks hf hp (optionalBody_tracks hf hp .else_) getD_rename

theorem handler_tracks : Tracks f (Prod.map (Stmt.rename f) id) (handler p) (handler p) := by
  have hhandled : ∀ (line : Nat) (star : Bool), Tracks f (Prod.map (Stmt.rename f) id)
      (do
        let handled ← body p
        pure (Stmt.block line .handler handled, star))
      (do
        let handled ← body p
        pure (Stmt.block line .handler handled, star)) :=
    fun _ _ => .bind (body_tracks hf hp) fun _ => .pure (by simp)
  unfold handler
  refine .across .line fun line => .across .advance fun _ => .across (.accept _) fun star =>
    .across (.atSymbol _) fun _ => .ite rfl (hhandled line star) ?_
  exact .behind grammar_commutes.expression fun _ => .across asName_commutes fun _ =>
    hhandled line star

theorem handlers_track :
    Tracks f (Prod.map (List.map (Stmt.rename f)) id) (loop (nextHandler p) ([], false))
      (loop (nextHandler p) ([], false)) := by
  unfold nextHandler
  refine .loop (fun read => .across (.atKeyword _) fun _ => .ite rfl ?_ (.pure rfl)) rfl
  exact .bind (handler_tracks hf hp) fun next => .pure (by simp [Next.map])

theorem tryBlock_tracks : Tracks f (Stmt.rename f) (tryBlock p) (tryBlock p) := by
  unfold tryBlock
  refine .across .line fun line => .across .advance fun _ => .bind (body_tracks hf hp) fun first =>
    .bind (handlers_track hf hp) fun (handlers, star) => ?_
  -- The alternative is optional like the final block, or left out.
  have hfinal : ∀ q : Parser (Option (List Stmt)),
      Tracks f (Option.map (List.map (Stmt.rename f))) q q → Tracks f (Stmt.rename f)
        (do
          let alternative ← q
          let final ← optionalBody p .finally_
          if handlers.isEmpty && final.isNone then fail .missingHandler
          else pure (Stmt.block line (.tryBlock star)
            (first ++ handlers ++ alternative.getD [] ++ final.getD [])))
        (do
          let alternative ← q
          let final ← optionalBody p .finally_
          if (handlers.map (Stmt.rename f)).isEmpty && final.isNone then fail .missingHandler
          else pure (Stmt.block line (.tryBlock star) (first.map (Stmt.rename f) ++
            handlers.map (Stmt.rename f) ++ alternative.getD [] ++ final.getD []))) := by
    refine fun q hq => .bind hq fun alternative =>
      .bind (optionalBody_tracks hf hp .finally_) fun final => .ite (by simp) (.fail _) (.pure ?_)
    simp [getD_rename]
  exact .ite List.isEmpty_map (hfinal _ (.pure rfl)) (hfinal _ (optionalBody_tracks hf hp .else_))

omit hf hp in
theorem behindGroup_renamed (depth : Nat) (ts : List Token) :
    behindGroup depth (renamed f ts) = renamed f (behindGroup depth ts) := by
  induction ts generalizing depth with
  | nil => rfl
  | cons t ts ih =>
    obtain ⟨lexeme, p⟩ := t
    show behindGroup depth (⟨lexeme.rename f, p⟩ :: renamed f ts) = _
    cases lexeme with
    | symbol =>
      unfold behindGroup
      dsimp only [Lexeme.rename]
      split
      case h_1 | h_3 => exact ih _
      case h_2 =>
        split
        case isTrue => rfl
        case isFalse => exact ih _
    | _ => exact ih depth

omit hf hp in
theorem withItem_commutes : Commutes f id withItem withItem := by
  unfold withItem
  refine .bind grammar_commutes.expression fun _ => .seq (.acceptKeyword _) fun _ => ?_
  exact .ite rfl (.bind grammar_commutes.operand fun _ => .pure rfl) (.pure rfl)

omit hf hp in
theorem withItems_commutes : Commutes f id withItems withItems := by
  unfold withItems nextGroupedItem nextWithItem
  refine .bind .remaining fun ts => .seq (.atSymbol _) fun opened => .ite ?_ ?_ ?_
  · rw [behindGroup_renamed, front_renamed, Token.rename, Lexeme.beq_symbol_rename]
  · refine .seq .advance fun _ => .seq (.repeatWhile ?_) fun _ => .expect _
    exact .seq (.atSymbol _) fun _ =>
      .ite rfl (.pure rfl) (.seq withItem_commutes fun _ => .accept _)
  · exact .repeatWhile (.seq withItem_commutes fun _ => .accept _)

theorem withBlock_tracks (line : Nat) (isAsync : Bool) :
    Tracks f (Stmt.rename f) (withBlock p line isAsync) (withBlock p line isAsync) := by
  unfold withBlock
  exact .across .advance fun _ => .across withItems_commutes fun _ =>
    .bind (body_tracks hf hp) fun _ => .pure (by simp)

theorem functionDef_tracks (line : Nat) (isAsync : Bool) :
    Tracks f (Stmt.rename f) (functionDef p line isAsync) (functionDef p line isAsync) := by
  have hbody : ∀ (name : Text) (params : Parameters), Tracks f (Stmt.rename f)
      (do
        let inner ← body p
        pure (Stmt.functionDef line isAsync name params inner))
      (do
        let inner ← body p
        pure (Stmt.functionDef line isAsync (f name) (params.rename f) inner)) :=
    fun _ _ => .bind (body_tracks hf hp) fun _ => .pure (by simp [Stmt.rename])
  unfold functionDef
  refine .across .advance fun _ => .behind .name fun name =>
    .across typeParameters_commutes fun _ =>
    .across (.expect _) fun _ => .behind (parameters_commutes grammar_commutes _ _) fun params =>
    .across (.expect _) fun _ => .across (.accept _) fun _ => .ite rfl ?_ (hbody name params)
  exact .behind grammar_commutes.expression fun _ => hbody name params

theorem classDef_tracks (line : Nat) :
    Tracks f (Stmt.rename f) (classDef p line) (classDef p line) := by
  have hbody : ∀ name : Text, Tracks f (Stmt.rename f)
      (do
        let inner ← body p
        pure (Stmt.classDef line name inner))
      (do
        let inner ← body p
        pure (Stmt.classDef line (f name) inner)) :=
    fun _ => .bind (body_tracks hf hp) fun _ => .pure (by simp [Stmt.rename])
  unfold classDef
  refine .across .advance fun _ => .behind .name fun name =>
    .across typeParameters_commutes fun _ =>
    .across (.atSymbol _) fun _ => .ite rfl ?_ (hbody name)
  exact .across (arguments_commutes grammar_commutes) fun _ => hbody name

theorem decorated_tracks : Tracks f (Stmt.rename f) (decorated p) (decorated p) := by
  unfold decorated nextDecorator
  refine .across (.repeatWhile (.seq (.accept _) fun _ => .ite rfl ?_ (.pure rfl))) fun _ =>
    .across .line fun line => .behind .peekSecond fun second => .behind .peek fun l => ?_
  · exact .bind (namedExpression_commutes grammar_commutes) fun _ =>
      .seq (.expectNewline _) fun _ => .pure rfl
  cases l with
  | keyword word =>
    dsimp only [Lexeme.rename]
    split
    case h_1 => exact functionDef_tracks hf hp line false
    case h_2 => exact classDef_tracks hf hp line
    case h_3 =>
      refine .ite (Lexeme.beq_keyword_rename _ _) ?_ (.fail _)
      exact .across .advance fun _ => functionDef_tracks hf hp line true
    case h_4 => exact .fail _
  | _ => exact .fail _

theorem asyncStatement_tracks :
    Tracks f (Stmt.rename f) (asyncStatement p) (asyncStatement p) := by
  unfold asyncStatement
  refine .across .line fun line => .across .advance fun _ => .behind .peek fun l => ?_
  cases l with
  | keyword word =>
    dsimp only [Lexeme.rename]
    split
    case h_1 => exact functionDef_tracks hf hp line true
    case h_2 => exact forLoop_tracks hf hp line true
    case h_3 => exact withBlock_tracks hf hp line true
    case h_4 => exact .fail _
  | _ => exact .fail _

/-! ## Section 6: The knot -/

theorem compound?_tracks {l : Lexeme} {parser : Parser Stmt}
    (hparser : compound? p l = some parser) : Tracks f (Stmt.rename f) parser parser := by
  unfold compound? at hparser
  split at hparser
  case h_11 => cases hparser
  all_goals cases hparser
  case h_1 => exact conditional_tracks hf hp
  case h_2 => exact whileLoop_tracks hf hp
  case h_3 => exact .across .line fun line => forLoop_tracks hf hp line false
  case h_4 => exact tryBlock_tracks hf hp
  case h_5 => exact .across .line fun line => withBlock_tracks hf hp line false
  case h_6 => exact .across .line fun line => functionDef_tracks hf hp line false
  case h_7 => exact .across .line fun line => classDef_tracks hf hp line
  case h_8 => exact asyncStatement_tracks hf hp
  case h_9 => exact decorated_tracks hf hp
  case h_10 => exact .fail _

omit hf hp in
theorem compound?_rename (l : Lexeme) : compound? p (l.rename f) = compound? p l := by
  cases l <;> rfl

omit hf hp in
/-- What is not the start of a `match`. -/
theorem statement_eq (h : atMatch ts = .ok (false, ts)) : statement p ts = (do
    match compound? p (front ts).lexeme with
    | some parser =>
      let stmt ← parser
      pure [stmt]
    | none => simpleStatements) ts := by
  unfold statement
  rw [bind_apply, h]
  rfl

omit hf hp in
theorem atMatch_cases (ts : List Token) : atMatch ts = .ok (false, ts) ∨
    ∃ at_ us, ts = ⟨.name SoftKeyword.match_, at_⟩ :: us ∧
      opensBlock (.name SoftKeyword.match_) us = true := by
  obtain ⟨found, hlook, hfound⟩ := atMatch_eq_ok ts
  cases found with
  | false => exact .inl hlook
  | true => exact .inr (hfound rfl)

omit hf hp in
/-- Without soft keywords, there is no `match`. -/
theorem atMatch_unsoft (h : Unsoft ts) : atMatch ts = .ok (false, ts) := by
  rcases atMatch_cases ts with hmatch | ⟨at_, us, rfl, _⟩
  · exact hmatch
  · exact absurd (by decide) (h _ List.mem_cons_self SoftKeyword.match_ rfl)

omit hp in
/-- A `match` opens a block, and a line of simple statements does not. -/
theorem atMatch_of_line {stmts : List Stmt}
    (h : simpleStatements (renamed f ts) = .ok (stmts, rest)) : atMatch ts = .ok (false, ts) := by
  rcases atMatch_cases ts with hmatch | ⟨at_, us, rfl, hopens⟩
  · exact hmatch
  obtain ⟨mid, hspans, hnewline⟩ := simpleStatements_spans (unsoft_renamed hf _) _ _ h
  obtain ⟨last, hblock, hlast⟩ := opensBlock_of_spans hspans .newline
  have hlast : last ≠ .symbol .colon := by
    rcases hlast with ⟨rfl, _⟩ | hlast
    · cases hnewline
    · exact hlast hnewline
  have hclosed : opensBlock last mid = false := by
    obtain ⟨q, hmid⟩ := eq_cons_of_front hnewline (by simp)
    rw [hmid, opensBlock]
    simp [hlast]
  rw [← opensBlock_rename] at hopens
  exact absurd (hblock.symm.trans hopens) (by simp [hclosed])

theorem statement_tracks :
    Tracks f (List.map (Stmt.rename f)) (statement p) (statement p) := by
  intro ts stmts rest hread _
  rw [statement_eq (atMatch_unsoft (unsoft_renamed hf ts)), front_renamed, Token.rename,
    compound?_rename] at hread
  have hmatch : atMatch ts = .ok (false, ts) := by
    rcases atMatch_cases ts with hmatch | ⟨at_, us, rfl, _⟩
    · exact hmatch
    -- Renamed, the `match` in front is a name that starts a line.
    · exact atMatch_of_line hf hread
  have htracks : Tracks f (List.map (Stmt.rename f))
      (do
        match compound? p (front ts).lexeme with
        | some parser =>
          let stmt ← parser
          pure [stmt]
        | none => simpleStatements)
      (do
        match compound? p (front ts).lexeme with
        | some parser =>
          let stmt ← parser
          pure [stmt]
        | none => simpleStatements) := by
    split
    case h_1 parser hparser =>
      exact .bind (compound?_tracks hf hp hparser) fun _ => .pure rfl
    case h_2 => exact simpleStatements_tracks hf
  rw [statement_eq hmatch]
  exact htracks ts stmts rest hread trivial

omit hp in
theorem statementsUpTo_track (fuel : List Token) : (statementsUpTo fuel).Track f := by
  induction fuel with
  | nil => exact ⟨.spent, .spent⟩
  | cons _ fuel ih => exact ⟨statement_tracks hf ih, conditional_tracks hf ih⟩

omit hf hp in
/-- Of the fuel, only the length matters. -/
theorem statementsUpTo_renamed (fuel : List Token) :
    statementsUpTo (renamed f fuel) = statementsUpTo fuel := by
  induction fuel with
  | nil => rfl
  | cons token fuel ih =>
    show statementsUpTo (token.rename f :: renamed f fuel) = _
    unfold statementsUpTo at ih ⊢
    unfold statementsOver
    rw [ih]

end Grammar

theorem statementGrammar_tracks (hf : ∀ x, f x ∉ SoftKeyword.all) :
    Tracks f (List.map (Stmt.rename f)) statementGrammar.statement statementGrammar.statement := by
  intro ts
  refine (Grammar.statement_tracks hf (Grammar.statementsUpTo_track hf ts) ts).congr ?_
  show Grammar.statement (Grammar.statementsUpTo (renamed f ts)) (renamed f ts) = _
  rw [Grammar.statementsUpTo_renamed]

/-! ## Section 7: The tree of a token stream -/

namespace Module

theorem withEndMarker_renamed (tokens : List Token) :
    withEndMarker (renamed f tokens) = renamed f (withEndMarker tokens) := by
  unfold withEndMarker
  rw [renamed, List.getLast?_map]
  cases tokens.getLast? with
  | none => rfl
  | some last =>
    obtain ⟨lexeme, p⟩ := last
    cases lexeme with
    | endMarker => rfl
    | _ => simp [Lexeme.rename, Token.rename, renamed]

/-- Where renamed tokens have a tree, so have the tokens. -/
theorem ofTokens_of_renamed (hf : ∀ x, f x ∉ SoftKeyword.all) {tokens : List Token} {m' : Module}
    (h : ofTokens (renamed f tokens) = .ok m') :
    ∃ m, ofTokens tokens = .ok m ∧ m.map (Stmt.rename f) = m' := by
  obtain ⟨rest', hread⟩ := ofTokens_eq_ok h
  rw [withEndMarker_renamed] at hread
  have hparser : Tracks f (List.map (Stmt.rename f)) parser parser :=
    Grammar.statementsUntil_tracks (statementGrammar_tracks hf)
      (Lexeme.beq_rename fun _ h => by cases h)
  obtain ⟨m, rest, hm, rfl, _⟩ := hparser _ _ _ hread trivial
  exact ⟨m, by rw [ofTokens, hm]; rfl, rfl⟩

/-- **Soft keywords are names.**  Let another word stand for every soft
    keyword in a token stream, one that is neither reserved nor a soft
    keyword.  If the result has a tree, the token stream has one too, and
    that other word in place of the soft keywords in it makes the two
    trees the same, with all kinds, lines and columns. -/
theorem ofTokens_of_replaced {z : Text} (hword : Keyword.ofText? z = none)
    (hsoft : z ∉ SoftKeyword.all) {tokens : List Token} {m' : Module}
    (h : ofTokens (tokens.map (Token.replaceSoft z)) = .ok m') :
    ∃ m, ofTokens tokens = .ok m ∧ m.map (Stmt.rename (SoftKeyword.replace z)) = m' := by
  rw [map_replaceSoft hword] at h
  exact ofTokens_of_renamed (SoftKeyword.replace_notMem hsoft) h

/-- The three words as a target, a function, a parameter and a default. -/
theorem ofTokens_of_soft_names :
    ∃ tokens m, tokenize (ascii "match = f(case)\ndef type(case=match): pass\n") = .ok tokens ∧
      ofTokens tokens = .ok m ∧ m.map (Stmt.rename (SoftKeyword.replace (ascii "x"))) =
        [.assign 1 [⟨.name (ascii "x"), ⟨1, 1⟩⟩] ⟨.call, ⟨1, 9⟩⟩,
          .functionDef 2 false (ascii "x")
            { regular := [ascii "x"], defaults := [⟨.name (ascii "x"), ⟨2, 15⟩⟩] }
            [.simple 2 .pass]] := by
  let tokens : List Token :=
    [⟨.name (ascii "match"), ⟨1, 1⟩⟩, ⟨.symbol .equal, ⟨1, 7⟩⟩, ⟨.name (ascii "f"), ⟨1, 9⟩⟩,
      ⟨.symbol (.opening .round), ⟨1, 10⟩⟩, ⟨.name (ascii "case"), ⟨1, 11⟩⟩,
      ⟨.symbol (.closing .round), ⟨1, 15⟩⟩, ⟨.newline, ⟨1, 16⟩⟩, ⟨.keyword .def_, ⟨2, 1⟩⟩,
      ⟨.name (ascii "type"), ⟨2, 5⟩⟩, ⟨.symbol (.opening .round), ⟨2, 9⟩⟩,
      ⟨.name (ascii "case"), ⟨2, 10⟩⟩, ⟨.symbol .equal, ⟨2, 14⟩⟩,
      ⟨.name (ascii "match"), ⟨2, 15⟩⟩, ⟨.symbol (.closing .round), ⟨2, 20⟩⟩,
      ⟨.symbol .colon, ⟨2, 21⟩⟩, ⟨.keyword .pass_, ⟨2, 23⟩⟩, ⟨.newline, ⟨2, 27⟩⟩,
      ⟨.endMarker, ⟨3, 1⟩⟩]
  have htokens : tokenize (ascii "match = f(case)\ndef type(case=match): pass\n") =
      .ok tokens := rfl
  have hreplaced : ofTokens (tokens.map (Token.replaceSoft (ascii "x"))) = .ok
      [.assign 1 [⟨.name (ascii "x"), ⟨1, 1⟩⟩] ⟨.call, ⟨1, 9⟩⟩,
        .functionDef 2 false (ascii "x")
          { regular := [ascii "x"], defaults := [⟨.name (ascii "x"), ⟨2, 15⟩⟩] }
          [.simple 2 .pass]] := by
    subst tokens
    decide +kernel
  obtain ⟨m, hm, hrenamed⟩ := ofTokens_of_replaced (by decide) (by decide) hreplaced
  exact ⟨tokens, m, htokens, hm, hrenamed⟩

end Module

end StyleCheck
