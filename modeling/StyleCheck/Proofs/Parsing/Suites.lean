import Mathlib.Control.Monad.Basic
import StyleCheck.Proofs.Parsing.Anchor
import StyleCheck.Proofs.Scan.Hollow

/-! # Suites without Statements

    The parser takes an indent for the start of a block, and reads
    statements up to the dedent.  Where the two stand side by side there is
    no statement to be read, and nothing that complains of it.  Such tokens
    come from a source that opens a block on its last logical line and
    puts no token there.

    * `Solid`: tokens in which something stands behind every indent.
    * `Fills`: what a parser makes of such tokens, with one rule for each
      way to compose parsers.
    * `Grammar.statementsUpTo_fill`: the statements of such tokens own
      statements, by induction on the fuel.
    * `filled_iff_no_empty_block`: the sources that have such tokens.
-/

namespace StyleCheck

open StyleCheck.Parser

/-! ## Section 1: Statements that own statements -/

variable {stmts others : List Stmt} {stmt : Stmt}

/-- Each statement that owns blocks has a statement in them. -/
def AllFilled (stmts : List Stmt) : Prop :=
  ∀ stmt ∈ nodes stmts, stmt.isSmall = false → stmt.children ≠ []

/-- The statements of a suite: there are some, and those that own blocks
    have statements in them. -/
structure IsSuite (stmts : List Stmt) : Prop where
  nonempty : stmts ≠ []
  filled : AllFilled stmts

theorem AllFilled.nil : AllFilled [] := by
  intro stmt hmem
  cases hmem

theorem allFilled_append : AllFilled (stmts ++ others) ↔ AllFilled stmts ∧ AllFilled others := by
  unfold AllFilled
  rw [nodes_append]
  exact List.forall_mem_append

theorem allFilled_cons : AllFilled (stmt :: stmts) ↔ AllFilled [stmt] ∧ AllFilled stmts := by
  rw [← List.singleton_append]
  exact allFilled_append

theorem allFilled_reverse : AllFilled stmts.reverse ↔ AllFilled stmts := by
  induction stmts with
  | nil => exact Iff.rfl
  | cons stmt stmts ih =>
    rw [List.reverse_cons, allFilled_append, ih, @allFilled_cons stmts stmt]
    exact And.comm

theorem AllFilled.of_small (h : ∀ stmt ∈ stmts, stmt.isSmall = true) : AllFilled stmts := by
  induction stmts with
  | nil => exact .nil
  | cons stmt stmts ih =>
    obtain ⟨hsmall, hothers⟩ := List.forall_mem_cons.mp h
    refine allFilled_cons.mpr ⟨?_, ih hothers⟩
    intro node hmem hlarge
    cases stmt with
    | functionDef | classDef | block => cases hsmall
    | assign | simple =>
      obtain rfl := List.mem_singleton.mp hmem
      cases hlarge

/-- A statement that owns a suite. -/
theorem IsSuite.owner (h : IsSuite stmt.children) : AllFilled [stmt] := by
  intro node hmem hlarge
  rw [nodes_singleton] at hmem
  rcases List.mem_cons.mp hmem with rfl | hmem
  · exact h.nonempty
  · exact h.filled node hmem hlarge

/-- What hangs on a suite need not be there. -/
theorem IsSuite.append (h : IsSuite stmts) (hothers : AllFilled others) :
    IsSuite (stmts ++ others) :=
  ⟨fun hnil => h.nonempty (List.append_eq_nil_iff.mp hnil).1,
    allFilled_append.mpr ⟨h.filled, hothers⟩⟩

/-! ## Section 2: Parsers on solid tokens -/

/-- Behind an indent, a block does not end at once. -/
def Solid (ts : List Token) : Prop :=
  ∀ us, us <:+ ts → (front us).lexeme = .indent → Grammar.endsBlock (front us.tail).lexeme = false

theorem Solid.suffix {ts rest : List Token} (h : Solid ts) (hrest : rest <:+ ts) : Solid rest :=
  fun us hus => h us (hus.trans hrest)

theorem Solid.tail {ts : List Token} (h : Solid ts) : Solid ts.tail :=
  h.suffix (List.tail_suffix ts)

/-- From solid tokens, the parser leaves solid tokens, and says of its
    result what it should. -/
def Fills {α : Type} (p : Parser α) (made : α → Prop) : Prop :=
  ∀ ts, Solid ts → Ensures p ts fun a rest => made a ∧ Solid rest

namespace Fills

variable {α β σ : Type} {p p' : Parser α} {q : Parser β} {f : β → Parser α} {made : α → Prop}
  {read : β → Prop}

theorem of_keeps (h : Keeps q) : Fills q fun _ => True :=
  fun ts hts => (h.suffix ts).mono fun _ _ hrest => ⟨trivial, hts.suffix hrest⟩

theorem pure {a : α} (h : made a) : Fills (pure a) made :=
  fun _ hts => (ensures_pure a).mpr ⟨h, hts⟩

theorem bind (hq : Fills q read) (hf : ∀ b, read b → Fills (f b) made) : Fills (q >>= f) made := by
  intro ts hts
  rw [ensures_bind]
  exact (hq ts hts).mono fun b mid hb => hf b hb.1 mid hb.2

/-- What is only read over. -/
theorem behind (hq : Keeps q) (hf : ∀ b, Fills (f b) made) : Fills (q >>= f) made :=
  (of_keeps hq).bind fun b _ => hf b

theorem ite {c : Prop} [Decidable c] (hp : c → Fills p made) (hp' : ¬ c → Fills p' made) :
    Fills (if c then p else p') made := by
  intro ts hts
  rw [ensures_ite]
  exact ⟨fun hc => hp hc ts hts, fun hc => hp' hc ts hts⟩

theorem spent : Fills (spent : Parser α) made := fun _ _ => ensures_spent.mpr trivial

theorem fail (fault : Fault) : Fills (fail fault : Parser α) made :=
  fun _ _ => (ensures_fail fault).mpr trivial

/-- A loop, with an invariant of its states. -/
theorem loop {body : σ → Parser (Next σ α)} (invariant : σ → Prop)
    (hbody : ∀ state, invariant state → Fills (body state) (Next.Meets invariant made))
    {state : σ} (hstate : invariant state) : Fills (loop body state) made := by
  intro ts hts
  have hloop : Ensures (Parser.loop body state) ts fun result rest =>
      invariant state → Solid ts → made result ∧ Solid rest := by
    refine @Ensures.loop _ _ body (fun state ts result rest =>
      invariant state → Solid ts → made result ∧ Solid rest) (fun state ts next mid hread => ?_)
      state ts
    cases next with
    | done result => exact fun hstate hts => hbody state hstate ts hts _ _ hread
    | again next =>
      intro result rest hbehind hstate hts
      obtain ⟨hnext, hmid⟩ := hbody state hstate ts hts _ _ hread
      exact hbehind hnext hmid
  exact hloop.mono fun result rest h => h hstate hts

end Fills

/-- The parsers that the grammar of statements refers back to make
    statements that own statements. -/
structure StatementParsers.Fill (p : StatementParsers) : Prop where
  statement : Fills p.statement IsSuite
  conditional : Fills p.conditional fun stmt => AllFilled [stmt]

namespace Grammar

/-! ## Section 3: Lines and suites -/

theorem smallStatement_fills : Fills smallStatement fun stmt => stmt.isSmall = true := by
  intro ts hts stmt rest hread
  have hkeeps := smallStatement_advances.keeps.suffix ts stmt rest hread
  exact ⟨(smallStatement_makes ts stmt rest hread).1, hts.suffix hkeeps⟩

/-- A line of simple statements has one at least. -/
theorem simpleStatements_fills : Fills simpleStatements IsSuite := by
  have hloop : Fills (loop nextSmall []) fun read =>
      read ≠ [] ∧ ∀ stmt ∈ read, stmt.isSmall = true := by
    refine .loop (fun read => ∀ stmt ∈ read, stmt.isSmall = true) (fun read hread => ?_) (by simp)
    unfold nextSmall
    refine .bind smallStatement_fills fun stmt hstmt => .behind (.accept _) fun _ => ?_
    have hall : ∀ small ∈ stmt :: read, small.isSmall = true :=
      List.forall_mem_cons.mpr ⟨hstmt, hread⟩
    have hdone := And.intro (List.cons_ne_nil stmt read) hall
    refine .ite (fun _ => ?_) (fun _ => .pure hdone)
    exact .behind .peek fun _ => .ite (fun _ => .pure hdone) (fun _ => .pure hall)
  unfold simpleStatements
  refine .bind hloop fun read hread => ?_
  refine .behind (.expectNewline _) fun _ => .pure ⟨?_, ?_⟩
  · simpa using hread.1
  · exact allFilled_reverse.mpr (.of_small hread.2)

/-- Up to the end of a block there is a statement, unless it comes at
    once. -/
theorem statementsUntil_ensures {statement : Parser (List Stmt)}
    (hstatement : Fills statement IsSuite) (ends : Lexeme → Bool) {ts : List Token} (hts : Solid ts) :
    Ensures (statementsUntil ends statement) ts fun stmts rest =>
      (ends (front ts).lexeme = false → stmts ≠ []) ∧ AllFilled stmts ∧ Solid rest := by
  have hloop : Ensures (statementsUntil ends statement) ts fun stmts rest =>
      AllFilled [] → Solid ts →
        (([] : List Stmt) ≠ [] ∨ ends (front ts).lexeme = false → stmts ≠ []) ∧
          AllFilled stmts ∧ Solid rest := by
    refine @Ensures.loop _ _ (nextStatement ends statement) (fun read ts stmts rest =>
      AllFilled read → Solid ts → (read ≠ [] ∨ ends (front ts).lexeme = false → stmts ≠ []) ∧
        AllFilled stmts ∧ Solid rest) (fun read ts => ?_) [] ts
    unfold nextStatement
    rw [ensures_bind, ensures_peek, ensures_ite, ensures_pure, ensures_bind]
    refine ⟨fun hends hread hts => ⟨fun hne => ?_, allFilled_reverse.mpr hread, hts⟩, fun _ => ?_⟩
    · rcases hne with hne | hfront
      · simpa using hne
      · rw [hends] at hfront
        cases hfront
    · intro stmts mid hstmts
      rw [ensures_pure]
      intro result rest hbehind hread hts
      obtain ⟨hsuite, hmid⟩ := hstatement ts hts stmts mid hstmts
      have hboth : AllFilled (stmts.reverse ++ read) :=
        allFilled_append.mpr ⟨allFilled_reverse.mpr hsuite.filled, hread⟩
      obtain ⟨hne, hrest⟩ := hbehind hboth hmid
      exact ⟨fun _ => hne (.inl (by simp [hsuite.nonempty])), hrest⟩
  refine hloop.mono fun stmts rest h => ?_
  obtain ⟨hne, hrest⟩ := h .nil hts
  exact ⟨fun hfront => hne (.inr hfront), hrest⟩

variable {p : StatementParsers} (hp : p.Fill)

include hp

theorem suite_fills : Fills (suite p) IsSuite := by
  intro ts hts
  unfold suite
  rw [ensures_bind, ensures_acceptIf]
  refine ⟨fun _ => ?_, fun _ => simpleStatements_fills ts hts⟩
  rw [if_pos rfl, ensures_bind, ensures_acceptIf]
  refine ⟨fun hindent => ?_, fun _ => (ensures_fail _).mpr trivial⟩
  -- Behind the indent the block goes on, so that a statement is read.
  have hfront : endsBlock (front ts.tail.tail).lexeme = false :=
    hts.tail _ (List.suffix_refl _) (beq_iff_eq.mp hindent)
  rw [if_pos rfl, ensures_bind]
  refine (statementsUntil_ensures hp.statement endsBlock hts.tail.tail).mono
    fun stmts mid hstmts => ?_
  obtain ⟨hne, hfilled, hmid⟩ := hstmts
  have hsuite : IsSuite stmts := ⟨hne hfront, hfilled⟩
  rw [ensures_bind, ensures_acceptIf]
  simp only [ensures_pure]
  exact ⟨fun _ => ⟨hsuite, hmid.tail⟩, fun _ => ⟨hsuite, hmid⟩⟩

theorem body_fills : Fills (body p) IsSuite := by
  unfold body
  exact .behind (.expect _) fun _ => suite_fills hp

/-- The body of a statement, behind its head. -/
theorem owner_fills {α : Type} {make : List Stmt → α} (owner : α → Stmt)
    (hchildren : ∀ inner, (owner (make inner)).children = inner) :
    Fills (do
      let inner ← body p
      pure (make inner)) fun a => AllFilled [owner a] := by
  refine .bind (body_fills hp) fun inner hinner => .pure ?_
  rw [← hchildren inner] at hinner
  exact hinner.owner

theorem optionalBody_fills (keyword : Keyword) :
    Fills (optionalBody p keyword) fun stmts => AllFilled (stmts.getD []) := by
  unfold optionalBody
  refine .behind (.acceptKeyword _) fun _ => .ite (fun _ => ?_) (fun _ => .pure .nil)
  exact .bind (body_fills hp) fun _ hinner => .pure hinner.filled

/-! ## Section 4: Compound statements -/

theorem alternative_fills : Fills (alternative p) AllFilled := by
  unfold alternative
  refine .behind (.atKeyword _) fun _ => .ite (fun _ => ?_) (fun _ => ?_)
  · exact .bind hp.conditional fun _ hstmt => .pure hstmt
  · exact .bind (optionalBody_fills hp .else_) fun _ hstmts => .pure hstmts

/-- A body and what hangs on it. -/
theorem block_fills {α : Type} {line : Nat} {kind : BlockKind} {hanging : Parser α}
    {below : α → List Stmt} (hhanging : Fills hanging fun a => AllFilled (below a)) :
    Fills (do
      let first ← body p
      let last ← hanging
      pure (Stmt.block line kind (first ++ below last))) fun stmt => AllFilled [stmt] := by
  refine .bind (body_fills hp) fun first hfirst => .bind hhanging fun last hlast => .pure ?_
  have hsuite : IsSuite (Stmt.block line kind (first ++ below last)).children := hfirst.append hlast
  exact hsuite.owner

theorem conditional_fills : Fills (conditional p) fun stmt => AllFilled [stmt] := by
  unfold conditional
  refine .behind .line fun _ => .behind .advance fun _ =>
    .behind (namedExpression_keeps grammar_keep) fun _ => ?_
  exact block_fills hp (alternative_fills hp)

theorem whileLoop_fills : Fills (whileLoop p) fun stmt => AllFilled [stmt] := by
  unfold whileLoop
  refine .behind .line fun _ => .behind .advance fun _ =>
    .behind (namedExpression_keeps grammar_keep) fun _ => ?_
  exact block_fills hp (optionalBody_fills hp .else_)

theorem forLoop_fills (line : Nat) (isAsync : Bool) :
    Fills (forLoop p line isAsync) fun stmt => AllFilled [stmt] := by
  unfold forLoop
  refine .behind .advance fun _ => .behind (targets_keeps grammar_keep) fun _ =>
    .behind (.expectKeyword _ _) fun _ => .behind (starExpressions_keeps grammar_keep) fun _ => ?_
  exact block_fills hp (optionalBody_fills hp .else_)

theorem handler_fills : Fills (handler p) fun read => AllFilled [read.1] := by
  have hhandled : ∀ (line : Nat) (star : Bool), Fills (do
      let handled ← body p
      pure (Stmt.block line .handler handled, star)) fun read => AllFilled [read.1] :=
    fun line star => owner_fills hp Prod.fst fun _ => rfl
  unfold handler
  refine .behind .line fun line => .behind .advance fun _ => .behind (.accept _) fun star => ?_
  refine .behind (.atSymbol _) fun _ => .ite (fun _ => hhandled line star) (fun _ => ?_)
  exact .behind grammar_keep.expression fun _ => .behind asName_keeps fun _ => hhandled line star

theorem handlers_fills :
    Fills (loop (nextHandler p) ([], false)) fun read => AllFilled read.1 := by
  refine .loop (fun read => AllFilled read.1) (fun read hread => ?_) .nil
  unfold nextHandler
  refine .behind (.atKeyword _) fun _ => .ite (fun _ => ?_) (fun _ => .pure hread)
  refine .bind (handler_fills hp) fun next hnext => .pure ?_
  exact allFilled_append.mpr ⟨hread, hnext⟩

theorem tryBlock_fills : Fills (tryBlock p) fun stmt => AllFilled [stmt] := by
  unfold tryBlock
  refine .behind .line fun line => .behind .advance fun _ => .bind (body_fills hp)
    fun first hfirst => .bind (handlers_fills hp) fun (handlers, star) hhandlers => ?_
  have hfinal : ∀ alternative : Option (List Stmt), AllFilled (alternative.getD []) → Fills (do
      let final ← optionalBody p .finally_
      if handlers.isEmpty && final.isNone then fail .missingHandler
      else pure (Stmt.block line (.tryBlock star)
        (first ++ handlers ++ alternative.getD [] ++ final.getD [])))
        fun stmt => AllFilled [stmt] := by
    intro alternative halternative
    refine .bind (optionalBody_fills hp .finally_) fun final hfinal => ?_
    refine .ite (fun _ => .fail _) (fun _ => .pure ?_)
    have hsuite : IsSuite (Stmt.block line (.tryBlock star)
        (first ++ handlers ++ alternative.getD [] ++ final.getD [])).children :=
      ((hfirst.append hhandlers).append halternative).append hfinal
    exact hsuite.owner
  dsimp only
  refine .ite (fun _ => ?_) (fun _ => ?_)
  · exact .bind (.pure AllFilled.nil) fun _ h => hfinal _ h
  · exact .bind (optionalBody_fills hp .else_) hfinal

theorem withBlock_fills (line : Nat) (isAsync : Bool) :
    Fills (withBlock p line isAsync) fun stmt => AllFilled [stmt] := by
  unfold withBlock
  exact .behind .advance fun _ => .behind withItems_keeps fun _ =>
    owner_fills hp id fun _ => rfl

theorem functionDef_fills (line : Nat) (isAsync : Bool) :
    Fills (functionDef p line isAsync) fun stmt => AllFilled [stmt] := by
  unfold functionDef
  refine .behind .advance fun _ => .behind .name fun name => .behind typeParameters_keeps fun _ =>
    .behind (.expect _) fun _ => .behind (parameters_keeps grammar_keep _ _) fun params => ?_
  have hbody : Fills (do
      let inner ← body p
      pure (Stmt.functionDef line isAsync name params inner)) fun stmt => AllFilled [stmt] :=
    owner_fills hp id fun _ => rfl
  refine .behind (.expect _) fun _ => .behind (.accept _) fun _ =>
    .ite (fun _ => ?_) (fun _ => hbody)
  exact .behind grammar_keep.expression fun _ => hbody

theorem classDef_fills (line : Nat) : Fills (classDef p line) fun stmt => AllFilled [stmt] := by
  unfold classDef
  refine .behind .advance fun _ => .behind .name fun name =>
    .behind typeParameters_keeps fun _ => ?_
  have hbody : Fills (do
      let inner ← body p
      pure (Stmt.classDef line name inner)) fun stmt => AllFilled [stmt] :=
    owner_fills hp id fun _ => rfl
  refine .behind (.atSymbol _) fun _ => .ite (fun _ => ?_) (fun _ => hbody)
  exact .behind (arguments_keeps grammar_keep) fun _ => hbody

theorem decorated_fills : Fills (decorated p) fun stmt => AllFilled [stmt] := by
  unfold decorated
  refine .behind (.repeatWhile nextDecorator_spends.keeps) fun _ => .behind .line fun line => .behind .peekSecond fun _ =>
    .behind .peek fun _ => ?_
  split
  case h_1 => exact functionDef_fills hp line false
  case h_2 => exact classDef_fills hp line
  case h_3 =>
    refine .ite (fun _ => ?_) (fun _ => .fail _)
    exact .behind .advance fun _ => functionDef_fills hp line true
  case h_4 => exact .fail _

theorem asyncStatement_fills : Fills (asyncStatement p) fun stmt => AllFilled [stmt] := by
  unfold asyncStatement
  refine .behind .line fun line => .behind .advance fun _ => .behind .peek fun _ => ?_
  split
  case h_1 => exact functionDef_fills hp line true
  case h_2 => exact forLoop_fills hp line true
  case h_3 => exact withBlock_fills hp line true
  case h_4 => exact .fail _

theorem matchCase_fills : Fills (matchCase p) fun stmt => AllFilled [stmt] := by
  unfold matchCase
  refine .behind .line fun line => .behind .advance fun _ =>
    .behind (skipPattern_keeps true 0) fun _ => .bind (suite_fills hp) fun inner hinner => .pure ?_
  have hsuite : IsSuite (Stmt.block line .matchCase inner).children := hinner
  exact hsuite.owner

theorem cases_fills : Fills (loop (nextCase p) []) AllFilled := by
  refine .loop AllFilled (fun read hread => ?_) .nil
  unfold nextCase
  refine .behind .peek fun _ => .ite (fun _ => ?_) (fun _ => .pure (allFilled_reverse.mpr hread))
  exact .bind (matchCase_fills hp) fun next hnext => .pure (allFilled_cons.mpr ⟨hnext, hread⟩)

/-- There is a case in a `match`, as a rule of its own. -/
theorem matchBlock_fills : Fills (matchBlock p) fun stmt => AllFilled [stmt] := by
  unfold matchBlock
  refine .behind .line fun line => .behind .advance fun _ =>
    .behind (starExpressions_keeps grammar_keep) fun _ => .behind (.expect _) fun _ =>
    .behind (.expectNewline _) fun _ => .behind (.acceptIf _) fun _ =>
    .ite (fun _ => ?_) (fun _ => .fail _)
  refine .bind (cases_fills hp) fun cases hcases => .ite (fun _ => .fail _) (fun hne => ?_)
  have hcase : cases ≠ [] := by simpa using hne
  have hsuite : IsSuite (Stmt.block line .matchBlock cases).children := ⟨hcase, hcases⟩
  exact .behind (.acceptIf _) fun _ => .ite (fun _ => .pure hsuite.owner) (fun _ => .fail _)

/-! ## Section 5: The knot -/

theorem compound?_fills {l : Lexeme} {parser : Parser Stmt}
    (hparser : compound? p l = some parser) : Fills parser fun stmt => AllFilled [stmt] := by
  unfold compound? at hparser
  split at hparser
  case h_11 => cases hparser
  all_goals cases hparser
  case h_1 => exact conditional_fills hp
  case h_2 => exact whileLoop_fills hp
  case h_3 => exact .behind .line fun line => forLoop_fills hp line false
  case h_4 => exact tryBlock_fills hp
  case h_5 => exact .behind .line fun line => withBlock_fills hp line false
  case h_6 => exact .behind .line fun line => functionDef_fills hp line false
  case h_7 => exact .behind .line fun line => classDef_fills hp line
  case h_8 => exact asyncStatement_fills hp
  case h_9 => exact decorated_fills hp
  case h_10 => exact .fail _

theorem statement_fills : Fills (statement p) IsSuite := by
  have hsingle : ∀ parser : Parser Stmt, Fills parser (fun stmt => AllFilled [stmt]) → Fills (do
      let stmt ← parser
      pure [stmt]) IsSuite :=
    fun parser hparser => .bind hparser fun stmt hstmt => .pure ⟨List.cons_ne_nil stmt [], hstmt⟩
  unfold statement
  refine .behind atMatch_keeps fun _ =>
    .ite (fun _ => hsingle _ (matchBlock_fills hp)) (fun _ => ?_)
  refine .behind .peek fun _ => ?_
  split
  case h_1 hparser => exact hsingle _ (compound?_fills hp hparser)
  case h_2 => exact simpleStatements_fills

omit hp in
theorem statementsUpTo_fill (fuel : List Token) : (statementsUpTo fuel).Fill := by
  induction fuel with
  | nil => exact ⟨.spent, .spent⟩
  | cons _ fuel ih => exact ⟨statement_fills ih, conditional_fills ih⟩

end Grammar

/-- The grammar of statements makes statements that own statements, of
    solid tokens. -/
theorem statementGrammar_fill : statementGrammar.Fill where
  statement ts hts := (Grammar.statement_fills (Grammar.statementsUpTo_fill ts) ts hts).congr rfl
  conditional ts hts :=
    (Grammar.conditional_fills (Grammar.statementsUpTo_fill ts) ts hts).congr rfl

/-! ## Section 6: Empty blocks of sources -/

namespace Scan

variable {source : Text} {stage : Stage} {s : Scan} {tokens : List Token}

/-- What is next on a line that has begun ends a block only if nothing is
    left of the source. -/
theorem endsBlock_of_isNext {rest : Text} {l : Lexeme} (h : IsNext rest l) :
    Grammar.endsBlock l = rest.isEmpty := by
  cases rest with
  | nil => rcases h with rfl | rfl <;> rfl
  | cons b rest =>
    have hnext : if b = Byte.newline then l = .newline else l.isSpelled = true := h
    split at hnext
    · rw [hnext]
      rfl
    · cases l <;> first | rfl | cases hnext

/-- Where a line may start, the newest token is a newline. -/
theorem Visits.newest_atStart (h : Visits source stage s) (hstart : s.atLineStart = true) :
    ∀ token ∈ s.tokens.head?, token.lexeme = .newline := by
  induction h with
  | start =>
    intro token hmem
    cases hmem
  | enter _ henter ih =>
    rcases enterLine_cases henter with ⟨rfl, _⟩ | ⟨hold, _, ⟨rfl, _⟩ | ⟨_, hsettle⟩⟩
    · exact ih hstart
    · exact ih hold
    · rcases settle_cases hsettle with ⟨_, rfl⟩ | ⟨_, _, rfl⟩ <;> cases hstart
  | piece hvisit hrest hpiece ih =>
    cases hvisit.turns hrest hpiece with
    | separator => exact ih hstart
    | newline =>
      intro token hmem
      obtain rfl := Option.some.inj hmem
      rfl
    | token hold => exact absurd hstart (by simpa [skip, emit] using hold)
    | symbol hold htracked =>
      rw [trackBrackets_eq htracked] at hstart
      exact absurd hstart (by simpa [skip, emit] using hold)

/-- Without empty blocks, the tokens are solid. -/
theorem solid_of_tokenize (htokens : tokenize source = .ok tokens)
    (h : ∀ s, BeginsLine source s → s.opensEmptyBlock = false) : Solid tokens := by
  rintro us ⟨before, rfl⟩ hindent
  obtain ⟨p, hus⟩ := eq_cons_of_front hindent (by simp)
  rw [hus] at htokens
  obtain ⟨s, next, others, hbegins, hdeeper, hbehind, hnext⟩ := exists_next_of_indent htokens rfl
  have hblock := h s hbegins
  rw [opensEmptyBlock, decide_eq_true hdeeper, Bool.true_and] at hblock
  rw [hbehind]
  exact (endsBlock_of_isNext hnext).trans hblock

/-- An empty block is an indent and the end of a block behind it, in front
    of which a line has been ended unless it is the first. -/
theorem BeginsLine.exists_empty_block (h : BeginsLine source s)
    (htokens : tokenize source = .ok tokens) (hempty : s.opensEmptyBlock = true) :
    ∃ before p token behind, tokens = before ++ ⟨.indent, p⟩ :: token :: behind ∧
      Grammar.endsBlock token.lexeme = true ∧
      ∀ newest ∈ before.getLast?, newest.lexeme = .newline := by
  obtain ⟨margin, token, behind, _, hindent, hall, hnext⟩ := h.next htokens
  simp only [opensEmptyBlock, Bool.and_eq_true, decide_eq_true_eq] at hempty
  obtain ⟨p, rfl⟩ := hindent hempty.1
  refine ⟨s.tokens.reverse, p, token, behind, ?_, ?_, ?_⟩
  · simpa using hall
  · exact (endsBlock_of_isNext hnext).trans hempty.2
  · rw [List.getLast?_reverse]
    exact h.visit.newest_atStart h.start

end Scan

namespace Grammar

variable {p : StatementParsers} {token : Token} {ts : List Token}

/-- A block that ends at once is read, without a statement in it. -/
theorem suite_of_empty (hend : endsBlock token.lexeme = true) (q r : Position) :
    ∃ rest, suite p (⟨.newline, q⟩ :: ⟨.indent, r⟩ :: token :: ts) = .ok ([], rest) := by
  have hdone : statementsUntil endsBlock p.statement (token :: ts) = .ok ([], token :: ts) := by
    apply loop_of_done
    simp [nextStatement, hend]
  unfold suite
  by_cases hdedent : token.lexeme = .dedent
  · simp [hdone, hdedent]
  · simp [hdone, hdedent]

/-- No statement starts with an indent. -/
theorem statement_ne_indent (ts : List Token) :
    Ensures (statement p) ts fun _ _ => (front ts).lexeme ≠ .indent := by
  unfold statement
  rw [ensures_bind]
  refine (atMatch_ensures ts).mono fun found _ hfound => ?_
  obtain ⟨rfl, hfound⟩ := hfound
  rw [ensures_ite]
  constructor
  · intro hmatch _ _ _ hindent
    rw [hindent] at hfound
    cases hfound hmatch
  · intro _ stmts rest hread hindent
    simp only [bind_apply, peek_apply, hindent, compound?] at hread
    cases hread

/-- Neither does a module. -/
theorem parser_ne_indent (ts : List Token) :
    Ensures Module.parser ts fun _ _ => (front ts).lexeme ≠ .indent := by
  unfold Module.parser statementsUntil
  refine Ensures.loop_tokens (fun ts _ => (front ts).lexeme ≠ .indent) (fun read ts => ?_) [] ts
  unfold nextStatement
  rw [ensures_bind, ensures_peek, ensures_ite, ensures_pure, ensures_bind]
  constructor
  · intro hends
    rw [beq_iff_eq.mp hends]
    simp
  · intro _
    have hstatement : Ensures statementGrammar.statement ts fun _ _ =>
        (front ts).lexeme ≠ .indent := (statement_ne_indent ts).congr rfl
    exact hstatement.mono fun _ _ hne => (ensures_pure _).mpr fun _ _ => hne

end Grammar

open Scan in
/-- **Suites without statements**: in an accepted source, no logical line
    opens a block and ends the source at once if and only if every
    statement that owns blocks has a statement in them, and there is no
    place in the tokens where a suite is read that has none.  So it is in
    any source in which no physical line holds nothing but a
    continuation. -/
theorem filled_iff_no_empty_block {source : Text} {m : Module}
    (h : Module.ofSource source = .ok m) :
    ((∀ s, BeginsLine source s → s.opensEmptyBlock = false) ↔
      (∀ stmt ∈ nodes m, stmt.isSmall = false → stmt.children ≠ []) ∧
      ∀ tokens ts stmts rest, tokenize source = .ok tokens → ts <:+ tokens →
        Grammar.suite statementGrammar ts = .ok (stmts, rest) → stmts ≠ []) ∧
    ((∀ line ∈ source.body.splitLines, isContinuationOnly line = false) →
      ∀ stmt ∈ nodes m, stmt.isSmall = false → stmt.children ≠ []) := by
  obtain ⟨tokens, htokens, htree⟩ := Module.ofSource_eq_ok h
  obtain ⟨rest, hread⟩ := Module.ofTokens_eq_ok htree
  rw [Module.withEndMarker_of_tokenize htokens] at hread
  have hforward : (∀ s, BeginsLine source s → s.opensEmptyBlock = false) →
      AllFilled m ∧ ∀ ts stmts rest, ts <:+ tokens →
        Grammar.suite statementGrammar ts = .ok (stmts, rest) → stmts ≠ [] := by
    intro hblocks
    have hsolid := solid_of_tokenize htokens hblocks
    constructor
    · exact (Grammar.statementsUntil_ensures statementGrammar_fill.statement _ hsolid
        m rest hread).2.1
    · intro ts stmts rest hts hsuite
      exact (Grammar.suite_fills statementGrammar_fill ts (hsolid.suffix hts)
        stmts rest hsuite).1.nonempty
  refine ⟨⟨fun hblocks => ?_, fun hfull s hbegins => ?_⟩, fun hlines => ?_⟩
  · refine ⟨(hforward hblocks).1, fun tokens' ts stmts rest htokens' => ?_⟩
    rw [htokens, Except.ok.injEq] at htokens'
    subst htokens'
    exact (hforward hblocks).2 ts stmts rest
  · rw [Bool.eq_false_iff]
    intro hempty
    obtain ⟨before, p, token, behind, rfl, hend, hnewest⟩ :=
      hbegins.exists_empty_block htokens hempty
    rcases List.eq_nil_or_concat before with rfl | ⟨before, newest, rfl⟩
    -- A block at the very start is rejected.
    · exact Grammar.parser_ne_indent _ m rest hread rfl
    · obtain ⟨lexeme, q⟩ := newest
      obtain rfl : lexeme = .newline := hnewest ⟨lexeme, q⟩ (by simp)
      obtain ⟨left, hsuite⟩ :=
        @Grammar.suite_of_empty statementGrammar token behind hend q p
      refine hfull.2 _ _ _ _ htokens ?_ hsuite rfl
      exact ⟨before, by simp⟩
  · refine (hforward fun s hbegins => ?_).1
    rw [Bool.eq_false_iff]
    intro hempty
    have hhollow : s.isHollow = true := Bool.or_eq_true_iff.mpr (.inl hempty)
    obtain ⟨line, hmem, hcontinued⟩ := hbegins.exists_continuation hhollow
    rw [hlines line hmem] at hcontinued
    cases hcontinued

/-- A suite of two lines with a comment between them. -/
theorem filled_of_commented_suite :
    ∃ m, Module.ofSource (ascii "if x:\n  y\n# c\n  z\n") = .ok m ∧
      ∀ stmt ∈ nodes m, stmt.isSmall = false → stmt.children ≠ [] := by
  have hread : Module.ofSource (ascii "if x:\n  y\n# c\n  z\n") = .ok
      [.block 1 .conditional [.simple 2 .expression, .simple 4 .expression]] := by decide +kernel
  have hlines : (ascii "if x:\n  y\n# c\n  z\n").body.splitLines.all
      (fun line => !Scan.isContinuationOnly line) = true := rfl
  refine ⟨_, hread, (filled_iff_no_empty_block hread).2 fun line hmem => ?_⟩
  simpa using List.all_eq_true.mp hlines line hmem

/-- A continuation on the last line is a block, and there is nothing in
    it. -/
theorem empty_block_of_continuation :
    ∃ source m, Module.ofSource source = .ok m ∧
      ∃ stmt ∈ nodes m, stmt.isSmall = false ∧ stmt.children = [] := by
  have hread : Module.ofSource (ascii "if x:\n    \\\n") = .ok [.block 1 .conditional []] := by decide +kernel
  exact ⟨_, _, hread, _, List.mem_cons_self, rfl, rfl⟩

end StyleCheck
