import StyleCheck.Proofs.Parsing.Knot
import StyleCheck.Proofs.Scan.Run
import StyleCheck.Proofs.Tree.LevelOrder

/-! # The Tokens of a Tree

    Every statement of a tree starts at a token of its own, and the
    tokens come in the order of the statements.

    * `Introduces`: what the tokens from some place on say about a
      statement that starts there.
    * `Fresh`: a logical line may start at a place.  `Begins`: a statement
      may, on the line of another or behind a colon too.
    * `Anchors`: the statements of a tree, each at its place.
    * `anchors_of_ofTokens`: the tree of a token stream.
-/

namespace StyleCheck

open StyleCheck.Parser
open Scan (NoneSpelled)

/-! ## Section 1: Places in a token stream -/

/-- Whether a statement of a kind starts with a lexeme. -/
def BlockKind.startsWith : BlockKind → Lexeme → Bool
  | conditional, l => l == .keyword .if_ || l == .keyword .elif_
  | whileLoop, l => l == .keyword .while_
  | forLoop isAsync, l => l == .keyword (if isAsync then .async_ else .for_)
  | tryBlock _, l => l == .keyword .try_
  | handler, l => l == .keyword .except_
  | withBlock isAsync, l => l == .keyword (if isAsync then .async_ else .with_)
  | matchBlock, l => l == .name SoftKeyword.match_
  | matchCase, l => l == .name SoftKeyword.case_

/-- A statement starts with the tokens, on the line of the first.  One
    that owns no block is what is read from there. -/
inductive Introduces : List Token → Stmt → Prop where
  | function {p q : Position} {name : Text} {ts : List Token} {parameters : Parameters}
      {body : List Stmt} :
      Introduces (⟨.keyword .def_, p⟩ :: ⟨.name name, q⟩ :: ts)
        (.functionDef p.line false name parameters body)
  | asyncFunction {p q r : Position} {name : Text} {ts : List Token} {parameters : Parameters}
      {body : List Stmt} :
      Introduces (⟨.keyword .async_, p⟩ :: ⟨.keyword .def_, q⟩ :: ⟨.name name, r⟩ :: ts)
        (.functionDef p.line true name parameters body)
  | class_ {p q : Position} {name : Text} {ts : List Token} {body : List Stmt} :
      Introduces (⟨.keyword .class_, p⟩ :: ⟨.name name, q⟩ :: ts) (.classDef p.line name body)
  | block {kind : BlockKind} {token : Token} {ts : List Token} {children : List Stmt}
      (h : kind.startsWith token.lexeme = true) :
      Introduces (token :: ts) (.block token.position.line kind children)
  | assign {token : Token} {ts rest : List Token} {targets : List Expr} {value : Expr}
      (h : Grammar.smallStatement (token :: ts) =
        .ok (.assign token.position.line targets value, rest)) :
      Introduces (token :: ts) (.assign token.position.line targets value)
  | simple {token : Token} {ts rest : List Token} {kind : SimpleKind}
      (h : Grammar.smallStatement (token :: ts) = .ok (.simple token.position.line kind, rest)) :
      Introduces (token :: ts) (.simple token.position.line kind)

/-- Whether a statement owns no block, so that it may share its line with
    others. -/
def Stmt.isSmall : Stmt → Bool
  | assign .. | simple .. => true
  | functionDef .. | classDef .. | block .. => false

/-- A logical line may start in front of `ts`: nothing has been read of
    one. -/
def Fresh (all ts : List Token) : Prop := ∃ before, all = before ++ ts ∧ NoneSpelled before.reverse

/-- A statement may end with a lexeme, or its first line may, so that
    another statement may start behind it. -/
def Lexeme.isBoundary (l : Lexeme) : Bool :=
  !l.isSpelled || l == .symbol .colon || l == .symbol .semicolon

/-- A statement may start in front of `ts`: there is nothing in front of
    it, or a boundary. -/
def Begins (all ts : List Token) : Prop :=
  ∃ before, all = before ++ ts ∧ ∀ token ∈ before.getLast?, token.lexeme.isBoundary = true

/-- Statements one behind the other in front of `rest`, each with a place
    where it is introduced. -/
inductive Anchors (all rest : List Token) : List Token → List Stmt → Prop where
  | done {ts : List Token} (h : rest <:+ ts) : Anchors all rest ts []
  | node {ts us : List Token} {stmt : Stmt} {stmts : List Stmt} (hsuffix : us <:+ ts)
      (hintroduces : Introduces us stmt) (hbegins : Begins all us)
      (hfresh : stmt.isSmall = false → Fresh all us)
      (hbehind : Anchors all rest us.tail stmts) : Anchors all rest ts (stmt :: stmts)

variable {all ts us mid rest : List Token} {stmt : Stmt} {stmts others : List Stmt}

namespace Fresh

theorem suffix (h : Fresh all ts) : ts <:+ all := by
  obtain ⟨before, rfl, _⟩ := h
  exact List.suffix_append before ts

/-- What is left behind the first token is an end of the stream too. -/
theorem behind (h : Fresh all ts) (hus : us <:+ ts.tail) : us <:+ all :=
  hus.trans ((List.tail_suffix ts).trans h.suffix)

/-- Behind a token that is not spelled. -/
theorem of_cons {token : Token} (h : token :: ts <:+ all)
    (htoken : token.lexeme.isSpelled = false) : Fresh all ts := by
  obtain ⟨before, rfl⟩ := h
  refine ⟨before ++ [token], by simp, ?_⟩
  rw [List.reverse_append, List.reverse_singleton, List.singleton_append]
  exact .cons htoken

/-- Behind a layout token at the front. -/
theorem tail {l : Lexeme} (h : ts <:+ all) (hfront : (front ts).lexeme = l)
    (hl : l.isSpelled = false) (hne : l ≠ .endMarker) : Fresh all ts.tail := by
  cases ts with
  | nil => exact absurd hfront.symm hne
  | cons token ts => exact of_cons h (hfront ▸ hl)

/-- Where a logical line may start, a statement may. -/
theorem begins (h : Fresh all ts) : Begins all ts := by
  obtain ⟨before, rfl, hnone⟩ := h
  refine ⟨before, rfl, fun token hlast => ?_⟩
  have hunspelled := hnone token (by rwa [List.head?_reverse])
  simp [Lexeme.isBoundary, hunspelled]

end Fresh

namespace Begins

theorem suffix (h : Begins all ts) : ts <:+ all := by
  obtain ⟨before, rfl, _⟩ := h
  exact List.suffix_append before ts

/-- Behind a boundary. -/
theorem of_cons {token : Token} (h : token :: ts <:+ all)
    (htoken : token.lexeme.isBoundary = true) : Begins all ts := by
  obtain ⟨before, rfl⟩ := h
  refine ⟨before ++ [token], by simp, fun last hlast => ?_⟩
  rw [List.getLast?_concat] at hlast
  obtain rfl := Option.mem_some.mp hlast
  exact htoken

/-- Behind a boundary at the front. -/
theorem tail {symbol : Symbol} (h : ts <:+ all) (hfront : (front ts).lexeme = .symbol symbol)
    (hsymbol : (Lexeme.symbol symbol).isBoundary = true) : Begins all ts.tail := by
  cases ts with
  | nil => cases hfront
  | cons token ts => exact of_cons h (hfront ▸ hsymbol)

end Begins

namespace Anchors

theorem suffix (h : Anchors all rest ts stmts) : rest <:+ ts := by
  induction h with
  | done h => exact h
  | node hsuffix _ _ _ _ ih => exact ih.trans ((List.tail_suffix _).trans hsuffix)

theorem extend (h : Anchors all rest us stmts) (hsuffix : us <:+ ts) :
    Anchors all rest ts stmts := by
  cases h with
  | done h => exact .done (h.trans hsuffix)
  | node hus hintroduces hbegins hfresh hbehind =>
    exact .node (hus.trans hsuffix) hintroduces hbegins hfresh hbehind

theorem append (h : Anchors all mid ts stmts) (h' : Anchors all rest mid others) :
    Anchors all rest ts (stmts ++ others) := by
  induction h with
  | done hsuffix => exact h'.extend hsuffix
  | node hsuffix hintroduces hbegins hfresh _ ih =>
    exact .node hsuffix hintroduces hbegins hfresh ih

/-- Every statement has its place. -/
theorem exists_introduces (h : Anchors all rest ts stmts) (hmem : stmt ∈ stmts) :
    ∃ us, us <:+ ts ∧ Introduces us stmt ∧ Begins all us ∧
      (stmt.isSmall = false → Fresh all us) := by
  induction h with
  | done => cases hmem
  | @node ts us _ _ hsuffix hintroduces hbegins hfresh _ ih =>
    rcases List.mem_cons.mp hmem with rfl | hmem
    · exact ⟨_, hsuffix, hintroduces, hbegins, hfresh⟩
    · obtain ⟨vs, hvs, hothers⟩ := ih hmem
      exact ⟨vs, hvs.trans ((List.tail_suffix us).trans hsuffix), hothers⟩

end Anchors

/-! ## Section 2: Small statements -/

namespace Grammar

/-- Whatever a parser makes has a property. -/
def Makes {α : Type} (p : Parser α) (good : α → Prop) : Prop := ∀ ts, Ensures p ts fun a _ => good a

theorem Makes.bind {α β : Type} {p : Parser α} {f : α → Parser β} {good : β → Prop}
    (h : ∀ a, Makes (f a) good) : Makes (p >>= f) good := by
  intro ts b rest hread
  obtain ⟨a, mid, _, hf⟩ := Result.andThen_eq_ok hread
  exact h a mid b rest hf

theorem Makes.pure {α : Type} {a : α} {good : α → Prop} (h : good a) : Makes (pure a) good :=
  fun _ => (ensures_pure a).mpr h

theorem Makes.ite {α : Type} {c : Prop} [Decidable c] {p q : Parser α} {good : α → Prop}
    (hp : Makes p good) (hq : Makes q good) : Makes (if c then p else q) good :=
  fun ts => (ensures_ite c p q).mpr ⟨fun _ => hp ts, fun _ => hq ts⟩

/-- A small statement is on the line where its parser has started. -/
theorem smallStatement_makes (ts : List Token) : Ensures smallStatement ts fun stmt _ =>
    stmt.isSmall = true ∧ stmt.line = (front ts).position.line := by
  have hfailAt : ∀ line at_ fault, Makes (failAt at_ fault : Parser Stmt) fun stmt =>
      stmt.isSmall = true ∧ stmt.line = line := fun _ _ _ _ => (ensures_failAt _ _).mpr trivial
  have hassignment : ∀ line first, Makes (assignment line first) fun stmt =>
      stmt.isSmall = true ∧ stmt.line = line :=
    fun _ _ => .bind fun _ => .bind fun _ => .pure ⟨rfl, rfl⟩
  have hexpression : ∀ ts, Ensures expressionStatement ts fun stmt _ =>
      stmt.isSmall = true ∧ stmt.line = (front ts).position.line := by
    intro ts
    unfold expressionStatement
    rw [ensures_bind, ensures_line]
    refine Makes.bind (fun first => .bind fun l => ?_) ts
    split
    · exact hassignment _ _
    · refine .ite (.bind fun _ => .bind fun _ => .bind fun _ => ?_) (hfailAt _ _ _)
      exact .ite (.bind fun _ => .pure ⟨rfl, rfl⟩) (.pure ⟨rfl, rfl⟩)
    · refine .ite (.ite ?_ (hfailAt _ _ _)) (.pure ⟨rfl, rfl⟩)
      exact .bind fun _ => .bind fun _ => .pure ⟨rfl, rfl⟩
    · exact .pure ⟨rfl, rfl⟩
  unfold smallStatement
  rw [ensures_bind, ensures_line, ensures_bind]
  refine (atTypeAlias_ensures ts).mono fun _ _ hsame => ?_
  subst hsame
  rw [ensures_ite]
  refine ⟨fun _ => Makes.bind (fun _ => .pure ⟨rfl, rfl⟩) _, fun _ => ?_⟩
  rw [ensures_bind, ensures_peek]
  split
  case h_1 => exact Makes.bind (fun _ => .bind fun _ => .pure ⟨rfl, rfl⟩) _
  case h_2 => exact hexpression _

/-- A small statement starts where its parser has started. -/
theorem smallStatement_anchors (h : Begins all ts) : Ensures smallStatement ts fun stmt rest =>
    Anchors all rest ts (nodes [stmt]) := by
  intro stmt rest hread
  obtain ⟨hsmall, hline⟩ := smallStatement_makes ts stmt rest hread
  have hrest := smallStatement_advances.suffix_tail ts stmt rest hread
  cases ts with
  | nil => cases hread
  | cons token ts =>
    have hintroduces : Introduces (token :: ts) stmt := by
      cases stmt with
      | functionDef | classDef | block => cases hsmall
      | assign line =>
        obtain rfl : line = token.position.line := hline
        exact .assign hread
      | simple line =>
        obtain rfl : line = token.position.line := hline
        exact .simple hread
    have hbelow : nodes [stmt] = [stmt] := by
      cases stmt with
      | functionDef | classDef | block => cases hsmall
      | assign | simple => rfl
    rw [hbelow]
    refine .node (List.suffix_refl _) hintroduces h (fun hlarge => ?_) (.done hrest)
    rw [hsmall] at hlarge
    cases hlarge

/-! ## Section 3: Lines and suites -/

/-- Statements in their places, with the logical lines that they end on
    read to their end. -/
structure Places (all ts : List Token) (stmts : List Stmt) (rest : List Token) : Prop where
  anchors : Anchors all rest ts (nodes stmts)
  fresh : Fresh all rest

namespace Places

theorem nil (h : Fresh all ts) : Places all ts [] ts := ⟨.done (List.suffix_refl ts), h⟩

theorem extend (h : Places all us stmts rest) (hsuffix : us <:+ ts) : Places all ts stmts rest :=
  ⟨h.anchors.extend hsuffix, h.fresh⟩

theorem append (h : Places all ts stmts mid) (h' : Places all mid others rest) :
    Places all ts (stmts ++ others) rest :=
  ⟨nodes_append stmts others ▸ h.anchors.append h'.anchors, h'.fresh⟩

/-- A statement in front of what is below it. -/
theorem single (h : Places all us stmt.children rest) (hfresh : Fresh all ts)
    (hintroduces : Introduces ts stmt) (hsuffix : us <:+ ts.tail) : Places all ts [stmt] rest := by
  refine ⟨?_, h.fresh⟩
  rw [nodes_singleton]
  exact .node (List.suffix_refl ts) hintroduces hfresh.begins (fun _ => hfresh)
    (h.anchors.extend hsuffix)

end Places

/-- A round reads a statement, and another one may start behind the
    semicolon. -/
theorem nextSmall_anchors (read : List Stmt) (h : Begins all ts) :
    Ensures (nextSmall read) ts fun next mid => ∃ stmt, Anchors all mid ts (nodes [stmt]) ∧
      match next with
      | .done result => result = stmt :: read
      | .again result => result = stmt :: read ∧ Begins all mid := by
  unfold nextSmall
  rw [ensures_bind]
  refine (smallStatement_anchors h).mono fun stmt mid hstmt => ?_
  have hbehind : Anchors all mid.tail ts (nodes [stmt]) := by
    rw [← List.append_nil (nodes [stmt])]
    exact hstmt.append (.done (List.tail_suffix mid))
  rw [ensures_bind, ensures_accept]
  refine ⟨fun hsemicolon => ?_, fun _ => (ensures_pure _).mpr ⟨stmt, hstmt, rfl⟩⟩
  rw [if_pos rfl, ensures_bind, ensures_peek, ensures_ite, ensures_pure, ensures_pure]
  have hbegins : Begins all mid.tail := .tail (hstmt.suffix.trans h.suffix) hsemicolon rfl
  exact ⟨fun _ => ⟨stmt, hbehind, rfl⟩, fun _ => ⟨stmt, hbehind, rfl, hbegins⟩⟩

theorem smallStatements_anchors (h : Begins all ts) :
    Ensures (loop nextSmall []) ts fun read rest =>
      ∃ stmts : List Stmt, read = stmts.reverse ∧ Anchors all rest ts (nodes stmts) := by
  have hloop : Ensures (loop nextSmall []) ts fun result rest => Begins all ts →
      ∃ stmts : List Stmt, result = stmts.reverse ++ [] ∧ Anchors all rest ts (nodes stmts) := by
    refine @Ensures.loop _ _ nextSmall (fun read ts result rest => Begins all ts →
      ∃ stmts : List Stmt, result = stmts.reverse ++ read ∧ Anchors all rest ts (nodes stmts))
      (fun read ts next mid hread => ?_) [] ts
    cases next with
    | done result =>
      intro hbegins
      obtain ⟨stmt, hstmt, rfl⟩ := nextSmall_anchors read hbegins _ _ hread
      exact ⟨[stmt], rfl, hstmt⟩
    | again read' =>
      intro result rest hbehind hbegins
      obtain ⟨stmt, hstmt, rfl, hmid⟩ := nextSmall_anchors read hbegins _ _ hread
      obtain ⟨stmts, rfl, hstmts⟩ := hbehind hmid
      refine ⟨stmt :: stmts, by simp, ?_⟩
      rw [show stmt :: stmts = [stmt] ++ stmts from rfl, nodes_append]
      exact hstmt.append hstmts
  refine hloop.mono fun read rest hread => ?_
  simpa only [List.append_nil] using hread h

theorem simpleStatements_places (h : Begins all ts) :
    Ensures simpleStatements ts fun stmts rest => Places all ts stmts rest := by
  unfold simpleStatements
  rw [ensures_bind]
  refine (smallStatements_anchors h).mono fun read mid hread => ?_
  obtain ⟨stmts, rfl, hstmts⟩ := hread
  rw [ensures_bind, ensures_expectNewline]
  intro hnewline
  rw [ensures_pure, List.reverse_reverse]
  refine ⟨?_, .tail (hstmts.suffix.trans h.suffix) hnewline rfl (by simp)⟩
  rw [← List.append_nil (nodes stmts)]
  exact hstmts.append (.done (List.tail_suffix mid))

/-- The parsers that the grammar of statements refers back to put
    statements in their places. -/
structure Placing (p : StatementParsers) (all : List Token) : Prop where
  statement : ∀ ts, Fresh all ts →
    Ensures p.statement ts fun stmts rest => Places all ts stmts rest
  conditional : ∀ ts, Fresh all ts →
    BlockKind.conditional.startsWith (front ts).lexeme = true →
    Ensures p.conditional ts fun stmt rest => Places all ts [stmt] rest

/-- A loop that reads statements in their places, each round behind the
    one before. -/
theorem loop_places {σ α : Type} {body : σ → Parser (Next σ α)} (before : σ → List Stmt)
    (made : α → List Stmt)
    (hbody : ∀ state ts, Fresh all ts → Ensures (body state) ts fun next mid =>
      match next with
      | .done a => made a = before state ∧ mid = ts
      | .again state' => ∃ stmts, before state' = before state ++ stmts ∧ Places all ts stmts mid)
    {state : σ} (hstart : before state = []) (h : Fresh all ts) :
    Ensures (loop body state) ts fun a rest => Places all ts (made a) rest := by
  have hloop : Ensures (loop body state) ts fun a rest =>
      Fresh all ts → ∃ stmts, made a = before state ++ stmts ∧ Places all ts stmts rest := by
    refine @Ensures.loop _ _ body (fun state ts a rest =>
      Fresh all ts → ∃ stmts, made a = before state ++ stmts ∧ Places all ts stmts rest)
      (fun state ts next mid hread => ?_) state ts
    cases next with
    | done a =>
      intro hfresh
      obtain ⟨hmade, rfl⟩ := hbody state ts hfresh _ _ hread
      exact ⟨[], by rw [hmade, List.append_nil], .nil hfresh⟩
    | again state' =>
      intro a rest hbehind hfresh
      obtain ⟨stmts, hbefore, hstmts⟩ := hbody state ts hfresh _ _ hread
      obtain ⟨others, hmade, hothers⟩ := hbehind hstmts.fresh
      exact ⟨stmts ++ others, by rw [hmade, hbefore, List.append_assoc], hstmts.append hothers⟩
  refine hloop.mono fun a rest ha => ?_
  obtain ⟨stmts, hmade, hstmts⟩ := ha h
  rw [hmade, hstart]
  exact hstmts

theorem statementsUntil_places {statement : Parser (List Stmt)}
    (hstatement : ∀ ts, Fresh all ts →
      Ensures statement ts fun stmts rest => Places all ts stmts rest)
    (ends : Lexeme → Bool) (h : Fresh all ts) :
    Ensures (statementsUntil ends statement) ts fun stmts rest => Places all ts stmts rest := by
  refine loop_places List.reverse id (fun read ts hfresh => ?_) rfl h
  unfold nextStatement
  rw [ensures_bind, ensures_peek, ensures_ite, ensures_pure, ensures_bind]
  refine ⟨fun _ => ⟨rfl, rfl⟩, fun _ => ?_⟩
  refine (hstatement ts hfresh).mono fun stmts mid hstmts => ?_
  exact (ensures_pure _).mpr ⟨stmts, by simp, hstmts⟩

variable {p : StatementParsers} (hp : Placing p all)

include hp

theorem suite_places (h : Begins all ts) :
    Ensures (suite p) ts fun stmts rest => Places all ts stmts rest := by
  unfold suite
  rw [ensures_bind, ensures_acceptIf]
  refine ⟨fun hnewline => ?_, fun _ => simpleStatements_places h⟩
  have hline : Fresh all ts.tail := .tail h.suffix (beq_iff_eq.mp hnewline) rfl (by simp)
  rw [if_pos rfl, ensures_bind, ensures_acceptIf]
  refine ⟨fun hindent => ?_, fun _ => (ensures_fail _).mpr trivial⟩
  have hblock : Fresh all ts.tail.tail := .tail hline.suffix (beq_iff_eq.mp hindent) rfl (by simp)
  rw [if_pos rfl, ensures_bind]
  refine (statementsUntil_places hp.statement endsBlock hblock).mono fun stmts mid hstmts => ?_
  have hbody : Places all ts stmts mid :=
    hstmts.extend ((List.tail_suffix _).trans (List.tail_suffix ts))
  rw [ensures_bind, ensures_acceptIf]
  simp only [ensures_pure]
  refine ⟨fun hdedent => ?_, fun _ => hbody⟩
  have hbehind : Fresh all mid.tail :=
    .tail hstmts.fresh.suffix (beq_iff_eq.mp hdedent) rfl (by simp)
  rw [← List.append_nil stmts]
  exact hbody.append ((Places.nil hbehind).extend (List.tail_suffix mid))

theorem body_places (h : ts <:+ all) :
    Ensures (body p) ts fun stmts rest => Places all ts stmts rest := by
  unfold body
  rw [ensures_bind, ensures_expect]
  intro hcolon
  refine (suite_places hp (.tail h hcolon rfl)).mono fun stmts rest hstmts => ?_
  exact hstmts.extend (List.tail_suffix ts)

/-- The body of a statement that starts at `ts`, behind its head. -/
theorem owner_places {α : Type} {make : List Stmt → α} {owner : α → Stmt} (h : Fresh all ts)
    (hchildren : ∀ inner, (owner (make inner)).children = inner)
    (hintroduces : ∀ inner, Introduces ts (owner (make inner))) (hus : us <:+ ts.tail) :
    Ensures (do
      let inner ← body p
      pure (make inner)) us fun a rest => Places all ts [owner a] rest := by
  rw [ensures_bind]
  refine (body_places hp (h.behind hus)).mono fun inner rest hinner => ?_
  rw [← hchildren inner] at hinner
  exact (ensures_pure _).mpr (hinner.single h (hintroduces inner) hus)

theorem optionalBody_places (keyword : Keyword) (h : Fresh all ts) :
    Ensures (optionalBody p keyword) ts fun stmts rest => Places all ts (stmts.getD []) rest := by
  unfold optionalBody
  rw [ensures_bind, ensures_acceptKeyword]
  refine ⟨fun _ => ?_, fun _ => (ensures_pure _).mpr (.nil h)⟩
  rw [if_pos rfl, ensures_bind]
  refine (body_places hp (h.behind (List.suffix_refl _))).mono fun stmts rest hstmts => ?_
  exact (ensures_pure _).mpr (hstmts.extend (List.tail_suffix ts))

/-! ## Section 4: Compound statements -/

omit hp in
/-- A block statement starts with a token of its kind. -/
theorem introduces_block {kind : BlockKind} {children : List Stmt}
    (h : kind.startsWith (front ts).lexeme = true) :
    Introduces ts (.block (front ts).position.line kind children) := by
  cases ts with
  | nil => cases kind <;> cases h
  | cons token ts => exact .block h

theorem alternative_places (h : Fresh all ts) :
    Ensures (alternative p) ts fun stmts rest => Places all ts stmts rest := by
  unfold alternative
  rw [ensures_bind, ensures_atKeyword, ensures_ite]
  refine ⟨fun helif => ?_, fun _ => ?_⟩
  · have hfront : BlockKind.conditional.startsWith (front ts).lexeme = true := by
      rw [of_decide_eq_true helif]
      rfl
    rw [ensures_bind]
    refine (hp.conditional ts h hfront).mono fun stmt rest hstmt => ?_
    exact (ensures_pure _).mpr hstmt
  · rw [ensures_bind]
    refine (optionalBody_places hp .else_ h).mono fun stmts rest hstmts => ?_
    exact (ensures_pure _).mpr hstmts

/-- A body and what hangs on it, behind the head of a block statement that
    starts at `ts`. -/
theorem block_places {α : Type} {kind : BlockKind} {hanging : Parser α} {below : α → List Stmt}
    (hhanging : ∀ us, Fresh all us →
      Ensures hanging us fun a rest => Places all us (below a) rest)
    (h : Fresh all ts) (hfront : kind.startsWith (front ts).lexeme = true) (hus : us <:+ ts.tail) :
    Ensures (do
      let first ← body p
      let last ← hanging
      pure (Stmt.block (front ts).position.line kind (first ++ below last))) us
      fun stmt rest => Places all ts [stmt] rest := by
  rw [ensures_bind]
  refine (body_places hp (h.behind hus)).mono fun first mid hfirst => ?_
  rw [ensures_bind]
  refine (hhanging mid hfirst.fresh).mono fun last rest hlast => ?_
  exact (ensures_pure _).mpr ((hfirst.append hlast).single h (introduces_block hfront) hus)

theorem conditional_places (h : Fresh all ts)
    (hfront : BlockKind.conditional.startsWith (front ts).lexeme = true) :
    Ensures (conditional p) ts fun stmt rest => Places all ts [stmt] rest := by
  unfold conditional
  rw [ensures_bind, ensures_line, ensures_bind, ensures_advance, ensures_bind]
  refine ((namedExpression_keeps grammar_keep).suffix ts.tail).mono fun _ mid hmid => ?_
  exact block_places hp (fun _ => alternative_places hp) h hfront hmid

theorem whileLoop_places (h : Fresh all ts) (hfront : (front ts).lexeme = .keyword .while_) :
    Ensures (whileLoop p) ts fun stmt rest => Places all ts [stmt] rest := by
  unfold whileLoop
  rw [ensures_bind, ensures_line, ensures_bind, ensures_advance, ensures_bind]
  refine ((namedExpression_keeps grammar_keep).suffix ts.tail).mono fun _ mid hmid => ?_
  have hstarts : BlockKind.whileLoop.startsWith (front ts).lexeme = true := by
    rw [hfront]
    rfl
  exact block_places hp (fun _ => optionalBody_places hp .else_) h hstarts hmid

/-- A `for` starts at the keyword, or at the `async` before it. -/
theorem forLoop_places {isAsync : Bool} (h : Fresh all ts)
    (hfront : (BlockKind.forLoop isAsync).startsWith (front ts).lexeme = true) (hus : us <:+ ts) :
    Ensures (forLoop p (front ts).position.line isAsync) us
      fun stmt rest => Places all ts [stmt] rest := by
  unfold forLoop
  rw [ensures_bind, ensures_advance, ensures_bind]
  refine ((targets_keeps grammar_keep).suffix us.tail).mono fun _ mid hmid => ?_
  rw [ensures_bind, ensures_expectKeyword]
  intro _
  rw [ensures_bind]
  refine ((starExpressions_keeps grammar_keep).suffix mid.tail).mono fun _ mid' hmid' => ?_
  have hsuffix : mid' <:+ ts.tail :=
    (hmid'.trans ((List.tail_suffix mid).trans hmid)).trans (tail_suffix_tail hus)
  exact block_places hp (fun _ => optionalBody_places hp .else_) h hfront hsuffix

theorem handler_places (h : Fresh all ts) (hfront : (front ts).lexeme = .keyword .except_) :
    Ensures (handler p) ts fun read rest => Places all ts [read.1] rest := by
  have hstarts : BlockKind.handler.startsWith (front ts).lexeme = true := by
    rw [hfront]
    rfl
  have hhandled : ∀ (star : Bool) us, us <:+ ts.tail → Ensures (do
      let handled ← body p
      pure (Stmt.block (front ts).position.line .handler handled, star)) us
      fun read rest => Places all ts [read.1] rest := fun star us hus =>
    @owner_places all ts us p hp _ _ Prod.fst h (fun _ => rfl)
      (fun _ => introduces_block hstarts) hus
  have hbehind : ∀ (star : Bool) us, us <:+ ts.tail → Ensures (do
      unless ← atSymbol .colon do
        let _ ← grammar.expression
        asName
      let handled ← body p
      pure (Stmt.block (front ts).position.line .handler handled, star)) us
      fun read rest => Places all ts [read.1] rest := by
    intro star us hus
    rw [ensures_bind, ensures_atSymbol, ensures_ite]
    refine ⟨fun _ => hhandled star us hus, fun _ => ?_⟩
    rw [ensures_bind]
    refine (grammar_keep.expression.suffix us).mono fun _ mid hmid => ?_
    rw [ensures_bind]
    refine (asName_keeps.suffix mid).mono fun _ mid' hmid' => ?_
    exact hhandled star mid' ((hmid'.trans hmid).trans hus)
  unfold handler
  rw [ensures_bind, ensures_line, ensures_bind, ensures_advance, ensures_bind, ensures_accept]
  exact ⟨fun _ => hbehind true _ (List.tail_suffix _),
    fun _ => hbehind false _ (List.suffix_refl _)⟩

theorem handlers_places (h : Fresh all ts) :
    Ensures (loop (nextHandler p) ([], false)) ts fun read rest => Places all ts read.1 rest := by
  refine loop_places Prod.fst Prod.fst (fun read ts hfresh => ?_) rfl h
  unfold nextHandler
  rw [ensures_bind, ensures_atKeyword, ensures_ite, ensures_bind, ensures_pure]
  refine ⟨fun hexcept => ?_, fun _ => ⟨rfl, rfl⟩⟩
  refine (handler_places hp hfresh (of_decide_eq_true hexcept)).mono fun next mid hnext => ?_
  exact (ensures_pure _).mpr ⟨[next.1], rfl, hnext⟩

theorem tryBlock_places (h : Fresh all ts) (hfront : (front ts).lexeme = .keyword .try_) :
    Ensures (tryBlock p) ts fun stmt rest => Places all ts [stmt] rest := by
  have hstarts : ∀ star, (BlockKind.tryBlock star).startsWith (front ts).lexeme = true := by
    intro star
    rw [hfront]
    rfl
  unfold tryBlock
  rw [ensures_bind, ensures_line, ensures_bind, ensures_advance, ensures_bind]
  refine (body_places hp (h.behind (List.suffix_refl _))).mono fun first mid hfirst => ?_
  rw [ensures_bind]
  refine (handlers_places hp hfirst.fresh).mono fun read mid' hread => ?_
  obtain ⟨handlers, star⟩ := read
  have hboth : Places all ts.tail (first ++ handlers) mid' := hfirst.append hread
  -- An alternative only behind a handler, and a final block.
  have hfinal : ∀ (alternative : Option (List Stmt)) us,
      Places all ts.tail (first ++ handlers ++ alternative.getD []) us → Ensures (do
        let final ← optionalBody p .finally_
        if handlers.isEmpty && final.isNone then fail .missingHandler
        else pure (Stmt.block (front ts).position.line (.tryBlock star)
          (first ++ handlers ++ alternative.getD [] ++ final.getD []))) us
        fun stmt rest => Places all ts [stmt] rest := by
    intro alternative us hus
    rw [ensures_bind]
    refine (optionalBody_places hp .finally_ hus.fresh).mono fun final rest hlast => ?_
    rw [ensures_ite, ensures_fail, ensures_pure]
    refine ⟨fun _ => trivial, fun _ => ?_⟩
    exact (hus.append hlast).single h (introduces_block (hstarts star)) (List.suffix_refl _)
  dsimp only
  rw [ensures_ite]
  refine ⟨fun _ => ?_, fun _ => ?_⟩
  · rw [ensures_bind, ensures_pure]
    exact hfinal none mid' (by simpa using hboth)
  · rw [ensures_bind]
    refine (optionalBody_places hp .else_ hread.fresh).mono fun alternative us halternative => ?_
    exact hfinal alternative us (hboth.append halternative)

/-- A `with` starts at the keyword, or at the `async` before it. -/
theorem withBlock_places {isAsync : Bool} (h : Fresh all ts)
    (hfront : (BlockKind.withBlock isAsync).startsWith (front ts).lexeme = true) (hus : us <:+ ts) :
    Ensures (withBlock p (front ts).position.line isAsync) us
      fun stmt rest => Places all ts [stmt] rest := by
  unfold withBlock
  rw [ensures_bind, ensures_advance, ensures_bind]
  refine (withItems_keeps.suffix us.tail).mono fun _ mid hmid => ?_
  exact owner_places hp h (fun _ => rfl) (fun _ => introduces_block hfront)
    (hmid.trans (tail_suffix_tail hus))

/-- A function starts at `def`, or at the `async` before it. -/
theorem functionDef_places {line : Nat} {isAsync : Bool} (h : Fresh all ts) (hus : us <:+ ts)
    (hintroduces : ∀ name params inner, (front us.tail).lexeme = .name name →
      Introduces ts (.functionDef line isAsync name params inner)) :
    Ensures (functionDef p line isAsync) us fun stmt rest => Places all ts [stmt] rest := by
  unfold functionDef
  rw [ensures_bind, ensures_advance, ensures_bind, ensures_name]
  intro name hname
  have hbody : ∀ (params : Parameters) mid, mid <:+ us.tail → Ensures (do
      let inner ← body p
      pure (Stmt.functionDef line isAsync name params inner)) mid
      fun stmt rest => Places all ts [stmt] rest := by
    intro params mid hmid
    exact owner_places hp h (fun _ => rfl) (fun inner => hintroduces name params inner hname)
      (hmid.trans (tail_suffix_tail hus))
  rw [ensures_bind]
  refine (typeParameters_keeps.suffix us.tail.tail).mono fun _ mid hmid => ?_
  have hmid : mid <:+ us.tail := hmid.trans (List.tail_suffix _)
  rw [ensures_bind, ensures_expect]
  intro _
  rw [ensures_bind]
  refine ((parameters_keeps grammar_keep _ _).suffix mid.tail).mono fun params mid' hmid' => ?_
  have hmid' : mid' <:+ us.tail := hmid'.trans ((List.tail_suffix mid).trans hmid)
  rw [ensures_bind, ensures_expect]
  intro _
  have hclosed : mid'.tail <:+ us.tail := (List.tail_suffix mid').trans hmid'
  rw [ensures_bind, ensures_accept]
  refine ⟨fun _ => ?_, fun _ => hbody params _ hclosed⟩
  rw [if_pos rfl, ensures_bind]
  refine (grammar_keep.expression.suffix _).mono fun _ _ hrest => hbody params _ ?_
  exact hrest.trans ((List.tail_suffix _).trans hclosed)

theorem classDef_places (h : Fresh all ts) (hfront : (front ts).lexeme = .keyword .class_) :
    Ensures (classDef p (front ts).position.line) ts
      fun stmt rest => Places all ts [stmt] rest := by
  unfold classDef
  rw [ensures_bind, ensures_advance, ensures_bind, ensures_name]
  intro name hname
  have hintroduces : ∀ inner, Introduces ts (.classDef (front ts).position.line name inner) := by
    obtain ⟨p, hts⟩ := eq_cons_of_front hfront (by simp)
    obtain ⟨q, htail⟩ := eq_cons_of_front hname (by simp)
    rw [hts, htail]
    exact fun _ => .class_
  have hbody : ∀ mid, mid <:+ ts.tail → Ensures (do
      let inner ← body p
      pure (Stmt.classDef (front ts).position.line name inner)) mid
      fun stmt rest => Places all ts [stmt] rest :=
    fun mid hmid => owner_places hp h (fun _ => rfl) hintroduces hmid
  rw [ensures_bind]
  refine (typeParameters_keeps.suffix ts.tail.tail).mono fun _ mid hmid => ?_
  have hmid : mid <:+ ts.tail := hmid.trans (List.tail_suffix _)
  rw [ensures_bind, ensures_atSymbol, ensures_ite]
  refine ⟨fun _ => ?_, fun _ => hbody mid hmid⟩
  rw [ensures_bind]
  exact ((arguments_keeps grammar_keep).suffix mid).mono fun _ rest hrest => hbody rest (hrest.trans hmid)

/-- A `def` at the front. -/
theorem syncFunction_places (h : Fresh all ts) (hfront : (front ts).lexeme = .keyword .def_) :
    Ensures (functionDef p (front ts).position.line false) ts
      fun stmt rest => Places all ts [stmt] rest := by
  refine functionDef_places hp h (List.suffix_refl ts) fun name params inner hname => ?_
  obtain ⟨p, hts⟩ := eq_cons_of_front hfront (by simp)
  obtain ⟨q, htail⟩ := eq_cons_of_front hname (by simp)
  rw [hts, htail]
  exact .function

/-- An `async` at the front, and a `def` behind it. -/
theorem asyncFunction_places (h : Fresh all ts) (hfront : (front ts).lexeme = .keyword .async_)
    (hsecond : (front ts.tail).lexeme = .keyword .def_) :
    Ensures (functionDef p (front ts).position.line true) ts.tail
      fun stmt rest => Places all ts [stmt] rest := by
  refine functionDef_places hp h (List.tail_suffix ts) fun name params inner hname => ?_
  obtain ⟨p, hts⟩ := eq_cons_of_front hfront (by simp)
  obtain ⟨q, htail⟩ := eq_cons_of_front hsecond (by simp)
  obtain ⟨r, htail'⟩ := eq_cons_of_front hname (by simp)
  rw [hts, htail, htail']
  exact .asyncFunction

/-- Decorators are on lines of their own. -/
theorem decorated_places (h : Fresh all ts) :
    Ensures (decorated p) ts fun stmt rest => Places all ts [stmt] rest := by
  unfold decorated nextDecorator
  rw [ensures_bind]
  refine (Ensures.repeatWhile (fun ts rest => Fresh all ts → Fresh all rest ∧ rest <:+ ts)
    (fun ts => ?_) ts).mono fun _ us hus => ?_
  · rw [ensures_bind, ensures_accept]
    refine ⟨fun _ => ?_, fun _ => ?_⟩
    · rw [if_pos rfl, ensures_bind]
      refine ((namedExpression_keeps grammar_keep).suffix ts.tail).mono fun _ mid hmid => ?_
      have hmid : mid <:+ ts := hmid.trans (List.tail_suffix ts)
      rw [ensures_bind, ensures_expectNewline]
      intro hnewline
      rw [ensures_pure]
      intro rest hbehind hts
      have hline : Fresh all mid.tail := .tail (hmid.trans hts.suffix) hnewline rfl (by simp)
      obtain ⟨hrest, hsuffix⟩ := hbehind hline
      exact ⟨hrest, hsuffix.trans ((List.tail_suffix mid).trans hmid)⟩
    · rw [if_neg Bool.false_ne_true, ensures_pure]
      exact fun hts => ⟨hts, List.suffix_refl ts⟩
  obtain ⟨hfresh, hsuffix⟩ := hus h
  have hextend : ∀ {q : Parser Stmt} {ts' : List Token},
      Ensures q ts' (fun stmt rest => Places all us [stmt] rest) →
      Ensures q ts' fun stmt rest => Places all ts [stmt] rest :=
    fun hq => hq.mono fun _ _ hstmt => hstmt.extend hsuffix
  rw [ensures_bind, ensures_line, ensures_bind, ensures_peekSecond, ensures_bind, ensures_peek]
  split
  case h_1 hfront => exact hextend (syncFunction_places hp hfresh hfront)
  case h_2 hfront => exact hextend (classDef_places hp hfresh hfront)
  case h_3 hfront =>
    rw [ensures_ite, ensures_fail, ensures_bind, ensures_advance]
    refine ⟨fun hsecond => ?_, fun _ => trivial⟩
    exact hextend (asyncFunction_places hp hfresh hfront (beq_iff_eq.mp hsecond))
  case h_4 => exact (ensures_fail _).mpr trivial

theorem asyncStatement_places (h : Fresh all ts) (hfront : (front ts).lexeme = .keyword .async_) :
    Ensures (asyncStatement p) ts fun stmt rest => Places all ts [stmt] rest := by
  unfold asyncStatement
  rw [ensures_bind, ensures_line, ensures_bind, ensures_advance, ensures_bind, ensures_peek]
  split
  case h_1 hsecond => exact asyncFunction_places hp h hfront hsecond
  case h_2 => exact forLoop_places hp h (by rw [hfront]; rfl) (List.tail_suffix ts)
  case h_3 => exact withBlock_places hp h (by rw [hfront]; rfl) (List.tail_suffix ts)
  case h_4 => exact (ensures_fail _).mpr trivial

/-! ## Section 5: Matching -/

omit hp in
/-- A pattern is skipped with the colon behind it. -/
theorem skipPattern_begins (isEmpty : Bool) (depth : Int) (ts : List Token) :
    Ensures (skipPattern isEmpty depth) ts fun _ rest => ∃ token : Token,
      token :: rest <:+ ts ∧ token.lexeme = .symbol .colon := by
  induction ts generalizing isEmpty depth with
  | nil => exact (ensures_fail _).mpr trivial
  | cons token ts ih =>
    intro a rest hread
    unfold skipPattern at hread
    split at hread
    case h_1 | h_2 => cases hread
    case h_3 =>
      split at hread
      case isTrue hcolon =>
        split at hread
        case isTrue => cases hread
        case isFalse =>
          cases hread
          simp only [Bool.and_eq_true, beq_iff_eq] at hcolon
          exact ⟨token, List.suffix_refl _, hcolon.2⟩
      case isFalse =>
        obtain ⟨colon, hsuffix, hcolon⟩ := ih _ _ _ _ hread
        exact ⟨colon, hsuffix.trans (List.suffix_cons token ts), hcolon⟩

theorem matchCase_places (h : Fresh all ts)
    (hfront : (front ts).lexeme = .name SoftKeyword.case_) :
    Ensures (matchCase p) ts fun stmt rest => Places all ts [stmt] rest := by
  have hstarts : BlockKind.matchCase.startsWith (front ts).lexeme = true := by
    rw [hfront]
    rfl
  unfold matchCase
  rw [ensures_bind, ensures_line, ensures_bind, ensures_advance, ensures_bind]
  refine (skipPattern_begins true 0 ts.tail).mono fun _ mid hpattern => ?_
  obtain ⟨colon, hsuffix, hcolon⟩ := hpattern
  have hbegins : Begins all mid := .of_cons (h.behind hsuffix) (hcolon ▸ rfl)
  rw [ensures_bind]
  refine (suite_places hp hbegins).mono fun stmts rest hstmts => ?_
  exact (ensures_pure _).mpr (hstmts.single h (introduces_block hstarts)
    ((List.suffix_cons colon mid).trans hsuffix))

theorem cases_places (h : Fresh all ts) :
    Ensures (loop (nextCase p) []) ts fun stmts rest => Places all ts stmts rest := by
  refine loop_places List.reverse id (fun read ts hfresh => ?_) rfl h
  unfold nextCase
  rw [ensures_bind, ensures_peek, ensures_ite, ensures_pure, ensures_bind]
  refine ⟨fun hcase => ?_, fun _ => ⟨rfl, rfl⟩⟩
  refine (matchCase_places hp hfresh (beq_iff_eq.mp hcase)).mono fun next mid hnext => ?_
  exact (ensures_pure _).mpr ⟨[next], by simp, hnext⟩

theorem matchBlock_places (h : Fresh all ts)
    (hfront : BlockKind.matchBlock.startsWith (front ts).lexeme = true) :
    Ensures (matchBlock p) ts fun stmt rest => Places all ts [stmt] rest := by
  unfold matchBlock
  rw [ensures_bind, ensures_line, ensures_bind, ensures_advance, ensures_bind]
  refine ((starExpressions_keeps grammar_keep).suffix ts.tail).mono fun _ mid hmid => ?_
  rw [ensures_bind, ensures_expect]
  intro _
  rw [ensures_bind, ensures_expectNewline]
  intro hnewline
  have hcolon : mid.tail <:+ ts.tail := (List.tail_suffix mid).trans hmid
  have hline : Fresh all mid.tail.tail :=
    .tail (h.behind hcolon) hnewline rfl (by simp)
  rw [ensures_bind, ensures_acceptIf]
  refine ⟨fun hindent => ?_, fun _ => (ensures_fail _).mpr trivial⟩
  have hblock : Fresh all mid.tail.tail.tail :=
    .tail hline.suffix (beq_iff_eq.mp hindent) rfl (by simp)
  have hsuffix : mid.tail.tail.tail <:+ ts.tail :=
    (List.tail_suffix _).trans ((List.tail_suffix _).trans hcolon)
  rw [if_pos rfl, ensures_bind]
  refine (cases_places hp hblock).mono fun stmts behind hstmts => ?_
  rw [ensures_ite, ensures_fail, ensures_bind, ensures_acceptIf]
  refine ⟨fun _ => trivial, fun _ => ⟨fun hdedent => ?_, fun _ => (ensures_fail _).mpr trivial⟩⟩
  have hbehind : Fresh all behind.tail :=
    .tail hstmts.fresh.suffix (beq_iff_eq.mp hdedent) rfl (by simp)
  rw [if_pos rfl, ensures_pure]
  have hcases : Places all mid.tail.tail.tail (stmts ++ []) behind.tail :=
    hstmts.append ((Places.nil hbehind).extend (List.tail_suffix behind))
  rw [List.append_nil] at hcases
  exact hcases.single h (introduces_block hfront) hsuffix

/-! ## Section 6: The knot -/

theorem compound?_places {parser : Parser Stmt} (h : Fresh all ts)
    (hparser : compound? p (front ts).lexeme = some parser) :
    Ensures parser ts fun stmt rest => Places all ts [stmt] rest := by
  unfold compound? at hparser
  split at hparser
  case h_1 hfront =>
    cases hparser
    exact conditional_places hp h (by rw [hfront]; rfl)
  case h_2 hfront =>
    cases hparser
    exact whileLoop_places hp h hfront
  case h_3 hfront =>
    cases hparser
    rw [ensures_bind, ensures_line]
    exact forLoop_places hp h (by rw [hfront]; rfl) (List.suffix_refl ts)
  case h_4 hfront =>
    cases hparser
    exact tryBlock_places hp h hfront
  case h_5 hfront =>
    cases hparser
    rw [ensures_bind, ensures_line]
    exact withBlock_places hp h (by rw [hfront]; rfl) (List.suffix_refl ts)
  case h_6 hfront =>
    cases hparser
    rw [ensures_bind, ensures_line]
    exact syncFunction_places hp h hfront
  case h_7 hfront =>
    cases hparser
    rw [ensures_bind, ensures_line]
    exact classDef_places hp h hfront
  case h_8 hfront =>
    cases hparser
    exact asyncStatement_places hp h hfront
  case h_9 =>
    cases hparser
    exact decorated_places hp h
  case h_10 =>
    cases hparser
    exact (ensures_fail _).mpr trivial
  case h_11 => cases hparser

omit hp in
/-- Whether a `match` follows is only looked for. -/
theorem atMatch_ensures (ts : List Token) : Ensures atMatch ts fun found rest =>
    rest = ts ∧ (found = true → BlockKind.matchBlock.startsWith (front ts).lexeme = true) := by
  obtain ⟨found, hlook, hfound⟩ := atMatch_eq_ok ts
  refine .of_ok hlook ⟨rfl, fun hmatch => ?_⟩
  obtain ⟨at_, us, rfl, _⟩ := hfound hmatch
  rfl

theorem statement_places (h : Fresh all ts) :
    Ensures (statement p) ts fun stmts rest => Places all ts stmts rest := by
  unfold statement
  rw [ensures_bind]
  refine (atMatch_ensures ts).mono fun found _ hfound => ?_
  obtain ⟨rfl, hfound⟩ := hfound
  rw [ensures_ite]
  refine ⟨fun hmatch => ?_, fun _ => ?_⟩
  · rw [ensures_bind]
    refine (matchBlock_places hp h (hfound hmatch)).mono fun stmt rest hstmt => ?_
    exact (ensures_pure _).mpr hstmt
  rw [ensures_bind, ensures_peek]
  split
  case h_1 parser hparser =>
    rw [ensures_bind]
    refine (compound?_places hp h hparser).mono fun stmt rest hstmt => ?_
    exact (ensures_pure _).mpr hstmt
  case h_2 => exact simpleStatements_places h.begins

omit hp in
theorem statementsUpTo_placing (fuel all : List Token) : Placing (statementsUpTo fuel) all := by
  induction fuel with
  | nil =>
    exact ⟨fun _ _ => ensures_spent.mpr trivial, fun _ _ _ => ensures_spent.mpr trivial⟩
  | cons _ fuel ih => exact ⟨fun _ => statement_places ih, fun _ => conditional_places ih⟩

end Grammar

theorem Module.parser_keeps : Keeps parser := by
  refine .loop (fun read => ?_) []
  unfold Grammar.nextStatement
  exact .bind .peek fun _ => .ite (.pure _) (.bind statementGrammar_advances.keeps fun _ => .pure _)

/-- Where the tree of a token stream comes from. -/
theorem Module.ofTokens_eq_ok {tokens : List Token} {m : Module} (h : ofTokens tokens = .ok m) :
    ∃ rest, parser (withEndMarker tokens) = .ok (m, rest) := by
  unfold ofTokens at h
  split at h
  case h_1 m' rest raised hread =>
    obtain rfl := Except.ok.inj h
    exact ⟨_, parser_keeps.tidy.eq_ok (by rw [hread])⟩
  case h_2 => cases h

/-- Where the tree of a source comes from. -/
theorem Module.ofSource_eq_ok {source : Text} {m : Module} (h : ofSource source = .ok m) :
    ∃ tokens, tokenize source = .ok tokens ∧ ofTokens tokens = .ok m := by
  unfold ofSource at h
  cases htokens : tokenize source with
  | error e =>
    rw [htokens] at h
    cases h
  | ok tokens =>
    rw [htokens] at h
    exact ⟨tokens, rfl, h⟩

/-- **The tokens of a tree.**  Every statement of the tree of a token
    stream starts at a token of its own, on the line of that token, and
    the tokens come in the order of the statements. -/
theorem anchors_of_ofTokens {tokens : List Token} {m : Module}
    (h : Module.ofTokens tokens = .ok m) :
    ∃ rest, Anchors (Module.withEndMarker tokens) rest (Module.withEndMarker tokens) (nodes m) := by
  have hfresh : Fresh (Module.withEndMarker tokens) (Module.withEndMarker tokens) :=
    ⟨[], rfl, fun _ hnone => by cases hnone⟩
  have hstatement : ∀ ts, Fresh (Module.withEndMarker tokens) ts →
      Ensures statementGrammar.statement ts
        fun stmts rest => Grammar.Places (Module.withEndMarker tokens) ts stmts rest :=
    fun ts hts => (Grammar.statement_places (Grammar.statementsUpTo_placing ts _) hts).congr rfl
  have hmodule := Grammar.statementsUntil_places hstatement (· == .endMarker) hfresh
  obtain ⟨rest, hread⟩ := Module.ofTokens_eq_ok h
  exact ⟨rest, (hmodule m rest hread).anchors⟩

/-- The tokens of a source end with an end marker already. -/
theorem Module.withEndMarker_of_tokenize {source : Text} {tokens : List Token}
    (h : tokenize source = .ok tokens) : withEndMarker tokens = tokens := by
  obtain ⟨s, _, _, hfinish⟩ := Scan.tokenize_eq_ok h
  obtain ⟨_, rfl⟩ := Scan.finish_eq_ok hfinish
  unfold withEndMarker Scan.lastTokens
  simp

/-- The statements of an accepted source start at tokens of the source. -/
theorem introduces_of_ofSource {source : Text} {m : Module} (h : Module.ofSource source = .ok m) :
    ∃ tokens, tokenize source = .ok tokens ∧ ∀ stmt ∈ nodes m, ∃ us, Introduces us stmt ∧
      Begins tokens us ∧ (stmt.isSmall = false → Fresh tokens us) := by
  obtain ⟨tokens, htokens, htree⟩ := Module.ofSource_eq_ok h
  obtain ⟨rest, hanchors⟩ := anchors_of_ofTokens htree
  rw [Module.withEndMarker_of_tokenize htokens] at hanchors
  refine ⟨tokens, htokens, fun stmt hmem => ?_⟩
  obtain ⟨us, _, hstmt⟩ := hanchors.exists_introduces hmem
  exact ⟨us, hstmt⟩

end StyleCheck
