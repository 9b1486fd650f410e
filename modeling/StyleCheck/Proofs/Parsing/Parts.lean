import StyleCheck.Proofs.Parsing.Name
import StyleCheck.Proofs.Parsing.Outline

/-! # Reading Parts Back

    For every part of an outline, `IsRead` says what the parser of that
    part makes of its tokens, with anything behind them that does not
    continue the part.  This module has a lemma for each way to build a
    part that is no statement from others: suites, what hangs on them,
    and lists of statements, handlers and cases.

    The parsers refer back to statements and conditionals through a
    record.  Two lemmas follow it, `single_isRead` with `cons_isRead`
    and `elif_isRead`; all others are about one record.
-/

namespace StyleCheck

open StyleCheck.Parser StyleCheck.Grammar

/-! ## Section 1: What is read -/

/-- The keywords that go on with a statement behind one of its suites. -/
def Lexeme.continues : Lexeme → Bool
  | .keyword .elif_ | .keyword .else_ | .keyword .except_ | .keyword .finally_ => true
  | _ => false

theorem ne_keyword_of_continues {l : Lexeme} {keyword : Keyword} (h : l.continues = false)
    (hkeyword : (Lexeme.keyword keyword).continues = true) : l ≠ .keyword keyword := by
  rintro rfl
  rw [h] at hkeyword
  cases hkeyword

namespace Outline

/-- The parser of a part takes its tokens to its tree.  A part that can
    go on must not have behind it what it goes on with; a list of parts
    is read in rounds, to whatever has been read before. -/
def IsRead (p : StatementParsers) : {part : Part} → Outline part → Prop
  | .statement, o => ∀ rest, (front rest).lexeme.continues = false →
      Grammar.statement p (o.tokens ++ rest) = .ok (o.tree, rest)
  | .block, o => ∀ read rest, endsBlock (front rest).lexeme = true →
      Rounds (nextStatement endsBlock p.statement) read (o.tokens ++ rest)
        (read.reverse ++ o.tree) rest
  | .suite, o => ∀ rest, Grammar.body p (o.tokens ++ rest) = .ok (o.tree, rest)
  | .branch, o => ∀ rest, (front rest).lexeme.continues = false →
      alternative p (o.tokens ++ rest) = .ok (o.tree, rest)
  | .tail keyword, o => ∀ rest, (front rest).lexeme ≠ .keyword keyword →
      ∃ read, optionalBody p keyword (o.tokens ++ rest) = .ok (read, rest) ∧
        read.getD [] = o.tree
  | .handler, o => ∃ stmt, o.tree = [stmt] ∧ ∀ rest,
      Grammar.handler p (o.tokens ++ rest) = .ok ((stmt, o.hasStar), rest)
  | .handlers, o => o.tree ≠ [] ∧ ∀ read rest, (front rest).lexeme ≠ .keyword .except_ →
      Rounds (nextHandler p) read (o.tokens ++ rest) (read.1 ++ o.tree, read.2 || o.hasStar) rest
  | .case, o => ∃ stmt, o.tree = [stmt] ∧ ∀ rest,
      matchCase p (o.tokens ++ rest) = .ok (stmt, rest)
  | .cases, o => o.tree ≠ [] ∧ ∀ read rest, (front rest).lexeme = .dedent →
      Rounds (nextCase p) read (o.tokens ++ rest) (read.reverse ++ o.tree) rest

/-! ## Section 2: The first token -/

/-- What a part starts with, if it cannot be left out. -/
def Starts : Part → Lexeme → Prop
  | .statement, l | .block, l => endsBlock l = false ∧ l.continues = false
  | .suite, l => l = .symbol .colon
  | .handler, l | .handlers, l => l = .keyword .except_
  | .case, l | .cases, l => l = .name SoftKeyword.case_
  | .branch, _ | .tail _, _ => True

theorem starts_front {part : Part} (o : Outline part) :
    ∀ rest, Starts part (front (o.tokens ++ rest)).lexeme := by
  induction o with
  | jump word => cases word <;> exact fun _ => ⟨rfl, rfl⟩
  | name => simp [Starts, endsBlock, Lexeme.continues]
  | assign => simp [Names.tokens, Starts, endsBlock, Lexeme.continues]
  | conditional => exact fun _ => ⟨rfl, rfl⟩
  | whileLoop => exact fun _ => ⟨rfl, rfl⟩
  | forLoop async => cases async <;> exact fun _ => ⟨rfl, rfl⟩
  | tryHandled => exact fun _ => ⟨rfl, rfl⟩
  | tryFinal => exact fun _ => ⟨rfl, rfl⟩
  | withBlock async => cases async <;> exact fun _ => ⟨rfl, rfl⟩
  | functionDef async => cases async <;> exact fun _ => ⟨rfl, rfl⟩
  | classDef => exact fun _ => ⟨rfl, rfl⟩
  | matchBlock => exact fun _ => ⟨rfl, rfl⟩
  | single _ ih => exact ih
  | cons _ stmts ih _ =>
    intro rest
    rw [tokens, List.append_assoc]
    exact ih (stmts.tokens ++ rest)
  | suite => exact fun _ => rfl
  | absent => exact fun _ => trivial
  | present => exact fun _ => trivial
  | otherwise => exact fun _ => trivial
  | elif => exact fun _ => trivial
  | handler => exact fun _ => rfl
  | singleHandler _ ih => exact ih
  | consHandler _ others ih _ =>
    intro rest
    rw [tokens, List.append_assoc]
    exact ih (others.tokens ++ rest)
  | case => exact fun _ => rfl
  | singleCase _ ih => exact ih
  | consCase _ others ih _ =>
    intro rest
    rw [tokens, List.append_assoc]
    exact ih (others.tokens ++ rest)

/-- The parts that may be left out. -/
def MayBeAbsent : Part → Prop
  | .branch | .tail _ => True
  | .statement | .block | .suite | .handler | .handlers | .case | .cases => False

/-- Only a part that may be left out can be empty. -/
theorem length_tokens_pos {part : Part} (o : Outline part) (hpart : ¬ MayBeAbsent part) :
    0 < o.tokens.length := by
  have hstart := o.starts_front []
  by_cases hnil : o.tokens = []
  · -- An empty stream is read like an end marker, and no part starts with one.
    rw [hnil] at hstart
    cases part with
    | branch | tail => exact absurd trivial hpart
    | statement | block => cases hstart.1
    | suite | handler | handlers | case | cases => cases hstart
  · exact List.length_pos_iff.mpr hnil

theorem length_lt_append {part : Part} (o : Outline part) (hpart : ¬ MayBeAbsent part)
    (rest : List Token) : rest.length < (o.tokens ++ rest).length := by
  have hpos := o.length_tokens_pos hpart
  rw [List.length_append]
  omega

/-- A suite ends the expression before it. -/
theorem endsExpression_front (body : Outline .suite) (rest : List Token) :
    endsExpression (front (body.tokens ++ rest)).lexeme = true := by
  have h : (front (body.tokens ++ rest)).lexeme = .symbol .colon := body.starts_front rest
  rw [h]
  rfl

/-- Behind a suite that may be left out comes its keyword, or what comes
    behind all of it. -/
theorem front_tail_ne {keyword : Keyword} (o : Outline (.tail keyword)) {l : Lexeme}
    {rest : List Token} (hkeyword : .keyword keyword ≠ l) (h : (front rest).lexeme ≠ l) :
    (front (o.tokens ++ rest)).lexeme ≠ l := by
  cases o with
  | absent => exact h
  | present => exact hkeyword

/-! ## Section 3: Suites and what hangs on them -/

variable {p : StatementParsers}

theorem suite_isRead {frame : Frame} {block : Outline .block} (h : block.IsRead p) :
    (suite frame block).IsRead p := by
  intro rest
  -- The block ends at its dedent, which is then read.
  have hrounds := h [] (⟨.dedent, frame.dedent⟩ :: rest) rfl
  rw [List.reverse_nil, List.nil_append] at hrounds
  have hloop : statementsUntil endsBlock p.statement
      (block.tokens ++ ⟨.dedent, frame.dedent⟩ :: rest) =
        .ok (block.tree, ⟨.dedent, frame.dedent⟩ :: rest) := loop_of_rounds hrounds
  unfold Grammar.body Grammar.suite
  simp [Frame.around, hloop]

theorem absent_isRead {keyword : Keyword} : (absent keyword).IsRead p := by
  intro rest hrest
  refine ⟨none, ?_, rfl⟩
  unfold optionalBody
  simp [hrest]

theorem present_isRead {keyword : Keyword} {start : Position} {body : Outline .suite}
    (hbody : body.IsRead p) : (present keyword start body).IsRead p := by
  intro rest _
  refine ⟨some body.tree, ?_, rfl⟩
  unfold optionalBody
  simp [hbody rest]

theorem otherwise_isRead {last : Outline (.tail .else_)} (hlast : last.IsRead p) :
    (otherwise last).IsRead p := by
  intro rest hrest
  have helse : (front rest).lexeme ≠ .keyword .else_ := ne_keyword_of_continues hrest rfl
  have helif : (front (last.tokens ++ rest)).lexeme ≠ .keyword .elif_ :=
    last.front_tail_ne (by decide) (ne_keyword_of_continues hrest rfl)
  obtain ⟨read, hread, htree⟩ := hlast rest helse
  unfold alternative
  simp [helif, hread, htree]

/-- A conditional from its keyword on, be it `if` or `elif`. -/
theorem conditional_read {keyword : Keyword} {start : Position} {test : Identifier}
    {body : Outline .suite} {branch : Outline .branch} (hbody : body.IsRead p)
    (hbranch : branch.IsRead p) {rest : List Token}
    (hrest : (front rest).lexeme.continues = false) :
    Grammar.conditional p (⟨.keyword keyword, start⟩ :: ⟨.name test.text, test.position⟩ ::
        (body.tokens ++ (branch.tokens ++ rest))) =
      .ok (.block start.line .conditional (body.tree ++ branch.tree), rest) := by
  have htest := namedExpression_name test.text test.position
    (body.endsExpression_front (branch.tokens ++ rest)) (by rw [body.starts_front]; decide)
  unfold Grammar.conditional
  simp [htest, hbody (branch.tokens ++ rest), hbranch rest hrest]

theorem elif_isRead {p' : StatementParsers}
    (hp : ∀ ts, p.conditional ts = Grammar.conditional p' ts) {start : Position} {test : Identifier}
    {body : Outline .suite} {branch : Outline .branch} (hbody : body.IsRead p')
    (hbranch : branch.IsRead p') :
    (elif start test body branch).IsRead p := by
  intro rest hrest
  unfold alternative
  simp [hp, conditional_read hbody hbranch hrest]

/-! ## Section 4: Lists of parts -/

/-- The round that reads a statement. -/
theorem nextStatement_read {ends : Lexeme → Bool} {reader : Parser (List Stmt)}
    {stmt : Outline .statement} {rest : List Token}
    (hstart : ends (front (stmt.tokens ++ rest)).lexeme = false)
    (hread : reader (stmt.tokens ++ rest) = .ok (stmt.tree, rest)) (read : List Stmt) :
    nextStatement ends reader read (stmt.tokens ++ rest) =
      .ok (.again (stmt.tree.reverse ++ read), rest) := by
  unfold nextStatement
  simp [hstart, hread]

theorem single_isRead {p' : StatementParsers} (hp : ∀ ts, p.statement ts = Grammar.statement p' ts)
    {stmt : Outline .statement} (hstmt : stmt.IsRead p') : (single stmt).IsRead p := by
  intro read rest hrest
  -- What ends a block goes on with no statement.
  have hcontinues : (front rest).lexeme.continues = false := by
    unfold endsBlock at hrest
    split at hrest <;> simp_all [Lexeme.continues]
  have hread : p.statement (stmt.tokens ++ rest) = .ok (stmt.tree, rest) := by
    rw [hp]
    exact hstmt rest hcontinues
  have hround := nextStatement_read (stmt.starts_front rest).1 hread read
  have hlength := stmt.length_lt_append id rest
  have hdone : nextStatement endsBlock p.statement (stmt.tree.reverse ++ read) rest =
      .ok (.done (read.reverse ++ stmt.tree), rest) := by
    unfold nextStatement
    simp [hrest]
  exact .again hround hlength (.done hdone)

theorem cons_isRead {p' : StatementParsers} (hp : ∀ ts, p.statement ts = Grammar.statement p' ts)
    {stmt : Outline .statement} {stmts : Outline .block} (hstmt : stmt.IsRead p')
    (hstmts : stmts.IsRead p) : (cons stmt stmts).IsRead p := by
  intro read rest hrest
  have hread : p.statement (stmt.tokens ++ (stmts.tokens ++ rest)) =
      .ok (stmt.tree, stmts.tokens ++ rest) := by
    rw [hp]
    exact hstmt _ (stmts.starts_front rest).2
  have hround := nextStatement_read (stmt.starts_front _).1 hread read
  have hlength := stmt.length_lt_append id (stmts.tokens ++ rest)
  have hrounds := hstmts (stmt.tree.reverse ++ read) rest hrest
  rw [List.reverse_append, List.reverse_reverse, List.append_assoc] at hrounds
  rw [tokens, tree, List.append_assoc]
  exact .again hround hlength hrounds

theorem handler_isRead {start : Position} {star : Option Position} {kind : Option Identifier}
    {body : Outline .suite} (hbody : body.IsRead p) :
    (handler start star kind body).IsRead p := by
  refine ⟨_, rfl, ?_⟩
  intro rest
  have hcolon : (front (body.tokens ++ rest)).lexeme = .symbol .colon := body.starts_front rest
  unfold Grammar.handler
  cases kind with
  | none => cases star <;> simp [hcolon, hbody rest]
  | some x =>
    have hkind := grammar_expression_name x.text x.position (body.endsExpression_front rest)
    cases star <;> simp [asName, hcolon, hkind, hbody rest]

/-- The round that reads a handler. -/
theorem nextHandler_read {first : Outline .handler} (hfirst : first.IsRead p)
    (read : List Stmt × Bool) (rest : List Token) :
    nextHandler p read (first.tokens ++ rest) =
      .ok (.again (read.1 ++ first.tree, read.2 || first.hasStar), rest) := by
  obtain ⟨stmt, htree, hread⟩ := hfirst
  have hstart : (front (first.tokens ++ rest)).lexeme = .keyword .except_ := first.starts_front rest
  unfold nextHandler
  simp [hstart, hread rest, htree]

theorem singleHandler_isRead {first : Outline .handler} (hfirst : first.IsRead p) :
    (singleHandler first).IsRead p := by
  refine ⟨?_, ?_⟩
  · obtain ⟨stmt, htree, _⟩ := hfirst
    simp [htree]
  · intro read rest hrest
    have hlength := first.length_lt_append id rest
    have hdone : ∀ state, nextHandler p state rest = .ok (.done state, rest) := by
      intro state
      unfold nextHandler
      simp [hrest]
    exact .again (nextHandler_read hfirst read rest) hlength (.done (hdone _))

theorem consHandler_isRead {first : Outline .handler} {others : Outline .handlers}
    (hfirst : first.IsRead p) (hothers : others.IsRead p) :
    (consHandler first others).IsRead p := by
  refine ⟨?_, ?_⟩
  · rw [tree]
    exact List.append_ne_nil_of_right_ne_nil _ hothers.1
  · intro read rest hrest
    have hlength := first.length_lt_append id (others.tokens ++ rest)
    have hrounds := hothers.2 (read.1 ++ first.tree, read.2 || first.hasStar) rest hrest
    rw [List.append_assoc, Bool.or_assoc] at hrounds
    rw [tokens, tree, hasStar, List.append_assoc]
    exact .again (nextHandler_read hfirst read _) hlength hrounds

theorem case_isRead {start : Position} {pattern : Identifier} {body : Outline .suite}
    (hbody : body.IsRead p) : (case start pattern body).IsRead p := by
  refine ⟨_, rfl, ?_⟩
  intro rest
  cases body with
  | suite frame block =>
    -- The colon is read with the pattern, and not with the suite.
    have hsuite : Grammar.suite p (⟨.newline, frame.newline⟩ :: ⟨.indent, frame.indent⟩
        :: (block.tokens ++ ⟨.dedent, frame.dedent⟩ :: rest)) = .ok (block.tree, rest) := by
      have hbody := hbody rest
      unfold Grammar.body at hbody
      simpa [Frame.around] using hbody
    unfold matchCase
    simp [Frame.around, skipPattern, Lexeme.depthChange, hsuite]

/-- The round that reads a case. -/
theorem nextCase_read {first : Outline .case} (hfirst : first.IsRead p) (read : List Stmt)
    (rest : List Token) : nextCase p read (first.tokens ++ rest) =
      .ok (.again (first.tree.reverse ++ read), rest) := by
  obtain ⟨stmt, htree, hread⟩ := hfirst
  have hstart : (front (first.tokens ++ rest)).lexeme = .name SoftKeyword.case_ :=
    first.starts_front rest
  unfold nextCase
  simp [hstart, hread rest, htree]

theorem singleCase_isRead {first : Outline .case} (hfirst : first.IsRead p) :
    (singleCase first).IsRead p := by
  refine ⟨?_, ?_⟩
  · obtain ⟨stmt, htree, _⟩ := hfirst
    simp [htree]
  · intro read rest hrest
    have hlength := first.length_lt_append id rest
    have hdone : nextCase p (first.tree.reverse ++ read) rest =
        .ok (.done (read.reverse ++ first.tree), rest) := by
      unfold nextCase
      simp [hrest]
    exact .again (nextCase_read hfirst read rest) hlength (.done hdone)

theorem consCase_isRead {first : Outline .case} {others : Outline .cases}
    (hfirst : first.IsRead p) (hothers : others.IsRead p) : (consCase first others).IsRead p := by
  refine ⟨?_, ?_⟩
  · rw [tree]
    exact List.append_ne_nil_of_right_ne_nil _ hothers.1
  · intro read rest hrest
    have hlength := first.length_lt_append id (others.tokens ++ rest)
    have hrounds := hothers.2 (first.tree.reverse ++ read) rest hrest
    rw [List.reverse_append, List.reverse_reverse, List.append_assoc] at hrounds
    rw [tokens, tree, List.append_assoc]
    exact .again (nextCase_read hfirst read _) hlength hrounds

end Outline

end StyleCheck
