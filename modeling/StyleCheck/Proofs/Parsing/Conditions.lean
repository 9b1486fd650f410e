import StyleCheck.Proofs.Operators.Complete
import StyleCheck.Proofs.Parsing.Knot
import StyleCheck.Proofs.Parsing.RoundTrip
import StyleCheck.Proofs.Parsing.SoftKeywords

/-! # The Heads of Compound Statements

    A `while` takes a named expression, a `match` takes expressions
    between commas, and a `with` in parentheses takes items.  What the first
    reads as its condition, the other two read as well, unless it is an
    assignment expression.

    * `Demands`, `expression_demands`: what an expression starts with.
    * `behindGroup_of_spans`: looking behind a group for a colon.
    * `IsAssignment`, `namedExpression_cases`: the two forms of a condition.
    * `conditions_in_heads`: what the three heads do with a condition.
-/

namespace StyleCheck

open StyleCheck.Parser

/-! ## Section 1: How expressions start -/

namespace Parser

variable {α β σ : Type} {p q : Parser α} {post : List Token → Prop}

/-- The parser only succeeds on tokens that satisfy `post`. -/
def Demands (post : List Token → Prop) (p : Parser α) : Prop :=
  ∀ ts, Ensures p ts fun _ _ => post ts

namespace Demands

/-- What the first of two parsers demands, both do. -/
theorem bind {r : Parser β} (hr : Demands post r) (f : β → Parser α) : Demands post (r >>= f) :=
  fun ts => (ensures_bind _ _).mpr ((hr ts).mono fun _ _ hpost _ _ _ => hpost)

theorem position {f : Position → Parser α} (hf : ∀ at_, Demands post (f at_)) :
    Demands post (Parser.position >>= f) :=
  fun ts => (ensures_bind _ _).mpr (ensures_position.mpr (hf _ ts))

/-- A token that is tested for is the first, if it is there. -/
theorem acceptIf {test : Lexeme → Bool} (htest : ∀ ts, test (front ts).lexeme = true → post ts)
    (hq : Demands post q) :
    Demands post (Parser.acceptIf test >>= fun read => if read then p else q) :=
  fun ts => (ensures_bind _ _).mpr ((ensures_acceptIf test).mpr
    ⟨fun hl _ _ _ => htest ts hl, fun _ => hq ts⟩)

theorem acceptKeyword {word : Keyword} (hword : ∀ ts, (front ts).lexeme = .keyword word → post ts)
    (hq : Demands post q) :
    Demands post (Parser.acceptKeyword word >>= fun read => if read then p else q) :=
  acceptIf (fun ts hl => hword ts (beq_iff_eq.mp hl)) hq

/-- A loop has a first round. -/
theorem loop {body : σ → Parser (Next σ α)} {state : σ} (h : Demands post (body state)) :
    Demands post (loop body state) := by
  intro ts
  show Ensures (loopFor body (front ts :: ts) state) ts _
  unfold loopFor
  exact h.bind _ ts

theorem repeatWhile {body : Parser Bool} (h : Demands post body) :
    Demands post (repeatWhile body) :=
  loop (h.bind _)

end Demands

/-- What the parser reads starts with a lexeme that an expression may start
    with, and with no star. -/
def Starts (p : Parser α) : Prop := ∀ ts, Ensures p ts fun _ _ =>
  (front ts).lexeme.startsExpression = true ∧ (front ts).lexeme ≠ .symbol .star

end Parser

/-- Whether a lexeme may stand in front of the first atom of an
    expression. -/
def Lexeme.isAhead : Lexeme → Bool
  | keyword .lambda_ | keyword .await_ | keyword .not_ => true
  | symbol sign => sign.isSign
  | _ => false

namespace Grammar

theorem chain_demands {post : List Token → Prop} {operator : Parser Bool} {operand : Parser Expr}
    (h : Demands post operand) : Demands post (chain operator operand) := by
  unfold chain
  exact .position fun _ => h.bind _

section

variable {g : Nonterminals} {post : List Token → Prop} (hatom : Demands post (atom g))
  (hahead : ∀ ts, (front ts).lexeme.isAhead = true → post ts)

include hatom

theorem primary_demands : Demands post (primary g) := by
  unfold primary
  exact .position fun _ => hatom.bind _

include hahead

theorem power_demands : Demands post (power g) := by
  unfold power
  refine .position fun _ ts => (ensures_bind _ _).mpr ((ensures_acceptKeyword _).mpr ⟨?_, ?_⟩)
  · exact fun hawait _ _ _ => hahead ts (by rw [hawait]; rfl)
  · exact fun _ => (primary_demands hatom).bind _ ts

theorem factor_demands : Demands post (factor g) := by
  unfold factor
  refine .position fun _ => .acceptIf (fun ts hsign => hahead ts ?_) (power_demands hatom hahead)
  unfold isSign at hsign
  split at hsign
  case h_1 symbol hfront =>
    rw [hfront]
    exact hsign
  case h_2 => cases hsign

theorem binary_demands (levels : List (List Symbol)) : Demands post (binary g levels) := by
  induction levels with
  | nil => exact factor_demands hatom hahead
  | cons level tighter ih => exact chain_demands ih

theorem inversion_demands : Demands post (inversion g) := by
  unfold inversion
  refine .position fun _ => .acceptKeyword (fun ts hnot => hahead ts ?_) ?_
  · rw [hnot]
    rfl
  · exact chain_demands (binary_demands hatom hahead _)

/-- An expression starts with an atom, or with something in front of
    one. -/
theorem expression_demands : Demands post (expression g) := by
  unfold expression
  refine .position fun _ ts => (ensures_bind _ _).mpr ((ensures_atKeyword _).mpr ?_)
  refine (ensures_ite _ _ _).mpr ⟨fun hlambda _ _ _ => hahead ts ?_, fun _ => ?_⟩
  · rw [of_decide_eq_true hlambda]
    rfl
  · exact (chain_demands (chain_demands (inversion_demands hatom hahead))).bind _ ts

end

theorem atom_starts (g : Nonterminals) : Starts (atom g) := by
  intro ts
  unfold atom
  rw [ensures_bind, ensures_position, ensures_bind, ensures_peek]
  split
  case h_1 word hword =>
    refine (ensures_ite _ _ _).mpr ⟨fun hconstant => ?_, fun _ => (ensures_fail _).mpr trivial⟩
    refine fun _ _ _ => ⟨?_, by simp [hword]⟩
    rw [hword]
    cases word with
    | false_ | none_ | true_ => rfl
    | _ => cases hconstant
  case h_9 => exact (ensures_fail _).mpr trivial
  all_goals
    rename_i hfront
    exact fun _ _ _ => ⟨by rw [hfront]; rfl, by simp [hfront]⟩

theorem startsExpression_of_isAhead {l : Lexeme} (h : l.isAhead = true) :
    l.startsExpression = true ∧ l ≠ .symbol .star := by
  cases l with
  | keyword word =>
    cases word with
    | lambda_ | await_ | not_ => exact ⟨rfl, nofun⟩
    | _ => cases h
  | symbol sign =>
    cases sign with
    | minus | plus | tilde => exact ⟨rfl, nofun⟩
    | _ => cases h
  | _ => cases h

theorem grammar_expression_starts : Starts grammar.expression := by
  rw [grammar_closed.expression]
  exact expression_demands (atom_starts grammar) fun _ hahead => startsExpression_of_isAhead hahead

/-! ## Section 2: Behind a group -/

variable {ts rest : List Token}

/-- Looking for the bracket that closes a group, the tokens of an
    expression inside it are passed over. -/
theorem behindGroup_of_spans (h : Spans ts rest) (depth : Nat) :
    behindGroup (depth + 1) ts = behindGroup (depth + 1) rest := by
  induction h generalizing depth with
  | nothing => rfl
  | @token t ts rest hfits _ ih =>
    rw [← ih, behindGroup]
    -- What fits into an expression is no bracket by itself.
    split
    case h_1 hopen =>
      rw [hopen] at hfits
      cases hfits
    case h_2 hclose =>
      rw [hclose] at hfits
      cases hfits
    case h_3 => rfl
  | group _ _ ihinner ih =>
    rw [← ih]
    simp [behindGroup, ihinner]

/-! ## Section 3: Conditions -/

/-- Whether some tokens are an assignment expression: a word with `:=`
    behind it. -/
def IsAssignment (w : List Token) : Prop :=
  (front w).lexeme.isWord = true ∧ (front w.tail).lexeme = .symbol .colonEqual

instance (w : List Token) : Decidable (IsAssignment w) :=
  inferInstanceAs (Decidable (_ ∧ _))

/-- The tokens are read as a condition in front of `behind`. -/
def ReadsAs (w behind : List Token) : Prop :=
  ∃ e, namedExpression grammar (w ++ behind) = .ok (e, behind)

variable {w behind : List Token}

/-- What stands behind a condition is no part of an assignment expression. -/
theorem assigns_iff (hword : (front behind).lexeme.isWord = false)
    (hsymbol : (front behind).lexeme ≠ .symbol .colonEqual) :
    IsAssignment w ↔ (front (w ++ behind)).lexeme.isWord = true ∧
      (front (w ++ behind).tail).lexeme = .symbol .colonEqual := by
  match w with
  | [] => exact ⟨fun h => (nomatch h.1), fun h => absurd h.1 (by simp [hword])⟩
  | [t] => exact ⟨fun h => (nomatch h.2), fun h => absurd h.2 hsymbol⟩
  | t :: t' :: w => exact Iff.rfl

/-- Any other condition is an expression. -/
theorem expression_of_reads (h : ReadsAs w behind) (hword : (front behind).lexeme.isWord = false)
    (hsymbol : (front behind).lexeme ≠ .symbol .colonEqual) (hplain : ¬ IsAssignment w) :
    ∃ e, grammar.expression (w ++ behind) = .ok (e, behind) := by
  obtain ⟨e, hread⟩ := h
  rw [assigns_iff hword hsymbol] at hplain
  unfold namedExpression at hread
  simp only [bind_apply, position_apply, peek_apply, peekSecond_apply, Result.andThen_ok] at hread
  rw [if_neg (by simpa using hplain)] at hread
  exact ⟨e, hread⟩

/-- An assignment expression starts with a name. -/
theorem eq_of_isAssignment (h : ReadsAs w behind) (hassigns : IsAssignment w) :
    ∃ x at_ colon more, w = ⟨.name x, at_⟩ :: ⟨.symbol .colonEqual, colon⟩ :: more := by
  obtain ⟨e, hread⟩ := h
  obtain ⟨hword, hsymbol⟩ := hassigns
  match w with
  | [] => cases hword
  | [_] => cases hsymbol
  | ⟨first, at_⟩ :: ⟨second, colon⟩ :: more =>
    obtain rfl : second = .symbol .colonEqual := hsymbol
    replace hword : first.isWord = true := hword
    cases first with
    | name x => exact ⟨x, at_, colon, more, rfl⟩
    | keyword word =>
      unfold namedExpression at hread
      simp [Lexeme.isWord, name, fail] at hread
    | _ => cases hword

theorem reads_front (h : ReadsAs w behind) (hword : (front behind).lexeme.isWord = false)
    (hsymbol : (front behind).lexeme ≠ .symbol .colonEqual) :
    (front (w ++ behind)).lexeme.startsExpression = true ∧
      (front (w ++ behind)).lexeme ≠ .symbol .star := by
  by_cases hassigns : IsAssignment w
  · obtain ⟨x, at_, colon, more, rfl⟩ := eq_of_isAssignment h hassigns
    exact ⟨rfl, nofun⟩
  · obtain ⟨e, hread⟩ := expression_of_reads h hword hsymbol hassigns
    exact grammar_expression_starts _ _ _ hread

theorem reads_spans (h : ReadsAs w behind) : Spans (w ++ behind) behind := by
  obtain ⟨e, hread⟩ := h
  exact (namedExpression_opening grammar_span _ _ _ hread).1

/-! ## Section 4: The heads -/

variable {rest block arm : List Token} {stmts : List Stmt} {case : Stmt} {at_ colon : Position}

/-- A suite behind a colon. -/
theorem body_colon (hblock : suite statementGrammar block = .ok (stmts, rest)) :
    body statementGrammar (⟨.symbol .colon, colon⟩ :: block) = .ok (stmts, rest) := by
  unfold body
  simp [hblock]

theorem while_reads (h : ReadsAs w (⟨.symbol .colon, colon⟩ :: block))
    (hblock : suite statementGrammar block = .ok (stmts, rest))
    (helse : (front rest).lexeme ≠ .keyword .else_) :
    statementGrammar.statement (⟨.keyword .while_, at_⟩ :: (w ++ ⟨.symbol .colon, colon⟩ :: block)) =
      .ok ([.block at_.line .whileLoop stmts], rest) := by
  obtain ⟨e, hread⟩ := h
  rw [statementGrammar_closed.statement]
  apply Outline.statement_of_compound rfl
  unfold whileLoop optionalBody
  simp [hread, body_colon hblock, helse]

/-- A subject that is no assignment expression, up to its colon. -/
theorem subject_reads (h : ReadsAs w (⟨.symbol .colon, colon⟩ :: block))
    (hplain : ¬ IsAssignment w) : ∃ e, starExpressions grammar (w ++ ⟨.symbol .colon, colon⟩ :: block) =
      .ok (e, ⟨.symbol .colon, colon⟩ :: block) := by
  obtain ⟨e, hread⟩ := expression_of_reads h rfl (by simp) hplain
  have hstar := (reads_front h rfl (by simp)).2
  refine ⟨e, ?_⟩
  unfold starExpressions nextStarExpression starExpression
  simp [hstar, hread]

/-- The line of a condition and a colon opens the block behind it. -/
theorem atMatch_reads {newline indent : Position}
    (h : ReadsAs w (⟨.symbol .colon, colon⟩ :: ⟨.newline, newline⟩ :: ⟨.indent, indent⟩ :: block)) :
    let ts := ⟨.name SoftKeyword.match_, at_⟩ :: (w ++ ⟨.symbol .colon, colon⟩ ::
      ⟨.newline, newline⟩ :: ⟨.indent, indent⟩ :: block)
    atMatch ts = .ok (true, ts) := by
  intro ts
  have hfront := (reads_front h rfl (by simp)).1
  have hline : (front (w ++ ⟨.symbol .colon, colon⟩ :: ⟨.newline, newline⟩ :: ⟨.indent, indent⟩ ::
      block)).lexeme ∉ [.newline, .symbol .equal, .symbol .colon] := by
    intro hmem
    simp only [List.mem_cons, List.not_mem_nil, or_false] at hmem
    rcases hmem with hl | hl | hl
    all_goals
      rw [hl] at hfront
      cases hfront
  obtain ⟨last, hopens, _⟩ := opensBlock_of_spans (reads_spans h) (.name SoftKeyword.match_)
  have hblock : opensBlock last (⟨.symbol .colon, colon⟩ :: ⟨.newline, newline⟩ ::
      ⟨.indent, indent⟩ :: block) = true := rfl
  simp only [List.mem_cons, List.not_mem_nil, or_false, not_or] at hline
  subst ts
  unfold atMatch
  simp [hline, hopens, hblock]

/-- A block of one case. -/
theorem oneCase_loops {dedent : Position} (hcase : (front arm).lexeme = .name SoftKeyword.case_)
    (harm : matchCase statementGrammar (arm ++ ⟨.dedent, dedent⟩ :: rest) =
      .ok (case, ⟨.dedent, dedent⟩ :: rest)) :
    loop (nextCase statementGrammar) [] (arm ++ ⟨.dedent, dedent⟩ :: rest) =
      .ok ([case], ⟨.dedent, dedent⟩ :: rest) := by
  obtain ⟨at_, harm'⟩ := eq_cons_of_front hcase (by simp)
  have hfront : (front (arm ++ ⟨.dedent, dedent⟩ :: rest)).lexeme = .name SoftKeyword.case_ := by
    rw [harm']
    rfl
  have hlength : (⟨.dedent, dedent⟩ :: rest).length < (arm ++ ⟨.dedent, dedent⟩ :: rest).length := by
    rw [harm', List.cons_append]
    simp only [List.length_cons, List.length_append]
    omega
  have hround : nextCase statementGrammar [] (arm ++ ⟨.dedent, dedent⟩ :: rest) =
      .ok (.again [case], ⟨.dedent, dedent⟩ :: rest) := by
    unfold nextCase
    simp [hfront, harm]
  have hdone : nextCase statementGrammar [case] (⟨.dedent, dedent⟩ :: rest) =
      .ok (.done [case], ⟨.dedent, dedent⟩ :: rest) := by
    unfold nextCase
    simp
  exact loop_of_rounds (.again hround hlength (.done hdone))

theorem match_reads {newline indent dedent : Position}
    (h : ReadsAs w (⟨.symbol .colon, colon⟩ :: ⟨.newline, newline⟩ :: ⟨.indent, indent⟩ ::
      (arm ++ ⟨.dedent, dedent⟩ :: rest)))
    (hcase : (front arm).lexeme = .name SoftKeyword.case_)
    (harm : matchCase statementGrammar (arm ++ ⟨.dedent, dedent⟩ :: rest) =
      .ok (case, ⟨.dedent, dedent⟩ :: rest)) :
    statementGrammar.statement (⟨.name SoftKeyword.match_, at_⟩ :: (w ++ ⟨.symbol .colon, colon⟩ ::
        ⟨.newline, newline⟩ :: ⟨.indent, indent⟩ :: (arm ++ ⟨.dedent, dedent⟩ :: rest))) =
      if IsAssignment w then .failed ⟨(front w.tail).position, .missing .colon⟩
        (w.tail ++ ⟨.symbol .colon, colon⟩ :: ⟨.newline, newline⟩ :: ⟨.indent, indent⟩ ::
          (arm ++ ⟨.dedent, dedent⟩ :: rest))
      else .ok ([.block at_.line .matchBlock [case]], rest) := by
  have hmatch := @atMatch_reads w _ at_ _ _ _ h
  rw [statementGrammar_closed.statement]
  unfold statement
  rw [bind_apply, hmatch]
  by_cases hassigns : IsAssignment w
  · rw [if_pos hassigns]
    obtain ⟨x, place, assigns, more, rfl⟩ := eq_of_isAssignment h hassigns
    -- The subject is the name alone.
    have hsubject := starExpressions_name x place (show endsExpression (front
      (⟨.symbol .colonEqual, assigns⟩ :: (more ++ ⟨.symbol .colon, colon⟩ :: ⟨.newline, newline⟩ ::
        ⟨.indent, indent⟩ :: (arm ++ ⟨.dedent, dedent⟩ :: rest)))).lexeme = true from rfl)
    simp [matchBlock, hsubject, expect, fail]
  · rw [if_neg hassigns]
    obtain ⟨e, hsubject⟩ := subject_reads h hassigns
    simp [matchBlock, hsubject, oneCase_loops hcase harm]

/-- A single item between parentheses. -/
theorem groupedItem_reads {ts mid : List Token} {e : Expr}
    (hfront : (front ts).lexeme ≠ .symbol (.closing .round))
    (hread : grammar.expression ts = .ok (e, mid)) (has : (front mid).lexeme ≠ .keyword .as_)
    (hcomma : (front mid).lexeme ≠ .symbol .comma) :
    repeatWhile nextGroupedItem ts = .ok ((), mid) := by
  apply repeatWhile_of_false
  simp [nextGroupedItem, nextWithItem, withItem, hfront, hread, has, hcomma]

theorem with_reads {opener closer : Position}
    (h : ReadsAs w (⟨.symbol (.closing .round), closer⟩ :: ⟨.symbol .colon, colon⟩ :: block))
    (hblock : suite statementGrammar block = .ok (stmts, rest)) :
    statementGrammar.statement (⟨.keyword .with_, at_⟩ :: ⟨.symbol (.opening .round), opener⟩ ::
        (w ++ ⟨.symbol (.closing .round), closer⟩ :: ⟨.symbol .colon, colon⟩ :: block)) =
      if IsAssignment w then .failed ⟨(front w.tail).position, .missing (.closing .round)⟩
        (w.tail ++ ⟨.symbol (.closing .round), closer⟩ :: ⟨.symbol .colon, colon⟩ :: block)
      else .ok ([.block at_.line (.withBlock false) stmts], rest) := by
  have hgroup : behindGroup 0 (⟨.symbol (.opening .round), opener⟩ :: (w ++
      ⟨.symbol (.closing .round), closer⟩ :: ⟨.symbol .colon, colon⟩ :: block)) =
        ⟨.symbol .colon, colon⟩ :: block := by
    rw [behindGroup, behindGroup_of_spans (reads_spans h)]
    rfl
  have hfront : (front (w ++ ⟨.symbol (.closing .round), closer⟩ :: ⟨.symbol .colon, colon⟩ ::
      block)).lexeme ≠ .symbol (.closing .round) := by
    intro hl
    have hstart := (reads_front h rfl (by simp)).1
    rw [hl] at hstart
    cases hstart
  rw [statementGrammar_closed.statement]
  unfold statement
  by_cases hassigns : IsAssignment w
  · rw [if_pos hassigns]
    obtain ⟨x, place, assigns, more, rfl⟩ := eq_of_isAssignment h hassigns
    -- The item is the name alone.
    have hitem := grammar_expression_name x place (show endsExpression (front
      (⟨.symbol .colonEqual, assigns⟩ :: (more ++ ⟨.symbol (.closing .round), closer⟩ ::
        ⟨.symbol .colon, colon⟩ :: block))).lexeme = true from rfl)
    have hitems := groupedItem_reads hfront hitem (by simp) (by simp)
    simp only [List.cons_append] at hgroup hitems
    simp [atMatch, compound?, withBlock, withItems, hgroup, hitems, expect, fail]
  · rw [if_neg hassigns]
    obtain ⟨e, hread⟩ := expression_of_reads h rfl (by simp) hassigns
    have hitems := groupedItem_reads hfront hread (by simp) (by simp)
    simp [atMatch, compound?, withBlock, withItems, hgroup, hitems, body_colon hblock]

/-- The tokens are read as a condition in front of every colon and of every
    closing parenthesis. -/
def IsCondition (w : List Token) : Prop := ∀ behind,
  (front behind).lexeme = .symbol .colon ∨ (front behind).lexeme = .symbol (.closing .round) →
    ReadsAs w behind

/-- **Heads with the same condition.**  What is the condition of a `while`
    is also the subject of a `match` with one case, and the item of a `with`
    in parentheses, with the same blocks below them, unless it is an
    assignment expression.  Of that, the two read the name alone, and fail
    at its `:=`. -/
theorem conditions_in_heads {w block rest arm : List Token} {stmts : List Stmt} {case : Stmt}
    {at_ colon newline indent dedent opener closer : Position} (hw : IsCondition w)
    (hblock : suite statementGrammar (block ++ rest) = .ok (stmts, rest))
    (helse : (front rest).lexeme ≠ .keyword .else_)
    (hcase : (front arm).lexeme = .name SoftKeyword.case_)
    (harm : matchCase statementGrammar (arm ++ ⟨.dedent, dedent⟩ :: rest) =
      .ok (case, ⟨.dedent, dedent⟩ :: rest)) :
    statementGrammar.statement (⟨.keyword .while_, at_⟩ :: (w ++ ⟨.symbol .colon, colon⟩ ::
        (block ++ rest))) = .ok ([.block at_.line .whileLoop stmts], rest) ∧
    statementGrammar.statement (⟨.name SoftKeyword.match_, at_⟩ :: (w ++ ⟨.symbol .colon, colon⟩ ::
        ⟨.newline, newline⟩ :: ⟨.indent, indent⟩ :: (arm ++ ⟨.dedent, dedent⟩ :: rest))) =
      (if IsAssignment w then .failed ⟨(front w.tail).position, .missing .colon⟩
        (w.tail ++ ⟨.symbol .colon, colon⟩ :: ⟨.newline, newline⟩ :: ⟨.indent, indent⟩ ::
          (arm ++ ⟨.dedent, dedent⟩ :: rest))
      else .ok ([.block at_.line .matchBlock [case]], rest)) ∧
    statementGrammar.statement (⟨.keyword .with_, at_⟩ :: ⟨.symbol (.opening .round), opener⟩ ::
        (w ++ ⟨.symbol (.closing .round), closer⟩ :: ⟨.symbol .colon, colon⟩ :: (block ++ rest))) =
      (if IsAssignment w then .failed ⟨(front w.tail).position, .missing (.closing .round)⟩
        (w.tail ++ ⟨.symbol (.closing .round), closer⟩ :: ⟨.symbol .colon, colon⟩ ::
          (block ++ rest))
      else .ok ([.block at_.line (.withBlock false) stmts], rest)) :=
  ⟨while_reads (hw _ (.inl rfl)) hblock helse, match_reads (hw _ (.inl rfl)) hcase harm,
    with_reads (hw _ (.inr rfl)) hblock⟩

/-- A word of the language of operators is a condition. -/
theorem isCondition_of_belongs {w : List Token} (hplain : PlainWord w)
    (h : Belongs .expression w) : IsCondition w := by
  intro behind hbehind
  have hend : Category.expression.endLevel ≤ (front behind).lexeme.endLevel := by
    rcases hbehind with hl | hl
    all_goals
      rw [hl]
      exact Nat.le_refl 12
  obtain ⟨e, hread⟩ := @Derives.reads _ w h trivial (w ++ behind) behind (by simp) hend
  have hread : grammar.expression (w ++ behind) = .ok (e, behind) := hread
  -- No token of the word is the operator of an assignment, and neither is the one behind it.
  have hsecond : (front (w ++ behind).tail).lexeme ≠ .symbol .colonEqual := by
    intro hl
    cases w with
    | nil => exact absurd rfl (h.startsAt rfl).ne_nil
    | cons first w =>
      cases w with
      | nil => rcases hbehind with hfront | hfront <;> simp [hfront] at hl
      | cons second w =>
        have hsecond := hplain.plain second (by simp)
        rw [show second.lexeme = .symbol .colonEqual from hl] at hsecond
        cases hsecond
  exact ⟨e, by simp [namedExpression, hsecond, hread]⟩

/-- With an operator, a call and brackets in the condition `f(x[0]) + 1`, all
    three heads are accepted. -/
theorem sum_in_heads :
    let w : List Token := [⟨.name (ascii "f"), ⟨1, 7⟩⟩, ⟨.symbol (.opening .round), ⟨1, 8⟩⟩,
      ⟨.name (ascii "x"), ⟨1, 9⟩⟩, ⟨.symbol (.opening .square), ⟨1, 10⟩⟩,
      ⟨.number (ascii "0"), ⟨1, 11⟩⟩, ⟨.symbol (.closing .square), ⟨1, 12⟩⟩,
      ⟨.symbol (.closing .round), ⟨1, 13⟩⟩, ⟨.symbol .plus, ⟨1, 15⟩⟩,
      ⟨.number (ascii "1"), ⟨1, 17⟩⟩]
    let block : List Token := [⟨.keyword .pass_, ⟨2, 5⟩⟩, ⟨.newline, ⟨2, 9⟩⟩]
    let arm : List Token := ⟨.name SoftKeyword.case_, ⟨2, 5⟩⟩ :: ⟨.number (ascii "1"), ⟨2, 10⟩⟩ ::
      ⟨.symbol .colon, ⟨2, 11⟩⟩ :: block
    statementGrammar.statement (⟨.keyword .while_, ⟨1, 1⟩⟩ :: (w ++
      ⟨.symbol .colon, ⟨1, 18⟩⟩ :: block)) = .ok ([.block 1 .whileLoop [.simple 2 .pass]], []) ∧
    statementGrammar.statement (⟨.name SoftKeyword.match_, ⟨1, 1⟩⟩ :: (w ++
      ⟨.symbol .colon, ⟨1, 18⟩⟩ :: ⟨.newline, ⟨1, 19⟩⟩ :: ⟨.indent, ⟨2, 1⟩⟩ ::
        (arm ++ [⟨.dedent, ⟨3, 1⟩⟩]))) =
      .ok ([.block 1 .matchBlock [.block 2 .matchCase [.simple 2 .pass]]], []) ∧
    statementGrammar.statement (⟨.keyword .with_, ⟨1, 1⟩⟩ :: ⟨.symbol (.opening .round), ⟨1, 6⟩⟩ ::
      (w ++ ⟨.symbol (.closing .round), ⟨1, 18⟩⟩ :: ⟨.symbol .colon, ⟨1, 18⟩⟩ :: block)) =
      .ok ([.block 1 (.withBlock false) [.simple 2 .pass]], []) := by
  intro w block arm
  have hblock : suite statementGrammar (block ++ []) = .ok ([.simple 2 .pass], []) := by
    subst block
    decide +kernel
  have harm : matchCase statementGrammar (arm ++ [⟨.dedent, ⟨3, 1⟩⟩]) =
      .ok (.block 2 .matchCase [.simple 2 .pass], [⟨.dedent, ⟨3, 1⟩⟩]) := by
    subst arm block
    decide +kernel
  have hplain : PlainWord w := by decide
  -- The word is in the language since it is read.
  have hcondition : IsCondition w := by
    have hread : grammar.expression w = .ok (⟨.other, ⟨1, 7⟩⟩, []) := by
      subst w
      decide +kernel
    obtain ⟨w', hw', hbelongs⟩ := grammar_sound w _ [] hread
    rw [List.append_nil] at hw'
    subst hw'
    exact isCondition_of_belongs hplain (hbelongs hplain)
  have hsum : ¬ IsAssignment w := by decide
  have h := @conditions_in_heads w block [] arm _ _ ⟨1, 1⟩ ⟨1, 18⟩ ⟨1, 19⟩ ⟨2, 1⟩ ⟨3, 1⟩ ⟨1, 6⟩
    ⟨1, 18⟩ hcondition hblock (by decide) rfl harm
  rw [if_neg hsum, if_neg hsum, List.append_nil] at h
  exact h

/-- An assignment expression is the condition of a `while`, but neither the
    subject of a `match` nor the item of a `with`. -/
theorem assignment_in_heads :
    IsCondition [⟨.name (ascii "x"), ⟨1, 7⟩⟩, ⟨.symbol .colonEqual, ⟨1, 9⟩⟩,
      ⟨.name (ascii "y"), ⟨1, 12⟩⟩] ∧
    Module.ofSource (ascii "while x := y:\n    pass\n") =
      .ok [.block 1 .whileLoop [.simple 2 .pass]] ∧
    Module.ofSource (ascii "match x := y:\n    case 1: pass\n") =
      .error ⟨⟨1, 9⟩, .missing .colon⟩ ∧
    Module.ofSource (ascii "with (x := y):\n    pass\n") =
      .error ⟨⟨1, 9⟩, .missing (.closing .round)⟩ := by
  refine ⟨?_, by decide +kernel, by decide +kernel, by decide +kernel⟩
  rintro behind (h | h)
  all_goals
    have hends : endsExpression (front behind).lexeme = true := by
      rw [h]
      rfl
    have hvalue := grammar_expression_name (ascii "y") ⟨1, 12⟩ hends
    exact ⟨⟨.other, ⟨1, 7⟩⟩, by simp [namedExpression, Lexeme.isWord, hvalue]⟩

end Grammar

end StyleCheck
