import StyleCheck.Proofs.Parsing.Parts

/-! # The Round Trip

    The parser of modules takes the tokens of a program to its tree.
    There is a lemma for each way to build a statement, and `isRead` puts
    all of them together by induction on the outline.

    * `isRead`: every part of an outline is read back, if there is fuel
      enough.
    * `ofTokens_tokens`: every program is.
-/

namespace StyleCheck

open StyleCheck.Parser StyleCheck.Grammar

/-! ## Section 1: Names between separators -/

namespace Names

/-- The round that reads one more value of an assignment. -/
theorem nextValue_read (read : List Expr) (last : Expr) (place : Position) (x : Identifier)
    {rest : List Token} (hrest : endsExpression (front rest).lexeme = true) :
    nextValue (read, last) (⟨.symbol .equal, place⟩ :: x.token :: rest) =
      .ok (.again (read ++ [last], x.expr), rest) := by
  have hvalue := assigned_name x.text x.position hrest
  unfold nextValue
  simp [hvalue, Identifier.expr]

/-- The rounds behind the first target of an assignment. -/
theorem values_rounds {equal newline : Position} {value : Identifier} {rest : List Token} :
    ∀ (others : List (Position × Identifier)) (read : List Expr) (last : Expr),
      Rounds nextValue (read, last)
        (tail .equal others
          ++ ⟨.symbol .equal, equal⟩ :: value.token :: ⟨.newline, newline⟩ :: rest)
        (read ++ last :: others.map (·.2.expr), value.expr) (⟨.newline, newline⟩ :: rest) := by
  intro others
  induction others with
  | nil =>
    intro read last
    have hround := nextValue_read read last equal value
      (show endsExpression (front (⟨.newline, newline⟩ :: rest)).lexeme = true from rfl)
    have hdone : nextValue (read ++ [last], value.expr) (⟨.newline, newline⟩ :: rest) =
        .ok (.done (read ++ [last], value.expr), ⟨.newline, newline⟩ :: rest) := by
      unfold nextValue
      simp
    exact .again hround (by simp [tail]) (.done hdone)
  | cons other others ih =>
    intro read last
    obtain ⟨place, x⟩ := other
    -- Behind the name comes the next equals sign, here or before the value.
    have hends : endsExpression (front (tail .equal others
        ++ ⟨.symbol .equal, equal⟩ :: value.token :: ⟨.newline, newline⟩ :: rest)).lexeme = true := by
      cases others <;> rfl
    have hround := nextValue_read read last place x hends
    have hrounds := ih (read ++ [last]) x.expr
    rw [List.append_assoc, List.singleton_append] at hrounds
    refine .again hround ?_ hrounds
    simp only [tail, List.cons_append, List.length_cons]
    omega

theorem checkTargets_expr (xs : List Identifier) (ts : List Token) :
    checkTargets (xs.map Identifier.expr) ts = .ok ((), ts) := by
  induction xs with
  | nil => rfl
  | cons x xs ih => simpa [checkTargets, unassignable?, Identifier.expr] using ih

/-- The rounds that read the parameters of a function, of which some may
    have been read. -/
theorem parameters_rounds (closer : Position) (rest : List Token) :
    ∀ (others : List (Position × Identifier)) (first : Identifier) (read : List Text),
      Rounds (parameter grammar (.closing .round) true) { regular := read }
        (first.token :: tail .comma others ++ ⟨.symbol (.closing .round), closer⟩ :: rest)
        { regular := read ++ first.text :: others.map (·.2.text) }
        (⟨.symbol (.closing .round), closer⟩ :: rest) := by
  intro others
  induction others with
  | nil =>
    intro first read
    apply Rounds.done
    unfold parameter typeHint
    simp [tail]
  | cons other others ih =>
    intro first read
    obtain ⟨place, x⟩ := other
    have hround : parameter grammar (.closing .round) true { regular := read }
        (first.token :: ⟨.symbol .comma, place⟩ :: x.token :: (tail .comma others
          ++ ⟨.symbol (.closing .round), closer⟩ :: rest)) =
        .ok (.again { regular := read ++ [first.text] }, x.token :: (tail .comma others
          ++ ⟨.symbol (.closing .round), closer⟩ :: rest)) := by
      unfold parameter typeHint
      simp
    have hrounds := ih x (read ++ [first.text])
    rw [List.append_assoc, List.singleton_append] at hrounds
    exact .again hround (by simp [tail]) hrounds

/-- The parameters of a function up to their bracket. -/
theorem parameters_read (names : Option Names) (closer : Position) (rest : List Token) :
    parameters grammar (.closing .round) true
        (names.elim [] (tokens .comma) ++ ⟨.symbol (.closing .round), closer⟩ :: rest) =
      .ok ({ regular := names.elim [] fun names => names.toList.map (·.text) },
        ⟨.symbol (.closing .round), closer⟩ :: rest) := by
  cases names with
  | none =>
    apply loop_of_done
    unfold parameter
    simp
  | some names =>
    have hnames : names.toList.map (·.text) = names.first.text :: names.others.map (·.2.text) := by
      simp [toList]
    rw [Option.elim_some, Option.elim_some, hnames]
    exact loop_of_rounds (parameters_rounds closer rest names.others names.first [])

end Names

namespace Outline

variable {p : StatementParsers}

/-! ## Section 2: Simple statements -/

/-- A line of one simple statement. -/
theorem simpleStatements_of_small {ts rest : List Token} {newline : Position} {stmt : Stmt}
    (h : smallStatement ts = .ok (stmt, ⟨.newline, newline⟩ :: rest)) :
    simpleStatements ts = .ok ([stmt], rest) := by
  have hloop : loop nextSmall [] ts = .ok ([stmt], ⟨.newline, newline⟩ :: rest) := by
    apply loop_of_done
    unfold nextSmall
    simp [h]
  unfold simpleStatements
  simp [hloop]

/-- What opens no compound statement is a line of simple ones. -/
theorem statement_of_simple {t : Token} {ts : List Token}
    (hmatch : atMatch (t :: ts) = .ok (false, t :: ts)) (hcompound : compound? p t.lexeme = none) :
    Grammar.statement p (t :: ts) = simpleStatements (t :: ts) := by
  unfold Grammar.statement
  simp [hmatch, hcompound]

/-- A line that starts with a name and goes on with what ends one is a
    line of simple statements, even if the name is a soft keyword. -/
theorem statement_name {x : Text} {at_ : Position} {ts : List Token}
    (h : (front ts).lexeme = .newline ∨ (front ts).lexeme = .symbol .equal) :
    Grammar.statement p (⟨.name x, at_⟩ :: ts) = simpleStatements (⟨.name x, at_⟩ :: ts) := by
  have hmatch : atMatch (⟨.name x, at_⟩ :: ts) = .ok (false, ⟨.name x, at_⟩ :: ts) := by
    unfold atMatch
    rcases h with h | h <;> simp [h]
  exact statement_of_simple hmatch rfl

theorem smallStatement_name {x : Text} {at_ : Position} {ts : List Token}
    (h : (front ts).lexeme = .newline ∨ (front ts).lexeme = .symbol .equal) :
    smallStatement (⟨.name x, at_⟩ :: ts) = expressionStatement (⟨.name x, at_⟩ :: ts) := by
  have halias : atTypeAlias (⟨.name x, at_⟩ :: ts) = .ok (false, ⟨.name x, at_⟩ :: ts) := by
    unfold atTypeAlias
    cases ts with
    | nil => simp
    | cons t ts =>
      -- A type alias has two names at its start.
      obtain ⟨l, place⟩ := t
      rcases h with h | h <;> obtain rfl : l = _ := h <;> simp
  unfold smallStatement
  simp [halias, keywordStatement?]

theorem jump_isRead {word : Jump} {start newline : Position} :
    (jump word start newline).IsRead p := by
  intro rest _
  have hsmall : smallStatement (⟨.keyword word.keyword, start⟩ :: ⟨.newline, newline⟩ :: rest) =
      .ok (.simple start.line word.kind, ⟨.newline, newline⟩ :: rest) := by
    unfold smallStatement atTypeAlias
    cases word <;> simp [Jump.keyword, Jump.kind, keywordStatement?, afterKeyword?]
  have hcompound : compound? p (.keyword word.keyword) = none := by
    cases word <;> rfl
  show Grammar.statement p (⟨.keyword word.keyword, start⟩ :: ⟨.newline, newline⟩ :: rest) = _
  rw [statement_of_simple rfl hcompound]
  exact simpleStatements_of_small hsmall

theorem name_isRead {x : Identifier} {newline : Position} : (name x newline).IsRead p := by
  intro rest _
  have hfollow : (front (⟨.newline, newline⟩ :: rest)).lexeme = .newline ∨
      (front (⟨.newline, newline⟩ :: rest)).lexeme = .symbol .equal := .inl rfl
  have hname := assigned_name x.text x.position
    (show endsExpression (front (⟨.newline, newline⟩ :: rest)).lexeme = true from rfl)
  have hsmall : smallStatement (⟨.name x.text, x.position⟩ :: ⟨.newline, newline⟩ :: rest) =
      .ok (.simple x.position.line .expression, ⟨.newline, newline⟩ :: rest) := by
    rw [smallStatement_name hfollow]
    unfold expressionStatement
    simp [hname]
  simp [statement_name hfollow, simpleStatements_of_small hsmall]

theorem assign_isRead {targets : Names} {equal newline : Position} {value : Identifier} :
    (assign targets equal value newline).IsRead p := by
  intro rest _
  -- What is behind the first target, and starts with an equals sign.
  let others := Names.tail .equal targets.others
    ++ ⟨.symbol .equal, equal⟩ :: value.token :: ⟨.newline, newline⟩ :: rest
  have hequal : (front others).lexeme = .symbol .equal := by
    show (front (Names.tail .equal targets.others ++ _)).lexeme = _
    cases targets.others <;> rfl
  have hends : endsExpression (front others).lexeme = true := by
    rw [hequal]
    rfl
  have hfirst : assigned (⟨.name targets.first.text, targets.first.position⟩ :: others) =
      .ok (targets.first.expr, others) := assigned_name _ _ hends
  have hloop : loop nextValue ([], targets.first.expr) others =
      .ok ((targets.toList.map Identifier.expr, value.expr), ⟨.newline, newline⟩ :: rest) := by
    have hlist : targets.toList.map Identifier.expr =
        [] ++ targets.first.expr :: targets.others.map (·.2.expr) := by
      simp [Names.toList]
    rw [hlist]
    exact loop_of_rounds (Names.values_rounds targets.others [] targets.first.expr)
  have hsmall : smallStatement (⟨.name targets.first.text, targets.first.position⟩ :: others) =
      .ok (.assign targets.first.position.line (targets.toList.map Identifier.expr) value.expr,
        ⟨.newline, newline⟩ :: rest) := by
    rw [smallStatement_name (.inr hequal)]
    unfold expressionStatement assignment
    simp [hfirst, hequal, hloop, Names.checkTargets_expr]
  have htokens : (assign targets equal value newline).tokens ++ rest =
      ⟨.name targets.first.text, targets.first.position⟩ :: others := by
    simp [Names.tokens, others]
  rw [htokens, statement_name (.inr hequal), simpleStatements_of_small hsmall]
  rfl

/-! ## Section 3: Compound statements -/

/-- A compound statement is what its parser makes of it. -/
theorem statement_of_compound {word : Keyword} {start : Position} {ts rest : List Token}
    {parser : Parser Stmt} {stmt : Stmt} (hword : compound? p (.keyword word) = some parser)
    (hread : parser (⟨.keyword word, start⟩ :: ts) = .ok (stmt, rest)) :
    Grammar.statement p (⟨.keyword word, start⟩ :: ts) = .ok ([stmt], rest) := by
  unfold Grammar.statement
  simp [atMatch, hword, hread]

theorem conditional_isRead {start : Position} {test : Identifier} {body : Outline .suite}
    {branch : Outline .branch} (hbody : body.IsRead p) (hbranch : branch.IsRead p) :
    (conditional start test body branch).IsRead p := by
  intro rest hrest
  rw [tokens, Identifier.token_eq, List.cons_append, List.cons_append, List.append_assoc]
  exact statement_of_compound rfl (conditional_read hbody hbranch hrest)

theorem whileLoop_isRead {start : Position} {test : Identifier} {body : Outline .suite}
    {last : Outline (.tail .else_)} (hbody : body.IsRead p) (hlast : last.IsRead p) :
    (whileLoop start test body last).IsRead p := by
  intro rest hrest
  have helse : (front rest).lexeme ≠ .keyword .else_ := ne_keyword_of_continues hrest rfl
  obtain ⟨read, hread, htree⟩ := hlast rest helse
  have htest := namedExpression_name test.text test.position
    (body.endsExpression_front (last.tokens ++ rest)) (by rw [body.starts_front]; decide)
  rw [tokens, tree, Identifier.token_eq, List.cons_append, List.cons_append, List.append_assoc]
  apply statement_of_compound rfl
  unfold Grammar.whileLoop
  simp [htest, hbody (last.tokens ++ rest), hread, htree]

/-- A statement that may stand behind `async` has the line of that, or
    else of its own keyword. -/
theorem statement_of_async {word : Keyword} (parser : Nat → Bool → Parser Stmt)
    (node : Nat → Bool → Stmt) {async : Option Position} {start : Position} {ts rest : List Token}
    (hword : compound? p (.keyword word) = some do parser (← line) false)
    (hasync : ∀ place, asyncStatement p (⟨.keyword .async_, place⟩ :: ⟨.keyword word, start⟩ :: ts) =
      parser place.line true (⟨.keyword word, start⟩ :: ts))
    (hread : ∀ line isAsync, parser line isAsync (⟨.keyword word, start⟩ :: ts) =
      .ok (node line isAsync, rest)) :
    Grammar.statement p (asyncTokens async ++ ⟨.keyword word, start⟩ :: ts) =
      .ok ([node (async.getD start).line async.isSome], rest) := by
  cases async with
  -- The keyword is at the front by itself, or behind `async`.
  | none =>
    apply statement_of_compound hword
    simp [hread]
  | some place =>
    have hcompound : compound? p (.keyword .async_) = some (asyncStatement p) := rfl
    apply statement_of_compound hcompound
    show asyncStatement p (⟨.keyword .async_, place⟩ :: ⟨.keyword word, start⟩ :: ts) =
      .ok (node place.line true, rest)
    rw [hasync, hread]

theorem forLoop_isRead {async : Option Position} {start middle : Position}
    {target source : Identifier} {body : Outline .suite} {last : Outline (.tail .else_)}
    (hbody : body.IsRead p) (hlast : last.IsRead p) :
    (forLoop async start target middle source body last).IsRead p := by
  intro rest hrest
  have helse : (front rest).lexeme ≠ .keyword .else_ := ne_keyword_of_continues hrest rfl
  obtain ⟨read, hread, htree⟩ := hlast rest helse
  have hsource := starExpressions_name source.text source.position
    (body.endsExpression_front (last.tokens ++ rest))
  have hin : endsOperand (front (⟨.keyword .in_, middle⟩ :: ⟨.name source.text, source.position⟩
      :: (body.tokens ++ (last.tokens ++ rest)))).lexeme = true := rfl
  have htarget := targets_name target.text target.position hin
  simp only [tokens, tree, Identifier.token_eq, List.append_assoc, List.cons_append]
  refine statement_of_async (Grammar.forLoop p)
    (fun line isAsync => .block line (.forLoop isAsync) (body.tree ++ last.tree))
    rfl (fun _ => by simp [asyncStatement]) ?_
  intro line isAsync
  unfold Grammar.forLoop
  simp [htarget, hsource, hbody (last.tokens ++ rest), hread, htree]

theorem withBlock_isRead {async : Option Position} {start : Position} {item : Identifier}
    {body : Outline .suite} (hbody : body.IsRead p) :
    (withBlock async start item body).IsRead p := by
  intro rest _
  have hcolon : (front (body.tokens ++ rest)).lexeme = .symbol .colon := body.starts_front rest
  have hitem := grammar_expression_name item.text item.position (body.endsExpression_front rest)
  have hitems : withItems (⟨.name item.text, item.position⟩ :: (body.tokens ++ rest)) =
      .ok ((), body.tokens ++ rest) := by
    have hrepeat : repeatWhile nextWithItem
        (⟨.name item.text, item.position⟩ :: (body.tokens ++ rest)) =
          .ok ((), body.tokens ++ rest) := by
      apply repeatWhile_of_false
      unfold nextWithItem withItem
      simp [hitem, hcolon]
    unfold withItems
    simp [hrepeat]
  simp only [tokens, tree, Identifier.token_eq, List.append_assoc, List.cons_append]
  refine statement_of_async (Grammar.withBlock p)
    (fun line isAsync => .block line (.withBlock isAsync) body.tree)
    rfl (fun _ => by simp [asyncStatement]) ?_
  intro line isAsync
  unfold Grammar.withBlock
  simp [hitems, hbody rest]

theorem functionDef_isRead {async : Option Position} {start opener closer : Position}
    {x : Identifier} {parameters : Option Names} {body : Outline .suite} (hbody : body.IsRead p) :
    (functionDef async start x opener parameters closer body).IsRead p := by
  intro rest _
  have hcolon : (front (body.tokens ++ rest)).lexeme = .symbol .colon := body.starts_front rest
  have hparameters := Names.parameters_read parameters closer (body.tokens ++ rest)
  simp only [tokens, tree, Identifier.token_eq, List.append_assoc, List.cons_append]
  refine statement_of_async (Grammar.functionDef p)
    (fun line isAsync => .functionDef line isAsync x.text
      { regular := parameters.elim [] fun names => names.toList.map (·.text) } body.tree)
    rfl (fun _ => by simp [asyncStatement]) ?_
  intro line isAsync
  unfold Grammar.functionDef typeParameters
  simp [hparameters, hcolon, hbody rest]

theorem classDef_isRead {start : Position} {x : Identifier} {body : Outline .suite}
    (hbody : body.IsRead p) : (classDef start x body).IsRead p := by
  intro rest _
  have hcolon : (front (body.tokens ++ rest)).lexeme = .symbol .colon := body.starts_front rest
  rw [tokens, tree, Identifier.token_eq, List.cons_append, List.cons_append]
  apply statement_of_compound rfl
  unfold Grammar.classDef typeParameters
  simp [hcolon, hbody rest]

theorem tryHandled_isRead {start : Position} {body : Outline .suite} {list : Outline .handlers}
    {last : Outline (.tail .else_)} {final : Outline (.tail .finally_)} (hbody : body.IsRead p)
    (hlist : list.IsRead p) (hlast : last.IsRead p) (hfinal : final.IsRead p) :
    (tryHandled start body list last final).IsRead p := by
  intro rest hrest
  -- Neither what is left out nor what follows the statement goes on with it.
  have hexcept : (front (last.tokens ++ (final.tokens ++ rest))).lexeme ≠ .keyword .except_ :=
    last.front_tail_ne (by decide) (final.front_tail_ne (by decide)
      (ne_keyword_of_continues hrest rfl))
  have helse : (front (final.tokens ++ rest)).lexeme ≠ .keyword .else_ :=
    final.front_tail_ne (by decide) (ne_keyword_of_continues hrest rfl)
  obtain ⟨alternative, halternative, hlastTree⟩ := hlast _ helse
  obtain ⟨ending, hending, hfinalTree⟩ := hfinal rest (ne_keyword_of_continues hrest rfl)
  have hrounds := hlist.2 ([], false) _ hexcept
  rw [List.nil_append, Bool.false_or] at hrounds
  have hloop := loop_of_rounds hrounds
  simp only [tokens, tree, List.append_assoc, List.cons_append]
  apply statement_of_compound rfl
  unfold Grammar.tryBlock
  simp [hbody _, hloop, hlist.1, halternative, hending, hlastTree, hfinalTree]

theorem tryFinal_isRead {start finalStart : Position} {body final : Outline .suite}
    (hbody : body.IsRead p) (hfinal : final.IsRead p) :
    (tryFinal start body finalStart final).IsRead p := by
  intro rest _
  have hloop : loop (nextHandler p) ([], false)
      (⟨.keyword .finally_, finalStart⟩ :: (final.tokens ++ rest)) =
        .ok (([], false), ⟨.keyword .finally_, finalStart⟩ :: (final.tokens ++ rest)) := by
    apply loop_of_done
    unfold nextHandler
    simp
  simp only [tokens, tree, List.append_assoc, List.cons_append]
  apply statement_of_compound rfl
  unfold Grammar.tryBlock optionalBody
  simp [hbody _, hloop, hfinal rest]

theorem matchBlock_isRead {start : Position} {subject : Identifier} {frame : Frame}
    {list : Outline .cases} (hlist : list.IsRead p) :
    (matchBlock start subject frame list).IsRead p := by
  intro rest _
  have hrounds := hlist.2 [] (⟨.dedent, frame.dedent⟩ :: rest) rfl
  rw [List.reverse_nil, List.nil_append] at hrounds
  have hloop := loop_of_rounds hrounds
  have hsubject := starExpressions_name subject.text subject.position
    (show endsExpression (front (⟨.symbol .colon, frame.colon⟩ :: ⟨.newline, frame.newline⟩
      :: ⟨.indent, frame.indent⟩ :: (list.tokens ++ ⟨.dedent, frame.dedent⟩ :: rest))).lexeme = true
      from rfl)
  unfold Grammar.statement atMatch Grammar.matchBlock
  simp [Frame.around, opensBlock, hsubject, hloop, hlist.1]

/-! ## Section 4: All parts -/

/-- How much longer than the fuel a part may be.  The first token of a
    statement is read before a reference is followed. -/
def slack : Part → Nat
  | .statement => 1
  | _ => 0

/-- **Every part is read back**, by the grammar that follows references
    as deep as the part has tokens.

    By induction on the outline.  The fuel shrinks where a reference is
    followed: at a statement of a block, and at an `elif`. -/
theorem isRead {part : Part} (o : Outline part) :
    ∀ fuel : List Token, o.tokens.length ≤ fuel.length + slack part →
      o.IsRead (statementsUpTo fuel) := by
  induction o with
  | jump => exact fun _ _ => jump_isRead
  | name => exact fun _ _ => name_isRead
  | assign => exact fun _ _ => assign_isRead
  | conditional _ _ _ _ ihbody ihbranch =>
    intro fuel hfuel
    simp only [tokens, slack, List.length_cons, List.length_append] at hfuel
    exact conditional_isRead
      (ihbody fuel (by simp only [slack]; omega))
      (ihbranch fuel (by simp only [slack]; omega))
  | whileLoop _ _ _ _ ihbody ihlast =>
    intro fuel hfuel
    simp only [tokens, slack, List.length_cons, List.length_append] at hfuel
    exact whileLoop_isRead
      (ihbody fuel (by simp only [slack]; omega))
      (ihlast fuel (by simp only [slack]; omega))
  | forLoop _ _ _ _ _ _ _ ihbody ihlast =>
    intro fuel hfuel
    simp only [tokens, slack, List.length_cons, List.length_append] at hfuel
    exact forLoop_isRead
      (ihbody fuel (by simp only [slack]; omega))
      (ihlast fuel (by simp only [slack]; omega))
  | tryHandled _ _ _ _ _ ihbody ihlist ihlast ihfinal =>
    intro fuel hfuel
    simp only [tokens, slack, List.length_cons, List.length_append] at hfuel
    exact tryHandled_isRead
      (ihbody fuel (by simp only [slack]; omega))
      (ihlist fuel (by simp only [slack]; omega))
      (ihlast fuel (by simp only [slack]; omega))
      (ihfinal fuel (by simp only [slack]; omega))
  | tryFinal _ _ _ _ ihbody ihfinal =>
    intro fuel hfuel
    simp only [tokens, slack, List.length_cons, List.length_append] at hfuel
    exact tryFinal_isRead
      (ihbody fuel (by simp only [slack]; omega))
      (ihfinal fuel (by simp only [slack]; omega))
  | withBlock _ _ _ _ ihbody =>
    intro fuel hfuel
    simp only [tokens, slack, List.length_cons, List.length_append] at hfuel
    exact withBlock_isRead (ihbody fuel (by simp only [slack]; omega))
  | functionDef _ _ _ _ _ _ _ ihbody =>
    intro fuel hfuel
    simp only [tokens, slack, List.length_cons, List.length_append] at hfuel
    exact functionDef_isRead (ihbody fuel (by simp only [slack]; omega))
  | classDef _ _ _ ihbody =>
    intro fuel hfuel
    simp only [tokens, slack, List.length_cons] at hfuel
    exact classDef_isRead (ihbody fuel (by simp only [slack]; omega))
  | matchBlock _ _ _ _ ihlist =>
    intro fuel hfuel
    simp only [tokens, slack, Frame.around, List.length_cons, List.length_append] at hfuel
    exact matchBlock_isRead (ihlist fuel (by simp only [slack]; omega))
  | single stmt ih =>
    intro fuel hfuel
    have hpos := stmt.length_tokens_pos id
    simp only [tokens, slack] at hfuel
    obtain ⟨t, fuel, rfl⟩ := List.exists_cons_of_length_pos (show 0 < fuel.length by omega)
    rw [List.length_cons] at hfuel
    exact single_isRead (fun _ => rfl) (ih fuel hfuel)
  | cons stmt stmts ih ihstmts =>
    intro fuel hfuel
    have hpos := stmt.length_tokens_pos id
    simp only [tokens, slack, List.length_append] at hfuel
    obtain ⟨t, fuel, rfl⟩ := List.exists_cons_of_length_pos (show 0 < fuel.length by omega)
    rw [List.length_cons] at hfuel
    exact cons_isRead (fun _ => rfl) (ih fuel (by simp only [slack]; omega))
      (ihstmts (t :: fuel) (by simp only [slack, List.length_cons]; omega))
  | suite _ _ ihblock =>
    intro fuel hfuel
    simp only [tokens, slack, Frame.around, List.length_cons, List.length_append] at hfuel
    exact suite_isRead (ihblock fuel (by simp only [slack]; omega))
  | absent => exact fun _ _ => absent_isRead
  | present _ _ _ ihbody =>
    intro fuel hfuel
    simp only [tokens, slack, List.length_cons] at hfuel
    exact present_isRead (ihbody fuel (by simp only [slack]; omega))
  | otherwise _ ihlast => exact fun fuel hfuel => otherwise_isRead (ihlast fuel hfuel)
  | elif _ _ _ _ ihbody ihbranch =>
    intro fuel hfuel
    simp only [tokens, slack, List.length_cons, List.length_append] at hfuel
    obtain ⟨t, fuel, rfl⟩ := List.exists_cons_of_length_pos (show 0 < fuel.length by omega)
    rw [List.length_cons] at hfuel
    exact elif_isRead (fun _ => rfl) (ihbody fuel (by simp only [slack]; omega))
      (ihbranch fuel (by simp only [slack]; omega))
  | handler _ _ _ _ ihbody =>
    intro fuel hfuel
    simp only [tokens, slack, List.length_cons, List.length_append] at hfuel
    exact handler_isRead (ihbody fuel (by simp only [slack]; omega))
  | singleHandler _ ih => exact fun fuel hfuel => singleHandler_isRead (ih fuel hfuel)
  | consHandler _ _ ih ihothers =>
    intro fuel hfuel
    simp only [tokens, slack, List.length_append] at hfuel
    exact consHandler_isRead
      (ih fuel (by simp only [slack]; omega))
      (ihothers fuel (by simp only [slack]; omega))
  | case _ _ _ ihbody =>
    intro fuel hfuel
    simp only [tokens, slack, List.length_cons] at hfuel
    exact case_isRead (ihbody fuel (by simp only [slack]; omega))
  | singleCase _ ih => exact fun fuel hfuel => singleCase_isRead (ih fuel hfuel)
  | consCase _ _ ih ihothers =>
    intro fuel hfuel
    simp only [tokens, slack, List.length_append] at hfuel
    exact consCase_isRead
      (ih fuel (by simp only [slack]; omega))
      (ihothers fuel (by simp only [slack]; omega))

/-- The parts that are one node of the tree. -/
def IsNode : {part : Part} → Outline part → Prop
  | .statement, _ | .handler, _ | .case, _ | .branch, elif .. => True
  | _, _ => False

/-- A node has the line of the first of its tokens. -/
theorem map_line_tree {part : Part} (o : Outline part) (h : o.IsNode) :
    o.tree.map Stmt.line = [(front o.tokens).position.line] := by
  cases o with
  | name | assign => simp [Names.tokens, Stmt.line]
  | forLoop async | withBlock async | functionDef async => cases async <;> rfl
  | jump | conditional | whileLoop | tryHandled | tryFinal | classDef | matchBlock => rfl
  | elif | handler | case => rfl
  | single | cons | suite | absent | present | otherwise => cases h
  | singleHandler | consHandler | singleCase | consCase => cases h

end Outline

/-! ## Section 5: Programs -/

namespace Module

open Outline

/-- The rounds that read a program up to its end marker. -/
theorem statements_rounds (place : Position) : ∀ (program : List (Outline .statement))
    (read : List Stmt),
    Rounds (nextStatement (· == .endMarker) statementGrammar.statement) read
      (program.flatMap tokens ++ [⟨.endMarker, place⟩])
      (read.reverse ++ program.flatMap tree) [⟨.endMarker, place⟩] := by
  intro program
  induction program with
  | nil =>
    intro read
    apply Rounds.done
    unfold nextStatement
    simp
  | cons stmt program ih =>
    intro read
    have hnext : (front (program.flatMap tokens ++ [⟨.endMarker, place⟩])).lexeme.continues
        = false := by
      cases program with
      | nil => rfl
      | cons next program =>
        rw [List.flatMap_cons, List.append_assoc]
        exact (next.starts_front _).2
    have hstart : ((front (stmt.tokens ++ (program.flatMap tokens
        ++ [⟨.endMarker, place⟩]))).lexeme == .endMarker) = false := by
      have hblock := (stmt.starts_front (program.flatMap tokens ++ [⟨.endMarker, place⟩])).1
      rw [beq_eq_false_iff_ne]
      intro h
      rw [h] at hblock
      cases hblock
    have hread : statementGrammar.statement (stmt.tokens ++ (program.flatMap tokens
        ++ [⟨.endMarker, place⟩])) =
          .ok (stmt.tree, program.flatMap tokens ++ [⟨.endMarker, place⟩]) := by
      refine stmt.isRead _ ?_ _ hnext
      rw [List.length_append]
      omega
    have hlength := stmt.length_lt_append id (program.flatMap tokens ++ [⟨.endMarker, place⟩])
    have hrounds := ih (stmt.tree.reverse ++ read)
    rw [List.reverse_append, List.reverse_reverse, List.append_assoc] at hrounds
    rw [List.flatMap_cons, List.flatMap_cons, List.append_assoc]
    exact .again (nextStatement_read hstart hread read) hlength hrounds

/-- **The round trip**: the tokens of a program and an end marker, at
    any places, are taken to the tree of the program, in which every node
    has the line of the first of its tokens. -/
theorem ofTokens_tokens (program : List (Outline .statement)) (place : Position) :
    ofTokens (program.flatMap tokens ++ [⟨.endMarker, place⟩]) = .ok (program.flatMap tree) ∧
    ∀ {part : Part} (o : Outline part), o.IsNode →
      o.tree.map Stmt.line = [(front o.tokens).position.line] := by
  refine ⟨?_, fun o => o.map_line_tree⟩
  have hmarker : withEndMarker (program.flatMap tokens ++ [⟨.endMarker, place⟩]) =
      program.flatMap tokens ++ [⟨.endMarker, place⟩] := by
    unfold withEndMarker
    simp
  have hloop := loop_of_rounds (statements_rounds place program [])
  unfold ofTokens parser statementsUntil
  rw [hmarker, hloop]
  rfl

/-- An `elif` is the last statement below its `if`, and has a line of
    its own. -/
theorem ofTokens_elif : ofTokens
    [⟨.keyword .if_, ⟨1, 1⟩⟩, ⟨.name (ascii "x"), ⟨1, 4⟩⟩, ⟨.symbol .colon, ⟨1, 5⟩⟩,
     ⟨.newline, ⟨1, 6⟩⟩, ⟨.indent, ⟨2, 5⟩⟩, ⟨.keyword .pass_, ⟨2, 5⟩⟩, ⟨.newline, ⟨2, 9⟩⟩,
     ⟨.dedent, ⟨3, 1⟩⟩, ⟨.keyword .elif_, ⟨3, 1⟩⟩, ⟨.name (ascii "y"), ⟨3, 6⟩⟩,
     ⟨.symbol .colon, ⟨3, 7⟩⟩, ⟨.newline, ⟨3, 8⟩⟩, ⟨.indent, ⟨4, 5⟩⟩,
     ⟨.keyword .break_, ⟨4, 5⟩⟩, ⟨.newline, ⟨4, 10⟩⟩, ⟨.dedent, ⟨5, 1⟩⟩,
     ⟨.endMarker, ⟨5, 1⟩⟩] =
    .ok [.block 1 .conditional [.simple 2 .pass, .block 3 .conditional [.simple 4 .breakLoop]]] := by
  let first : Outline .suite := suite ⟨⟨1, 5⟩, ⟨1, 6⟩, ⟨2, 5⟩, ⟨3, 1⟩⟩
    (single (jump .pass ⟨2, 5⟩ ⟨2, 9⟩))
  let second : Outline .suite := suite ⟨⟨3, 7⟩, ⟨3, 8⟩, ⟨4, 5⟩, ⟨5, 1⟩⟩
    (single (jump .breakLoop ⟨4, 5⟩ ⟨4, 10⟩))
  let branch := elif ⟨3, 1⟩ ⟨ascii "y", ⟨3, 6⟩, rfl⟩ second (otherwise (absent .else_))
  exact (ofTokens_tokens [conditional ⟨1, 1⟩ ⟨ascii "x", ⟨1, 4⟩, rfl⟩ first branch] ⟨5, 1⟩).1

end Module

end StyleCheck
