import StyleCheck.Proofs.Parsing.Remainder

/-! # The Grammar without Fuel

    The grammar refers to itself through records of parsers, and follows a
    reference at most as deep as there are tokens.  A reference stands
    behind a token that has been read, so that bound is never met: the
    grammar is made of its own parsers.

    * `Agrees`: two parsers do the same with streams up to some length.
      There is a rule for each way to compose parsers.
    * `Nonterminals.Agree`, `StatementParsers.Agree`: the same for the
      references.  A parser that reads a token before it follows one agrees
      on streams that are longer by that token.
    * `grammar_closed`, `statementGrammar_closed`: the equations of the
      grammar.
-/

namespace StyleCheck

open StyleCheck.Parser

/-! ## Section 1: Parsers that agree -/

namespace Parser

variable {α β σ : Type} {n : Nat} {p p' q q' : Parser α}

/-- Two parsers do the same with streams of at most `n` tokens, and leave
    the end of what they were given. -/
structure Agrees (n : Nat) (p q : Parser α) : Prop where
  same : ∀ ts : List Token, ts.length ≤ n → p ts = q ts
  keeps : Keeps p

namespace Agrees

theorem refl (hp : Keeps p) : Agrees n p p := ⟨fun _ _ => rfl, hp⟩

theorem pure (a : α) : Agrees n (Pure.pure a : Parser α) (Pure.pure a) := refl (.pure a)

theorem fail (fault : Fault) : Agrees n (Parser.fail fault : Parser α) (Parser.fail fault) :=
  refl (.fail fault)

theorem spent : Agrees n (Parser.spent : Parser α) Parser.spent := refl .spent

/-- The only stream without a token is the empty one. -/
theorem zero (hp : Keeps p) (h : p [] = q []) : Agrees 0 p q := by
  refine ⟨fun ts hts => ?_, hp⟩
  rw [List.length_eq_zero_iff.mp (Nat.le_zero.mp hts)]
  exact h

theorem mono {m : Nat} (h : Agrees n p q) (hle : m ≤ n) : Agrees m p q :=
  ⟨fun ts hts => h.same ts (Nat.le_trans hts hle), h.keeps⟩

/-- On streams that are shorter by a token. -/
theorem less (h : Agrees (n + 1) p q) : Agrees n p q := h.mono (Nat.le_succ n)

theorem bind {r r' : Parser β} {f f' : β → Parser α} (hr : Agrees n r r')
    (hf : ∀ b, Agrees n (f b) (f' b)) : Agrees n (r >>= f) (r' >>= f') := by
  refine ⟨fun ts hts => ?_, hr.keeps.bind fun b => (hf b).keeps⟩
  rw [bind_apply, bind_apply, ← hr.same ts hts]
  refine Result.andThen_congr fun b hread => (hf b).same _ ?_
  exact Nat.le_trans (hr.keeps.length_le hread) hts

/-- The two begin with one parser. -/
theorem look {r : Parser β} {f f' : β → Parser α} (hkeeps : Keeps r)
    (hf : ∀ b, Agrees n (f b) (f' b)) : Agrees n (r >>= f) (r >>= f') := bind (refl hkeeps) hf

/-- Behind a token that has been read, it is enough to agree on shorter
    streams. -/
theorem behind {r r' : Parser β} {f f' : β → Parser α} (hr : Agrees (n + 1) r r')
    (hadvances : Advances r) (hf : ∀ b, Agrees n (f b) (f' b)) :
    Agrees (n + 1) (r >>= f) (r' >>= f') := by
  refine ⟨fun ts hts => ?_, hr.keeps.bind fun b => (hf b).keeps⟩
  rw [bind_apply, bind_apply, ← hr.same ts hts]
  refine Result.andThen_congr fun b hread => (hf b).same _ ?_
  have hlength := hadvances.length_le hread
  omega

/-- The two begin with one parser, which reads a token. -/
theorem read {r : Parser β} {f f' : β → Parser α} (hadvances : Advances r)
    (hf : ∀ b, Agrees n (f b) (f' b)) : Agrees (n + 1) (r >>= f) (r >>= f') :=
  behind (refl hadvances.keeps) hadvances hf

theorem ite {c : Prop} [Decidable c] (hp : Agrees n p p') (hq : Agrees n q q') :
    Agrees n (if c then p else q) (if c then p' else q') := by
  split
  · exact hp
  · exact hq

/-- In the one case a token has been read. -/
theorem acceptIf {test : Lexeme → Bool} (hp : Agrees n p p') (hq : Agrees (n + 1) q q') :
    Agrees (n + 1) (Parser.acceptIf test >>= fun read => if read then p else q)
      (Parser.acceptIf test >>= fun read => if read then p' else q') := by
  refine ⟨fun ts hts => ?_, (Keeps.acceptIf test).bind fun _ => hp.keeps.ite hq.keeps⟩
  rw [bind_apply, bind_apply, acceptIf_apply]
  cases htest : test (front ts).lexeme with
  | true =>
    have htail : ts.tail.length ≤ n := by
      rw [List.length_tail]
      omega
    exact hp.same ts.tail htail
  | false => exact hq.same ts hts

theorem accept {symbol : Symbol} (hp : Agrees n p p') (hq : Agrees (n + 1) q q') :
    Agrees (n + 1) (Parser.accept symbol >>= fun read => if read then p else q)
      (Parser.accept symbol >>= fun read => if read then p' else q') := acceptIf hp hq

theorem acceptKeyword {keyword : Keyword} (hp : Agrees n p p') (hq : Agrees (n + 1) q q') :
    Agrees (n + 1) (Parser.acceptKeyword keyword >>= fun read => if read then p else q)
      (Parser.acceptKeyword keyword >>= fun read => if read then p' else q') := acceptIf hp hq

/-- The rounds agree, so the loops do. -/
theorem loop {body body' : σ → Parser (Next σ α)}
    (h : ∀ state, Agrees n (body state) (body' state)) (state : σ) :
    Agrees n (Parser.loop body state) (Parser.loop body' state) := by
  have hfor : ∀ (fuel : List Token) (state : σ),
      Agrees n (loopFor body fuel state) (loopFor body' fuel state) := by
    intro fuel
    induction fuel with
    | nil => exact fun _ => spent
    | cons _ fuel ih =>
      intro state
      unfold loopFor
      refine bind (h state) fun next => ?_
      cases next with
      | again state => exact ih state
      | done a => exact pure a
  exact ⟨fun ts hts => (hfor _ state).same ts hts, .loop (fun state => (h state).keeps) state⟩

theorem repeatWhile {body body' : Parser Bool} (h : Agrees n body body') :
    Agrees n (Parser.repeatWhile body) (Parser.repeatWhile body') :=
  loop (fun _ => bind h fun _ => ite (pure _) (pure _)) ()

end Agrees

/-- Two parsers read a token, and agree if they do behind it. -/
structure Enters (n : Nat) (p q : Parser α) : Prop extends Agrees (n + 1) p q where
  advances : Advances p

namespace Enters

theorem fail (fault : Fault) : Enters n (Parser.fail fault : Parser α) (Parser.fail fault) :=
  ⟨.fail fault, .fail fault⟩

/-- A token may be read first, or not. -/
theorem look {r : Parser β} {f f' : β → Parser α} (hkeeps : Keeps r)
    (hf : ∀ b, Enters n (f b) (f' b)) : Enters n (r >>= f) (r >>= f') :=
  ⟨.look hkeeps fun b => (hf b).toAgrees, .behind hkeeps fun b => (hf b).advances⟩

theorem read {r : Parser β} {f f' : β → Parser α} (hadvances : Advances r)
    (hf : ∀ b, Agrees n (f b) (f' b)) : Enters n (r >>= f) (r >>= f') :=
  ⟨.read hadvances hf, .bind hadvances fun b => (hf b).keeps⟩

theorem behind {r r' : Parser β} {f f' : β → Parser α} (hr : Enters n r r')
    (hf : ∀ b, Agrees n (f b) (f' b)) : Enters n (r >>= f) (r' >>= f') :=
  ⟨.behind hr.toAgrees hr.advances hf, .bind hr.advances fun b => (hf b).keeps⟩

theorem ite {c : Prop} [Decidable c] (hp : Enters n p p') (hq : Enters n q q') :
    Enters n (if c then p else q) (if c then p' else q') :=
  ⟨.ite hp.toAgrees hq.toAgrees, .ite hp.advances hq.advances⟩

theorem less (h : Enters n p q) : Agrees n p q := h.toAgrees.less

end Enters

end Parser

/-! ## Section 2: Lists and clauses -/

/-- The references of two grammars agree on streams of at most `n`
    tokens. -/
structure Nonterminals.Agree (n : Nat) (g g' : Nonterminals) : Prop where
  keep : g.Keep
  expression : Agrees n g.expression g'.expression
  disjunction : Agrees n g.disjunction g'.disjunction
  inversion : Agrees n g.inversion g'.inversion
  operand : Agrees n g.operand g'.operand
  factor : Agrees n g.factor g'.factor

namespace Grammar

variable {n : Nat} {g g' : Nonterminals} (h : g.Agree n g')

include h

theorem starExpression_agrees : Agrees n (starExpression g) (starExpression g') := by
  unfold starExpression
  exact .look .position fun _ => .look (.accept _) fun _ =>
    .ite (.bind h.operand fun _ => .pure _) h.expression

theorem starExpressions_agrees : Agrees n (starExpressions g) (starExpressions g') := by
  have hfirst := starExpression_agrees h
  unfold starExpressions nextStarExpression
  refine .look .position fun _ => .bind hfirst fun _ => .look (.atSymbol _) fun _ =>
    .ite ?_ (.pure _)
  refine .bind (.repeatWhile (.look (.accept _) fun _ => .ite ?_ (.pure _))) fun _ => .pure _
  exact .look .peek fun _ => .ite (.bind hfirst fun _ => .pure _) (.pure _)

theorem namedExpression_agrees : Agrees n (namedExpression g) (namedExpression g') := by
  unfold namedExpression
  refine .look .position fun _ => .look .peek fun _ => .look .peekSecond fun _ =>
    .ite ?_ h.expression
  exact .look .name fun _ => .look .advance fun _ => .bind h.expression fun _ => .pure _

theorem element_agrees : Agrees n (element g) (element g') := by
  unfold element
  exact .look (.atSymbol _) fun _ => .ite (starExpression_agrees h) (namedExpression_agrees h)

theorem moreElements_agrees (closer : Bracket) :
    Agrees n (moreElements g closer) (moreElements g' closer) := by
  unfold moreElements nextElement
  refine .repeatWhile (.look (.accept _) fun _ => .ite ?_ (.pure _))
  exact .look (.atSymbol _) fun _ => .ite (.pure _) (.bind (element_agrees h) fun _ => .pure _)

theorem target_agrees : Agrees n (target g) (target g') := by
  unfold target
  exact .look (.atSymbol _) fun _ => .ite (starExpression_agrees h) h.operand

theorem targets_agrees : Agrees n (targets g) (targets g') := by
  have htarget := target_agrees h
  unfold targets nextTarget
  refine .look .position fun _ => .bind htarget fun _ => .look (.atSymbol _) fun _ =>
    .ite ?_ (.pure _)
  refine .bind (.repeatWhile (.look (.accept _) fun _ => .ite ?_ (.pure _))) fun _ => .pure _
  exact .look .peek fun _ => .ite (.pure _) (.bind htarget fun _ => .pure _)

theorem clause_agrees : Agrees n (clause g) (clause g') := by
  unfold clause nextCondition
  refine .bind (targets_agrees h) fun _ => .look (.expectKeyword _ _) fun _ =>
    .bind h.disjunction fun _ => .repeatWhile ?_
  exact .look (.acceptKeyword _) fun _ => .ite (.bind h.disjunction fun _ => .pure _) (.pure _)

theorem comprehension_agrees : Agrees n (comprehension g) (comprehension g') := by
  have hclause := clause_agrees h
  unfold comprehension nextClause
  refine .look acceptFor_spends.keeps fun _ =>
    .ite (.bind hclause fun _ => .repeatWhile ?_) (.fail _)
  exact .look acceptFor_spends.keeps fun _ => .ite (.bind hclause fun _ => .pure _) (.pure _)

theorem argument_agrees : Agrees n (argument g) (argument g') := by
  unfold argument
  refine .look .peek fun _ => .look .peekSecond fun _ => .look (.acceptIf _) fun _ => .ite ?_ ?_
  · exact .bind h.expression fun _ => .pure _
  refine .ite ?_ ?_
  · exact .look .advance fun _ => .look .advance fun _ => .bind h.expression fun _ => .pure _
  · exact .bind (namedExpression_agrees h) fun _ => .look atComprehension_keeps fun _ =>
      .ite (comprehension_agrees h) (.pure _)

/-- The bracket stands before the first reference. -/
theorem arguments_agrees : Agrees (n + 1) (arguments g) (arguments g') := by
  unfold arguments nextArgument
  refine .read (.expect _) fun _ => .bind (.repeatWhile ?_) fun _ => .refl (.expect _)
  exact .look (.atSymbol _) fun _ =>
    .ite (.pure _) (.bind (argument_agrees h) fun _ => .refl (.accept _))

theorem laterBounds_agrees : Agrees n (laterBounds g) (laterBounds g') := by
  unfold laterBounds
  refine .look .peek fun _ => .ite ?_ (.bind h.expression fun _ => ?_)
  -- With or without a bound, the same may follow.
  all_goals
    refine .look (.accept _) fun _ => .ite ?_ (.pure _)
    exact .look .peek fun _ => .ite (.pure _) (.bind h.expression fun _ => .pure _)

theorem slice_agrees : Agrees n (slice g) (slice g') := by
  have hbounds : Agrees n (do if ← accept .colon then laterBounds g)
      (do if ← accept .colon then laterBounds g') :=
    .look (.accept _) fun _ => .ite (laterBounds_agrees h) (.pure _)
  unfold slice
  refine .look (.atSymbol _) fun _ => .ite ?_ ?_
  · exact .bind (starExpression_agrees h) fun _ => .pure _
  · exact .look (.atSymbol _) fun _ =>
      .ite hbounds (.bind (namedExpression_agrees h) fun _ => hbounds)

theorem slices_agrees : Agrees n (slices g) (slices g') := by
  unfold slices nextSlice
  refine .look (.atSymbol _) fun _ => .ite (.fail _) (.repeatWhile ?_)
  refine .bind (slice_agrees h) fun _ => .look (.accept _) fun _ => .ite ?_ (.pure _)
  exact .look (.atSymbol _) fun _ => .pure _

/-! ## Section 3: Parameters -/

theorem typeHint_agrees (annotated starred : Bool) :
    Agrees n (typeHint g annotated starred) (typeHint g' annotated starred) := by
  unfold typeHint
  refine .ite (.look (.accept _) fun _ => .ite ?_ (.pure _)) (.pure _)
  exact .ite (.bind (starExpression_agrees h) fun _ => .pure _)
    (.bind h.expression fun _ => .pure _)

theorem parameter_agrees (closer : Symbol) (annotated : Bool) (read : Parameters) :
    Agrees n (parameter g closer annotated read) (parameter g' closer annotated read) := by
  have hcolon := typeHint_agrees h annotated
  have hnext : ∀ read : Parameters, Keeps (do
      if ← accept .comma then pure (Next.again read) else pure (Next.done (σ := Parameters) read)) :=
    fun read => .bind (.accept _) fun _ => .ite (.pure _) (.pure _)
  unfold parameter
  refine .look .position fun _ => .look (.atSymbol _) fun _ => .ite (.pure _) ?_
  refine .look (.atSymbol _) fun _ => .ite ?_ (.look (.atSymbol _) fun _ => .ite ?_
    (.look (.accept _) fun _ => .ite ?_ ?_))
  -- A slash.
  · exact .ite (.fail _) (.refl (.bind .advance fun _ => hnext _))
  -- A star, with a name or without.
  · refine .ite (.fail _) (.look .advance fun _ => .look .peek fun _ => .ite ?_ (.refl (hnext _)))
    exact .look .name fun _ => .bind (hcolon _) fun _ => .refl (hnext _)
  -- Two stars.
  · refine .look .name fun _ => .bind (hcolon _) fun _ => .look (.accept _) fun _ => ?_
    exact .look (.atSymbol _) fun _ => .ite (.pure _) (.fail _)
  -- A name, with a default or without.
  · refine .look .name fun _ => .bind (hcolon _) fun _ => .look (.accept _) fun _ => .ite ?_ ?_
    · exact .bind h.expression fun _ => .ite (.refl (hnext _)) (.refl (hnext _))
    · exact .ite (.ite (.refl (.failAt _ _)) (.refl (hnext _))) (.refl (hnext _))

theorem parameters_agrees (closer : Symbol) (annotated : Bool) :
    Agrees n (parameters g closer annotated) (parameters g' closer annotated) :=
  .loop (parameter_agrees h closer annotated) _

/-! ## Section 4: Atoms -/

theorem yieldExpression_agrees : Agrees (n + 1) (yieldExpression g) (yieldExpression g') := by
  unfold yieldExpression
  refine .look .position fun _ => .read .advance fun _ => .look (.acceptKeyword _) fun _ => ?_
  refine .ite (.bind h.expression fun _ => .pure _) ?_
  exact .look .peek fun _ => .ite (.bind (starExpressions_agrees h) fun _ => .pure _) (.pure _)

theorem parenthesized_agrees : Agrees (n + 1) (parenthesized g) (parenthesized g') := by
  unfold parenthesized
  refine .look .position fun _ => .read .advance fun _ => .look (.accept _) fun _ => ?_
  refine .ite (.pure _) (.look (.atKeyword _) fun _ =>
    .ite ?_ (.bind (element_agrees h) fun _ => ?_))
  · exact .bind (yieldExpression_agrees h).less fun _ => .look (.expect _) fun _ => .pure _
  refine .look atComprehension_keeps fun _ => .ite ?_ (.look (.atSymbol _) fun _ => .ite ?_ ?_)
  · exact .bind (comprehension_agrees h) fun _ => .look (.expect _) fun _ => .pure _
  · exact .bind (moreElements_agrees h _) fun _ => .look (.expect _) fun _ => .pure _
  · exact .look (.expect _) fun _ => .pure _

theorem listDisplay_agrees : Agrees (n + 1) (listDisplay g) (listDisplay g') := by
  unfold listDisplay
  refine .look .position fun _ => .read .advance fun _ => .look (.accept _) fun _ => ?_
  refine .ite (.pure _) (.bind (element_agrees h) fun _ => .look atComprehension_keeps fun _ =>
    .ite ?_ ?_)
  · exact .bind (comprehension_agrees h) fun _ => .look (.expect _) fun _ => .pure _
  · exact .bind (moreElements_agrees h _) fun _ => .look (.expect _) fun _ => .pure _

theorem item_agrees : Agrees n (item g) (item g') := by
  unfold item
  refine .look (.accept _) fun _ => .ite (.bind h.operand fun _ => .pure _) ?_
  exact .bind h.expression fun _ => .look (.expect _) fun _ => .bind h.expression fun _ => .pure _

theorem moreItems_agrees : Agrees n (moreItems g) (moreItems g') := by
  unfold moreItems nextItem
  refine .bind (.repeatWhile (.look (.accept _) fun _ => .ite ?_ (.pure _))) fun _ =>
    .refl (.expect _)
  exact .look (.atSymbol _) fun _ => .ite (.pure _) (.bind (item_agrees h) fun _ => .pure _)

theorem braceDisplay_agrees : Agrees (n + 1) (braceDisplay g) (braceDisplay g') := by
  have hcomprehension : ∀ e : Expr, Agrees n
      (do
        comprehension g
        expect (.closing .curly)
        pure e)
      (do
        comprehension g'
        expect (.closing .curly)
        pure e) :=
    fun e => .bind (comprehension_agrees h) fun _ => .look (.expect _) fun _ => .pure e
  unfold braceDisplay
  refine .look .position fun _ => .read .advance fun _ => .look (.accept _) fun _ => ?_
  refine .ite (.pure _) (.look (.atSymbol _) fun _ => .ite ?_ ?_)
  · exact .bind (item_agrees h) fun _ => .bind (moreItems_agrees h) fun _ => .pure _
  refine .bind (element_agrees h) fun _ => .look (.accept _) fun _ => .ite ?_ ?_
  · refine .bind h.expression fun _ => .look atComprehension_keeps fun _ =>
      .ite (hcomprehension _) ?_
    exact .bind (moreItems_agrees h) fun _ => .pure _
  · refine .look atComprehension_keeps fun _ => .ite (hcomprehension _) ?_
    exact .bind (moreElements_agrees h _) fun _ => .look (.expect _) fun _ => .pure _

theorem atom_agrees : Agrees (n + 1) (atom g) (atom g') := by
  have hone : ∀ e : Expr, Keeps (do
      advance
      pure e) := fun e => .bind .advance fun _ => .pure e
  unfold atom
  refine .look .position fun _ => .look .peek fun l => ?_
  split
  case h_1 => exact .ite (.refl (hone _)) (.fail _)
  case h_2 | h_3 | h_8 => exact .refl (hone _)
  case h_4 => exact .refl strings_keeps
  case h_5 => exact parenthesized_agrees h
  case h_6 => exact listDisplay_agrees h
  case h_7 => exact braceDisplay_agrees h
  case h_9 => exact .fail _

theorem primary_agrees : Agrees (n + 1) (primary g) (primary g') := by
  unfold primary
  refine .look .position fun _ => .bind (atom_agrees h) fun _ => .loop (fun _ => ?_) _
  unfold nextTrailer
  refine .look (.accept _) fun _ => .ite (.look .name fun _ => .pure _) ?_
  refine .look (.atSymbol _) fun _ => .ite (.bind (arguments_agrees h) fun _ => .pure _) ?_
  exact .accept (.bind (slices_agrees h) fun _ => .look (.expect _) fun _ => .pure _) (.pure _)

/-! ## Section 5: Operators -/

omit h in
theorem chain_agrees {operator : Parser Bool} {operand operand' : Parser Expr}
    (hoperator : Keeps operator) (hoperand : Agrees n operand operand') :
    Agrees n (chain operator operand) (chain operator operand') := by
  unfold chain
  refine .look .position fun _ => .bind hoperand fun _ => .loop (fun _ => ?_) _
  unfold nextOperand
  exact .look hoperator fun _ => .ite (.bind hoperand fun _ => .pure _) (.pure _)

/-- The operand stands before the power. -/
theorem power_agrees : Agrees (n + 1) (power g) (power g') := by
  unfold power
  refine .look .position fun _ => .look (.acceptKeyword _) fun _ =>
    .behind (primary_agrees h) (primary_advances h.keep) fun _ => ?_
  exact .look (.accept _) fun _ => .ite (.bind h.factor fun _ => .pure _) (.ite (.pure _) (.pure _))

theorem factor_agrees : Agrees (n + 1) (factor g) (factor g') := by
  unfold factor
  exact .look .position fun _ => .acceptIf (.bind h.factor fun _ => .pure _) (power_agrees h)

theorem binary_agrees (levels : List (List Symbol)) :
    Agrees (n + 1) (binary g levels) (binary g' levels) := by
  induction levels with
  | nil => exact factor_agrees h
  | cons level tighter ih => exact chain_agrees (.acceptIf _) ih

theorem comparison_agrees : Agrees (n + 1) (comparison g) (comparison g') :=
  chain_agrees acceptComparison_keeps (binary_agrees h _)

theorem inversion_agrees : Agrees (n + 1) (inversion g) (inversion g') := by
  unfold inversion
  exact .look .position fun _ =>
    .acceptKeyword (.bind h.inversion fun _ => .pure _) (comparison_agrees h)

theorem disjunction_agrees : Agrees (n + 1) (disjunction g) (disjunction g') :=
  chain_agrees (.acceptKeyword _) (chain_agrees (.acceptKeyword _) (inversion_agrees h))

theorem lambda_agrees : Agrees (n + 1) (lambda g) (lambda g') := by
  unfold lambda
  exact .look .position fun _ => .read .advance fun _ => .bind (parameters_agrees h _ _) fun _ =>
    .look (.expect _) fun _ => .bind h.expression fun _ => .pure _

theorem expression_agrees : Agrees (n + 1) (expression g) (expression g') := by
  unfold expression
  refine .look .position fun _ => .look (.atKeyword _) fun _ => .ite (lambda_agrees h) ?_
  refine .behind (disjunction_agrees h) (disjunction_advances h.keep) fun _ => ?_
  refine .look (.acceptKeyword _) fun _ => .ite ?_ (.pure _)
  exact .bind h.disjunction fun _ => .look (.expectKeyword _ _) fun _ =>
    .bind h.expression fun _ => .pure _

/-! ## Section 6: The knot of expressions -/

omit h in
theorem chain_nil {operator : Parser Bool} {operand : Parser Expr}
    (hoperand : operand [] = fail .invalidSyntax []) :
    chain operator operand [] = fail .invalidSyntax [] := by
  unfold chain
  simp only [bind_apply, position_apply, Result.andThen_ok, hoperand]
  rfl

omit h in
theorem factor_nil (g : Nonterminals) : factor g [] = fail .invalidSyntax [] := rfl

omit h in
theorem binary_nil (g : Nonterminals) (levels : List (List Symbol)) :
    binary g levels [] = fail .invalidSyntax [] := by
  induction levels with
  | nil => exact factor_nil g
  | cons level tighter ih => exact chain_nil ih

omit h in
theorem inversion_nil (g : Nonterminals) : inversion g [] = fail .invalidSyntax [] := by
  have hcomparison : comparison g [] = fail .invalidSyntax [] := chain_nil (binary_nil g _)
  unfold inversion
  simpa [front] using hcomparison

omit h in
theorem disjunction_nil (g : Nonterminals) : disjunction g [] = fail .invalidSyntax [] :=
  chain_nil (chain_nil (inversion_nil g))

omit h in
theorem expression_nil (g : Nonterminals) : expression g [] = fail .invalidSyntax [] := by
  unfold expression
  simp [front, disjunction_nil, fail]

variable {bottom bottom' : Nonterminals} {fuel fuel' : List Token}

omit h in
/-- With fuel for more tokens than a stream has, it does not matter how much
    there is, nor what is below. -/
theorem grammarOver_agree (hbottom : bottom.Keep) (hfuel : n < fuel.length)
    (hfuel' : n < fuel'.length) : (grammarOver bottom fuel).Agree n (grammarOver bottom' fuel') := by
  induction n generalizing fuel fuel' with
  | zero =>
    have hkeep := grammarOver_keep hbottom fuel
    obtain ⟨_, fuel, rfl⟩ := List.exists_cons_of_length_pos hfuel
    obtain ⟨_, fuel', rfl⟩ := List.exists_cons_of_length_pos hfuel'
    -- At the end of a stream no reference is followed.
    exact ⟨hkeep, .zero hkeep.expression ((expression_nil _).trans (expression_nil _).symm),
      .zero hkeep.disjunction ((disjunction_nil _).trans (disjunction_nil _).symm),
      .zero hkeep.inversion_advances.keeps ((inversion_nil _).trans (inversion_nil _).symm),
      .zero hkeep.operand ((binary_nil _ _).trans (binary_nil _ _).symm),
      .zero hkeep.factor ((factor_nil _).trans (factor_nil _).symm)⟩
  | succ n ih =>
    cases fuel with
    | nil => simp at hfuel
    | cons token fuel =>
      cases fuel' with
      | nil => simp at hfuel'
      | cons token' fuel' =>
        have h := ih (Nat.lt_of_succ_lt_succ hfuel) (Nat.lt_of_succ_lt_succ hfuel')
        exact ⟨grammarOver_keep hbottom _, expression_agrees h, disjunction_agrees h,
          inversion_agrees h, binary_agrees h _, factor_agrees h⟩

omit h in
/-- The grammar has fuel enough, so that its fuel may run out to anything. -/
theorem grammarOver_agree_grammar (hbottom : bottom.Keep) (hfuel : n < fuel.length) :
    (grammarOver bottom fuel).Agree n grammar := by
  have hkeep := grammarOver_keep hbottom fuel
  -- The grammar takes the stream for fuel, behind one more reference.
  have hagree : ∀ ts : List Token, ts.length ≤ n →
      (grammarOver bottom fuel).Agree ts.length (grammarUpTo (front ts :: ts)) := fun ts hts =>
    grammarOver_agree hbottom (Nat.lt_of_le_of_lt hts hfuel) (Nat.lt_succ_self _)
  exact ⟨hkeep,
    ⟨fun ts hts => (hagree ts hts).expression.same ts (Nat.le_refl _), hkeep.expression⟩,
    ⟨fun ts hts => (hagree ts hts).disjunction.same ts (Nat.le_refl _), hkeep.disjunction⟩,
    ⟨fun ts hts => (hagree ts hts).inversion.same ts (Nat.le_refl _),
      hkeep.inversion_advances.keeps⟩,
    ⟨fun ts hts => (hagree ts hts).operand.same ts (Nat.le_refl _), hkeep.operand⟩,
    ⟨fun ts hts => (hagree ts hts).factor.same ts (Nat.le_refl _), hkeep.factor⟩⟩

end Grammar

/-- The references of a grammar are its own parsers. -/
structure Nonterminals.Closed (g : Nonterminals) : Prop where
  expression : g.expression = Grammar.expression g
  disjunction : g.disjunction = Grammar.disjunction g
  inversion : g.inversion = Grammar.inversion g
  operand : g.operand = Grammar.operand g
  factor : g.factor = Grammar.factor g

/-- **The grammar of expressions needs no fuel.** -/
theorem grammar_closed : grammar.Closed := by
  have h : ∀ ts : List Token, (Grammar.grammarUpTo (front ts :: ts)).Agree ts.length grammar :=
    fun ts => Grammar.grammarOver_agree_grammar Grammar.spent_keep (Nat.lt_succ_self _)
  -- One more reference may be followed.
  have hmore : ∀ ts : List Token, (Grammar.grammarUpTo (front ts :: ts)).Agree ts.length
      (Grammar.grammarUpTo (front ts :: front ts :: ts)) := fun ts =>
    Grammar.grammarOver_agree Grammar.spent_keep (Nat.lt_succ_self _)
      (Nat.lt_succ_of_lt (Nat.lt_succ_self _))
  have hle := fun ts : List Token => Nat.le_refl ts.length
  exact ⟨
    funext fun ts => ((hmore ts).expression.same ts (hle ts)).trans
      ((Grammar.expression_agrees (h ts)).less.same ts (hle ts)),
    funext fun ts => ((hmore ts).disjunction.same ts (hle ts)).trans
      ((Grammar.disjunction_agrees (h ts)).less.same ts (hle ts)),
    funext fun ts => ((hmore ts).inversion.same ts (hle ts)).trans
      ((Grammar.inversion_agrees (h ts)).less.same ts (hle ts)),
    funext fun ts => ((hmore ts).operand.same ts (hle ts)).trans
      ((Grammar.binary_agrees (h ts) _).less.same ts (hle ts)),
    funext fun ts => ((hmore ts).factor.same ts (hle ts)).trans
      ((Grammar.factor_agrees (h ts)).less.same ts (hle ts))⟩

/-! ## Section 7: Compound statements -/

/-- The references of two grammars agree on streams of at most `n`
    tokens. -/
structure StatementParsers.Agree (n : Nat) (p p' : StatementParsers) : Prop where
  statement : Agrees n p.statement p'.statement
  conditional : Agrees n p.conditional p'.conditional

/-- The parsers that are referred back to leave the end of what they were
    given, and a statement reads a token. -/
structure StatementParsers.Keep (p : StatementParsers) : Prop where
  statement_advances : Advances p.statement
  conditional : Keeps p.conditional

theorem StatementParsers.Keep.agree {p : StatementParsers} (hp : p.Keep) (n : Nat) : p.Agree n p :=
  ⟨.refl hp.statement_advances.keeps, .refl hp.conditional⟩

namespace Grammar

theorem statementsUntil_agrees {n : Nat} {statement statement' : Parser (List Stmt)}
    (ends : Lexeme → Bool) (h : Agrees n statement statement') :
    Agrees n (statementsUntil ends statement) (statementsUntil ends statement') := by
  unfold statementsUntil
  refine .loop (fun _ => ?_) _
  unfold nextStatement
  exact .look .peek fun _ => .ite (.pure _) (.bind h fun _ => .pure _)

variable {n : Nat} {p p' : StatementParsers} (h : p.Agree n p')

include h

/-- A block stands behind its line, and statements on the line itself
    have no references. -/
theorem suite_agrees : Agrees (n + 1) (suite p) (suite p') := by
  unfold suite
  refine .acceptIf (.look (.acceptIf _) fun _ => .ite ?_ (.fail _))
    (.refl simpleStatements_advances.keeps)
  exact .bind (statementsUntil_agrees _ h.statement) fun _ => .look (.acceptIf _) fun _ => .pure _

theorem body_agrees : Agrees n (body p) (body p') := by
  unfold body
  exact .look (.expect _) fun _ => (suite_agrees h).less

theorem optionalBody_agrees (keyword : Keyword) :
    Agrees n (optionalBody p keyword) (optionalBody p' keyword) := by
  unfold optionalBody
  exact .look (.acceptKeyword _) fun _ => .ite (.bind (body_agrees h) fun _ => .pure _) (.pure _)

theorem alternative_agrees : Agrees n (alternative p) (alternative p') := by
  unfold alternative
  refine .look (.atKeyword _) fun _ => .ite (.bind h.conditional fun _ => .pure _) ?_
  exact .bind (optionalBody_agrees h _) fun _ => .pure _

theorem conditional_enters : Enters n (conditional p) (conditional p') := by
  unfold conditional
  exact .look .line fun _ => .read .advance fun _ =>
    .look (namedExpression_keeps grammar_keep) fun _ => .bind (body_agrees h) fun _ =>
    .bind (alternative_agrees h) fun _ => .pure _

theorem whileLoop_enters : Enters n (whileLoop p) (whileLoop p') := by
  unfold whileLoop
  exact .look .line fun _ => .read .advance fun _ =>
    .look (namedExpression_keeps grammar_keep) fun _ => .bind (body_agrees h) fun _ =>
    .bind (optionalBody_agrees h _) fun _ => .pure _

theorem forLoop_enters (line : Nat) (isAsync : Bool) :
    Enters n (forLoop p line isAsync) (forLoop p' line isAsync) := by
  unfold forLoop
  exact .read .advance fun _ => .look (targets_keeps grammar_keep) fun _ =>
    .look (.expectKeyword _ _) fun _ => .look (starExpressions_keeps grammar_keep) fun _ =>
    .bind (body_agrees h) fun _ => .bind (optionalBody_agrees h _) fun _ => .pure _

theorem handler_enters : Enters n (handler p) (handler p') := by
  have hbody : ∀ (line : Nat) (star : Bool), Agrees n
      (do
        let handled ← body p
        pure (Stmt.block line .handler handled, star))
      (do
        let handled ← body p'
        pure (Stmt.block line .handler handled, star)) :=
    fun _ _ => .bind (body_agrees h) fun _ => .pure _
  unfold handler
  refine .look .line fun _ => .read .advance fun _ => .look (.accept _) fun _ =>
    .look (.atSymbol _) fun _ => .ite (hbody _ _) ?_
  exact .look grammar_keep.expression fun _ => .look asName_keeps fun _ => hbody _ _

theorem tryBlock_enters : Enters n (tryBlock p) (tryBlock p') := by
  have hhandlers :
      Agrees n (loop (nextHandler p) ([], false)) (loop (nextHandler p') ([], false)) := by
    unfold nextHandler
    refine .loop (fun _ => .look (.atKeyword _) fun _ => .ite ?_ (.pure _)) _
    exact .bind (handler_enters h).less fun _ => .pure _
  unfold tryBlock
  refine .look .line fun _ => .read .advance fun _ => .bind (body_agrees h) fun _ =>
    .bind hhandlers fun _ => .ite ?_ ?_
  · exact .look (.pure _) fun _ => .bind (optionalBody_agrees h _) fun _ => .ite (.fail _) (.pure _)
  · exact .bind (optionalBody_agrees h _) fun _ => .bind (optionalBody_agrees h _) fun _ =>
      .ite (.fail _) (.pure _)

theorem withBlock_enters (line : Nat) (isAsync : Bool) :
    Enters n (withBlock p line isAsync) (withBlock p' line isAsync) := by
  unfold withBlock
  exact .read .advance fun _ => .look withItems_keeps fun _ => .bind (body_agrees h) fun _ =>
    .pure _

theorem functionDef_enters (line : Nat) (isAsync : Bool) :
    Enters n (functionDef p line isAsync) (functionDef p' line isAsync) := by
  unfold functionDef
  refine .read .advance fun _ => .look .name fun _ => .look typeParameters_keeps fun _ =>
    .look (.expect _) fun _ => .look (parameters_keeps grammar_keep _ _) fun _ =>
    .look (.expect _) fun _ => .look (.accept _) fun _ => .ite ?_ ?_
  · exact .look grammar_keep.expression fun _ => .bind (body_agrees h) fun _ => .pure _
  · exact .bind (body_agrees h) fun _ => .pure _

theorem classDef_enters (line : Nat) : Enters n (classDef p line) (classDef p' line) := by
  unfold classDef
  refine .read .advance fun _ => .look .name fun _ => .look typeParameters_keeps fun _ =>
    .look (.atSymbol _) fun _ => .ite ?_ (.bind (body_agrees h) fun _ => .pure _)
  exact .look (arguments_keeps grammar_keep) fun _ => .bind (body_agrees h) fun _ => .pure _

theorem decorated_enters : Enters n (decorated p) (decorated p') := by
  unfold decorated nextDecorator
  refine .look (.repeatWhile (.bind (.accept _) fun _ => .ite ?_ (.pure _))) fun _ =>
    .look .line fun _ => .look .peekSecond fun _ => .look .peek fun l => ?_
  · exact .bind (namedExpression_keeps grammar_keep) fun _ => .bind (.expectNewline _) fun _ =>
      .pure _
  split
  case h_1 => exact functionDef_enters h _ _
  case h_2 => exact classDef_enters h _
  case h_3 => exact .ite (.read .advance fun _ => (functionDef_enters h _ _).less) (.fail _)
  case h_4 => exact .fail _

theorem asyncStatement_enters : Enters n (asyncStatement p) (asyncStatement p') := by
  unfold asyncStatement
  refine .look .line fun _ => .read .advance fun _ => .look .peek fun l => ?_
  split
  case h_1 => exact (functionDef_enters h _ _).less
  case h_2 => exact (forLoop_enters h _ _).less
  case h_3 => exact (withBlock_enters h _ _).less
  case h_4 => exact .fail _

theorem matchCase_enters : Enters n (matchCase p) (matchCase p') := by
  unfold matchCase
  exact .look .line fun _ => .read .advance fun _ => .look (skipPattern_keeps _ _) fun _ =>
    .bind (suite_agrees h).less fun _ => .pure _

theorem matchBlock_enters : Enters n (matchBlock p) (matchBlock p') := by
  have hcases : Agrees n (loop (nextCase p) []) (loop (nextCase p') []) := by
    unfold nextCase
    refine .loop (fun _ => .look .peek fun _ => .ite ?_ (.pure _)) _
    exact .bind (matchCase_enters h).less fun _ => .pure _
  unfold matchBlock
  refine .look .line fun _ => .read .advance fun _ =>
    .look (starExpressions_keeps grammar_keep) fun _ => .look (.expect _) fun _ =>
    .look (.expectNewline _) fun _ => .look (.acceptIf _) fun _ =>
    .ite (.bind hcases fun _ => .ite (.fail _) ?_) (.fail _)
  exact .look (.acceptIf _) fun _ => .ite (.pure _) (.fail _)

/-! ## Section 8: The knot of statements -/

/-- The same lexemes start a compound statement. -/
theorem compound?_enters (l : Lexeme) :
    Option.Rel (Enters n) (compound? p l) (compound? p' l) := by
  unfold compound?
  split
  case h_1 => exact .some (conditional_enters h)
  case h_2 => exact .some (whileLoop_enters h)
  case h_3 => exact .some (.look .line fun _ => forLoop_enters h _ _)
  case h_4 => exact .some (tryBlock_enters h)
  case h_5 => exact .some (.look .line fun _ => withBlock_enters h _ _)
  case h_6 => exact .some (.look .line fun _ => functionDef_enters h _ _)
  case h_7 => exact .some (.look .line fun _ => classDef_enters h _)
  case h_8 => exact .some (asyncStatement_enters h)
  case h_9 => exact .some (decorated_enters h)
  case h_10 => exact .some (.fail _)
  case h_11 => exact .none

theorem statement_enters : Enters n (statement p) (statement p') := by
  have hsingle : ∀ {q q' : Parser Stmt}, Enters n q q' → Enters n
      (do
        let stmt ← q
        pure [stmt])
      (do
        let stmt ← q'
        pure [stmt]) := fun hq => .behind hq fun _ => .pure _
  unfold statement
  refine .look atMatch_keeps fun _ => .ite (hsingle (matchBlock_enters h)) (.look .peek fun l => ?_)
  have hcompound := compound?_enters h l
  cases hp : compound? p l with
  | none =>
    cases hp' : compound? p' l with
    | none => exact ⟨.refl simpleStatements_advances.keeps, simpleStatements_advances⟩
    | some q' =>
      rw [hp, hp'] at hcompound
      cases hcompound
  | some q =>
    cases hp' : compound? p' l with
    | none =>
      rw [hp, hp'] at hcompound
      cases hcompound
    | some q' =>
      rw [hp, hp'] at hcompound
      cases hcompound with
      | some hq => exact hsingle hq

omit h in
theorem simpleStatements_nil : simpleStatements [] = fail .invalidSyntax [] := by
  have hexpression : grammar.expression [] = fail .invalidSyntax [] := expression_nil _
  have hsmall : smallStatement [] = fail .invalidSyntax [] := by
    simp [smallStatement, atTypeAlias, keywordStatement?, expressionStatement, assigned,
      starExpressions, starExpression, front, hexpression, fail]
  unfold simpleStatements
  simp [loop, loopFor, nextSmall, hsmall, fail]

omit h in
theorem conditional_nil (p : StatementParsers) : conditional p [] = fail .invalidSyntax [] := by
  have hexpression : grammar.expression [] = fail .invalidSyntax [] := expression_nil _
  unfold conditional
  simp [namedExpression, front, hexpression, fail, Lexeme.isWord]

omit h in
theorem statement_nil (p : StatementParsers) : statement p [] = fail .invalidSyntax [] := by
  unfold statement
  simp [atMatch, compound?, front, simpleStatements_nil]

variable {bottom bottom' : StatementParsers} {fuel fuel' : List Token}

omit h in
theorem statementsOver_keep (hbottom : bottom.Keep) (fuel : List Token) :
    (statementsOver bottom fuel).Keep := by
  induction fuel with
  | nil => exact hbottom
  | cons _ fuel ih =>
    exact ⟨(statement_enters (ih.agree 0)).advances, (conditional_enters (ih.agree 0)).keeps⟩

omit h in
theorem spent_statements_keep : StatementParsers.spent.Keep := ⟨.spent, .spent⟩

omit h in
/-- With fuel for more tokens than a stream has, it does not matter how much
    there is, nor what is below. -/
theorem statementsOver_agree (hbottom : bottom.Keep) (hfuel : n < fuel.length)
    (hfuel' : n < fuel'.length) :
    (statementsOver bottom fuel).Agree n (statementsOver bottom' fuel') := by
  induction n generalizing fuel fuel' with
  | zero =>
    have hkeep := statementsOver_keep hbottom fuel
    obtain ⟨_, fuel, rfl⟩ := List.exists_cons_of_length_pos hfuel
    obtain ⟨_, fuel', rfl⟩ := List.exists_cons_of_length_pos hfuel'
    exact ⟨.zero hkeep.statement_advances.keeps ((statement_nil _).trans (statement_nil _).symm),
      .zero hkeep.conditional ((conditional_nil _).trans (conditional_nil _).symm)⟩
  | succ n ih =>
    cases fuel with
    | nil => simp at hfuel
    | cons _ fuel =>
      cases fuel' with
      | nil => simp at hfuel'
      | cons _ fuel' =>
        have h := ih (Nat.lt_of_succ_lt_succ hfuel) (Nat.lt_of_succ_lt_succ hfuel')
        exact ⟨(statement_enters h).toAgrees, (conditional_enters h).toAgrees⟩

omit h in
/-- The grammar has fuel enough, so that its fuel may run out to anything. -/
theorem statementsOver_agree_statementGrammar (hbottom : bottom.Keep) (hfuel : n < fuel.length) :
    (statementsOver bottom fuel).Agree n statementGrammar := by
  have hkeep := statementsOver_keep hbottom fuel
  have hagree : ∀ ts : List Token, ts.length ≤ n →
      (statementsOver bottom fuel).Agree ts.length (statementsUpTo (front ts :: ts)) := fun ts hts =>
    statementsOver_agree hbottom (Nat.lt_of_le_of_lt hts hfuel) (Nat.lt_succ_self _)
  exact ⟨⟨fun ts hts => (hagree ts hts).statement.same ts (Nat.le_refl _),
      hkeep.statement_advances.keeps⟩,
    ⟨fun ts hts => (hagree ts hts).conditional.same ts (Nat.le_refl _), hkeep.conditional⟩⟩

end Grammar

/-- The references of a grammar are its own parsers. -/
structure StatementParsers.Closed (p : StatementParsers) : Prop where
  statement : p.statement = Grammar.statement p
  conditional : p.conditional = Grammar.conditional p

/-- **The grammar of statements needs no fuel.** -/
theorem statementGrammar_closed : statementGrammar.Closed := by
  have h : ∀ ts : List Token,
      (Grammar.statementsUpTo (front ts :: ts)).Agree ts.length statementGrammar := fun ts =>
    Grammar.statementsOver_agree_statementGrammar Grammar.spent_statements_keep (Nat.lt_succ_self _)
  have hmore : ∀ ts : List Token, (Grammar.statementsUpTo (front ts :: ts)).Agree ts.length
      (Grammar.statementsUpTo (front ts :: front ts :: ts)) := fun ts =>
    Grammar.statementsOver_agree Grammar.spent_statements_keep (Nat.lt_succ_self _)
      (Nat.lt_succ_of_lt (Nat.lt_succ_self _))
  have hle := fun ts : List Token => Nat.le_refl ts.length
  exact ⟨
    funext fun ts => ((hmore ts).statement.same ts (hle ts)).trans
      ((Grammar.statement_enters (h ts)).less.same ts (hle ts)),
    funext fun ts => ((hmore ts).conditional.same ts (hle ts)).trans
      ((Grammar.conditional_enters (h ts)).less.same ts (hle ts))⟩

/-- The references keep to what they are given. -/
theorem statementGrammar_keep : statementGrammar.Keep := by
  have h : ∀ ts : List Token, (Grammar.statementsUpTo ts).Agree 0 (Grammar.statementsUpTo ts) :=
    fun ts => (Grammar.statementsOver_keep Grammar.spent_statements_keep ts).agree 0
  have hconditional : Advances statementGrammar.conditional :=
    .of_same (fun ts => (Grammar.conditional_enters (h ts)).advances) fun _ => rfl
  exact ⟨.of_same (fun ts => (Grammar.statement_enters (h ts)).advances) fun _ => rfl,
    hconditional.keeps⟩

theorem statementGrammar_agree (n : Nat) : statementGrammar.Agree n statementGrammar :=
  statementGrammar_keep.agree n

/-- A statement reads a token. -/
theorem statementGrammar_advances : Advances statementGrammar.statement :=
  statementGrammar_keep.statement_advances

namespace Grammar

/-! ## Section 9: Rounds of handlers and cases -/

variable {p : StatementParsers} (hp : p.Keep)

include hp

theorem nextHandler_spends (read : List Stmt × Bool) :
    Spends Next.IsAgain (nextHandler p read) :=
  .seenKeyword (.bind (handler_enters (hp.agree 0)).advances fun _ => .pure _) (done_spends _)

theorem nextCase_spends (read : List Stmt) : Spends Next.IsAgain (nextCase p read) := by
  unfold nextCase
  refine .seen fun l => ?_
  split
  case isTrue hl =>
    have hcase := (matchCase_enters (hp.agree 0)).advances
    exact .inr ⟨by simp [beq_iff_eq.mp hl], .bind hcase fun _ => .pure _⟩
  case isFalse => exact .inl (done_spends _)

end Grammar

end StyleCheck
