import StyleCheck.Proofs.Parsing.Reading
import StyleCheck.Syntax.Grammar.SimpleStatement

/-! # Other Names

    The grammar of expressions does not look at how a name is spelled.
    Where every name of a token stream is replaced by another, an
    expression is read as before, or rejected as before, and the names in
    what has been read are replaced in the same way.

    * `Lexeme.rename`, `Expr.rename`, `Parameters.rename`: names replaced.
    * `Commutes`: reading renamed tokens is reading tokens and renaming
      what comes of it, with one rule for each small parser.
    * `grammar_commutes`: the parsers of the grammar of expressions.
-/

namespace StyleCheck

/-! ## Section 1: Names replaced -/

/-- A name replaced by another. -/
def Lexeme.rename (f : Text → Text) : Lexeme → Lexeme
  | name x => name (f x)
  | l => l

/-- A token with its name replaced. -/
def Token.rename (f : Text → Text) (t : Token) : Token := { t with lexeme := t.lexeme.rename f }

/-- Tokens with all their names replaced. -/
def renamed (f : Text → Text) (ts : List Token) : List Token := ts.map (Token.rename f)

/-- The form of an expression with its name replaced. -/
def Form.rename (f : Text → Text) : Form → Form
  | name x => name (f x)
  | form => form

/-- An expression with its name replaced. -/
def Expr.rename (f : Text → Text) (e : Expr) : Expr := { e with form := e.form.rename f }

def Star.rename (f : Text → Text) : Star → Star
  | absent => absent
  | bare => bare
  | named x => named (f x)

/-- Parameters with their names replaced, and those in their defaults. -/
def Parameters.rename (f : Text → Text) (params : Parameters) : Parameters where
  positionalOnly := params.positionalOnly.map f
  regular := params.regular.map f
  star := params.star.rename f
  keywordOnly := params.keywordOnly.map f
  doubleStar := params.doubleStar.map f
  defaults := params.defaults.map (Expr.rename f)

variable {f : Text → Text}

namespace Lexeme

/-- Only names are replaced. -/
theorem beq_rename {k : Lexeme} (hk : ∀ x, k ≠ name x) (l : Lexeme) :
    (l.rename f == k) = (l == k) := by
  cases l with
  | name x =>
    rw [rename, beq_eq_false_iff_ne.mpr (hk (f x)).symm, beq_eq_false_iff_ne.mpr (hk x).symm]
  | _ => rfl

@[simp] theorem beq_symbol_rename (l : Lexeme) (sign : Symbol) :
    (l.rename f == symbol sign) = (l == symbol sign) := beq_rename (fun _ h => by cases h) l

@[simp] theorem beq_keyword_rename (l : Lexeme) (word : Keyword) :
    (l.rename f == keyword word) = (l == keyword word) := beq_rename (fun _ h => by cases h) l

@[simp] theorem isWord_rename (l : Lexeme) : (l.rename f).isWord = l.isWord := by
  cases l <;> rfl

@[simp] theorem startsExpression_rename (l : Lexeme) :
    (l.rename f).startsExpression = l.startsExpression := by
  cases l <;> rfl

end Lexeme

namespace Parser

@[simp] theorem front_renamed (ts : List Token) : front (renamed f ts) = (front ts).rename f := by
  cases ts <;> rfl

@[simp] theorem tail_renamed (ts : List Token) : (renamed f ts).tail = renamed f ts.tail := by
  cases ts <;> rfl

/-- A step of a loop with names replaced in its state, or in its result. -/
def Next.map {σ τ α β : Type} (s : σ → τ) (r : α → β) : Next σ α → Next τ β
  | .again state => .again (s state)
  | .done result => .done (r result)

/-! ## Section 2: Parsers -/

variable {α β γ δ σ τ : Type} {p q : Parser α} {p' q' : Parser β} {r : α → β}

/-- What is read instead of a value. -/
def Reply.map (r : α → β) : Reply α → Reply β
  | .yes a => .yes (r a)
  | .no => .no
  | .spent => .spent

/-- The result for renamed tokens: the errors are the same. -/
def Result.rename (f : Text → Text) (r : α → β) (result : Result α) : Result β where
  reply := result.reply.map r
  rest := renamed f result.rest
  raised := result.raised

theorem Result.rename_eq_ok {result : Result α} {b : β} {rest' : List Token}
    (h : result.rename f r = .ok (b, rest')) :
    ∃ a rest, result = .ok (a, rest) ∧ r a = b ∧ renamed f rest = rest' := by
  obtain ⟨reply, rest, raised⟩ := result
  cases reply with
  | yes a =>
    cases h
    exact ⟨a, rest, rfl, rfl, rfl⟩
  | no | spent => cases h

/-- To read renamed tokens with `p'` is to read the tokens with `p`, and
    then to rename what has been read and what is left. -/
def Commutes (f : Text → Text) (r : α → β) (p : Parser α) (p' : Parser β) : Prop :=
  ∀ ts, p' (renamed f ts) = (p ts).rename f r

namespace Commutes

theorem pure {a : α} {b : β} (h : r a = b) : Commutes f r (pure a) (pure b) := by
  intro ts
  rw [← h]
  rfl

theorem bind {o : Parser γ} {o' : Parser δ} {s : γ → δ} {g : γ → Parser α} {g' : δ → Parser β}
    (ho : Commutes f s o o') (hg : ∀ c, Commutes f r (g c) (g' (s c))) :
    Commutes f r (o >>= g) (o' >>= g') := by
  intro ts
  rw [bind_apply, bind_apply, ho ts]
  obtain ⟨reply, mid, raised⟩ := o ts
  cases reply with
  | yes c =>
    have hrest : g' (s c) (renamed f mid) = (g c mid).rename f r := hg c mid
    cases raised with
    | nil => exact hrest
    | cons =>
      simp only [Result.andThen, Result.rename, Reply.map, hrest]
  | no | spent => rfl

/-- The same where no name is in what has been read. -/
theorem seq {o o' : Parser γ} {g : γ → Parser α} {g' : γ → Parser β}
    (ho : Commutes f id o o') (hg : ∀ c, Commutes f r (g c) (g' c)) :
    Commutes f r (o >>= g) (o' >>= g') := bind ho hg

theorem ite {c c' : Bool} (hc : c' = c) (hp : Commutes f r p p') (hq : Commutes f r q q') :
    Commutes f r (if c then p else q) (if c' then p' else q') := by
  subst hc
  cases c'
  · exact hq
  · exact hp

theorem fail (fault : Fault) : Commutes f r (fail fault) (fail fault) := by
  intro ts
  simp only [Parser.fail, front_renamed]
  rfl

theorem failAt (at_ : Position) (fault : Fault) :
    Commutes f r (failAt at_ fault) (failAt at_ fault) := fun _ => rfl

theorem spent : Commutes f r spent spent := fun _ => rfl

theorem peek : Commutes f (Lexeme.rename f) peek peek := by
  intro ts
  rw [peek_apply, front_renamed]
  rfl

theorem peekSecond : Commutes f (Lexeme.rename f) peekSecond peekSecond := by
  intro ts
  rw [peekSecond_apply, tail_renamed, front_renamed]
  rfl

theorem position : Commutes f id position position := by
  intro ts
  rw [position_apply, front_renamed]
  rfl

theorem line : Commutes f id line line := by
  intro ts
  rw [line_apply, front_renamed]
  rfl

theorem remaining : Commutes f (renamed f) remaining remaining := fun _ => rfl

theorem advance : Commutes f id advance advance := by
  intro ts
  rw [advance_apply, tail_renamed]
  rfl

theorem acceptIf {test : Lexeme → Bool} (h : ∀ l, test (l.rename f) = test l) :
    Commutes f id (acceptIf test) (acceptIf test) := by
  intro ts
  rw [acceptIf_apply, acceptIf_apply, front_renamed, tail_renamed, Token.rename, h]
  cases test (front ts).lexeme <;> rfl

theorem accept (symbol : Symbol) : Commutes f id (accept symbol) (accept symbol) :=
  acceptIf fun l => l.beq_symbol_rename symbol

theorem acceptKeyword (word : Keyword) :
    Commutes f id (acceptKeyword word) (acceptKeyword word) :=
  acceptIf fun l => l.beq_keyword_rename word

theorem atSymbol (symbol : Symbol) : Commutes f id (atSymbol symbol) (atSymbol symbol) := by
  intro ts
  unfold Parser.atSymbol
  rw [front_renamed, Token.rename, Lexeme.beq_symbol_rename]
  rfl

theorem atKeyword (word : Keyword) : Commutes f id (atKeyword word) (atKeyword word) := by
  intro ts
  unfold Parser.atKeyword
  rw [front_renamed, Token.rename, Lexeme.beq_keyword_rename]
  rfl

theorem expect (symbol : Symbol) : Commutes f id (expect symbol) (expect symbol) :=
  .seq (accept symbol) fun _ => .ite rfl (.pure rfl) (.fail _)

theorem expectKeyword (word : Keyword) (fault : Fault) :
    Commutes f id (expectKeyword word fault) (expectKeyword word fault) :=
  .seq (acceptKeyword word) fun _ => .ite rfl (.pure rfl) (.fail _)

theorem expectNewline (fault : Fault) :
    Commutes f id (expectNewline fault) (expectNewline fault) :=
  .seq (acceptIf (Lexeme.beq_rename fun _ h => by cases h)) fun _ =>
    .ite rfl (.pure rfl) (.fail _)

theorem name : Commutes f f name name := by
  unfold Parser.name
  refine .bind .peek fun l => ?_
  cases l with
  | name x => exact .seq .advance fun _ => .pure rfl
  | _ => exact .fail _

/-- Loops go the same number of rounds. -/
theorem loop {body : σ → Parser (Next σ α)} {body' : τ → Parser (Next τ β)} {s : σ → τ}
    (h : ∀ state, Commutes f (Next.map s r) (body state) (body' (s state))) {state : σ} {state' : τ}
    (hstate : s state = state') : Commutes f r (loop body state) (loop body' state') := by
  have hfor : ∀ (fuel : List Token) (state : σ),
      Commutes f r (loopFor body fuel state) (loopFor body' (renamed f fuel) (s state)) := by
    intro fuel
    induction fuel with
    | nil => exact fun _ => .spent
    | cons _ fuel ih =>
      intro state
      refine .bind (h state) fun next => ?_
      cases next with
      | again next => exact ih next
      | done result => exact .pure rfl
  intro ts
  have hfuel : front (renamed f ts) :: renamed f ts = renamed f (front ts :: ts) := by
    rw [front_renamed]
    rfl
  unfold Parser.loop
  rw [hfuel, ← hstate]
  exact hfor _ state ts

theorem repeatWhile {body body' : Parser Bool} (h : Commutes f id body body') :
    Commutes f id (repeatWhile body) (repeatWhile body') := by
  unfold Parser.repeatWhile whileTrue
  exact loop (s := id) (fun _ => .seq h fun _ => .ite rfl (.pure rfl) (.pure rfl)) rfl

end Commutes

end Parser

open StyleCheck.Parser

/-- The parsers that are referred back to do not look at how names are
    spelled. -/
structure Nonterminals.Commute (f : Text → Text) (g : Nonterminals) : Prop where
  expression : Commutes f (Expr.rename f) g.expression g.expression
  disjunction : Commutes f (Expr.rename f) g.disjunction g.disjunction
  inversion : Commutes f (Expr.rename f) g.inversion g.inversion
  operand : Commutes f (Expr.rename f) g.operand g.operand
  factor : Commutes f (Expr.rename f) g.factor g.factor

namespace Grammar

variable {g : Nonterminals} (hg : g.Commute f)

include hg

/-! ## Section 3: Lists and clauses -/

theorem starExpression_commutes :
    Commutes f (Expr.rename f) (starExpression g) (starExpression g) := by
  unfold starExpression
  exact .seq .position fun _ => .seq (.accept _) fun _ =>
    .ite rfl (.bind hg.operand fun _ => .pure rfl) hg.expression

theorem starExpressions_commutes :
    Commutes f (Expr.rename f) (starExpressions g) (starExpressions g) := by
  have hfirst := starExpression_commutes hg
  unfold starExpressions nextStarExpression
  refine .seq .position fun _ => .bind hfirst fun _ => .seq (.atSymbol _) fun _ =>
    .ite rfl (.seq (.repeatWhile ?_) fun _ => .pure rfl) (.pure rfl)
  refine .seq (.accept _) fun _ => .ite rfl (.bind .peek fun l => ?_) (.pure rfl)
  exact .ite l.startsExpression_rename (.bind hfirst fun _ => .pure rfl) (.pure rfl)

theorem namedExpression_commutes :
    Commutes f (Expr.rename f) (namedExpression g) (namedExpression g) := by
  unfold namedExpression
  refine .seq .position fun _ => .bind .peek fun first => .bind .peekSecond fun second =>
    .ite (by simp) ?_ hg.expression
  exact .bind .name fun _ => .seq .advance fun _ => .bind hg.expression fun _ => .pure rfl

theorem element_commutes : Commutes f (Expr.rename f) (element g) (element g) := by
  unfold element
  exact .seq (.atSymbol _) fun _ =>
    .ite rfl (starExpression_commutes hg) (namedExpression_commutes hg)

theorem moreElements_commutes (closer : Bracket) :
    Commutes f id (moreElements g closer) (moreElements g closer) := by
  unfold moreElements nextElement
  refine .repeatWhile (.seq (.accept _) fun _ => .ite rfl ?_ (.pure rfl))
  exact .seq (.atSymbol _) fun _ =>
    .ite rfl (.pure rfl) (.bind (element_commutes hg) fun _ => .pure rfl)

theorem target_commutes : Commutes f (Expr.rename f) (target g) (target g) := by
  unfold target
  exact .seq (.atSymbol _) fun _ => .ite rfl (starExpression_commutes hg) hg.operand

omit hg in
theorem endsTargets_rename (l : Lexeme) : endsTargets (l.rename f) = endsTargets l := by
  cases l <;> rfl

theorem targets_commutes : Commutes f (Expr.rename f) (targets g) (targets g) := by
  have htarget := target_commutes hg
  unfold targets nextTarget
  refine .seq .position fun _ => .bind htarget fun _ => .seq (.atSymbol _) fun _ =>
    .ite rfl (.seq (.repeatWhile ?_) fun _ => .pure rfl) (.pure rfl)
  refine .seq (.accept _) fun _ => .ite rfl (.bind .peek fun l => ?_) (.pure rfl)
  exact .ite (endsTargets_rename l) (.pure rfl) (.bind htarget fun _ => .pure rfl)

omit hg in
theorem atComprehension_commutes : Commutes f id atComprehension atComprehension := by
  unfold atComprehension
  refine .bind .peek fun l => ?_
  cases l with
  | keyword =>
    dsimp only [Lexeme.rename]
    split <;> exact .pure rfl
  | _ => exact .pure rfl

omit hg in
theorem acceptFor_commutes : Commutes f id acceptFor acceptFor := by
  unfold acceptFor
  refine .seq (.acceptKeyword _) fun _ => .ite rfl (.pure rfl) (.bind .peekSecond fun l => ?_)
  refine .ite (l.beq_keyword_rename _) ?_ (.pure rfl)
  exact .seq (.acceptKeyword _) fun _ => .ite rfl (.seq .advance fun _ => .pure rfl) (.pure rfl)

theorem clause_commutes : Commutes f id (clause g) (clause g) := by
  unfold clause nextCondition
  refine .bind (targets_commutes hg) fun _ => .seq (.expectKeyword _ _) fun _ =>
    .bind hg.disjunction fun _ => .repeatWhile ?_
  exact .seq (.acceptKeyword _) fun _ =>
    .ite rfl (.bind hg.disjunction fun _ => .pure rfl) (.pure rfl)

theorem comprehension_commutes : Commutes f id (comprehension g) (comprehension g) := by
  have hclause := clause_commutes hg
  unfold comprehension nextClause
  refine .seq acceptFor_commutes fun _ => .ite rfl (.seq hclause fun _ => .repeatWhile ?_) (.fail _)
  exact .seq acceptFor_commutes fun _ => .ite rfl (.seq hclause fun _ => .pure rfl) (.pure rfl)

theorem argument_commutes : Commutes f id (argument g) (argument g) := by
  unfold argument
  refine .bind .peek fun first => .bind .peekSecond fun second =>
    .seq (.acceptIf (by simp)) fun _ => .ite rfl ?_ (.ite (by simp) ?_ ?_)
  · exact .bind hg.expression fun _ => .pure rfl
  · exact .seq .advance fun _ => .seq .advance fun _ => .bind hg.expression fun _ => .pure rfl
  · exact .bind (namedExpression_commutes hg) fun _ => .seq atComprehension_commutes fun _ =>
      .ite rfl (comprehension_commutes hg) (.pure rfl)

theorem arguments_commutes : Commutes f id (arguments g) (arguments g) := by
  unfold arguments nextArgument
  refine .seq (.expect _) fun _ => .seq (.repeatWhile ?_) fun _ => .expect _
  exact .seq (.atSymbol _) fun _ =>
    .ite rfl (.pure rfl) (.seq (argument_commutes hg) fun _ => .accept _)

omit hg in
theorem endsBound_rename (l : Lexeme) : endsBound (l.rename f) = endsBound l := by
  cases l <;> rfl

theorem laterBounds_commutes : Commutes f id (laterBounds g) (laterBounds g) := by
  have hstep : Commutes f id (do
      if ← accept .colon then
        let stop ← peek
        unless stop == .symbol (.closing .square) || stop == .symbol .comma do
          let _ ← g.expression) (do
      if ← accept .colon then
        let stop ← peek
        unless stop == .symbol (.closing .square) || stop == .symbol .comma do
          let _ ← g.expression) := by
    refine .seq (.accept _) fun _ => .ite rfl (.bind .peek fun l => ?_) (.pure rfl)
    exact .ite (by simp) (.pure rfl) (.bind hg.expression fun _ => .pure rfl)
  unfold laterBounds
  refine .bind .peek fun l => .ite (endsBound_rename l) hstep ?_
  exact .bind hg.expression fun _ => hstep

theorem slice_commutes : Commutes f id (slice g) (slice g) := by
  have hbounds : Commutes f id (do if ← accept .colon then laterBounds g)
      (do if ← accept .colon then laterBounds g) :=
    .seq (.accept _) fun _ => .ite rfl (laterBounds_commutes hg) (.pure rfl)
  unfold slice
  refine .seq (.atSymbol _) fun _ => .ite rfl ?_ ?_
  · exact .bind (starExpression_commutes hg) fun _ => .pure rfl
  · exact .seq (.atSymbol _) fun _ =>
      .ite rfl hbounds (.bind (namedExpression_commutes hg) fun _ => hbounds)

theorem slices_commutes : Commutes f id (slices g) (slices g) := by
  unfold slices nextSlice
  refine .seq (.atSymbol _) fun _ => .ite rfl (.fail _) (.repeatWhile ?_)
  refine .seq (slice_commutes hg) fun _ => .seq (.accept _) fun _ => .ite rfl ?_ (.pure rfl)
  exact .seq (.atSymbol _) fun _ => .pure rfl

/-! ## Section 4: Parameters -/

theorem typeHint_commutes (annotated starred : Bool) :
    Commutes f id (typeHint g annotated starred) (typeHint g annotated starred) := by
  unfold typeHint
  refine .ite rfl (.seq (.accept _) fun _ => .ite rfl (.ite rfl ?_ ?_) (.pure rfl)) (.pure rfl)
  · exact .bind (starExpression_commutes hg) fun _ => .pure rfl
  · exact .bind hg.expression fun _ => .pure rfl

theorem parameter_commutes (closer : Symbol) (annotated : Bool) (read : Parameters) :
    Commutes f (Next.map (Parameters.rename f) (Parameters.rename f))
      (parameter g closer annotated read) (parameter g closer annotated (read.rename f)) := by
  have hcolon := typeHint_commutes hg annotated
  have hnext : ∀ {read read' : Parameters}, read.rename f = read' →
      Commutes f (Next.map (Parameters.rename f) (Parameters.rename f))
        (do if ← accept .comma then pure (Next.again read) else pure (Next.done read))
        (do if ← accept .comma then pure (Next.again read') else pure (Next.done read')) := by
    rintro read _ rfl
    exact .seq (.accept _) fun _ => .ite rfl (.pure rfl) (.pure rfl)
  have hpositional : ((read.rename f).star == .absent) = (read.star == .absent) := by
    unfold Parameters.rename
    cases read.star <;> rfl
  have hempty : ∀ {α β : Type} [BEq α] [BEq β] (h : α → β) (xs : List α),
      (xs.map h == []) = (xs == []) := by
    intro α β _ _ h xs
    cases xs <;> rfl
  unfold parameter
  refine .seq .position fun _ => .seq (.atSymbol _) fun _ => .ite rfl (.pure rfl) ?_
  refine .seq (.atSymbol _) fun _ => .ite rfl ?_ (.seq (.atSymbol _) fun _ => .ite rfl ?_
    (.seq (.accept _) fun _ => .ite rfl ?_ ?_))
  -- A slash.
  · refine .ite ?_ (.fail _) (.seq .advance fun _ => hnext rfl)
    rw [hpositional, Parameters.rename, bne, hempty, hempty]
    rfl
  -- A star, with a name or without.
  · refine .ite (by rw [hpositional]) (.fail _) (.seq .advance fun _ => .bind .peek fun l =>
      .ite l.isWord_rename ?_ (hnext rfl))
    exact .bind .name fun _ => .seq (hcolon _) fun _ => hnext rfl
  -- Two stars.
  · refine .bind .name fun _ => .seq (hcolon _) fun _ => .seq (.accept _) fun _ => ?_
    exact .seq (.atSymbol _) fun _ => .ite rfl (.pure rfl) (.fail _)
  -- A name, with a default or without.
  · refine .bind .name fun _ => .seq (hcolon _) fun _ => .seq (.accept _) fun _ => .ite rfl ?_ ?_
    · refine .bind hg.expression fun _ => .ite hpositional (hnext ?_) (hnext ?_)
      all_goals simp [Parameters.rename]
    · refine .ite hpositional (.ite ?_ (.failAt _ _) (hnext ?_)) (hnext ?_)
      · exact congrArg not (hempty _ _)
      all_goals simp [Parameters.rename]

theorem parameters_commutes (closer : Symbol) (annotated : Bool) :
    Commutes f (Parameters.rename f) (parameters g closer annotated)
      (parameters g closer annotated) :=
  .loop (parameter_commutes hg closer annotated) rfl

/-! ## Section 5: Atoms -/

omit hg in
theorem strings_commutes : Commutes f (Expr.rename f) strings strings := by
  unfold strings nextString
  refine .seq .position fun _ => .seq (.loop (s := id) (fun state => ?_) rfl) fun _ =>
    .ite rfl (.failAt _ _) (.ite rfl (.pure rfl) (.pure rfl))
  refine .bind .peek fun l => ?_
  cases l with
  | string => exact .seq .advance fun _ => .pure rfl
  | _ => exact .pure rfl

theorem yieldExpression_commutes :
    Commutes f (Expr.rename f) (yieldExpression g) (yieldExpression g) := by
  unfold yieldExpression
  refine .seq .position fun _ => .seq .advance fun _ => .seq (.acceptKeyword _) fun _ =>
    .ite rfl ?_ (.bind .peek fun l => .ite l.startsExpression_rename ?_ (.pure rfl))
  · exact .bind hg.expression fun _ => .pure rfl
  · exact .bind (starExpressions_commutes hg) fun _ => .pure rfl

/-- A comprehension at the end of a display. -/
theorem comprehended_commutes (closer : Symbol) {e : Expr} (he : e.rename f = e) :
    Commutes f (Expr.rename f)
      (do
        comprehension g
        expect closer
        pure e)
      (do
        comprehension g
        expect closer
        pure e) :=
  .seq (comprehension_commutes hg) fun _ => .seq (.expect _) fun _ => .pure he

theorem parenthesized_commutes :
    Commutes f (Expr.rename f) (parenthesized g) (parenthesized g) := by
  unfold parenthesized
  refine .seq .position fun _ => .seq .advance fun _ => .seq (.accept _) fun _ =>
    .ite rfl (.pure rfl) (.seq (.atKeyword _) fun _ => .ite rfl ?_ ?_)
  · exact .bind (yieldExpression_commutes hg) fun _ => .seq (.expect _) fun _ => .pure rfl
  refine .bind (element_commutes hg) fun _ => .seq atComprehension_commutes fun _ =>
    .ite rfl (comprehended_commutes hg _ rfl) (.seq (.atSymbol _) fun _ => .ite rfl ?_ ?_)
  · exact .seq (moreElements_commutes hg _) fun _ => .seq (.expect _) fun _ => .pure rfl
  · exact .seq (.expect _) fun _ => .pure rfl

theorem listDisplay_commutes : Commutes f (Expr.rename f) (listDisplay g) (listDisplay g) := by
  unfold listDisplay
  refine .seq .position fun _ => .seq .advance fun _ => .seq (.accept _) fun _ =>
    .ite rfl (.pure rfl) (.bind (element_commutes hg) fun _ => ?_)
  refine .seq atComprehension_commutes fun _ => .ite rfl (comprehended_commutes hg _ rfl) ?_
  exact .seq (moreElements_commutes hg _) fun _ => .seq (.expect _) fun _ => .pure rfl

theorem item_commutes : Commutes f id (item g) (item g) := by
  unfold item
  refine .seq (.accept _) fun _ => .ite rfl (.bind hg.operand fun _ => .pure rfl) ?_
  exact .bind hg.expression fun _ => .seq (.expect _) fun _ =>
    .bind hg.expression fun _ => .pure rfl

theorem moreItems_commutes : Commutes f id (moreItems g) (moreItems g) := by
  unfold moreItems nextItem
  refine .seq (.repeatWhile (.seq (.accept _) fun _ => .ite rfl ?_ (.pure rfl))) fun _ => .expect _
  exact .seq (.atSymbol _) fun _ =>
    .ite rfl (.pure rfl) (.seq (item_commutes hg) fun _ => .pure rfl)

theorem braceDisplay_commutes : Commutes f (Expr.rename f) (braceDisplay g) (braceDisplay g) := by
  unfold braceDisplay
  refine .seq .position fun _ => .seq .advance fun _ => .seq (.accept _) fun _ =>
    .ite rfl (.pure rfl) (.seq (.atSymbol _) fun _ => .ite rfl ?_ ?_)
  · exact .seq (item_commutes hg) fun _ => .seq (moreItems_commutes hg) fun _ => .pure rfl
  refine .bind (element_commutes hg) fun _ => .seq (.accept _) fun _ => .ite rfl ?_ ?_
  · refine .bind hg.expression fun _ => .seq atComprehension_commutes fun _ =>
      .ite rfl (comprehended_commutes hg _ rfl) ?_
    exact .seq (moreItems_commutes hg) fun _ => .pure rfl
  · refine .seq atComprehension_commutes fun _ => .ite rfl (comprehended_commutes hg _ rfl) ?_
    exact .seq (moreElements_commutes hg _) fun _ => .seq (.expect _) fun _ => .pure rfl

theorem atom_commutes : Commutes f (Expr.rename f) (atom g) (atom g) := by
  have hone : ∀ {e e' : Expr}, e.rename f = e' → Commutes f (Expr.rename f)
      (do
        advance
        pure e)
      (do
        advance
        pure e') := fun he => .seq .advance fun _ => .pure he
  unfold atom
  refine .seq .position fun _ => .bind .peek fun l => ?_
  cases l with
  | keyword => exact .ite rfl (hone rfl) (.fail _)
  | name | number => exact hone rfl
  | string => exact strings_commutes
  | symbol symbol =>
    dsimp only [Lexeme.rename]
    split
    case h_1 h | h_2 h | h_3 h | h_4 h => cases h
    case h_5 => exact parenthesized_commutes hg
    case h_6 => exact listDisplay_commutes hg
    case h_7 => exact braceDisplay_commutes hg
    case h_8 => exact hone rfl
    case h_9 => exact .fail _
  | _ => exact .fail _

theorem primary_commutes : Commutes f (Expr.rename f) (primary g) (primary g) := by
  unfold primary nextTrailer
  refine .seq .position fun _ => .bind (atom_commutes hg) fun _ => .loop (fun _ => ?_) rfl
  refine .seq (.accept _) fun _ => .ite rfl (.bind .name fun _ => .pure rfl) ?_
  refine .seq (.atSymbol _) fun _ =>
    .ite rfl (.seq (arguments_commutes hg) fun _ => .pure rfl) ?_
  refine .seq (.accept _) fun _ => .ite rfl ?_ (.pure rfl)
  exact .seq (slices_commutes hg) fun _ => .seq (.expect _) fun _ => .pure rfl

/-! ## Section 6: Operators -/

omit hg in
theorem chain_commutes {operator : Parser Bool} {operand : Parser Expr}
    (hoperator : Commutes f id operator operator)
    (hoperand : Commutes f (Expr.rename f) operand operand) :
    Commutes f (Expr.rename f) (chain operator operand) (chain operator operand) := by
  unfold chain nextOperand
  refine .seq .position fun _ => .bind hoperand fun _ => .loop (fun _ => ?_) rfl
  exact .seq hoperator fun _ => .ite rfl (.bind hoperand fun _ => .pure rfl) (.pure rfl)

theorem power_commutes : Commutes f (Expr.rename f) (power g) (power g) := by
  unfold power
  refine .seq .position fun _ => .seq (.acceptKeyword _) fun _ =>
    .bind (primary_commutes hg) fun _ => .seq (.accept _) fun _ => ?_
  exact .ite rfl (.bind hg.factor fun _ => .pure rfl) (.ite rfl (.pure rfl) (.pure rfl))

omit hg in
theorem isSign_rename (l : Lexeme) : isSign (l.rename f) = isSign l := by
  cases l <;> rfl

theorem factor_commutes : Commutes f (Expr.rename f) (factor g) (factor g) := by
  unfold factor
  exact .seq .position fun _ => .seq (.acceptIf isSign_rename) fun _ =>
    .ite rfl (.bind hg.factor fun _ => .pure rfl) (power_commutes hg)

omit hg in
theorem isOneOf_rename (symbols : List Symbol) (l : Lexeme) :
    isOneOf symbols (l.rename f) = isOneOf symbols l := by
  cases l <;> rfl

theorem binary_commutes (levels : List (List Symbol)) :
    Commutes f (Expr.rename f) (binary g levels) (binary g levels) := by
  induction levels with
  | nil => exact factor_commutes hg
  | cons level tighter ih => exact chain_commutes (.acceptIf (isOneOf_rename level)) ih

omit hg in
theorem acceptComparison_commutes : Commutes f id acceptComparison acceptComparison := by
  unfold acceptComparison
  refine .bind .peek fun l => ?_
  cases l with
  | symbol => exact .ite rfl (.seq .advance fun _ => .pure rfl) (.pure rfl)
  | keyword word =>
    dsimp only [Lexeme.rename]
    split
    case h_1 h => cases h
    case h_2 => exact .seq .advance fun _ => .pure rfl
    case h_3 =>
      refine .bind .peekSecond fun l => .ite (l.beq_keyword_rename _) ?_ (.pure rfl)
      exact .seq .advance fun _ => .seq .advance fun _ => .pure rfl
    case h_4 => exact .seq .advance fun _ => .seq (.acceptKeyword _) fun _ => .pure rfl
    case h_5 => exact .pure rfl
  | _ => exact .pure rfl

theorem operand_commutes : Commutes f (Expr.rename f) (operand g) (operand g) :=
  binary_commutes hg _

theorem comparison_commutes : Commutes f (Expr.rename f) (comparison g) (comparison g) :=
  chain_commutes acceptComparison_commutes (operand_commutes hg)

theorem inversion_commutes : Commutes f (Expr.rename f) (inversion g) (inversion g) := by
  unfold inversion
  exact .seq .position fun _ => .seq (.acceptKeyword _) fun _ =>
    .ite rfl (.bind hg.inversion fun _ => .pure rfl) (comparison_commutes hg)

theorem disjunction_commutes : Commutes f (Expr.rename f) (disjunction g) (disjunction g) :=
  chain_commutes (.acceptKeyword _) (chain_commutes (.acceptKeyword _) (inversion_commutes hg))

theorem lambda_commutes : Commutes f (Expr.rename f) (lambda g) (lambda g) := by
  unfold lambda
  exact .seq .position fun _ => .seq .advance fun _ => .bind (parameters_commutes hg _ _) fun _ =>
    .seq (.expect _) fun _ => .bind hg.expression fun _ => .pure rfl

theorem expression_commutes : Commutes f (Expr.rename f) (expression g) (expression g) := by
  unfold expression
  refine .seq .position fun _ => .seq (.atKeyword _) fun _ => .ite rfl (lambda_commutes hg) ?_
  refine .bind (disjunction_commutes hg) fun _ => .seq (.acceptKeyword _) fun _ =>
    .ite rfl ?_ (.pure rfl)
  exact .bind hg.disjunction fun _ => .seq (.expectKeyword _ _) fun _ =>
    .bind hg.expression fun _ => .pure rfl

/-! ## Section 7: The knot -/

omit hg in
theorem grammarUpTo_commutes (fuel : List Token) : (grammarUpTo fuel).Commute f := by
  induction fuel with
  | nil => exact ⟨.spent, .spent, .spent, .spent, .spent⟩
  | cons _ fuel ih =>
    exact ⟨expression_commutes ih, disjunction_commutes ih, inversion_commutes ih,
      operand_commutes ih, factor_commutes ih⟩

omit hg in
/-- Of the fuel, only the length matters. -/
theorem grammarUpTo_renamed (fuel : List Token) :
    grammarUpTo (renamed f fuel) = grammarUpTo fuel := by
  induction fuel with
  | nil => rfl
  | cons token fuel ih =>
    show grammarUpTo (token.rename f :: renamed f fuel) = _
    unfold grammarUpTo at ih ⊢
    unfold grammarOver
    rw [ih]

omit hg in
/-- What the tokens themselves are the fuel of. -/
theorem tied_commutes {parser : Nonterminals → Parser Expr}
    (h : ∀ g : Nonterminals, g.Commute f → Commutes f (Expr.rename f) (parser g) (parser g)) :
    Commutes f (Expr.rename f) (fun ts => parser (grammarUpTo ts) ts)
      (fun ts => parser (grammarUpTo ts) ts) := by
  intro ts
  dsimp only
  rw [grammarUpTo_renamed]
  exact h _ (grammarUpTo_commutes ts) ts

end Grammar

/-- The parsers of the grammar of expressions do not look at how names are
    spelled. -/
theorem grammar_commutes : grammar.Commute f where
  expression := Grammar.tied_commutes fun _ => Grammar.expression_commutes
  disjunction := Grammar.tied_commutes fun _ => Grammar.disjunction_commutes
  inversion := Grammar.tied_commutes fun _ => Grammar.inversion_commutes
  operand := Grammar.tied_commutes fun _ => Grammar.operand_commutes
  factor := Grammar.tied_commutes fun _ => Grammar.factor_commutes

end StyleCheck
