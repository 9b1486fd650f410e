import StyleCheck.Proofs.Parsing.Forms

/-! # What Parsers Lead To

    Properties of the tokens that have been read, and what a parser makes
    of them.  In an expression, operands alternate with what stands between
    them, so that two properties are enough: one in front of an operand, and
    one behind it.

    * `Leads`, `LeadsAt`: the judgement, with one rule for each small parser.
    * `OperandPlaces`: two such properties, and what one token makes of them.
    * `Nonterminals.Guide`: the parsers of a grammar lead from one to the
      other.  `Nonterminals.Parts`: so do its brackets and lambdas, which
      depend on the two.
    * `grammar_guide_of`: the grammar of expressions, from its parts.
-/

namespace StyleCheck

open StyleCheck.Parser

variable {read ts mid rest all : List Token} {t : Token}

/-! ## Section 1: Rules -/

namespace Parser

variable {α β σ : Type} {pre mid : List Token → Prop} {post : α → List Token → Prop}
  {p p' : Parser α}

/-- Of the tokens `all`, the parser reads on from those with `pre` to those
    with `post`. -/
def Leads (all : List Token) (pre : List Token → Prop) (p : Parser α)
    (post : α → List Token → Prop) : Prop :=
  ∀ read ts, read ++ ts = all → Ensures p ts fun a rest =>
    ∃ read', read' ++ rest = all ∧ (pre read → post a read')

/-- The same of a parser that finds a certain lexeme at the front. -/
def LeadsAt (all : List Token) (l : Lexeme) (pre : List Token → Prop) (p : Parser α)
    (post : α → List Token → Prop) : Prop :=
  ∀ read ts, read ++ ts = all → (front ts).lexeme = l → Ensures p ts fun a rest =>
    ∃ read', read' ++ rest = all ∧ (pre read → post a read')

/-- What holds of a state that a loop goes on with, or of its result. -/
def Next.Holds (inv : σ → List Token → Prop) (post : α → List Token → Prop) :
    Next σ α → List Token → Prop
  | .again state => inv state
  | .done result => post result

namespace Leads

/-- What it needs, and what it is good for. -/
theorem mono {pre' : List Token → Prop} {post' : α → List Token → Prop} (h : Leads all pre p post)
    (hpre : ∀ {read}, pre' read → pre read) (hpost : ∀ {a read}, post a read → post' a read) :
    Leads all pre' p post' := fun read ts hts => (h read ts hts).mono fun _ _ hrest => by
  obtain ⟨read', hall, hread⟩ := hrest
  exact ⟨read', hall, fun h => hpost (hread (hpre h))⟩

/-- What holds of the tokens is only known under a condition. -/
theorem under (c : Prop) (h : Leads all pre p post) :
    Leads all (fun read => c → pre read) p fun a read => c → post a read :=
  fun read ts hts => (h read ts hts).mono fun _ _ hrest => by
    obtain ⟨read', hall, hread⟩ := hrest
    exact ⟨read', hall, fun h hc => hread (h hc)⟩

theorem pure {a : α} (h : ∀ {read}, pre read → post a read) : Leads all pre (pure a) post :=
  fun read _ hts => (ensures_pure a).mpr ⟨read, hts, h⟩

theorem bind {q : Parser β} {f : β → Parser α} {between : β → List Token → Prop}
    (hq : Leads all pre q between) (hf : ∀ b, Leads all (between b) (f b) post) :
    Leads all pre (q >>= f) post := by
  intro read ts hts
  rw [ensures_bind]
  refine (hq read ts hts).mono fun b mid hmid => ?_
  obtain ⟨between, hall, hbetween⟩ := hmid
  refine (hf b between mid hall).mono fun a rest hrest => ?_
  obtain ⟨read', hall', hread'⟩ := hrest
  exact ⟨read', hall', fun h => hread' (hbetween h)⟩

theorem ite {c : Prop} [Decidable c] (hp : c → Leads all pre p post)
    (hp' : ¬c → Leads all pre p' post) : Leads all pre (if c then p else p') post :=
  fun read ts hts => (ensures_ite c p p').mpr
    ⟨fun hc => hp hc read ts hts, fun hc => hp' hc read ts hts⟩

theorem fail (fault : Fault) : Leads all pre (fail fault : Parser α) post :=
  fun _ _ _ => (ensures_fail fault).mpr trivial

theorem spent : Leads all pre (spent : Parser α) post :=
  fun _ _ _ => ensures_spent.mpr trivial

theorem failAt (at_ : Position) (fault : Fault) :
    Leads all pre (failAt at_ fault : Parser α) post :=
  fun _ _ _ => (ensures_failAt at_ fault).mpr trivial

theorem peek : Leads all pre peek fun _ => pre :=
  fun read _ hts => ensures_peek.mpr ⟨read, hts, id⟩

theorem position : Leads all pre position fun _ => pre :=
  fun read _ hts => ensures_position.mpr ⟨read, hts, id⟩

theorem line : Leads all pre line fun _ => pre :=
  fun read _ hts => ensures_line.mpr ⟨read, hts, id⟩

theorem atSymbol (symbol : Symbol) : Leads all pre (atSymbol symbol) fun _ => pre :=
  fun read _ hts => (ensures_atSymbol symbol).mpr ⟨read, hts, id⟩

theorem atKeyword (word : Keyword) : Leads all pre (atKeyword word) fun _ => pre :=
  fun read _ hts => (ensures_atKeyword word).mpr ⟨read, hts, id⟩

/-- Behind the token at the front, another parser. -/
theorem behind {c : Prop} (hp : Leads all mid p post) (hts : read ++ ts = all)
    (hcons : ts = t :: rest) (h : c → mid (read ++ [t])) : Ensures p rest fun a rest' =>
      ∃ read', read' ++ rest' = all ∧ (c → post a read') := by
  rw [hcons, List.append_cons] at hts
  refine (hp _ _ hts).mono fun _ _ hrest => ?_
  obtain ⟨read', hall, hread⟩ := hrest
  exact ⟨read', hall, fun hc => hread (h hc)⟩

theorem acceptsIf {test : Lexeme → Bool} {post : Bool → List Token → Prop}
    (hend : test .endMarker = false)
    (h : ∀ {read t}, test t.lexeme = true → pre read → post true (read ++ [t]))
    (h' : ∀ {read}, pre read → post false read) : Leads all pre (acceptIf test) post := by
  intro read ts hts
  rw [ensures_acceptIf]
  refine ⟨fun htest => ?_, fun _ => ⟨read, hts, h'⟩⟩
  have hmarker : (front ts).lexeme ≠ .endMarker := fun hmarker => by
    rw [hmarker, hend] at htest
    cases htest
  obtain ⟨at_, hcons⟩ := eq_cons_of_front rfl hmarker
  rw [hcons, List.append_cons] at hts
  exact ⟨_, hts, h htest⟩

/-- A lexeme that is known, if it is there. -/
theorem acceptsLexeme {l : Lexeme} {post : Bool → List Token → Prop} (hl : l ≠ .endMarker)
    (h : ∀ {read at_}, pre read → post true (read ++ [⟨l, at_⟩]))
    (h' : ∀ {read}, pre read → post false read) : Leads all pre (acceptIf (· == l)) post :=
  acceptsIf (beq_eq_false_iff_ne.mpr hl.symm) (fun {_ t} htest hpre => by
    obtain ⟨lexeme, at_⟩ := t
    obtain rfl := beq_iff_eq.mp htest
    exact h hpre) h'

/-- What is read depends on whether it is there. -/
theorem branch {q : Parser Bool} (hq : Leads all pre q fun found => bif found then mid else pre)
    (hp : Leads all mid p post) (hp' : Leads all pre p' post) :
    Leads all pre (do if ← q then p else p') post := by
  refine .bind hq fun found => ?_
  cases found with
  | true => exact hp
  | false => exact hp'

theorem acceptLexeme {l : Lexeme} (hl : l ≠ .endMarker)
    (h : ∀ {read at_}, pre read → mid (read ++ [⟨l, at_⟩]))
    (hp : Leads all mid p post) (hp' : Leads all pre p' post) :
    Leads all pre (do if ← acceptIf (· == l) then p else p') post :=
  branch (acceptsLexeme hl h id) hp hp'

theorem accept {symbol : Symbol}
    (h : ∀ {read at_}, pre read → mid (read ++ [⟨.symbol symbol, at_⟩]))
    (hp : Leads all mid p post) (hp' : Leads all pre p' post) :
    Leads all pre (do if ← Parser.accept symbol then p else p') post :=
  acceptLexeme (by simp) h hp hp'

theorem acceptKeyword {word : Keyword}
    (h : ∀ {read at_}, pre read → mid (read ++ [⟨.keyword word, at_⟩]))
    (hp : Leads all mid p post) (hp' : Leads all pre p' post) :
    Leads all pre (do if ← Parser.acceptKeyword word then p else p') post :=
  acceptLexeme (by simp) h hp hp'

theorem expect {symbol : Symbol}
    (h : ∀ {read at_}, pre read → mid (read ++ [⟨.symbol symbol, at_⟩])) :
    Leads all pre (expect symbol) fun _ => mid :=
  accept h (.pure id) (.fail _)

theorem expectKeyword {word : Keyword} (fault : Fault)
    (h : ∀ {read at_}, pre read → mid (read ++ [⟨.keyword word, at_⟩])) :
    Leads all pre (expectKeyword word fault) fun _ => mid :=
  acceptKeyword h (.pure id) (.fail _)

theorem expectNewline (fault : Fault)
    (h : ∀ {read at_}, pre read → mid (read ++ [⟨.newline, at_⟩])) :
    Leads all pre (expectNewline fault) fun _ => mid :=
  acceptLexeme (by simp) h (.pure id) (.fail _)

theorem name (h : ∀ {read x at_}, pre read → mid (read ++ [⟨.name x, at_⟩])) :
    Leads all pre name fun _ => mid := by
  intro read ts hts
  rw [ensures_name]
  intro x hx
  obtain ⟨at_, hcons⟩ := eq_cons_of_front hx (by simp)
  rw [hcons, List.append_cons] at hts
  exact ⟨_, hts, h⟩

theorem loop {body : σ → Parser (Next σ α)} {inv : σ → List Token → Prop}
    (h : ∀ state, Leads all (inv state) (body state) (Next.Holds inv post)) (state : σ) :
    Leads all (inv state) (loop body state) post := by
  intro read ts hts
  refine (@Ensures.loop _ _ body (fun state ts result rest => ∀ read, read ++ ts = all →
    ∃ read', read' ++ rest = all ∧ (inv state read → post result read'))
    (fun state ts next mid hround => ?_) state ts).mono fun _ _ hrest => hrest read hts
  have hstep := fun read hts => h state read ts hts next mid hround
  cases next with
  | done result => exact hstep
  | again next =>
    intro result rest hbehind read hts
    obtain ⟨between, hall, hinv⟩ := hstep read hts
    obtain ⟨read', hall', hpost⟩ := hbehind between hall
    exact ⟨read', hall', fun h => hpost (hinv h)⟩

theorem loop_same {body : σ → Parser (Next σ α)}
    (h : ∀ state, Leads all pre (body state) fun _ => pre) (state : σ) :
    Leads all pre (Parser.loop body state) fun _ => pre :=
  @loop _ _ _ _ _ (fun _ => pre) (fun state => (h state).mono id fun {next _} hread => by
    cases next with
    | again => exact hread
    | done => exact hread) state

theorem repeatWhile_until {body : Parser Bool} {inv : Bool → List Token → Prop}
    (h : Leads all (inv true) body inv) :
    Leads all (inv true) (repeatWhile body) fun _ => inv false := by
  refine @loop _ _ _ _ _ (fun _ => inv true) (fun _ => .bind h fun again => ?_) ()
  cases again with
  | true => exact .pure id
  | false => exact .pure id

theorem repeatWhile {body : Parser Bool} (h : Leads all pre body fun _ => pre) :
    Leads all pre (repeatWhile body) fun _ => pre :=
  @repeatWhile_until _ _ (fun _ => pre) h

end Leads

namespace LeadsAt

variable {l : Lexeme}

theorem here (h : LeadsAt all l pre p post) (hts : read ++ ts = all)
    (hfront : (front ts).lexeme = l) : Ensures p ts fun a rest =>
      ∃ read', read' ++ rest = all ∧ (pre read → post a read') :=
  h read ts hts hfront

theorem mono {pre' : List Token → Prop} {post' : α → List Token → Prop}
    (h : LeadsAt all l pre p post) (hpre : ∀ {read}, pre' read → pre read)
    (hpost : ∀ {a read}, post a read → post' a read) : LeadsAt all l pre' p post' :=
  fun read ts hts hfront => (h read ts hts hfront).mono fun _ _ hrest => by
    obtain ⟨read', hall, hread⟩ := hrest
    exact ⟨read', hall, fun h => hpost (hread (hpre h))⟩

theorem bind {q : Parser β} {f : β → Parser α} {between : β → List Token → Prop}
    (hq : LeadsAt all l pre q between) (hf : ∀ b, Leads all (between b) (f b) post) :
    LeadsAt all l pre (q >>= f) post := by
  intro read ts hts hfront
  rw [ensures_bind]
  refine (hq read ts hts hfront).mono fun b mid hmid => ?_
  obtain ⟨between, hall, hbetween⟩ := hmid
  refine (hf b between mid hall).mono fun a rest hrest => ?_
  obtain ⟨read', hall', hread'⟩ := hrest
  exact ⟨read', hall', fun h => hread' (hbetween h)⟩

theorem position {f : Position → Parser α} (hf : ∀ at_, LeadsAt all l pre (f at_) post) :
    LeadsAt all l pre (Parser.position >>= f) post := fun read ts hts hfront => by
  rw [ensures_bind, ensures_position]
  exact hf _ read ts hts hfront

theorem line {f : Nat → Parser α} (hf : ∀ line, LeadsAt all l pre (f line) post) :
    LeadsAt all l pre (Parser.line >>= f) post := fun read ts hts hfront => by
  rw [ensures_bind, ensures_line]
  exact hf _ read ts hts hfront

theorem ite {c : Prop} [Decidable c] (hp : c → LeadsAt all l pre p post)
    (hp' : ¬c → LeadsAt all l pre p' post) : LeadsAt all l pre (if c then p else p') post :=
  fun read ts hts hfront => (ensures_ite c p p').mpr
    ⟨fun hc => hp hc read ts hts hfront, fun hc => hp' hc read ts hts hfront⟩

theorem spent : LeadsAt all l pre (Parser.spent : Parser α) post :=
  fun _ _ _ _ => ensures_spent.mpr trivial

theorem fail (fault : Fault) : LeadsAt all l pre (Parser.fail fault : Parser α) post :=
  fun _ _ _ _ => (ensures_fail fault).mpr trivial

/-- The token that has been found is read. -/
theorem advance (hl : l ≠ .endMarker) (h : ∀ {read at_}, pre read → mid (read ++ [⟨l, at_⟩]))
    (hp : Leads all mid p post) : LeadsAt all l pre (do
      Parser.advance
      p) post := by
  intro read ts hts hfront
  rw [ensures_bind, ensures_advance]
  obtain ⟨at_, hcons⟩ := eq_cons_of_front hfront hl
  exact hp.behind hts hcons h

theorem atKeyword {word : Keyword} (hp : LeadsAt all (.keyword word) pre p post)
    (hp' : Leads all pre p' post) :
    Leads all pre (do if ← Parser.atKeyword word then p else p') post := by
  intro read ts hts
  rw [ensures_bind, ensures_atKeyword, ensures_ite]
  exact ⟨fun hfront => hp read ts hts (of_decide_eq_true hfront), fun _ => hp' read ts hts⟩

theorem atSymbol {symbol : Symbol} (hp : LeadsAt all (.symbol symbol) pre p post)
    (hp' : Leads all pre p' post) :
    Leads all pre (do if ← Parser.atSymbol symbol then p else p') post := by
  intro read ts hts
  rw [ensures_bind, ensures_atSymbol, ensures_ite]
  exact ⟨fun hfront => hp read ts hts (of_decide_eq_true hfront), fun _ => hp' read ts hts⟩

end LeadsAt

end Parser

/-! ## Section 2: In front of an operand and behind it -/

namespace Lexeme

/-- Whether an operand may consist of a lexeme. -/
def isAtom : Lexeme → Bool
  | name _ | number _ | string .. | symbol .ellipsis => true
  | keyword word => word.isConstant
  | _ => false

/-- Whether a lexeme is neither the front nor the end of anything: no
    bracket, no lambda or its colon, no definition and no equals sign. -/
def isInert : Lexeme → Bool
  | symbol (.opening _) | symbol (.closing _) | symbol .colon | symbol .equal => false
  | keyword .lambda_ | keyword .def_ | endMarker => false
  | _ => true

theorem isInert_of_isAtom {l : Lexeme} (h : l.isAtom = true) : l.isInert = true := by
  unfold isInert
  split
  case h_8 => rfl
  all_goals cases h

theorem isAtom_of_isLiteral {l : Lexeme} (h : l.isLiteral = true) : l.isAtom = true := by
  cases l with
  | string => rfl
  | _ => cases h

theorem ne_endMarker_of_isInert {l : Lexeme} (h : l.isInert = true) : l ≠ .endMarker := by
  rintro rfl
  cases h

end Lexeme

/-- Behind free tokens an operand may be read, and others end with one. -/
structure OperandPlaces (free ended : List Token → Prop) : Prop where
  relax : ∀ {read}, ended read → free read
  inert : ∀ {read t}, free read → t.lexeme.isInert = true → free (read ++ [t])
  atom : ∀ {read t}, free read → t.lexeme.isAtom = true → ended (read ++ [t])
  equal : ∀ {read p}, ended read → free (read ++ [⟨.symbol .equal, p⟩])

/-- The parsers that are referred back to read an operand. -/
structure Nonterminals.Guide (g : Nonterminals) (all : List Token)
    (free ended : List Token → Prop) : Prop extends OperandPlaces free ended where
  expression : Leads all free g.expression fun _ => ended
  disjunction : Leads all free g.disjunction fun _ => ended
  inversion : Leads all free g.inversion fun _ => ended
  operand : Leads all free g.operand fun _ => ended
  factor : Leads all free g.factor fun _ => ended

/-- So do displays and lambdas, and what stands behind an operand. -/
structure Nonterminals.Parts (g : Nonterminals) (all : List Token)
    (free ended : List Token → Prop) : Prop extends g.Guide all free ended where
  parenthesized : LeadsAt all (.symbol (.opening .round)) free (Grammar.parenthesized g)
    fun _ => ended
  listDisplay : LeadsAt all (.symbol (.opening .square)) free (Grammar.listDisplay g) fun _ => ended
  braceDisplay : LeadsAt all (.symbol (.opening .curly)) free (Grammar.braceDisplay g)
    fun _ => ended
  trailer : ∀ start read, Leads all ended (Grammar.nextTrailer g start read) fun _ => ended
  lambda : LeadsAt all (.keyword .lambda_) free (Grammar.lambda g) fun _ => ended

namespace Grammar

variable {g : Nonterminals} {free ended : List Token → Prop}

section

variable (hg : g.Guide all free ended)

include hg

/-- Behind an operand, what may be read anywhere. -/
theorem operand_bind {α β : Type} {pre : List Token → Prop} {post : α → List Token → Prop}
    {q : Parser β} {f : β → Parser α} (hq : Leads all pre q fun _ => ended)
    (hf : ∀ b, Leads all free (f b) post) : Leads all pre (q >>= f) post :=
  .bind hq fun b => (hf b).mono hg.relax id

/-! ## Section 3: Lists and clauses -/

theorem starExpression_leads : Leads all free (starExpression g) fun _ => ended := by
  unfold starExpression
  exact .bind .position fun _ =>
    .accept (hg.inert · rfl) (.bind hg.operand fun _ => .pure id) hg.expression

theorem namedExpression_leads : Leads all free (namedExpression g) fun _ => ended := by
  intro read ts hts
  unfold namedExpression
  rw [ensures_bind, ensures_position, ensures_bind, ensures_peek, ensures_bind, ensures_peekSecond,
    ensures_ite]
  refine ⟨fun hnamed => ?_, fun _ => hg.expression read ts hts⟩
  simp only [Bool.and_eq_true, beq_iff_eq] at hnamed
  rw [ensures_bind, ensures_name]
  intro x hx
  obtain ⟨p, hname⟩ := eq_cons_of_front hx (by simp)
  obtain ⟨q, hsymbol⟩ := eq_cons_of_front hnamed.2 (by simp)
  rw [hname, List.append_cons] at hts
  rw [ensures_bind, ensures_advance]
  have hvalue : Leads all free (do
      let _ ← g.expression
      pure (⟨.other, (front ts).position⟩ : Expr)) fun _ => ended :=
    .bind hg.expression fun _ => .pure id
  exact hvalue.behind hts hsymbol fun h => hg.inert (hg.inert h rfl) rfl

theorem element_leads : Leads all free (element g) fun _ => ended := by
  unfold element
  exact .bind (.atSymbol _) fun _ =>
    .ite (fun _ => starExpression_leads hg) (fun _ => namedExpression_leads hg)

theorem target_leads : Leads all free (target g) fun _ => ended := by
  unfold target
  exact .bind (.atSymbol _) fun _ => .ite (fun _ => starExpression_leads hg) (fun _ => hg.operand)

theorem targets_leads : Leads all free (targets g) fun _ => free := by
  have htarget := target_leads hg
  unfold targets nextTarget
  refine .bind .position fun _ => operand_bind hg htarget fun _ => .bind (.atSymbol _) fun _ =>
    .ite (fun _ => ?_) (fun _ => .pure id)
  refine .bind (.repeatWhile (.accept (hg.inert · rfl) ?_ (.pure id))) fun _ => .pure id
  exact .bind .peek fun _ =>
    .ite (fun _ => .pure id) (fun _ => operand_bind hg htarget fun _ => .pure id)

theorem acceptFor_leads : Leads all free acceptFor fun _ => free := by
  unfold acceptFor
  refine .acceptKeyword (hg.inert · rfl) (.pure id) fun read ts hts => ?_
  rw [ensures_bind, ensures_peekSecond, ensures_ite, ensures_pure, ensures_bind,
    ensures_acceptKeyword]
  refine ⟨fun hfor => ⟨fun hasync => ?_, fun _ => ?_⟩, fun _ => ⟨read, hts, id⟩⟩
  -- An `async` is read only if there is a `for` behind it.
  · obtain ⟨p, hcons⟩ := eq_cons_of_front hasync (by simp)
    obtain ⟨q, htail⟩ := eq_cons_of_front (beq_iff_eq.mp hfor) (by simp)
    rw [hcons, List.append_cons] at hts
    rw [if_pos rfl, ensures_bind, ensures_advance]
    have hdone : Leads all free (pure true) fun _ => free := .pure id
    exact hdone.behind hts htail fun h => hg.inert (hg.inert h rfl) rfl
  · rw [if_neg Bool.false_ne_true, ensures_pure]
    exact ⟨read, hts, id⟩

theorem clause_leads : Leads all free (clause g) fun _ => free := by
  unfold clause nextCondition
  refine .bind (targets_leads hg) fun _ => .bind (.expectKeyword _ (hg.inert · rfl)) fun _ =>
    operand_bind hg hg.disjunction fun _ => .repeatWhile ?_
  refine .acceptKeyword (hg.inert · rfl) ?_ (.pure id)
  exact operand_bind hg hg.disjunction fun _ => .pure id

theorem comprehension_leads : Leads all free (comprehension g) fun _ => free := by
  have hfor := acceptFor_leads hg
  have hclause := clause_leads hg
  unfold comprehension nextClause
  refine .bind hfor fun _ =>
    .ite (fun _ => .bind hclause fun _ => .repeatWhile ?_) (fun _ => .fail _)
  exact .bind hfor fun _ => .ite (fun _ => .bind hclause fun _ => .pure id) (fun _ => .pure id)

omit hg in
theorem atComprehension_leads {pre : List Token → Prop} :
    Leads all pre atComprehension fun _ => pre := by
  unfold atComprehension
  refine .bind .peek fun l => ?_
  split
  all_goals exact .pure id

/-- Any word may name an argument. -/
theorem argument_leads {pre : List Token → Prop} (hfree : ∀ {read}, pre read → free read)
    (hnamed : ∀ {read t p}, pre read → t.lexeme.isWord = true →
      free (read ++ [t] ++ [⟨.symbol .equal, p⟩])) :
    Leads all pre (argument g) fun _ => free := by
  have hvalue : Leads all free (do let _ ← g.expression) fun _ => free :=
    operand_bind hg hg.expression fun _ => .pure id
  intro read ts hts
  unfold argument
  rw [ensures_bind, ensures_peek, ensures_bind, ensures_peekSecond, ensures_bind, ensures_acceptIf]
  refine ⟨fun hstar => ?_, fun _ => ?_⟩
  · have hinert : (front ts).lexeme.isInert = true := by
      rcases Bool.or_eq_true_iff.mp hstar with h | h
      all_goals
        rw [beq_iff_eq.mp h]
        rfl
    obtain ⟨p, hcons⟩ := eq_cons_of_front rfl (Lexeme.ne_endMarker_of_isInert hinert)
    rw [if_pos rfl]
    exact hvalue.behind hts hcons fun h => hg.inert (hfree h) hinert
  rw [if_neg Bool.false_ne_true, ensures_ite]
  refine ⟨fun hword => ?_, fun _ => ?_⟩
  · rw [Bool.and_eq_true, beq_iff_eq] at hword
    obtain ⟨p, hcons⟩ := eq_cons_of_front rfl fun (hend : (front ts).lexeme = .endMarker) => by
      rw [hend] at hword
      cases hword.1
    obtain ⟨q, hequal⟩ := eq_cons_of_front hword.2 (by simp)
    rw [hcons, List.append_cons] at hts
    rw [ensures_bind, ensures_advance, ensures_bind, ensures_advance]
    exact hvalue.behind hts hequal fun h => hnamed h hword.1
  · have hplain : Leads all free (do
        let _ ← namedExpression g
        if ← atComprehension then comprehension g) fun _ => free := by
      refine operand_bind hg (namedExpression_leads hg) fun _ =>
        .bind atComprehension_leads fun _ => ?_
      exact .ite (fun _ => comprehension_leads hg) (fun _ => .pure id)
    exact hplain.mono hfree id read ts hts

/-! ## Section 4: Parameters -/

/-- A parameter is a name, so a default may stand behind it. -/
theorem parameter_leads (closer : Symbol) {annotated : Bool}
    (hannotated : ∀ starred, Leads all ended (typeHint g annotated starred) fun _ => ended)
    (read : Parameters) : Leads all free (parameter g closer annotated read) fun _ => free := by
  have hname : Leads all free name fun _ => ended := .name (hg.atom · rfl)
  have hcomma : Leads all free (accept .comma) fun _ => free :=
    .acceptsLexeme (by simp) (hg.inert · rfl) id
  have hnext : ∀ read : Parameters, Leads all free (do
      if ← accept .comma then pure (Next.again read) else pure (Next.done (σ := Parameters) read))
      fun _ => free := fun read => .accept (hg.inert · rfl) (.pure id) (.pure id)
  unfold parameter
  refine .bind .position fun _ => .bind (.atSymbol _) fun _ =>
    .ite (fun _ => .pure id) (fun _ => LeadsAt.atSymbol ?_ (LeadsAt.atSymbol ?_ ?_))
  -- A slash.
  · exact .ite (fun _ => .fail _) (fun _ => .advance (by simp) (hg.inert · rfl) (hnext _))
  -- A star.
  · refine .ite (fun _ => .fail _) (fun _ => .advance (by simp) (hg.inert · rfl) ?_)
    refine .bind .peek fun _ => .ite (fun _ => ?_) (fun _ => hnext _)
    exact .bind hname fun _ => operand_bind hg (hannotated _) fun _ => hnext _
  refine .accept (hg.inert · rfl) ?_ ?_
  -- Two stars.
  · refine .bind hname fun _ => operand_bind hg (hannotated _) fun _ => .bind hcomma fun _ => ?_
    exact .bind (.atSymbol _) fun _ => .ite (fun _ => .pure id) (fun _ => .fail _)
  -- A name, with a default or without.
  · refine .bind hname fun _ => .bind (hannotated _) fun _ => .accept hg.equal ?_ ?_
    · exact operand_bind hg hg.expression fun _ => .ite (fun _ => hnext _) (fun _ => hnext _)
    · refine .mono (.ite (fun _ => ?_) (fun _ => hnext _)) hg.relax id
      exact .ite (fun _ => .failAt _ _) (fun _ => hnext _)

theorem parameters_leads (closer : Symbol) {annotated : Bool}
    (hannotated : ∀ starred, Leads all ended (typeHint g annotated starred) fun _ => ended) :
    Leads all free (parameters g closer annotated) fun _ => free :=
  .loop_same (parameter_leads hg closer hannotated) _

omit hg in
/-- The parameters of a lambda have no annotations. -/
theorem annotation_none_leads {pre : List Token → Prop} (starred : Bool) :
    Leads all pre (typeHint g false starred) fun _ => pre := .pure id

/-! ## Section 5: Operators -/

omit hg in
theorem chain_leads {operator : Parser Bool} {operand : Parser Expr}
    (hoperator : Leads all ended operator fun found => bif found then free else ended)
    (hoperand : Leads all free operand fun _ => ended) :
    Leads all free (chain operator operand) fun _ => ended := by
  unfold chain nextOperand
  exact .bind .position fun _ => .bind hoperand fun _ =>
    .loop_same (fun _ => .branch hoperator (.bind hoperand fun _ => .pure id) (.pure id)) _

omit hg in
theorem isInert_of_isSign (l : Lexeme) (h : isSign l = true) : l.isInert = true := by
  cases l with
  | symbol symbol => cases symbol <;> first | rfl | cases h
  | _ => cases h

omit hg in
/-- No operator is an equals sign. -/
theorem isInert_of_isOneOf {level : List Symbol} (hlevel : level ∈ Symbol.binaryLevels)
    (l : Lexeme) (h : isOneOf level l = true) : l.isInert = true := by
  cases l with
  | symbol symbol =>
    have hmem : symbol ∈ Symbol.binaryLevels.flatten :=
      List.mem_flatten.mpr ⟨level, hlevel, List.contains_iff_mem.mp h⟩
    cases symbol <;> first | rfl | simp [Symbol.binaryLevels] at hmem
  | _ => cases h

theorem acceptComparison_leads :
    Leads all ended acceptComparison fun found => bif found then free else ended := by
  have hone : ∀ {l : Lexeme} {p : Parser Bool}, l.isInert = true →
      Leads all free p (fun found => bif found then free else ended) → LeadsAt all l ended (do
        advance
        p) fun found => bif found then free else ended := fun hl hp =>
    .advance (Lexeme.ne_endMarker_of_isInert hl) (fun h => hg.inert (hg.relax h) hl) hp
  have htrue : Leads all free (pure true) fun found => bif found then free else ended := .pure id
  intro read ts hts
  unfold acceptComparison
  rw [ensures_bind, ensures_peek]
  split
  case h_1 symbol hfront =>
    rw [ensures_ite, ensures_pure]
    refine ⟨fun hcomparison => hone ?_ htrue read ts hts hfront, fun _ => ⟨read, hts, id⟩⟩
    cases symbol <;> first | rfl | cases hcomparison
  case h_2 hfront => exact hone rfl htrue read ts hts hfront
  case h_3 hfront =>
    rw [ensures_bind, ensures_peekSecond, ensures_ite, ensures_pure]
    refine ⟨fun hin => ?_, fun _ => ⟨read, hts, id⟩⟩
    obtain ⟨p, hnot⟩ := eq_cons_of_front hfront (by simp)
    obtain ⟨q, htail⟩ := eq_cons_of_front (beq_iff_eq.mp hin) (by simp)
    rw [hnot, List.append_cons] at hts
    rw [ensures_bind, ensures_advance, ensures_bind, ensures_advance]
    exact htrue.behind hts htail fun h => hg.inert (hg.inert (hg.relax h) rfl) rfl
  case h_4 hfront =>
    have hnot : Leads all free (acceptKeyword .not_) fun _ => free :=
      .acceptsLexeme (by simp) (hg.inert · rfl) id
    exact hone rfl (.bind hnot fun _ => htrue) read ts hts hfront
  case h_5 => exact (ensures_pure _).mpr ⟨read, hts, id⟩

end

section

variable (hg : g.Parts all free ended)

include hg

/-- There is one literal at least. -/
theorem strings_leads {l : Lexeme} (hl : l.isLiteral = true) :
    LeadsAt all l free strings fun _ => ended := by
  have happend : ∀ {read} (w : List Token), free read → (∀ t ∈ w, t.lexeme.isLiteral = true) →
      free (read ++ w) := by
    intro read w hread hw
    induction w generalizing read with
    | nil => rwa [List.append_nil]
    | cons t w ih =>
      obtain ⟨ht, hw⟩ := List.forall_mem_cons.mp hw
      rw [List.append_cons]
      exact ih (hg.inert hread (Lexeme.isInert_of_isAtom (Lexeme.isAtom_of_isLiteral ht))) hw
  unfold strings nextString
  refine .position fun _ => .bind (?_ : LeadsAt all l free _ fun _ => ended) fun _ =>
    .ite (fun _ => .failAt _ _) (fun _ => .ite (fun _ => .pure id) (fun _ => .pure id))
  intro read ts hts hfront
  refine (literals_ensures false false false ts).mono fun seen rest hseen => ?_
  obtain ⟨w, rfl, hliterals, hend, _⟩ := hseen
  refine ⟨read ++ w, by rw [List.append_assoc, hts], fun h => ?_⟩
  rcases List.eq_nil_or_concat w with rfl | ⟨u, t, rfl⟩
  · rw [List.nil_append] at hfront
    rw [hfront, hl] at hend
    cases hend
  · rw [List.concat_eq_append] at hliterals ⊢
    obtain ⟨hu, ht⟩ := List.forall_mem_append.mp hliterals
    rw [← List.append_assoc]
    exact hg.atom (happend u h hu) (Lexeme.isAtom_of_isLiteral (ht t List.mem_cons_self))

theorem atom_leads : Leads all free (atom g) fun _ => ended := by
  have hone : ∀ {l : Lexeme} (e : Expr), l.isAtom = true → LeadsAt all l free (do
      advance
      pure e) fun _ => ended := fun e hl =>
    .advance (Lexeme.ne_endMarker_of_isInert (Lexeme.isInert_of_isAtom hl)) (hg.atom · hl)
      (.pure id)
  intro read ts hts
  unfold atom
  rw [ensures_bind, ensures_position, ensures_bind, ensures_peek]
  split
  case h_1 word hfront =>
    rw [ensures_ite, ensures_fail]
    exact ⟨fun hconstant => @hone (.keyword word) _ hconstant read ts hts hfront, fun _ => trivial⟩
  case h_2 hfront | h_3 hfront | h_8 hfront => exact hone _ rfl read ts hts hfront
  case h_4 hfront => exact strings_leads hg rfl read ts hts hfront
  case h_5 hfront => exact hg.parenthesized read ts hts hfront
  case h_6 hfront => exact hg.listDisplay read ts hts hfront
  case h_7 hfront => exact hg.braceDisplay read ts hts hfront
  case h_9 => exact (ensures_fail _).mpr trivial

/-- Whatever stands behind an atom ends an operand again. -/
theorem primary_leads : Leads all free (primary g) fun _ => ended := by
  unfold primary
  exact .bind .position fun start => .bind (atom_leads hg) fun _ => .loop_same (hg.trailer start) _

theorem power_leads : Leads all free (power g) fun _ => ended := by
  have hawait : Leads all free (acceptKeyword .await_) fun _ => free :=
    .acceptsLexeme (by simp) (hg.inert · rfl) id
  unfold power
  refine .bind .position fun _ => .bind hawait fun _ => .bind (primary_leads hg) fun _ => ?_
  exact .accept (fun h => hg.inert (hg.relax h) rfl) (.bind hg.factor fun _ => .pure id)
    (.ite (fun _ => .pure id) (fun _ => .pure id))

theorem factor_leads : Leads all free (factor g) fun _ => ended := by
  unfold factor
  exact .bind .position fun _ =>
    .branch (.acceptsIf rfl (fun htest h => hg.inert h (isInert_of_isSign _ htest)) id)
      (.bind hg.factor fun _ => .pure id) (power_leads hg)

theorem binary_leads {levels : List (List Symbol)} (hlevels : levels ⊆ Symbol.binaryLevels) :
    Leads all free (binary g levels) fun _ => ended := by
  induction levels with
  | nil => exact factor_leads hg
  | cons level tighter ih =>
    have ⟨hlevel, htighter⟩ := List.cons_subset.mp hlevels
    refine chain_leads (.acceptsIf rfl (fun htest h => ?_) id) (ih htighter)
    exact hg.inert (hg.relax h) (isInert_of_isOneOf hlevel _ htest)

theorem operand_leads : Leads all free (operand g) fun _ => ended :=
  binary_leads hg (List.Subset.refl _)

theorem comparison_leads : Leads all free (comparison g) fun _ => ended :=
  chain_leads (acceptComparison_leads hg.toGuide) (operand_leads hg)

theorem inversion_leads : Leads all free (inversion g) fun _ => ended := by
  unfold inversion
  exact .bind .position fun _ =>
    .acceptKeyword (hg.inert · rfl) (.bind hg.inversion fun _ => .pure id) (comparison_leads hg)

theorem disjunction_leads : Leads all free (disjunction g) fun _ => ended := by
  have hword : ∀ {word : Keyword}, (Lexeme.keyword word).isInert = true →
      Leads all ended (acceptKeyword word) fun found => bif found then free else ended :=
    fun hword => .acceptsLexeme (by simp) (fun h => hg.inert (hg.relax h) hword) id
  exact chain_leads (hword rfl) (chain_leads (hword rfl) (inversion_leads hg))

theorem expression_leads : Leads all free (expression g) fun _ => ended := by
  unfold expression
  refine .bind .position fun _ => LeadsAt.atKeyword hg.lambda ?_
  refine .bind (disjunction_leads hg) fun _ =>
    .acceptKeyword (fun h => hg.inert (hg.relax h) rfl) ?_ (.pure id)
  exact operand_bind hg.toGuide hg.disjunction fun _ =>
    .bind (.expectKeyword _ (hg.inert · rfl)) fun _ => .bind hg.expression fun _ => .pure id

end

/-! ## Section 6: The knot -/

theorem grammarUpTo_guide_nil (h : OperandPlaces free ended) : (grammarUpTo []).Guide all free ended where
  toOperandPlaces := h
  expression := .spent
  disjunction := .spent
  inversion := .spent
  operand := .spent
  factor := .spent

theorem grammarUpTo_guide_cons {fuel : List Token} (h : (grammarUpTo fuel).Parts all free ended) :
    (grammarUpTo (t :: fuel)).Guide all free ended where
  toOperandPlaces := h.toOperandPlaces
  expression := expression_leads h
  disjunction := disjunction_leads h
  inversion := inversion_leads h
  operand := operand_leads h
  factor := factor_leads h

/-- The parsers of the grammar of expressions read operands. -/
theorem grammar_guide_of (h : ∀ fuel, (grammarUpTo fuel).Parts all free ended) :
    grammar.Guide all free ended where
  toOperandPlaces := (h []).toOperandPlaces
  expression read ts hts := (expression_leads (h ts) read ts hts).congr rfl
  disjunction read ts hts := (disjunction_leads (h ts) read ts hts).congr rfl
  inversion read ts hts := (inversion_leads (h ts) read ts hts).congr rfl
  operand read ts hts := (operand_leads (h ts) read ts hts).congr rfl
  factor read ts hts := (factor_leads (h ts) read ts hts).congr rfl

end Grammar

end StyleCheck
