import StyleCheck.Proofs.Parsing.Bindings
import StyleCheck.Proofs.Parsing.Nesting

/-! # The Blocks of a Source

    Every indent of an accepted source is read as the start of a block,
    behind a colon and the end of its line, and every dedent as the end of
    one.  The parser would end a block at the end marker too, but every
    level is closed in front of that.

    * `Below`, `Held`: the statements of a tree that hold those of a block.
    * `Lies`: what is left of the tokens closes the levels that it opens.
    * `Nests`: what a parser makes of such tokens, with one rule for each way
      to compose parsers.
    * `statementGrammar_nests`: the statements of a stream, by induction on
      its length.
    * `Module.blocks_delimited`: the blocks of a source.
-/

namespace StyleCheck

open StyleCheck.Parser
open Scan (isMargin)

/-! ## Section 1: Statements that hold blocks -/

/-- A statement holds the statements of a block: those of a suite are among
    the statements below it, and the cases of a `match` are all of them. -/
inductive Stmt.Holds : Stmt → Block → Prop where
  | suite {owner : Stmt} {inside behind : List Token} {stmts : List Stmt}
      (howner : owner.isMatch = false) (hstmts : stmts <:+: owner.children) :
      Holds owner ⟨inside, behind, stmts, false⟩
  | cases {line : Nat} {inside behind : List Token} {stmts : List Stmt} :
      Holds (.block line .matchBlock stmts) ⟨inside, behind, stmts, true⟩

/-- Each block is held somewhere in the trees. -/
def Below (stmts : List Stmt) (blocks : List Block) : Prop :=
  ∀ b ∈ blocks, ∃ owner ∈ nodes stmts, owner.Holds b

/-- The same, but a block may hold some of the statements themselves. -/
def Held (stmts : List Stmt) (blocks : List Block) : Prop :=
  ∀ b ∈ blocks, (b.ofCases = false ∧ b.stmts <:+: stmts) ∨ ∃ owner ∈ nodes stmts, owner.Holds b

variable {all ts us mid rest : List Token} {t : Token} {l : Lexeme} {n : Nat} {stmt : Stmt}
  {stmts others : List Stmt} {blocks more : List Block}

theorem Below.nil (stmts : List Stmt) : Below stmts [] := by simp [Below]

theorem Below.held (h : Below stmts blocks) : Held stmts blocks := fun b hmem => .inr (h b hmem)

theorem Held.nil (stmts : List Stmt) : Held stmts [] := by simp [Held]

theorem Below.append (h : Below stmts blocks) (h' : Below others more) :
    Below (stmts ++ others) (blocks ++ more) := by
  intro b hmem
  rw [nodes_append]
  rcases List.mem_append.mp hmem with hmem | hmem
  · obtain ⟨owner, howner, hholds⟩ := h b hmem
    exact ⟨owner, List.mem_append_left _ howner, hholds⟩
  · obtain ⟨owner, howner, hholds⟩ := h' b hmem
    exact ⟨owner, List.mem_append_right _ howner, hholds⟩

theorem Held.append (h : Held stmts blocks) (h' : Held others more) :
    Held (stmts ++ others) (blocks ++ more) := by
  intro b hmem
  rw [nodes_append]
  rcases List.mem_append.mp hmem with hmem | hmem
  · rcases h b hmem with ⟨hsuite, hinfix⟩ | ⟨owner, howner, hholds⟩
    · exact .inl ⟨hsuite, hinfix.trans (List.infix_append' [] stmts others)⟩
    · exact .inr ⟨owner, List.mem_append_left _ howner, hholds⟩
  · rcases h' b hmem with ⟨hsuite, hinfix⟩ | ⟨owner, howner, hholds⟩
    · exact .inl ⟨hsuite, hinfix.trans (List.suffix_append stmts others).isInfix⟩
    · exact .inr ⟨owner, List.mem_append_right _ howner, hholds⟩

/-- A statement holds the blocks of its suites. -/
theorem Held.owner (h : Held stmt.children blocks) (hstmt : stmt.isMatch = false) :
    Below [stmt] blocks := by
  intro b hmem
  rw [nodes_singleton]
  rcases h b hmem with ⟨hsuite, hinfix⟩ | ⟨owner, howner, hholds⟩
  · obtain ⟨inside, behind, inner, ofCases⟩ := b
    obtain rfl : ofCases = false := hsuite
    exact ⟨stmt, List.mem_cons_self, .suite hstmt hinfix⟩
  · exact ⟨owner, List.mem_cons_of_mem _ howner, hholds⟩

/-- What is held further down is held below a statement. -/
theorem Below.owner (h : Below stmt.children blocks) : Below [stmt] blocks := by
  intro b hmem
  rw [nodes_singleton]
  obtain ⟨owner, howner, hholds⟩ := h b hmem
  exact ⟨owner, List.mem_cons_of_mem _ howner, hholds⟩

/-! ## Section 2: Parsers that read whole blocks -/

theorem isMargin_eq_false (h : t.lexeme = l) (hindent : l ≠ .indent) (hdedent : l ≠ .dedent) :
    isMargin t = false := by
  simp [isMargin, h, hindent, hdedent]

theorem isMargin_of_keyword {word : Keyword} (h : t.lexeme = .keyword word) :
    isMargin t = false :=
  isMargin_eq_false h (by simp) (by simp)

/-- What is left of some tokens: at most `n` of them, which close all the
    levels that they open. -/
structure Lies (all : List Token) (n : Nat) (ts : List Token) : Prop where
  suffix : ts <:+ all
  closes : indents ts ≤ dedents ts
  length_le : ts.length ≤ n

theorem Lies.after (h : Lies all n ts) (hnesting : Nesting all ts rest blocks) :
    Lies all n rest := by
  have hbalance := hnesting.balance
  have hcloses := h.closes
  exact ⟨hnesting.suffix.trans h.suffix, by omega, Nat.le_trans hnesting.suffix.length_le h.length_le⟩

theorem Lies.succ (h : Lies all n ts) : Lies all (n + 1) ts :=
  ⟨h.suffix, h.closes, Nat.le_succ_of_le h.length_le⟩

/-- Behind a token that is not at the margin, there is one token less. -/
theorem Lies.tail (h : Lies all (n + 1) ts) (hfront : isMargin (front ts) = false) :
    Lies all n ts.tail := by
  obtain ⟨hsuffix, hcloses, -⟩ := h.after (.tail hfront)
  have hlength := h.length_le
  exact ⟨hsuffix, hcloses, by rw [List.length_tail]; omega⟩

/-- Behind an indent, its level is still open. -/
theorem Lies.inside {p q : Position} (h : Lies all (n + 1) (⟨.newline, p⟩ :: ⟨.indent, q⟩ :: ts)) :
    indents ts < dedents ts ∧ Lies all n ts := by
  have hopen : indents ts < dedents ts := by
    have hcloses := h.closes
    simp [indents, dedents] at hcloses ⊢
    omega
  have hlength := h.length_le
  simp only [List.length_cons] at hlength
  exact ⟨hopen, .trans ⟨[_, _], rfl⟩ h.suffix, Nat.le_of_lt hopen, by omega⟩

/-- The parser reads whole blocks from `ts` on, and says of its result and
    of these what it should. -/
def NestsAt {α : Type} (all ts : List Token) (p : Parser α) (made : α → List Block → Prop) : Prop :=
  Ensures p ts fun a rest => ∃ blocks, Nesting all ts rest blocks ∧ made a blocks

/-- The same from wherever at most `n` tokens are left. -/
def Nests {α : Type} (all : List Token) (n : Nat) (p : Parser α) (made : α → List Block → Prop) :
    Prop :=
  ∀ ts, Lies all n ts → NestsAt all ts p made

/-- The parser reads no block, and nothing at the margin. -/
abbrev Flat {α : Type} (all : List Token) (n : Nat) (p : Parser α) : Prop :=
  Nests all n p fun _ blocks => blocks = []

namespace Nests

variable {α β σ : Type} {p p' : Parser α} {q : Parser β} {f : β → Parser α}
  {made : α → List Block → Prop} {read : β → List Block → Prop}

theorem pure {a : α} (h : made a []) : Nests all n (pure a) made :=
  fun ts _ => (ensures_pure a).mpr ⟨[], .nothing ts, h⟩

theorem bind (hq : Nests all n q read)
    (hf : ∀ b blocks, read b blocks → Nests all n (f b) fun a more => made a (blocks ++ more)) :
    Nests all n (q >>= f) made := by
  intro ts hts
  rw [NestsAt, ensures_bind]
  refine (hq ts hts).mono fun b mid ⟨blocks, hmid, hread⟩ => ?_
  refine (hf b blocks hread mid (hts.after hmid)).mono fun a rest ⟨more, hrest, hmade⟩ => ?_
  exact ⟨blocks ++ more, hmid.trans hrest, hmade⟩

/-- What is only read over. -/
theorem behind (hq : Flat all n q) (hf : ∀ b, Nests all n (f b) made) :
    Nests all n (q >>= f) made := by
  refine .bind hq fun b blocks hnil => ?_
  rw [hnil]
  exact hf b

theorem ite {c : Prop} [Decidable c] (hp : c → Nests all n p made)
    (hp' : ¬ c → Nests all n p' made) : Nests all n (if c then p else p') made := by
  intro ts hts
  rw [NestsAt, ensures_ite]
  exact ⟨fun hc => hp hc ts hts, fun hc => hp' hc ts hts⟩

theorem fail (fault : Fault) : Nests all n (fail fault : Parser α) made :=
  fun _ _ => (ensures_fail fault).mpr trivial

/-- A loop, with an invariant of its states and of the blocks read so far. -/
theorem loop {body : σ → Parser (Next σ α)} (invariant : σ → List Block → Prop)
    (hbody : ∀ state blocks, invariant state blocks → Nests all n (body state) fun next more =>
      next.Meets (invariant · (blocks ++ more)) (made · (blocks ++ more)))
    {state : σ} (hstate : invariant state []) : Nests all n (loop body state) made := by
  intro ts hts
  have hloop : Ensures (Parser.loop body state) ts fun result rest =>
      ∀ blocks, invariant state blocks → Lies all n ts →
        ∃ more, Nesting all ts rest more ∧ made result (blocks ++ more) := by
    refine @Ensures.loop _ _ body (fun state ts result rest => ∀ blocks, invariant state blocks →
      Lies all n ts → ∃ more, Nesting all ts rest more ∧ made result (blocks ++ more))
      (fun state ts next mid hread => ?_) state ts
    cases next with
    | done result => exact fun blocks hstate hts => hbody state blocks hstate ts hts _ _ hread
    | again next =>
      intro result rest hbehind blocks hstate hts
      obtain ⟨inner, hmid, hnext⟩ := hbody state blocks hstate ts hts _ _ hread
      obtain ⟨more, hrest, hmade⟩ := hbehind (blocks ++ inner) hnext (hts.after hmid)
      exact ⟨inner ++ more, hmid.trans hrest, by rwa [← List.append_assoc]⟩
  exact hloop.mono fun result rest h => h [] hstate hts

/-- A token at the front that is known not to be at the margin. -/
theorem advance (hp : Nests all n p made) (hts : Lies all (n + 1) ts)
    (hfront : isMargin (front ts) = false) : NestsAt all ts (do
      Parser.advance
      p) made := by
  rw [NestsAt, ensures_bind, ensures_advance]
  refine (hp ts.tail (hts.tail hfront)).mono fun a rest ⟨blocks, hrest, hmade⟩ => ?_
  exact ⟨blocks, (Nesting.tail hfront).trans hrest, hmade⟩

end Nests

namespace NestsAt

variable {α : Type} {made : α → List Block → Prop}

/-- The line is read off the front. -/
theorem line {f : Nat → Parser α} (h : ∀ line, NestsAt all ts (f line) made) : NestsAt all ts (do
    let line ← line
    f line) made := by
  rw [NestsAt, ensures_bind, ensures_line]
  exact h _

/-- The statement on its own is all that is read. -/
theorem singleton {p : Parser Stmt} (h : NestsAt all ts p fun stmt => Below [stmt]) :
    NestsAt all ts (do
      let stmt ← p
      pure [stmt]) Below := by
  rw [NestsAt, ensures_bind]
  exact h.mono fun _ _ hrest => (ensures_pure _).mpr hrest

end NestsAt

namespace Flat

variable {α : Type} {p : Parser α}

theorem of_spanning (h : Spanning p) : Flat all n p :=
  fun ts _ => (h ts).mono fun _ _ hrest => ⟨[], hrest.nesting, rfl⟩

theorem acceptIf {test : Lexeme → Bool} (hindent : test .indent = false)
    (hdedent : test .dedent = false) : Flat all n (acceptIf test) := by
  intro ts _
  rw [NestsAt, ensures_acceptIf]
  refine ⟨fun htest => ⟨[], .tail ?_, rfl⟩, fun _ => ⟨[], .nothing ts, rfl⟩⟩
  refine isMargin_eq_false rfl (fun hfront => ?_) (fun hfront => ?_)
  · rw [hfront, hindent] at htest
    cases htest
  · rw [hfront, hdedent] at htest
    cases htest

theorem accept (symbol : Symbol) : Flat all n (accept symbol) := acceptIf rfl rfl

theorem acceptKeyword (keyword : Keyword) : Flat all n (acceptKeyword keyword) := acceptIf rfl rfl

theorem expect (symbol : Symbol) : Flat all n (expect symbol) :=
  .behind (accept symbol) fun _ => .ite (fun _ => .pure rfl) (fun _ => .fail _)

theorem expectNewline (fault : Fault) : Flat all n (expectNewline fault) :=
  .behind (acceptIf rfl rfl) fun _ => .ite (fun _ => .pure rfl) (fun _ => .fail _)

theorem repeatWhile {body : Parser Bool} (h : Flat all n body) : Flat all n (repeatWhile body) := by
  unfold Parser.repeatWhile
  refine .loop (fun _ blocks => blocks = []) (fun _ blocks hnil => ?_) rfl
  rw [hnil]
  unfold whileTrue
  exact .behind h fun _ => .ite (fun _ => .pure rfl) (fun _ => .pure rfl)

end Flat

/-- The parsers that the grammar of statements refers back to read whole
    blocks, where at most `n` tokens are left. -/
structure StatementsNest (all : List Token) (n : Nat) : Prop where
  statement : Nests all n statementGrammar.statement Below
  conditional : ∀ ts, Lies all n ts → isMargin (front ts) = false →
    NestsAt all ts statementGrammar.conditional fun stmt => Below [stmt]

namespace Grammar

/-! ## Section 3: Lines -/

variable (hall : LaidOut all)

include hall

theorem typeParameters_flat : Flat all n typeParameters := by
  intro ts hts
  unfold typeParameters
  rw [NestsAt, ensures_bind, ensures_accept]
  refine ⟨fun hopening => ?_, fun _ => (ensures_pure _).mpr ⟨[], .nothing ts, rfl⟩⟩
  rw [if_pos rfl]
  refine (skipSquare_ensures 0 ts.tail).mono fun _ rest hrest => ⟨[], ?_, rfl⟩
  obtain ⟨inner, r, htail, hinner⟩ := hrest
  obtain ⟨q, hcons⟩ := eq_cons_of_front hopening (by simp)
  rw [htail] at hcons
  have hinside := hall.bracketed (hcons ▸ hts.suffix) hinner
  rw [hcons]
  exact .token rfl ((Nesting.of_not_margin hinside).trans (.token rfl (.nothing rest)))

theorem typeAlias_flat (hts : Lies all n ts) (h : atTypeAlias ts = .ok (true, ts)) :
    NestsAt all ts typeAlias fun _ blocks => blocks = [] := by
  obtain ⟨p, name, q, us, rfl⟩ := names_of_atTypeAlias h
  have hbehind : Flat all n (do
      let _ ← Parser.name
      typeParameters
      expect .equal
      let _ ← grammar.expression) :=
    .behind (.of_spanning .name) fun _ => .behind (typeParameters_flat hall) fun _ =>
      .behind (.expect _) fun _ => .behind (.of_spanning grammar_span.expression) fun _ => .pure rfl
  unfold typeAlias
  exact hbehind.advance hts.succ rfl

theorem smallStatement_flat : Flat all n smallStatement := by
  intro ts hts
  obtain ⟨found, hfound⟩ := atTypeAlias_eq_ok ts
  cases found with
  | false => exact (smallStatement_spans hfound).mono fun _ _ hrest => ⟨[], hrest.nesting, rfl⟩
  | true =>
    unfold smallStatement
    rw [NestsAt, ensures_bind, ensures_line, ensures_bind]
    intro found mid hread
    rw [hfound] at hread
    cases hread
    rw [if_pos rfl, ensures_bind]
    exact (typeAlias_flat hall hts hfound).mono fun _ _ hrest => (ensures_pure _).mpr hrest

theorem simpleStatements_flat : Flat all n simpleStatements := by
  have hloop : Flat all n (loop nextSmall []) := by
    refine .loop (fun _ blocks => blocks = []) (fun read blocks hnil => ?_) rfl
    rw [hnil]
    unfold nextSmall
    refine .behind (smallStatement_flat hall) fun stmt => .behind (.accept _) fun _ => ?_
    refine .ite (fun _ => ?_) (fun _ => .pure rfl)
    exact .behind (.of_spanning .peek) fun _ => .ite (fun _ => .pure rfl) (fun _ => .pure rfl)
  unfold simpleStatements
  exact .behind hloop fun _ => .behind (.expectNewline _) fun _ => .pure rfl

omit hall in
/-- A loop that keeps what it has read, the last of it first, reads one
    behind the other. -/
theorem sequence_of_loop {reads : List Token → List Stmt → List Token → Prop}
    {body : List Stmt → Parser (Next (List Stmt) (List Stmt))}
    (hbody : ∀ read ts, Ensures (body read) ts fun next mid =>
      match next with
      | .done result => result = read.reverse ∧ mid = ts
      | .again next =>
        ∃ stmts, next = stmts.reverse ++ read ∧ reads ts stmts mid ∧ mid <:+ ts.tail)
    (ts : List Token) :
    Ensures (loop body []) ts fun stmts rest => Sequence reads ts stmts rest := by
  have hloop : Ensures (loop body []) ts fun stmts rest =>
      ∃ behind, stmts = [].reverse ++ behind ∧ Sequence reads ts behind rest := by
    refine @Ensures.loop _ _ body (fun read ts stmts rest =>
      ∃ behind, stmts = read.reverse ++ behind ∧ Sequence reads ts behind rest)
      (fun read ts => (hbody read ts).mono fun next mid hround => ?_) [] ts
    cases next with
    | done result =>
      obtain ⟨rfl, rfl⟩ := hround
      exact ⟨[], by simp, .nothing mid⟩
    | again next =>
      obtain ⟨stmts, rfl, hreads, hmid⟩ := hround
      rintro result rest ⟨behind, rfl, hbehind⟩
      exact ⟨stmts ++ behind, by simp, .more hreads hmid hbehind⟩
  refine hloop.mono fun stmts rest ⟨behind, hstmts, hbehind⟩ => ?_
  rwa [hstmts]

omit hall in
/-- So are the statements up to the end of a block. -/
theorem statementsUntil_sequence (ends : Lexeme → Bool) (ts : List Token) :
    Ensures (statementsUntil ends statementGrammar.statement) ts
      fun stmts rest => Sequence ReadsStatement ts stmts rest := by
  refine sequence_of_loop (fun read ts => ?_) ts
  unfold nextStatement
  rw [ensures_bind, ensures_peek, ensures_ite, ensures_pure, ensures_bind]
  refine ⟨fun _ => ⟨rfl, rfl⟩, fun _ stmts mid hstmts => (ensures_pure _).mpr ?_⟩
  exact ⟨stmts, rfl, hstmts, statementGrammar_advances.suffix_tail ts stmts mid hstmts⟩

/-! ## Section 4: Suites -/

omit hall in
/-- What several calls read one behind the other are whole blocks, if that
    is so of each. -/
theorem sequence_nesting {reads : List Token → List Stmt → List Token → Prop}
    (hreads : ∀ {ts stmts rest}, Lies all n ts → reads ts stmts rest →
      ∃ blocks, Nesting all ts rest blocks ∧ Below stmts blocks)
    (h : Sequence reads ts stmts rest) (hts : Lies all n ts) :
    ∃ blocks, Nesting all ts rest blocks ∧ Below stmts blocks := by
  induction h with
  | nothing ts => exact ⟨[], .nothing ts, .nil _⟩
  | more hcall _ _ ih =>
    obtain ⟨blocks, hmid, hbelow⟩ := hreads hts hcall
    obtain ⟨more, hrest, hothers⟩ := ih (hts.after hmid)
    exact ⟨blocks ++ more, hmid.trans hrest, hbelow.append hothers⟩

/-- A level that is open is closed in front of the end marker. -/
theorem ne_endMarker_of_open (hmid : mid <:+ all) (hopen : indents mid < dedents mid) :
    (front mid).lexeme ≠ .endMarker := by
  intro hend
  cases mid with
  | nil => cases hopen
  | cons t mid =>
    rw [hall.last hmid hend] at hopen
    have hend : t.lexeme = .endMarker := hend
    simp [indents, dedents, hend] at hopen

omit hall in
theorem eq_of_endsBlock (h : endsBlock l = true) : l = .dedent ∨ l = .endMarker := by
  cases l <;> first | exact .inl rfl | exact .inr rfl | cases h

omit hall in
/-- A suite is a line of simple statements, or what stands behind a newline
    and an indent. -/
theorem suite_ensures (p : StatementParsers) (ts : List Token) :
    Ensures (suite p) ts fun stmts rest =>
      simpleStatements ts = .ok (stmts, rest) ∨
      (front ts).lexeme = .newline ∧ (front ts.tail).lexeme = .indent ∧
        ∃ mid, statementsUntil endsBlock p.statement ts.tail.tail = .ok (stmts, mid) ∧
          ((front mid).lexeme = .dedent → rest = mid.tail) := by
  unfold suite
  rw [ensures_bind, ensures_acceptIf]
  refine ⟨fun hnewline => ?_, fun _ stmts rest hread => .inl hread⟩
  rw [if_pos rfl, ensures_bind, ensures_acceptIf]
  refine ⟨fun hindent => ?_, fun _ => (ensures_fail _).mpr trivial⟩
  rw [if_pos rfl, ensures_bind]
  intro stmts mid hstmts
  rw [ensures_bind, ensures_acceptIf]
  have hboth := And.intro (beq_iff_eq.mp hnewline) (beq_iff_eq.mp hindent)
  refine ⟨fun _ => (ensures_pure _).mpr ?_, fun hdedent => (ensures_pure _).mpr ?_⟩
  · exact .inr ⟨hboth.1, hboth.2, mid, hstmts, fun _ => rfl⟩
  · exact .inr ⟨hboth.1, hboth.2, mid, hstmts, fun h => by rw [h] at hdedent; cases hdedent⟩

variable (hp : StatementsNest all n)

include hp

/-- A suite is read with the colon that is in front of it. -/
theorem suite_nests {p : Position} (hts : Lies all n (⟨.symbol .colon, p⟩ :: ts)) :
    Ensures (suite statementGrammar) ts fun stmts rest =>
      ∃ blocks, Nesting all (⟨.symbol .colon, p⟩ :: ts) rest blocks ∧ Held stmts blocks := by
  have hbehind : Lies all n ts := hts.after (.token rfl (.nothing ts))
  intro stmts rest hread
  rcases suite_ensures _ ts stmts rest hread with
    hline | ⟨hnewline, hindent, mid, hstmts, hrest⟩
  · obtain ⟨blocks, hnesting, rfl⟩ := simpleStatements_flat hall ts hbehind stmts rest hline
    exact ⟨[], .token rfl hnesting, .nil stmts⟩
  obtain ⟨q, hcons⟩ := eq_cons_of_front hnewline (by simp)
  obtain ⟨r, htail⟩ := eq_cons_of_front hindent (by simp)
  rw [htail] at hcons
  generalize ts.tail.tail = inside at hcons hstmts
  subst hcons
  obtain ⟨hopen, hinside⟩ := hbehind.succ.inside
  have hsequence := statementsUntil_sequence endsBlock inside stmts mid hstmts
  obtain ⟨blocks, hnesting, hbelow⟩ :=
    sequence_nesting (fun hts hcall => hp.statement _ hts _ _ hcall) hsequence hinside
  have hbalance := hnesting.balance
  have hdedent : (front mid).lexeme = .dedent := by
    have hne := ne_endMarker_of_open hall (hinside.after hnesting).suffix (by omega)
    exact (eq_of_endsBlock (statementsUntil_ends endsBlock _ inside stmts mid hstmts)).resolve_right
      hne
  obtain ⟨s, hmid⟩ := eq_cons_of_front hdedent (by simp)
  rw [hmid, ← hrest hdedent] at hnesting hsequence
  refine ⟨⟨inside, rest, stmts, false⟩ :: (blocks ++ []),
    .block (.suite hbehind.suffix hread hsequence) hnesting (.nothing rest), ?_⟩
  rw [List.append_nil]
  exact List.forall_mem_cons.mpr ⟨.inl ⟨rfl, List.infix_refl stmts⟩, hbelow.held⟩

theorem body_nests : Nests all n (body statementGrammar) Held := by
  intro ts hts
  unfold body
  rw [NestsAt, ensures_bind, ensures_expect]
  intro hcolon
  obtain ⟨p, hcons⟩ := eq_cons_of_front hcolon (by simp)
  rw [hcons] at hts
  have hsuite := suite_nests hall hp hts
  rwa [← hcons] at hsuite

/-- The body of a statement, behind its head. -/
theorem owner_nests {α : Type} {make : List Stmt → α} (owner : α → Stmt)
    (hchildren : ∀ inner, (owner (make inner)).children = inner)
    (hmatch : ∀ inner, (owner (make inner)).isMatch = false) :
    Nests all n (do
      let inner ← body statementGrammar
      pure (make inner)) fun a => Below [owner a] := by
  refine .bind (body_nests hall hp) fun inner blocks hinner => .pure ?_
  rw [List.append_nil]
  exact Held.owner (by rwa [hchildren]) (hmatch inner)

theorem optionalBody_nests (keyword : Keyword) :
    Nests all n (optionalBody statementGrammar keyword) fun stmts => Held (stmts.getD []) := by
  unfold optionalBody
  refine .behind (.acceptKeyword _) fun _ => .ite (fun _ => ?_) (fun _ => .pure (.nil _))
  refine .bind (body_nests hall hp) fun inner blocks hinner => .pure ?_
  rwa [List.append_nil]

/-! ## Section 5: Compound statements -/

theorem alternative_nests : Nests all n (alternative statementGrammar) Held := by
  intro ts hts
  unfold alternative
  rw [NestsAt, ensures_bind, ensures_atKeyword, ensures_ite]
  refine ⟨fun helif => ?_, fun _ => ?_⟩
  · have hfront := isMargin_of_keyword (of_decide_eq_true helif)
    refine (hp.conditional ts hts hfront).singleton.mono
      fun stmts rest ⟨blocks, hrest, hbelow⟩ => ?_
    exact ⟨blocks, hrest, hbelow.held⟩
  · refine Nests.bind (optionalBody_nests hall hp .else_) (fun last blocks hlast => .pure ?_) ts hts
    rwa [List.append_nil]

/-- A body and what hangs on it. -/
theorem block_nests {α : Type} {line : Nat} {kind : BlockKind} {hanging : Parser α}
    {below : α → List Stmt} (hkind : ∀ children, (Stmt.block line kind children).isMatch = false)
    (hhanging : Nests all n hanging fun a => Held (below a)) : Nests all n (do
      let first ← body statementGrammar
      let last ← hanging
      pure (Stmt.block line kind (first ++ below last))) fun stmt => Below [stmt] := by
  refine .bind (body_nests hall hp) fun first blocks hfirst =>
    .bind hhanging fun last more hlast => .pure ?_
  rw [List.append_nil]
  exact Held.owner (hfirst.append hlast) (hkind _)

theorem conditional_nests (hts : Lies all (n + 1) ts) (hfront : isMargin (front ts) = false) :
    NestsAt all ts (conditional statementGrammar) fun stmt => Below [stmt] := by
  unfold conditional
  refine .line fun line => Nests.advance (.behind ?_ fun _ => ?_) hts hfront
  · exact .of_spanning (namedExpression_opening grammar_span).spanning
  · exact block_nests hall hp (fun _ => rfl) (alternative_nests hall hp)

theorem whileLoop_nests (hts : Lies all (n + 1) ts) (hfront : isMargin (front ts) = false) :
    NestsAt all ts (whileLoop statementGrammar) fun stmt => Below [stmt] := by
  unfold whileLoop
  refine .line fun line => Nests.advance (.behind ?_ fun _ => ?_) hts hfront
  · exact .of_spanning (namedExpression_opening grammar_span).spanning
  · exact block_nests hall hp (fun _ => rfl) (optionalBody_nests hall hp .else_)

theorem forLoop_nests (line : Nat) (isAsync : Bool) (hts : Lies all (n + 1) ts)
    (hfront : isMargin (front ts) = false) :
    NestsAt all ts (forLoop statementGrammar line isAsync) fun stmt => Below [stmt] := by
  unfold forLoop
  refine Nests.advance ?_ hts hfront
  refine .behind (.of_spanning (targets_opening grammar_span).spanning) fun _ =>
    .behind (.of_spanning (.expectKeyword _ fun _ => rfl)) fun _ =>
    .behind (.of_spanning (starExpressions_opening grammar_span).spanning) fun _ => ?_
  exact block_nests hall hp (fun _ => rfl) (optionalBody_nests hall hp .else_)

theorem handler_nests (hts : Lies all (n + 1) ts) (hfront : isMargin (front ts) = false) :
    NestsAt all ts (handler statementGrammar) fun read => Below [read.1] := by
  have hhandled : ∀ (line : Nat) (star : Bool), Nests all n (do
      let handled ← body statementGrammar
      pure (Stmt.block line .handler handled, star)) fun read => Below [read.1] :=
    fun _ _ => owner_nests hall hp Prod.fst (fun _ => rfl) fun _ => rfl
  unfold handler
  refine .line fun line => Nests.advance (.behind (.accept _) fun star => ?_) hts hfront
  refine .behind (.of_spanning (.atSymbol _)) fun _ =>
    .ite (fun _ => hhandled line star) (fun _ => ?_)
  exact .behind (.of_spanning grammar_span.expression) fun _ =>
    .behind (.of_spanning asName_spanning) fun _ => hhandled line star

theorem handlers_nests :
    Nests all n (loop (nextHandler statementGrammar) ([], false)) fun read => Below read.1 := by
  refine .loop (fun read => Below read.1) (fun read blocks hread ts hts => ?_) (.nil _)
  unfold nextHandler
  rw [NestsAt, ensures_bind, ensures_atKeyword, ensures_ite, ensures_bind, ensures_pure]
  refine ⟨fun hexcept => ?_, fun _ => ⟨[], .nothing ts, by rwa [List.append_nil]⟩⟩
  have hfront := isMargin_of_keyword (of_decide_eq_true hexcept)
  refine (handler_nests hall hp hts.succ hfront).mono fun next mid ⟨more, hmid, hnext⟩ => ?_
  exact (ensures_pure _).mpr ⟨more, hmid, hread.append hnext⟩

theorem tryBlock_nests (hts : Lies all (n + 1) ts) (hfront : isMargin (front ts) = false) :
    NestsAt all ts (tryBlock statementGrammar) fun stmt => Below [stmt] := by
  unfold tryBlock
  refine .line fun line => Nests.advance (.bind (body_nests hall hp) fun first blocks hfirst =>
    .bind (handlers_nests hall hp) fun (handlers, star) more hhandlers => ?_) hts hfront
  -- The alternative is optional like the final block, or left out.
  have hfinal : ∀ q : Parser (Option (List Stmt)),
      Nests all n q (fun stmts => Held (stmts.getD [])) → Nests all n (do
        let alternative ← q
        let final ← optionalBody statementGrammar .finally_
        if handlers.isEmpty && final.isNone then fail .missingHandler
        else pure (Stmt.block line (.tryBlock star)
          (first ++ handlers ++ alternative.getD [] ++ final.getD [])))
        fun stmt rest => Below [stmt] (blocks ++ (more ++ rest)) := by
    refine fun q hq => .bind hq fun alternative others halternative =>
      .bind (optionalBody_nests hall hp .finally_) fun final last hlast => ?_
    refine .ite (fun _ => .fail _) (fun _ => .pure ?_)
    have hheld := ((hfirst.append (Below.held hhandlers)).append halternative).append hlast
    refine Held.owner ?_ rfl
    simpa [Stmt.children] using hheld
  exact .ite (fun _ => hfinal _ (.pure (.nil _))) (fun _ => hfinal _ (optionalBody_nests hall hp _))

theorem withBlock_nests (line : Nat) (isAsync : Bool) (hts : Lies all (n + 1) ts)
    (hfront : isMargin (front ts) = false) :
    NestsAt all ts (withBlock statementGrammar line isAsync) fun stmt => Below [stmt] := by
  unfold withBlock
  refine Nests.advance (.behind (.of_spanning withItems_spanning) fun _ => ?_) hts hfront
  exact owner_nests hall hp id (fun _ => rfl) fun _ => rfl

theorem functionDef_nests (line : Nat) (isAsync : Bool) (hts : Lies all (n + 1) ts)
    (hfront : isMargin (front ts) = false) :
    NestsAt all ts (functionDef statementGrammar line isAsync) fun stmt => Below [stmt] := by
  unfold functionDef
  refine Nests.advance ?_ hts hfront
  refine .behind (.of_spanning .name) fun name => .behind (typeParameters_flat hall) fun _ =>
    .behind (.expect _) fun _ => .behind (.of_spanning (parameters_spanning grammar_span _ _))
    fun params => ?_
  have hbody : Nests all n (do
      let inner ← body statementGrammar
      pure (Stmt.functionDef line isAsync name params inner)) fun stmt => Below [stmt] :=
    owner_nests hall hp id (fun _ => rfl) fun _ => rfl
  refine .behind (.expect _) fun _ => .behind (.accept _) fun _ =>
    .ite (fun _ => ?_) (fun _ => hbody)
  exact .behind (.of_spanning grammar_span.expression) fun _ => hbody

theorem classDef_nests (line : Nat) (hts : Lies all (n + 1) ts)
    (hfront : isMargin (front ts) = false) :
    NestsAt all ts (classDef statementGrammar line) fun stmt => Below [stmt] := by
  unfold classDef
  refine Nests.advance ?_ hts hfront
  refine .behind (.of_spanning .name) fun name => .behind (typeParameters_flat hall) fun _ => ?_
  have hbody : Nests all n (do
      let inner ← body statementGrammar
      pure (Stmt.classDef line name inner)) fun stmt => Below [stmt] :=
    owner_nests hall hp id (fun _ => rfl) fun _ => rfl
  refine .behind (.of_spanning (.atSymbol _)) fun _ => .ite (fun _ => ?_) (fun _ => hbody)
  exact .behind (.of_spanning (arguments_spanning grammar_span)) fun _ => hbody

/-- Decorators are lines of their own, and read no block. -/
theorem decorated_nests :
    Nests all (n + 1) (decorated statementGrammar) fun stmt => Below [stmt] := by
  have hdecorators : Flat all (n + 1) (repeatWhile do
      if ← accept .atSign then
        let _ ← namedExpression grammar
        expectNewline .invalidSyntax
        pure true
      else pure false) := by
    refine .repeatWhile (.behind (.accept _) fun _ => .ite (fun _ => ?_) (fun _ => .pure rfl))
    refine .behind (.of_spanning (namedExpression_opening grammar_span).spanning) fun _ => ?_
    exact .behind (.expectNewline _) fun _ => .pure rfl
  unfold decorated nextDecorator
  refine .behind hdecorators fun _ ts hts => ?_
  rw [NestsAt, ensures_bind, ensures_line, ensures_bind, ensures_peekSecond, ensures_bind,
    ensures_peek]
  split
  case h_1 hdef => exact functionDef_nests hall hp _ _ hts (isMargin_of_keyword hdef)
  case h_2 hclass => exact classDef_nests hall hp _ hts (isMargin_of_keyword hclass)
  case h_3 hasync =>
    rw [ensures_ite, ensures_fail, ensures_bind, ensures_advance]
    refine ⟨fun hdef => ?_, fun _ => trivial⟩
    have hfront := isMargin_of_keyword hasync
    refine (functionDef_nests hall hp _ _ (hts.tail hfront).succ
      (isMargin_of_keyword (beq_iff_eq.mp hdef))).mono fun stmt rest ⟨blocks, hrest, hbelow⟩ => ?_
    exact ⟨blocks, (Nesting.tail hfront).trans hrest, hbelow⟩
  case h_4 => exact (ensures_fail _).mpr trivial

theorem asyncStatement_nests (hts : Lies all (n + 1) ts) (hfront : isMargin (front ts) = false) :
    NestsAt all ts (asyncStatement statementGrammar) fun stmt => Below [stmt] := by
  unfold asyncStatement
  refine .line fun line => Nests.advance (fun us hus => ?_) hts hfront
  rw [NestsAt, ensures_bind, ensures_peek]
  split
  case h_1 hdef => exact functionDef_nests hall hp _ _ hus.succ (isMargin_of_keyword hdef)
  case h_2 hfor => exact forLoop_nests hall hp _ _ hus.succ (isMargin_of_keyword hfor)
  case h_3 hwith => exact withBlock_nests hall hp _ _ hus.succ (isMargin_of_keyword hwith)
  case h_4 => exact (ensures_fail _).mpr trivial

/-! ## Section 6: Matching -/

/-- The pattern of a case ends where the colon of its suite is. -/
theorem case_nesting (hts : Lies all n ts) (h : ReadsCase ts stmts rest) :
    ∃ blocks, Nesting all ts rest blocks ∧ Below stmts blocks := by
  obtain ⟨hcase, stmt, rfl, hread⟩ := h
  obtain ⟨p, hcons⟩ := eq_cons_of_front hcase (by simp)
  have hcall : Ensures (matchCase statementGrammar) ts fun stmt rest =>
      ∃ blocks, Nesting all ts rest blocks ∧ Below [stmt] blocks := by
    unfold matchCase
    rw [ensures_bind, ensures_line, ensures_bind, ensures_advance, ensures_bind]
    refine (skipPattern_ensures true 0 ts.tail).mono fun _ mid ⟨pattern, q, htail, hpattern⟩ => ?_
    rw [htail] at hcons
    have hmargin := hall.pattern hpattern (hcons ▸ hts.suffix) rfl
    have hhead : Nesting all ts (⟨.symbol .colon, q⟩ :: mid) [] := by
      rw [hcons]
      exact .token rfl (.of_not_margin hmargin)
    rw [ensures_bind]
    refine (suite_nests hall hp (hts.after hhead)).mono fun inner rest ⟨blocks, hrest, hheld⟩ => ?_
    exact (ensures_pure _).mpr ⟨blocks, hhead.trans hrest, Held.owner hheld rfl⟩
  exact hcall stmt rest hread

omit hall hp in
/-- The cases are read one behind the other. -/
theorem cases_sequence (ts : List Token) : Ensures (loop (nextCase statementGrammar) []) ts
    fun cases rest => Sequence ReadsCase ts cases rest := by
  refine sequence_of_loop (fun read ts => ?_) ts
  unfold nextCase
  rw [ensures_bind, ensures_peek, ensures_ite, ensures_pure, ensures_bind]
  refine ⟨fun hcase next mid hnext => (ensures_pure _).mpr ?_, fun _ => ⟨rfl, rfl⟩⟩
  have hmid := (matchCase_enters (statementGrammar_agree 0)).advances.suffix_tail ts next mid hnext
  exact ⟨[next], rfl, ⟨beq_iff_eq.mp hcase, next, rfl, hnext⟩, hmid⟩

omit hall hp in
/-- A `match` ends its line behind the colon, and its cases are between an
    indent and a dedent. -/
theorem matchBlock_ensures (p : StatementParsers) (ts : List Token) :
    Ensures (matchBlock p) ts fun stmt rest => ∃ line subject colon cases last,
      stmt = .block line .matchBlock cases ∧
      starExpressions grammar ts.tail = .ok (subject, colon) ∧
      (front colon).lexeme = .symbol .colon ∧ (front colon.tail).lexeme = .newline ∧
      (front colon.tail.tail).lexeme = .indent ∧
      loop (nextCase p) [] colon.tail.tail.tail = .ok (cases, last) ∧
      (front last).lexeme = .dedent ∧ rest = last.tail := by
  unfold matchBlock
  rw [ensures_bind, ensures_line, ensures_bind, ensures_advance, ensures_bind]
  intro subject colon hsubject
  rw [ensures_bind, ensures_expect]
  intro hcolon
  rw [ensures_bind, ensures_expectNewline]
  intro hnewline
  rw [ensures_bind, ensures_acceptIf]
  refine ⟨fun hindent => ?_, fun _ => (ensures_fail _).mpr trivial⟩
  rw [if_pos rfl, ensures_bind]
  intro cases last hcases
  rw [ensures_ite, ensures_fail, ensures_bind, ensures_acceptIf]
  refine ⟨fun _ => trivial, fun _ => ⟨fun hdedent => ?_, fun _ => (ensures_fail _).mpr trivial⟩⟩
  rw [if_pos rfl, ensures_pure]
  exact ⟨_, subject, colon, cases, last, rfl, hsubject, hcolon, hnewline, beq_iff_eq.mp hindent,
    hcases, beq_iff_eq.mp hdedent, rfl⟩

theorem matchBlock_nests (hts : Lies all (n + 1) ts)
    (hfront : (front ts).lexeme = .name SoftKeyword.match_) :
    NestsAt all ts (matchBlock statementGrammar) fun stmt => Below [stmt] := by
  intro stmt rest hread
  obtain ⟨line, subject, mid, cases, last, rfl, hsubject, hcolon, hnewline, hindent, hcases,
    hdedent, rfl⟩ := matchBlock_ensures _ ts stmt rest hread
  obtain ⟨p, hword⟩ := eq_cons_of_front hfront (by simp)
  have hspans := (starExpressions_opening grammar_span).spanning ts.tail subject mid hsubject
  have hhead : Nesting all ts mid [] := by
    rw [hword]
    exact .token rfl hspans.nesting
  obtain ⟨q, hmid⟩ := eq_cons_of_front hcolon (by simp)
  obtain ⟨r, hline⟩ := eq_cons_of_front hnewline (by simp)
  obtain ⟨s, hblock⟩ := eq_cons_of_front hindent (by simp)
  rw [hline, hblock] at hmid
  generalize mid.tail.tail.tail = inside at hcases hmid
  subst hmid
  obtain ⟨-, hinside⟩ := ((hts.after hhead).after (.token rfl (.nothing _))).inside
  have hsequence := cases_sequence inside cases last hcases
  obtain ⟨blocks, hnesting, hbelow⟩ := sequence_nesting (case_nesting hall hp) hsequence hinside
  obtain ⟨u, hlast⟩ := eq_cons_of_front hdedent (by simp)
  rw [hlast] at hnesting hsequence
  -- The call starts at the soft keyword, some tokens in front of the block.
  obtain ⟨head, hsplit⟩ := hhead.suffix
  have hcall : head ++ [⟨.symbol .colon, q⟩] ++ ⟨.newline, r⟩ :: ⟨.indent, s⟩ :: inside = ts := by
    rw [← hsplit]
    simp
  rw [← hcall] at hread
  have hsuffix := hts.suffix
  rw [← hcall] at hsuffix
  refine ⟨[] ++ ⟨inside, last.tail, cases, true⟩ :: (blocks ++ []),
    hhead.trans (.block (.cases hsuffix hread hsequence) hnesting (.nothing _)), ?_⟩
  rw [List.nil_append, List.append_nil]
  refine List.forall_mem_cons.mpr ⟨?_, Below.owner hbelow⟩
  exact ⟨_, List.mem_cons_self, .cases⟩

/-! ## Section 7: The knot -/

theorem compound?_nests {parser : Parser Stmt} (hts : Lies all (n + 1) ts)
    (hparser : compound? statementGrammar (front ts).lexeme = some parser) :
    NestsAt all ts parser fun stmt => Below [stmt] := by
  unfold compound? at hparser
  split at hparser
  case h_11 => cases hparser
  all_goals cases hparser
  case h_1 h => exact conditional_nests hall hp hts (isMargin_of_keyword h)
  case h_2 h => exact whileLoop_nests hall hp hts (isMargin_of_keyword h)
  case h_3 h => exact .line fun line => forLoop_nests hall hp line _ hts (isMargin_of_keyword h)
  case h_4 h => exact tryBlock_nests hall hp hts (isMargin_of_keyword h)
  case h_5 h => exact .line fun line => withBlock_nests hall hp line _ hts (isMargin_of_keyword h)
  case h_6 h => exact .line fun line => functionDef_nests hall hp line _ hts (isMargin_of_keyword h)
  case h_7 h => exact .line fun line => classDef_nests hall hp line hts (isMargin_of_keyword h)
  case h_8 h => exact asyncStatement_nests hall hp hts (isMargin_of_keyword h)
  case h_9 => exact decorated_nests hall hp ts hts
  -- An indent that opens no block is a fault.
  case h_10 => exact (ensures_fail _).mpr trivial

theorem statement_nests : Nests all (n + 1) (statement statementGrammar) Below := by
  intro ts hts
  unfold statement
  rw [NestsAt, ensures_bind]
  refine (atMatch_ensures ts).mono fun found _ ⟨hrest, hfound⟩ => ?_
  rw [hrest, ensures_ite]
  refine ⟨fun hmatch => ?_, fun _ => ?_⟩
  · exact (matchBlock_nests hall hp hts (beq_iff_eq.mp (hfound hmatch))).singleton
  rw [ensures_bind, ensures_peek]
  split
  case h_1 parser hparser => exact (compound?_nests hall hp hts hparser).singleton
  case h_2 =>
    refine (simpleStatements_flat hall ts hts).mono fun stmts rest ⟨blocks, hrest, hnil⟩ => ?_
    exact ⟨[], hnil ▸ hrest, .nil stmts⟩

end Grammar

/-- Wherever the levels that are opened are closed, statements are read as
    whole blocks. -/
theorem statementGrammar_nests (hall : LaidOut all) (n : Nat) : StatementsNest all n := by
  induction n with
  | zero =>
    -- There is nothing to be read.
    have hnil : ∀ {ts}, Lies all 0 ts → ts = [] := fun hts =>
      List.eq_nil_of_length_eq_zero (Nat.le_zero.mp hts.length_le)
    refine ⟨fun ts hts => ?_, fun ts hts _ => ?_⟩
    · obtain rfl := hnil hts
      rw [statementGrammar_closed.statement]
      intro stmts rest hread
      rw [Grammar.statement_nil] at hread
      cases hread
    · obtain rfl := hnil hts
      rw [statementGrammar_closed.conditional]
      intro stmt rest hread
      rw [Grammar.conditional_nil] at hread
      cases hread
  | succ n ih =>
    refine ⟨?_, fun ts hts hfront => ?_⟩
    · rw [statementGrammar_closed.statement]
      exact Grammar.statement_nests hall ih
    · rw [statementGrammar_closed.conditional]
      exact Grammar.conditional_nests hall ih hts hfront

/-! ## Section 8: The blocks of a source -/

/-- The tokens of an accepted source, with the blocks that its tree holds.
    What is left of them is the end marker. -/
theorem Module.exists_nesting {source : Text} {m : Module} {tokens : List Token}
    (h : ofSource source = .ok m) (htokens : tokenize source = .ok tokens) :
    ∃ rest blocks, Nesting tokens tokens rest blocks ∧ Below m blocks ∧
      ∀ t ∈ rest, isMargin t = false := by
  obtain ⟨tokens', htokens', htree⟩ := ofSource_eq_ok h
  rw [htokens, Except.ok.injEq] at htokens'
  subst htokens'
  obtain ⟨rest, hread⟩ := ofTokens_eq_ok htree
  rw [withEndMarker_of_tokenize htokens] at hread
  have hall := Scan.laidOut_of_tokenize htokens
  have hlies : Lies tokens tokens.length tokens :=
    ⟨List.suffix_refl tokens, Nat.le_of_eq hall.balanced, Nat.le_refl _⟩
  have hnests := statementGrammar_nests hall tokens.length
  obtain ⟨blocks, hnesting, hbelow⟩ := Grammar.sequence_nesting
    (fun hts hcall => hnests.statement _ hts _ _ hcall)
    (Grammar.statementsUntil_sequence _ tokens m rest hread) hlies
  -- Only the end marker ends the statements of a module.
  have hend : (front rest).lexeme = .endMarker :=
    beq_iff_eq.mp (Grammar.statementsUntil_ends _ _ _ m rest hread)
  refine ⟨rest, blocks, hnesting, hbelow, ?_⟩
  cases rest with
  | nil => simp
  | cons t rest =>
    rw [hall.last hnesting.suffix hend]
    intro t' hmem
    rw [List.mem_singleton.mp hmem]
    exact isMargin_eq_false hend (by simp) (by simp)

/-- **Every indent opens a block.**  In an accepted source, an indent stands
    behind a colon at the end of a line, and each indent and each dedent
    belongs to exactly one block.  The dedent of a block closes the level
    that its indent opens; one call reads both of them, that of a suite or
    that of a `match`, and the statements of the block are read one behind
    the other between them.  They stand side by side in the tree, below a
    statement that is a `match` if they are cases, and else is none. -/
theorem Module.blocks_delimited {source : Text} {m : Module} {tokens : List Token}
    (h : ofSource source = .ok m) (htokens : tokenize source = .ok tokens) :
    (∀ before p inside, tokens = before ++ ⟨.indent, p⟩ :: inside →
      ∃ line q r, before = line ++ [⟨.symbol .colon, q⟩, ⟨.newline, r⟩]) ∧
    ∃ blocks : List Block,
      (∀ before p inside, tokens = before ++ ⟨.indent, p⟩ :: inside →
        ∃! b, b ∈ blocks ∧ b.inside = inside) ∧
      (∀ before p behind, tokens = before ++ ⟨.dedent, p⟩ :: behind →
        ∃! b, b ∈ blocks ∧ b.behind = behind) ∧
      ∀ b ∈ blocks, b.Delimits tokens ∧ ∃ owner ∈ nodes m, owner.Holds b := by
  obtain ⟨rest, blocks, hnesting, hbelow, hrest⟩ := exists_nesting h htokens
  have hdelimits := hnesting.delimits (List.suffix_refl tokens)
  have hcovers : ∀ {before : List Token} {t : Token} {behind : List Token},
      tokens = before ++ t :: behind → isMargin t = true → ∃ b ∈ blocks,
        t.lexeme = .indent ∧ b.inside = behind ∨ t.lexeme = .dedent ∧ b.behind = behind := by
    intro before t behind hsplit hmargin
    refine hnesting.covers hmargin ⟨before, hsplit.symm⟩ fun hsuffix => ?_
    rw [hrest t (hsuffix.subset List.mem_cons_self)] at hmargin
    cases hmargin
  have hindent : ∀ {before : List Token} {p : Position} {inside : List Token},
      tokens = before ++ ⟨.indent, p⟩ :: inside → ∃ b ∈ blocks, b.inside = inside := by
    intro before p inside hsplit
    obtain ⟨b, hmem, ⟨_, hb⟩ | ⟨hlexeme, _⟩⟩ := hcovers hsplit rfl
    · exact ⟨b, hmem, hb⟩
    · cases hlexeme
  refine ⟨fun before p inside hsplit => ?_, blocks, fun before p inside hsplit => ?_,
    fun before p behind hsplit => ?_, fun b hmem => ⟨hdelimits b hmem, hbelow b hmem⟩⟩
  · obtain ⟨b, hmem, rfl⟩ := hindent hsplit
    obtain ⟨q, r, s, line, hline⟩ := (hdelimits b hmem).opening
    have hsame : before ++ ⟨.indent, p⟩ :: b.inside =
        (line ++ [⟨.symbol .colon, q⟩, ⟨.newline, r⟩]) ++ ⟨.indent, s⟩ :: b.inside := by
      rw [← hsplit, ← hline]
      simp
    exact ⟨line, q, r, (List.append_inj' hsame rfl).1⟩
  · obtain ⟨b, hmem, hb⟩ := hindent hsplit
    refine ⟨b, ⟨hmem, hb⟩, fun c ⟨hc, hinside⟩ => ?_⟩
    exact hnesting.eq_of_inside hc hmem (hinside.trans hb.symm)
  · obtain ⟨b, hmem, ⟨hlexeme, _⟩ | ⟨_, hb⟩⟩ := hcovers hsplit rfl
    · cases hlexeme
    refine ⟨b, ⟨hmem, hb⟩, fun c ⟨hc, hbehind⟩ => ?_⟩
    exact hnesting.eq_of_behind hc hmem (hbehind.trans hb.symm)

/-- The block of a `match`, and that of a case in it. -/
theorem Module.blocks_of_match :
    ∃ m tokens, ofSource (ascii "match x:\n  case 1:\n    y\n") = .ok m ∧
      tokenize (ascii "match x:\n  case 1:\n    y\n") = .ok tokens ∧
      ∃ outer inner : Block, outer.inside = tokens.drop 5 ∧ inner.inside = tokens.drop 10 ∧
        (outer.Delimits tokens ∧ ∃ owner ∈ nodes m, owner.Holds outer) ∧
        inner.Delimits tokens ∧ ∃ owner ∈ nodes m, owner.Holds inner := by
  let tokens : List Token :=
    [⟨.name (ascii "match"), ⟨1, 1⟩⟩, ⟨.name (ascii "x"), ⟨1, 7⟩⟩, ⟨.symbol .colon, ⟨1, 8⟩⟩,
      ⟨.newline, ⟨1, 9⟩⟩, ⟨.indent, ⟨2, 3⟩⟩, ⟨.name (ascii "case"), ⟨2, 3⟩⟩,
      ⟨.number (ascii "1"), ⟨2, 8⟩⟩, ⟨.symbol .colon, ⟨2, 9⟩⟩, ⟨.newline, ⟨2, 10⟩⟩,
      ⟨.indent, ⟨3, 5⟩⟩, ⟨.name (ascii "y"), ⟨3, 5⟩⟩, ⟨.newline, ⟨3, 6⟩⟩, ⟨.dedent, ⟨4, 1⟩⟩,
      ⟨.dedent, ⟨4, 1⟩⟩, ⟨.endMarker, ⟨4, 1⟩⟩]
  have htokens : tokenize (ascii "match x:\n  case 1:\n    y\n") = .ok tokens := rfl
  have hread : ofSource (ascii "match x:\n  case 1:\n    y\n") =
      .ok [.block 1 .matchBlock [.block 2 .matchCase [.simple 3 .expression]]] := by decide +kernel
  obtain ⟨_, blocks, hindents, _, hblocks⟩ := blocks_delimited hread htokens
  obtain ⟨outer, ⟨houter, hinside⟩, _⟩ := hindents (tokens.take 4) ⟨2, 3⟩ (tokens.drop 5) rfl
  obtain ⟨inner, ⟨hinner, hwithin⟩, _⟩ := hindents (tokens.take 9) ⟨3, 5⟩ (tokens.drop 10) rfl
  exact ⟨_, tokens, hread, htokens, outer, inner, hinside, hwithin, hblocks outer houter,
    hblocks inner hinner⟩

/-- Behind a line without a colon, no level may be opened. -/
example : Module.ofSource (ascii "x\n  y\n") = .error ⟨⟨2, 3⟩, .unexpectedIndent⟩ := by decide +kernel

end StyleCheck
