import StyleCheck.Proofs.Parsing.Suffix
import StyleCheck.Syntax.Grammar.Statement

/-! # What Statements Leave

    The parsers of statements leave the end of what they were given, as
    those of expressions do.  A simple statement reads a token, and so does
    a round of a loop behind which another one comes.  Compound statements
    follow the references of the grammar, and come with the knot.
-/

namespace StyleCheck

open StyleCheck.Parser

namespace Grammar

/-! ## Section 1: Simple statements -/

theorem skipSquare_stepwise : Stepwise skipSquare where
  nil _ := ⟨_, rfl⟩
  cons depth token ts := by
    generalize hread : skipSquare depth (token :: ts) = read
    unfold skipSquare at hread
    split at hread
    case h_1 => exact .inl ⟨_, hread.symm⟩
    case h_2 hopen => exact .inr ⟨by simp [hopen], .inr ⟨_, hread.symm⟩⟩
    case h_3 hclose =>
      refine .inr ⟨by simp [hclose], ?_⟩
      split at hread
      case h_1 => exact .inl hread.symm
      case h_2 => exact .inr ⟨_, hread.symm⟩
    case h_4 hend _ _ => exact .inr ⟨hend, .inr ⟨_, hread.symm⟩⟩

theorem skipSquare_keeps (depth : Nat) : Keeps (skipSquare depth) :=
  skipSquare_stepwise.keeps depth

theorem typeParameters_keeps : Keeps typeParameters := by
  unfold typeParameters
  exact .bind (.accept _) fun _ => .ite (skipSquare_keeps 0) (.pure _)

theorem nextName_spends (separator : Symbol) : Spends (· = true) (nextName separator) :=
  .behind .name fun _ => .accept _

theorem names_keeps (separator : Symbol) : Keeps (names separator) :=
  .repeatWhile (nextName_spends separator).keeps

theorem asName_keeps : Keeps asName := by
  unfold asName
  exact .bind (.acceptKeyword _) fun _ => .ite (.bind .name fun _ => .pure _) (.pure _)

theorem nextImport_spends : Spends (· = true) nextImport :=
  .behind (names_keeps _) fun _ => .behind asName_keeps fun _ => .accept _

theorem imports_keeps : Keeps imports := .repeatWhile nextImport_spends.keeps

theorem nextImportedName_spends (parenthesized : Bool) :
    Spends (· = true) (nextImportedName parenthesized) :=
  .behind (.atSymbol _) fun _ =>
    .ite stop_spends (.behind .name fun _ => .behind asName_keeps fun _ => .accept _)

theorem importedNames_keeps (parenthesized : Bool) : Keeps (importedNames parenthesized) :=
  .repeatWhile (nextImportedName_spends parenthesized).keeps

theorem importsFrom_keeps : Keeps importsFrom := by
  have hnames : Keeps (do
      expectKeyword .import_ .invalidSyntax
      unless ← accept .star do
        let parenthesized ← accept (.opening .round)
        importedNames parenthesized
        if parenthesized then expect (.closing .round)) := by
    refine .bind (.expectKeyword _ _) fun _ => .bind (.accept _) fun _ => .ite (.pure _) ?_
    exact .bind (.accept _) fun _ => .bind (importedNames_keeps _) fun _ =>
      .ite (.expect _) (.pure _)
  unfold importsFrom
  refine .bind .peek fun _ => .bind (.repeatWhile (.acceptIf _)) fun _ =>
    .bind (.atKeyword _) fun _ => .ite (.ite hnames (.bind (.fail _) fun _ => hnames)) ?_
  exact .bind (names_keeps _) fun _ => hnames

theorem assigned_advances : Advances assigned := by
  unfold assigned
  exact .behind (.atKeyword _) fun _ =>
    .ite (yieldExpression_advances grammar_keep) (starExpressions_advances grammar_keep)

theorem checkTargets_keeps (targets : List Expr) : Keeps (checkTargets targets) := by
  induction targets with
  | nil => exact .pure _
  | cons target targets ih =>
    unfold checkTargets
    split
    · exact .failAt _ _
    · exact ih

theorem nextValue_spends (read : List Expr × Expr) : Spends Next.IsAgain (nextValue read) :=
  .testSymbol (.bind assigned_advances.keeps fun _ => .pure _) (done_spends _)

theorem assignment_keeps (line : Nat) (first : Expr) : Keeps (assignment line first) := by
  unfold assignment
  exact .bind (.loop (fun read => (nextValue_spends read).keeps) _) fun _ =>
    .bind (checkTargets_keeps _) fun _ => .pure _

theorem expressionStatement_advances : Advances expressionStatement := by
  unfold expressionStatement
  refine .behind .line fun _ => .bind assigned_advances fun _ => .bind .peek fun _ => ?_
  split
  · exact assignment_keeps _ _
  · refine .ite (.bind .advance fun _ => .bind grammar_keep.expression fun _ => ?_) (.failAt _ _)
    exact .bind (.accept _) fun _ =>
      .ite (.bind assigned_advances.keeps fun _ => .pure _) (.pure _)
  · refine .ite (.ite ?_ (.failAt _ _)) (.pure _)
    exact .bind .advance fun _ => .bind assigned_advances.keeps fun _ => .pure _
  · exact .pure _

theorem optionalExpressions_keeps : Keeps optionalExpressions := by
  unfold optionalExpressions
  exact .bind .peek fun _ =>
    .ite (.bind (starExpressions_keeps grammar_keep) fun _ => .pure _) (.pure _)

theorem afterKeyword?_keeps {word : Keyword} {parser : Parser SimpleKind}
    (h : afterKeyword? word = some parser) : Keeps parser := by
  have hexpression := grammar_keep.expression
  unfold afterKeyword? at h
  split at h
  case h_1 | h_2 | h_3 =>
    cases h
    exact .pure _
  case h_4 =>
    cases h
    exact .bind optionalExpressions_keeps fun _ => .pure _
  case h_5 =>
    cases h
    refine .bind .peek fun _ => .ite (.bind hexpression fun _ => ?_) (.pure _)
    exact .bind (.acceptKeyword _) fun _ => .ite (.bind hexpression fun _ => .pure _) (.pure _)
  case h_6 | h_7 =>
    cases h
    exact .bind (names_keeps _) fun _ => .pure _
  case h_8 =>
    cases h
    exact .bind (starExpressions_keeps grammar_keep) fun _ => .pure _
  case h_9 =>
    cases h
    refine .bind hexpression fun _ => .bind (.accept _) fun _ => ?_
    exact .ite (.bind hexpression fun _ => .pure _) (.pure _)
  case h_10 =>
    cases h
    exact .bind imports_keeps fun _ => .pure _
  case h_11 =>
    cases h
    exact .bind importsFrom_keeps fun _ => .pure _
  case h_12 => cases h

theorem keywordStatement?_keeps {l : Lexeme} {parser : Parser SimpleKind}
    (h : keywordStatement? l = some parser) : Keeps parser := by
  unfold keywordStatement? at h
  split at h
  case h_1 => exact afterKeyword?_keeps h
  case h_2 => cases h

theorem typeAlias_advances : Advances typeAlias := by
  unfold typeAlias
  exact .bind .advance fun _ => .bind .name fun _ => .bind typeParameters_keeps fun _ =>
    .bind (.expect _) fun _ => .bind grammar_keep.expression fun _ => .pure _

/-- A type alias is only looked for. -/
theorem atTypeAlias_eq_ok (ts : List Token) : ∃ found, atTypeAlias ts = .ok (found, ts) := by
  unfold atTypeAlias
  simp only [bind_apply, remaining_apply, Result.andThen_ok]
  split <;> exact ⟨_, rfl⟩

theorem atTypeAlias_ensures (ts : List Token) : Ensures atTypeAlias ts fun _ rest => rest = ts :=
  (atTypeAlias_eq_ok ts).elim fun _ hlook => .of_ok hlook rfl

theorem atTypeAlias_keeps : Keeps atTypeAlias := .of_look atTypeAlias_eq_ok

/-- A type alias has two names at its front. -/
theorem names_of_atTypeAlias {ts : List Token} (h : atTypeAlias ts = .ok (true, ts)) :
    ∃ p name q us, ts = ⟨.name SoftKeyword.type_, p⟩ :: ⟨.name name, q⟩ :: us := by
  unfold atTypeAlias at h
  simp only [bind_apply, remaining_apply, Result.andThen_ok] at h
  split at h
  case h_1 word p name q symbol r us =>
    rw [pure_apply, Result.ok_inj] at h
    have htype : (word == SoftKeyword.type_ && (symbol == .equal || symbol == .opening .square)) =
        true := congrArg Prod.fst h
    simp only [Bool.and_eq_true, beq_iff_eq] at htype
    exact ⟨p, name, q, _, by rw [← htype.1]⟩
  case h_2 => cases h

theorem smallStatement_advances : Advances smallStatement := by
  unfold smallStatement
  refine .behind .line fun _ => .behind atTypeAlias_keeps fun _ => .ite ?_ ?_
  · exact .bind typeAlias_advances fun _ => .pure _
  · refine .behind .peek fun _ => ?_
    split
    case h_1 h =>
      exact .bind .advance fun _ => .bind (keywordStatement?_keeps h) fun _ => .pure _
    case h_2 => exact expressionStatement_advances

theorem nextSmall_spends (read : List Stmt) : Spends Next.IsAgain (nextSmall read) :=
  .behind smallStatement_advances.keeps fun _ =>
    .testSymbol (.bind .peek fun _ => .ite (.pure _) (.pure _)) (done_spends _)

theorem simpleStatements_advances : Advances simpleStatements := by
  have hmore : ∀ read : List Stmt, Keeps (do
      if ← accept .semicolon then
        if (← peek) == .newline then pure (Next.done (σ := List Stmt) read) else pure (.again read)
      else pure (.done read)) :=
    fun _ => .bind (.accept _) fun _ =>
      .ite (.bind .peek fun _ => .ite (.pure _) (.pure _)) (.pure _)
  have hloop : Advances (loop nextSmall []) := by
    refine ⟨(Keeps.loop (fun read => (nextSmall_spends read).keeps) []).tidy, fun ts => ?_⟩
    refine Ensures.loop_tokens (fun ts rest => rest <:+ ts.tail) (fun read ts => ?_) [] ts
    unfold nextSmall
    rw [ensures_bind]
    refine (smallStatement_advances.suffix_tail ts).mono fun stmt mid hmid => ?_
    refine ((hmore _).suffix mid).mono fun next rest hrest => ?_
    cases next with
    | done => exact hrest.trans hmid
    | again => exact fun _ hlater => (hlater.trans (List.tail_suffix rest)).trans (hrest.trans hmid)
  unfold simpleStatements
  exact .bind hloop fun _ => .bind (.expectNewline _) fun _ => .pure _

/-! ## Section 2: Parts of compound statements -/

theorem withItem_keeps : Keeps withItem := by
  unfold withItem
  refine .bind grammar_keep.expression fun _ => .bind (.acceptKeyword _) fun _ => ?_
  exact .ite (.bind grammar_keep.operand fun _ => .pure _) (.pure _)

theorem nextWithItem_spends : Spends (· = true) nextWithItem :=
  .behind withItem_keeps fun _ => .accept _

theorem nextGroupedItem_spends : Spends (· = true) nextGroupedItem :=
  .behind (.atSymbol _) fun _ => .ite stop_spends nextWithItem_spends

theorem withItems_keeps : Keeps withItems := by
  unfold withItems
  refine .bind .remaining fun _ => .bind (.atSymbol _) fun _ =>
    .ite ?_ (.repeatWhile nextWithItem_spends.keeps)
  exact .bind .advance fun _ => .bind (.repeatWhile nextGroupedItem_spends.keeps) fun _ => .expect _

theorem nextDecorator_spends : Spends (· = true) nextDecorator :=
  .testSymbol (.bind (namedExpression_keeps grammar_keep) fun _ =>
    .bind (.expectNewline _) fun _ => .pure _) stop_spends

/-- The statements end at an end marker at the latest. -/
theorem nextStatement_spends {ends : Lexeme → Bool} {statement : Parser (List Stmt)}
    (hends : ends .endMarker = true) (hstatement : Advances statement) (read : List Stmt) :
    Spends Next.IsAgain (nextStatement ends statement read) := by
  unfold nextStatement
  refine .seen fun l => ?_
  split
  case isTrue => exact .inl (done_spends _)
  case isFalse hmore =>
    exact .inr ⟨fun hl => hmore (hl ▸ hends), .bind hstatement fun _ => .pure _⟩

/-- A `match` is only looked for, and opens a block. -/
theorem atMatch_eq_ok (ts : List Token) : ∃ found, atMatch ts = .ok (found, ts) ∧
    (found = true → ∃ at_ us, ts = ⟨.name SoftKeyword.match_, at_⟩ :: us ∧
      opensBlock (.name SoftKeyword.match_) us = true) := by
  unfold atMatch
  simp only [bind_apply, remaining_apply, Result.andThen_ok]
  split
  case h_1 word at_ us =>
    refine ⟨_, rfl, fun hmatch => ?_⟩
    simp only [Bool.and_eq_true, beq_iff_eq] at hmatch
    obtain ⟨⟨⟨⟨rfl, _⟩, _⟩, _⟩, hopens⟩ := hmatch
    exact ⟨at_, us, rfl, hopens⟩
  case h_2 => exact ⟨false, rfl, nofun⟩

theorem atMatch_keeps : Keeps atMatch :=
  .of_look fun ts => (atMatch_eq_ok ts).elim fun found hlook => ⟨found, hlook.1⟩

theorem skipPattern_stepwise : Stepwise fun i : Bool × Int => skipPattern i.1 i.2 where
  nil _ := ⟨_, rfl⟩
  cons i token ts := by
    generalize hread : skipPattern i.1 i.2 (token :: ts) = read
    unfold skipPattern at hread
    split at hread
    case h_1 | h_2 => exact .inl ⟨_, hread.symm⟩
    case h_3 hend =>
      split at hread
      case isTrue =>
        split at hread
        case isTrue => exact .inl ⟨_, hread.symm⟩
        case isFalse => exact .inr ⟨hend, .inl hread.symm⟩
      case isFalse => exact .inr ⟨hend, .inr ⟨(false, _), hread.symm⟩⟩

theorem skipPattern_keeps (isEmpty : Bool) (depth : Int) : Keeps (skipPattern isEmpty depth) :=
  skipPattern_stepwise.keeps (isEmpty, depth)

end Grammar

end StyleCheck
