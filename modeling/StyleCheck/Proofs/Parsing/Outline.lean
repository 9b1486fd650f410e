import StyleCheck.Syntax.Module

/-! # Outlines

    An outline is a program as it is written down: statements with the
    tokens that make them up, each at a place of its own choice.  It
    has two readings.  `tokens` is what a scanner makes of it, `tree` is
    what a parser should.

    Expressions are names here.  What is left is how statements own
    suites, and what hangs on which of them.  An outline cannot be built
    with an empty suite, with a `try` that nothing hangs on, or with an
    `else` behind a `try` that has no handlers.
-/

namespace StyleCheck

/-! ## Section 1: Names -/

/-- A name and where it stands. -/
structure Identifier where
  text : Text
  position : Position
  notReserved : Keyword.ofText? text = none

namespace Identifier

def token (x : Identifier) : Token := ⟨Lexeme.ofWord x.text, x.position⟩

/-- The name as an expression. -/
def expr (x : Identifier) : Expr := ⟨.name x.text, x.position⟩

@[simp] theorem token_eq (x : Identifier) : x.token = ⟨.name x.text, x.position⟩ := by
  unfold token Lexeme.ofWord
  rw [x.notReserved]

end Identifier

/-- One name or more, each but the first behind a separator. -/
structure Names where
  first : Identifier
  others : List (Position × Identifier)

namespace Names

def toList (names : Names) : List Identifier := names.first :: names.others.map (·.2)

/-- The tokens behind the first name. -/
def tail (separator : Symbol) : List (Position × Identifier) → List Token
  | [] => []
  | (place, x) :: others => ⟨.symbol separator, place⟩ :: x.token :: tail separator others

def tokens (separator : Symbol) (names : Names) : List Token :=
  names.first.token :: tail separator names.others

end Names

/-- Where the tokens around an indented block stand. -/
structure Frame where
  colon : Position
  newline : Position
  indent : Position
  dedent : Position

/-- A colon, the end of the line, and tokens between an indent and a
    dedent. -/
def Frame.around (frame : Frame) (inner : List Token) : List Token :=
  ⟨.symbol .colon, frame.colon⟩ :: ⟨.newline, frame.newline⟩ :: ⟨.indent, frame.indent⟩
    :: (inner ++ [⟨.dedent, frame.dedent⟩])

/-- A statement of one keyword. -/
inductive Jump where
  | pass
  | breakLoop
  | continueLoop

namespace Jump

def keyword : Jump → Keyword
  | pass => .pass_
  | breakLoop => .break_
  | continueLoop => .continue_

def kind : Jump → SimpleKind
  | pass => .pass
  | breakLoop => .breakLoop
  | continueLoop => .continueLoop

end Jump

/-! ## Section 2: Statements -/

/-- What an outline is an outline of. -/
inductive Part where
  | statement
  /-- The statements of a suite, of which there is one at least. -/
  | block
  /-- A block with its frame. -/
  | suite
  /-- What hangs on an `if` or `elif`. -/
  | branch
  /-- A suite behind a keyword, which may be left out. -/
  | tail (keyword : Keyword)
  | handler
  /-- One handler or more. -/
  | handlers
  | case
  /-- One case or more. -/
  | cases

/-- A part of a program.  A statement that may stand behind `async` has
    a place for it. -/
inductive Outline : Part → Type where
  | jump (word : Jump) (start newline : Position) : Outline .statement
  | name (x : Identifier) (newline : Position) : Outline .statement
  | assign (targets : Names) (equal : Position) (value : Identifier) (newline : Position) :
      Outline .statement
  | conditional (start : Position) (test : Identifier) (body : Outline .suite)
      (rest : Outline .branch) : Outline .statement
  | whileLoop (start : Position) (test : Identifier) (body : Outline .suite)
      (last : Outline (.tail .else_)) : Outline .statement
  | forLoop (async : Option Position) (start : Position) (target : Identifier)
      (middle : Position) (source : Identifier) (body : Outline .suite)
      (last : Outline (.tail .else_)) : Outline .statement
  | tryHandled (start : Position) (body : Outline .suite) (list : Outline .handlers)
      (last : Outline (.tail .else_)) (final : Outline (.tail .finally_)) : Outline .statement
  | tryFinal (start : Position) (body : Outline .suite) (finalStart : Position)
      (final : Outline .suite) : Outline .statement
  | withBlock (async : Option Position) (start : Position) (item : Identifier)
      (body : Outline .suite) : Outline .statement
  | functionDef (async : Option Position) (start : Position) (x : Identifier)
      (opener : Position) (parameters : Option Names) (closer : Position)
      (body : Outline .suite) : Outline .statement
  | classDef (start : Position) (x : Identifier) (body : Outline .suite) : Outline .statement
  | matchBlock (start : Position) (subject : Identifier) (frame : Frame)
      (list : Outline .cases) : Outline .statement
  | single (stmt : Outline .statement) : Outline .block
  | cons (stmt : Outline .statement) (stmts : Outline .block) : Outline .block
  | suite (frame : Frame) (block : Outline .block) : Outline .suite
  | absent (keyword : Keyword) : Outline (.tail keyword)
  | present (keyword : Keyword) (start : Position) (body : Outline .suite) :
      Outline (.tail keyword)
  | otherwise (last : Outline (.tail .else_)) : Outline .branch
  | elif (start : Position) (test : Identifier) (body : Outline .suite)
      (rest : Outline .branch) : Outline .branch
  /-- With a star, or for one kind of exception, or neither. -/
  | handler (start : Position) (star : Option Position) (kind : Option Identifier)
      (body : Outline .suite) : Outline .handler
  | singleHandler (first : Outline .handler) : Outline .handlers
  | consHandler (first : Outline .handler) (others : Outline .handlers) : Outline .handlers
  | case (start : Position) (pattern : Identifier) (body : Outline .suite) : Outline .case
  | singleCase (first : Outline .case) : Outline .cases
  | consCase (first : Outline .case) (others : Outline .cases) : Outline .cases

namespace Outline

/-- An `async`, if there is one. -/
def asyncTokens (async : Option Position) : List Token :=
  async.toList.map (⟨.keyword .async_, ·⟩)

/-- The tokens of a part, in their order. -/
@[simp] def tokens : {part : Part} → Outline part → List Token
  | _, jump word start newline => [⟨.keyword word.keyword, start⟩, ⟨.newline, newline⟩]
  | _, name x newline => [x.token, ⟨.newline, newline⟩]
  | _, assign targets equal value newline =>
    targets.tokens .equal ++ [⟨.symbol .equal, equal⟩, value.token, ⟨.newline, newline⟩]
  | _, conditional start test body rest =>
    ⟨.keyword .if_, start⟩ :: test.token :: (body.tokens ++ rest.tokens)
  | _, whileLoop start test body last =>
    ⟨.keyword .while_, start⟩ :: test.token :: (body.tokens ++ last.tokens)
  | _, forLoop async start target middle source body last =>
    asyncTokens async ++ ⟨.keyword .for_, start⟩ :: target.token :: ⟨.keyword .in_, middle⟩
      :: source.token :: (body.tokens ++ last.tokens)
  | _, tryHandled start body list last final =>
    ⟨.keyword .try_, start⟩ :: (body.tokens ++ list.tokens ++ last.tokens ++ final.tokens)
  | _, tryFinal start body finalStart final =>
    ⟨.keyword .try_, start⟩ :: (body.tokens ++ ⟨.keyword .finally_, finalStart⟩ :: final.tokens)
  | _, withBlock async start item body =>
    asyncTokens async ++ ⟨.keyword .with_, start⟩ :: item.token :: body.tokens
  | _, functionDef async start x opener parameters closer body =>
    asyncTokens async ++ ⟨.keyword .def_, start⟩ :: x.token
      :: ⟨.symbol (.opening .round), opener⟩
      :: (parameters.elim [] (Names.tokens .comma)
        ++ ⟨.symbol (.closing .round), closer⟩ :: body.tokens)
  | _, classDef start x body => ⟨.keyword .class_, start⟩ :: x.token :: body.tokens
  | _, matchBlock start subject frame list =>
    ⟨.name SoftKeyword.match_, start⟩ :: subject.token :: frame.around list.tokens
  | _, single stmt => stmt.tokens
  | _, cons stmt stmts => stmt.tokens ++ stmts.tokens
  | _, suite frame block => frame.around block.tokens
  | _, absent _ => []
  | _, present keyword start body => ⟨.keyword keyword, start⟩ :: body.tokens
  | _, otherwise last => last.tokens
  | _, elif start test body rest =>
    ⟨.keyword .elif_, start⟩ :: test.token :: (body.tokens ++ rest.tokens)
  | _, handler start star kind body =>
    ⟨.keyword .except_, start⟩ :: (star.toList.map (⟨.symbol .star, ·⟩)
      ++ kind.toList.map Identifier.token ++ body.tokens)
  | _, singleHandler first => first.tokens
  | _, consHandler first others => first.tokens ++ others.tokens
  | _, case start pattern body =>
    ⟨.name SoftKeyword.case_, start⟩ :: pattern.token :: body.tokens
  | _, singleCase first => first.tokens
  | _, consCase first others => first.tokens ++ others.tokens

/-- Whether one of the handlers of a `try` has a star. -/
@[simp] def hasStar : {part : Part} → Outline part → Bool
  | _, handler _ star _ _ => star.isSome
  | _, singleHandler first => first.hasStar
  | _, consHandler first others => first.hasStar || others.hasStar
  | _, _ => false

/-- What a part comes to in the tree: the statement, or all of those
    that it puts below the statement that owns it.  Every node has the
    line of the first of its tokens. -/
@[simp] def tree : {part : Part} → Outline part → List Stmt
  | _, jump word start _ => [.simple start.line word.kind]
  | _, name x _ => [.simple x.position.line .expression]
  | _, assign targets _ value _ =>
    [.assign targets.first.position.line (targets.toList.map Identifier.expr) value.expr]
  | _, conditional start _ body rest => [.block start.line .conditional (body.tree ++ rest.tree)]
  | _, whileLoop start _ body last => [.block start.line .whileLoop (body.tree ++ last.tree)]
  | _, forLoop async start _ _ _ body last =>
    [.block (async.getD start).line (.forLoop async.isSome) (body.tree ++ last.tree)]
  | _, tryHandled start body list last final =>
    [.block start.line (.tryBlock list.hasStar)
      (body.tree ++ list.tree ++ last.tree ++ final.tree)]
  | _, tryFinal start body _ final =>
    [.block start.line (.tryBlock false) (body.tree ++ final.tree)]
  | _, withBlock async start _ body =>
    [.block (async.getD start).line (.withBlock async.isSome) body.tree]
  | _, functionDef async start x _ parameters _ body =>
    [.functionDef (async.getD start).line async.isSome x.text
      { regular := parameters.elim [] fun names => names.toList.map (·.text) } body.tree]
  | _, classDef start x body => [.classDef start.line x.text body.tree]
  | _, matchBlock start _ _ list => [.block start.line .matchBlock list.tree]
  | _, single stmt => stmt.tree
  | _, cons stmt stmts => stmt.tree ++ stmts.tree
  | _, suite _ block => block.tree
  | _, absent _ => []
  | _, present _ _ body => body.tree
  | _, otherwise last => last.tree
  | _, elif start _ body rest => [.block start.line .conditional (body.tree ++ rest.tree)]
  | _, handler start _ _ body => [.block start.line .handler body.tree]
  | _, singleHandler first => first.tree
  | _, consHandler first others => first.tree ++ others.tree
  | _, case start _ body => [.block start.line .matchCase body.tree]
  | _, singleCase first => first.tree
  | _, consCase first others => first.tree ++ others.tree

end Outline

end StyleCheck
