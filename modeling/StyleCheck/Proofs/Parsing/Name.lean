import StyleCheck.Proofs.Parsing.Reading
import StyleCheck.Syntax.Grammar.SimpleStatement

/-! # A Name as an Expression

    A name goes through every level of the grammar of expressions, and
    none of them may take what stands behind it for an operator.  The
    levels are followed from the tightest to the loosest; none of them
    refers back to the grammar, so all is said of any `Nonterminals`.

    * `operand_name`, `expression_name`: a name at either end of the
      levels.
    * `assigned_name`, `namedExpression_name`, `targets_name` and others:
      a name at the places of the grammar of statements.
-/

namespace StyleCheck

namespace Grammar

open StyleCheck.Parser

/-! ## Section 1: Ends -/

/-- What may stand behind an operand that is not continued. -/
def endsOperand : Lexeme → Bool
  | .newline | .symbol .colon | .symbol .equal | .symbol .colonEqual
  | .symbol (.closing .round) | .keyword .in_ => true
  | _ => false

/-- What may stand behind an expression that is not continued. -/
def endsExpression : Lexeme → Bool
  | .newline | .symbol .colon | .symbol .equal | .symbol .colonEqual
  | .symbol (.closing .round) => true
  | _ => false

variable {l : Lexeme}

theorem endsOperand_cases (h : endsOperand l = true) :
    l = .newline ∨ l = .symbol .colon ∨ l = .symbol .equal ∨ l = .symbol .colonEqual ∨
      l = .symbol (.closing .round) ∨ l = .keyword .in_ := by
  unfold endsOperand at h
  split at h <;> simp_all

theorem endsExpression_cases (h : endsExpression l = true) :
    l = .newline ∨ l = .symbol .colon ∨ l = .symbol .equal ∨ l = .symbol .colonEqual ∨
      l = .symbol (.closing .round) := by
  unfold endsExpression at h
  split at h <;> simp_all

theorem endsOperand_of_endsExpression (h : endsExpression l = true) : endsOperand l = true := by
  rcases endsExpression_cases h with rfl | rfl | rfl | rfl | rfl <;> rfl

/-! ## Section 2: The levels of operators -/

variable (g : Nonterminals) (x : Text) (at_ : Position) {rest : List Token}

/-- A single operand is a chain, unless an operator follows. -/
theorem chain_of_operand {operator : Parser Bool} {operand : Parser Expr} {ts rest : List Token}
    {e : Expr} (hoperand : operand ts = .ok (e, rest))
    (hoperator : operator rest = .ok (false, rest)) :
    chain operator operand ts = .ok (e, rest) := by
  have hloop : ∀ start, loop (nextOperand operator operand start) e rest = .ok (e, rest) := by
    intro start
    apply loop_of_done
    unfold nextOperand
    simp [hoperator]
  unfold chain
  simp [hoperand, hloop]

theorem primary_name (h : endsOperand (front rest).lexeme = true) :
    primary g (⟨.name x, at_⟩ :: rest) = .ok (⟨.name x, at_⟩, rest) := by
  have hatom : atom g (⟨.name x, at_⟩ :: rest) = .ok (⟨.name x, at_⟩, rest) := by
    simp [atom]
  unfold primary
  simp only [bind_apply, position_apply, front_cons, Result.andThen_ok, hatom]
  -- No attribute, call or subscript follows.
  apply loop_of_done
  unfold nextTrailer
  rcases endsOperand_cases h with h | h | h | h | h | h <;> simp [h]

theorem factor_name (h : endsOperand (front rest).lexeme = true) :
    factor g (⟨.name x, at_⟩ :: rest) = .ok (⟨.name x, at_⟩, rest) := by
  have hprimary := primary_name g x at_ h
  have hpower : power g (⟨.name x, at_⟩ :: rest) = .ok (⟨.name x, at_⟩, rest) := by
    unfold power
    rcases endsOperand_cases h with h | h | h | h | h | h <;> simp [h, hprimary]
  unfold factor
  simp [isSign, hpower]

/-- No level of binary operators takes a name for an operator behind it,
    or what ends an operand. -/
theorem binary_name (h : endsOperand (front rest).lexeme = true) :
    ∀ levels : List (List Symbol), (∀ level ∈ levels, isOneOf level (front rest).lexeme = false) →
      binary g levels (⟨.name x, at_⟩ :: rest) = .ok (⟨.name x, at_⟩, rest) := by
  intro levels
  induction levels with
  | nil =>
    intro _
    exact factor_name g x at_ h
  | cons level tighter ih =>
    intro hlevels
    have htighter := ih fun other hmem => hlevels other (List.mem_cons_of_mem _ hmem)
    have hlevel := hlevels level List.mem_cons_self
    unfold binary
    apply chain_of_operand htighter
    simp [hlevel]

theorem operand_name (h : endsOperand (front rest).lexeme = true) :
    operand g (⟨.name x, at_⟩ :: rest) = .ok (⟨.name x, at_⟩, rest) := by
  -- None of what ends an operand is on any level.
  apply binary_name g x at_ h
  rcases endsOperand_cases h with h | h | h | h | h | h <;> rw [h] <;> decide

/-! ## Section 3: The levels above -/

theorem comparison_name (h : endsExpression (front rest).lexeme = true) :
    comparison g (⟨.name x, at_⟩ :: rest) = .ok (⟨.name x, at_⟩, rest) := by
  apply chain_of_operand (operand_name g x at_ (endsOperand_of_endsExpression h))
  unfold acceptComparison
  rcases endsExpression_cases h with h | h | h | h | h <;> simp [h, Symbol.isComparison]

theorem inversion_name (h : endsExpression (front rest).lexeme = true) :
    inversion g (⟨.name x, at_⟩ :: rest) = .ok (⟨.name x, at_⟩, rest) := by
  unfold inversion
  simp [comparison_name g x at_ h]

theorem disjunction_name (h : endsExpression (front rest).lexeme = true) :
    disjunction g (⟨.name x, at_⟩ :: rest) = .ok (⟨.name x, at_⟩, rest) := by
  have hkeyword : ∀ word : Keyword,
      acceptKeyword word rest = .ok (false, rest) := by
    intro word
    rcases endsExpression_cases h with h | h | h | h | h <;> simp [h]
  have hconjunction : conjunction g (⟨.name x, at_⟩ :: rest) = .ok (⟨.name x, at_⟩, rest) :=
    chain_of_operand (inversion_name g x at_ h) (hkeyword .and_)
  exact chain_of_operand hconjunction (hkeyword .or_)

theorem expression_name (h : endsExpression (front rest).lexeme = true) :
    expression g (⟨.name x, at_⟩ :: rest) = .ok (⟨.name x, at_⟩, rest) := by
  have hdisjunction := disjunction_name g x at_ h
  unfold expression
  rcases endsExpression_cases h with h | h | h | h | h <;> simp [h, hdisjunction]

/-! ## Section 4: Places of an expression -/

theorem grammar_operand_name (h : endsOperand (front rest).lexeme = true) :
    grammar.operand (⟨.name x, at_⟩ :: rest) = .ok (⟨.name x, at_⟩, rest) :=
  operand_name _ x at_ h

theorem grammar_expression_name (h : endsExpression (front rest).lexeme = true) :
    grammar.expression (⟨.name x, at_⟩ :: rest) = .ok (⟨.name x, at_⟩, rest) :=
  expression_name _ x at_ h

theorem starExpressions_name (h : endsExpression (front rest).lexeme = true) :
    starExpressions grammar (⟨.name x, at_⟩ :: rest) = .ok (⟨.name x, at_⟩, rest) := by
  have hexpression := grammar_expression_name x at_ h
  unfold starExpressions nextStarExpression starExpression
  rcases endsExpression_cases h with h | h | h | h | h <;> simp [h, hexpression]

theorem assigned_name (h : endsExpression (front rest).lexeme = true) :
    assigned (⟨.name x, at_⟩ :: rest) = .ok (⟨.name x, at_⟩, rest) := by
  unfold assigned
  simp [starExpressions_name x at_ h]

/-- An assignment expression starts with a name, too. -/
theorem namedExpression_name (h : endsExpression (front rest).lexeme = true)
    (hplain : (front rest).lexeme ≠ .symbol .colonEqual) :
    namedExpression grammar (⟨.name x, at_⟩ :: rest) = .ok (⟨.name x, at_⟩, rest) := by
  have hexpression := grammar_expression_name x at_ h
  unfold namedExpression
  simp [hplain, hexpression]

theorem targets_name (h : endsOperand (front rest).lexeme = true) :
    targets grammar (⟨.name x, at_⟩ :: rest) = .ok (⟨.name x, at_⟩, rest) := by
  have hoperand := grammar_operand_name x at_ h
  unfold targets nextTarget target
  rcases endsOperand_cases h with h | h | h | h | h | h <;> simp [h, hoperand]

end Grammar

end StyleCheck
