import Mathlib.Control.Monad.Basic
import StyleCheck.Proofs.LinePatterns
import StyleCheck.Proofs.Parsing.Anchor
import StyleCheck.Proofs.Scan.Words

/-! # Names on Lines and in Trees

    The rules on the names of classes and functions look at physical
    lines, and know nothing of tokens.  Where the line of a definition
    has its keyword and its name behind spaces, they see the name that
    the tree has.

    * `Line.isMatch_upper`, `Line.isMatch_lower`, `Line.isMatch_underscore`:
      patterns on a name and what follows it.
    * `Line.hasBadFunctionName_declaration`,
      `Line.hasBadClassName_declaration`: the rules, where the line goes
      on behind the name with no byte of names.
    * `exists_tail_of_declares`: the line of a definition goes on so.
    * `bad_name_iff`: the rules, and the names in the tree.
-/

namespace StyleCheck

open Byte

/-! ## Section 1: Names behind keywords -/

namespace Line

/-- Spaces, the keyword, at least one space, and the name. -/
def Declares (keyword name line : Text) : Prop :=
  ∃ i j tail, line = List.replicate i space ++
    (keyword ++ (List.replicate (j + 1) space ++ (name ++ tail)))

/-- What is no byte of names is in none of the classes. -/
theorem classes_of_not_isNameByte {b : UInt8} (h : isNameByte b = false) :
    isUpper b = false ∧ isSnake b = false ∧ isWordByte b = false := by
  simp only [isNameByte, isNameStart, isLetter, Bool.or_eq_false_iff] at h
  obtain ⟨⟨⟨⟨hupper, hlower⟩, hunderscore⟩, _⟩, hdigit⟩ := h
  simp [isSnake, isWordByte, isLetter, hupper, hlower, hunderscore, hdigit]

/-- A byte of an ASCII name is a capital, or one that may stand with
    small letters. -/
theorem isSnake_or_isUpper {b : UInt8} (hb : isNameByte b = true) (hascii : isHigh b = false) :
    isSnake b = true ∨ isUpper b = true := by
  simp only [isNameByte, isNameStart, isLetter, hascii, Bool.or_eq_true, Bool.or_false] at hb
  rcases hb with ((h | h) | h) | h <;> simp [isSnake, h]

variable {name tail : Text}

/-- The first byte that may not stand with small letters is a capital. -/
theorem isMatch_upper (hname : ∀ b ∈ name, isNameByte b = true)
    (hascii : ∀ b ∈ name, isHigh b = false) (htail : ∀ b ∈ tail.head?, isNameByte b = false) :
    Pattern.isMatch [.atLeast 0 isSnake, .one isUpper] (name ++ tail) = name.hasUpper := by
  rw [isMatch_capital]
  induction name with
  | nil =>
    have hother : ∀ b ∈ tail.head?, isSnake b = false := fun b hb =>
      (classes_of_not_isNameByte (htail b hb)).2.1
    rw [(@Text.longest_append isSnake [] tail (by simp) hother).2]
    cases tail with
    | nil => rfl
    | cons b tail => exact (classes_of_not_isNameByte (htail b rfl)).1
  | cons b name ih =>
    obtain ⟨hb, hname⟩ := List.forall_mem_cons.mp hname
    obtain ⟨hbascii, hascii⟩ := List.forall_mem_cons.mp hascii
    rw [List.cons_append, Text.hasUpper, List.any_cons]
    cases hsnake : isSnake b with
    | true =>
      rw [List.dropWhile_cons_of_pos hsnake, ih hname hascii, isUpper_eq_false_of_isSnake hsnake]
      rfl
    | false =>
      have hupper : isUpper b = true := by
        simpa [hsnake] using isSnake_or_isUpper hb hbascii
      rw [List.dropWhile_cons_of_neg (by simp [hsnake]), hupper]
      exact hupper

/-- A name is not empty, so that its first byte is that of the line. -/
theorem isMatch_lower (hname : name ≠ []) :
    Pattern.isMatch [.one isLower] (name ++ tail) = name.head?.any isLower := by
  rw [Pattern.isMatch_singleton, List.head?_append, List.head?_eq_some_head hname]
  rfl

/-- The longest run is the name. -/
theorem isMatch_underscore (hname : ∀ b ∈ name, isWordByte b = true)
    (htail : ∀ b ∈ tail.head?, isNameByte b = false) :
    Pattern.isMatch [.atLeast 1 isWordByte, .one (· == underscore)] (name ++ tail) = true ↔
      underscore ∈ name.tail := by
  have hother : ∀ b ∈ tail.head?, isWordByte b = false := fun b hb =>
    (classes_of_not_isNameByte (htail b hb)).2.2
  rw [Pattern.isMatch_inner rfl, (Text.longest_append hname hother).1]

/-- What follows the spaces of a declaration is its name. -/
theorem head?_append_ne_space (hname : IsIdentifier name) : (name ++ tail).head? ≠ some space := by
  obtain ⟨⟨b, rest, rfl, hb⟩, _⟩ := hname
  intro h
  obtain rfl : b = space := Option.some.inj h
  cases hb

theorem hasBadFunctionName_declaration (i j : Nat) (hname : IsIdentifier name)
    (hascii : ∀ b ∈ name, isHigh b = false) (htail : ∀ b ∈ tail.head?, isNameByte b = false) :
    hasBadFunctionName (List.replicate i space ++
      (ascii "def" ++ (List.replicate (j + 1) space ++ (name ++ tail)))) = name.hasUpper := by
  have hrest : (name ++ tail).head? ≠ some space := head?_append_ne_space hname
  have hdef : ∃ b more, ascii "def" = b :: more ∧ b ≠ space := ⟨_, _, rfl, by decide⟩
  rw [hasBadFunctionName, show upperFunction = heading (ascii "def") ++
      [.atLeast 0 isSnake, .one isUpper] from rfl,
    isMatch_heading i j hdef (fun _ => rfl) hrest, isMatch_upper hname.2 hascii htail]

theorem hasBadClassName_declaration (i j : Nat) (hname : IsIdentifier name)
    (hword : ∀ b ∈ name, isWordByte b = true) (htail : ∀ b ∈ tail.head?, isNameByte b = false) :
    hasBadClassName (List.replicate i space ++
      (ascii "class" ++ (List.replicate (j + 1) space ++ (name ++ tail)))) = true ↔
        name.head?.any isLower = true ∨ underscore ∈ name.tail := by
  have hrest : (name ++ tail).head? ≠ some space := head?_append_ne_space hname
  have hclass : ∃ b more, ascii "class" = b :: more ∧ b ≠ space := ⟨_, _, rfl, by decide⟩
  obtain ⟨⟨b, after, rfl, _⟩, _⟩ := hname
  rw [hasBadClassName, Bool.or_eq_true, show lowerClass = heading (ascii "class") ++
      [.one isLower] from rfl,
    show underscoreClass = heading (ascii "class") ++
      [.atLeast 1 isWordByte, .one (· == underscore)] from rfl,
    isMatch_heading i j hclass (fun _ => rfl) hrest,
    isMatch_heading i j hclass (fun _ => rfl) hrest, isMatch_lower (List.cons_ne_nil b after), isMatch_underscore hword htail]

end Line

/-! ## Section 2: Names of definitions -/

variable {source physical name : Text} {m : Module} {line : Nat}

/-- Where a statement of a source starts with a keyword and a name, and
    its line declares that name, the line goes on with something else. -/
theorem exists_tail_of_declares {tokens ts : List Token} {word : Keyword} {p q : Position}
    (htokens : tokenize source = .ok tokens)
    (hfresh : Fresh tokens (⟨.keyword word, p⟩ :: ⟨.name name, q⟩ :: ts))
    (hphysical : source.splitLines[p.line - 1]? = some physical)
    (hdeclares : Line.Declares word.text name physical) :
    IsIdentifier name ∧ ∃ i j tail, physical = List.replicate i space ++
      (word.text ++ (List.replicate (j + 1) space ++ (name ++ tail))) ∧
        ∀ b ∈ tail.head?, isNameByte b = false := by
  obtain ⟨before, rfl, hnone⟩ := hfresh
  obtain ⟨i, j, tail, rfl⟩ := hdeclares
  obtain ⟨hname, htail⟩ := Scan.first_words htokens hnone hphysical
  exact ⟨hname, i, j, tail, rfl, htail⟩

/-- The definitions of an accepted source start at tokens of the source. -/
theorem exists_introduces_of_ofSource {stmt : Stmt} (hread : Module.ofSource source = .ok m)
    (hmem : stmt ∈ nodes m) (hsmall : stmt.isSmall = false) :
    ∃ tokens us, tokenize source = .ok tokens ∧ Introduces us stmt ∧ Fresh tokens us := by
  obtain ⟨tokens, htokens, hstmts⟩ := introduces_of_ofSource hread
  obtain ⟨us, hintroduces, _, hfresh⟩ := hstmts stmt hmem
  exact ⟨tokens, us, htokens, hintroduces, hfresh hsmall⟩

/-- **Names on lines and in trees.**  Take an accepted source, and a line
    of it that declares the name of a definition that starts there.  If
    the definition is a function and its name is ASCII, the rule on
    function names holds of the line exactly when the name has a capital.
    If it is a class whose name is of letters and underscores, the rule on
    class names holds exactly when the name starts with a small letter or
    has an underscore behind its first byte. -/
theorem bad_name_iff (hread : Module.ofSource source = .ok m)
    (hphysical : source.splitLines[line - 1]? = some physical) :
    (∀ parameters body, .functionDef line false name parameters body ∈ nodes m →
      (∀ b ∈ name, isHigh b = false) → Line.Declares (ascii "def") name physical →
        (Line.hasBadFunctionName physical = true ↔ name.hasUpper = true)) ∧
    (∀ body, .classDef line name body ∈ nodes m →
      (∀ b ∈ name, isLetter b = true ∨ b = underscore) →
      Line.Declares (ascii "class") name physical →
        (Line.hasBadClassName physical = true ↔
          name.head?.any isLower = true ∨ underscore ∈ name.tail)) := by
  constructor
  · intro parameters body hmem hascii hdeclares
    obtain ⟨tokens, us, htokens, hintroduces, hfresh⟩ :=
      exists_introduces_of_ofSource hread hmem rfl
    cases hintroduces with
    | function =>
      obtain ⟨hname, i, j, tail, rfl, htail⟩ :=
        exists_tail_of_declares htokens hfresh hphysical hdeclares
      exact Bool.eq_iff_iff.mp (Line.hasBadFunctionName_declaration i j hname hascii htail)
  · intro body hmem hword hdeclares
    obtain ⟨tokens, us, htokens, hintroduces, hfresh⟩ :=
      exists_introduces_of_ofSource hread hmem rfl
    cases hintroduces with
    | class_ =>
      obtain ⟨hname, i, j, tail, rfl, htail⟩ :=
        exists_tail_of_declares htokens hfresh hphysical hdeclares
      have hbytes : ∀ b ∈ name, Line.isWordByte b = true := by
        simpa [Line.isWordByte] using hword
      exact Line.hasBadClassName_declaration i j hname hbytes htail

/-- A class that goes on over two lines, and a function below it behind
    a decorator: the names of both are bad, on their lines and in the
    tree. -/
theorem bad_names_nested :
    let source := ascii "class  Some_Class(\n  A): # x\n    @d\n    def   getX(a): pass\n"
    let function : Stmt :=
      .functionDef 4 false (ascii "getX") { regular := [ascii "a"] } [.simple 4 .pass]
    let class_ : Stmt := .classDef 1 (ascii "Some_Class") [function]
    Module.ofSource source = .ok [class_] ∧ class_ ∈ nodes [class_] ∧ function ∈ nodes [class_] ∧
      source.splitLines[0]? = some (ascii "class  Some_Class(\n") ∧
      source.splitLines[3]? = some (ascii "    def   getX(a): pass\n") ∧
      (Line.hasBadClassName (ascii "class  Some_Class(\n") = true ↔
        (ascii "Some_Class").head?.any isLower = true ∨ underscore ∈ (ascii "Some_Class").tail) ∧
      (Line.hasBadFunctionName (ascii "    def   getX(a): pass\n") = true ↔
        (ascii "getX").hasUpper = true) := by
  intro source function class_
  have hread : Module.ofSource source = .ok [class_] := by
    subst source function class_
    decide +kernel
  have hclass : class_ ∈ nodes [class_] := List.mem_cons_self
  have hfunction : function ∈ nodes [class_] := List.mem_cons_of_mem _ List.mem_cons_self
  have hfirst : source.splitLines[0]? = some (ascii "class  Some_Class(\n") := by
    subst source
    decide +kernel
  have hfourth : source.splitLines[3]? = some (ascii "    def   getX(a): pass\n") := by
    subst source
    decide +kernel
  have hword : ∀ b ∈ ascii "Some_Class", isLetter b = true ∨ b = underscore := by
    have hall : (ascii "Some_Class").all (fun b => isLetter b || b == underscore) = true := rfl
    simpa using hall
  have hascii : ∀ b ∈ ascii "getX", isHigh b = false := by
    have hany : (ascii "getX").any isHigh = false := rfl
    simpa using hany
  have hclassName := (@bad_name_iff source _ (ascii "Some_Class") _ 1 hread hfirst).2 _ hclass
    hword ⟨0, 1, ascii "(\n", rfl⟩
  have hfunctionName := (@bad_name_iff source _ (ascii "getX") _ 4 hread hfourth).1 _ _ hfunction
    hascii ⟨4, 2, ascii "(a): pass\n", rfl⟩
  exact ⟨hread, hclass, hfunction, hfirst, hfourth, hclassName, hfunctionName⟩

end StyleCheck
