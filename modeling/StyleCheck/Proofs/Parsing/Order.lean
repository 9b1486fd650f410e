import Mathlib.Data.List.Forall2
import StyleCheck.Proofs.Parsing.Anchor
import StyleCheck.Proofs.Scan.Place

/-! # The Order of a Tree

    Each statement of a tree has a token of the stream to itself, and
    from one statement to the next, parents before children, the tokens
    only go forward.

    * `Introduces.front`: the token that a statement starts with is
      spelled, and gives the line.
    * `AnchoredAt`: a statement starts at an index of a stream.
    * `Anchors.exists_indices`: from places to indices.
    * `nodes_anchored`: the indices of a tree, and the order of its lines.
-/

namespace StyleCheck

open StyleCheck.Parser

/-! ## Section 1: Single statements -/

variable {all tokens ts rest : List Token} {stmt : Stmt} {stmts : List Stmt} {m : Module}

/-- Nothing is read as a small statement from a layout token on. -/
theorem Grammar.smallStatement_spelled (ts : List Token) : Ensures Grammar.smallStatement ts
    fun _ _ => (front ts).lexeme.isSpelled = true := by
  intro stmt rest hread
  cases ts with
  | nil => cases hread
  | cons token ts =>
    obtain ⟨lexeme, p⟩ := token
    cases lexeme with
    | newline | indent | dedent | endMarker => cases hread
    | keyword | name | number | string | stray | symbol => rfl

theorem BlockKind.isSpelled_of_startsWith {kind : BlockKind} {l : Lexeme}
    (h : kind.startsWith l = true) : l.isSpelled = true := by
  cases l with
  | newline | indent | dedent | endMarker => cases kind <;> cases h
  | keyword | name | number | string | stray | symbol => rfl

/-- The token that a statement starts with is spelled, and gives the
    line. -/
theorem Introduces.front (h : Introduces ts stmt) : ∃ token behind, ts = token :: behind ∧
    token.lexeme.isSpelled = true ∧ token.position.line = stmt.line := by
  cases h with
  | function | asyncFunction | class_ => exact ⟨_, _, rfl, rfl, rfl⟩
  | block h => exact ⟨_, _, rfl, BlockKind.isSpelled_of_startsWith h, rfl⟩
  | assign h | simple h => exact ⟨_, _, rfl, Grammar.smallStatement_spelled _ _ _ h, rfl⟩

/-- A statement starts at an index of a token stream: it is on the line of
    the token there, and the tokens from there on introduce it. -/
structure AnchoredAt (tokens : List Token) (i : Nat) (stmt : Stmt) : Prop where
  line : tokens[i]?.map (·.position.line) = some stmt.line
  introduces : Introduces ((Module.withEndMarker tokens).drop i) stmt
  begins : Begins (Module.withEndMarker tokens) ((Module.withEndMarker tokens).drop i)

/-- A token that is spelled is not the end marker that has been added. -/
theorem Module.getElem?_withEndMarker {i : Nat} {token : Token}
    (h : (withEndMarker tokens)[i]? = some token) (hspelled : token.lexeme.isSpelled = true) :
    tokens[i]? = some token := by
  have hadded : ∀ p : Position, (tokens ++ [⟨.endMarker, p⟩])[i]? = some token →
      tokens[i]? = some token := by
    intro p h
    rcases List.mem_append.mp (List.mem_of_getElem? h) with _ | hend
    · by_cases hi : i < tokens.length
      · rwa [List.getElem?_append_left hi] at h
      · rw [List.getElem?_append_right (Nat.le_of_not_lt hi)] at h
        obtain rfl := List.mem_singleton.mp (List.mem_of_getElem? h)
        cases hspelled
    · obtain rfl := List.mem_singleton.mp hend
      cases hspelled
  unfold withEndMarker at h
  split at h
  case h_1 hlast =>
    rw [List.getLast?_eq_none_iff.mp hlast] at hadded ⊢
    exact hadded _ h
  case h_2 =>
    split at h
    case isTrue => exact h
    case isFalse => exact hadded _ h

theorem Introduces.anchoredAt {i : Nat}
    (h : Introduces ((Module.withEndMarker tokens).drop i) stmt)
    (hbegins : Begins (Module.withEndMarker tokens) ((Module.withEndMarker tokens).drop i)) :
    AnchoredAt tokens i stmt := by
  obtain ⟨token, behind, hdrop, hspelled, hline⟩ := h.front
  have htoken : (Module.withEndMarker tokens)[i]? = some token := by
    rw [← List.head?_drop, hdrop]
    rfl
  exact ⟨by rw [Module.getElem?_withEndMarker htoken hspelled, ← hline]; rfl, h, hbegins⟩

/-! ## Section 2: Trees -/

/-- Statements one behind the other start at indices one behind the
    other. -/
theorem Anchors.exists_indices (h : Anchors all rest ts stmts) (hts : ts <:+ all) :
    ∃ indices : List Nat, indices.Pairwise (· < ·) ∧
      (∀ i ∈ indices, all.length - ts.length ≤ i) ∧
      List.Forall₂ (fun i stmt => Introduces (all.drop i) stmt ∧ Begins all (all.drop i))
        indices stmts := by
  induction h with
  | done => exact ⟨[], .nil, by simp, .nil⟩
  | @node ts us stmt stmts hsuffix hintroduces hbegins _ _ ih =>
    obtain ⟨indices, hincreasing, hleast, hstmts⟩ :=
      ih ((List.tail_suffix us).trans hbegins.suffix)
    -- The index of the place is what stands in front of it.
    have hdrop : us = all.drop (all.length - us.length) :=
      List.suffix_iff_eq_drop.mp hbegins.suffix
    have hne : 0 < us.length := by
      obtain ⟨token, behind, rfl, _⟩ := hintroduces.front
      exact Nat.succ_pos _
    have hus : us.length ≤ all.length := hbegins.suffix.length_le
    have hlength : us.length ≤ ts.length := hsuffix.length_le
    -- The others start behind the first token of this one.
    rw [List.length_tail] at hleast
    refine ⟨(all.length - us.length) :: indices, ?_, ?_, ?_⟩
    · refine List.pairwise_cons.mpr ⟨fun i hi => ?_, hincreasing⟩
      have hi := hleast i hi
      omega
    · intro i hi
      rcases List.mem_cons.mp hi with rfl | hi
      · omega
      · have hi := hleast i hi
        omega
    · refine .cons ⟨?_, ?_⟩ hstmts
      · rwa [← hdrop]
      · rwa [← hdrop]

/-- What holds from each index to a greater one holds from each statement
    to a later one. -/
theorem pairwise_of_forall₂ {R : Nat → Stmt → Prop} {S : Stmt → Stmt → Prop}
    {indices : List Nat} (h : List.Forall₂ R indices stmts) (hincreasing : indices.Pairwise (· < ·))
    (hRS : ∀ i j a b, i < j → R i a → R j b → S a b) : stmts.Pairwise S := by
  induction h with
  | nil => exact .nil
  | @cons i stmt indices stmts hstmt hstmts ih =>
    obtain ⟨hbehind, hincreasing⟩ := List.pairwise_cons.mp hincreasing
    refine List.pairwise_cons.mpr ⟨fun other hmem => ?_, ih hincreasing⟩
    obtain ⟨n, hn, rfl⟩ := List.getElem_of_mem hmem
    have hn' : n < indices.length := hstmts.length_eq ▸ hn
    exact hRS _ _ _ _ (hbehind _ (List.getElem_mem hn')) hstmt (hstmts.get hn' hn)

/-- Each statement has its index. -/
theorem exists_of_forall₂ {R : Nat → Stmt → Prop} {indices : List Nat} {stmts : List Stmt}
    (h : List.Forall₂ R indices stmts) {stmt : Stmt} (hmem : stmt ∈ stmts) :
    ∃ i ∈ indices, R i stmt := by
  induction h with
  | nil => cases hmem
  | cons hstmt _ ih =>
    rcases List.mem_cons.mp hmem with rfl | hmem
    · exact ⟨_, List.mem_cons_self, hstmt⟩
    · obtain ⟨i, hi, hR⟩ := ih hmem
      exact ⟨i, List.mem_cons_of_mem _ hi, hR⟩

theorem AnchoredAt.line_le {i j : Nat} {a b : Stmt}
    (hordered : tokens.Pairwise fun a b => a.position.line ≤ b.position.line) (hij : i < j)
    (ha : AnchoredAt tokens i a) (hb : AnchoredAt tokens j b) : a.line ≤ b.line := by
  obtain ⟨first, hfirst, hline⟩ := Option.map_eq_some_iff.mp ha.line
  obtain ⟨second, hsecond, hline'⟩ := Option.map_eq_some_iff.mp hb.line
  obtain ⟨hi, rfl⟩ := List.getElem?_eq_some_iff.mp hfirst
  obtain ⟨hj, rfl⟩ := List.getElem?_eq_some_iff.mp hsecond
  rw [← hline, ← hline']
  exact List.pairwise_iff_getElem.mp hordered i j hi hj hij

theorem exists_anchoredAt (h : Module.ofTokens tokens = .ok m) :
    ∃ indices : List Nat, indices.Pairwise (· < ·) ∧
      List.Forall₂ (AnchoredAt tokens) indices (nodes m) := by
  obtain ⟨rest, hanchors⟩ := anchors_of_ofTokens h
  obtain ⟨indices, hincreasing, _, hstmts⟩ := hanchors.exists_indices (List.suffix_refl _)
  exact ⟨indices, hincreasing, hstmts.imp fun _ _ hstmt => hstmt.1.anchoredAt hstmt.2⟩

/-- **The order of a tree.**  The statements of the tree of a token
    stream, parents before children, start at indices that only increase,
    each on the line of the token there: so none stands in the tree twice,
    or before one that it follows.  If the tokens are those of a source,
    the lines of the statements never decrease, and are numbers of 32 bits
    if the source has fewer bytes than that. -/
theorem nodes_anchored (h : Module.ofTokens tokens = .ok m) :
    (∃ indices : List Nat, indices.Pairwise (· < ·) ∧
      List.Forall₂ (AnchoredAt tokens) indices (nodes m)) ∧
    ∀ source, tokenize source = .ok tokens →
      ((nodes m).Pairwise fun a b => a.line ≤ b.line) ∧
      (source.length + 1 < 2 ^ 32 → ∀ stmt ∈ nodes m, stmt.line < 2 ^ 32) := by
  obtain ⟨indices, hincreasing, hstmts⟩ := exists_anchoredAt h
  refine ⟨⟨indices, hincreasing, hstmts⟩, fun source hsource => ⟨?_, fun hlength => ?_⟩⟩
  · exact pairwise_of_forall₂ hstmts hincreasing fun _ _ _ _ hij =>
      AnchoredAt.line_le (pairwise_of_tokenize hsource) hij
  · intro stmt hmem
    obtain ⟨i, _, hanchored⟩ := exists_of_forall₂ hstmts hmem
    obtain ⟨token, htoken, hline⟩ := Option.map_eq_some_iff.mp hanchored.line
    obtain ⟨_, hle, _⟩ := (position_of_mem_tokenize hsource (List.mem_of_getElem? htoken)).bounds
    have hcount : source.count Byte.newline ≤ source.length := List.count_le_length
    omega

/-- A coroutine behind a decorator, two statements on its line, and a
    conditional with a branch that starts further down. -/
theorem anchored_branches :
    let source := ascii "@d\nasync def f(\n): x = 1; g()\nif a:\n  pass\nelif b: y = 2\n"
    let coroutine : Stmt := .functionDef 2 true (ascii "f") {}
      [.assign 3 [⟨.name (ascii "x"), ⟨3, 4⟩⟩] ⟨.constant, ⟨3, 8⟩⟩, .simple 3 .expression]
    let branch : Stmt := .block 6 .conditional
      [.assign 6 [⟨.name (ascii "y"), ⟨6, 9⟩⟩] ⟨.constant, ⟨6, 13⟩⟩]
    let m : Module := [coroutine, .block 4 .conditional [.simple 5 .pass, branch]]
    ∃ tokens, tokenize source = .ok tokens ∧ Module.ofTokens tokens = .ok m ∧
      (nodes m).map Stmt.line = [2, 3, 3, 4, 5, 6, 6] ∧
      (∃ indices : List Nat, indices.Pairwise (· < ·) ∧
        List.Forall₂ (AnchoredAt tokens) indices (nodes m)) ∧
      (nodes m).Pairwise fun a b => a.line ≤ b.line := by
  intro source coroutine branch m
  have hread : Module.ofSource source = .ok m := by
    subst source coroutine branch m
    decide +kernel
  unfold Module.ofSource at hread
  cases htokens : tokenize source with
  | error e => simp [htokens, bind, Except.bind] at hread
  | ok tokens =>
    simp only [htokens, bind, Except.bind] at hread
    obtain ⟨hindices, hlines⟩ := nodes_anchored hread
    exact ⟨tokens, rfl, hread, rfl, hindices, (hlines source htokens).1⟩

end StyleCheck
