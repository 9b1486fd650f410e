import StyleCheck.Proofs.Check
import StyleCheck.Proofs.Faults.Statements
import StyleCheck.Proofs.Parsing.Anchor
import StyleCheck.Proofs.Scan.Place

/-! # Where Sources Are Rejected

    A source is rejected while it is scanned or while its tokens are
    parsed.  Both errors have a wording, and a position of the source.

    * `Fault.message_ne_nil`: the wording is not empty.
    * `position_of_ofTokens_error`: a token stream is rejected at a token
      up to the first end marker.
    * `ofSource_error_inside`: the position of an error is inside the
      source.
-/

namespace StyleCheck

open StyleCheck.Parser

variable {source : Text} {tokens : List Token} {e : SyntaxError}

theorem Fault.message_ne_nil (fault : Fault) : fault.message ≠ [] := by
  cases fault with
  | unterminatedString triple => cases triple <;> exact nofun
  | cannotAssign target => cases target <;> exact nofun
  | _ => exact nofun

/-! ## Section 1: Token streams -/

theorem Module.endMarker_mem_withEndMarker (tokens : List Token) :
    ∃ token ∈ withEndMarker tokens, token.lexeme = .endMarker := by
  unfold withEndMarker
  split
  case h_1 => exact ⟨_, List.mem_singleton_self _, rfl⟩
  case h_2 last hlast =>
    split
    case isTrue hend => exact ⟨last, List.mem_of_getLast? hlast, hend⟩
    case isFalse => exact ⟨_, List.mem_append_right _ (List.mem_singleton_self _), rfl⟩

/-- A token stream is rejected at a position of one of its tokens, and of
    none behind the first end marker. -/
theorem position_of_ofTokens_error {good : Position → Prop}
    (hgood : Within good (Module.withEndMarker tokens)) (h : Module.ofTokens tokens = .error e) :
    good e.position := by
  unfold Module.ofTokens at h
  rcases Module.parser_stays good (Module.withEndMarker tokens) hgood with
    ⟨m, rest, hread, _⟩ | ⟨e', rest, hread, hblamed, _⟩
  · rw [hread] at h
    cases h
  · rw [hread] at h
    exact Except.error.inj h ▸ hblamed

/-! ## Section 2: Sources -/

/-- The tokens of a source are at positions of it. -/
theorem within_of_tokenize (h : tokenize source = .ok tokens) :
    Within source.HasPosition (Module.withEndMarker tokens) := by
  have hend := Module.endMarker_mem_withEndMarker tokens
  rw [Module.withEndMarker_of_tokenize h] at hend ⊢
  exact .of_forall (fun _ hmem => position_of_mem_tokenize h hmem) hend

theorem position_of_ofSource_error (h : Module.ofSource source = .error e) :
    source.HasPosition e.position := by
  rcases Module.ofSource_eq_error h with hscan | ⟨tokens, htokens, hparse⟩
  · exact position_of_tokenize_error hscan
  · exact position_of_ofTokens_error (within_of_tokenize htokens) hparse

/-- **Errors are inside the source.**  A source that is rejected, by the
    scanner or by the parser, is rejected with a wording.  The line of the
    error is one of the source, the empty one behind a line feed at the
    very end included, and its column is that of a byte of the line or the
    one behind the last. -/
theorem ofSource_error_inside (h : Module.ofSource source = .error e) :
    e.fault.message ≠ [] ∧
    1 ≤ e.position.line ∧ e.position.line ≤ source.count Byte.newline + 1 ∧
    1 ≤ e.position.column ∧
      e.position.column ≤ (source.physicalLine e.position.line).length + 1 :=
  ⟨e.fault.message_ne_nil, (position_of_ofSource_error h).bounds⟩

/-- The two ends of what is possible: behind the last line feed, and
    behind the last byte of a first line with a byte order mark. -/
theorem errors_at_ends :
    let bodiless := ascii "if x:\n"
    let marked := Scan.byteOrderMark ++ ascii "if x"
    Module.ofSource bodiless = .error ⟨⟨2, 1⟩, .missingBlock⟩ ∧
    2 ≤ bodiless.count Byte.newline + 1 ∧ 1 ≤ (bodiless.physicalLine 2).length + 1 ∧
    Module.ofSource marked = .error ⟨⟨1, 5⟩, .missing .colon⟩ ∧
    marked.physicalLine 1 = ascii "if x" ∧ 5 ≤ (marked.physicalLine 1).length + 1 := by
  intro bodiless marked
  have hblock : Module.ofSource bodiless = .error ⟨⟨2, 1⟩, .missingBlock⟩ := by
    subst bodiless
    decide +kernel
  have hcolon : Module.ofSource marked = .error ⟨⟨1, 5⟩, .missing .colon⟩ := by
    subst marked
    decide +kernel
  have hline : marked.physicalLine 1 = ascii "if x" := by
    subst marked
    decide +kernel
  obtain ⟨_, _, hlast, _, hempty⟩ := ofSource_error_inside hblock
  obtain ⟨_, _, _, _, hcolumn⟩ := ofSource_error_inside hcolon
  exact ⟨hblock, hlast, hempty, hcolon, hline, hcolumn⟩

end StyleCheck
