import StyleCheck.Inputs
import StyleCheck.LineRules
import StyleCheck.Proofs.Text.Characters
import StyleCheck.Proofs.Text.Newlines

/-! # The Text of a File

    A file is read as bytes, and all that is done to them is done byte by
    byte: terminators are normalized, lines are cut, and their lengths
    are counted.  None of it goes through a character.

    * `Text.exists_normalizeNewlines_encode`, `Text.exists_splitLines_encode`:
      normalized texts and lines are made of characters.
    * `Line.isTooLong_iff`: the length of a line.
    * `readInto_run`: the slot that a text is read into.
    * `readSource_characters`: what a file is read to.
-/

namespace StyleCheck

open Byte Text

/-! ## Section 1: Characters of normalized texts and lines -/

namespace Text

theorem carriageReturn_mem_encodeChar {c : Char} :
    carriageReturn ∈ String.utf8EncodeChar c ↔ c = '\r' :=
  mem_encodeChar_iff rfl

theorem newline_mem_encodeChar {c : Char} : newline ∈ String.utf8EncodeChar c ↔ c = '\n' :=
  mem_encodeChar_iff rfl

/-- Normalizing drops characters and puts others in their place. -/
theorem exists_normalizeNewlines_encode (chars : List Char) :
    ∃ others, normalizeNewlines (encode chars) = encode others := by
  induction chars with
  | nil => exact ⟨[], rfl⟩
  | cons c chars ih =>
    obtain ⟨others, hothers⟩ := ih
    by_cases hc : c = '\r'
    · subst hc
      rw [show encode ('\r' :: chars) = carriageReturn :: encode chars from rfl]
      by_cases hnext : (encode chars).head? = some newline
      · refine ⟨others, ?_⟩
        rw [normalizeNewlines, if_pos rfl, if_pos hnext, hothers]
      · refine ⟨'\n' :: others, ?_⟩
        rw [normalizeNewlines_carriageReturn hnext, hothers]
        rfl
    · refine ⟨c :: others, ?_⟩
      have hbytes : carriageReturn ∉ String.utf8EncodeChar c :=
        fun hmem => hc (carriageReturn_mem_encodeChar.mp hmem)
      rw [encode_cons, normalizeNewlines_append_left hbytes, hothers, encode_cons]

/-- Each line is made of characters. -/
theorem exists_splitLines_encode (chars : List Char) :
    ∃ lines : List (List Char), splitLines (encode chars) = lines.map encode := by
  induction chars with
  | nil => exact ⟨[], rfl⟩
  | cons c chars ih =>
    obtain ⟨lines, hlines⟩ := ih
    by_cases hc : c = '\n'
    · subst hc
      refine ⟨['\n'] :: lines, ?_⟩
      rw [show encode ('\n' :: chars) = newline :: encode chars from rfl, splitLines_newline, hlines]
      rfl
    · have hbytes : newline ∉ String.utf8EncodeChar c :=
        fun hmem => hc (newline_mem_encodeChar.mp hmem)
      cases lines with
      | nil =>
        refine ⟨[[c]], ?_⟩
        rw [encode_cons, eq_nil_of_splitLines hlines, List.append_nil,
          splitLines_of_notMem hbytes String.utf8EncodeChar_ne_nil, List.map_singleton,
          encode_singleton]
      -- The character belongs to the first line of the others.
      | cons first more =>
        refine ⟨(c :: first) :: more, ?_⟩
        rw [encode_cons, splitLines_append hbytes hlines]
        rfl

/-- What stands in front of a byte that is a character is made of characters
    too. -/
theorem exists_encode_of_append {front : Text} {b : UInt8} {d : Char} {chars : List Char}
    (hd : String.utf8EncodeChar d = [b]) (h : front ++ [b] = encode chars) :
    ∃ before, front = encode before := by
  rcases List.eq_nil_or_concat chars with rfl | ⟨before, c, rfl⟩
  · simp at h
  · rw [List.concat_eq_append, encode_append, encode_singleton] at h
    -- The last byte is one of the last character, which has no others then.
    have hlast : b ∈ String.utf8EncodeChar c := by
      have hend := congrArg List.getLast? h
      have hbytes := List.getLast?_eq_some_getLast (@String.utf8EncodeChar_ne_nil c)
      rw [List.getLast?_concat, List.getLast?_append, hbytes, Option.some_or, ← hbytes] at hend
      exact List.mem_of_getLast? hend.symm
    obtain rfl := (mem_encodeChar_iff hd).mp hlast
    rw [hd] at h
    exact ⟨before, List.append_cancel_right h⟩

/-- A line has characters in front of its line feed. -/
theorem exists_front {t line : Text} {chars : List Char} (h : line ∈ t.splitLines)
    (hline : line = encode chars) :
    ∃ front before, newline ∉ front ∧ (line = front ∨ line = front ++ [newline]) ∧
      front = encode before := by
  obtain ⟨front, hfront, hend | ⟨hend, _⟩⟩ := exists_of_mem_splitLines h
  · obtain ⟨before, hbefore⟩ := exists_encode_of_append (d := '\n') rfl (hend.symm.trans hline)
    exact ⟨front, before, hfront, .inr hend, hbefore⟩
  · exact ⟨front, chars, hfront, .inl hend, hend.symm.trans hline⟩

end Text

/-! ## Section 2: Lengths of lines -/

/-- A line with its line feed or without one is too long if it has too
    many characters in front of it. -/
theorem Line.isTooLong_iff {limit : Nat} {line front : Text} {chars : List Char}
    (hfront : newline ∉ front) (hline : line = front ∨ line = front ++ [newline])
    (hchars : front.decode? = some chars) :
    isTooLong limit line = true ↔ limit < chars.length := by
  have hwithout : line.withoutNewline = front := by
    rcases hline with rfl | rfl
    · exact withoutNewline_of_notMem hfront
    · exact withoutNewline_append hfront
  rw [decode?_eq_some_iff] at hchars
  unfold isTooLong
  rw [hwithout, hchars, characterCount_encode, decide_eq_true_eq]

/-! ## Section 3: Reading -/

section Reading

variable (find? : Text → Option Node) (path : Text)

/-- The slot is left alone by a node without a text. -/
theorem readInto_eq (held : Text) :
    (readInto find? path).run.run held =
      match find? path with
      | none => (.error (.unreadable path), held)
      | some node =>
        match node.content.firstIllFormed? with
        | some offset => (.error (.notUtf8 path offset), held)
        | none => (.ok (), node.content.normalizeNewlines) := by
  unfold readInto
  cases find? path with
  | none => rfl
  | some node =>
    cases hform : node.content.firstIllFormed? with
    | none =>
      simp only [hform]
      rfl
    | some offset =>
      simp only [hform]
      rfl

/-- The slot holds the text of the file, or what it has held before. -/
theorem readInto_run (held : Text) :
    (readInto find? path).run.run held =
      match readSource find? path with
      | .ok text => (.ok (), text)
      | .error error => (.error error, held) := by
  unfold readSource
  rw [readInto_eq, readInto_eq]
  cases find? path with
  | none => rfl
  | some node => cases hform : node.content.firstIllFormed? <;> simp only [hform]

variable {find? path} {text : Text}

/-- The files that are read are those whose bytes can be decoded. -/
theorem readSource_eq_ok_iff : readSource find? path = .ok text ↔
    ∃ node chars, find? path = some node ∧ node.content.decode? = some chars ∧
      text = node.content.normalizeNewlines := by
  unfold readSource
  rw [readInto_eq]
  cases find? path with
  | none => simp
  | some node =>
    cases hform : node.content.firstIllFormed? with
    | some offset =>
      have hnone : node.content.decode? = none := by
        rw [Option.eq_none_iff_forall_ne_some]
        intro chars hchars
        have hwell := firstIllFormed?_eq_none_iff.mpr ⟨chars, hchars⟩
        rw [hform] at hwell
        cases hwell
      simp [hform, hnone]
    | none =>
      obtain ⟨chars, hchars⟩ := firstIllFormed?_eq_none_iff.mp hform
      simp [hform, hchars, eq_comm]

end Reading

/-- **The characters of a file**: a file is read if its bytes can be decoded.
    Then its text has no carriage return, the text and each line of it can
    be decoded, and the characters of the lines make up those of the text.
    A line is too long under a limit exactly if more characters than that
    stand in front of its line feed, or of its end if it has none.  The
    slot that the file is read into holds the text behind that, and what it
    has held before if the file is not read. -/
theorem readSource_characters (find? : Text → Option Node) (path : Text) :
    (∀ text, readSource find? path = .ok text ↔ ∃ node chars, find? path = some node ∧
      node.content.decode? = some chars ∧ text = node.content.normalizeNewlines) ∧
    (∀ text, readSource find? path = .ok text → carriageReturn ∉ text ∧
      ∃ lines : List (List Char), text.decode? = some lines.flatten ∧
        text.splitLines.map decode? = lines.map some ∧
        ∀ line ∈ text.splitLines, carriageReturn ∉ line ∧ ∃ front chars, newline ∉ front ∧
          (line = front ∨ line = front ++ [newline]) ∧ front.decode? = some chars ∧
          ∀ limit, Line.isTooLong limit line = true ↔ limit < chars.length) ∧
    ∀ held, (readInto find? path).run.run held =
      match readSource find? path with
      | .ok text => (.ok (), text)
      | .error error => (.error error, held) := by
  refine ⟨fun text => readSource_eq_ok_iff, ?_, readInto_run find? path⟩
  intro text hread
  obtain ⟨node, original, _, hdecode, rfl⟩ := readSource_eq_ok_iff.mp hread
  obtain ⟨chars, hchars⟩ := exists_normalizeNewlines_encode original
  rw [← decode?_eq_some_iff.mp hdecode] at hchars
  obtain ⟨lines, hlines⟩ := exists_splitLines_encode chars
  rw [← hchars] at hlines
  have hnone := carriageReturn_notMem_normalizeNewlines node.content
  -- The lines have all bytes of the text, and so all its characters.
  have hflatten : encode lines.flatten = node.content.normalizeNewlines := by
    rw [encode_flatten, ← hlines, flatten_splitLines]
  refine ⟨hnone, lines, decode?_eq_some_iff.mpr hflatten.symm, ?_, ?_⟩
  · rw [hlines, List.map_map]
    exact List.map_congr_left fun line _ => decode?_encode line
  · intro line hmem
    have hbytes : carriageReturn ∉ line := by
      intro hb
      rw [← flatten_splitLines node.content.normalizeNewlines] at hnone
      exact hnone (List.mem_flatten_of_mem hmem hb)
    obtain ⟨characters, _, hline⟩ := List.mem_map.mp (hlines ▸ hmem)
    obtain ⟨front, before, hfront, hend, hbefore⟩ := exists_front hmem hline.symm
    have hdecoded : front.decode? = some before := decode?_eq_some_iff.mpr hbefore
    exact ⟨hbytes, front, before, hfront, hend, hdecoded,
      fun _ => Line.isTooLong_iff hfront hend hdecoded⟩

/-- The first line has four bytes in front of its line feed, and three
    characters. -/
theorem characters_of_accented_file :
    let content : Text := [0xC3, 0xA9] ++ ascii "=1\r\n#\r"
    let line : Text := [0xC3, 0xA9] ++ ascii "=1\n"
    readSource (fun _ => some (.file content)) (ascii "a.py") = .ok (line ++ ascii "#\n") ∧
    line ∈ splitLines (line ++ ascii "#\n") ∧
    ∀ limit, Line.isTooLong limit line = true ↔ limit < 3 := by
  intro content line
  have hread : readSource (fun _ => some (.file content)) (ascii "a.py") =
      .ok (line ++ ascii "#\n") := by
    have hdecode : content.decode? = some ['é', '=', '1', '\r', '\n', '#', '\r'] := by
      subst content
      exact decode?_eq_some_iff.mpr (by decide)
    refine readSource_eq_ok_iff.mpr ⟨.file content, _, rfl, hdecode, ?_⟩
    subst content line
    decide
  have hmem : line ∈ splitLines (line ++ ascii "#\n") := by
    subst line
    decide
  obtain ⟨_, htext, _⟩ := readSource_characters (fun _ => some (.file content)) (ascii "a.py")
  obtain ⟨_, _, _, _, hlines⟩ := htext _ hread
  obtain ⟨_, front, chars, hfront, hend, hchars, hlong⟩ := hlines line hmem
  -- The line ends with a line feed, and the rest of it is three characters.
  have hline : line = encode ['é', '=', '1'] ++ [newline] := by
    subst line
    decide
  have hfront : front = encode ['é', '=', '1'] := by
    rcases hend with rfl | hend
    · exact absurd (hline ▸ List.mem_concat_self) hfront
    · exact List.append_cancel_right (hend.symm.trans hline)
  rw [hfront, decode?_encode] at hchars
  obtain rfl := Option.some.inj hchars
  exact ⟨hread, hmem, hlong⟩

end StyleCheck
