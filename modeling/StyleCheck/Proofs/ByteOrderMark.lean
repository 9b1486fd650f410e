import StyleCheck.Proofs.Check
import StyleCheck.Proofs.Lexer.Refinement
import StyleCheck.Proofs.Scan.Span

/-! # The Byte Order Mark

    The tokens of a source start behind its byte order mark, the lines of
    a source start with it.  So the mark cannot be seen in the tree pass,
    while the line pass takes it for the first character of the first
    line: nearly all rules on lines look at where a line starts, and a
    line with a mark on it is not blank.

    * `mark_transparent`: the lexer goes the same way as without the mark,
      three bytes further on.  So the tokens, the tree and the findings on
      it are the same, with the same positions.
    * `Line.breaks_marked_iff`: the first lines that are reported alike
      with a mark and without one.
    * `checkSource_marked`: the sources that are.
-/

namespace StyleCheck

open Byte

/-- The source with a byte order mark in front of it. -/
def Text.marked (source : Text) : Text := Scan.byteOrderMark ++ source

/-! ## Section 1: The tree pass -/

/-- The mark is behind the cursor, but its last byte is no letter. -/
theorem Lexer.lockstep_mark (source : Text) : Lockstep Scan.byteOrderMark source :=
  lockstep (by decide) ⟨by decide +kernel, by decide +kernel⟩ source

section Tree

variable {source : Text} (h : ¬ Scan.byteOrderMark <+: source)

include h

/-- The lexer starts behind the mark.  There is no other mark behind it. -/
theorem Lexer.start_marked :
    Lexer.start source.marked = (Lexer.start source).behind Scan.byteOrderMark.length := by
  have hmarked : Scan.byteOrderMark.isPrefixOf source.marked = true :=
    List.isPrefixOf_iff_prefix.mpr (List.prefix_append _ _)
  have hsource : Scan.byteOrderMark.isPrefixOf source = false := by
    rw [← Bool.not_eq_true, List.isPrefixOf_iff_prefix]
    exact h
  simp only [start, hmarked, hsource]
  rfl

/-- From there on it goes the way of the lexer without the mark. -/
theorem lex_marked : lex source.marked = lex source := by
  have hsteps := Lexer.lockstep_mark source
  have hleft := Lexer.left_behind Scan.byteOrderMark source (.start source)
  have hrun := hsteps.run (.start source) ((Lexer.start source).left source + 1)
  unfold lex
  simp only [Lexer.start_marked h]
  rw [show source.marked = Scan.byteOrderMark ++ source from rfl, hleft, hrun, bind_map_left]
  simp only [hsteps.finish]

theorem tokenize_marked : tokenize source.marked = tokenize source := by
  have hlex := lex_marked h
  rw [lex_eq, lex_eq] at hlex
  exact Lexer.mapError_inj hlex

theorem Module.ofSource_marked : Module.ofSource source.marked = Module.ofSource source := by
  unfold Module.ofSource
  rw [tokenize_marked h]

theorem treePass_marked (allDefaults : Bool) :
    treePass allDefaults source.marked = treePass allDefaults source := by
  unfold treePass
  rw [Module.ofSource_marked h]

/-- The position of an offset is that of the one three further on. -/
theorem Text.positionAt_marked {offset : Nat} (hle : offset ≤ source.length) :
    source.marked.positionAt (offset + 3) = source.positionAt offset := by
  have hmarked : source.marked.bodyStart = 3 :=
    if_pos (List.isPrefixOf_iff_prefix.mpr (List.prefix_append _ _))
  have hbare : source.bodyStart = 0 := if_neg fun hmark => h (List.isPrefixOf_iff_prefix.mp hmark)
  induction offset with
  | zero =>
    have hstart := source.marked.positionAt_bodyStart
    rw [hmarked, ← source.positionAt_bodyStart, hbare] at hstart
    exact hstart
  | succ offset ih =>
    -- The byte that is moved over is the same in both.
    have hb : source[offset]? = some source[offset] := List.getElem?_eq_getElem hle
    have hb' : source.marked[offset + 3]? = some source[offset] := by
      rw [← hb]
      exact List.getElem?_append_right (Nat.le_add_left 3 offset)
    rw [positionAt_succ (by omega) hb, ← ih (Nat.le_of_succ_le hle), ← positionAt_succ (by omega) hb']

/-- A token that stands for bytes of the source stands for the bytes three
    further on. -/
theorem standsFor_marked {token : Token} {span : Span} (hle : span.start ≤ source.length) :
    StandsFor source.marked token ⟨span.start + 3, span.stop + 3⟩ ↔
      StandsFor source token span := by
  have hslice : source.marked.slice ⟨span.start + 3, span.stop + 3⟩ = source.slice span := by
    unfold Text.slice
    rw [Nat.add_sub_add_right, Nat.add_comm span.start, ← List.drop_drop]
    rfl
  have hposition := Text.positionAt_marked h hle
  constructor
  · rintro ⟨htext, hplace⟩
    exact ⟨htext.trans hslice, hplace.trans hposition⟩
  · rintro ⟨htext, hplace⟩
    exact ⟨htext.trans hslice.symm, hplace.trans hposition.symm⟩

/-- **A byte order mark is transparent**: with a mark in front of a source
    that has none, the lexer starts three bytes further on, and takes the
    steps that it takes without the mark.  So there are the same tokens, the
    same tree and the same findings on it, or the same error.  All of them
    have the positions that they had, though the bytes are three further
    on. -/
theorem mark_transparent :
    Lexer.start source.marked = (Lexer.start source).behind Scan.byteOrderMark.length ∧
    Lexer.Lockstep Scan.byteOrderMark source ∧
    lex source.marked = lex source ∧
    lex source = (tokenize source).mapError Lexer.Stop.error ∧
    tokenize source.marked = tokenize source ∧
    Module.ofSource source.marked = Module.ofSource source ∧
    (∀ allDefaults, treeFindings allDefaults source.marked = treeFindings allDefaults source) ∧
    ∀ token span, span.start ≤ source.length →
      (StandsFor source.marked token ⟨span.start + 3, span.stop + 3⟩ ↔
        StandsFor source token span) := by
  refine ⟨Lexer.start_marked h, Lexer.lockstep_mark source, lex_marked h, lex_eq source,
    tokenize_marked h, Module.ofSource_marked h, fun allDefaults => ?_, fun _ _ hle =>
    standsFor_marked h hle⟩
  unfold treeFindings
  rw [Module.ofSource_marked h]

end Tree

/-- The string is at the fifth column, with seven bytes in front of it. -/
theorem string_behind_mark :
    ¬ Scan.byteOrderMark <+: ascii "s = f'{x}'\ny = 1\n" ∧
    tokenize (ascii "s = f'{x}'\ny = 1\n").marked = .ok
      [⟨.name (ascii "s"), ⟨1, 1⟩⟩, ⟨.symbol .equal, ⟨1, 3⟩⟩,
       ⟨.string (ascii "f'{x}'") true false, ⟨1, 5⟩⟩, ⟨.newline, ⟨1, 11⟩⟩,
       ⟨.name (ascii "y"), ⟨2, 1⟩⟩, ⟨.symbol .equal, ⟨2, 3⟩⟩, ⟨.number (ascii "1"), ⟨2, 5⟩⟩,
       ⟨.newline, ⟨2, 6⟩⟩, ⟨.endMarker, ⟨3, 1⟩⟩] ∧
    StandsFor (ascii "s = f'{x}'\ny = 1\n").marked
      ⟨.string (ascii "f'{x}'") true false, ⟨1, 5⟩⟩ ⟨7, 13⟩ := by
  have hbare : ¬ Scan.byteOrderMark <+: ascii "s = f'{x}'\ny = 1\n" := by decide
  obtain ⟨_, _, _, _, htokens, _, _, hspans⟩ := mark_transparent hbare
  exact ⟨hbare, htokens.trans rfl, (hspans _ ⟨4, 10⟩ (by decide)).mpr ⟨rfl, rfl⟩⟩

/-! ## Section 2: The first line -/

/-- What stands in front stays, if it does not end in a byte that is
    dropped. -/
theorem Text.dropTrailing_append {p : UInt8 → Bool} {front : Text}
    (hfront : ∀ b ∈ front.getLast?, p b = false) (rest : Text) :
    dropTrailing p (front ++ rest) = front ++ dropTrailing p rest := by
  have hkept : front.reverse.dropWhile p = front.reverse := by
    rw [← List.head?_reverse] at hfront
    cases hreverse : front.reverse with
    | nil => rfl
    | cons b before =>
      rw [hreverse] at hfront
      exact List.dropWhile_cons_of_neg (by simp [hfront b rfl])
  unfold dropTrailing
  rw [List.reverse_append, List.dropWhile_append]
  split
  case isTrue hempty =>
    rw [List.isEmpty_iff.mp hempty, hkept, List.reverse_reverse]
    exact (List.append_nil front).symm
  case isFalse => rw [List.reverse_append, List.reverse_reverse]

namespace Line

open Text

variable (limit : Nat) (line : Text)

/-- The mark is one character. -/
theorem isTooLong_marked :
    isTooLong limit line.marked = decide (limit < line.withoutNewline.characterCount + 1) := by
  have hlast : ∀ b ∈ Scan.byteOrderMark.getLast?, (b == newline) = false := by
    rintro b ⟨⟩
    rfl
  have hwithout : line.marked.withoutNewline = line.withoutNewline.marked :=
    dropTrailing_append hlast line
  have hcount : line.withoutNewline.marked.characterCount =
      line.withoutNewline.characterCount + 1 := by
    unfold characterCount marked
    rw [List.countP_append, Nat.add_comm]
    rfl
  unfold isTooLong
  rw [hwithout, hcount]

/-- The mark is no semicolon, and no white space. -/
theorem hasTrailingSemicolon_marked :
    hasTrailingSemicolon line.marked = hasTrailingSemicolon line := by
  have hlast : ∀ b ∈ Scan.byteOrderMark.getLast?, isSpace b = false := by
    rintro b ⟨⟩
    rfl
  have hdrop : (code line.marked).dropTrailing isSpace =
      ((code line).dropTrailing isSpace).marked := dropTrailing_append hlast (code line)
  unfold hasTrailingSemicolon
  rw [hdrop, marked, List.getLast?_append]
  cases ((code line).dropTrailing isSpace).getLast? <;> rfl

/-- The mark is code, and there is no space in it. -/
theorem lacksCommentSpacing_marked : lacksCommentSpacing line.marked =
    ((comment? line).isSome && !(ascii "  ").isSuffixOf (code line)) := by
  have hsuffix : (ascii "  ").isSuffixOf (code line).marked =
      (ascii "  ").isSuffixOf (code line) := by
    unfold List.isSuffixOf marked
    rw [List.reverse_append]
    -- Two bytes are compared, and the code may have less.
    match (code line).reverse with
    | [] => rfl
    | [b] => cases hb : space == b <;> simp [ascii, Scan.byteOrderMark, List.isPrefixOf, hb]
    | b :: c :: more => simp [ascii, List.isPrefixOf]
  have hcode : code line.marked = (code line).marked := rfl
  have hfull : ((code line).marked != []) = true := rfl
  have hcomment : comment? line.marked = comment? line := rfl
  unfold lacksCommentSpacing
  rw [hcode, hcomment, hsuffix, hfull, Bool.and_true]

/-- The mark is the one character that may stand in front. -/
theorem hasWideConstruction_marked :
    hasWideConstruction line.marked = startsWide (line.dropWhile isContinuation) := rfl

/-- A first line that is reported alike with a mark in front of it.  It is
    not as long as the limit allows, it does not start with a comment, and
    it breaks no rule that would not be broken behind the mark. -/
structure IgnoresMark : Prop where
  lineLength : line.withoutNewline.characterCount ≠ limit
  indentation : isMisindented line = false
  commentSpacing : line.head? ≠ some hash
  constructionSpacing : hasWideConstruction line = true →
    startsWide (line.dropWhile isContinuation) = true
  className : hasBadClassName line = false
  functionName : hasBadFunctionName line = false

variable {limit line}

theorem isTooLong_marked_iff : isTooLong limit line.marked = isTooLong limit line ↔
    line.withoutNewline.characterCount ≠ limit := by
  rw [isTooLong_marked, isTooLong, decide_eq_decide]
  omega

/-- Only a line that starts with its comment has no code. -/
theorem lacksCommentSpacing_marked_iff :
    lacksCommentSpacing line.marked = lacksCommentSpacing line ↔ line.head? ≠ some hash := by
  rw [lacksCommentSpacing_marked, lacksCommentSpacing]
  cases line with
  | nil => exact iff_of_true rfl (by simp)
  | cons b rest =>
    by_cases hb : b = hash
    · subst hb
      exact iff_of_false (by simp [code, comment?, ascii, List.isSuffixOf]) (by simp)
    · have hcode : (code (b :: rest) != []) = true := by simp [code, hb]
      rw [hcode, Bool.and_true]
      exact iff_of_true rfl (by simpa using hb)

/-- What is wide behind a mark is wide without it. -/
theorem hasWideConstruction_of_marked (h : hasWideConstruction line.marked = true) :
    hasWideConstruction line = true := by
  rw [hasWideConstruction_marked] at h
  cases line with
  | nil => cases h
  | cons b rest =>
    unfold hasWideConstruction
    by_cases hb : isContinuation b = true
    · -- An ill-formed line: the first character of it goes up to the same byte.
      have hhash : b ≠ hash := by
        rintro rfl
        cases hb
      rw [List.dropWhile_cons_of_pos hb] at h
      simp [dropCharacter, hhash, h]
    · rw [List.dropWhile_cons_of_neg hb] at h
      simp [h]

/-- All rules look alike at lines that ignore the mark, and at no others. -/
theorem breaks_marked_iff :
    (∀ rule ∈ Rule.ofLines, breaks limit line.marked rule = breaks limit line rule) ↔
      IgnoresMark limit line := by
  constructor
  · intro h
    refine ⟨isTooLong_marked_iff.mp ?_, ?_, lacksCommentSpacing_marked_iff.mp ?_, ?_, ?_, ?_⟩
    · exact h .lineLength (by decide)
    · exact (h .indentation (by decide)).symm
    · exact h .commentSpacing (by decide)
    · intro hwide
      rw [← hasWideConstruction_marked, ← hwide]
      exact h .constructionSpacing (by decide)
    · exact (h .className (by decide)).symm
    · exact (h .functionName (by decide)).symm
  · intro h rule hrule
    cases rule with
    | lineLength => exact isTooLong_marked_iff.mpr h.lineLength
    | indentation => exact h.indentation.symm
    | trailingSemicolon => exact hasTrailingSemicolon_marked line
    | commentSpacing => exact lacksCommentSpacing_marked_iff.mpr h.commentSpacing
    | todoComment => rfl
    | constructionSpacing =>
      exact Bool.eq_iff_iff.mpr ⟨hasWideConstruction_of_marked, h.constructionSpacing⟩
    | className => exact h.className.symm
    | functionName => exact h.functionName.symm
    | blankLines | argumentName | variableName | mutableDefault => rfl

end Line

/-! ## Section 3: The line pass -/

/-- The mark belongs to the first line, and is a line if there is none. -/
theorem Text.splitLines_marked (source : Text) :
    source.marked.splitLines = (source.splitLines.headD []).marked :: source.splitLines.tail := by
  cases hlines : source.splitLines with
  | nil =>
    obtain rfl := eq_nil_of_splitLines hlines
    rfl
  | cons first more =>
    have hmark : newline ∉ Scan.byteOrderMark := by decide
    exact splitLines_append hmark hlines

namespace Line

variable {limit i : Nat} {lines : List Text} {rule : Rule}

/-- Where no three lines are in front, a line stands by itself.  What is
    not there breaks no rule, as an empty line. -/
theorem breaksAt_zero : breaksAt limit lines 0 rule = breaks limit (lines.headD []) rule := by
  cases lines with
  | nil => cases rule <;> rfl
  | cons line lines =>
    cases rule with
    | blankLines => simp [breaksAt, EndsBlanks, breaks]
    | _ => rfl

/-- Behind the first line, the lines are the same. -/
theorem getElem?_cons_tail (first : Text) (k : Nat) :
    (first :: lines.tail)[k + 1]? = lines[k + 1]? := by
  rw [List.getElem?_cons_succ, List.getElem?_tail]

/-- A marked line is not blank, so three blank lines in front of the
    fourth line are only two. -/
theorem endsBlanks_marked (first : Text) :
    EndsBlanks (first.marked :: lines.tail) i ↔ EndsBlanks lines i ∧ i ≠ 3 := by
  by_cases hi : 3 ≤ i
  · obtain ⟨n, rfl⟩ := Nat.exists_eq_add_of_le' hi
    have hmark : first.marked ≠ [newline] := by
      intro h
      cases congrArg List.length h
    cases n with
    | zero => simp [EndsBlanks, hmark]
    | succ n => simp [EndsBlanks]
  · exact iff_of_false (fun h => hi h.2.1) (fun h => hi h.1.2.1)

/-- Behind the first line, a mark matters to the fourth only. -/
theorem findingsAt_marked {first : Text} (hi : i ≠ 0) :
    findingsAt limit (first.marked :: lines.tail) i = findingsAt limit lines i ↔
      ¬ (i = 3 ∧ EndsBlanks lines 3) := by
  obtain ⟨k, rfl⟩ := Nat.exists_eq_succ_of_ne_zero hi
  have hblanks : breaksAt limit (first.marked :: lines.tail) (k + 1) .blankLines =
      breaksAt limit lines (k + 1) .blankLines ↔ ¬ (k + 1 = 3 ∧ EndsBlanks lines 3) := by
    simp only [breaksAt, decide_eq_decide, endsBlanks_marked]
    constructor
    · rintro h ⟨hk, hends⟩
      exact (h.mpr (hk ▸ hends)).2 hk
    · exact fun h => ⟨fun hends => hends.1, fun hends => ⟨hends, fun hk => h ⟨hk, hk ▸ hends⟩⟩⟩
  rw [findingsAt_eq_iff, ← hblanks]
  constructor
  · intro h
    exact h .blankLines (by decide)
  · intro h rule _
    cases rule with
    | blankLines => exact h
    | _ => simp only [breaksAt, getElem?_cons_tail]

end Line

/-- The mark is not seen in the line pass: the first line ignores it, and
    does not count as one of three blank lines. -/
structure Text.IgnoresMark (limit : Nat) (source : Text) : Prop where
  firstLine : Line.IgnoresMark limit (source.splitLines.headD [])
  fourthLine : ¬ Line.EndsBlanks source.splitLines 3

variable {limit : Nat} {source : Text}

theorem lineFindings_marked_iff :
    lineFindings limit source.marked = lineFindings limit source ↔
      source.IgnoresMark limit := by
  have hfirst : Line.findingsAt limit source.marked.splitLines 0 =
      Line.findingsAt limit source.splitLines 0 ↔
        Line.IgnoresMark limit (source.splitLines.headD []) := by
    rw [Line.findingsAt_eq_iff, ← Line.breaks_marked_iff, Text.splitLines_marked]
    simp only [Line.breaksAt_zero, List.headD_cons]
  rw [lineFindings_eq_iff]
  constructor
  · intro h
    refine ⟨hfirst.mp (h 0), ?_⟩
    have hfourth := h 3
    rw [Text.splitLines_marked, Line.findingsAt_marked (by decide)] at hfourth
    exact fun hends => hfourth ⟨rfl, hends⟩
  · intro h i
    by_cases hi : i = 0
    · rw [hi]
      exact hfirst.mpr h.firstLine
    · rw [Text.splitLines_marked, Line.findingsAt_marked hi]
      exact fun hends => h.fourthLine hends.2

/-- What the check of a source adds for its path. -/
theorem findingsFor_checkSource (options : Options) (path source : Text) (report : Report) :
    (checkSource options path source report).1.findingsFor path =
      report.findingsFor path ++
        sourceFindings options.maxLineLength options.checkAllDefaults source := by
  unfold sourceFindings treePass
  cases h : Module.ofSource source with
  | ok m =>
    rw [checkSource_of_ok options path source report h, Report.findingsFor_append_self,
      Report.findingsFor_append_self, List.append_assoc]
  | error error =>
    rw [checkSource_of_error options path source report h, Report.findingsFor_append_self,
      List.append_nil]

/-- **The byte order mark**: with a mark in front of a source that has
    none, the check has the same result, and the tree pass adds the same
    findings.  The line pass adds the same at all lines but the first and
    the fourth.  The report is the same if and only if the first line
    ignores the mark, and is not the first of just three blank lines. -/
theorem checkSource_marked (h : ¬ Scan.byteOrderMark <+: source) (options : Options) (path : Text)
    (report : Report) :
    (checkSource options path source.marked report).2 =
      (checkSource options path source report).2 ∧
    treePass options.checkAllDefaults source.marked = treePass options.checkAllDefaults source ∧
    (∀ i, i ≠ 0 → i ≠ 3 →
      (lineFindings options.maxLineLength source.marked).filter (·.line = i + 1) =
        (lineFindings options.maxLineLength source).filter (·.line = i + 1)) ∧
    (checkSource options path source.marked report = checkSource options path source report ↔
      source.IgnoresMark options.maxLineLength) := by
  have htree : treeFindings options.checkAllDefaults source.marked =
      treeFindings options.checkAllDefaults source := by
    unfold treeFindings
    rw [Module.ofSource_marked h]
  have hpass := treePass_marked h options.checkAllDefaults
  refine ⟨?_, hpass, ?_, ?_⟩
  · unfold checkSource
    rw [htree]
    cases treeFindings options.checkAllDefaults source <;> rfl
  · intro i hfirst hfourth
    rw [filter_lineFindings, filter_lineFindings, Text.splitLines_marked,
      Line.findingsAt_marked hfirst]
    exact fun hends => hfourth hends.1
  · rw [← lineFindings_marked_iff]
    constructor
    -- The findings of the path end with those of the two passes.
    · intro hsame
      have hmarked := findingsFor_checkSource options path source.marked report
      rw [hsame, findingsFor_checkSource] at hmarked
      have hadded := List.append_cancel_left hmarked
      unfold sourceFindings at hadded
      rw [hpass] at hadded
      exact (List.append_cancel_right hadded).symm
    · intro hsame
      unfold checkSource
      rw [hsame, htree]

/-- Behind a plain first line there may be three blank lines. -/
theorem mark_ignored_by_import :
    ¬ Scan.byteOrderMark <+: ascii "import os\n\n\n\nx = 1;\n" ∧
    checkSource {} (ascii "a.py") (ascii "import os\n\n\n\nx = 1;\n").marked .empty =
      checkSource {} (ascii "a.py") (ascii "import os\n\n\n\nx = 1;\n") .empty := by
  have hbare : ¬ Scan.byteOrderMark <+: ascii "import os\n\n\n\nx = 1;\n" := by decide
  obtain ⟨_, _, _, hiff⟩ := checkSource_marked hbare {} (ascii "a.py") .empty
  have hfirst : Line.IgnoresMark 79 (ascii "import os\n") :=
    ⟨by decide, rfl, by decide, fun hwide => Bool.noConfusion hwide, rfl, rfl⟩
  have hfourth : ¬ Line.EndsBlanks (ascii "import os\n\n\n\nx = 1;\n").splitLines 3 := by decide
  exact ⟨hbare, hiff.mpr ⟨hfirst, hfourth⟩⟩

/-- A comment at the start of a source is a comment on code behind a mark. -/
theorem mark_seen_by_comment : ∃ source : Text, ¬ Scan.byteOrderMark <+: source ∧
    checkSource {} (ascii "a.py") source.marked .empty ≠
      checkSource {} (ascii "a.py") source .empty := by
  refine ⟨ascii "# a\n", by decide, fun hsame => ?_⟩
  have hmarked : (checkSource {} (ascii "a.py") (ascii "# a\n").marked .empty).1.findingsFor
      (ascii "a.py") = [⟨1, .commentSpacing⟩] := rfl
  have hbare : (checkSource {} (ascii "a.py") (ascii "# a\n") .empty).1.findingsFor
      (ascii "a.py") = [] := rfl
  rw [hsame, hbare] at hmarked
  cases hmarked

end StyleCheck
