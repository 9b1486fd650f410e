import StyleCheck.Proofs.Parsing.Suffix
import StyleCheck.Syntax.Grammar.Statement

/-! # Signatures

    The parameters of a function are written in an order that says which
    group each of them belongs to: positional-only ones in front of a slash,
    regular ones, a star with a name or without, keyword-only ones, and one
    behind two stars.  One loop reads them, and it moves what it has read
    when it comes to the slash.  It accepts just the lists of this kind, and
    its groups are those that were written.

    * `Signature`: the groups, with the defaults that their parameters have.
    * `ListedEntries`: a list of entries between commas, in the tokens.
    * `Parameters.add`: what one more entry does to what has been read.
    * `Signature.foldlM_add_iff`: the entries that can be added are those of a
      signature whose defaults come last.
    * `functionDef_signature`: the parameters of a function.
-/

namespace StyleCheck

open StyleCheck.Parser

/-! ## Section 1: Signatures -/

/-- A parameter, and its default if it has one. -/
abbrev Parameter : Type := Text × Option Expr

/-- An entry of a parameter list, apart from the one behind two stars. -/
inductive ParameterEntry where
  | parameter (parameter : Parameter)
  | slash
  | star (name : Option Text)

/-- The parameters of a function by the groups they belong to. -/
structure Signature where
  positionalOnly : List Parameter
  regular : List Parameter
  star : Star
  keywordOnly : List Parameter
  doubleStar : Option Text
  behind_star : star = .absent → keywordOnly = []

namespace Star

/-- The entry that is written for a star. -/
def entries : Star → List ParameterEntry
  | absent => []
  | bare => [.star none]
  | named name => [.star (some name)]

end Star

namespace Signature

/-- The parameters that may be given by position. -/
def positional (s : Signature) : List Parameter := s.positionalOnly ++ s.regular

/-- The entries as they are written.  There is a slash only behind
    positional-only parameters. -/
def entries (s : Signature) : List ParameterEntry :=
  s.positionalOnly.map .parameter ++ (if s.positionalOnly = [] then [] else [.slash]) ++
    s.regular.map .parameter ++ s.star.entries ++ s.keywordOnly.map .parameter

/-- What a function keeps of its parameters: the names of each group, and
    the defaults of those that may be given by position. -/
def parameters (s : Signature) : Parameters where
  positionalOnly := s.positionalOnly.map (·.1)
  regular := s.regular.map (·.1)
  star := s.star
  keywordOnly := s.keywordOnly.map (·.1)
  doubleStar := s.doubleStar
  defaults := s.positional.filterMap (·.2)

/-- Behind a positional parameter with a default, all of them have one. -/
def DefaultsLast (s : Signature) : Prop :=
  s.positional.Pairwise fun p q => p.2.isSome → q.2.isSome

end Signature

/-! ## Section 2: Entries in a token stream -/

/-- An annotation, or none. -/
inductive Annotation (starred : Bool) : List Token → List Token → Prop where
  | none (ts : List Token) : Annotation starred ts ts
  | some (at_ : Position) {ts rest : List Token} {e : Expr}
      (h : (if starred then Grammar.starExpression grammar else grammar.expression) ts =
        .ok (e, rest)) : Annotation starred (⟨.symbol .colon, at_⟩ :: ts) rest

/-- An entry is written from the first tokens up to the second.  A default
    is an expression behind an equals sign. -/
inductive Written : ParameterEntry → List Token → List Token → Prop where
  | required {x : Text} {at_ : Position} {ts rest : List Token} (h : Annotation false ts rest) :
      Written (.parameter (x, none)) (⟨.name x, at_⟩ :: ts) rest
  | optional {x : Text} {e : Expr} {at_ equal : Position} {ts mid rest : List Token}
      (h : Annotation false ts (⟨.symbol .equal, equal⟩ :: mid))
      (hvalue : grammar.expression mid = .ok (e, rest)) :
      Written (.parameter (x, some e)) (⟨.name x, at_⟩ :: ts) rest
  | slash {at_ : Position} {rest : List Token} : Written .slash (⟨.symbol .slash, at_⟩ :: rest) rest
  | bareStar {at_ : Position} {rest : List Token} :
      Written (.star none) (⟨.symbol .star, at_⟩ :: rest) rest
  | namedStar {x : Text} {at_ place : Position} {ts rest : List Token} (h : Annotation true ts rest) :
      Written (.star (some x)) (⟨.symbol .star, at_⟩ :: ⟨.name x, place⟩ :: ts) rest

/-- Entries between commas, and the name behind two stars at their end.  If
    there is anything, a comma may follow. -/
inductive ListedEntries : List ParameterEntry → Option Text → List Token → List Token → Prop where
  | nothing (rest : List Token) : ListedEntries [] none rest rest
  | last {entry : ParameterEntry} {ts rest : List Token} (h : Written entry ts rest) :
      ListedEntries [entry] none ts rest
  | next {entry : ParameterEntry} {entries : List ParameterEntry} {keywords : Option Text}
      {comma : Position} {ts mid rest : List Token}
      (h : Written entry ts (⟨.symbol .comma, comma⟩ :: mid))
      (hmore : ListedEntries entries keywords mid rest) : ListedEntries (entry :: entries) keywords ts rest
  | keywords {x : Text} {at_ place : Position} {ts rest : List Token} (h : Annotation false ts rest) :
      ListedEntries [] (some x) (⟨.symbol .doubleStar, at_⟩ :: ⟨.name x, place⟩ :: ts) rest
  | keywordsComma {x : Text} {at_ place comma : Position} {ts rest : List Token}
      (h : Annotation false ts (⟨.symbol .comma, comma⟩ :: rest)) :
      ListedEntries [] (some x) (⟨.symbol .doubleStar, at_⟩ :: ⟨.name x, place⟩ :: ts) rest

variable {ts mid rest : List Token} {entry : ParameterEntry} {entries : List ParameterEntry}
  {keywords : Option Text} {starred : Bool} {read read' : Parameters}

theorem Annotation.suffix (h : Annotation starred ts rest) : rest <:+ ts := by
  cases h with
  | none => exact List.suffix_refl _
  | some at_ h =>
    refine List.IsSuffix.trans ?_ (List.suffix_cons _ _)
    cases starred with
    | true => exact (Grammar.starExpression_keeps grammar_keep).suffix _ _ _ h
    | false => exact grammar_keep.expression.suffix _ _ _ h

/-- An entry has a token at least. -/
theorem Written.suffix (h : Written entry ts rest) : rest <:+ ts.tail := by
  cases h with
  | required h => exact h.suffix
  | optional h hvalue =>
    exact (grammar_keep.expression.suffix _ _ _ hvalue).trans
      ((List.suffix_cons _ _).trans h.suffix)
  | slash => exact List.suffix_refl _
  | bareStar => exact List.suffix_refl _
  | namedStar h => exact h.suffix.trans (List.suffix_cons _ _)

theorem annotation_of_annotated (h : Annotation starred ts rest)
    (hcolon : (front rest).lexeme ≠ .symbol .colon) :
    Grammar.typeHint grammar true starred ts = .ok ((), rest) := by
  unfold Grammar.typeHint
  cases h with
  | none => simp [hcolon]
  | some at_ h =>
    cases starred with
    | true => simp [show Grammar.starExpression grammar _ = _ from h]
    | false => simp [show grammar.expression _ = _ from h]

theorem typeHint_ensures (ts : List Token) : Ensures (Grammar.typeHint grammar true starred) ts
    fun _ rest => Annotation starred ts rest := by
  unfold Grammar.typeHint
  rw [if_pos rfl, ensures_bind, ensures_accept]
  refine ⟨fun hcolon => ?_, fun _ => ?_⟩
  · obtain ⟨p, hts⟩ := eq_cons_of_front hcolon (by simp)
    rw [if_pos rfl]
    cases starred with
    | true =>
      rw [if_pos rfl, ensures_bind]
      intro e rest h
      rw [ensures_pure, hts]
      exact .some p h
    | false =>
      rw [if_neg Bool.false_ne_true, ensures_bind]
      intro e rest h
      rw [ensures_pure, hts]
      exact .some p h
  · rw [if_neg Bool.false_ne_true, ensures_pure]
    exact .none ts

/-! ## Section 3: One more entry -/

namespace Parameters

/-- What has been read with one more entry, unless it may not stand there:
    a slash is the first of its kind and has names in front of it, a star is
    the first of its kind, and behind a default there is another. -/
def add (read : Parameters) : ParameterEntry → Option Parameters
  | .parameter (x, default) =>
    if read.star = .absent then
      match default with
      | some value =>
        some { read with regular := read.regular ++ [x], defaults := read.defaults ++ [value] }
      | none =>
        if read.defaults = [] then some { read with regular := read.regular ++ [x] } else none
    else some { read with keywordOnly := read.keywordOnly ++ [x] }
  | .slash =>
    if read.star = .absent ∧ read.positionalOnly = [] ∧ read.regular ≠ [] then
      some { read with positionalOnly := read.regular, regular := [] }
    else none
  | .star name =>
    if read.star = .absent then some { read with star := name.elim .bare .named } else none

variable {x : Text}

theorem add_optional {value : Expr} (h : read.star = .absent) :
    read.add (.parameter (x, some value)) = some { read with
      regular := read.regular ++ [x], defaults := read.defaults ++ [value] } :=
  if_pos h

theorem add_required (h : read.star = .absent) : read.add (.parameter (x, none)) =
    if read.defaults = [] then some { read with regular := read.regular ++ [x] } else none :=
  if_pos h

/-- In front of a star, a parameter may only lack a default if all in front
    of it do. -/
theorem add_positional {p : Parameter} (hstar : read.star = .absent)
    (h : read.add (.parameter p) = some read') :
    read' = { read with regular := read.regular ++ [p.1], defaults := read.defaults ++ p.2.toList } ∧
      (p.2 = none → read.defaults = []) := by
  obtain ⟨x, _ | value⟩ := p
  · rw [add_required hstar, Option.ite_none_right_eq_some] at h
    exact ⟨by simp [← Option.some.inj h.2], fun _ => h.1⟩
  · exact ⟨(Option.some.inj ((add_optional hstar).symm.trans h)).symm, nofun⟩

theorem add_keywordOnly {p : Parameter} (h : read.star ≠ .absent) :
    read.add (.parameter p) = some { read with keywordOnly := read.keywordOnly ++ [p.1] } :=
  if_neg h

end Parameters

namespace Grammar

/-- Where an entry ends. -/
def endsEntry : Lexeme → Bool
  | .symbol .comma | .symbol (.closing .round) => true
  | _ => false

theorem ne_of_endsEntry {l l' : Lexeme} (h : endsEntry l' = true) (hl : endsEntry l = false) :
    l' ≠ l := by
  rintro rfl
  rw [hl] at h
  cases h

/-- Behind an entry, the list goes on with a comma. -/
def goOn (read : Parameters) : Parser (Next Parameters Parameters) := do
  if ← accept .comma then pure (.again read) else pure (.done read)

theorem parameter_of_add (h : Written entry ts rest) (hends : endsEntry (front rest).lexeme = true)
    (hadd : read.add entry = some read') :
    parameter grammar (.closing .round) true read ts = goOn read' rest := by
  have hcolon := ne_of_endsEntry hends (l := .symbol .colon) rfl
  cases h with
  | required h =>
    have hequal := ne_of_endsEntry hends (l := .symbol .equal) rfl
    have hannotation := annotation_of_annotated h hcolon
    by_cases hstar : read.star = .absent
    · by_cases hdefaults : read.defaults = []
      · simp [Parameters.add, hstar, hdefaults] at hadd
        subst hadd
        simp [parameter, goOn, hannotation, hequal, hstar, hdefaults]
      · simp [Parameters.add, hstar, hdefaults] at hadd
    · simp [Parameters.add, hstar] at hadd
      subst hadd
      simp [parameter, goOn, hannotation, hequal, hstar]
  | optional h hvalue =>
    have hannotation := annotation_of_annotated h (by simp)
    by_cases hstar : read.star = .absent
    · simp [Parameters.add, hstar] at hadd
      subst hadd
      simp [parameter, goOn, hannotation, hvalue, hstar]
    · simp [Parameters.add, hstar] at hadd
      subst hadd
      simp [parameter, goOn, hannotation, hvalue, hstar]
  | slash =>
    obtain ⟨⟨hstar, hfirst, hnames⟩, hadd⟩ := Option.ite_none_right_eq_some.mp hadd
    obtain rfl := Option.some.inj hadd
    simp [parameter, goOn, hstar, hfirst, hnames]
  | bareStar =>
    obtain ⟨hstar, hadd⟩ := Option.ite_none_right_eq_some.mp hadd
    obtain rfl := Option.some.inj hadd
    have hword : (front rest).lexeme.isWord = false := by
      cases hlexeme : (front rest).lexeme with
      | symbol => rfl
      | _ =>
        rw [hlexeme] at hends
        cases hends
    simp [parameter, goOn, hstar, hword]
  | namedStar h =>
    obtain ⟨hstar, hadd⟩ := Option.ite_none_right_eq_some.mp hadd
    obtain rfl := Option.some.inj hadd
    have hword : ∀ x, (Lexeme.name x).isWord = true := fun _ => rfl
    simp [parameter, goOn, annotation_of_annotated h hcolon, hstar, hword]

/-- A parameter without a default may not follow one that has one. -/
theorem parameter_of_required {x : Text} (h : Written (.parameter (x, none)) ts rest)
    (hends : endsEntry (front rest).lexeme = true) (hstar : read.star = .absent)
    (hdefaults : read.defaults ≠ []) : ∃ at_, ⟨.name x, at_⟩ ∈ ts ∧
      parameter grammar (.closing .round) true read ts = .failed ⟨at_, .missingDefault⟩ rest := by
  cases h with
  | @required _ at_ _ _ h =>
    have hannotation := annotation_of_annotated h (ne_of_endsEntry hends rfl)
    have hequal := ne_of_endsEntry hends (l := .symbol .equal) rfl
    refine ⟨at_, List.mem_cons_self, ?_⟩
    simp [parameter, hannotation, hequal, hstar, hdefaults]

/-- The list ends at the bracket that closes it. -/
theorem parameter_of_closing (h : (front ts).lexeme = .symbol (.closing .round)) :
    parameter grammar (.closing .round) true read ts = .ok (.done read, ts) := by
  simp [parameter, h]

/-- So it does behind two stars. -/
theorem parameter_of_keywords {x : Text} (h : ListedEntries [] (some x) ts rest)
    (hends : (front rest).lexeme = .symbol (.closing .round)) :
    parameter grammar (.closing .round) true read ts =
      .ok (.done { read with doubleStar := some x }, rest) := by
  cases h with
  | keywords h =>
    have hannotation := annotation_of_annotated h (by simp [hends])
    simp [parameter, hannotation, hends]
  | keywordsComma h =>
    have hannotation := annotation_of_annotated h (by simp)
    simp [parameter, hannotation, hends]

/-- A name, its annotation, and a default if there is one. -/
theorem named_ensures (read : Parameters) (start : Position) (ts : List Token) :
    Ensures (do
      let parameter ← name
      typeHint grammar true false
      if ← accept .equal then
        let value ← grammar.expression
        if read.star == .absent then
          goOn { read with
            regular := read.regular ++ [parameter]
            defaults := read.defaults ++ [value] }
        else goOn { read with keywordOnly := read.keywordOnly ++ [parameter] }
      else if read.star == .absent then
        if read.defaults != [] then failAt start .missingDefault
        else goOn { read with regular := read.regular ++ [parameter] }
      else goOn { read with keywordOnly := read.keywordOnly ++ [parameter] }) ts fun next mid =>
      ∃ entry rest read', Written entry ts rest ∧ read.add entry = some read' ∧
        goOn read' rest = .ok (next, mid) := by
  rw [ensures_bind, ensures_name]
  intro x hx
  obtain ⟨p, hts⟩ := eq_cons_of_front hx (by simp)
  rw [ensures_bind]
  refine (typeHint_ensures ts.tail).mono fun _ us hus => ?_
  rw [ensures_bind, ensures_accept]
  refine ⟨fun hequal => ?_, fun _ => ?_⟩
  · obtain ⟨q, hequal⟩ := eq_cons_of_front hequal (by simp)
    rw [if_pos rfl, ensures_bind]
    intro e us' hvalue
    have hwritten : Written (.parameter (x, some e)) ts us' := by
      rw [hts]
      exact .optional (hequal ▸ hus) hvalue
    rw [ensures_ite]
    refine ⟨fun hstar next mid hread => ?_, fun hstar next mid hread => ?_⟩
    · exact ⟨_, us', _, hwritten, if_pos (beq_iff_eq.mp hstar), hread⟩
    · exact ⟨_, us', _, hwritten, if_neg fun h => hstar (beq_iff_eq.mpr h), hread⟩
  · have hwritten : Written (.parameter (x, none)) ts us := by
      rw [hts]
      exact .required hus
    rw [if_neg Bool.false_ne_true, ensures_ite, ensures_ite, ensures_failAt]
    refine ⟨fun hstar => ⟨fun _ => trivial, fun hdefaults next mid hread => ?_⟩,
      fun hstar next mid hread => ?_⟩
    · refine ⟨_, us, _, hwritten, ?_, hread⟩
      rw [Parameters.add, if_pos (beq_iff_eq.mp hstar)]
      exact if_pos (by simpa using hdefaults)
    · exact ⟨_, us, _, hwritten, if_neg fun h => hstar (beq_iff_eq.mpr h), hread⟩

/-- The name behind two stars, and the end of the list. -/
theorem keywords_ensures (read : Parameters) (place : Position) (ts : List Token) :
    Ensures (do
      let rest ← name
      typeHint grammar true false
      let _ ← accept .comma
      if ← atSymbol (.closing .round) then
        pure (Next.done (σ := Parameters) { read with doubleStar := some rest })
      else fail .parameterAfterKeywords) ts fun next mid =>
      ∃ x, next = .done { read with doubleStar := some x } ∧
        ListedEntries [] (some x) (⟨.symbol .doubleStar, place⟩ :: ts) mid := by
  rw [ensures_bind, ensures_name]
  intro x hx
  obtain ⟨q, hts⟩ := eq_cons_of_front hx (by simp)
  rw [ensures_bind]
  refine (typeHint_ensures ts.tail).mono fun _ us hus => ?_
  rw [ensures_bind, ensures_accept]
  refine ⟨fun hcomma => ?_, fun _ => ?_⟩
  · obtain ⟨c, hcomma⟩ := eq_cons_of_front hcomma (by simp)
    rw [ensures_bind, ensures_atSymbol, ensures_ite, ensures_pure, ensures_fail]
    refine ⟨fun _ => ⟨x, rfl, ?_⟩, fun _ => trivial⟩
    rw [hts]
    exact .keywordsComma (hcomma ▸ hus)
  · rw [ensures_bind, ensures_atSymbol, ensures_ite, ensures_pure, ensures_fail]
    refine ⟨fun _ => ⟨x, rfl, ?_⟩, fun _ => trivial⟩
    rw [hts]
    exact .keywords hus

/-- What one more round has read is an entry that could be added, or the
    last of them. -/
theorem parameter_ensures (read : Parameters) (ts : List Token) :
    Ensures (parameter grammar (.closing .round) true read) ts fun next mid =>
      (next = .done read ∧ mid = ts) ∨
      (∃ x, next = .done { read with doubleStar := some x } ∧ ListedEntries [] (some x) ts mid) ∨
      ∃ entry rest read', Written entry ts rest ∧ read.add entry = some read' ∧
        goOn read' rest = .ok (next, mid) := by
  unfold parameter
  rw [ensures_bind, ensures_position, ensures_bind, ensures_atSymbol, ensures_ite, ensures_pure]
  refine ⟨fun _ => .inl ⟨rfl, rfl⟩, fun _ => ?_⟩
  rw [ensures_bind, ensures_atSymbol, ensures_ite]
  refine ⟨fun hslash => ?_, fun _ => ?_⟩
  · obtain ⟨p, hts⟩ := eq_cons_of_front (of_decide_eq_true hslash) (by simp)
    rw [ensures_ite, ensures_fail, ensures_bind, ensures_advance]
    refine ⟨fun _ => trivial, fun hguard next mid hread => ?_⟩
    simp only [Bool.or_eq_true, Bool.not_eq_true', bne_iff_ne, beq_iff_eq, beq_eq_false_iff_ne,
      not_or, Decidable.not_not] at hguard
    obtain ⟨⟨hstar, hfirst⟩, hnames⟩ := hguard
    refine .inr (.inr ⟨.slash, ts.tail, _, hts ▸ .slash, ?_, hread⟩)
    exact if_pos ⟨hstar, hfirst, hnames⟩
  rw [ensures_bind, ensures_atSymbol, ensures_ite]
  refine ⟨fun hstar => ?_, fun _ => ?_⟩
  · obtain ⟨p, hts⟩ := eq_cons_of_front (of_decide_eq_true hstar) (by simp)
    rw [ensures_ite, ensures_fail, ensures_bind, ensures_advance, ensures_bind, ensures_peek,
      ensures_ite]
    refine ⟨fun _ => trivial, fun hguard => ?_⟩
    have hfirst : read.star = .absent := by simpa using hguard
    refine ⟨fun _ => ?_, fun _ next mid hread => ?_⟩
    · rw [ensures_bind, ensures_name]
      intro x hx
      obtain ⟨q, htail⟩ := eq_cons_of_front hx (by simp)
      rw [ensures_bind]
      refine (typeHint_ensures ts.tail.tail).mono fun _ us hus next mid hread => ?_
      refine .inr (.inr ⟨.star (some x), us, _, ?_, if_pos hfirst, hread⟩)
      rw [hts, htail]
      exact .namedStar hus
    · exact .inr (.inr ⟨.star none, ts.tail, _, hts ▸ .bareStar, if_pos hfirst, hread⟩)
  rw [ensures_bind, ensures_accept]
  refine ⟨fun hdouble => ?_, fun _ => ?_⟩
  · obtain ⟨p, hts⟩ := eq_cons_of_front hdouble (by simp)
    refine (keywords_ensures read p ts.tail).mono fun next mid hkeywords => .inr (.inl ?_)
    rwa [← hts] at hkeywords
  · exact (named_ensures read _ ts).mono fun next mid hnamed => .inr (.inr hnamed)

/-! ## Section 4: All entries -/

end Grammar

/-- What has been read, with the name behind two stars, if there is one. -/
def Parameters.close (read : Parameters) : Option Text → Parameters
  | none => read
  | some x => { read with doubleStar := some x }

namespace Grammar

/-- Entries that can be added are read, each in a round of its own. -/
theorem rounds_of_listed (h : ListedEntries entries keywords ts rest)
    (hends : (front rest).lexeme = .symbol (.closing .round)) :
    ∀ {read : Parameters}, entries.foldlM Parameters.add read = some read' →
      Rounds (parameter grammar (.closing .round) true) read ts (read'.close keywords) rest := by
  induction h with
  | nothing =>
    intro read hadd
    obtain rfl := Option.some.inj hadd
    exact .done (parameter_of_closing hends)
  | last h =>
    intro read hadd
    have hround := parameter_of_add h (by rw [hends]; rfl) (by simpa using hadd)
    exact .done (hround.trans (by simp [goOn, hends, Parameters.close]))
  | @next entry entries keywords comma ts mid rest h _ ih =>
    intro read hadd
    rw [List.foldlM_cons] at hadd
    obtain ⟨between, hentry, hothers⟩ := Option.bind_eq_some_iff.mp hadd
    have hlength : mid.length < ts.length := by
      have hle := h.suffix.length_le
      rw [List.length_cons, List.length_tail] at hle
      omega
    exact .again (parameter_of_add h rfl hentry) hlength (ih hends hothers)
  | keywords h =>
    intro read hadd
    obtain rfl := Option.some.inj hadd
    exact .done (parameter_of_keywords (.keywords h) hends)
  | keywordsComma h =>
    intro read hadd
    obtain rfl := Option.some.inj hadd
    exact .done (parameter_of_keywords (.keywordsComma h) hends)

/-- What has been read are entries that could be added. -/
theorem listed_ensures (read : Parameters) (ts : List Token) :
    Ensures (loop (parameter grammar (.closing .round) true) read) ts fun params rest =>
      ∃ entries keywords read', ListedEntries entries keywords ts rest ∧
        entries.foldlM Parameters.add read = some read' ∧ params = read'.close keywords := by
  refine @Ensures.loop _ _ _ (fun read ts params rest => ∃ entries keywords read',
    ListedEntries entries keywords ts rest ∧ entries.foldlM Parameters.add read = some read' ∧
      params = read'.close keywords) (fun read ts => ?_) read ts
  refine (parameter_ensures read ts).mono fun next mid hround => ?_
  rcases hround with ⟨rfl, rfl⟩ | ⟨x, rfl, hlisted⟩ | ⟨entry, rest, read', hwritten, hadd, hgo⟩
  · exact ⟨[], none, read, .nothing mid, rfl, rfl⟩
  · exact ⟨[], some x, read, hlisted, rfl, rfl⟩
  · unfold goOn at hgo
    by_cases hcomma : (front rest).lexeme = .symbol .comma
    · obtain ⟨p, hrest⟩ := eq_cons_of_front hcomma (by simp)
      simp only [bind_apply, accept_apply, if_pos hcomma] at hgo
      cases hgo
      rintro params rest' ⟨entries, keywords, read'', hlisted, hothers, rfl⟩
      refine ⟨entry :: entries, keywords, read'', .next (hrest ▸ hwritten) hlisted, ?_, rfl⟩
      rw [List.foldlM_cons, hadd]
      exact hothers
    · simp only [bind_apply, accept_apply, if_neg hcomma] at hgo
      cases hgo
      refine ⟨[entry], none, read', .last hwritten, ?_, rfl⟩
      rw [List.foldlM_cons, hadd]
      rfl

/-- They are read up to the first parameter that lacks a default. -/
theorem fails_of_listed {x : Text} (h : ListedEntries entries keywords ts rest)
    (hends : (front rest).lexeme = .symbol (.closing .round)) :
    ∀ {front back : List ParameterEntry} {read : Parameters},
      entries = front ++ .parameter (x, none) :: back →
      front.foldlM Parameters.add read = some read' → read'.star = .absent →
      read'.defaults ≠ [] → ∃ at_ stop, ⟨.name x, at_⟩ ∈ ts ∧ stop <:+ ts ∧
        Fails (parameter grammar (.closing .round) true) read ts ⟨at_, .missingDefault⟩ stop := by
  induction h with
  | last h =>
    intro front back read heq hadd hstar hdefaults
    obtain ⟨rfl, rfl, -⟩ : front = [] ∧ _ ∧ _ := by
      rw [List.singleton_eq_append_iff] at heq
      simpa using heq
    obtain rfl := Option.some.inj hadd
    obtain ⟨at_, hmem, herror⟩ := parameter_of_required h (by rw [hends]; rfl) hstar hdefaults
    exact ⟨at_, _, hmem, h.suffix.trans (List.tail_suffix _), .here herror⟩
  | @next entry entries keywords comma ts mid rest h _ ih =>
    intro front back read heq hadd hstar hdefaults
    cases front with
    | nil =>
      obtain ⟨rfl, -⟩ := List.cons.inj heq
      obtain rfl := Option.some.inj hadd
      obtain ⟨at_, hmem, herror⟩ := parameter_of_required h rfl hstar hdefaults
      exact ⟨at_, _, hmem, h.suffix.trans (List.tail_suffix _), .here herror⟩
    | cons first front =>
      obtain ⟨rfl, htail⟩ := List.cons.inj heq
      rw [List.foldlM_cons] at hadd
      obtain ⟨between, hentry, hothers⟩ := Option.bind_eq_some_iff.mp hadd
      have hmid : mid <:+ ts :=
        (List.suffix_cons _ _).trans (h.suffix.trans (List.tail_suffix _))
      have hlength : mid.length < ts.length := by
        have hle := h.suffix.length_le
        rw [List.length_cons, List.length_tail] at hle
        omega
      obtain ⟨at_, stop, hmem, hstop, hfails⟩ := ih hends htail hothers hstar hdefaults
      exact ⟨at_, stop, hmid.subset hmem, hstop.trans hmid,
        .later (parameter_of_add h rfl hentry) hlength hfails⟩
  | _ =>
    intro front back read heq
    simp at heq

end Grammar

/-! ## Section 5: Entries and signatures -/

namespace Parameters

/-- Parameters in front of a star go to the regular group, as long as a
    default is followed by defaults only. -/
theorem foldlM_positional {ps : List Parameter} {read : Parameters} (hstar : read.star = .absent)
    (hps : ps.Pairwise fun p q => p.2.isSome → q.2.isSome)
    (hdefaults : read.defaults ≠ [] → ∀ p ∈ ps, p.2.isSome) :
    (ps.map .parameter).foldlM add read = some { read with
      regular := read.regular ++ ps.map (·.1)
      defaults := read.defaults ++ ps.filterMap (·.2) } := by
  induction ps generalizing read with
  | nil => simp
  | cons p ps ih =>
    obtain ⟨x, default⟩ := p
    obtain ⟨hp, htail⟩ := List.pairwise_cons.mp hps
    rw [List.map_cons, List.foldlM_cons]
    cases default with
    | some value =>
      rw [add_optional hstar, Option.bind_eq_bind, Option.bind_some,
        ih ?_ htail fun _ q hq => hp q hq rfl]
      · simp
      · exact hstar
    | none =>
      have hnone : read.defaults = [] := by
        refine Decidable.byContradiction fun hne => ?_
        cases hdefaults hne _ List.mem_cons_self
      rw [add_required hstar, if_pos hnone, Option.bind_eq_bind, Option.bind_some, ih ?_ htail ?_]
      · simp
      · exact hstar
      · exact fun hne => absurd hnone hne

/-- Behind a star, they go to the keyword-only group. -/
theorem foldlM_keywordOnly {ps : List Parameter} {read : Parameters} (hstar : read.star ≠ .absent) :
    (ps.map .parameter).foldlM add read =
      some { read with keywordOnly := read.keywordOnly ++ ps.map (·.1) } := by
  induction ps generalizing read with
  | nil => simp
  | cons p ps ih =>
    rw [List.map_cons, List.foldlM_cons, add_keywordOnly hstar, Option.bind_eq_bind,
      Option.bind_some, ih ?_]
    · simp
    · exact hstar

/-- A star is the first of its kind. -/
theorem foldlM_star {star : Star} {read : Parameters} (h : read.star = .absent) :
    star.entries.foldlM add read = some { read with star := star } := by
  cases star with
  | absent => simp [Star.entries, ← h]
  | bare => simp [Star.entries, add, h]
  | named x => simp [Star.entries, add, h]

end Parameters

namespace Signature

/-- The entries of a signature can be added, if its defaults come last. -/
theorem foldlM_entries {s : Signature} (h : s.DefaultsLast) :
    s.entries.foldlM Parameters.add {} = some { s.parameters with doubleStar := none } := by
  obtain ⟨hfirst, hregular, hacross⟩ := List.pairwise_append.mp h
  have hslash : (if s.positionalOnly = [] then [] else [ParameterEntry.slash]).foldlM Parameters.add
      { regular := s.positionalOnly.map (·.1), defaults := s.positionalOnly.filterMap (·.2) } =
      some { positionalOnly := s.positionalOnly.map (·.1)
             defaults := s.positionalOnly.filterMap (·.2) } := by
    by_cases hnone : s.positionalOnly = []
    · simp [hnone]
    · simp [hnone, Parameters.add]
  have hbehind : s.positionalOnly.filterMap (·.2) ≠ [] → ∀ q ∈ s.regular, q.2.isSome := by
    intro hne q hq
    obtain ⟨value, hvalue⟩ := List.exists_mem_of_ne_nil _ hne
    obtain ⟨p, hp, hdefault⟩ := List.mem_filterMap.mp hvalue
    exact hacross p hp q hq (by rw [hdefault]; rfl)
  rw [entries, List.foldlM_append, List.foldlM_append, List.foldlM_append, List.foldlM_append,
    Parameters.foldlM_positional rfl hfirst (by simp)]
  simp only [Option.bind_eq_bind, Option.bind_some, List.nil_append]
  rw [hslash, Option.bind_some, Parameters.foldlM_positional rfl hregular hbehind, Option.bind_some,
    Parameters.foldlM_star rfl, Option.bind_some]
  by_cases hstar : s.star = .absent
  · simp [s.behind_star hstar, parameters, positional]
  · rw [Parameters.foldlM_keywordOnly hstar]
    simp [parameters, positional]

/-- With one more entry that can be added, there is a signature again. -/
theorem exists_of_add {s : Signature} {entry : ParameterEntry} {read' : Parameters}
    (h : s.DefaultsLast) (hend : s.doubleStar = none) (hadd : s.parameters.add entry = some read') :
    ∃ s' : Signature, s'.entries = s.entries ++ [entry] ∧ s'.DefaultsLast ∧ s'.doubleStar = none ∧
      s'.parameters = read' := by
  cases entry with
  | parameter p =>
    by_cases hstar : s.star = .absent
    · have hkeywords := s.behind_star hstar
      obtain ⟨rfl, hnone⟩ := Parameters.add_positional hstar hadd
      have hdefault : ∀ q ∈ s.positional, q.2.isSome → p.2.isSome := by
        intro q hq hsome
        obtain ⟨value, hvalue⟩ := Option.isSome_iff_exists.mp hsome
        cases hp : p.2 with
        | some => rfl
        | none =>
          have hmem : value ∈ s.parameters.defaults := List.mem_filterMap.mpr ⟨q, hq, hvalue⟩
          cases hnone hp ▸ hmem
      refine ⟨{ s with regular := s.regular ++ [p] }, ?_, ?_, hend, ?_⟩
      · simp [entries, hstar, hkeywords, Star.entries]
      · rw [DefaultsLast, positional, ← List.append_assoc]
        refine List.pairwise_append.mpr ⟨h, List.pairwise_singleton _ _, fun q hq p' hp' => ?_⟩
        obtain rfl := List.mem_singleton.mp hp'
        exact hdefault q hq
      · obtain ⟨x, _ | value⟩ := p <;> simp [parameters, positional]
    · refine ⟨{ s with keywordOnly := s.keywordOnly ++ [p]
                       behind_star := fun h => absurd h hstar }, ?_, h, hend, ?_⟩
      · simp [entries]
      · rw [← Option.some.inj ((Parameters.add_keywordOnly hstar).symm.trans hadd)]
        simp [parameters, positional]
  | slash =>
    obtain ⟨⟨hstar, hfirst, hnames⟩, hadd⟩ := Option.ite_none_right_eq_some.mp hadd
    have hstar : s.star = .absent := hstar
    have hfirst : s.positionalOnly = [] := List.map_eq_nil_iff.mp hfirst
    have hnames : s.regular ≠ [] := fun h => hnames (List.map_eq_nil_iff.mpr h)
    have hkeywords := s.behind_star hstar
    refine ⟨{ s with positionalOnly := s.regular, regular := [] }, ?_, ?_, hend, ?_⟩
    · simp [entries, hstar, hfirst, hnames, hkeywords, Star.entries]
    · simpa [DefaultsLast, positional, hfirst] using h
    · rw [← Option.some.inj hadd]
      simp [parameters, positional, hfirst]
  | star name =>
    obtain ⟨hstar, hadd⟩ := Option.ite_none_right_eq_some.mp hadd
    have hkeywords := s.behind_star hstar
    refine ⟨{ s with star := name.elim .bare .named, behind_star := fun _ => hkeywords }, ?_, h,
      hend, ?_⟩
    · cases name <;> simp [entries, show s.star = .absent from hstar, hkeywords, Star.entries]
    · rw [← Option.some.inj hadd]
      simp [parameters, positional]

/-- So there is with any number of them. -/
theorem exists_of_foldlM {rest : List ParameterEntry} {params : Parameters} :
    ∀ {s : Signature}, s.DefaultsLast → s.doubleStar = none →
      rest.foldlM Parameters.add s.parameters = some params →
      ∃ s' : Signature, s'.entries = s.entries ++ rest ∧ s'.DefaultsLast ∧ s'.doubleStar = none ∧
        s'.parameters = params := by
  induction rest with
  | nil =>
    intro s h hend hadd
    exact ⟨s, by simp, h, hend, Option.some.inj hadd⟩
  | cons entry rest ih =>
    intro s h hend hadd
    rw [List.foldlM_cons] at hadd
    obtain ⟨between, hentry, hothers⟩ := Option.bind_eq_some_iff.mp hadd
    obtain ⟨s', hentries, h', hend', rfl⟩ := exists_of_add h hend hentry
    obtain ⟨s'', hall, h''⟩ := ih h' hend' hothers
    exact ⟨s'', by simp [hall, hentries], h''⟩

/-- The entries that can be added are those of a signature whose defaults
    come last. -/
theorem foldlM_add_iff {entries : List ParameterEntry} {keywords : Option Text}
    {params : Parameters} :
    (∃ read, entries.foldlM Parameters.add {} = some read ∧ params = read.close keywords) ↔
      ∃ s : Signature, s.entries = entries ∧ s.doubleStar = keywords ∧ s.DefaultsLast ∧
        s.parameters = params := by
  constructor
  · rintro ⟨read, hadd, rfl⟩
    let empty : Signature := ⟨[], [], .absent, [], none, fun _ => rfl⟩
    obtain ⟨s, hentries, hlast, hend, rfl⟩ :=
      exists_of_foldlM (s := empty) List.Pairwise.nil rfl hadd
    refine ⟨{ s with doubleStar := keywords }, hentries, rfl, hlast, ?_⟩
    cases keywords with
    | none => simp [parameters, positional, Parameters.close, hend]
    | some x => simp [parameters, positional, Parameters.close]
  · rintro ⟨s, rfl, rfl, hlast, rfl⟩
    refine ⟨_, foldlM_entries hlast, ?_⟩
    cases hend : s.doubleStar with
    | none => simp [parameters, Parameters.close, hend]
    | some x => simp [parameters, Parameters.close, hend]

end Signature

/-! ## Section 6: A default that is missing -/

/-- The first parameter that lacks a default behind one that has one. -/
theorem exists_missing_default {ps : List Parameter} : ∀ {before : List Parameter},
    before.Pairwise (fun p q => p.2.isSome → q.2.isSome) →
    ¬(before ++ ps).Pairwise (fun p q => p.2.isSome → q.2.isSome) →
    ∃ front x back, ps = front ++ (x, none) :: back ∧
      (before ++ front).Pairwise (fun p q => p.2.isSome → q.2.isSome) ∧
      ∃ q ∈ before ++ front, q.2.isSome := by
  induction ps with
  | nil =>
    intro before hbefore h
    exact absurd (by rwa [List.append_nil]) h
  | cons p ps ih =>
    intro before hbefore h
    by_cases hp : (before ++ [p]).Pairwise fun p q => p.2.isSome → q.2.isSome
    · obtain ⟨front, x, back, hps, hfront⟩ := ih hp (by rwa [← List.append_cons])
      refine ⟨p :: front, x, back, by rw [hps]; rfl, ?_⟩
      rwa [List.append_cons]
    · obtain ⟨q, hq, hsome, hnone⟩ : ∃ q ∈ before, q.2.isSome ∧ ¬p.2.isSome := by
        simpa [List.pairwise_append, hbefore] using hp
      obtain ⟨x, default⟩ := p
      obtain rfl : default = none := by simpa using hnone
      exact ⟨[], x, ps, rfl, by rwa [List.append_nil], q, by rwa [List.append_nil], hsome⟩

namespace Signature

/-- If defaults do not come last, what is in front of the first that is
    missing can be added. -/
theorem exists_front {s : Signature} (h : ¬s.DefaultsLast) :
    ∃ front x back read, s.entries = front ++ .parameter (x, none) :: back ∧
      front.foldlM Parameters.add {} = some read ∧ read.star = .absent ∧ read.defaults ≠ [] ∧
      (x, none) ∈ s.positional := by
  have hdefaults : ∀ {ps : List Parameter}, (∃ q ∈ ps, q.2.isSome) → ps.filterMap (·.2) ≠ [] := by
    rintro ps ⟨q, hq, hsome⟩
    obtain ⟨value, hvalue⟩ := Option.isSome_iff_exists.mp hsome
    exact List.ne_nil_of_mem (List.mem_filterMap.mpr ⟨q, hq, hvalue⟩)
  by_cases hfirst : s.positionalOnly.Pairwise fun p q => p.2.isSome → q.2.isSome
  -- Behind the slash, or with none, the slash has been read.
  · obtain ⟨front, x, back, hregular, hfront, hsome⟩ := exists_missing_default hfirst h
    let s' : Signature := ⟨s.positionalOnly, front, .absent, [], none, fun _ => rfl⟩
    refine ⟨s'.entries, x, back.map .parameter ++ s.star.entries ++ s.keywordOnly.map .parameter, _,
      ?_, foldlM_entries (s := s') hfront, rfl, hdefaults hsome, ?_⟩
    · simp [entries, s', hregular, Star.entries]
    · simp [positional, hregular]
  · obtain ⟨front, x, back, hnames, hfront, hsome⟩ :=
      @exists_missing_default _ [] .nil hfirst
    let s' : Signature := ⟨[], front, .absent, [], none, fun _ => rfl⟩
    refine ⟨s'.entries, x, back.map .parameter ++ (.slash :: (s.regular.map .parameter ++
      s.star.entries ++ s.keywordOnly.map .parameter)), _,
      ?_, foldlM_entries (s := s') hfront, rfl, hdefaults hsome, ?_⟩
    · simp [entries, s', hnames, Star.entries]
    · simp [positional, hnames]

end Signature

/-! ## Section 7: The parameters of a function -/

namespace Grammar

/-- What follows the parameters of a function. -/
def afterParameters (p : StatementParsers) (line : Nat) (isAsync : Bool) (f : Text)
    (params : Parameters) : Parser Stmt := do
  if ← accept .arrow then
    let _ ← grammar.expression
  let inner ← body p
  pure (.functionDef line isAsync f params inner)

variable {p : StatementParsers} {line : Nat} {isAsync : Bool} {f : Text} {def_ place open_ : Position}
  {us : List Token}

/-- A function is read up to its parameters, then these, and the rest. -/
theorem functionDef_apply
    (h : typeParameters us = .ok ((), ⟨.symbol (.opening .round), open_⟩ :: ts)) :
    functionDef p line isAsync (⟨.keyword .def_, def_⟩ :: ⟨.name f, place⟩ :: us) =
      (do
        let params ← parameters grammar (.closing .round) true
        expect (.closing .round)
        afterParameters p line isAsync f params) ts := by
  simp [functionDef, afterParameters, h]

theorem afterParameters_ensures {params : Parameters} (ts : List Token) :
    Ensures (afterParameters p line isAsync f params) ts fun stmt _ =>
      ∃ inner, stmt = .functionDef line isAsync f params inner := by
  have hbody : ∀ ts, Ensures (do
      let inner ← body p
      pure (Stmt.functionDef line isAsync f params inner)) ts fun stmt _ =>
        ∃ inner, stmt = .functionDef line isAsync f params inner := by
    intro ts
    rw [ensures_bind]
    exact fun inner rest _ => (ensures_pure _).mpr ⟨inner, rfl⟩
  unfold afterParameters
  rw [ensures_bind, ensures_accept]
  refine ⟨fun _ => ?_, fun _ => hbody ts⟩
  rw [if_pos rfl, ensures_bind]
  exact fun _ rest _ => hbody rest

/-- What is read is a signature whose defaults come last. -/
theorem parameters_ensures (ts : List Token) :
    Ensures (parameters grammar (.closing .round) true) ts fun params rest =>
      ∃ s : Signature, s.DefaultsLast ∧ s.parameters = params ∧
        ListedEntries s.entries s.doubleStar ts rest := by
  refine (listed_ensures {} ts).mono fun params rest hlisted => ?_
  obtain ⟨entries, keywords, read, hlisted, hadd, hparams⟩ := hlisted
  obtain ⟨s, rfl, rfl, hlast, hs⟩ := Signature.foldlM_add_iff.mp ⟨read, hadd, hparams⟩
  exact ⟨s, hlast, hs, hlisted⟩

end Grammar

open Grammar in
/-- The parameters of a function are those of the signature that is
    written, if its defaults come last.  If they do not, the first parameter
    that lacks one is at fault, also behind a slash.  Whatever is read is a
    signature of this kind. -/
theorem functionDef_signature {p : StatementParsers} {line : Nat} {isAsync : Bool} {f : Text}
    {def_ place open_ : Position} {us ts : List Token}
    (h : typeParameters us = .ok ((), ⟨.symbol (.opening .round), open_⟩ :: ts)) :
    (∀ (s : Signature) (close : Position) (after : List Token), s.DefaultsLast →
      ListedEntries s.entries s.doubleStar ts (⟨.symbol (.closing .round), close⟩ :: after) →
      parameters grammar (.closing .round) true ts =
        .ok (s.parameters, ⟨.symbol (.closing .round), close⟩ :: after) ∧
      functionDef p line isAsync (⟨.keyword .def_, def_⟩ :: ⟨.name f, place⟩ :: us) =
        afterParameters p line isAsync f s.parameters after) ∧
    (∀ (s : Signature) (close : Position) (after : List Token), ¬s.DefaultsLast →
      ListedEntries s.entries s.doubleStar ts (⟨.symbol (.closing .round), close⟩ :: after) →
      ∃ x at_ stop, (x, none) ∈ s.positional ∧ ⟨.name x, at_⟩ ∈ ts ∧ stop <:+ ts ∧
        parameters grammar (.closing .round) true ts = .failed ⟨at_, .missingDefault⟩ stop ∧
        functionDef p line isAsync (⟨.keyword .def_, def_⟩ :: ⟨.name f, place⟩ :: us) =
          .failed ⟨at_, .missingDefault⟩ stop) ∧
    (∀ params rest, parameters grammar (.closing .round) true ts = .ok (params, rest) →
      ∃ s : Signature, s.DefaultsLast ∧ s.parameters = params ∧
        ListedEntries s.entries s.doubleStar ts rest) ∧
    ∀ stmt rest,
      functionDef p line isAsync (⟨.keyword .def_, def_⟩ :: ⟨.name f, place⟩ :: us) =
        .ok (stmt, rest) →
      ∃ (s : Signature) (close : Position) (after : List Token) (inner : List Stmt),
        s.DefaultsLast ∧ stmt = .functionDef line isAsync f s.parameters inner ∧
        ListedEntries s.entries s.doubleStar ts (⟨.symbol (.closing .round), close⟩ :: after) := by
  rw [functionDef_apply h]
  refine ⟨fun s close after hlast hlisted => ?_, fun s close after hlast hlisted => ?_, ?_, ?_⟩
  · obtain ⟨read, hadd, hread⟩ := Signature.foldlM_add_iff.mpr ⟨s, rfl, rfl, hlast, rfl⟩
    have hread : parameters grammar (.closing .round) true ts =
        .ok (s.parameters, ⟨.symbol (.closing .round), close⟩ :: after) := by
      rw [hread]
      exact loop_of_rounds (rounds_of_listed hlisted rfl hadd)
    exact ⟨hread, by simp [hread]⟩
  · obtain ⟨front, x, back, read, hentries, hadd, hstar, hdefaults, hpositional⟩ :=
      Signature.exists_front hlast
    obtain ⟨at_, stop, hmem, hstop, hfails⟩ :=
      fails_of_listed hlisted rfl hentries hadd hstar hdefaults
    have herror : parameters grammar (.closing .round) true ts =
        .failed ⟨at_, .missingDefault⟩ stop := loop_of_fails hfails
    exact ⟨x, at_, stop, hpositional, hmem, hstop, herror, by simp [herror]⟩
  · exact fun params rest => parameters_ensures ts params rest
  · suffices Ensures (do
        let params ← parameters grammar (.closing .round) true
        expect (.closing .round)
        afterParameters p line isAsync f params) ts fun stmt _ =>
          ∃ (s : Signature) (close : Position) (after : List Token) (inner : List Stmt),
            s.DefaultsLast ∧ stmt = .functionDef line isAsync f s.parameters inner ∧
            ListedEntries s.entries s.doubleStar ts
              (⟨.symbol (.closing .round), close⟩ :: after) from this
    rw [ensures_bind]
    refine (parameters_ensures ts).mono fun params rest hparams => ?_
    obtain ⟨s, hlast, rfl, hlisted⟩ := hparams
    rw [ensures_bind, ensures_expect]
    intro hclose
    obtain ⟨close, hrest⟩ := eq_cons_of_front hclose (by simp)
    refine (afterParameters_ensures rest.tail).mono fun stmt _ ⟨inner, hstmt⟩ => ?_
    exact ⟨s, close, rest.tail, inner, hlast, hstmt, hrest ▸ hlisted⟩

/-- One positional-only parameter and one regular one, both with a default,
    then one that needs none. -/
theorem parameters_of_groups :
    Grammar.parameters grammar (.closing .round) true
      [⟨.name (ascii "a"), ⟨1, 7⟩⟩, ⟨.symbol .equal, ⟨1, 8⟩⟩, ⟨.number (ascii "1"), ⟨1, 9⟩⟩,
        ⟨.symbol .comma, ⟨1, 10⟩⟩, ⟨.symbol .slash, ⟨1, 11⟩⟩, ⟨.symbol .comma, ⟨1, 12⟩⟩,
        ⟨.name (ascii "b"), ⟨1, 13⟩⟩, ⟨.symbol .equal, ⟨1, 14⟩⟩, ⟨.number (ascii "2"), ⟨1, 15⟩⟩,
        ⟨.symbol .comma, ⟨1, 16⟩⟩, ⟨.symbol .star, ⟨1, 17⟩⟩, ⟨.symbol .comma, ⟨1, 18⟩⟩,
        ⟨.name (ascii "c"), ⟨1, 19⟩⟩, ⟨.symbol .comma, ⟨1, 20⟩⟩, ⟨.symbol .doubleStar, ⟨1, 21⟩⟩,
        ⟨.name (ascii "d"), ⟨1, 23⟩⟩, ⟨.symbol (.closing .round), ⟨1, 24⟩⟩] =
      .ok ({
        positionalOnly := [ascii "a"], regular := [ascii "b"], star := .bare
        keywordOnly := [ascii "c"], doubleStar := some (ascii "d")
        defaults := [⟨.constant, ⟨1, 9⟩⟩, ⟨.constant, ⟨1, 15⟩⟩] },
        [⟨.symbol (.closing .round), ⟨1, 24⟩⟩]) := by
  let s : Signature :=
    { positionalOnly := [(ascii "a", some ⟨.constant, ⟨1, 9⟩⟩)]
      regular := [(ascii "b", some ⟨.constant, ⟨1, 15⟩⟩)]
      star := .bare
      keywordOnly := [(ascii "c", none)]
      doubleStar := some (ascii "d")
      behind_star := fun h => by cases h }
  have hlast : s.DefaultsLast := by
    simp [Signature.DefaultsLast, Signature.positional, s]
  have hopening : ∀ ts : List Token,
      Grammar.typeParameters (⟨.symbol (.opening .round), ⟨1, 6⟩⟩ :: ts) =
      .ok ((), ⟨.symbol (.opening .round), ⟨1, 6⟩⟩ :: ts) := fun _ => rfl
  refine ((@functionDef_signature statementGrammar 1 false (ascii "f") ⟨1, 1⟩ ⟨1, 5⟩ ⟨1, 6⟩ _ _
    (hopening _)).1 s ⟨1, 24⟩ [] hlast ?_).1
  refine .next (.optional (.none _) rfl) (.next .slash (.next (.optional (.none _) rfl)
    (.next .bareStar (.next (.required (.none _)) (.keywords (.none _))))))

/-- Behind the slash, a default may be missing as little as in front of it. -/
example : Grammar.parameters grammar (.closing .round) true
    [⟨.name (ascii "a"), ⟨1, 7⟩⟩, ⟨.symbol .equal, ⟨1, 8⟩⟩, ⟨.number (ascii "1"), ⟨1, 9⟩⟩,
      ⟨.symbol .comma, ⟨1, 10⟩⟩, ⟨.symbol .slash, ⟨1, 11⟩⟩, ⟨.symbol .comma, ⟨1, 12⟩⟩,
      ⟨.name (ascii "b"), ⟨1, 13⟩⟩, ⟨.symbol (.closing .round), ⟨1, 14⟩⟩] =
    .failed ⟨⟨1, 13⟩, .missingDefault⟩ [⟨.symbol (.closing .round), ⟨1, 14⟩⟩] := rfl

end StyleCheck
