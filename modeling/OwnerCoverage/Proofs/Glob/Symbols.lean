import Mathlib.Data.List.TakeWhile
import OwnerCoverage.Proofs.Glob.Components
import OwnerCoverage.Proofs.Text.Pieces

/-!
# Two readings of a body

The compiler reads a run of stars as one token and decides there whether the run stands for any
number of components; the documentation reads every star on its own and decides when it has a whole
segment. Group by group, the two readings have the same words (`groupsAgree`), so both globs have
the same language (`language_ofPattern`).
-/

namespace OwnerCoverage

namespace Glob

open Regex

/-- Whether a token is neither a run of stars nor a separator. -/
def Token.IsPlain (token : Token) : Prop :=
  token ≠ .star ∧ token ≠ .anyDepth ∧ token ≠ .separator

theorem isPlain_of_readClass? {text rest : List Char} {token : Token}
    (read : readClass? text = some (token, rest)) : token.IsPlain := by
  have isClass : ∃ negated items, token = .charClass negated items := by
    unfold readClass? at read
    split at read <;>
    · rcases Option.map_eq_some_iff.1 read with ⟨⟨items, after⟩, _, equal⟩
      rw [Prod.mk.injEq] at equal
      exact ⟨_, items, equal.1.symm⟩
  rcases isClass with ⟨negated, items, rfl⟩
  simp [Token.IsPlain]

theorem symbols_of_class {rest after : List Char} {token : Token}
    (read : readClass? rest = some (token, after)) :
    symbols ('[' :: rest) = token :: symbols after := by
  rw [symbols]
  split <;> simp_all

theorem symbols_of_noClass {rest : List Char} (read : readClass? rest = none) :
    symbols ('[' :: rest) = .literal '[' :: symbols rest := by
  rw [symbols]
  split <;> simp_all

theorem isPlain_literal (char : Char) : (Token.literal char).IsPlain := by simp [Token.IsPlain]

section Groups

variable {token : Token} {tokens : List Token}

theorem tokenGroups_separator : tokenGroups (.separator :: tokens) = [] :: tokenGroups tokens := by
  simp [tokenGroups, List.splitOnP_cons_eq_if_modifyHead]

theorem tokenGroups_cons (other : token ≠ .separator) :
    tokenGroups (token :: tokens) = (tokenGroups tokens).modifyHead (token :: ·) := by
  simp [tokenGroups, List.splitOnP_cons_eq_if_modifyHead, other]

theorem exists_tokenGroups (tokens : List Token) :
    ∃ group groups, tokenGroups tokens = group :: groups :=
  List.exists_cons_of_ne_nil (List.splitOnP_ne_nil _ tokens)

theorem mem_of_mem_tokenGroups {group : List Token} (group_mem : group ∈ tokenGroups tokens)
    (token_mem : token ∈ group) : token ∈ tokens ∧ token ≠ .separator := by
  have inPiece := Text.mem_of_mem_piece group_mem token_mem
  exact ⟨inPiece.1, beq_eq_false_iff_ne.1 inPiece.2⟩

theorem exists_tokenGroups_concat (tokens : List Token) (other : token ≠ .separator) :
    ∃ before group, tokenGroups (tokens ++ [token]) = before ++ [group ++ [token]] := by
  induction tokens with
  | nil => exact ⟨[], [], by rw [List.nil_append, tokenGroups_cons other]; rfl⟩
  | cons first tokens ih =>
      rcases ih with ⟨before, group, split⟩
      rw [List.cons_append]
      by_cases separates : first = .separator
      · rw [separates, tokenGroups_separator, split]
        exact ⟨[] :: before, group, rfl⟩
      · rw [tokenGroups_cons separates, split]
        cases before with
        | nil => exact ⟨[], first :: group, rfl⟩
        | cons head before => exact ⟨(first :: head) :: before, group, rfl⟩

/-- Only tokens that end in a separator have an empty last group behind another one. -/
theorem emptyLast_tokenGroups (tokens : List Token) :
    ((tokenGroups tokens).length > 1 && (tokenGroups tokens).getLast? == some []) =
      (tokens.getLast? == some .separator) := by
  rcases List.eq_nil_or_concat' tokens with rfl | ⟨before, last, rfl⟩
  · rfl
  · by_cases separates : last = .separator
    · subst separates
      have split : tokenGroups (before ++ [.separator]) = tokenGroups before ++ [[]] :=
        List.splitOnP_append_cons before [] rfl
      rcases exists_tokenGroups before with ⟨group, groups, starts⟩
      rw [split, List.getLast?_concat, List.getLast?_concat, starts]
      simp
    · rcases exists_tokenGroups_concat before separates with ⟨groups, group, split⟩
      have notLast : (last == Token.separator) = false := beq_eq_false_iff_ne.2 separates
      rw [split, List.getLast?_concat, List.getLast?_concat]
      simp [notLast]

end Groups

section Stars

/-- Whether a group of symbols stands for any number of components. -/
def StarsOnly (part : List Token) : Prop := 2 ≤ part.length ∧ ∀ symbol ∈ part, symbol = .star

theorem symbols_stars (count : Nat) (text : List Char) :
    symbols (List.replicate count '*' ++ text) = List.replicate count .star ++ symbols text := by
  induction count with
  | zero => rfl
  | succ count ih =>
      rw [List.replicate_succ, List.cons_append, symbols, ih]
      rfl

/-- A run of stars is all that its first star begins. -/
theorem exists_stars (rest : List Char) : ∃ count,
    '*' :: rest = List.replicate (count + 1) '*' ++ rest.dropWhile (· == '*') ∧
      (rest.head? == some '*') = decide (0 < count) := by
  refine ⟨(rest.takeWhile (· == '*')).length, ?_, ?_⟩
  · have run : rest.takeWhile (· == '*') =
        List.replicate (rest.takeWhile (· == '*')).length '*' :=
      List.eq_replicate_of_mem fun char mem => by simpa using List.mem_takeWhile_imp mem
    rw [List.replicate_succ, List.cons_append, ← run, List.takeWhile_append_dropWhile]
  · cases rest with
    | nil => rfl
    | cons char rest => by_cases isStar : char = '*' <;> simp [isStar]

theorem tokenGroups_stars {tokens group : List Token} {groups : List (List Token)} (count : Nat)
    (split : tokenGroups tokens = group :: groups) :
    tokenGroups (List.replicate count .star ++ tokens) =
      (List.replicate count .star ++ group) :: groups := by
  induction count with
  | zero => exact split
  | succ count ih =>
      rw [List.replicate_succ, List.cons_append, tokenGroups_cons (by simp), ih]
      rfl

/-- A text that no star begins has symbols whose first group no star begins either, and which is
empty where a segment of the text ends. -/
theorem firstGroup_of_noStar {text : List Char} {group : List Token} {groups : List (List Token)}
    (noStar : text.head? ≠ some '*') (split : tokenGroups (symbols text) = group :: groups) :
    group.head? ≠ some .star ∧ (segmentEnds text = true ↔ group = []) := by
  have plain {token : Token} {rest : List Token} (isPlain : token.IsPlain)
      (starts : tokenGroups (token :: rest) = group :: groups) :
      group.head? ≠ some .star ∧ group ≠ [] := by
    rcases exists_tokenGroups rest with ⟨head, more, splitRest⟩
    rw [tokenGroups_cons isPlain.2.2, splitRest, List.modifyHead_cons, List.cons.injEq] at starts
    rw [← starts.1]
    simpa using isPlain.1
  revert split
  fun_cases symbols text with
  | case1 =>
      intro split
      rw [tokenGroups, List.splitOnP_nil, List.cons.injEq] at split
      simp [← split.1, segmentEnds]
  | case2 => exact fun split => by simpa [segmentEnds] using plain (isPlain_literal '\\') split
  | case3 char rest =>
      exact fun split => by simpa [segmentEnds] using plain (isPlain_literal char) split
  | case4 rest => simp at noStar
  | case5 rest =>
      have isPlain : Token.anyChar.IsPlain := by simp [Token.IsPlain]
      exact fun split => by simpa [segmentEnds] using plain isPlain split
  | case6 rest =>
      intro split
      rw [tokenGroups_separator, List.cons.injEq] at split
      simp [← split.1, segmentEnds]
  | case7 rest token after read =>
      exact fun split => by simpa [segmentEnds] using plain (isPlain_of_readClass? read) split
  | case8 rest _ =>
      exact fun split => by simpa [segmentEnds] using plain (isPlain_literal '[') split
  | case9 char rest _ _ _ _ notSeparator =>
      have notEnds : segmentEnds (char :: rest) = false := by
        simpa [segmentEnds] using notSeparator
      exact fun split => by simpa [notEnds] using plain (isPlain_literal char) split

end Stars

section Readings

/-- How a group of tokens renders a group of symbols, where the flag tells whether the group may be
a whole segment. -/
inductive Renders (segmentStarts : Bool) : List Token → List Token → Prop
  | anyDepth {part : List Token} (starts : segmentStarts = true) (stars : StarsOnly part) :
      Renders segmentStarts [.anyDepth] part
  | component {group part : List Token} (other : ¬(segmentStarts = true ∧ StarsOnly part))
      (noDepth : .anyDepth ∉ group) (words : tokensLanguage group = tokensLanguage part)
      (empty : group = [] ↔ part = []) : Renders segmentStarts group part

/-- Whether groups render others one by one, where the flag is about the first. -/
def AllRender (segmentStarts : Bool) (groups parts : List (List Token)) : Prop :=
  ∃ group moreGroups part moreParts, groups = group :: moreGroups ∧ parts = part :: moreParts ∧
    Renders segmentStarts group part ∧ List.Forall₂ (Renders true) moreGroups moreParts

theorem tokensLanguage_cons (token : Token) (tokens : List Token) :
    tokensLanguage (token :: tokens) = token.language * tokensLanguage tokens := rfl

theorem runLanguage_mul_self (test : Char → Bool) :
    runLanguage test * runLanguage test = runLanguage test := by
  ext word
  rw [Language.mem_mul]
  constructor
  · rintro ⟨before, before_mem, after, after_mem, rfl⟩ char char_mem
    rcases List.mem_append.1 char_mem with char_mem | char_mem
    · exact before_mem char char_mem
    · exact after_mem char char_mem
  · intro mem
    exact ⟨word, mem, [], by simp [mem_runLanguage], List.append_nil word⟩

theorem tokensLanguage_stars (count : Nat) (tokens : List Token) :
    tokensLanguage (List.replicate (count + 1) .star ++ tokens) =
      tokensLanguage (.star :: tokens) := by
  induction count with
  | zero => rfl
  | succ count ih =>
      rw [List.replicate_succ, List.cons_append, tokensLanguage_cons, ih, tokensLanguage_cons,
        ← mul_assoc]
      exact congrArg (· * tokensLanguage tokens) (runLanguage_mul_self _)

/-- A group that is no whole segment renders its symbols word for word. -/
theorem words_of_renders_false {group part : List Token} (renders : Renders false group part) :
    .anyDepth ∉ group ∧ tokensLanguage group = tokensLanguage part ∧ (group = [] ↔ part = []) := by
  cases renders with
  | anyDepth starts => exact absurd starts (by decide)
  | component _ noDepth words empty => exact ⟨noDepth, words, empty⟩

theorem renders_nil (segmentStarts : Bool) : Renders segmentStarts [] [] := by
  refine .component ?_ List.not_mem_nil rfl Iff.rfl
  rintro ⟨_, long, _⟩
  simp at long

theorem allRender_nil (segmentStarts : Bool) :
    AllRender segmentStarts (tokenGroups []) (tokenGroups []) :=
  ⟨[], [], [], [], rfl, rfl, renders_nil segmentStarts, .nil⟩

theorem allRender_plain {segmentStarts : Bool} {token : Token} {tokens symbols : List Token}
    (isPlain : token.IsPlain) (rest : AllRender false (tokenGroups tokens) (tokenGroups symbols)) :
    AllRender segmentStarts (tokenGroups (token :: tokens)) (tokenGroups (token :: symbols)) := by
  rcases rest with ⟨group, groups, part, parts, split, splitSymbols, first, others⟩
  rcases words_of_renders_false first with ⟨noDepth, words, _⟩
  rw [tokenGroups_cons isPlain.2.2, tokenGroups_cons isPlain.2.2, split, splitSymbols]
  refine ⟨token :: group, groups, token :: part, parts, rfl, rfl, .component ?_ ?_ ?_ ?_, others⟩
  · rintro ⟨_, _, stars⟩
    exact isPlain.1 (stars token List.mem_cons_self)
  · exact List.not_mem_cons_of_ne_of_not_mem isPlain.2.1.symm noDepth
  · rw [tokensLanguage_cons, tokensLanguage_cons, words]
  · simp

theorem allRender_separator {segmentStarts : Bool} {tokens symbols : List Token}
    (rest : AllRender true (tokenGroups tokens) (tokenGroups symbols)) :
    AllRender segmentStarts (tokenGroups (.separator :: tokens))
      (tokenGroups (.separator :: symbols)) := by
  rcases rest with ⟨group, groups, part, parts, split, splitSymbols, first, others⟩
  rw [tokenGroups_separator, tokenGroups_separator, split, splitSymbols]
  exact ⟨[], _, [], _, rfl, rfl, renders_nil segmentStarts, .cons first others⟩

/-- A run of stars before a group that no star begins is nothing but stars only if the group is
empty. -/
theorem starsOnly_iff {part : List Token} {count : Nat} (noStar : part.head? ≠ some .star) :
    StarsOnly (List.replicate (count + 1) .star ++ part) ↔ 0 < count ∧ part = [] := by
  constructor
  · rintro ⟨long, stars⟩
    have empty : part = [] := by
      cases part with
      | nil => rfl
      | cons symbol part => exact absurd (by simp [stars symbol (by simp)]) noStar
    subst empty
    rw [List.append_nil, List.length_replicate] at long
    exact ⟨by omega, rfl⟩
  · rintro ⟨several, rfl⟩
    rw [List.append_nil]
    refine ⟨by rw [List.length_replicate]; omega, fun symbol mem => List.eq_of_mem_replicate mem⟩

theorem allRender_stars {segmentStarts : Bool} {tokens : List Token} {rest : List Char}
    (behind : AllRender false (tokenGroups tokens)
      (tokenGroups (symbols (rest.dropWhile (· == '*'))))) :
    AllRender segmentStarts
      (tokenGroups ((if segmentStarts && rest.head? == some '*' &&
        segmentEnds (rest.dropWhile (· == '*')) then .anyDepth else .star) :: tokens))
      (tokenGroups (symbols ('*' :: rest))) := by
  rcases exists_stars rest with ⟨count, run, more⟩
  have noStar : (rest.dropWhile (· == '*')).head? ≠ some '*' := by
    intro starts
    have := List.head?_dropWhile_not (· == '*') rest
    simp [starts] at this
  rw [run, symbols_stars, more]
  generalize rest.dropWhile (· == '*') = after at *
  rcases behind with ⟨group, groups, part, parts, split, splitSymbols, first, others⟩
  rcases firstGroup_of_noStar noStar splitSymbols with ⟨noStarFirst, ends⟩
  rcases words_of_renders_false first with ⟨noDepth, words, empty⟩
  have whole : (segmentStarts && decide (0 < count) && segmentEnds after) = true ↔
      segmentStarts = true ∧ StarsOnly (List.replicate (count + 1) .star ++ part) := by
    rw [starsOnly_iff noStarFirst, ← ends]
    simp [and_assoc]
  rw [tokenGroups_stars (count + 1) splitSymbols]
  by_cases isWhole : (segmentStarts && decide (0 < count) && segmentEnds after) = true
  · rw [if_pos isWhole, tokenGroups_cons (by decide), split]
    rcases whole.1 isWhole with ⟨starts, stars⟩
    have groupEmpty : group = [] := empty.2 ((starsOnly_iff noStarFirst).1 stars).2
    rw [groupEmpty]
    exact ⟨[.anyDepth], groups, _, parts, rfl, rfl, .anyDepth starts stars, others⟩
  · rw [if_neg isWhole, tokenGroups_cons (by decide), split]
    refine ⟨.star :: group, groups, _, parts, rfl, rfl, ?_, others⟩
    refine .component (fun both => isWhole (whole.2 both)) ?_ ?_ ?_
    · exact List.not_mem_cons_of_ne_of_not_mem (by decide) noDepth
    · rw [tokensLanguage_stars, tokensLanguage_cons, tokensLanguage_cons, words]
    · simp [List.replicate_succ]

/-- The groups that the compiler reads from a text render the groups of its symbols. -/
theorem allRender (segmentStarts : Bool) (text : List Char) :
    AllRender segmentStarts (tokenGroups (tokensFrom segmentStarts text))
      (tokenGroups (symbols text)) := by
  fun_induction tokensFrom segmentStarts text with
  | case1 segmentStarts =>
      rw [symbols]
      exact allRender_nil segmentStarts
  | case2 segmentStarts =>
      rw [symbols]
      exact allRender_plain (isPlain_literal '\\') (allRender_nil false)
  | case3 segmentStarts char rest ih =>
      rw [symbols]
      exact allRender_plain (isPlain_literal char) ih
  | case4 segmentStarts rest after wholeSegment ih => exact allRender_stars ih
  | case5 segmentStarts rest ih =>
      rw [symbols]
      exact allRender_plain (by simp [Token.IsPlain]) ih
  | case6 segmentStarts rest token after read ih =>
      rw [symbols_of_class read]
      exact allRender_plain (isPlain_of_readClass? read) ih
  | case7 segmentStarts rest read ih =>
      rw [symbols_of_noClass read]
      exact allRender_plain (isPlain_literal '[') ih
  | case8 segmentStarts rest ih =>
      rw [symbols]
      exact allRender_separator ih
  | case9 segmentStarts char rest single escaped notStar notAny notBracket notSeparator ih =>
      rw [symbols.eq_8 char rest single escaped notStar notAny notSeparator notBracket]
      exact allRender_plain (isPlain_literal char) ih

end Readings

section Segments

/-- Whether two segments stand for the same components. -/
inductive Segment.Agrees : Segment → Segment → Prop
  | anyDepth : Agrees .anyDepth .anyDepth
  | component {group part : List Token} (words : tokensLanguage group = tokensLanguage part) :
      Agrees (.component group) (.component part)

variable {segments others : List Segment}

theorem followingLanguage_congr (agree : List.Forall₂ Segment.Agrees segments others) :
    followingLanguage segments = followingLanguage others := by
  induction agree with
  | nil => rfl
  | cons first rest ih =>
      cases first with
      | anyDepth =>
          cases rest with
          | nil => rfl
          | cons next rest => exact congrArg ((slash * someText + 1) * ·) ih
      | component words => rw [followingLanguage, followingLanguage, words, ih]

theorem leadingLanguage_congr (agree : List.Forall₂ Segment.Agrees segments others) :
    leadingLanguage segments = leadingLanguage others := by
  cases agree with
  | nil => rfl
  | cons first rest =>
      cases first with
      | anyDepth =>
          cases rest with
          | nil => rfl
          | cons next rest =>
              cases next with
              | anyDepth =>
                  exact congrArg ((anyText * slash + 1) * ·)
                    (followingLanguage_congr (.cons .anyDepth rest))
              | component words =>
                  rw [leadingLanguage, leadingLanguage, words, followingLanguage_congr rest]
      | component words =>
          rw [leadingLanguage, leadingLanguage, words, followingLanguage_congr rest]

theorem language_congr {anchored onlyBelow : Bool}
    (agree : List.Forall₂ Segment.Agrees segments others) :
    language ⟨anchored, onlyBelow, segments⟩ = language ⟨anchored, onlyBelow, others⟩ := by
  have empty : segments.isEmpty = others.isEmpty := by
    cases agree <;> rfl
  simp only [language, empty, leadingLanguage_congr agree]

theorem merge_component (tokens : List Token) (segments : List Segment) :
    Segment.merge (.component tokens :: segments) =
      .component tokens :: Segment.merge segments := rfl

theorem merge_anyDepth_cons (segments : List Segment) :
    ∃ rest, Segment.merge (.anyDepth :: segments) = .anyDepth :: rest := by
  rw [Segment.merge]
  split <;> exact ⟨_, rfl⟩

theorem merge_anyDepth_anyDepth (segments : List Segment) :
    Segment.merge (.anyDepth :: .anyDepth :: segments) = Segment.merge (.anyDepth :: segments) := by
  rcases merge_anyDepth_cons segments with ⟨rest, merged⟩
  rw [Segment.merge, merged]

theorem merge_anyDepth_component (tokens : List Token) (segments : List Segment) :
    Segment.merge (.anyDepth :: .component tokens :: segments) =
      .anyDepth :: .component tokens :: Segment.merge segments := rfl

theorem merge_eq_destutter (segments : List Segment) : Segment.merge segments =
    segments.destutter fun first second => ¬(first = .anyDepth ∧ second = .anyDepth) := by
  cases segments with
  | nil => rfl
  | cons first segments =>
      rw [List.destutter_cons']
      induction segments generalizing first with
      | nil => cases first <;> rfl
      | cons second segments ih =>
          cases first with
          | component tokens =>
              rw [merge_component, ih, List.destutter'_cons_pos _ (by simp)]
          | anyDepth =>
              cases second with
              | anyDepth => rw [merge_anyDepth_anyDepth, ih, List.destutter'_cons_neg _ (by simp)]
              | component tokens =>
                  rw [merge_anyDepth_component, ← merge_component, ih,
                    List.destutter'_cons_pos _ (by simp)]

theorem merge_agrees (agree : List.Forall₂ Segment.Agrees segments others) :
    List.Forall₂ Segment.Agrees (Segment.merge segments) (Segment.merge others) := by
  induction agree with
  | nil => exact .nil
  | @cons _ _ segments others first rest ih =>
      cases first with
      | component words => exact .cons (.component words) ih
      | anyDepth =>
          rw [Segment.merge, Segment.merge]
          generalize Segment.merge segments = merged at ih
          generalize Segment.merge others = mergedOthers at ih
          cases ih with
          | nil => exact .cons .anyDepth .nil
          | cons next others =>
              cases next with
              | anyDepth => exact .cons .anyDepth others
              | component words => exact .cons .anyDepth (.cons (.component words) others)

theorem isEmpty_of_renders {group part : List Token} (renders : Renders true group part) :
    group.isEmpty = part.isEmpty := by
  cases renders with
  | anyDepth _ stars =>
      cases part with
      | nil => exact absurd stars.1 (by simp)
      | cons symbol part => rfl
  | component _ _ _ empty => rw [Bool.eq_iff_iff, List.isEmpty_iff, List.isEmpty_iff, empty]

theorem ofSymbols_of_stars {part : List Token} (stars : StarsOnly part) :
    Segment.ofSymbols part = .anyDepth := if_pos stars

theorem ofSymbols_of_notStars {part : List Token} (notStars : ¬StarsOnly part) :
    Segment.ofSymbols part = .component part := if_neg notStars

/-- A group that may be a whole segment becomes a segment with the words of its symbols. -/
theorem ofTokens_agrees {group part : List Token} (renders : Renders true group part) :
    Segment.Agrees (Segment.ofTokens group) (Segment.ofSymbols part) := by
  cases renders with
  | anyDepth _ stars =>
      rw [Segment.ofTokens, if_pos rfl, ofSymbols_of_stars stars]
      exact .anyDepth
  | component other noDepth words _ =>
      have notWhole : ¬StarsOnly part := fun stars => other ⟨rfl, stars⟩
      have notDepth : group ≠ [.anyDepth] := by
        rintro rfl
        exact noDepth List.mem_cons_self
      rw [Segment.ofTokens, if_neg notDepth, ofSymbols_of_notStars notWhole]
      exact .component words

theorem segments_agree {groups parts : List (List Token)}
    (render : List.Forall₂ (Renders true) groups parts) :
    List.Forall₂ Segment.Agrees ((groups.filter (!·.isEmpty)).map Segment.ofTokens)
      ((parts.filter (!·.isEmpty)).map Segment.ofSymbols) := by
  induction render with
  | nil => exact .nil
  | @cons group part groups parts first rest ih =>
      rw [List.filter_cons, List.filter_cons, isEmpty_of_renders first]
      cases part.isEmpty with
      | true => exact ih
      | false => exact .cons (ofTokens_agrees first) ih

end Segments

section Bodies

theorem renders_body (body : List Char) :
    List.Forall₂ (Renders true) (tokenGroups (tokens body)) (tokenGroups (symbols body)) := by
  rcases allRender true body with ⟨group, groups, part, parts, split, splitSymbols, first, others⟩
  rw [tokens, split, splitSymbols]
  exact .cons first others

/-- Only a body that starts with a separator has an empty first group before another one. -/
theorem emptyFirst_symbols (body : List Char) :
    ((tokenGroups (symbols body)).length > 1 && (tokenGroups (symbols body)).head? == some []) =
      (body.head? == some '/') := by
  have other {token : Token} {rest : List Token} (notSeparator : token ≠ .separator) :
      ((tokenGroups (token :: rest)).length > 1 &&
        (tokenGroups (token :: rest)).head? == some []) = false := by
    rcases exists_tokenGroups rest with ⟨group, groups, split⟩
    rw [tokenGroups_cons notSeparator, split]
    simp
  fun_cases symbols body with
  | case1 => rfl
  | case2 => exact other (by decide)
  | case3 => exact other (by simp)
  | case4 => exact other (by decide)
  | case5 => exact other (by decide)
  | case6 rest =>
      rcases exists_tokenGroups (symbols rest) with ⟨group, groups, split⟩
      rw [tokenGroups_separator, split]
      simp
  | case7 rest token after read => exact other (isPlain_of_readClass? read).2.2
  | case8 => exact other (by decide)
  | case9 char rest _ _ _ _ notSeparator =>
      have notFirst : ((char :: rest).head? == some '/') = false := by simpa using notSeparator
      rw [notFirst]
      exact other (by simp)

theorem documentedSegments_agree (body : List Char) :
    List.Forall₂ Segment.Agrees (ofPattern body).segments (documentedSegments body) := by
  have agree := merge_agrees (segments_agree (renders_body body))
  rwa [merge_eq_destutter (((tokenGroups (symbols body)).filter _).map _)] at agree

theorem anchoredInside_congr {segments others : List Segment}
    (agree : List.Forall₂ Segment.Agrees segments others) :
    anchoredInside segments = anchoredInside others := by
  cases agree with
  | nil => rfl
  | cons first rest => cases first <;> cases rest <;> rfl

theorem anchoredInside_eq (segments : List Segment) :
    anchoredInside segments = match segments with
      | first :: _ :: _ => first != .anyDepth
      | _ => false := by
  rcases segments with _ | ⟨_ | _, _ | _⟩ <;> rfl

theorem eq_some_nil (group : Option (List Token)) :
    (group == some []) = (group.map List.isEmpty == some true) := by
  rcases group with _ | _ | _ <;> rfl

theorem isEmpty_groups (body : List Char) :
    (tokenGroups (tokens body)).map List.isEmpty =
      (tokenGroups (symbols body)).map List.isEmpty := by
  have render := renders_body body
  generalize tokenGroups (tokens body) = groups at render
  generalize tokenGroups (symbols body) = parts at render
  induction render with
  | nil => rfl
  | cons first _ ih => rw [List.map_cons, List.map_cons, isEmpty_of_renders first, ih]

theorem anchored_ofPattern (body : List Char) :
    (ofPattern body).anchored = (documented body).anchored := by
  have first : ((tokenGroups (tokens body)).head? == some []) =
      ((tokenGroups (symbols body)).head? == some []) := by
    rw [eq_some_nil, eq_some_nil, ← List.head?_map, ← List.head?_map, isEmpty_groups]
  have inside := anchoredInside_congr (documentedSegments_agree body)
  have anchored : (documented body).anchored =
      (body.head? == some '/' || anchoredInside (documentedSegments body)) :=
    congrArg ((body.head? == some '/') || ·) (anchoredInside_eq _).symm
  rw [anchored, ← emptyFirst_symbols, ← inside, ← (renders_body body).length_eq, ← first]
  rfl

theorem onlyBelow_ofPattern (body : List Char) :
    (ofPattern body).onlyBelow = (documented body).onlyBelow := by
  have last : ((tokenGroups (tokens body)).getLast? == some []) =
      ((tokenGroups (symbols body)).getLast? == some []) := by
    rw [eq_some_nil, eq_some_nil, ← List.getLast?_map, ← List.getLast?_map, isEmpty_groups]
  simp only [documented, ← emptyLast_tokenGroups, ← (renders_body body).length_eq, ← last]
  rfl

/-- The glob that the compiler makes of a body has the language that the documentation gives it. -/
theorem language_ofPattern (body : List Char) :
    (ofPattern body).language = (documented body).language := by
  have sameWords := @language_congr _ _ (documented body).anchored (documented body).onlyBelow
    (documentedSegments_agree body)
  rw [← anchored_ofPattern, ← onlyBelow_ofPattern] at sameWords
  exact sameWords.trans (by rw [anchored_ofPattern, onlyBelow_ofPattern]; rfl)

theorem separated_documented (body : List Char) : Separated (documented body).segments :=
  List.isChain_destutter _ _

theorem noDepth_symbols (body : List Char) : .anyDepth ∉ symbols body := by
  have plain {token : Token} {rest : List Token} (isPlain : token.IsPlain)
      (ih : .anyDepth ∉ rest) : .anyDepth ∉ token :: rest :=
    List.not_mem_cons_of_ne_of_not_mem isPlain.2.1.symm ih
  fun_induction symbols body with
  | case1 => exact List.not_mem_nil
  | case2 => exact plain (isPlain_literal '\\') List.not_mem_nil
  | case3 char rest ih => exact plain (isPlain_literal char) ih
  | case4 rest ih => exact List.not_mem_cons_of_ne_of_not_mem (by decide) ih
  | case5 rest ih => exact plain (by simp [Token.IsPlain]) ih
  | case6 rest ih => exact List.not_mem_cons_of_ne_of_not_mem (by decide) ih
  | case7 rest token after read ih => exact plain (isPlain_of_readClass? read) ih
  | case8 rest _ ih => exact plain (isPlain_literal '[') ih
  | case9 char rest _ _ _ _ _ _ ih => exact plain (isPlain_literal char) ih

/-- Without an escaped separator, a body describes its components by inner tokens only. -/
theorem inner_documented {body : List Char} (unescaped : .literal '/' ∉ symbols body) :
    InnerSegments (documented body).segments := by
  intro tokens mem token token_mem
  have segment_mem := (List.destutter_sublist _ _).subset mem
  rcases List.mem_map.1 segment_mem with ⟨part, part_mem, equal⟩
  have partEq : part = tokens := by
    rw [Segment.ofSymbols] at equal
    split at equal
    · exact absurd equal (by simp)
    · exact Segment.component.inj equal
  subst partEq
  have inSymbols := mem_of_mem_tokenGroups (List.mem_of_mem_filter part_mem) token_mem
  cases token with
  | literal char =>
      rintro rfl
      exact unescaped inSymbols.1
  | anyDepth => exact (noDepth_symbols body inSymbols.1).elim
  | separator => exact (inSymbols.2 rfl).elim
  | _ => trivial

end Bodies

end Glob

end OwnerCoverage
