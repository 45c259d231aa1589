import OwnerCoverage.Proofs.Glob.LiteralSearch

/-!
# Components of the described texts

The parts of a glob's language meet at component borders: a path that is cut where a separator
begins is cut between two components (`exists_split_of_textBelow_eq`). So a path is in the language
exactly if the segments describe its components one after another, as `mem_language_iff_describes`
says of globs without neighbouring segments for any number of components.
-/

namespace OwnerCoverage

namespace Glob

open Regex

section Words

/-- Whether a token stands for characters inside a component only. -/
def Token.IsInner : Token → Prop
  | .literal char => char ≠ '/'
  | .anyDepth => False
  | .separator => False
  | _ => True

theorem ne_separator_of_holds {token : Token} {char : Char} (inner : token.IsInner)
    (holds : token.holds char = true) : char ≠ '/' := by
  rintro rfl
  cases token with
  | literal member =>
      rw [Token.holds_literal, beq_iff_eq] at holds
      exact inner holds.symm
  | charClass negated items =>
      rw [Token.holds_charClass] at holds
      simp at holds
  | _ => exact absurd holds (by decide)

theorem mem_charLanguage_mul_iff {test : Char → Bool} {rest : Language Char} {word : List Char} :
    word ∈ charLanguage test * rest ↔
      ∃ char tail, word = char :: tail ∧ test char = true ∧ tail ∈ rest := by
  constructor
  · intro mem
    rcases Language.mem_mul.1 mem with ⟨_, ⟨char, holds, rfl⟩, tail, tail_mem, rfl⟩
    exact ⟨char, tail, rfl, holds, tail_mem⟩
  · rintro ⟨char, tail, rfl, holds, tail_mem⟩
    apply Language.mem_mul.2
    exact ⟨[char], ⟨char, holds, rfl⟩, tail, tail_mem, rfl⟩

theorem any_tails_iff {α : Type} {test : List α → Bool} {list : List α} :
    list.tails.any test = true ↔ ∃ before after, list = before ++ after ∧ test after = true := by
  rw [List.any_eq_true]
  constructor
  · rintro ⟨after, mem, holds⟩
    rcases (List.mem_tails ..).1 mem with ⟨before, rfl⟩
    exact ⟨before, after, rfl, holds⟩
  · rintro ⟨before, after, rfl, holds⟩
    exact ⟨after, (List.mem_tails ..).2 (List.suffix_append before after), holds⟩

/-- The words of tokens that stand inside a component are the names that the tokens describe. -/
theorem mem_tokensLanguage_iff {tokens : List Token} (inner : ∀ token ∈ tokens, token.IsInner)
    {word : List Char} :
    word ∈ tokensLanguage tokens ↔ '/' ∉ word ∧ describesName tokens word = true := by
  induction tokens generalizing word with
  | nil =>
      change word ∈ (1 : Language Char) ↔ _
      rw [Language.mem_one, describesName, List.isEmpty_iff]
      constructor
      · rintro rfl
        exact ⟨List.not_mem_nil, rfl⟩
      · exact And.right
  | cons token tokens ih =>
      rcases List.forall_mem_cons.1 inner with ⟨innerFirst, innerRest⟩
      have step : tokensLanguage (token :: tokens) = token.language * tokensLanguage tokens := rfl
      rw [step]
      by_cases isStar : token = .star
      · subst isStar
        rw [describesName, any_tails_iff, Language.mem_mul]
        constructor
        · rintro ⟨before, before_mem, after, after_mem, rfl⟩
          rcases (ih innerRest).1 after_mem with ⟨noSeparator, described⟩
          refine ⟨?_, before, after, rfl, described⟩
          rw [List.mem_append]
          rintro (mem | mem)
          · simpa using before_mem '/' mem
          · exact noSeparator mem
        · rintro ⟨noSeparator, before, after, rfl, described⟩
          rw [List.mem_append, not_or] at noSeparator
          refine ⟨before, ?_, after, (ih innerRest).2 ⟨noSeparator.2, described⟩, rfl⟩
          intro char mem
          rw [bne_iff_ne]
          rintro rfl
          exact noSeparator.1 mem
      · have single : token.language = charLanguage token.holds := by
          cases token with
          | star => exact absurd rfl isStar
          | anyDepth => exact absurd innerFirst id
          | separator => exact absurd innerFirst id
          | _ => rfl
        rw [single, mem_charLanguage_mul_iff]
        constructor
        · rintro ⟨char, tail, rfl, holds, tail_mem⟩
          rcases (ih innerRest).1 tail_mem with ⟨noSeparator, described⟩
          refine ⟨List.not_mem_cons_of_ne_of_not_mem ?_ noSeparator, ?_⟩
          · exact (ne_separator_of_holds innerFirst holds).symm
          · rw [describesName.eq_4 _ _ _ _ isStar, holds, described]
            rfl
        · rintro ⟨noSeparator, described⟩
          cases word with
          | nil =>
              rw [describesName.eq_3 _ _ isStar] at described
              exact absurd described (by decide)
          | cons char tail =>
              rw [describesName.eq_4 _ _ _ _ isStar, Bool.and_eq_true] at described
              rw [List.mem_cons, not_or] at noSeparator
              exact ⟨char, tail, rfl, described.1, (ih innerRest).2 ⟨noSeparator.2, described.2⟩⟩

end Words

section Borders

/-- The text of names with a separator before each. -/
def textBelow (names : List (List Char)) : List Char := names.flatMap ('/' :: ·)

@[simp]
theorem textBelow_nil : textBelow [] = [] := rfl

@[simp]
theorem textBelow_cons (name : List Char) (names : List (List Char)) :
    textBelow (name :: names) = '/' :: (name ++ textBelow names) := rfl

@[simp]
theorem textBelow_append (first second : List (List Char)) :
    textBelow (first ++ second) = textBelow first ++ textBelow second :=
  List.flatMap_append

/-- Whether a text is empty or begins with a separator. -/
def AtBorder (text : List Char) : Prop := text = [] ∨ ∃ rest, text = '/' :: rest

theorem atBorder_textBelow (names : List (List Char)) : AtBorder (textBelow names) := by
  cases names with
  | nil => exact Or.inl rfl
  | cons name names => exact Or.inr ⟨_, rfl⟩

/-- A text behind a name begins at a border only if it lies behind the whole name. -/
theorem eq_append_of_atBorder {name rest before after : List Char} (noSeparator : '/' ∉ name)
    (border : AtBorder after) (cut : name ++ rest = before ++ after) :
    ∃ more, before = name ++ more ∧ rest = more ++ after := by
  rcases List.append_eq_append_iff.1 cut with ⟨more, rfl, equal⟩ | ⟨more, rfl, equal⟩
  · exact ⟨more, rfl, equal⟩
  · rcases border with rfl | ⟨tail, rfl⟩
    · rcases List.append_eq_nil_iff.1 equal.symm with ⟨rfl, rfl⟩
      exact ⟨[], by simp, rfl⟩
    · cases more with
      | nil => exact ⟨[], by simp, by simpa using equal.symm⟩
      | cons char more =>
          rw [List.cons_append, List.cons.injEq] at equal
          rw [← equal.1] at noSeparator
          simp at noSeparator

/-- A text below some names that is cut at a border is cut between two of the names. -/
theorem exists_split_of_textBelow_eq {names : List (List Char)}
    (noSeparator : ∀ name ∈ names, '/' ∉ name) {before after : List Char} (border : AtBorder after)
    (cut : textBelow names = before ++ after) :
    ∃ taken left, names = taken ++ left ∧ before = textBelow taken ∧ after = textBelow left := by
  induction names generalizing before with
  | nil =>
      rcases List.append_eq_nil_iff.1 cut.symm with ⟨rfl, rfl⟩
      exact ⟨[], [], rfl, rfl, rfl⟩
  | cons name names ih =>
      cases before with
      | nil => exact ⟨[], name :: names, rfl, rfl, cut.symm⟩
      | cons char before =>
          rcases List.forall_mem_cons.1 noSeparator with ⟨noSeparatorFirst, noSeparatorRest⟩
          rw [textBelow_cons, List.cons_append, List.cons.injEq] at cut
          rcases cut with ⟨rfl, cut⟩
          rcases eq_append_of_atBorder noSeparatorFirst border cut with ⟨more, rfl, cutRest⟩
          rcases ih noSeparatorRest cutRest with ⟨taken, left, rfl, rfl, rfl⟩
          exact ⟨name :: taken, left, rfl, rfl, rfl⟩

/-- A name without separators that stands before a border is the whole first name. -/
theorem eq_of_atBorder {name word after : List Char} {names : List (List Char)}
    (noSeparator : '/' ∉ name) (noSeparatorWord : '/' ∉ word) (border : AtBorder after)
    (cut : name ++ textBelow names = word ++ after) : word = name ∧ after = textBelow names := by
  rcases eq_append_of_atBorder noSeparator border cut with ⟨more, rfl, equal⟩
  cases more with
  | nil => exact ⟨List.append_nil name, equal.symm⟩
  | cons char more =>
      rcases atBorder_textBelow names with empty | ⟨rest, starts⟩
      · rw [empty] at equal
        exact absurd equal (by simp)
      · rw [starts, List.cons_append, List.cons.injEq] at equal
        rw [← equal.1] at noSeparatorWord
        simp at noSeparatorWord

end Borders

/-- Whether a text is one component of a path. -/
structure IsComponent (name : List Char) : Prop where
  ne_nil : name ≠ []
  noSeparator : '/' ∉ name
  noLineFeed : '\n' ∉ name

section Texts

variable {rest : Language Char} {tail : List Char}

theorem cons_mem_slash_mul_iff : '/' :: tail ∈ slash * rest ↔ tail ∈ rest := by
  rw [slash, mem_charLanguage_mul_iff]
  simp

theorem nil_notMem_slash_mul : [] ∉ slash * rest := by
  rw [slash, mem_charLanguage_mul_iff]
  simp

theorem exists_of_mem_slash_mul {word : List Char} (mem : word ∈ slash * rest) :
    ∃ tail, word = '/' :: tail ∧ tail ∈ rest := by
  rw [slash, mem_charLanguage_mul_iff] at mem
  rcases mem with ⟨char, tail, rfl, isSlash, tail_mem⟩
  rw [beq_iff_eq] at isSlash
  exact ⟨tail, by rw [isSlash], tail_mem⟩

theorem mem_anyText_iff {word : List Char} : word ∈ anyText ↔ '\n' ∉ word := by
  constructor
  · intro holds mem
    simpa using holds '\n' mem
  · intro notMem char mem
    rw [bne_iff_ne]
    rintro rfl
    exact notMem mem

theorem mem_someText_iff {word : List Char} : word ∈ someText ↔ word ≠ [] ∧ '\n' ∉ word := by
  rw [someText, mem_charLanguage_mul_iff]
  constructor
  · rintro ⟨char, tail, rfl, other, tail_mem⟩
    rw [mem_anyText_iff] at tail_mem
    rw [bne_iff_ne] at other
    exact ⟨by simp, List.not_mem_cons_of_ne_of_not_mem other.symm tail_mem⟩
  · rintro ⟨nonempty, noLineFeed⟩
    cases word with
    | nil => exact absurd rfl nonempty
    | cons char tail =>
        rw [List.mem_cons, not_or] at noLineFeed
        exact ⟨char, tail, rfl, bne_iff_ne.2 (Ne.symm noLineFeed.1), mem_anyText_iff.2 noLineFeed.2⟩

theorem noLineFeed_textBelow {names : List (List Char)} (valid : ∀ name ∈ names, IsComponent name) :
    '\n' ∉ textBelow names := by
  intro mem
  rcases List.mem_flatMap.1 mem with ⟨name, name_mem, mem⟩
  rcases List.mem_cons.1 mem with equal | mem
  · exact absurd equal (by decide)
  · exact (valid name name_mem).noLineFeed mem

theorem atBorder_of_mem_suffixLanguage {onlyBelow : Bool} {word : List Char}
    (mem : word ∈ suffixLanguage onlyBelow) : AtBorder word := by
  cases onlyBelow with
  | true =>
      rcases exists_of_mem_slash_mul mem with ⟨tail, rfl, _⟩
      exact Or.inr ⟨tail, rfl⟩
  | false =>
      rcases (Language.mem_add ..).1 mem with mem | mem
      · rcases exists_of_mem_slash_mul mem with ⟨tail, rfl, _⟩
        exact Or.inr ⟨tail, rfl⟩
      · exact Or.inl mem

theorem atBorder_of_mem_followingLanguage {segments : List Segment} {onlyBelow : Bool}
    {word : List Char} (mem : word ∈ followingLanguage segments * suffixLanguage onlyBelow) :
    AtBorder word := by
  fun_induction followingLanguage segments generalizing word with
  | case1 =>
      rw [one_mul] at mem
      exact atBorder_of_mem_suffixLanguage mem
  | case2 =>
      rw [mul_assoc] at mem
      rcases exists_of_mem_slash_mul mem with ⟨tail, rfl, _⟩
      exact Or.inr ⟨tail, rfl⟩
  | case3 rest notLast ih =>
      rw [mul_assoc] at mem
      rcases Language.mem_mul.1 mem with ⟨before, before_mem, after, after_mem, rfl⟩
      rcases (Language.mem_add ..).1 before_mem with before_mem | before_mem
      · rcases exists_of_mem_slash_mul before_mem with ⟨tail, rfl, _⟩
        exact Or.inr ⟨_, rfl⟩
      · rw [Language.mem_one] at before_mem
        subst before_mem
        exact ih after_mem
  | case4 tokens rest ih =>
      rw [mul_assoc] at mem
      rcases exists_of_mem_slash_mul mem with ⟨tail, rfl, _⟩
      exact Or.inr ⟨tail, rfl⟩

theorem textBelow_mem_suffixLanguage_iff {onlyBelow : Bool} {names : List (List Char)}
    (valid : ∀ name ∈ names, IsComponent name) :
    textBelow names ∈ suffixLanguage onlyBelow ↔ describesNames onlyBelow [] names = true := by
  cases names with
  | nil =>
      cases onlyBelow with
      | true => simpa [describesNames, suffixLanguage] using nil_notMem_slash_mul
      | false => simp [describesNames, suffixLanguage, Language.mem_add]
  | cons name names =>
      have below : textBelow (name :: names) ∈ slash * anyText := by
        rw [textBelow_cons, cons_mem_slash_mul_iff, mem_anyText_iff]
        exact fun mem => noLineFeed_textBelow valid (List.mem_cons_of_mem _ mem)
      cases onlyBelow with
      | true => simpa [describesNames, suffixLanguage] using below
      | false => simpa [describesNames, suffixLanguage, Language.mem_add] using below

end Texts

/-- Whether the segments for one component hold inner tokens only. -/
def InnerSegments (segments : List Segment) : Prop :=
  ∀ tokens, .component tokens ∈ segments → ∀ token ∈ tokens, token.IsInner

theorem InnerSegments.tail {segment : Segment} {segments : List Segment}
    (inner : InnerSegments (segment :: segments)) : InnerSegments segments :=
  fun tokens mem => inner tokens (List.mem_cons_of_mem segment mem)

theorem InnerSegments.head {tokens : List Token} {segments : List Segment}
    (inner : InnerSegments (.component tokens :: segments)) : ∀ token ∈ tokens, token.IsInner :=
  inner tokens List.mem_cons_self

section Segments

variable {onlyBelow : Bool} {names : List (List Char)} {segments : List Segment}

theorem describesNames_last : describesNames onlyBelow [.anyDepth] names = true ↔
    ∃ name below left, names = name :: (below ++ left) ∧
      describesNames onlyBelow [] left = true := by
  cases names with
  | nil => simp [describesNames]
  | cons name names =>
      rw [describesNames, any_tails_iff]
      constructor
      · rintro ⟨below, left, rfl, described⟩
        exact ⟨name, below, left, rfl, described⟩
      · rintro ⟨_, below, left, equal, described⟩
        rw [List.cons.injEq] at equal
        exact ⟨below, left, equal.2, described⟩

theorem describesNames_anyDepth (notLast : segments ≠ []) :
    describesNames onlyBelow (.anyDepth :: segments) names =
      names.tails.any (describesNames onlyBelow segments) := by
  cases segments with
  | nil => exact absurd rfl notLast
  | cons segment segments => rfl

theorem textBelow_mem_last_iff (valid : ∀ name ∈ names, IsComponent name) :
    textBelow names ∈ slash * anyText * suffixLanguage onlyBelow ↔
      describesNames onlyBelow [.anyDepth] names = true := by
  rw [describesNames_last, mul_assoc]
  constructor
  · intro mem
    rcases exists_of_mem_slash_mul mem with ⟨tail, starts, tail_mem⟩
    rcases Language.mem_mul.1 tail_mem with ⟨before, _, after, after_mem, rfl⟩
    have border := atBorder_of_mem_suffixLanguage after_mem
    rw [← List.cons_append] at starts
    rcases exists_split_of_textBelow_eq (fun name mem => (valid name mem).noSeparator) border starts
      with ⟨_ | ⟨name, below⟩, left, rfl, equal, rfl⟩
    · exact absurd equal (by simp)
    · refine ⟨name, below, left, rfl, (textBelow_mem_suffixLanguage_iff ?_).1 after_mem⟩
      exact fun name mem => valid name (List.mem_append_right _ mem)
  · rintro ⟨name, below, left, rfl, described⟩
    have validTaken : ∀ taken ∈ name :: below, IsComponent taken :=
      fun taken mem => valid taken (List.mem_append_left left mem)
    have validLeft : ∀ other ∈ left, IsComponent other :=
      fun other mem => valid other (List.mem_append_right (name :: below) mem)
    rw [textBelow_cons, cons_mem_slash_mul_iff, textBelow_append, ← List.append_assoc]
    refine Language.append_mem_mul (mem_anyText_iff.2 ?_)
      ((textBelow_mem_suffixLanguage_iff validLeft).2 described)
    exact fun mem => noLineFeed_textBelow validTaken (List.mem_cons_of_mem _ mem)

/-- A text below some names is described by segments that each have a separator before them exactly
if the segments describe the names one after another. -/
theorem textBelow_mem_followingLanguage_iff (inner : InnerSegments segments)
    (valid : ∀ name ∈ names, IsComponent name) :
    textBelow names ∈ followingLanguage segments * suffixLanguage onlyBelow ↔
      describesNames onlyBelow segments names = true := by
  fun_induction followingLanguage segments generalizing names with
  | case1 =>
      rw [one_mul]
      exact textBelow_mem_suffixLanguage_iff valid
  | case2 => exact textBelow_mem_last_iff valid
  | case3 rest notLast ih =>
      rw [mul_assoc, describesNames_anyDepth notLast, any_tails_iff]
      constructor
      · intro mem
        rcases Language.mem_mul.1 mem with ⟨before, _, after, after_mem, cut⟩
        have border := atBorder_of_mem_followingLanguage after_mem
        rcases exists_split_of_textBelow_eq (fun name mem => (valid name mem).noSeparator) border
          cut.symm with ⟨taken, left, rfl, rfl, rfl⟩
        refine ⟨taken, left, rfl, (ih inner.tail ?_).1 after_mem⟩
        exact fun name mem => valid name (List.mem_append_right taken mem)
      · rintro ⟨taken, left, rfl, described⟩
        have validLeft : ∀ name ∈ left, IsComponent name :=
          fun name mem => valid name (List.mem_append_right taken mem)
        rw [textBelow_append]
        refine Language.append_mem_mul ?_ ((ih inner.tail validLeft).2 described)
        rw [Language.mem_add]
        cases taken with
        | nil => exact Or.inr Language.nil_mem_one
        | cons name taken =>
            have validTaken : ∀ other ∈ name :: taken, IsComponent other :=
              fun other mem => valid other (List.mem_append_left left mem)
            rw [textBelow_cons, cons_mem_slash_mul_iff, mem_someText_iff]
            refine Or.inl ⟨?_, fun mem => ?_⟩
            · exact fun empty =>
                (validTaken name List.mem_cons_self).ne_nil (List.append_eq_nil_iff.1 empty).1
            · exact noLineFeed_textBelow validTaken (List.mem_cons_of_mem _ mem)
  | case4 tokens rest ih =>
      rw [mul_assoc, mul_assoc]
      cases names with
      | nil => simpa [describesNames] using nil_notMem_slash_mul
      | cons name names =>
          rcases List.forall_mem_cons.1 valid with ⟨validName, validRest⟩
          rw [textBelow_cons, cons_mem_slash_mul_iff, describesNames, Bool.and_eq_true]
          constructor
          · intro mem
            rcases Language.mem_mul.1 mem with ⟨word, word_mem, after, after_mem, cut⟩
            rcases (mem_tokensLanguage_iff inner.head).1 word_mem with ⟨noSeparator, described⟩
            have border := atBorder_of_mem_followingLanguage after_mem
            rcases eq_of_atBorder validName.noSeparator noSeparator border cut.symm with ⟨rfl, rfl⟩
            exact ⟨described, (ih inner.tail validRest).1 after_mem⟩
          · rintro ⟨describedName, describedRest⟩
            refine Language.append_mem_mul ?_ ((ih inner.tail validRest).2 describedRest)
            apply (mem_tokensLanguage_iff inner.head).2
            exact ⟨validName.noSeparator, describedName⟩

end Segments

section Paths

/-- The text of a path with these names. -/
def textOfNames (names : List (List Char)) : List Char := ['/'].intercalate names

theorem cons_textOfNames {names : List (List Char)} (nonempty : names ≠ []) :
    '/' :: textOfNames names = textBelow names := by
  induction names with
  | nil => exact absurd rfl nonempty
  | cons name names ih =>
      cases names with
      | nil => simp [textOfNames]
      | cons next names =>
          rw [textBelow_cons, ← ih (List.cons_ne_nil next names), textOfNames, textOfNames,
            List.intercalate_cons_cons]
          simp

variable {onlyBelow : Bool} {names : List (List Char)} {segments : List Segment}

/-- Whether no two neighbours both stand for any number of components. -/
def Separated (segments : List Segment) : Prop :=
  segments.IsChain fun first second => ¬(first = .anyDepth ∧ second = .anyDepth)

theorem noSeparator_of_valid (valid : ∀ name ∈ names, IsComponent name) :
    ∀ name ∈ names, '/' ∉ name := fun name mem => (valid name mem).noSeparator

theorem describesNames_nil (nonempty : segments ≠ []) :
    describesNames onlyBelow segments [] = false := by
  induction segments with
  | nil => exact absurd rfl nonempty
  | cons segment rest ih =>
      cases segment with
      | component tokens => rfl
      | anyDepth =>
          cases rest with
          | nil => rfl
          | cons next rest =>
              rw [describesNames_anyDepth (List.cons_ne_nil next rest)]
              simpa using ih (List.cons_ne_nil next rest)

/-- What stands at any depth begins with one of the components. -/
theorem textOfNames_mem_above_iff {language : Language Char} (nonempty : names ≠ [])
    (valid : ∀ name ∈ names, IsComponent name) :
    textOfNames names ∈ (anyText * slash + 1) * language ↔
      ∃ above left, names = above ++ left ∧ left ≠ [] ∧ textOfNames left ∈ language := by
  rw [Language.mem_mul]
  constructor
  · rintro ⟨before, before_mem, after, after_mem, cut⟩
    rcases (Language.mem_add ..).1 before_mem with before_mem | before_mem
    · rcases Language.mem_mul.1 before_mem with ⟨text, _, _, ⟨char, isSlash, rfl⟩, rfl⟩
      rw [beq_iff_eq] at isSlash
      subst isSlash
      have starts : textBelow names = '/' :: text ++ '/' :: after := by
        rw [← cons_textOfNames nonempty, ← cut]
        simp
      rcases exists_split_of_textBelow_eq (noSeparator_of_valid valid) (Or.inr ⟨after, rfl⟩) starts
        with ⟨above, left, rfl, _, equal⟩
      have leftNonempty : left ≠ [] := by
        rintro rfl
        simp at equal
      rw [← cons_textOfNames leftNonempty, List.cons.injEq] at equal
      exact ⟨above, left, rfl, leftNonempty, equal.2 ▸ after_mem⟩
    · rw [Language.mem_one] at before_mem
      subst before_mem
      rw [List.nil_append] at cut
      exact ⟨[], names, rfl, nonempty, cut ▸ after_mem⟩
  · rintro ⟨above, left, rfl, leftNonempty, mem⟩
    cases above with
    | nil => exact ⟨[], Or.inr rfl, textOfNames left, mem, rfl⟩
    | cons name above =>
        have validAbove : ∀ other ∈ name :: above, IsComponent other :=
          fun other mem => valid other (List.mem_append_left left mem)
        have joined := cons_textOfNames nonempty
        rw [textBelow_append, ← cons_textOfNames leftNonempty, textBelow_cons, List.cons_append,
          List.cons_append, List.cons.injEq] at joined
        refine ⟨name ++ textBelow above ++ ['/'], Or.inl ?_, textOfNames left, mem, ?_⟩
        · refine Language.append_mem_mul (mem_anyText_iff.2 ?_) ⟨'/', rfl, rfl⟩
          exact fun mem => noLineFeed_textBelow validAbove (List.mem_cons_of_mem _ mem)
        · rw [List.cons_append, joined.2]
          simp

theorem textOfNames_mem_component_iff {tokens : List Token}
    (inner : InnerSegments (.component tokens :: segments)) (nonempty : names ≠ [])
    (valid : ∀ name ∈ names, IsComponent name) :
    textOfNames names ∈
        tokensLanguage tokens * followingLanguage segments * suffixLanguage onlyBelow ↔
      describesNames onlyBelow (.component tokens :: segments) names = true := by
  rw [← textBelow_mem_followingLanguage_iff inner valid, ← cons_textOfNames nonempty,
    followingLanguage, mul_assoc slash, cons_mem_slash_mul_iff]

/-- The path of some names is described by segments without a separator in front exactly if the
segments describe the names one after another. -/
theorem textOfNames_mem_leadingLanguage_iff (inner : InnerSegments segments)
    (separated : Separated segments) (some : segments ≠ []) (nonempty : names ≠ [])
    (valid : ∀ name ∈ names, IsComponent name) :
    textOfNames names ∈ leadingLanguage segments * suffixLanguage onlyBelow ↔
      describesNames onlyBelow segments names = true := by
  fun_cases leadingLanguage segments with
  | case1 => exact absurd rfl some
  | case2 =>
      rw [← textBelow_mem_last_iff valid, ← cons_textOfNames nonempty, mul_assoc slash,
        cons_mem_slash_mul_iff]
  | case3 tokens rest =>
      rw [mul_assoc, textOfNames_mem_above_iff nonempty valid,
        describesNames_anyDepth (List.cons_ne_nil _ rest), any_tails_iff]
      constructor
      · rintro ⟨above, left, rfl, leftNonempty, mem⟩
        refine ⟨above, left, rfl, (textOfNames_mem_component_iff inner.tail leftNonempty ?_).1 mem⟩
        exact fun name mem => valid name (List.mem_append_right above mem)
      · rintro ⟨above, left, rfl, described⟩
        have leftNonempty : left ≠ [] := by
          rintro rfl
          exact absurd described (by simp [describesNames])
        refine ⟨above, left, rfl, leftNonempty, ?_⟩
        refine (textOfNames_mem_component_iff inner.tail leftNonempty ?_).2 described
        exact fun name mem => valid name (List.mem_append_right above mem)
  | case4 rest notLast notComponent =>
      rcases rest with _ | ⟨_ | tokens, rest⟩
      · exact (notLast rfl).elim
      · exact absurd ⟨rfl, rfl⟩ (List.isChain_cons_cons.1 separated).1
      · exact (notComponent tokens rest rfl).elim
  | case5 tokens rest =>
      exact textOfNames_mem_component_iff inner nonempty valid

theorem textOfNames_mem_optionalSlash_iff {language : Language Char} (nonempty : names ≠ [])
    (valid : ∀ name ∈ names, IsComponent name) :
    textOfNames names ∈ (slash + 1) * language ↔ textOfNames names ∈ language := by
  rw [add_mul, one_mul, Language.mem_add, or_iff_right]
  intro mem
  rcases exists_of_mem_slash_mul mem with ⟨tail, starts, _⟩
  have below := cons_textOfNames nonempty
  rcases List.exists_cons_of_ne_nil nonempty with ⟨name, rest, rfl⟩
  rw [starts, textBelow_cons, List.cons.injEq] at below
  have validName := valid name List.mem_cons_self
  rcases List.exists_cons_of_ne_nil validName.ne_nil with ⟨char, more, rfl⟩
  rw [List.cons_append, List.cons.injEq] at below
  exact validName.noSeparator (below.2.1 ▸ List.mem_cons_self)

/-- A path is in the language of a glob exactly if the glob describes its components. -/
theorem mem_language_iff_describes {glob : Glob} (inner : InnerSegments glob.segments)
    (separated : Separated glob.segments) (nonempty : names ≠ [])
    (valid : ∀ name ∈ names, IsComponent name) :
    textOfNames names ∈ glob.language ↔ glob.describes names = true := by
  unfold language describes
  by_cases empty : glob.segments = []
  · have noLineFeed : '\n' ∉ textOfNames names := by
      have below := noLineFeed_textBelow valid
      rw [← cons_textOfNames nonempty] at below
      exact fun mem => below (List.mem_cons_of_mem _ mem)
    simpa [empty] using mem_anyText_iff.2 noLineFeed
  · simp only [List.isEmpty_iff, empty, if_false, Bool.or_eq_true, false_or]
    cases glob.anchored with
    | true =>
        rw [prefixLanguage, if_pos rfl, if_pos rfl,
          textOfNames_mem_optionalSlash_iff nonempty valid]
        exact textOfNames_mem_leadingLanguage_iff inner separated empty nonempty valid
    | false =>
        rw [prefixLanguage, if_neg Bool.false_ne_true, if_neg Bool.false_ne_true,
          textOfNames_mem_above_iff nonempty valid, any_tails_iff]
        constructor
        · rintro ⟨above, left, rfl, leftNonempty, mem⟩
          have validLeft : ∀ name ∈ left, IsComponent name :=
            fun name mem => valid name (List.mem_append_right above mem)
          exact ⟨above, left, rfl, (textOfNames_mem_leadingLanguage_iff inner separated empty
            leftNonempty validLeft).1 mem⟩
        · rintro ⟨above, left, rfl, described⟩
          have leftNonempty : left ≠ [] := by
            rintro rfl
            exact absurd described (by simp [describesNames_nil empty])
          have validLeft : ∀ name ∈ left, IsComponent name :=
            fun name mem => valid name (List.mem_append_right above mem)
          exact ⟨above, left, rfl, leftNonempty, (textOfNames_mem_leadingLanguage_iff inner
            separated empty leftNonempty validLeft).2 described⟩

end Paths

end Glob

end OwnerCoverage
