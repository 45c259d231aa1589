import Mathlib.Computability.Language
import OwnerCoverage.Regex.Spans

/-!
# Languages of regular expressions

An expression without anchors matches a part of a text exactly if that part, taken alone, is in the
language of the expression, whatever stands before and after it. `spans_iff` says so for the
positions of a match, and `foundIn_anchored_iff` for a sequence of expressions that is tied to both
ends of the text.
-/

namespace OwnerCoverage

namespace Regex

open Computability

/-- The texts of one character that passes a test. -/
def charLanguage (test : Char → Bool) : Language Char :=
  {word | ∃ char, test char = true ∧ word = [char]}

/-- The texts of characters that all pass a test. -/
def runLanguage (test : Char → Bool) : Language Char := {word | ∀ char ∈ word, test char = true}

theorem mem_runLanguage {test : Char → Bool} {word : List Char} :
    word ∈ runLanguage test ↔ ∀ char ∈ word, test char = true := Iff.rfl

theorem kstar_charLanguage (test : Char → Bool) : (charLanguage test)∗ = runLanguage test := by
  ext word
  constructor
  · rintro ⟨words, rfl, wordsMem⟩ char char_mem
    rcases List.mem_flatten.1 char_mem with ⟨single, single_mem, char_mem⟩
    rcases wordsMem single single_mem with ⟨member, holds, rfl⟩
    rwa [List.mem_singleton.1 char_mem]
  · intro holds
    refine ⟨word.map fun char => [char], by simp [← List.flatMap_def], ?_⟩
    intro single single_mem
    rcases List.mem_map.1 single_mem with ⟨char, char_mem, rfl⟩
    exact ⟨char, holds char char_mem, rfl⟩

/-- The texts that an expression stands for, if no anchor is in its way. -/
def language : Regex CharSet → Language Char
  | .empty => 1
  | .oneOf set => charLanguage set.contains
  | .textStart => 1
  | .textEnd => 1
  | .concat first second => first.language * second.language
  | .alternate left right => left.language + right.language
  | .star body => body.language∗

/-- Whether no anchor stands in an expression. -/
def AnchorFree : Regex CharSet → Prop
  | .empty => True
  | .oneOf _ => True
  | .textStart => False
  | .textEnd => False
  | .concat first second => first.AnchorFree ∧ second.AnchorFree
  | .alternate left right => left.AnchorFree ∧ right.AnchorFree
  | .star body => body.AnchorFree

/-- What a match of an expression without anchors covers is in the language. -/
theorem exists_mem_language_of_spans {text : List Char} {regex : Regex CharSet}
    {start finish : Nat} (free : regex.AnchorFree) (span : Spans text regex start finish) :
    ∃ word ∈ regex.language, text.drop start = word ++ text.drop finish := by
  induction span with
  | empty => exact ⟨[], rfl, rfl⟩
  | @oneOf set position char here member =>
      rcases List.getElem?_eq_some_iff.1 here with ⟨inside, rfl⟩
      exact ⟨[text[position]], ⟨_, member, rfl⟩, List.drop_eq_getElem_cons inside⟩
  | textStart => exact free.elim
  | textEnd => exact free.elim
  | concat _ _ ihFirst ihSecond =>
      rcases ihFirst free.1 with ⟨first, firstMem, cutFirst⟩
      rcases ihSecond free.2 with ⟨second, secondMem, cutSecond⟩
      refine ⟨first ++ second, Language.append_mem_mul firstMem secondMem, ?_⟩
      rw [cutFirst, cutSecond, List.append_assoc]
  | left _ ih =>
      rcases ih free.1 with ⟨word, mem, cut⟩
      exact ⟨word, Or.inl mem, cut⟩
  | right _ ih =>
      rcases ih free.2 with ⟨word, mem, cut⟩
      exact ⟨word, Or.inr mem, cut⟩
  | done => exact ⟨[], Language.nil_mem_kstar _, rfl⟩
  | again _ _ ihOnce ihMore =>
      rcases ihOnce free with ⟨once, onceMem, cutOnce⟩
      rcases ihMore free with ⟨more, ⟨words, rfl, wordsMem⟩, cutMore⟩
      refine ⟨once ++ words.flatten, ⟨once :: words, rfl, ?_⟩, ?_⟩
      · exact List.forall_mem_cons.2 ⟨onceMem, wordsMem⟩
      · rw [cutOnce, cutMore, List.append_assoc]

/-- Where a word of a text ends, the rest of the text begins. -/
theorem drop_of_cut {text word rest : List Char} {start : Nat} (inside : start ≤ text.length)
    (cut : text.drop start = word ++ rest) :
    start + word.length ≤ text.length ∧ text.drop (start + word.length) = rest := by
  constructor
  · have lengths := congrArg List.length cut
    simp only [List.length_drop, List.length_append] at lengths
    omega
  · rw [← List.drop_drop, cut, List.drop_left]

/-- A word of the language is matched wherever it stands in a text. -/
theorem spans_of_mem_language {text word rest : List Char} {regex : Regex CharSet} {start : Nat}
    (free : regex.AnchorFree) (inside : start ≤ text.length) (mem : word ∈ regex.language)
    (cut : text.drop start = word ++ rest) : Spans text regex start (start + word.length) := by
  induction regex generalizing start word rest with
  | empty =>
      rw [language, Language.mem_one] at mem
      subst mem
      exact .empty inside
  | oneOf set =>
      rcases mem with ⟨char, member, rfl⟩
      refine .oneOf ?_ member
      rw [← List.head?_drop, cut]
      rfl
  | textStart => exact free.elim
  | textEnd => exact free.elim
  | concat first second ihFirst ihSecond =>
      rcases Language.mem_mul.1 mem with ⟨before, beforeMem, after, afterMem, rfl⟩
      rw [List.append_assoc] at cut
      rcases drop_of_cut inside cut with ⟨insideAfter, cutAfter⟩
      have span := Spans.concat (ihFirst free.1 inside beforeMem cut)
        (ihSecond free.2 insideAfter afterMem cutAfter)
      rwa [List.length_append, ← Nat.add_assoc]
  | alternate left right ihLeft ihRight =>
      rcases mem with mem | mem
      · exact .left (ihLeft free.1 inside mem cut)
      · exact .right (ihRight free.2 inside mem cut)
  | star body ih =>
      rcases mem with ⟨words, rfl, wordsMem⟩
      induction words generalizing start with
      | nil => exact .done inside
      | cons first words ihWords =>
          rcases List.forall_mem_cons.1 wordsMem with ⟨firstMem, wordsMem⟩
          rw [List.flatten_cons, List.append_assoc] at cut
          rcases drop_of_cut inside cut with ⟨insideWords, cutWords⟩
          have span := Spans.again (ih free inside firstMem cut)
            (ihWords insideWords wordsMem cutWords)
          rwa [List.flatten_cons, List.length_append, ← Nat.add_assoc]

/-- An expression without anchors matches a whole text exactly if the text is in its language. -/
theorem spans_whole_iff {text : List Char} {regex : Regex CharSet} (free : regex.AnchorFree) :
    Spans text regex 0 text.length ↔ text ∈ regex.language := by
  constructor
  · intro span
    rcases exists_mem_language_of_spans free span with ⟨word, mem, cut⟩
    rw [List.drop_zero, List.drop_length, List.append_nil] at cut
    rwa [cut]
  · intro mem
    have cut : text.drop 0 = text ++ [] := by simp
    simpa using spans_of_mem_language free (Nat.zero_le _) mem cut

theorem spans_sequence_cons_iff {text : List Char} {first : Regex CharSet}
    {items : List (Regex CharSet)} {start finish : Nat} :
    Spans text (sequence (first :: items)) start finish ↔
      ∃ middle, Spans text first start middle ∧ Spans text (sequence items) middle finish := by
  cases items with
  | nil =>
      constructor
      · intro span
        exact ⟨finish, span, .empty span.bounds.2⟩
      · rintro ⟨middle, span, rest⟩
        cases rest
        exact span
  | cons second items => exact Spans.concat_iff

theorem spans_sequence_append_iff {text : List Char} {items more : List (Regex CharSet)}
    {start finish : Nat} (inside : start ≤ text.length) :
    Spans text (sequence (items ++ more)) start finish ↔
      ∃ middle, Spans text (sequence items) start middle ∧
        Spans text (sequence more) middle finish := by
  induction items generalizing start with
  | nil =>
      constructor
      · intro span
        exact ⟨start, .empty inside, span⟩
      · rintro ⟨middle, empty, span⟩
        cases empty
        exact span
  | cons first items ih =>
      rw [List.cons_append, spans_sequence_cons_iff]
      constructor
      · rintro ⟨afterFirst, spanFirst, span⟩
        rcases (ih spanFirst.bounds.2).1 span with ⟨middle, spanItems, spanMore⟩
        exact ⟨middle, spans_sequence_cons_iff.2 ⟨afterFirst, spanFirst, spanItems⟩, spanMore⟩
      · rintro ⟨middle, spanItems, spanMore⟩
        rcases spans_sequence_cons_iff.1 spanItems with ⟨afterFirst, spanFirst, spanItems⟩
        exact ⟨afterFirst, spanFirst, (ih spanFirst.bounds.2).2 ⟨middle, spanItems, spanMore⟩⟩

theorem anchorFree_sequence {items : List (Regex CharSet)}
    (free : ∀ item ∈ items, item.AnchorFree) :
    (sequence items).AnchorFree := by
  induction items with
  | nil => trivial
  | cons first items ih =>
      rcases List.forall_mem_cons.1 free with ⟨freeFirst, freeItems⟩
      cases items with
      | nil => exact freeFirst
      | cons second items => exact ⟨freeFirst, ih freeItems⟩

@[simp]
theorem language_sequence (items : List (Regex CharSet)) :
    (sequence items).language = (items.map language).prod := by
  induction items with
  | nil => rfl
  | cons first items ih =>
      cases items with
      | nil => simp [sequence]
      | cons second items =>
          rw [List.map_cons, List.prod_cons, ← ih]
          rfl

/-- A sequence that is tied to both ends of a text is found in it exactly if the whole text is a
word of what stands between the anchors. -/
theorem foundIn_anchored_iff {items : List (Regex CharSet)} (free : ∀ item ∈ items, item.AnchorFree)
    (text : List Char) :
    (sequence (.textStart :: (items ++ [.textEnd]))).foundIn text = true ↔
      text ∈ (items.map language).prod := by
  rw [← language_sequence, ← spans_whole_iff (anchorFree_sequence free), foundIn_iff]
  constructor
  · rintro ⟨start, finish, span⟩
    rcases spans_sequence_cons_iff.1 span with ⟨_, atStart, span⟩
    cases atStart
    rcases (spans_sequence_append_iff (Nat.zero_le _)).1 span with ⟨_, spanItems, atEnd⟩
    cases atEnd
    exact spanItems
  · intro span
    refine ⟨0, text.length, spans_sequence_cons_iff.2 ⟨0, .textStart, ?_⟩⟩
    exact (spans_sequence_append_iff (Nat.zero_le _)).2 ⟨text.length, span, .textEnd⟩

end Regex

end OwnerCoverage
