import OwnerCoverage.Proofs.Glob.Language

/-!
# The search for literal text

Before the expression of a pattern is tried, the path is searched for the longest run of literal
characters of the glob. The search never changes an answer: every run of literal characters occurs
in every text that the glob describes (`occursIn_longestLiteral`), so the pattern matches exactly
the texts of the glob's language (`globMatches_iff_mem_language`).
-/

namespace OwnerCoverage

namespace Pattern

theorem occursIn_iff_infix {piece text : List Char} :
    occursIn piece text = true ↔ piece <:+: text := by
  induction text with
  | nil => simp [occursIn]
  | cons char rest ih =>
      rw [occursIn, Bool.or_eq_true, ih, List.isPrefixOf_iff_prefix, List.infix_cons_iff]

end Pattern

namespace Glob

open Regex

/-- Whether every word of a language has a part in another language. -/
def HasPart (language part : Language Char) : Prop :=
  ∀ word ∈ language, ∃ piece ∈ part, piece <:+: word

section Parts

variable {language first second part : Language Char}

theorem hasPart_self : HasPart part part := fun word mem => ⟨word, mem, List.infix_refl word⟩

theorem HasPart.mul_right (has : HasPart first part) : HasPart (first * second) part := by
  intro word mem
  rcases Language.mem_mul.1 mem with ⟨before, before_mem, after, _, rfl⟩
  rcases has before before_mem with ⟨piece, piece_mem, inBefore⟩
  exact ⟨piece, piece_mem, inBefore.trans (List.prefix_append before after).isInfix⟩

theorem HasPart.mul_left (has : HasPart second part) : HasPart (first * second) part := by
  intro word mem
  rcases Language.mem_mul.1 mem with ⟨before, _, after, after_mem, rfl⟩
  rcases has after after_mem with ⟨piece, piece_mem, inAfter⟩
  exact ⟨piece, piece_mem, inAfter.trans (List.suffix_append before after).isInfix⟩

end Parts

theorem hasPart_followingLanguage {segments : List Segment} {tokens : List Token}
    (mem : .component tokens ∈ segments) :
    HasPart (followingLanguage segments) (tokensLanguage tokens) := by
  fun_induction followingLanguage segments with
  | case1 => simp at mem
  | case2 => simp at mem
  | case3 rest _ ih => exact (ih (by simpa using mem)).mul_left
  | case4 first rest ih =>
      rcases List.mem_cons.1 mem with equal | mem
      · rw [Segment.component.injEq] at equal
        subst equal
        exact hasPart_self.mul_right.mul_left
      · exact (ih mem).mul_left.mul_left

theorem hasPart_leadingLanguage {segments : List Segment} {tokens : List Token}
    (mem : .component tokens ∈ segments) :
    HasPart (leadingLanguage segments) (tokensLanguage tokens) := by
  have component {first : List Token} {rest : List Segment}
      (mem : .component tokens ∈ Segment.component first :: rest) :
      HasPart (tokensLanguage first * followingLanguage rest) (tokensLanguage tokens) := by
    rcases List.mem_cons.1 mem with equal | mem
    · rw [Segment.component.injEq] at equal
      subst equal
      exact hasPart_self.mul_right
    · exact (hasPart_followingLanguage mem).mul_left
  fun_cases leadingLanguage segments with
  | case1 => simp at mem
  | case2 => simp at mem
  | case3 first rest => exact (component (by simpa using mem)).mul_left
  | case4 rest => exact (hasPart_followingLanguage (by simpa using mem)).mul_left
  | case5 first rest => exact component mem

/-- A word of some tokens starts with their first run of literal characters, and holds every other
one. -/
theorem literalRuns_of_mem_tokensLanguage {tokens : List Token} {word : List Char}
    (mem : word ∈ tokensLanguage tokens) : ∃ first others, literalRuns tokens = first :: others ∧
      first <+: word ∧ ∀ run ∈ others, run <:+: word := by
  induction tokens generalizing word with
  | nil => exact ⟨[], [], rfl, List.nil_prefix, by simp⟩
  | cons token tokens ih =>
      rcases Language.mem_mul.1 mem with ⟨before, before_mem, after, after_mem, rfl⟩
      rcases ih after_mem with ⟨first, others, runs, starts, holds⟩
      have behind : ∀ run ∈ others, run <:+: before ++ after := fun run run_mem =>
        (holds run run_mem).trans (List.suffix_append before after).isInfix
      cases token with
      | literal char =>
          rcases before_mem with ⟨member, equal, rfl⟩
          rw [Token.holds_literal, beq_iff_eq] at equal
          subst equal
          refine ⟨member :: first, others, by simp [literalRuns, runs], ?_, behind⟩
          exact List.prefix_append_right_inj [member] |>.2 starts
      | _ =>
          refine ⟨[], first :: others, by simp [literalRuns, runs], List.nil_prefix, ?_⟩
          refine List.forall_mem_cons.2 ⟨?_, behind⟩
          exact starts.isInfix.trans (List.suffix_append before after).isInfix

theorem infix_of_mem_literalRuns {tokens : List Token} {word run : List Char}
    (mem : word ∈ tokensLanguage tokens) (run_mem : run ∈ literalRuns tokens) : run <:+: word := by
  rcases literalRuns_of_mem_tokensLanguage mem with ⟨first, others, runs, starts, holds⟩
  rw [runs, List.mem_cons] at run_mem
  rcases run_mem with rfl | run_mem
  · exact starts.isInfix
  · exact holds run run_mem

theorem foldl_longer_mem (best : List Char) (runs : List (List Char)) :
    runs.foldl longer best ∈ best :: runs := by
  induction runs generalizing best with
  | nil => simp
  | cons run runs ih =>
      rw [List.foldl_cons]
      rcases List.mem_cons.1 (ih (longer best run)) with equal | mem
      · rw [equal, longer]
        split <;> simp
      · simp [mem]

theorem longestLiteral_cases (glob : Glob) : glob.longestLiteral = [] ∨
    ∃ tokens, .component tokens ∈ glob.segments ∧ glob.longestLiteral ∈ literalRuns tokens := by
  rcases List.mem_cons.1 (foldl_longer_mem [] (glob.segments.flatMap Segment.literalRuns)) with
    equal | mem
  · exact Or.inl equal
  · rcases List.mem_flatMap.1 mem with ⟨segment, segment_mem, run_mem⟩
    cases segment with
    | anyDepth => simp [Segment.literalRuns] at run_mem
    | component tokens => exact Or.inr ⟨tokens, segment_mem, run_mem⟩

/-- Every text that a glob describes contains its longest run of literal characters. -/
theorem occursIn_longestLiteral {glob : Glob} {path : List Char} (mem : path ∈ glob.language) :
    Pattern.occursIn glob.longestLiteral path = true := by
  rw [Pattern.occursIn_iff_infix]
  rcases longestLiteral_cases glob with empty | ⟨tokens, segment_mem, run_mem⟩
  · rw [empty]
    exact List.nil_infix
  · have hasPart : HasPart glob.language (tokensLanguage tokens) := by
      have nonempty : glob.segments.isEmpty = false := by
        rw [List.isEmpty_eq_false_iff]
        exact List.ne_nil_of_mem segment_mem
      rw [language, nonempty]
      exact (hasPart_leadingLanguage segment_mem).mul_right.mul_left
    rcases hasPart path mem with ⟨word, word_mem, inPath⟩
    exact (infix_of_mem_literalRuns word_mem run_mem).trans inPath

end Glob

namespace Pattern

theorem globMatches_iff_mem_language (pattern : Pattern) (path : List Char) :
    pattern.globMatches path = true ↔ path ∈ pattern.glob.language := by
  rw [globMatches, Bool.and_eq_true, Glob.foundIn_iff_mem_language]
  constructor
  · rintro ⟨_, mem⟩
    exact mem
  · intro mem
    exact ⟨Glob.occursIn_longestLiteral mem, mem⟩

end Pattern

end OwnerCoverage
