import OwnerCoverage.Proofs.Pattern.Meaning

/-!
# Matches in nested paths

What a pattern matches, it matches together with all that lies below it, and a pattern that is not
tied to the root matches it below any other path. Both hold for every path without a line feed that
is put below or above a match, and for no other: the parts of an expression that stand for further
components take every character but a line feed. `accepts_nested_iff` says so.
-/

namespace OwnerCoverage

namespace Glob

open Regex

section Words

variable {glob : Glob} {path above below : List Char}

theorem append_mem_anyText_iff {before after : List Char} :
    before ++ after ∈ anyText ↔ before ∈ anyText ∧ after ∈ anyText := by
  simp only [mem_anyText_iff, List.mem_append, not_or]

theorem slash_cons_mem_anyText_iff {word : List Char} :
    '/' :: word ∈ anyText ↔ word ∈ anyText := by
  simp [mem_anyText_iff]

/-- Words with a separator behind them are those of the parts that may stand above a match. -/
theorem append_slash_mem {word : List Char} (free : word ∈ anyText) :
    word ++ ['/'] ∈ anyText * slash :=
  Language.append_mem_mul free ⟨'/', rfl, rfl⟩

theorem mem_anyText_of_mem_suffixLanguage {onlyBelow : Bool} {word : List Char}
    (mem : word ∈ suffixLanguage onlyBelow) : word ∈ anyText := by
  have below {word : List Char} (mem : word ∈ slash * anyText) : word ∈ anyText := by
    rcases exists_of_mem_slash_mul mem with ⟨tail, rfl, tail_mem⟩
    exact slash_cons_mem_anyText_iff.2 tail_mem
  cases onlyBelow with
  | true => exact below mem
  | false =>
      rcases (Language.mem_add ..).1 mem with mem | mem
      · exact below mem
      · rw [(Language.mem_one _).1 mem]
        simp [mem_anyText_iff]

theorem append_mem_suffixLanguage {onlyBelow : Bool} {word : List Char}
    (mem : word ∈ suffixLanguage onlyBelow) (free : below ∈ anyText) :
    word ++ '/' :: below ∈ suffixLanguage onlyBelow := by
  have behind {word : List Char} (mem : word ∈ slash * anyText) :
      word ++ '/' :: below ∈ slash * anyText := by
    rcases exists_of_mem_slash_mul mem with ⟨tail, rfl, tail_mem⟩
    rw [List.cons_append, cons_mem_slash_mul_iff, append_mem_anyText_iff]
    exact ⟨tail_mem, slash_cons_mem_anyText_iff.2 free⟩
  cases onlyBelow with
  | true => exact behind mem
  | false =>
      rcases (Language.mem_add ..).1 mem with mem | mem
      · exact (Language.mem_add ..).2 (Or.inl (behind mem))
      · rw [Language.mem_one] at mem
        subst mem
        exact (Language.mem_add ..).2 (Or.inl (cons_mem_slash_mul_iff.2 free))

/-- What lies below a text of a glob is a text of the glob. -/
theorem append_below_mem_language (mem : path ∈ glob.language) (free : below ∈ anyText) :
    path ++ '/' :: below ∈ glob.language := by
  by_cases none : glob.segments.isEmpty = true
  · rw [language, if_pos none] at mem ⊢
    exact append_mem_anyText_iff.2 ⟨mem, slash_cons_mem_anyText_iff.2 free⟩
  · rw [language, if_neg none] at mem ⊢
    rcases Language.mem_mul.1 mem with ⟨first, first_mem, rest, rest_mem, rfl⟩
    rcases Language.mem_mul.1 rest_mem with ⟨inner, inner_mem, last, last_mem, rfl⟩
    rw [List.append_assoc, List.append_assoc]
    exact Language.append_mem_mul first_mem
      (Language.append_mem_mul inner_mem (append_mem_suffixLanguage last_mem free))

/-- A text of a glob that is not tied to the root is one below every other path. -/
theorem append_above_mem_language (loose : glob.anchored = false ∨ glob.segments = [])
    (mem : path ∈ glob.language) (free : above ∈ anyText) :
    above ++ '/' :: path ∈ glob.language := by
  by_cases none : glob.segments.isEmpty = true
  · rw [language, if_pos none] at mem ⊢
    exact append_mem_anyText_iff.2 ⟨free, slash_cons_mem_anyText_iff.2 mem⟩
  · have untied : glob.anchored = false :=
      loose.resolve_right fun equal => none (List.isEmpty_iff.2 equal)
    rw [language, if_neg none, untied] at mem ⊢
    rcases Language.mem_mul.1 mem with ⟨first, first_mem, rest, rest_mem, rfl⟩
    rw [← List.cons_append, ← List.append_assoc]
    refine Language.append_mem_mul ((Language.mem_add ..).2 (Or.inl ?_)) rest_mem
    rcases (Language.mem_add ..).1 first_mem with first_mem | first_mem
    · rcases Language.mem_mul.1 first_mem with ⟨higher, higher_mem, last, ⟨_, isSlash, rfl⟩, rfl⟩
      rw [beq_iff_eq] at isSlash
      subst isSlash
      rw [← List.cons_append, ← List.append_assoc]
      apply append_slash_mem
      exact append_mem_anyText_iff.2 ⟨free, slash_cons_mem_anyText_iff.2 higher_mem⟩
    · rw [Language.mem_one] at first_mem
      subst first_mem
      exact append_slash_mem free

end Words

section Patterns

/-- Whether a pattern has no separator but at its end, or starts with any number of components. -/
def IsLoose (pattern : List Char) : Prop :=
  (∃ inner count, tokens pattern = inner ++ List.replicate count .separator ∧
    .separator ∉ inner) ∨ ['*', '*', '/'] <+: pattern

theorem tokenGroups_of_no_separator {inner : List Token} (count : Nat)
    (noSeparator : .separator ∉ inner) :
    tokenGroups (inner ++ List.replicate count .separator) = inner :: List.replicate count [] := by
  induction inner with
  | nil =>
      induction count with
      | zero => rfl
      | succ count ih =>
          rw [List.nil_append] at ih
          rw [List.nil_append, List.replicate_succ, tokenGroups_separator, ih, List.replicate_succ]
  | cons token inner ih =>
      rw [List.mem_cons, not_or] at noSeparator
      rw [List.cons_append, tokenGroups_cons (Ne.symm noSeparator.1), ih noSeparator.2,
        List.modifyHead_cons]

theorem tokens_of_anyDepth (rest : List Char) :
    tokens (['*', '*', '/'] ++ rest) = .anyDepth :: .separator :: tokensFrom true rest := by
  simp [tokens, tokensFrom, segmentEnds]

/-- A loose pattern is not tied to the root, unless it has no segment at all. -/
theorem anchored_of_isLoose {pattern : List Char} (loose : IsLoose pattern) :
    (ofPattern pattern).anchored = false ∨ (ofPattern pattern).segments = [] := by
  rcases loose with ⟨inner, count, read, noSeparator⟩ | ⟨rest, starts⟩
  · have groups : tokenGroups (tokens pattern) = inner :: List.replicate count [] := by
      rw [read, tokenGroups_of_no_separator count noSeparator]
    cases inner with
    | nil =>
        refine Or.inr ?_
        simp [ofPattern, ofTokens, groups, Segment.merge]
    | cons token inner =>
        refine Or.inl ?_
        have single (segment : Segment) : anchoredInside (Segment.merge [segment]) = false := by
          cases segment <;> rfl
        simp [ofPattern, ofTokens, groups, single]
  · refine Or.inl ?_
    have groups : tokenGroups (tokens pattern) =
        [.anyDepth] :: tokenGroups (tokensFrom true rest) := by
      rw [← starts, tokens_of_anyDepth, tokenGroups_cons (by decide), tokenGroups_separator,
        List.modifyHead_cons]
    rcases merge_anyDepth_cons (((tokenGroups (tokensFrom true rest)).filter (!·.isEmpty)).map
      Segment.ofTokens) with ⟨segments, merged⟩
    simp [ofPattern, ofTokens, groups, Segment.ofTokens, merged, anchoredInside]

end Patterns

/-- The glob of a single literal character. -/
def ofLiteral (char : Char) : Glob := ⟨false, false, [.component [.literal char]]⟩

/-- No text of a literal character holds a line feed, as long as that character is none. -/
theorem mem_anyText_of_mem_ofLiteral {char : Char} {word : List Char} (other : char ≠ '\n')
    (mem : word ∈ (ofLiteral char).language) : word ∈ anyText := by
  rcases Language.mem_mul.1 mem with ⟨first, first_mem, rest, rest_mem, rfl⟩
  rcases Language.mem_mul.1 rest_mem with ⟨inner, inner_mem, last, last_mem, rfl⟩
  have firstFree : first ∈ anyText := by
    rcases (Language.mem_add ..).1 first_mem with first_mem | first_mem
    · rcases Language.mem_mul.1 first_mem with ⟨higher, higher_mem, _, ⟨_, isSlash, rfl⟩, rfl⟩
      rw [beq_iff_eq] at isSlash
      subst isSlash
      exact append_mem_anyText_iff.2 ⟨higher_mem, by simp [mem_anyText_iff]⟩
    · rw [(Language.mem_one _).1 first_mem]
      simp [mem_anyText_iff]
  have innerFree : inner ∈ anyText := by
    change inner ∈ charLanguage (Token.literal char).holds * 1 * 1 at inner_mem
    rw [mul_one, mul_one] at inner_mem
    rcases inner_mem with ⟨member, holds, rfl⟩
    rw [Token.holds_literal, beq_iff_eq] at holds
    subst holds
    simpa [mem_anyText_iff] using other.symm
  change last ∈ suffixLanguage false at last_mem
  have lastFree := mem_anyText_of_mem_suffixLanguage last_mem
  exact append_mem_anyText_iff.2 ⟨firstFree, append_mem_anyText_iff.2 ⟨innerFree, lastFree⟩⟩

end Glob

namespace Pattern

/-- A pattern that is not negated matches exactly the texts of the glob of its body. -/
theorem accepts_iff_mem_language {text : String} {pattern : Pattern}
    (compiled : compile text = .ok pattern) (plain : pattern.negated = false) (path : String) :
    pattern.accepts path = true ↔ path.toList ∈ (Glob.ofPattern (body text)).language := by
  rw [accepts, plain, Bool.bne_false, globMatches_iff_mem_language, (parts_of_compile compiled).2.2]

theorem toList_nested (above below : String) :
    (above ++ "/" ++ below).toList = above.toList ++ '/' :: below.toList := by
  simp

/-- A pattern of one character, which matches itself and holds no line feed in any match. -/
theorem exists_literal : ∃ pattern, compile "a" = .ok pattern ∧ pattern.negated = false ∧
    Glob.IsLoose (body "a") ∧ pattern.accepts "a" = true ∧
    ∀ path : String, pattern.accepts path = true → '\n' ∉ path.toList := by
  have evaluated : (compile "a").toOption.map
      (fun pattern => pattern.accepts "a" && !pattern.negated) = some true := by decide +kernel
  have tokensEq : Glob.tokens (body "a") = [.literal 'a'] := by decide +kernel
  have glob : Glob.ofPattern (body "a") = Glob.ofLiteral 'a' := by decide +kernel
  rcases exists_of_compile_map evaluated with ⟨pattern, compiled, holds⟩
  rw [Bool.and_eq_true, Bool.not_eq_true'] at holds
  refine ⟨pattern, compiled, holds.2, Or.inl ⟨[.literal 'a'], 0, tokensEq, by decide⟩, holds.1, ?_⟩
  intro path accepted
  rw [accepts_iff_mem_language compiled holds.2, glob] at accepted
  exact Glob.mem_anyText_iff.1 (Glob.mem_anyText_of_mem_ofLiteral (by decide) accepted)

/-- The paths without a line feed are exactly those that may be put below every match of every
pattern, and exactly those that may be put above every match of every pattern that is not tied to
the root. -/
theorem accepts_nested_iff (below above : String) :
    ('\n' ∉ below.toList ↔
      ∀ (text : String) (pattern : Pattern) (path : String), compile text = .ok pattern →
        pattern.negated = false → pattern.accepts path = true →
          pattern.accepts (path ++ "/" ++ below) = true) ∧
    ('\n' ∉ above.toList ↔
      ∀ (text : String) (pattern : Pattern) (path : String), compile text = .ok pattern →
        pattern.negated = false → Glob.IsLoose (body text) → pattern.accepts path = true →
          pattern.accepts (above ++ "/" ++ path) = true) := by
  rcases exists_literal with ⟨literal, compiledLiteral, plainLiteral, loose, itself, noLineFeed⟩
  constructor
  · constructor
    · intro free text pattern path compiled plain accepted
      rw [accepts_iff_mem_language compiled plain] at accepted ⊢
      rw [toList_nested]
      exact Glob.append_below_mem_language accepted (Glob.mem_anyText_iff.2 free)
    · intro nested mem
      have accepted := nested "a" literal "a" compiledLiteral plainLiteral itself
      refine noLineFeed _ accepted ?_
      rw [toList_nested]
      exact List.mem_append_right _ (List.mem_cons_of_mem _ mem)
  · constructor
    · intro free text pattern path compiled plain loose accepted
      rw [accepts_iff_mem_language compiled plain] at accepted ⊢
      rw [toList_nested]
      exact Glob.append_above_mem_language (Glob.anchored_of_isLoose loose) accepted
        (Glob.mem_anyText_iff.2 free)
    · intro nested mem
      have accepted := nested "a" literal "a" compiledLiteral plainLiteral loose itself
      refine noLineFeed _ accepted ?_
      rw [toList_nested]
      exact List.mem_append_left _ mem

/-- A directory-only pattern, below and above whose matches further paths are put. -/
theorem accepts_nested_iff_directory : ∃ pattern, compile "**/docs/" = .ok pattern ∧
    pattern.accepts ("docs/a" ++ "/" ++ "b/c") = true ∧
    pattern.accepts ("x/y" ++ "/" ++ "docs/a") = true := by
  have evaluated : (compile "**/docs/").toOption.map
      (fun pattern => pattern.accepts "docs/a" && !pattern.negated) = some true := by decide +kernel
  have loose : Glob.IsLoose (body "**/docs/") := by
    have bodyEq : body "**/docs/" = "**/docs/".toList := by decide +kernel
    rw [bodyEq]
    exact Or.inr (by decide)
  rcases exists_of_compile_map evaluated with ⟨pattern, compiled, holds⟩
  rw [Bool.and_eq_true, Bool.not_eq_true'] at holds
  refine ⟨pattern, compiled, ?_, ?_⟩
  · exact (accepts_nested_iff "b/c" "x/y").1.1 (by decide) _ _ "docs/a" compiled holds.2 holds.1
  · exact (accepts_nested_iff "b/c" "x/y").2.1 (by decide) _ _ "docs/a" compiled holds.2 loose
      holds.1

/-- A line feed in a path below or above a match keeps a pattern from matching. -/
theorem accepts_not_nested_lineFeed : ∃ pattern, compile "a" = .ok pattern ∧
    pattern.negated = false ∧ Glob.IsLoose (body "a") ∧ pattern.accepts "a" = true ∧
    pattern.accepts ("a" ++ "/" ++ "\n") = false ∧
    pattern.accepts ("\n" ++ "/" ++ "a") = false := by
  rcases exists_literal with ⟨pattern, compiled, plain, loose, itself, noLineFeed⟩
  refine ⟨pattern, compiled, plain, loose, itself, ?_, ?_⟩
  · rw [Bool.eq_false_iff]
    exact fun accepted => noLineFeed _ accepted (by decide)
  · rw [Bool.eq_false_iff]
    exact fun accepted => noLineFeed _ accepted (by decide)

end Pattern

end OwnerCoverage
