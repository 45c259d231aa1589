import OwnerCoverage.Proofs.Pattern.Nesting
import OwnerCoverage.Proofs.Rules.Lookup

/-!
# Paths with a leading slash

A slash in front of a path is taken by what may stand before the first segment of a pattern, so a
pattern that matches a path matches it with the slash too (`mem_language_of_relative`). The other
way round, the slash has to be left over: the segments could take it themselves if the first one
describes the empty text or begins with a separator of its own. `accepts_slash_eq` is for the
patterns whose segments start with a character of a name.
-/

namespace OwnerCoverage

namespace Glob

open Regex

/-- Whether tokens take a first character that is no separator. Stars alone may take none, and then
nothing must stand behind them. -/
def tokensStartInName (isLast : Bool) : List Token → Bool
  | [] => false
  | [.star] => isLast
  | .star :: tokens => tokensStartInName isLast tokens
  | .literal char :: _ => char != '/'
  | .anyChar :: _ => true
  | .charClass _ _ :: _ => true
  | _ => false

/-- Whether the segments of a glob, apart from a first one for any number of components, start with
a character of a name wherever they describe a path. -/
def startsInName (glob : Glob) : Bool :=
  match glob.segments with
  | [] => true
  | [.anyDepth] => !glob.onlyBelow
  | .anyDepth :: .anyDepth :: _ => false
  | .anyDepth :: .component tokens :: rest =>
      tokensStartInName (rest.isEmpty && !glob.onlyBelow) tokens
  | .component tokens :: rest => tokensStartInName (rest.isEmpty && !glob.onlyBelow) tokens

section Words

variable {language : Language Char} {path : List Char}

/-- What may stand above the segments takes a first separator, or else the segments do. -/
theorem slash_cons_mem_above_iff : '/' :: path ∈ (anyText * slash + 1) * language ↔
    path ∈ (anyText * slash + 1) * language ∨ '/' :: path ∈ language := by
  simp only [add_mul, one_mul, Language.mem_add, mul_assoc]
  constructor
  · rintro (mem | mem)
    · rcases Language.mem_mul.1 mem with ⟨above, above_mem, rest, rest_mem, cut⟩
      cases above with
      | nil =>
          rw [List.nil_append] at cut
          subst cut
          exact Or.inl (Or.inr (cons_mem_slash_mul_iff.1 rest_mem))
      | cons char above =>
          rw [List.cons_append, List.cons.injEq] at cut
          rcases cut with ⟨rfl, rfl⟩
          have free := slash_cons_mem_anyText_iff.1 above_mem
          exact Or.inl (Or.inl (Language.append_mem_mul free rest_mem))
    · exact Or.inr mem
  · rintro ((mem | mem) | mem)
    · rcases Language.mem_mul.1 mem with ⟨above, above_mem, rest, rest_mem, rfl⟩
      have free := slash_cons_mem_anyText_iff.2 above_mem
      exact Or.inl (Language.append_mem_mul (a := '/' :: above) free rest_mem)
    · refine Or.inl (Language.append_mem_mul (a := []) ?_ (cons_mem_slash_mul_iff.2 mem))
      simp [mem_anyText_iff]
    · exact Or.inr mem

/-- In front of a path without a leading separator, an optional separator is the added one. -/
theorem slash_cons_mem_optionalSlash_iff (relative : path.head? ≠ some '/') :
    '/' :: path ∈ (slash + 1) * language ↔
      path ∈ (slash + 1) * language ∨ '/' :: path ∈ language := by
  have noSlash : path ∉ slash * language := by
    intro mem
    rcases exists_of_mem_slash_mul mem with ⟨tail, rfl, _⟩
    exact relative rfl
  simp only [add_mul, one_mul, Language.mem_add, cons_mem_slash_mul_iff, noSlash, false_or]

theorem slash_cons_mem_prefix_iff (anchored : Bool) (relative : path.head? ≠ some '/') :
    '/' :: path ∈ prefixLanguage anchored * language ↔
      path ∈ prefixLanguage anchored * language ∨ '/' :: path ∈ language := by
  cases anchored with
  | true => exact slash_cons_mem_optionalSlash_iff relative
  | false => exact slash_cons_mem_above_iff

theorem mem_prefix_mul (anchored : Bool) (mem : path ∈ language) :
    path ∈ prefixLanguage anchored * language := by
  have empty : [] ∈ prefixLanguage anchored := by
    cases anchored <;> exact Or.inr rfl
  exact Language.append_mem_mul empty mem

/-- A run of characters inside a component takes no separator. -/
theorem slash_cons_mem_run_iff :
    '/' :: path ∈ runLanguage (· != '/') * language ↔ '/' :: path ∈ language := by
  constructor
  · intro mem
    rcases Language.mem_mul.1 mem with ⟨run, run_mem, rest, rest_mem, cut⟩
    cases run with
    | nil => exact cut ▸ rest_mem
    | cons char run =>
        rw [List.cons_append, List.cons.injEq] at cut
        have noSeparator := run_mem char List.mem_cons_self
        rw [cut.1] at noSeparator
        exact absurd noSeparator (by decide)
  · exact fun mem => Language.append_mem_mul (a := []) (by simp [mem_runLanguage]) mem

/-- Every text behind a separator is a run inside a component with what lies below it. -/
theorem mem_run_mul_suffix (free : path ∈ anyText) :
    path ∈ runLanguage (· != '/') * suffixLanguage false := by
  induction path with
  | nil => exact Language.append_mem_mul (a := []) (by simp [mem_runLanguage]) (Or.inr rfl)
  | cons char path ih =>
      rw [mem_anyText_iff, List.mem_cons, not_or, ← mem_anyText_iff] at free
      by_cases separates : char = '/'
      · subst separates
        refine slash_cons_mem_run_iff.2 (Or.inl ?_)
        exact cons_mem_slash_mul_iff.2 free.2
      · rcases Language.mem_mul.1 (ih free.2) with ⟨run, run_mem, rest, rest_mem, rfl⟩
        refine Language.append_mem_mul (a := char :: run) ?_ rest_mem
        exact List.forall_mem_cons.2 ⟨bne_iff_ne.2 separates, run_mem⟩

end Words

section Globs

variable {glob : Glob} {path : List Char}

/-- Tokens that start in a name leave a first separator to nothing but what follows a last run. -/
theorem mem_of_slash_cons_mem {isLast : Bool} {tokens : List Token} {behind : Language Char}
    (starts : tokensStartInName isLast tokens = true)
    (last : isLast = true → behind = suffixLanguage false)
    (mem : '/' :: path ∈ tokensLanguage tokens * behind) :
    path ∈ tokensLanguage tokens * behind := by
  have inner {token : Token} {more : List Token} (isInner : token.IsInner)
      (single : token.language = charLanguage token.holds)
      (mem : '/' :: path ∈ tokensLanguage (token :: more) * behind) : False := by
    rw [tokensLanguage_cons, single, mul_assoc, mem_charLanguage_mul_iff] at mem
    rcases mem with ⟨char, tail, cut, holds, _⟩
    rw [List.cons.injEq] at cut
    exact ne_separator_of_holds isInner holds cut.1.symm
  fun_induction tokensStartInName isLast tokens with
  | case1 => simp at starts
  | case2 =>
      rw [last starts] at mem ⊢
      have run : tokensLanguage [.star] = runLanguage (· != '/') := mul_one _
      rw [run, slash_cons_mem_run_iff] at mem
      rw [run]
      rcases (Language.mem_add ..).1 mem with mem | mem
      · exact mem_run_mul_suffix (cons_mem_slash_mul_iff.1 mem)
      · exact absurd mem (by simp [Language.mem_one])
  | case3 tokens _ ih =>
      rw [tokensLanguage_cons, mul_assoc] at mem ⊢
      have behindRun := ih starts (slash_cons_mem_run_iff.1 mem)
      exact Language.append_mem_mul (a := []) (by simp [Token.language, mem_runLanguage]) behindRun
  | case4 char more =>
      have isInner : (Token.literal char).IsInner := bne_iff_ne.1 starts
      exact (inner isInner rfl mem).elim
  | case5 more =>
      have isInner : Token.anyChar.IsInner := trivial
      exact (inner isInner rfl mem).elim
  | case6 negated items more =>
      have isInner : (Token.charClass negated items).IsInner := trivial
      exact (inner isInner rfl mem).elim
  | case7 => simp at starts

theorem followingLanguage_mul_suffix {rest : List Segment} {onlyBelow : Bool}
    (isLast : (rest.isEmpty && !onlyBelow) = true) :
    followingLanguage rest * suffixLanguage onlyBelow = suffixLanguage false := by
  rw [Bool.and_eq_true, List.isEmpty_iff, Bool.not_eq_true'] at isLast
  rw [isLast.1, isLast.2]
  exact one_mul _

/-- Segments that start in a name do not take a separator in front of what they describe. -/
theorem mem_leading_of_slash_cons_mem (starts : glob.startsInName = true)
    (nonempty : glob.segments ≠ [])
    (mem : '/' :: path ∈ leadingLanguage glob.segments * suffixLanguage glob.onlyBelow) :
    path ∈ leadingLanguage glob.segments * suffixLanguage glob.onlyBelow := by
  rcases glob with ⟨anchored, onlyBelow, segments⟩
  have component {tokens : List Token} {rest : List Segment}
      (starts : tokensStartInName (rest.isEmpty && !onlyBelow) tokens = true)
      (mem : '/' :: path ∈
        tokensLanguage tokens * (followingLanguage rest * suffixLanguage onlyBelow)) :
      path ∈ tokensLanguage tokens * (followingLanguage rest * suffixLanguage onlyBelow) :=
    mem_of_slash_cons_mem starts followingLanguage_mul_suffix mem
  dsimp only [startsInName] at starts mem ⊢
  split at starts
  · exact absurd rfl nonempty
  · rw [Bool.not_eq_true'] at starts
    rw [starts, leadingLanguage] at mem ⊢
    rcases Language.mem_mul.1 mem with ⟨first, first_mem, last, last_mem, cut⟩
    have free : '/' :: path ∈ anyText := by
      rw [← cut, append_mem_anyText_iff]
      exact ⟨first_mem, mem_anyText_of_mem_suffixLanguage last_mem⟩
    rw [← List.append_nil path]
    exact Language.append_mem_mul (slash_cons_mem_anyText_iff.1 free) (Or.inr rfl)
  · simp at starts
  · rename_i tokens rest
    rw [leadingLanguage, mul_assoc, mul_assoc, slash_cons_mem_above_iff] at mem
    rw [leadingLanguage, mul_assoc, mul_assoc]
    rcases mem with mem | mem
    · exact mem
    · exact Language.append_mem_mul (a := []) (Or.inr rfl) (component starts mem)
  · rename_i tokens rest
    rw [leadingLanguage, mul_assoc] at mem ⊢
    exact component starts mem

/-- A separator in front of a path is taken by what may stand above the segments, or else by the
segments themselves. -/
theorem slash_cons_mem_language_iff (nonempty : glob.segments ≠ [])
    (relative : path.head? ≠ some '/') : '/' :: path ∈ glob.language ↔ path ∈ glob.language ∨
      '/' :: path ∈ leadingLanguage glob.segments * suffixLanguage glob.onlyBelow := by
  have some : ¬glob.segments.isEmpty = true := fun empty => nonempty (List.isEmpty_iff.1 empty)
  rw [language, if_neg some]
  exact slash_cons_mem_prefix_iff glob.anchored relative

theorem language_of_no_segments (empty : glob.segments = []) : glob.language = anyText := by
  rw [language, empty]
  rfl

/-- What a glob describes, it describes with a separator in front. -/
theorem mem_language_of_relative (relative : path.head? ≠ some '/') (mem : path ∈ glob.language) :
    '/' :: path ∈ glob.language := by
  by_cases empty : glob.segments = []
  · rw [language_of_no_segments empty] at mem ⊢
    exact slash_cons_mem_anyText_iff.2 mem
  · exact (slash_cons_mem_language_iff empty relative).2 (Or.inl mem)

theorem mem_language_iff_of_startsInName (starts : glob.startsInName = true)
    (relative : path.head? ≠ some '/') : '/' :: path ∈ glob.language ↔ path ∈ glob.language := by
  refine ⟨fun mem => ?_, mem_language_of_relative relative⟩
  by_cases empty : glob.segments = []
  · rw [language_of_no_segments empty] at mem ⊢
    exact slash_cons_mem_anyText_iff.1 mem
  · rcases (slash_cons_mem_language_iff empty relative).1 mem with mem | mem
    · exact mem
    · have some : ¬glob.segments.isEmpty = true := fun none => empty (List.isEmpty_iff.1 none)
      rw [language, if_neg some]
      exact mem_prefix_mul glob.anchored (mem_leading_of_slash_cons_mem starts empty mem)

end Globs

end Glob

namespace Pattern

variable {pattern : Pattern} {path : String}

theorem toList_slash (path : String) : ("/" ++ path).toList = '/' :: path.toList := by
  simp

theorem accepts_slash_of_startsInName (starts : pattern.glob.startsInName = true)
    (relative : path.toList.head? ≠ some '/') :
    pattern.accepts ("/" ++ path) = pattern.accepts path := by
  have same : pattern.globMatches ("/" ++ path).toList = pattern.globMatches path.toList := by
    rw [Bool.eq_iff_iff, globMatches_iff_mem_language, globMatches_iff_mem_language, toList_slash]
    exact Glob.mem_language_iff_of_startsInName starts relative
  rw [accepts, accepts, same]

/-- A slash in front of a path without one makes no difference to a pattern whose segments start in
a name, and so none to a table of such patterns. It never takes away a match of any pattern that is
not negated. -/
theorem accepts_slash_eq (path : String) (relative : path.toList.head? ≠ some '/') :
    (∀ pattern : Pattern, pattern.glob.startsInName = true →
      pattern.accepts ("/" ++ path) = pattern.accepts path) ∧
    (∀ table : RuleTable, (∀ rule ∈ table.rules, rule.pattern.glob.startsInName = true) →
      table.matchingRules ("/" ++ path) = table.matchingRules path ∧
      table.decidingRule? ("/" ++ path) = table.decidingRule? path ∧
      table.owners ("/" ++ path) = table.owners path) ∧
    ∀ pattern : Pattern, pattern.negated = false → pattern.accepts path = true →
      pattern.accepts ("/" ++ path) = true := by
  refine ⟨fun pattern starts => accepts_slash_of_startsInName starts relative, ?_, ?_⟩
  · intro table starts
    have matching : table.matchingRules ("/" ++ path) = table.matchingRules path := by
      apply List.filter_congr
      intro rule mem
      exact accepts_slash_of_startsInName (starts rule mem) relative
    have deciding : table.decidingRule? ("/" ++ path) = table.decidingRule? path := by
      rw [RuleTable.decidingRule?_eq_getLast?, RuleTable.decidingRule?_eq_getLast?, matching]
    refine ⟨matching, deciding, ?_⟩
    rw [RuleTable.owners, RuleTable.owners, deciding]
  · intro pattern plain accepted
    rw [accepts, plain, Bool.bne_false, globMatches_iff_mem_language] at accepted ⊢
    rw [toList_slash]
    exact Glob.mem_language_of_relative relative accepted

/-- A table with a wildcard in first place, a negated pattern and a directory-only one. -/
theorem accepts_slash_eq_sample : ∃ table,
    RuleTable.ofLines ["*.md @x", "!/docs/** @y", "**/a?[c-e]*/ @z"] = .ok table ∧
    table.owners "docs/abc/d.md" = ["@z"] ∧ table.owners ("/" ++ "docs/abc/d.md") = ["@z"] := by
  have evaluated : (RuleTable.ofLines ["*.md @x", "!/docs/** @y", "**/a?[c-e]*/ @z"]).toOption.map
      (fun table => table.owners "docs/abc/d.md" == ["@z"] &&
        table.rules.all fun rule => rule.pattern.glob.startsInName) = some true := by decide +kernel
  rcases RuleTable.exists_of_ofLines_map evaluated with ⟨table, built, holds⟩
  rw [Bool.and_eq_true, beq_iff_eq, List.all_eq_true] at holds
  rcases holds with ⟨owned, starts⟩
  have relative : "docs/abc/d.md".toList.head? ≠ some '/' := by decide
  have same := ((accepts_slash_eq "docs/abc/d.md" relative).2.1 table starts).2.2
  exact ⟨table, built, owned, same.trans owned⟩

/-- Patterns whose segments take the slash: as their first character, behind an empty first name,
and as the separator above what lies below. -/
theorem accepts_slash_ne :
    (∃ pattern, compile "\\/a" = .ok pattern ∧
      pattern.accepts "a" = false ∧ pattern.accepts ("/" ++ "a") = true) ∧
    (∃ pattern, compile "*/a" = .ok pattern ∧
      pattern.accepts "a" = false ∧ pattern.accepts ("/" ++ "a") = true) ∧
    ∃ pattern, compile "**/" = .ok pattern ∧
      pattern.accepts "a" = false ∧ pattern.accepts ("/" ++ "a") = true := by
  have differs {text : String} (evaluated : (compile text).toOption.map (fun pattern =>
      !pattern.accepts "a" && pattern.accepts ("/" ++ "a")) = some true) :
      ∃ pattern, compile text = .ok pattern ∧
        pattern.accepts "a" = false ∧ pattern.accepts ("/" ++ "a") = true := by
    rcases exists_of_compile_map evaluated with ⟨pattern, compiled, holds⟩
    rw [Bool.and_eq_true, Bool.not_eq_true'] at holds
    exact ⟨pattern, compiled, holds⟩
  refine ⟨differs ?_, differs ?_, differs ?_⟩
  · decide +kernel
  · decide +kernel
  · decide +kernel

end Pattern

end OwnerCoverage
