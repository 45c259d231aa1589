import OwnerCoverage.Proofs.Glob.Symbols

/-!
# Compiled patterns mean what is documented

`accepts_eq_describes` is the meaning of a pattern text: the pattern that the text compiles to
matches a path exactly if the documented reading of its body describes the components of the path,
or exactly if it does not where the pattern is negated. Bodies with an escaped separator are left
out, since such a separator stands for no component border.
-/

namespace OwnerCoverage

namespace Pattern

/-- Whether the pattern of a text matches what the rest of the text does not. -/
def isNegated (text : String) : Bool := (splitNegation (trim text.toList)).1

/-- What the pattern of a text says without its negation. -/
def body (text : String) : List Char := (splitNegation (trim text.toList)).2

/-- A text is negated exactly if it starts with `!` once it is trimmed. -/
theorem isNegated_iff {text : String} :
    isNegated text = true ↔ (trim text.toList).head? = some '!' := by
  unfold isNegated splitNegation
  split
  · rename_i marked
    simp [marked]
  · rename_i notMarked
    constructor
    · exact fun negated => absurd negated Bool.false_ne_true
    · intro starts
      rcases List.head?_eq_some_iff.1 starts with ⟨rest, marked⟩
      exact absurd marked (notMarked rest)

/-- The body of a text is all of the trimmed text but the mark of a negation. -/
theorem negation_append_body (text : String) :
    (if isNegated text then ['!'] else []) ++ body text = trim text.toList := by
  unfold isNegated body splitNegation
  split
  · rename_i marked
    exact marked.symm
  · rfl

theorem parts_of_compile {text : String} {pattern : Pattern}
    (compiled : compile text = .ok pattern) :
    pattern.source = String.ofList (trim text.toList) ∧ pattern.negated = isNegated text ∧
      pattern.glob = Glob.ofPattern (body text) := by
  simp only [compile] at compiled
  split at compiled
  · exact absurd compiled (by simp)
  · rw [Except.ok.injEq] at compiled
    rw [← compiled]
    exact ⟨rfl, rfl, rfl⟩

/-- What holds of the pattern that a text compiles to, by evaluation. -/
theorem exists_of_compile_map {text : String} {test : Pattern → Bool}
    (evaluated : (compile text).toOption.map test = some true) :
    ∃ pattern, compile text = .ok pattern ∧ test pattern = true := by
  cases compiled : compile text with
  | error error => simp [compiled, Except.toOption] at evaluated
  | ok pattern => exact ⟨pattern, rfl, by simpa [compiled, Except.toOption] using evaluated⟩

theorem exists_compile_of_sound {text : String}
    (sound : Regex.Piece.firstFault (Glob.ofPattern (body text)).pieces = none) :
    ∃ pattern, compile text = .ok pattern := by
  have read := Glob.read_regexText (Glob.ofPattern (body text))
  rw [sound] at read
  cases compiled : compile text with
  | ok pattern => exact ⟨pattern, rfl⟩
  | error error =>
      simp only [compile] at compiled
      split at compiled
      · rename_i fault faulty
        rw [body] at read
        rw [read] at faulty
        exact absurd faulty (by simp)
      · exact absurd compiled (by simp)

/-- A compiled pattern matches exactly the paths that the documentation says it matches. -/
theorem accepts_eq_describes {text : String} {pattern : Pattern} {names : List String}
    (compiled : compile text = .ok pattern) (unescaped : .literal '/' ∉ Glob.symbols (body text))
    (nonempty : names ≠ []) (valid : ∀ name ∈ names, Glob.IsComponent name.toList) :
    pattern.accepts ("/".intercalate names) =
      ((Glob.documented (body text)).describes (names.map String.toList) != isNegated text) := by
  rcases parts_of_compile compiled with ⟨_, negated, glob⟩
  have validNames : ∀ name ∈ names.map String.toList, Glob.IsComponent name := by
    simpa using valid
  have path : ("/".intercalate names).toList = Glob.textOfNames (names.map String.toList) := by
    rw [String.toList_intercalate]
    rfl
  have same : pattern.globMatches ("/".intercalate names).toList =
      (Glob.documented (body text)).describes (names.map String.toList) := by
    rw [Bool.eq_iff_iff, globMatches_iff_mem_language, glob, Glob.language_ofPattern, path]
    exact Glob.mem_language_iff_describes (Glob.inner_documented unescaped)
      (Glob.separated_documented _) (by simpa using nonempty) validNames
  rw [accepts, same, negated]

/-- Without its negation the second path would not be matched. -/
theorem accepts_eq_describes_nested : ∃ pattern, compile "!a/**/*.md" = .ok pattern ∧
    pattern.accepts ("/".intercalate ["a", "x", "y.md"]) = false ∧
    pattern.accepts ("/".intercalate ["b", "y.md"]) = true := by
  have bodyEq : body "!a/**/*.md" = "a/**/*.md".toList := by decide
  have tokensEq : Glob.tokens "a/**/*.md".toList = [.literal 'a', .separator, .anyDepth, .separator,
      .star, .literal '.', .literal 'm', .literal 'd'] := by
    simp [Glob.tokens, Glob.tokensFrom, Glob.segmentEnds]
  have symbolsEq : Glob.symbols "a/**/*.md".toList = [.literal 'a', .separator, .star, .star,
      .separator, .star, .literal '.', .literal 'm', .literal 'd'] := by
    simp [Glob.symbols]
  have sound : Regex.Piece.firstFault (Glob.ofPattern (body "!a/**/*.md")).pieces = none := by
    rw [bodyEq, Glob.ofPattern, tokensEq]
    rfl
  have unescaped : .literal '/' ∉ Glob.symbols (body "!a/**/*.md") := by
    rw [bodyEq, symbolsEq]
    decide
  rcases exists_compile_of_sound sound with ⟨pattern, compiled⟩
  have accepts_eq {names : List String} (nonempty : names ≠ [])
      (valid : ∀ name ∈ names, Glob.IsComponent name.toList) :=
    accepts_eq_describes compiled unescaped nonempty valid
  rw [bodyEq, Glob.documented, Glob.documentedSegments, symbolsEq] at accepts_eq
  refine ⟨pattern, compiled, ?_, ?_⟩
  · rw [accepts_eq (by decide)]
    · decide
    · simp only [List.forall_mem_cons]
      exact ⟨⟨by decide, by decide, by decide⟩, ⟨by decide, by decide, by decide⟩,
        ⟨by decide, by decide, by decide⟩, by simp⟩
  · rw [accepts_eq (by decide)]
    · decide
    · simp only [List.forall_mem_cons]
      exact ⟨⟨by decide, by decide, by decide⟩, ⟨by decide, by decide, by decide⟩, by simp⟩

end Pattern

end OwnerCoverage
