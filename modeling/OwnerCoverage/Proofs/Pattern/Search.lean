import OwnerCoverage.Proofs.Pattern.Meaning
import OwnerCoverage.Proofs.Text.Search

/-!
# The search before the expression

A pattern first searches a path for the longest literal text of its glob, and tries its expression
only where the search finds something. `accepts_eq_foundIn_of_compile` says that the search changes
no answer: wherever the expression is found, the bytes of the literal text occur among the bytes of
the path, so a pattern matches exactly as its expression and its negation say.
-/

namespace OwnerCoverage

namespace Pattern

/-- A search that compares bytes finds the same as one that compares characters. -/
theorem occursIn_iff_bytes {piece : List Char} {path : String} :
    occursIn piece path.toList = true ↔
      Bytes.ofText (String.ofList piece) <:+: Bytes.ofText path := by
  refine occursIn_iff_infix.trans ?_
  rw [Bytes.ofText_infix_iff, String.toList_ofList]

/-- Every path in which the expression of a compiled pattern is found holds the bytes of the longest
literal text, and the pattern matches as if it were not searched for: exactly if the expression is
found, or exactly if it is not where the pattern is negated. -/
theorem accepts_eq_foundIn_of_compile {text : String} {pattern : Pattern}
    (compiled : compile text = .ok pattern) (path : String) :
    ∃ expression, Regex.read pattern.regexText.toList = .ok expression ∧
      pattern.accepts path = (expression.foundIn path.toList != pattern.negated) ∧
      pattern.negated = isNegated text ∧
      (expression.foundIn path.toList = true →
        Bytes.ofText (String.ofList (Glob.ofPattern (body text)).longestLiteral) <:+:
          Bytes.ofText path) := by
  rcases parts_of_compile compiled with ⟨_, negated, glob⟩
  have read : Regex.read pattern.regexText.toList = .ok pattern.regex := by
    rw [regexText, String.toList_ofList, pattern.read_regexText]
  refine ⟨pattern.regex, read, ?_, negated, ?_⟩
  · have same : pattern.globMatches path.toList = pattern.regex.foundIn path.toList := by
      rw [Bool.eq_iff_iff, globMatches_iff_mem_language, Glob.foundIn_iff_mem_language]
    rw [accepts, same]
  · intro found
    rw [← glob, ← occursIn_iff_bytes]
    exact Glob.occursIn_longestLiteral ((Glob.foundIn_iff_mem_language pattern _).1 found)

/-- A negated pattern whose longest literal text has characters of two bytes, and a path with a
line feed. -/
theorem accepts_eq_foundIn_of_compile_negated : ∃ pattern,
    compile "!/x/*été[a-f]\\/md" = .ok pattern ∧ pattern.accepts "x/caf\nétéd/md/z" = false ∧
    Bytes.ofText "été" <:+: Bytes.ofText "x/caf\nétéd/md/z" := by
  have evaluated : (compile "!/x/*été[a-f]\\/md").toOption.map (fun pattern =>
      pattern.regex.foundIn "x/caf\nétéd/md/z".toList && pattern.negated) = some true := by
    decide +kernel
  have literal : (Glob.ofPattern (body "!/x/*été[a-f]\\/md")).longestLiteral = "été".toList := by
    decide +kernel
  rcases exists_of_compile_map evaluated with ⟨pattern, compiled, holds⟩
  rw [Bool.and_eq_true] at holds
  rcases accepts_eq_foundIn_of_compile compiled "x/caf\nétéd/md/z" with
    ⟨expression, read, accepts_eq, _, occurs⟩
  rw [regexText, String.toList_ofList, pattern.read_regexText, Except.ok.injEq] at read
  subst read
  refine ⟨pattern, compiled, ?_, ?_⟩
  · rw [accepts_eq, holds.1, holds.2]
    rfl
  · have bytes := occurs holds.1
    rwa [literal] at bytes

end Pattern

end OwnerCoverage
