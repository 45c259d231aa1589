import OwnerCoverage.Proofs.Pattern.Meaning

/-!
# Compiled patterns as texts of expressions

A compiled pattern gives away the text of its expression. `read_regexText_of_compile` says what that
text means to a reader that knows nothing of globs: it is read as one item for each token, between
the connectors of the segments and the two anchors, and is found in exactly the texts of the glob's
language. So no character of a pattern is read as an operator, wherever it stands.
-/

namespace OwnerCoverage

namespace Pattern

/-- The text of the expression of a compiled pattern is read as the items of its tokens, and is
found in exactly the texts of the language that is built from the glob. -/
theorem read_regexText_of_compile {text : String} {pattern : Pattern}
    (compiled : compile text = .ok pattern) :
    ∃ expression, Regex.read pattern.regexText.toList = .ok expression ∧
      expression =
        Regex.sequence (.textStart :: ((Glob.ofPattern (body text)).items ++ [.textEnd])) ∧
      ∀ path : String, expression.foundIn path.toList = true ↔
        path.toList ∈ (Glob.ofPattern (body text)).language := by
  have glob : pattern.glob = Glob.ofPattern (body text) := (parts_of_compile compiled).2.2
  have read : Regex.read pattern.regexText.toList = .ok pattern.regex := by
    rw [regexText, String.toList_ofList, pattern.read_regexText]
  refine ⟨pattern.regex, read, ?_, ?_⟩
  · rw [← glob]
    exact Glob.regex_eq_sequence pattern
  · intro path
    rw [← glob]
    exact Glob.foundIn_iff_mem_language pattern path.toList

/-- Characters that could be operators stand for themselves, in a bracket expression and outside. -/
theorem read_regexText_of_compile_operators : ∃ pattern,
    compile "[&&~~^-][[:]\x7ba|b\x7d" = .ok pattern ∧
    "~[\x7ba|b\x7d".toList ∈ (Glob.ofPattern (body "[&&~~^-][[:]\x7ba|b\x7d")).language ∧
    "a[\x7ba|b\x7d".toList ∉ (Glob.ofPattern (body "[&&~~^-][[:]\x7ba|b\x7d")).language := by
  have compiles : (compile "[&&~~^-][[:]\x7ba|b\x7d").toBool = true := by decide +kernel
  have found : ((compile "[&&~~^-][[:]\x7ba|b\x7d").toOption.map fun pattern =>
      ((Regex.read pattern.regexText.toList).toOption.map fun expression =>
        (expression.foundIn "~[\x7ba|b\x7d".toList, expression.foundIn "a[\x7ba|b\x7d".toList))) =
          some (some (true, false)) := by decide +kernel
  cases compiled : compile "[&&~~^-][[:]\x7ba|b\x7d" with
  | error error => simp [compiled, Except.toBool] at compiles
  | ok pattern =>
      rcases read_regexText_of_compile compiled with ⟨expression, read, _, found_iff⟩
      simp only [compiled, read, Except.toOption, Option.map_some, Option.some.injEq,
        Prod.mk.injEq] at found
      refine ⟨pattern, rfl, (found_iff _).1 found.1, ?_⟩
      rw [← found_iff, found.2]
      simp

end Pattern

end OwnerCoverage
