import OwnerCoverage.Proofs.Glob.Faults
import OwnerCoverage.Proofs.Pattern.Meaning

/-!
# Texts that compile

A text compiles unless a range in one of its bracket expressions ends below its start, whatever else
it holds. `compile_fails_at_first_inverted` says so, and that the error names the whole text and
marks the first such range of the pattern in the expression.
-/

namespace OwnerCoverage

open Regex

/-- An error names a text and marks an inverted range of its tokens: the expression is written from
the tokens before the bracket expression, the bracket expression itself, and the tokens behind it,
and the marks stand below the range. -/
structure PatternError.Reports (error : PatternError) (text : String) (range : Glob.InvertedRange) :
    Prop where
  pattern_eq : error.pattern = text
  marks : ∃ above below : List Piece,
    Glob.Writes above (range.before.filter Glob.Token.isWritten) ∧
    Glob.Writes below (range.after.filter Glob.Token.isWritten) ∧
    ∃ upTo behind : List Char, upTo = "\\A".toList ++ Piece.textOf above ++ range.opening ∧
      behind = range.closing ++ Piece.textOf below ++ "\\z".toList ∧
      error.regexText = String.ofList (upTo ++ range.item.text ++ behind) ∧
      error.fault = Glob.rangeFault range.item.text behind ∧
      error.cause = "regex parse error:\n    " ++ error.regexText ++ "\n    " ++
        String.ofList (List.replicate upTo.length ' ' ++
          List.replicate range.item.text.length '^') ++
        "\nerror: " ++ "invalid character class range, the start must be <= the end"

/-- The message of a fault has its marks below the stretch that begins at an offset. -/
theorem Regex.Fault.message_eq {fault : Fault} {text : String} {offset : Nat}
    (offset_eq : text.length - fault.remaining = offset) : fault.message text =
      "regex parse error:\n    " ++ text ++ "\n    " ++
        String.ofList (List.replicate offset ' ' ++ List.replicate fault.width '^') ++
        "\nerror: " ++ fault.kind.message := by
  rw [← offset_eq]
  unfold Fault.message
  rfl

theorem Glob.message_rangeFault (upTo stretch behind : List Char) :
    (rangeFault stretch behind).message (String.ofList (upTo ++ stretch ++ behind)) =
      "regex parse error:\n    " ++ String.ofList (upTo ++ stretch ++ behind) ++ "\n    " ++
        String.ofList (List.replicate upTo.length ' ' ++ List.replicate stretch.length '^') ++
        "\nerror: " ++ "invalid character class range, the start must be <= the end" := by
  have kind : (rangeFault stretch behind).kind.message =
      "invalid character class range, the start must be <= the end" := rfl
  have width : (rangeFault stretch behind).width = stretch.length := rfl
  have offset : (String.ofList (upTo ++ stretch ++ behind)).length -
      (rangeFault stretch behind).remaining = upTo.length := by
    simp [rangeFault]
  rw [Fault.message_eq offset, kind, width]

namespace Pattern

variable {text : String}

/-- A text with a faulty expression fails with the first fault of the expression. -/
theorem compile_of_faulty {fault : Fault}
    (faulty : Piece.firstFault (Glob.ofPattern (body text)).pieces = some fault) :
    compile text = .error ⟨text, String.ofList (Glob.ofPattern (body text)).regexText,
      fault.before "\\z".toList.length⟩ := by
  have read := Glob.read_regexText (Glob.ofPattern (body text))
  rw [faulty] at read
  simp only [body] at read
  simp only [compile]
  split
  · rename_i other readOther
    rw [read, Except.error.injEq] at readOther
    rw [← readOther]
    rfl
  · rename_i regex readRegex
    rw [read] at readRegex
    exact absurd readRegex (by simp)

theorem exists_compile_iff :
    (∃ pattern, compile text = .ok pattern) ↔
      ∀ token ∈ Glob.tokens (body text), token.InOrder := by
  rw [← Glob.firstFault_ofTokens_eq_none_iff]
  constructor
  · rintro ⟨pattern, compiled⟩
    by_contra faulty
    rcases Option.ne_none_iff_exists'.1 faulty with ⟨fault, faulty⟩
    have failed := compile_of_faulty faulty
    rw [compiled] at failed
    exact absurd failed (by simp)
  · exact exists_compile_of_sound

/-- A text with an inverted range fails at the first one. -/
theorem exists_reports {range : Glob.InvertedRange}
    (tokens_eq : range.tokens = Glob.tokens (body text)) (isFirst : range.IsFirst) :
    ∃ error, compile text = .error error ∧ error.Reports text range := by
  rcases Glob.firstFault_of_isFirst isFirst with
    ⟨above, below, pieces_eq, writesAbove, writesBelow, faulty⟩
  have regexText_eq : (Glob.ofPattern (body text)).regexText =
      ("\\A".toList ++ Piece.textOf above ++ range.opening) ++ range.item.text ++
        (range.closing ++ Piece.textOf below ++ "\\z".toList) := by
    rw [Glob.regexText_eq, Glob.ofPattern, ← tokens_eq, pieces_eq]
    have piece_text : range.token.piece.text =
        range.opening ++ (range.item.text ++ range.closing) := range.text_token
    simp [Piece.textOf, piece_text]
  rw [tokens_eq] at faulty
  have failed := compile_of_faulty faulty
  rw [Glob.before_rangeFault, regexText_eq] at failed
  exact ⟨_, failed, rfl, above, below, writesAbove, writesBelow, _, _, rfl, rfl, rfl, rfl,
    Glob.message_rangeFault _ _ _⟩

/-- A text compiles unless a bracket expression of its body has a range that ends below its start.
The error then names the text as it was given and marks the first such range. -/
theorem compile_fails_at_first_inverted (text : String) :
    ((∃ pattern, compile text = .ok pattern) ↔
      ∀ token ∈ Glob.tokens (body text), token.InOrder) ∧
    ((∃ error, compile text = .error error) ↔
      ∃ range : Glob.InvertedRange, range.tokens = Glob.tokens (body text)) ∧
    ∀ error, compile text = .error error →
      ∃ range : Glob.InvertedRange, range.tokens = Glob.tokens (body text) ∧ range.IsFirst ∧
        error.Reports text range := by
  have fails {error : PatternError} (failed : compile text = .error error) :
      ∃ range : Glob.InvertedRange, range.tokens = Glob.tokens (body text) ∧ range.IsFirst := by
    apply Glob.exists_isFirst
    intro inOrder
    rcases exists_compile_iff.2 inOrder with ⟨pattern, compiled⟩
    rw [compiled] at failed
    exact absurd failed (by simp)
  refine ⟨exists_compile_iff, ⟨?_, ?_⟩, ?_⟩
  · rintro ⟨error, failed⟩
    rcases fails failed with ⟨range, tokens_eq, _⟩
    exact ⟨range, tokens_eq⟩
  · rintro ⟨range, tokens_eq⟩
    rcases Glob.exists_isFirst range.not_inOrder with ⟨first, first_eq, isFirst⟩
    rcases exists_reports (first_eq.trans tokens_eq) isFirst with ⟨error, failed, _⟩
    exact ⟨error, failed⟩
  · intro error failed
    rcases fails failed with ⟨range, tokens_eq, isFirst⟩
    rcases exists_reports tokens_eq isFirst with ⟨other, failedOther, reports⟩
    rw [failed, Except.error.injEq] at failedOther
    rw [failedOther]
    exact ⟨range, tokens_eq, isFirst, reports⟩

/-- A negated text whose second bracket expression has an inverted range behind another member. -/
theorem compile_fails_at_first_inverted_second : ∃ error,
    compile "!a[c-d][ez-b]" = .error error ∧ ∃ range : Glob.InvertedRange,
      range.tokens = [.literal 'a', .charClass false [.range 'c' 'd'],
        .charClass false [.single 'e', .range 'z' 'b']] ∧
      range.IsFirst ∧ error.Reports "!a[c-d][ez-b]" range := by
  have tokens_eq : Glob.tokens (body "!a[c-d][ez-b]") = [.literal 'a',
      .charClass false [.range 'c' 'd'], .charClass false [.single 'e', .range 'z' 'b']] := by
    decide +kernel
  rcases compile_fails_at_first_inverted "!a[c-d][ez-b]" with ⟨_, fails_iff, reported⟩
  rw [tokens_eq] at fails_iff reported
  have inverted : ∃ range : Glob.InvertedRange, range.tokens = [.literal 'a',
      .charClass false [.range 'c' 'd'], .charClass false [.single 'e', .range 'z' 'b']] :=
    ⟨⟨[.literal 'a', .charClass false [.range 'c' 'd']], false, [.single 'e'], 'z', 'b', [], [],
      by decide⟩, rfl⟩
  rcases fails_iff.2 inverted with ⟨error, failed⟩
  exact ⟨error, failed, reported error failed⟩

end Pattern

end OwnerCoverage
