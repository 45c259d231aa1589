import OwnerCoverage.Proofs.Pattern.Compiling
import OwnerCoverage.Proofs.Pattern.Nesting
import OwnerCoverage.Proofs.Rules.Writing

/-!
# Naming a file by escaping it

A name with a backslash before each of its characters is read by four readers of backslashes: the
one that ends the pattern of a line, the two that trim the pattern, and the one that reads its
tokens. All but one take every character as it is. The exception is a carriage return at the end,
which is dropped although it is escaped, so that its backslash stands alone and is taken for itself.
`owners_of_escaped_iff` says which file the line of an escaped name gives an owner to, and that it
is the named one exactly if no carriage return ends the name.
-/

namespace OwnerCoverage

namespace Text

/-- A text with a backslash before each character. -/
def escape (text : List Char) : List Char := text.flatMap fun char => ['\\', char]

/-- What the escaped form of a text is taken for: a backslash stands for a carriage return at the
end. -/
def unescaped (text : List Char) : List Char :=
  if text.getLast? = some '\r' then text.dropLast ++ ['\\'] else text

theorem escape_cons (char : Char) (text : List Char) :
    escape (char :: text) = '\\' :: char :: escape text := rfl

theorem escape_concat (text : List Char) (last : Char) :
    escape (text ++ [last]) = escape text ++ ['\\'] ++ [last] := by
  simp [escape]

theorem head?_escape {text : List Char} (nonempty : text ≠ []) :
    (escape text).head? = some '\\' := by
  rcases List.exists_cons_of_ne_nil nonempty with ⟨char, rest, rfl⟩
  rfl

theorem head?_escape_append_backslash (text : List Char) :
    (escape text ++ ['\\']).head? = some '\\' := by
  cases text <;> rfl

theorem unescaped_concat (text : List Char) (last : Char) : unescaped (text ++ [last]) =
    if last = '\r' then text ++ ['\\'] else text ++ [last] := by
  simp [unescaped]

theorem unescaped_eq_self_iff {text : List Char} :
    unescaped text = text ↔ text.getLast? ≠ some '\r' := by
  rcases List.eq_nil_or_concat' text with rfl | ⟨before, last, rfl⟩
  · simp [unescaped]
  · rw [unescaped_concat, List.getLast?_concat]
    split <;> simp_all

end Text

open Text

namespace RulesLine

theorem endsEscaped_escape (text : List Char) : endsEscaped false (escape text) = false := by
  induction text with
  | nil => rfl
  | cons char text ih =>
      have step : endsEscaped false (escape (char :: text)) = endsEscaped false (escape text) := by
        simp [escape_cons, endsEscaped]
      rw [step, ih]

theorem noBareBlank_escape (text : List Char) : NoBareBlank false (escape text) := by
  induction text with
  | nil => trivial
  | cons char text ih => simpa [escape_cons, NoBareBlank] using ih

/-- The last backslash of an escaped text may stand alone. -/
theorem noBareBlank_escape_append_backslash (text : List Char) :
    NoBareBlank false (escape text ++ ['\\']) :=
  noBareBlank_append_iff.2 ⟨noBareBlank_escape text, by simp [NoBareBlank]⟩

theorem startsPattern_of_backslash {text : List Char} (starts : text.head? = some '\\') :
    StartsPattern text :=
  ⟨'\\', starts, by decide, by decide⟩

/-- The whole escaped text is the pattern of a line, whatever its characters are. -/
theorem split?_escaped {text : List Char} {owners : List String} (nonempty : text ≠ [])
    (areWords : ∀ owner ∈ owners, IsWord owner.toList) (owned : owners ≠ []) :
    split? (written ⟨String.ofList (escape text), owners⟩) =
      some ⟨String.ofList (escape text), owners⟩ := by
  refine split?_written_of_owned ⟨?_, ?_, areWords, fun _ => ?_⟩ owned
  · rw [String.toList_ofList]
    exact startsPattern_of_backslash (head?_escape nonempty)
  · rw [String.toList_ofList]
    exact noBareBlank_escape text
  · rw [String.toList_ofList]
    exact endsEscaped_escape text

end RulesLine

namespace Glob

/-- The glob of a name that is taken character by character. -/
def ofName (name : List Char) : Glob := ⟨false, false, [.component (name.map .literal)]⟩

theorem tokensFrom_escape_append (segmentStarts : Bool) (text rest : List Char) :
    tokensFrom segmentStarts (escape text ++ rest) =
      text.map .literal ++ tokensFrom (segmentStarts && text.isEmpty) rest := by
  induction text generalizing segmentStarts with
  | nil => simp [escape]
  | cons char text ih =>
      rw [escape_cons, List.cons_append, List.cons_append, tokensFrom, ih]
      simp

theorem tokens_escape (text : List Char) : tokens (escape text) = text.map .literal := by
  have read := tokensFrom_escape_append true text []
  rw [List.append_nil, tokensFrom, List.append_nil] at read
  exact read

theorem tokens_escape_append_backslash (text : List Char) :
    tokens (escape text ++ ['\\']) = (text ++ ['\\']).map .literal := by
  rw [tokens, tokensFrom_escape_append, tokensFrom, List.map_append]
  rfl

theorem ofTokens_literals {name : List Char} (nonempty : name ≠ []) :
    ofTokens (name.map .literal) = ofName name := by
  have groups : tokenGroups (name.map .literal) = [name.map .literal] :=
    List.splitOnP_eq_singleton (by simp)
  have filled : (name.map Token.literal).isEmpty = false := by simpa using nonempty
  have notDepth : name.map Token.literal ≠ [.anyDepth] := by
    rcases List.exists_cons_of_ne_nil nonempty with ⟨char, rest, rfl⟩
    simp
  simp [ofTokens, groups, filled, Segment.ofTokens, notDepth, Segment.merge, anchoredInside, ofName]

theorem mem_tokensLanguage_literals {name word : List Char} :
    word ∈ tokensLanguage (name.map .literal) ↔ word = name := by
  induction name generalizing word with
  | nil => exact Language.mem_one word
  | cons char name ih =>
      have single : (Token.literal char).language = Regex.charLanguage (Token.literal char).holds :=
        rfl
      rw [List.map_cons, tokensLanguage_cons, single, mem_charLanguage_mul_iff]
      constructor
      · rintro ⟨first, rest, rfl, holds, rest_mem⟩
        rw [Token.holds_literal, beq_iff_eq] at holds
        rw [holds, ih.1 rest_mem]
      · rintro rfl
        exact ⟨char, name, rfl, by rw [Token.holds_literal, beq_iff_eq], ih.2 rfl⟩

/-- Among the texts without a separator, a name describes itself alone. -/
theorem mem_language_ofName_iff {name word : List Char} (noSeparator : '/' ∉ word) :
    word ∈ (ofName name).language ↔ word = name := by
  have same : (ofName name).language =
      (anyText * slash + 1) * (tokensLanguage (name.map .literal) * (slash * anyText + 1)) := by
    simp [language, ofName, prefixLanguage, suffixLanguage, leadingLanguage, followingLanguage]
  rw [same]
  constructor
  · intro mem
    rcases Language.mem_mul.1 mem with ⟨above, above_mem, rest, rest_mem, rfl⟩
    rcases Language.mem_mul.1 rest_mem with ⟨inner, inner_mem, below, below_mem, rfl⟩
    have aboveEmpty : above = [] := by
      rcases (Language.mem_add ..).1 above_mem with above_mem | above_mem
      · rcases Language.mem_mul.1 above_mem with ⟨higher, _, _, ⟨char, isSlash, rfl⟩, rfl⟩
        rw [beq_iff_eq] at isSlash
        exact absurd (by simp [isSlash]) noSeparator
      · exact (Language.mem_one _).1 above_mem
    have belowEmpty : below = [] := by
      rcases (Language.mem_add ..).1 below_mem with below_mem | below_mem
      · rcases exists_of_mem_slash_mul below_mem with ⟨tail, rfl, _⟩
        exact absurd (by simp) noSeparator
      · exact (Language.mem_one _).1 below_mem
    rw [aboveEmpty, belowEmpty, List.append_nil]
    exact mem_tokensLanguage_literals.1 inner_mem
  · rintro rfl
    rw [← List.append_nil word, ← List.nil_append (word ++ [])]
    refine Language.append_mem_mul (Or.inr rfl) (Language.append_mem_mul ?_ (Or.inr rfl))
    rw [List.append_nil]
    exact mem_tokensLanguage_literals.2 rfl

end Glob

namespace Pattern

open RulesLine

theorem trim_escape {text : List Char} (nonempty : text ≠ [])
    (noReturn : text.getLast? ≠ some '\r') : trim (escape text) = escape text := by
  rcases List.eq_nil_or_concat' text with rfl | ⟨before, last, rfl⟩
  · exact absurd rfl nonempty
  · have returns : dropEndWhile (· == '\r') (escape (before ++ [last])) =
        escape (before ++ [last]) := by
      rw [escape_concat, dropEndWhile_concat (by simpa using noReturn)]
    exact trim_eq returns (startsPattern_of_backslash (head?_escape nonempty))
      (noBareBlank_escape _)

/-- The backslash of a trimmed carriage return is not trimmed with it. -/
theorem trim_escape_return (before : List Char) :
    trim (escape (before ++ ['\r'])) = escape before ++ ['\\'] := by
  have returns :
      dropEndWhile (· == '\r') (escape (before ++ ['\r'])) = escape before ++ ['\\'] := by
    rw [escape_concat, dropEndWhile_concat_of_dropped (by decide), dropEndWhile_concat (by decide)]
  have starts := startsPattern_of_backslash (head?_escape_append_backslash before)
  exact trim_eq returns starts (noBareBlank_escape_append_backslash before)

theorem splitNegation_backslash {text : List Char} (starts : text.head? = some '\\') :
    splitNegation text = (false, text) := by
  rcases List.head?_eq_some_iff.1 starts with ⟨rest, rfl⟩
  rfl

/-- The tokens of an escaped text are literal, and no carriage return at the end is among them. -/
theorem tokens_body_escaped {text : List Char} (nonempty : text ≠ []) :
    Glob.tokens (body (String.ofList (escape text))) = (unescaped text).map .literal ∧
      isNegated (String.ofList (escape text)) = false := by
  rw [body, isNegated, String.toList_ofList]
  by_cases isReturn : text.getLast? = some '\r'
  · rcases List.getLast?_eq_some_iff.1 isReturn with ⟨before, rfl⟩
    rw [trim_escape_return, splitNegation_backslash (head?_escape_append_backslash before),
      unescaped_concat, if_pos rfl]
    exact ⟨Glob.tokens_escape_append_backslash before, rfl⟩
  · rw [trim_escape nonempty isReturn, splitNegation_backslash (head?_escape nonempty),
      unescaped_eq_self_iff.2 isReturn]
    exact ⟨Glob.tokens_escape text, rfl⟩

/-- An escaped text compiles, and matches one text without a separator. -/
theorem exists_compile_escaped {text : List Char} (nonempty : text ≠ []) :
    ∃ pattern, compile (String.ofList (escape text)) = .ok pattern ∧
      ∀ path : String, '/' ∉ path.toList →
        (pattern.accepts path = true ↔ path.toList = unescaped text) := by
  rcases tokens_body_escaped nonempty with ⟨tokens, plain⟩
  have inOrder : ∀ token ∈ Glob.tokens (body (String.ofList (escape text))), token.InOrder := by
    rw [tokens]
    intro token mem
    rcases List.mem_map.1 mem with ⟨char, _, rfl⟩
    trivial
  rcases exists_compile_iff.2 inOrder with ⟨pattern, compiled⟩
  refine ⟨pattern, compiled, ?_⟩
  intro path noSeparator
  have negated := (parts_of_compile compiled).2.1
  have taken : unescaped text ≠ [] := by
    rcases List.eq_nil_or_concat' text with rfl | ⟨before, last, rfl⟩
    · exact absurd rfl nonempty
    · rw [unescaped_concat]
      split <;> simp
  rw [accepts_iff_mem_language compiled (negated.trans plain), Glob.ofPattern, tokens,
    Glob.ofTokens_literals taken, Glob.mem_language_ofName_iff noSeparator]

end Pattern

namespace RuleTable

theorem owners_of_one_rule (rule : Rule) (path : String) : owners ⟨[rule]⟩ path =
    if rule.pattern.accepts path = true then rule.owners else [] := by
  rw [owners, decidingRule?, List.reverse_singleton, List.find?_singleton]
  cases rule.pattern.accepts path <;> rfl

/-- The line of an escaped name is always a rule. It owns the file with that name and no other one
of the root, unless a carriage return ends the name: then it owns the file whose name has a
backslash there. -/
theorem owners_of_escaped_iff (name : String) (nonempty : name ≠ "")
    (noSeparator : '/' ∉ name.toList) :
    ∃ table, ofLines [String.ofList (escape name.toList) ++ " @o"] = .ok table ∧
      (∀ path : String, '/' ∉ path.toList →
        table.owners path = if path.toList = unescaped name.toList then ["@o"] else []) ∧
      ((∀ path : String, '/' ∉ path.toList →
          table.owners path = if path = name then ["@o"] else []) ↔
        name.toList.getLast? ≠ some '\r') := by
  have filled : name.toList ≠ [] := by simpa using nonempty
  have isWord : ∀ owner ∈ ["@o"], RulesLine.IsWord owner.toList := by
    intro owner mem
    rw [List.mem_singleton.1 mem]
    have noBlank : "@o".toList.all (fun char => !Text.isBlank char) = true := by decide
    exact ⟨by decide, by simpa using noBlank⟩
  have split := RulesLine.split?_escaped filled isWord (by simp)
  have line : RulesLine.written ⟨String.ofList (escape name.toList), ["@o"]⟩ =
      String.ofList (escape name.toList) ++ " @o" := by
    simp [RulesLine.written, String.join]
  rw [line] at split
  rcases Pattern.exists_compile_escaped filled with ⟨pattern, compiled, accepts⟩
  have isOn : Rule.IsOn ⟨1, pattern, ["@o"]⟩ (String.ofList (escape name.toList) ++ " @o") 1 :=
    Rule.isOn_iff.2 ⟨rfl, _, split, compiled, rfl⟩
  have built : ofLines [String.ofList (escape name.toList) ++ " @o"] =
      .ok ⟨[⟨1, pattern, ["@o"]⟩]⟩ :=
    ofLines_eq_ok_iff.2 (rulesFrom_cons_eq_ok_iff.2
      ⟨_, [], ruleOfLine_eq_ok_some_iff.2 isOn, rfl, rfl⟩)
  have owners_eq : ∀ path : String, '/' ∉ path.toList → owners ⟨[⟨1, pattern, ["@o"]⟩]⟩ path =
      if path.toList = unescaped name.toList then ["@o"] else [] := by
    intro path free
    rw [owners_of_one_rule]
    exact if_congr (accepts path free) rfl rfl
  refine ⟨_, built, owners_eq, ?_⟩
  rw [← unescaped_eq_self_iff]
  constructor
  · intro exact_eq
    by_contra differs
    have owned := (exact_eq name noSeparator).symm.trans (owners_eq name noSeparator)
    rw [if_pos rfl, if_neg (Ne.symm differs)] at owned
    exact absurd owned (by simp)
  · intro same path free
    rw [owners_eq path free, same]
    exact if_congr String.toList_inj rfl rfl

/-- A name of blanks, of characters with a meaning in patterns, and with a space at its end. -/
theorem owners_of_escaped_iff_blanks : ∃ table,
    ofLines [String.ofList (escape " #!*[\\\r\u3000\t ".toList) ++ " @o"] = .ok table ∧
    table.owners " #!*[\\\r\u3000\t " = ["@o"] ∧ table.owners " #!*[\\\r\u3000\t" = [] := by
  rcases owners_of_escaped_iff " #!*[\\\r\u3000\t " (by decide) (by decide) with
    ⟨table, built, _, exact_iff⟩
  have owners_eq := exact_iff.2 (by decide)
  refine ⟨table, built, ?_, ?_⟩
  · exact (owners_eq _ (by decide)).trans (if_pos rfl)
  · exact (owners_eq _ (by decide)).trans (if_neg (by decide))

/-- A carriage return at the end of a name is dropped from its line, and its backslash is not. -/
theorem owners_of_escaped_return : ∃ table,
    ofLines [String.ofList (escape "a\r".toList) ++ " @o"] = .ok table ∧
    table.owners "a\r" = [] ∧ table.owners "a\\" = ["@o"] := by
  have evaluated : (ofLines [String.ofList (escape "a\r".toList) ++ " @o"]).toOption.map
      (fun table => table.owners "a\r" == [] && table.owners "a\\" == ["@o"]) = some true := by
    decide +kernel
  rcases exists_of_ofLines_map evaluated with ⟨table, built, holds⟩
  rw [Bool.and_eq_true, beq_iff_eq, beq_iff_eq] at holds
  exact ⟨table, built, holds⟩

end RuleTable

end OwnerCoverage
