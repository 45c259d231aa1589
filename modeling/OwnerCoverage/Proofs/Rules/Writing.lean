import OwnerCoverage.Proofs.Pattern.Meaning
import OwnerCoverage.Proofs.Rules.Fields
import OwnerCoverage.Proofs.Rules.Lookup

/-!
# Writing a table

A table is written line by line: the pattern of a rule, and its owners with a space before each. The
lines are read back as the same patterns and owners (`ofLines_written`). This rests on two facts
about a line without carriage returns and line feeds: its fields are read back from the line that
they are written as, and compiling its pattern trims nothing, since a blank at the end of a pattern
is escaped by an odd number of backslashes.
-/

namespace OwnerCoverage

namespace Pattern

section Trimming

open RulesLine

theorem dropSpacesOfReversed_of_noBareBlank {text : List Char}
    (noBareBlank : NoBareBlank false text) : dropSpacesOfReversed text.reverse = text.reverse := by
  rcases List.eq_nil_or_concat' text with rfl | ⟨before, last, rfl⟩
  · rfl
  · rw [List.reverse_concat]
    unfold dropSpacesOfReversed
    split
    · rename_i rest reversed
      rw [List.cons.injEq] at reversed
      rcases reversed with ⟨rfl, rfl⟩
      -- The last character is a blank, so what stands before it escapes it.
      have escaped := (noBareBlank_append_iff.1 noBareBlank).2.1 (by decide)
      rw [if_pos ((endsEscaped_iff_odd before).1 escaped)]
    · rfl

/-- Only carriage returns at the end are trimmed from the pattern of a line. -/
theorem trim_eq {text kept : List Char} (returns : Text.dropEndWhile (· == '\r') text = kept)
    (starts : StartsPattern kept) (noBareBlank : NoBareBlank false kept) : trim text = kept := by
  rcases starts with ⟨first, head, isField, _⟩
  have starts : kept.dropWhile (· == ' ') = kept := by
    rcases kept with _ | ⟨char, rest⟩
    · rfl
    · rw [List.head?_cons, Option.mem_some_iff] at head
      subst head
      apply List.dropWhile_cons_of_neg
      intro space
      rw [beq_iff_eq.1 space] at isField
      exact absurd isField (by decide)
  rw [trim, returns, starts, dropSpacesOfReversed_of_noBareBlank noBareBlank, List.reverse_reverse]

/-- Nothing is trimmed from the pattern of a line without carriage returns. -/
theorem trim_eq_self {text : List Char} (starts : StartsPattern text)
    (noBareBlank : NoBareBlank false text) (noReturn : '\r' ∉ text) : trim text = text := by
  refine trim_eq (Text.dropEndWhile_eq_self ?_) starts noBareBlank
  intro char mem
  rw [beq_eq_false_iff_ne]
  rintro rfl
  exact noReturn mem

end Trimming

end Pattern

namespace Rule

/-- The line of a rule, with a space before each owner. -/
def written (rule : Rule) : String := RulesLine.written ⟨rule.pattern.source, rule.owners⟩

/-- What a rule says, wherever its line stands. -/
def content (rule : Rule) : Pattern × List String := (rule.pattern, rule.owners)

/-- A rule from a line without line ends is on the line that it is written as, with any number. -/
theorem IsOn.written {rule : Rule} {line : String} {number : Nat} (isOn : rule.IsOn line number)
    (noReturn : '\r' ∉ line.toList) (noLineFeed : '\n' ∉ line.toList) (newNumber : Nat) :
    IsOn ⟨newNumber, rule.pattern, rule.owners⟩ rule.written newNumber := by
  rcases isOn_iff.1 isOn with ⟨_, fields, split, compiled, owners⟩
  have wellFormed := RulesLine.wellFormed_of_split? split
  have inLine {char : Char} (mem : char ∈ fields.pattern.toList) : char ∈ line.toList :=
    RulesLine.mem_line_of_mem_pattern split mem
  have noLineEnd : ∀ char ∈ fields.pattern.toList, RulesLine.isLineEnd char = false := by
    intro char mem
    rw [RulesLine.isLineEnd, Bool.or_eq_false_iff, beq_eq_false_iff_ne, beq_eq_false_iff_ne]
    constructor
    · rintro rfl
      exact noReturn (inLine mem)
    · rintro rfl
      exact noLineFeed (inLine mem)
  have source : rule.pattern.source = fields.pattern := by
    rw [(Pattern.parts_of_compile compiled).1, Pattern.trim_eq_self wellFormed.starts
      wellFormed.noBareBlank fun mem => noReturn (inLine mem), String.ofList_toList]
  have same : rule.written = fields.written := by
    rw [Rule.written, source, ← owners]
  rw [same]
  exact isOn_iff.2 ⟨rfl, fields, RulesLine.split?_written wellFormed noLineEnd, compiled, owners⟩

end Rule

namespace RuleTable

theorem owners_eq_of_content {first second : RuleTable}
    (same : first.rules.map Rule.content = second.rules.map Rule.content) (path : String) :
    first.owners path = second.owners path := by
  have byContent (table : RuleTable) : table.owners path =
      ((((table.rules.map Rule.content).filter fun content => content.1.accepts path).getLast?).map
        Prod.snd).getD [] := by
    rw [owners, decidingRule?_eq_getLast?, matchingRules, List.filter_map, List.getLast?_map]
    change _ = (((table.rules.filter (·.pattern.accepts path)).getLast?.map Rule.content).map
      Prod.snd).getD []
    cases (table.rules.filter (·.pattern.accepts path)).getLast? <;> rfl
  rw [byContent first, byContent second, same]

theorem rulesFrom_written {rules : List Rule}
    (areOn : ∀ rule ∈ rules, ∀ number, Rule.IsOn ⟨number, rule.pattern, rule.owners⟩ rule.written
      number) (number : Nat) :
    ∃ again, rulesFrom number (rules.map Rule.written) = .ok again ∧
      again.map Rule.content = rules.map Rule.content := by
  induction rules generalizing number with
  | nil => exact ⟨[], rfl, rfl⟩
  | cons rule rules ih =>
      rcases List.forall_mem_cons.1 areOn with ⟨isOn, areOn⟩
      rcases ih areOn (number + 1) with ⟨later, built, same⟩
      refine ⟨⟨number, rule.pattern, rule.owners⟩ :: later, ?_, ?_⟩
      · rw [List.map_cons, rulesFrom_cons_eq_ok_iff]
        exact ⟨_, later, ruleOfLine_eq_ok_some_iff.2 (isOn number), built, rfl⟩
      · rw [List.map_cons, List.map_cons, same]
        rfl

/-- A table that is built from lines without line ends is built again from the lines that its rules
are written as: with the same patterns as a whole, so also the same texts, negations and
expressions, with the same owners, in the same order, and so with the same owners of every path. -/
theorem ofLines_written {lines : List String} {table : RuleTable}
    (noLineEnds : ∀ line ∈ lines, '\r' ∉ line.toList ∧ '\n' ∉ line.toList)
    (built : ofLines lines = .ok table) :
    ∃ again, ofLines (table.rules.map Rule.written) = .ok again ∧
      again.rules.map Rule.content = table.rules.map Rule.content ∧
      ∀ path, again.owners path = table.owners path := by
  have areOn : ∀ rule ∈ table.rules, ∀ number,
      Rule.IsOn ⟨number, rule.pattern, rule.owners⟩ rule.written number := by
    intro rule mem number
    rcases exists_isOn_of_ofLines built mem with ⟨line, line_mem, _, isOn⟩
    rcases noLineEnds line line_mem with ⟨noReturn, noLineFeed⟩
    exact isOn.written noReturn noLineFeed number
  rcases rulesFrom_written areOn 1 with ⟨rules, rebuilt, same⟩
  exact ⟨⟨rules⟩, ofLines_eq_ok_iff.2 rebuilt, same, owners_eq_of_content same⟩

/-- Escaped spaces inside and at the end of a pattern, and a last backslash that escapes nothing. -/
def sampleLines : List String := ["# note", "a\\ b\\  @x  @y", "!*.js", "c\\"]

theorem ofLines_written_sample : ∃ table again,
    ofLines sampleLines = .ok table ∧ ofLines (table.rules.map Rule.written) = .ok again ∧
    table.rules.map Rule.written = ["a\\ b\\  @x @y", "!*.js", "c\\"] ∧
    again.rules.map Rule.content = table.rules.map Rule.content := by
  have noLineEnds : ∀ line ∈ sampleLines, '\r' ∉ line.toList ∧ '\n' ∉ line.toList := by decide
  have lines : ((ofLines sampleLines).toOption.map fun table => table.rules.map Rule.written) =
      some ["a\\ b\\  @x @y", "!*.js", "c\\"] := by decide +kernel
  cases built : ofLines sampleLines with
  | error error => simp [built, Except.toOption] at lines
  | ok table =>
      rcases ofLines_written noLineEnds built with ⟨again, rebuilt, same, _⟩
      simp only [built, Except.toOption, Option.map_some, Option.some.injEq] at lines
      exact ⟨table, again, rfl, rebuilt, lines, same⟩

end RuleTable

end OwnerCoverage
