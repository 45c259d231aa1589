import Mathlib.Data.List.Forall2
import OwnerCoverage.Proofs.Text.Pieces
import OwnerCoverage.Rules.Table

/-!
# Building a table

A table is the image of the lines of a file: one rule for each line that holds one, in order and
with the number of the line. The first line whose pattern cannot be compiled decides the error,
whatever stands behind it. What one line gives is settled first (`ruleOfLine_eq_ok_some_iff` and the
lemmas beside it), then what all lines give, by induction (`rulesFrom_eq_ok`,
`rulesFrom_eq_error_iff`).
-/

namespace OwnerCoverage

/-- Whether a line holds a rule whose pattern can be compiled. -/
def Pattern.isOnLine (line : String) : Bool :=
  match compileLine line with
  | .ok (some _) => true
  | _ => false

/-- The pattern of a line can be compiled, unless the line holds none. -/
def Pattern.Compiles (line : String) : Prop := ∃ pattern?, compileLine line = .ok pattern?

/-- A rule is the one that a numbered line holds. -/
structure Rule.IsOn (rule : Rule) (line : String) (number : Nat) : Prop where
  number_eq : rule.line = number
  compiled : Pattern.compileLine line = .ok (some rule.pattern)
  owners_eq : (RulesLine.split? line).map RulesLine.owners = some rule.owners

/-- Some rules are those on some numbered lines, one for each line and in their order. -/
abbrev Rule.AreOn (rules : List Rule) (numbered : List (String × Nat)) : Prop :=
  List.Forall₂ (fun rule line => rule.IsOn line.1 line.2) rules numbered

theorem Rule.isOn_iff {rule : Rule} {line : String} {number : Nat} :
    rule.IsOn line number ↔ rule.line = number ∧ ∃ fields, RulesLine.split? line = some fields ∧
      Pattern.compile fields.pattern = .ok rule.pattern ∧ fields.owners = rule.owners := by
  constructor
  · rintro ⟨number_eq, compiled, owners⟩
    rcases Option.map_eq_some_iff.1 owners with ⟨fields, split, same⟩
    refine ⟨number_eq, fields, split, ?_, same⟩
    unfold Pattern.compileLine at compiled
    rw [split] at compiled
    cases made : Pattern.compile fields.pattern <;> simp_all
  · rintro ⟨number_eq, fields, split, compiled, owners⟩
    exact ⟨number_eq, by simp [Pattern.compileLine, split, compiled], by simp [split, owners]⟩

theorem Pattern.pattern_of_compile_error {text : String} {error : PatternError}
    (faulty : compile text = .error error) : error.pattern = text := by
  simp only [compile] at faulty
  split at faulty
  · rw [Except.error.injEq] at faulty
    rw [← faulty]
  · simp at faulty

namespace RuleTable

section Line

variable {number : Nat} {line : String}

theorem ruleOfLine_eq_ok_none_iff :
    ruleOfLine number line = .ok none ↔ Pattern.compileLine line = .ok none := by
  unfold ruleOfLine Pattern.compileLine
  cases RulesLine.split? line with
  | none => simp
  | some fields => cases compiled : Pattern.compile fields.pattern <;> simp [compiled]

theorem ruleOfLine_eq_ok_some_iff {rule : Rule} :
    ruleOfLine number line = .ok (some rule) ↔ rule.IsOn line number := by
  rw [Rule.isOn_iff]
  unfold ruleOfLine
  constructor
  · intro made
    split at made
    · simp at made
    · rename_i fields split
      split at made
      · simp at made
      · rename_i pattern compiled
        rw [Except.ok.injEq, Option.some.injEq] at made
        subst made
        exact ⟨rfl, fields, split, compiled, rfl⟩
  · rintro ⟨rfl, fields, split, compiled, owners⟩
    simp [split, compiled, owners]

theorem ruleOfLine_eq_error_iff {error : RuleError} :
    ruleOfLine number line = .error error ↔
      error.line = number ∧ Pattern.compileLine line = .error error.error := by
  unfold ruleOfLine Pattern.compileLine
  rcases error with ⟨errorNumber, fault⟩
  cases RulesLine.split? line with
  | none => simp
  | some fields =>
      cases compiled : Pattern.compile fields.pattern <;>
        simp [compiled, eq_comm (a := number)]

theorem exists_ruleOfLine_iff (number : Nat) :
    (∃ rule?, ruleOfLine number line = .ok rule?) ↔ Pattern.Compiles line := by
  constructor
  · rintro ⟨rule? | rule, made⟩
    · exact ⟨none, ruleOfLine_eq_ok_none_iff.1 made⟩
    · exact ⟨some rule.pattern, (ruleOfLine_eq_ok_some_iff.1 made).compiled⟩
  · rintro ⟨pattern?, compiled⟩
    cases made : ruleOfLine number line with
    | ok rule? => exact ⟨rule?, rfl⟩
    | error error =>
        have faulty := (ruleOfLine_eq_error_iff.1 made).2
        rw [compiled] at faulty
        exact absurd faulty (by simp)

/-- The text that a faulty line reports is its first field. -/
theorem pattern_of_compileLine_error {error : PatternError}
    (faulty : Pattern.compileLine line = .error error) :
    (RulesLine.split? line).map RulesLine.pattern = some error.pattern := by
  unfold Pattern.compileLine at faulty
  split at faulty
  · simp at faulty
  · rename_i fields split
    split at faulty
    · rename_i fault compiled
      rw [Except.error.injEq] at faulty
      subst faulty
      rw [split, Option.map_some, Pattern.pattern_of_compile_error compiled]
    · simp at faulty

end Line

section Lines

variable {number : Nat} {lines : List String}

theorem rulesFrom_cons_eq_ok_iff {line : String} {rules : List Rule} :
    rulesFrom number (line :: lines) = .ok rules ↔
      ∃ rule? later, ruleOfLine number line = .ok rule? ∧
        rulesFrom (number + 1) lines = .ok later ∧ rules = rule?.toList ++ later := by
  rw [rulesFrom]
  cases ruleOfLine number line with
  | error error => simp
  | ok rule? => cases rulesFrom (number + 1) lines <;> simp [eq_comm]

theorem rulesFrom_cons_eq_error_iff {line : String} {error : RuleError} :
    rulesFrom number (line :: lines) = .error error ↔
      ruleOfLine number line = .error error ∨
        Pattern.Compiles line ∧ rulesFrom (number + 1) lines = .error error := by
  rw [rulesFrom, ← exists_ruleOfLine_iff number]
  cases ruleOfLine number line with
  | error error => simp
  | ok rule? => cases rulesFrom (number + 1) lines <;> simp

/-- The lines that hold a rule, with their numbers, if the first line has a given number. -/
def numberedRuleLines (number : Nat) (lines : List String) : List (String × Nat) :=
  (lines.zipIdx number).filter fun numbered => Pattern.isOnLine numbered.1

theorem numberedRuleLines_cons_of_none {line : String}
    (blank : Pattern.compileLine line = .ok none) :
    numberedRuleLines number (line :: lines) = numberedRuleLines (number + 1) lines := by
  simp [numberedRuleLines, Pattern.isOnLine, blank]

theorem numberedRuleLines_cons_of_some {line : String} {pattern : Pattern}
    (holds : Pattern.compileLine line = .ok (some pattern)) :
    numberedRuleLines number (line :: lines) =
      (line, number) :: numberedRuleLines (number + 1) lines := by
  simp [numberedRuleLines, Pattern.isOnLine, holds]

/-- The rules of some lines are those on the lines that hold one. -/
theorem rulesFrom_eq_ok {rules : List Rule} (built : rulesFrom number lines = .ok rules) :
    (∀ line ∈ lines, Pattern.Compiles line) ∧
      Rule.AreOn rules (numberedRuleLines number lines) := by
  induction lines generalizing number rules with
  | nil =>
      rw [rulesFrom, Except.ok.injEq] at built
      subst built
      exact ⟨by simp, .nil⟩
  | cons line lines ih =>
      rcases rulesFrom_cons_eq_ok_iff.1 built with ⟨rule?, later, first, rest, rfl⟩
      rcases ih rest with ⟨compile, areOn⟩
      cases rule? with
      | none =>
          have blank := ruleOfLine_eq_ok_none_iff.1 first
          rw [numberedRuleLines_cons_of_none blank]
          exact ⟨List.forall_mem_cons.2 ⟨⟨_, blank⟩, compile⟩, areOn⟩
      | some rule =>
          have isOn := ruleOfLine_eq_ok_some_iff.1 first
          rw [numberedRuleLines_cons_of_some isOn.compiled]
          exact ⟨List.forall_mem_cons.2 ⟨⟨_, isOn.compiled⟩, compile⟩, .cons isOn areOn⟩

/-- The first line that cannot be compiled decides the error. -/
theorem rulesFrom_eq_error_iff {error : RuleError} :
    rulesFrom number lines = .error error ↔
      ∃ before line after, lines = before ++ line :: after ∧
        (∀ earlier ∈ before, Pattern.Compiles earlier) ∧
          Pattern.compileLine line = .error error.error ∧
            error.line = number + before.length := by
  induction lines generalizing number with
  | nil => simp [rulesFrom]
  | cons first lines ih =>
      rw [rulesFrom_cons_eq_error_iff, ruleOfLine_eq_error_iff, ih]
      -- The fault is on the first line, or on a later one whose number counts the first line too.
      constructor
      · rintro (⟨number_eq, faulty⟩ |
          ⟨compiles, before, line, after, rfl, earlier, faulty, number_eq⟩)
        · exact ⟨[], first, lines, rfl, by simp, faulty, number_eq⟩
        · refine ⟨first :: before, line, after, rfl, ?_, faulty, ?_⟩
          · exact List.forall_mem_cons.2 ⟨compiles, earlier⟩
          · rw [number_eq, List.length_cons]
            omega
      · rintro ⟨_ | ⟨head, before⟩, line, after, split, earlier, faulty, number_eq⟩
        · rw [List.nil_append, List.cons.injEq] at split
          rcases split with ⟨rfl, rfl⟩
          exact Or.inl ⟨number_eq, faulty⟩
        · rw [List.cons_append, List.cons.injEq] at split
          rcases split with ⟨rfl, rfl⟩
          rcases List.forall_mem_cons.1 earlier with ⟨compiles, earlier⟩
          refine Or.inr ⟨compiles, before, line, after, rfl, earlier, faulty, ?_⟩
          rw [number_eq, List.length_cons]
          omega

theorem exists_rulesFrom_iff (number : Nat) :
    (∃ rules, rulesFrom number lines = .ok rules) ↔ ∀ line ∈ lines, Pattern.Compiles line := by
  constructor
  · rintro ⟨rules, built⟩
    exact (rulesFrom_eq_ok built).1
  · intro compile
    cases built : rulesFrom number lines with
    | ok rules => exact ⟨rules, rfl⟩
    | error error =>
        rcases rulesFrom_eq_error_iff.1 built with ⟨before, line, after, rfl, _, faulty, _⟩
        rcases compile line (by simp) with ⟨pattern?, compiled⟩
        rw [compiled] at faulty
        exact absurd faulty (by simp)

theorem ofLines_eq_ok_iff {table : RuleTable} :
    ofLines lines = .ok table ↔ rulesFrom 1 lines = .ok table.rules := by
  unfold ofLines
  cases rulesFrom 1 lines with
  | error error => simp [Except.map]
  | ok rules =>
      rcases table with ⟨rules'⟩
      simp [Except.map]

theorem ofLines_eq_error_iff {error : RuleError} :
    ofLines lines = .error error ↔ rulesFrom 1 lines = .error error := by
  unfold ofLines
  cases rulesFrom 1 lines <;> simp [Except.map]

/-- What holds of the table that lines give, by evaluation. -/
theorem exists_of_ofLines_map {test : RuleTable → Bool}
    (evaluated : (ofLines lines).toOption.map test = some true) :
    ∃ table, ofLines lines = .ok table ∧ test table = true := by
  cases built : ofLines lines with
  | error error => simp [built, Except.toOption] at evaluated
  | ok table => exact ⟨table, rfl, by simpa [built, Except.toOption] using evaluated⟩

end Lines

section Numbers

variable {number : Nat} {lines : List String} {rules : List Rule}

theorem numbers_of_areOn {numbered : List (String × Nat)} (areOn : Rule.AreOn rules numbered) :
    rules.map Rule.line = numbered.map Prod.snd := by
  induction areOn with
  | nil => rfl
  | cons isOn _ ih => rw [List.map_cons, List.map_cons, ih, isOn.number_eq]

theorem exists_isOn_of_mem {numbered : List (String × Nat)} (areOn : Rule.AreOn rules numbered)
    {rule : Rule} (mem : rule ∈ rules) : ∃ line ∈ numbered, rule.IsOn line.1 line.2 := by
  induction areOn with
  | nil => simp at mem
  | @cons first line rules numbered isOn _ ih =>
      rcases List.mem_cons.1 mem with rfl | mem
      · exact ⟨line, List.mem_cons_self, isOn⟩
      · rcases ih mem with ⟨line, line_mem, isOn⟩
        exact ⟨line, List.mem_cons_of_mem _ line_mem, isOn⟩

theorem exists_isOn_of_ofLines {table : RuleTable} (built : ofLines lines = .ok table) {rule : Rule}
    (mem : rule ∈ table.rules) : ∃ line ∈ lines, ∃ number, rule.IsOn line number := by
  have areOn := (rulesFrom_eq_ok (ofLines_eq_ok_iff.1 built)).2
  rcases exists_isOn_of_mem areOn mem with ⟨⟨line, number⟩, numbered_mem, isOn⟩
  exact ⟨line, List.fst_mem_of_mem_zipIdx (List.mem_filter.1 numbered_mem).1, number, isOn⟩

theorem pairwise_line_lt (areOn : Rule.AreOn rules (numberedRuleLines number lines)) :
    rules.Pairwise fun first second => first.line < second.line := by
  have increasing : ((lines.zipIdx number).map Prod.snd).Pairwise (· < ·) := by
    rw [List.zipIdx_map_snd]
    exact List.pairwise_lt_range'
  rw [← List.pairwise_map, numbers_of_areOn areOn]
  exact increasing.sublist (List.filter_sublist.map Prod.snd)

end Numbers

section Text

theorem ruleOfLine_congr {first second : String}
    (same : RulesLine.split? first = RulesLine.split? second) (number : Nat) :
    ruleOfLine number first = ruleOfLine number second := by
  rw [ruleOfLine, ruleOfLine, same]

theorem split?_dropCarriageReturn (line : List Char) :
    RulesLine.split? (String.ofList (Text.dropCarriageReturn line)) =
      RulesLine.split? (String.ofList line) := by
  rw [RulesLine.split?, RulesLine.split?, String.toList_ofList, String.toList_ofList,
    Text.dropEndWhile_dropCarriageReturn rfl]

/-- Neither carriage returns at the ends of lines nor an empty last line matter to the rules. -/
theorem rulesFrom_linesOfPieces (number : Nat) (pieces : List (List Char)) :
    rulesFrom number ((Text.linesOfPieces pieces).map String.ofList) =
      rulesFrom number (pieces.map String.ofList) := by
  fun_induction Text.linesOfPieces pieces generalizing number with
  | case1 => rfl
  | case2 last empty =>
      rw [List.isEmpty_iff] at empty
      subst empty
      rfl
  | case3 => rfl
  | case4 line next rest ih =>
      rw [List.map_cons, List.map_cons, rulesFrom, rulesFrom, ih,
        ruleOfLine_congr (split?_dropCarriageReturn line)]

/-- What stands between the line feeds of a text. -/
def linesBetween (text : String) : List String :=
  (text.toList.splitOnP (· == '\n')).map String.ofList

theorem ofText_eq_ofLines_linesBetween (text : String) :
    ofText text = ofLines (linesBetween text) := by
  rw [ofText, ofLines, ofLines, Text.lines, rulesFrom_linesOfPieces, linesBetween]

end Text

/-- What a table has of the lines that it is built from. It is built exactly if every pattern
compiles, and has then one rule for each line that holds one, with increasing numbers; rules that
are pushed one by one make the same table. Otherwise the first faulty line is reported, by its
number and its first field. Of a text, the lines between the line feeds count. -/
theorem ofLines_image_or_first_fault (lines : List String) :
    ((∃ table, ofLines lines = .ok table) ↔ ∀ line ∈ lines, Pattern.Compiles line) ∧
    (∀ table, ofLines lines = .ok table →
      Rule.AreOn table.rules (numberedRuleLines 1 lines) ∧
      table.rules.Pairwise (fun first second => first.line < second.line) ∧
      ofRules table.rules = table) ∧
    (∀ before line after error, lines = before ++ line :: after →
      (∀ earlier ∈ before, Pattern.Compiles earlier) → Pattern.compileLine line = .error error →
      ofLines lines = .error ⟨before.length + 1, error⟩ ∧
        (RulesLine.split? line).map RulesLine.pattern = some error.pattern) ∧
    ∀ text, ofText text = ofLines (Text.lines text) ∧
      ofText text = ofLines (linesBetween text) := by
  refine ⟨?_, ?_, ?_, fun text => ⟨rfl, ofText_eq_ofLines_linesBetween text⟩⟩
  · rw [← exists_rulesFrom_iff 1]
    constructor
    · rintro ⟨table, built⟩
      exact ⟨table.rules, ofLines_eq_ok_iff.1 built⟩
    · rintro ⟨rules, built⟩
      exact ⟨⟨rules⟩, ofLines_eq_ok_iff.2 built⟩
  · intro table built
    have areOn := (rulesFrom_eq_ok (ofLines_eq_ok_iff.1 built)).2
    refine ⟨areOn, pairwise_line_lt areOn, ?_⟩
    rcases table with ⟨rules⟩
    exact congrArg RuleTable.mk (rules_ofRules rules)
  · intro before line after error split earlier faulty
    refine ⟨?_, pattern_of_compileLine_error faulty⟩
    rw [ofLines_eq_error_iff, rulesFrom_eq_error_iff]
    exact ⟨before, line, after, split, earlier, faulty, Nat.add_comm _ _⟩

/-- The third line is the first faulty one, and the fourth does not count. -/
theorem ofLines_image_or_first_fault_third : ∃ error,
    ofLines ["# note", "*.rs @a", "[z-a] @b", "[b-a]"] = .error ⟨3, error⟩ ∧
    error.pattern = "[z-a]" := by
  have compile : ∀ line ∈ ["# note", "*.rs @a"], (Pattern.compileLine line).toBool = true := by
    decide +kernel
  have faulty : (Pattern.compileLine "[z-a] @b").toBool = false := by decide +kernel
  have field : (RulesLine.split? "[z-a] @b").map RulesLine.pattern = some "[z-a]" := by
    decide +kernel
  rcases ofLines_image_or_first_fault ["# note", "*.rs @a", "[z-a] @b", "[b-a]"] with
    ⟨_, _, firstFault, _⟩
  cases compiled : Pattern.compileLine "[z-a] @b" with
  | ok pattern? => simp [compiled, Except.toBool] at faulty
  | error error =>
      have earlier : ∀ line ∈ ["# note", "*.rs @a"], Pattern.Compiles line := by
        intro line mem
        have compiles := compile line mem
        cases made : Pattern.compileLine line with
        | ok pattern? => exact ⟨pattern?, made⟩
        | error error => simp [made, Except.toBool] at compiles
      rcases firstFault ["# note", "*.rs @a"] "[z-a] @b" ["[b-a]"] error rfl earlier compiled with
        ⟨fails, reported⟩
      rw [field, Option.some.injEq] at reported
      exact ⟨error, fails, reported.symm⟩

end RuleTable

end OwnerCoverage
