import OwnerCoverage.Proofs.Rules.Building

/-!
# Looking up a path

The rule that decides a path is the last of those that match it, and these are the rules of the
table in their order (`decidingRule?_eq_getLast?`, `selects_matchingRules`). So a table that is
followed by another one decides only the paths that no rule of the other one matches, whatever
owners the rules name. `ofText_append` ties this to texts: a text that another one follows on a new
line makes the table of the one followed by that of the other, whose lines stand so much further
down.
-/

namespace OwnerCoverage

/-- The same rule, when some more lines stand before it. -/
def Rule.below (rule : Rule) (lines : Nat) : Rule := { rule with line := rule.line + lines }

/-- The same error, when some more lines stand before it. -/
def RuleError.below (error : RuleError) (lines : Nat) : RuleError :=
  { error with line := error.line + lines }

namespace RuleTable

section Matches

variable {table : RuleTable} {path : String}

theorem decidingRule?_eq_getLast? (table : RuleTable) (path : String) :
    table.decidingRule? path = (table.matchingRules path).getLast? := by
  rw [decidingRule?, matchingRules, ← List.head?_filter, List.filter_reverse, List.head?_reverse]

/-- Some rules are those of a table that match a path: all of them, in the order of the table. -/
structure Selects (table : RuleTable) (path : String) (rules : List Rule) : Prop where
  inOrder : rules.Sublist table.rules
  accept : ∀ rule ∈ rules, rule.pattern.accepts path = true
  complete : ∀ others : List Rule, others.Sublist table.rules →
    (∀ rule ∈ others, rule.pattern.accepts path = true) → others.Sublist rules

theorem selects_matchingRules (table : RuleTable) (path : String) :
    table.Selects path (table.matchingRules path) where
  inOrder := List.filter_sublist
  accept _ mem := (List.mem_filter.1 mem).2
  complete others inOrder accept := by
    rw [← List.filter_eq_self.2 accept]
    exact inOrder.filter _

theorem owners_of_decidingRule? {rule : Rule} (decides : table.decidingRule? path = some rule) :
    table.owners path = rule.owners := by
  rw [owners, decides]

theorem owners_of_no_decidingRule? (undecided : table.decidingRule? path = none) :
    table.owners path = [] := by
  rw [owners, undecided]

end Matches

section FollowedBy

/-- A table, and behind it another one whose lines stand further down. -/
def followedBy (first second : RuleTable) (lines : Nat) : RuleTable :=
  ⟨first.rules ++ second.rules.map (·.below lines)⟩

variable (first second : RuleTable) (lines : Nat) (path : String)

theorem matchingRules_followedBy : (first.followedBy second lines).matchingRules path =
    first.matchingRules path ++ (second.matchingRules path).map (·.below lines) := by
  rw [matchingRules, followedBy, List.filter_append, List.filter_map]
  rfl

theorem decidingRule?_followedBy : (first.followedBy second lines).decidingRule? path =
    ((second.decidingRule? path).map (·.below lines)).or (first.decidingRule? path) := by
  simp only [decidingRule?_eq_getLast?, matchingRules_followedBy, List.getLast?_append,
    List.getLast?_map]

theorem owners_followedBy : (first.followedBy second lines).owners path =
    match second.decidingRule? path with
    | some rule => rule.owners
    | none => first.owners path := by
  rw [owners, decidingRule?_followedBy]
  cases second.decidingRule? path <;> rfl

end FollowedBy

section Joined

theorem ruleOfLine_add (number lines : Nat) (line : String) :
    ruleOfLine (number + lines) line =
      match ruleOfLine number line with
      | .error error => .error (error.below lines)
      | .ok rule? => .ok (rule?.map (·.below lines)) := by
  unfold ruleOfLine
  cases RulesLine.split? line with
  | none => rfl
  | some fields => cases compiled : Pattern.compile fields.pattern <;> simp [compiled] <;> rfl

/-- The same lines further down make the same rules with greater numbers. -/
theorem rulesFrom_add (number count : Nat) (lines : List String) :
    rulesFrom (number + count) lines =
      match rulesFrom number lines with
      | .error error => .error (error.below count)
      | .ok rules => .ok (rules.map (·.below count)) := by
  induction lines generalizing number with
  | nil => rfl
  | cons line lines ih =>
      rw [rulesFrom, rulesFrom, ruleOfLine_add, Nat.add_right_comm, ih]
      cases ruleOfLine number line with
      | error error => rfl
      | ok rule? =>
          cases rulesFrom (number + 1) lines with
          | error error => rfl
          | ok rules => cases rule? <;> rfl

theorem rulesFrom_append (number : Nat) (before after : List String) :
    rulesFrom number (before ++ after) =
      match rulesFrom number before with
      | .error error => .error error
      | .ok rules =>
          match rulesFrom (number + before.length) after with
          | .error error => .error error
          | .ok more => .ok (rules ++ more) := by
  induction before generalizing number with
  | nil =>
      rw [List.nil_append, rulesFrom, List.length_nil, Nat.add_zero]
      cases rulesFrom number after <;> rfl
  | cons line before ih =>
      have length_eq : number + (line :: before).length = number + 1 + before.length := by
        rw [List.length_cons]
        omega
      rw [List.cons_append, rulesFrom, rulesFrom, ih, length_eq]
      cases ruleOfLine number line with
      | error error => rfl
      | ok rule? =>
          cases rulesFrom (number + 1) before with
          | error error => rfl
          | ok rules =>
              cases rulesFrom (number + 1 + before.length) after with
              | error error => rfl
              | ok more => simp

/-- How many lines a text puts before another one that follows on a new line. -/
def linesAbove (text : String) : Nat := 1 + text.toList.count '\n'

theorem linesBetween_append (first second : String) :
    linesBetween (first ++ "\n" ++ second) = linesBetween first ++ linesBetween second := by
  have split : (first ++ "\n" ++ second).toList = first.toList ++ '\n' :: second.toList := by simp
  rw [linesBetween, split, List.splitOnP_append_cons _ _ rfl, List.map_append]
  rfl

theorem length_linesBetween (text : String) : (linesBetween text).length = linesAbove text := by
  rw [linesBetween, List.length_map, Text.length_splitOnP, linesAbove, Nat.add_comm]
  rfl

theorem ofText_append (first second : String) :
    ofText (first ++ "\n" ++ second) =
      match ofText first with
      | .error error => .error error
      | .ok table =>
          match ofText second with
          | .error error => .error (error.below (linesAbove first))
          | .ok more => .ok (table.followedBy more (linesAbove first)) := by
  simp only [ofText_eq_ofLines_linesBetween, linesBetween_append, ofLines, rulesFrom_append,
    length_linesBetween, rulesFrom_add]
  cases rulesFrom 1 (linesBetween first) with
  | error error => rfl
  | ok rules => cases rulesFrom 1 (linesBetween second) <;> rfl

/-- What a text decides together with another one that follows on a new line. The first text fails
as before, and otherwise the second one does, further down. If both are read, the matching rules of
the second come after those of the first, the second decides wherever one of its rules matches, and
the owners are those of the deciding rule, also if it names none. -/
theorem lookups_of_joined_texts (first second path : String) :
    (∀ error, ofText first = .error error → ofText (first ++ "\n" ++ second) = .error error) ∧
    (∀ table error, ofText first = .ok table → ofText second = .error error →
      ofText (first ++ "\n" ++ second) = .error (error.below (linesAbove first))) ∧
    (∀ table more, ofText first = .ok table → ofText second = .ok more →
      ∃ joined, ofText (first ++ "\n" ++ second) = .ok joined ∧
        joined.matchingRules path = table.matchingRules path ++
          (more.matchingRules path).map (·.below (linesAbove first)) ∧
        joined.decidingRule? path =
          ((more.decidingRule? path).map (·.below (linesAbove first))).or
            (table.decidingRule? path) ∧
        joined.owners path =
          match more.decidingRule? path with
          | some rule => rule.owners
          | none => table.owners path) ∧
    ∀ table : RuleTable, table.Selects path (table.matchingRules path) ∧
      table.decidingRule? path = (table.matchingRules path).getLast? ∧
      (∀ rule, table.decidingRule? path = some rule → table.owners path = rule.owners) ∧
      (table.decidingRule? path = none → table.owners path = []) := by
  refine ⟨?_, ?_, ?_, ?_⟩
  · intro error fails
    rw [ofText_append, fails]
  · intro table error reads fails
    rw [ofText_append, reads, fails]
  · intro table more reads readsMore
    refine ⟨table.followedBy more (linesAbove first), ?_, ?_, ?_, ?_⟩
    · rw [ofText_append, reads, readsMore]
    · exact matchingRules_followedBy table more (linesAbove first) path
    · exact decidingRule?_followedBy table more (linesAbove first) path
    · exact owners_followedBy table more (linesAbove first) path
  · intro table
    exact ⟨selects_matchingRules table path, decidingRule?_eq_getLast? table path,
      fun _ => owners_of_decidingRule?, owners_of_no_decidingRule?⟩

/-- A rule without owners takes a path away from the rule of a text before it. -/
theorem lookups_of_joined_texts_disowned : ∃ joined,
    ofText ("*.js @js" ++ "\n" ++ "# copied\n/vendor/") = .ok joined ∧
    joined.owners "vendor/a.js" = [] ∧
    (joined.decidingRule? "vendor/a.js").map Rule.line = some 3 := by
  have readsFirst : (ofText "*.js @js").toOption.isSome = true := by decide +kernel
  have decides : ((ofText "# copied\n/vendor/").toOption.map fun table =>
      (table.decidingRule? "vendor/a.js").map fun rule => (rule.line, rule.owners)) =
        some (some (2, [])) := by decide +kernel
  have above : linesAbove "*.js @js" = 1 := by decide
  rcases lookups_of_joined_texts "*.js @js" "# copied\n/vendor/" "vendor/a.js" with
    ⟨_, _, joins, _⟩
  cases first : ofText "*.js @js" with
  | error error => simp [first, Except.toOption] at readsFirst
  | ok table =>
      cases second : ofText "# copied\n/vendor/" with
      | error error => simp [second, Except.toOption] at decides
      | ok more =>
          rcases joins table more first second with ⟨joined, reads, _, deciding, owners⟩
          simp only [second, Except.toOption, Option.map_some, Option.some.injEq,
            Option.map_eq_some_iff, Prod.mk.injEq] at decides
          rcases decides with ⟨rule, decides, line, disowned⟩
          rw [decides, above] at deciding
          rw [decides] at owners
          refine ⟨joined, reads, owners.trans disowned, ?_⟩
          simp [deciding, Rule.below, line]

end Joined

end RuleTable

end OwnerCoverage
