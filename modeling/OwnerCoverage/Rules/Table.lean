import OwnerCoverage.Pattern

/-!
# Tables of rules

The rules of a file in file order. The last rule whose pattern matches a path decides who owns it,
also when it names nobody. Lines without a rule are counted, so that the number of a rule is that of
its line. A table can be built from the lines of a file or rule by rule.
-/

namespace OwnerCoverage

/-- A rule: a line of a rules file with a pattern and the owners of what it matches, if there are
any. -/
structure Rule where
  /-- The number of the line, counted from one. -/
  line : Nat
  pattern : Pattern
  owners : List String

namespace Rule

/-- A rule as one line of text. -/
def describe (rule : Rule) : String :=
  "line " ++ toString rule.line ++ ": " ++ rule.pattern.source ++ "\t" ++
    ", ".intercalate rule.owners

end Rule

/-- A line of a rules file whose pattern cannot be compiled. -/
structure RuleError where
  /-- The number of the line, counted from one. -/
  line : Nat
  error : PatternError
deriving DecidableEq, Repr

namespace RuleError

/-- What is said of a line that is no rule. -/
def message (error : RuleError) : String :=
  "line " ++ toString error.line ++ ": " ++ error.error.message

end RuleError

/-- The rules of a file, in the order of their lines. -/
structure RuleTable where
  rules : List Rule

namespace RuleTable

def empty : RuleTable := ⟨[]⟩

/-- Adds a rule after all others. -/
def push (table : RuleTable) (rule : Rule) : RuleTable := ⟨table.rules ++ [rule]⟩

/-- The table of some rules, pushed one after the other. -/
def ofRules (rules : List Rule) : RuleTable := rules.foldl push empty

/-- The rule on a line, if the line holds one. -/
def ruleOfLine (number : Nat) (line : String) : Except RuleError (Option Rule) :=
  match RulesLine.split? line with
  | none => .ok none
  | some fields =>
      match Pattern.compile fields.pattern with
      | .error error => .error ⟨number, error⟩
      | .ok pattern => .ok (some ⟨number, pattern, fields.owners⟩)

/-- The rules on lines of which the first has a given number; the first faulty line decides the
error. -/
def rulesFrom (number : Nat) : List String → Except RuleError (List Rule)
  | [] => .ok []
  | line :: rest =>
      match ruleOfLine number line with
      | .error error => .error error
      | .ok rule =>
          match rulesFrom (number + 1) rest with
          | .error error => .error error
          | .ok rules => .ok (rule.toList ++ rules)

/-- The table of some lines, which are numbered from one, or the fault of the first line that has
one. -/
def ofLines (lines : List String) : Except RuleError RuleTable :=
  (rulesFrom 1 lines).map RuleTable.mk

/-- The table of the text of a rules file. -/
def ofText (text : String) : Except RuleError RuleTable := ofLines (Text.lines text)

/-- All rules whose pattern matches a path, in order. -/
def matchingRules (table : RuleTable) (path : String) : List Rule :=
  table.rules.filter (·.pattern.accepts path)

/-- The rule that decides who owns a path: the last one that matches it. -/
def decidingRule? (table : RuleTable) (path : String) : Option Rule :=
  table.rules.reverse.find? (·.pattern.accepts path)

/-- The owners that the deciding rule names. Without a rule, or where that rule names none, there
are no owners. -/
def owners (table : RuleTable) (path : String) : List String :=
  match table.decidingRule? path with
  | none => []
  | some rule => rule.owners

@[simp]
theorem rules_push (table : RuleTable) (rule : Rule) :
    (table.push rule).rules = table.rules ++ [rule] := rfl

theorem rules_foldl_push (rules : List Rule) (table : RuleTable) :
    (rules.foldl push table).rules = table.rules ++ rules := by
  induction rules generalizing table with
  | nil => simp
  | cons rule rest ih => simp [ih]

@[simp]
theorem rules_ofRules (rules : List Rule) : (ofRules rules).rules = rules := by
  simp [ofRules, rules_foldl_push, empty]

end RuleTable

end OwnerCoverage
