import OwnerCoverage.Path

/-!
# Settings

Where the rules file of a tree may stand, and which directories hold nothing that is owned.
-/

namespace OwnerCoverage

/-- What is looked for in a tree, and what is passed over. -/
structure Settings where
  /-- The name of the rules file. -/
  rulesFileName : String := "CODEOWNERS"
  /-- The directories that may hold the rules file. The first one that does decides. -/
  candidateDirectories : List String := [".", "docs", ".github"]
  /-- The names of directories that are passed over. -/
  skippedNames : List String := [".git"]
deriving DecidableEq, Repr

namespace Settings

/-- The paths where a rules file is looked for. What is found at them is not counted. -/
def rulesPaths (settings : Settings) : List String :=
  settings.candidateDirectories.map fun directory => Path.join directory settings.rulesFileName

/-- Whether a path is a place where the rules file may stand. Rules files are not owned, so none of
them is counted. -/
def isRulesPath (settings : Settings) (path : String) : Bool := settings.rulesPaths.contains path

end Settings

end OwnerCoverage
