import OwnerCoverage.Rules.Table
import OwnerCoverage.Traversal

/-!
# Failures

Why no report can be made. A failure is described by a text, and explained by the texts of its
causes, each of which brought about the one before it.
-/

namespace OwnerCoverage

/-- Why there is no report. -/
inductive Failure where
  /-- A line of the rules file is no rule. -/
  | rule (error : RuleError)
  /-- No candidate directory holds the rules file. -/
  | noRulesFile (name : String) (candidates : List String)
  /-- The tree could not be traversed. -/
  | traversal (error : TraversalError)
  /-- The file system failed on a path. -/
  | io (path : String) (error : IoError)
  /-- No format has this name. -/
  | unsupportedFormat (name : String)
deriving DecidableEq, Repr

namespace Failure

/-- What a failure says first. -/
def message : Failure → String
  | .rule error => error.message
  | .noRulesFile name candidates =>
      "no " ++ name ++ " found in any of: " ++ ", ".intercalate candidates
  | .traversal error => error.message
  | .io path error => path ++ ": " ++ error.message
  | .unsupportedFormat name => "unsupported report format: " ++ name

/-- The descriptions of the causes behind the failure. -/
def causes : Failure → List String
  | .rule error => [error.error.cause]
  | .noRulesFile _ _ => []
  | .traversal error => (error.cause?.map IoError.message).toList
  | .io _ error => [error.message]
  | .unsupportedFormat _ => []

end Failure

end OwnerCoverage
