import OwnerCoverage.Text.Blank
import OwnerCoverage.Text.Lines

/-!
# Lines of a rules file

A line of a rules file names a pattern and the owners of what it matches. The pattern is the first
field and keeps its backslashes, so that a later stage can tell an escaped character from a
wildcard; only a blank without a backslash before it ends the pattern. The owners are the remaining
fields. A line that is blank, or whose first field starts with `#`, holds no rule.
-/

namespace OwnerCoverage

/-- The fields of a line of a rules file. -/
structure RulesLine where
  /-- The first field, backslashes included. -/
  pattern : String
  /-- The fields after the first, in order. -/
  owners : List String
deriving DecidableEq, Repr

namespace RulesLine

/-- Whether a character belongs to the end of a line. -/
def isLineEnd (char : Char) : Bool := char == '\r' || char == '\n'

/-- Cuts a text before its first blank that is not escaped. The flag tells whether the next
character is escaped by a backslash before it. -/
def splitPattern : Bool → List Char → List Char × List Char
  | _, [] => ([], [])
  | escaped, char :: rest =>
      if Text.isBlank char && !escaped then ([], char :: rest)
      else
        let (pattern, after) := splitPattern (char == '\\' && !escaped) rest
        (char :: pattern, after)

/-- The maximal runs of characters that are not blank. -/
def words (text : List Char) : List (List Char) :=
  (text.splitOnP Text.isBlank).filter (!·.isEmpty)

/-- The fields of a line, unless it is blank or a comment. -/
def split? (line : String) : Option RulesLine :=
  match (Text.dropEndWhile isLineEnd line.toList).dropWhile Text.isBlank with
  | [] => none
  | '#' :: _ => none
  | body =>
      let (pattern, after) := splitPattern false body
      some ⟨String.ofList pattern, (words after).map String.ofList⟩

/-- Cutting a text loses nothing. -/
theorem splitPattern_append (escaped : Bool) (text : List Char) :
    (splitPattern escaped text).1 ++ (splitPattern escaped text).2 = text := by
  induction text generalizing escaped with
  | nil => rfl
  | cons char rest ih =>
      by_cases stop : Text.isBlank char && !escaped
      · simp [splitPattern, stop]
      · simp [splitPattern, stop, ih]

end RulesLine

end OwnerCoverage
