import OwnerCoverage.Text.Lines

/-!
# Paths

A path is a text of names that slashes separate, relative to the root of a tree. The root is named
`.`. Several spellings name the same place: empty names and the name `.` change nothing.
-/

namespace OwnerCoverage

namespace Path

/-- The path of the root of a tree. -/
def root : String := "."

/-- The name below a base. Below the root a name stands alone; elsewhere one slash joins the two. -/
def join (base name : String) : String :=
  if base = "" ∨ base = root then name
  else String.ofList (Text.dropEndWhile (· == '/') base.toList) ++ "/" ++ name

/-- Whether a piece between slashes is a name: it is neither empty nor `.`. -/
def isName (piece : List Char) : Bool := !piece.isEmpty && piece != ['.']

/-- The names on a path, in order, whatever slashes and names `.` stand between them. -/
def names (path : String) : List String :=
  ((path.toList.splitOnP (· == '/')).filter isName).map String.ofList

/-- The last name of a path, or the name of the root. -/
def baseName (path : String) : String := (names path).getLast?.getD root

/-- Names joined by single slashes. -/
def ofNames : List String → String
  | [] => root
  | names => "/".intercalate names

/-- The spelling of a path without empty names and names `.`. -/
def canonical (path : String) : String := ofNames (names path)

end Path

end OwnerCoverage
