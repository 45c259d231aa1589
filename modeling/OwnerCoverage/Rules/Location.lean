import OwnerCoverage.Failure
import OwnerCoverage.Settings

/-!
# Finding the rules file

The candidate directories are tried in order. A candidate that is missing, or is no directory, or
whose rules file is missing or is a directory, is passed over. Any other failure ends the search.
-/

namespace OwnerCoverage

/-- The table in the text that was read at a path. -/
def Failure.tableOfRead (path : String) : Except IoError String → Except Failure RuleTable
  | .error error => .error (.io path error)
  | .ok text =>
      match RuleTable.ofText text with
      | .error error => .error (.rule error)
      | .ok table => .ok table

namespace FileSystem

/-- Whether something stands at a path that is a directory, or is none, as wanted. -/
def holds (fileSystem : FileSystem) (path : String) (directory : Bool) : Except IoError Bool :=
  match fileSystem.stat path with
  | .ok entry => .ok (entry.isDirectory == directory)
  | .error error => if error.kind = .notFound then .ok false else .error error

/-- The rules file in a candidate directory, if it stands there. -/
def rulesFileIn (fileSystem : FileSystem) (name directory : String) :
    Except Failure (Option String) :=
  match fileSystem.holds directory true with
  | .error error => .error (.io directory error)
  | .ok false => .ok none
  | .ok true =>
      let path := fileSystem.join directory name
      match fileSystem.holds path false with
      | .error error => .error (.io path error)
      | .ok false => .ok none
      | .ok true => .ok (some path)

/-- The first rules file in some candidate directories. -/
def firstRulesFile (fileSystem : FileSystem) (name : String) :
    List String → Except Failure (Option String)
  | [] => .ok none
  | directory :: rest =>
      match fileSystem.rulesFileIn name directory with
      | .error failure => .error failure
      | .ok (some path) => .ok (some path)
      | .ok none => fileSystem.firstRulesFile name rest

/-- The path of the first rules file in the candidate directories, or the failure to find one. -/
def rulesFile (fileSystem : FileSystem) (settings : Settings) : Except Failure String :=
  match fileSystem.firstRulesFile settings.rulesFileName settings.candidateDirectories with
  | .error failure => .error failure
  | .ok (some path) => .ok path
  | .ok none => .error (.noRulesFile settings.rulesFileName settings.candidateDirectories)

/-- The table in the file at a path. -/
def tableAt (fileSystem : FileSystem) (path : String) : Except Failure RuleTable :=
  Failure.tableOfRead path (fileSystem.read path)

/-- The path of the rules file, and the table in it. -/
def loadTable (fileSystem : FileSystem) (settings : Settings) :
    Except Failure (String × RuleTable) :=
  match fileSystem.rulesFile settings with
  | .error failure => .error failure
  | .ok path => (fileSystem.tableAt path).map fun table => (path, table)

end FileSystem

end OwnerCoverage
