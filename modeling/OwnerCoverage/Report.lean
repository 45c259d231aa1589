import OwnerCoverage.Coverage.Count
import OwnerCoverage.Rules.Location

/-!
# Reports

A report tells how much of one revision of a tree is covered. It is written as a record on one line,
or as plain text with one field a line.
-/

namespace OwnerCoverage

/-- How a report is printed. -/
inductive ReportFormat where
  | json
  | text
deriving DecidableEq, Repr

namespace ReportFormat

def name : ReportFormat → String
  | .json => "json"
  | .text => "text"

/-- The format with a given name. -/
def ofName (name : String) : Except Failure ReportFormat :=
  if name = "json" then .ok .json
  else if name = "text" then .ok .text
  else .error (.unsupportedFormat name)

end ReportFormat

/-- The counts of one tree, with the texts that name the tree for whoever reads the report. -/
structure Report where
  remoteUrl : String
  revision : String
  covered : Nat
  total : Nat
  ratio : Binary64
deriving DecidableEq, Repr

namespace Report

/-- The report on a tree with these counts. -/
def ofSummary (remoteUrl revision : String) (summary : CoverageSummary) : Report :=
  ⟨remoteUrl, revision, summary.covered, summary.total, summary.ratio⟩

/-- A report as one line of JSON. -/
def record (report : Report) : String :=
  Text.record [("remote_url", Text.quoted report.remoteUrl), ("sha", Text.quoted report.revision),
    ("covered_files_count", toString report.covered),
    ("total_files_count", toString report.total),
    ("coverage_ratio", NumberFormat.record.write report.ratio)]

/-- A report as lines of names and values. No line feed stands at its end. -/
def plainText (report : Report) : String :=
  "\n".intercalate ["remote_url: " ++ report.remoteUrl, "sha: " ++ report.revision,
    "covered_files_count: " ++ toString report.covered,
    "total_files_count: " ++ toString report.total,
    "coverage_ratio: " ++ NumberFormat.plain.write report.ratio]

/-- A report in a format. -/
def write (report : Report) : ReportFormat → String
  | .json => report.record
  | .text => report.plainText

/-- The report on a file system whose table is known. Rules files and excluded paths do not
count. -/
def ofTable (fileSystem : FileSystem) (settings : Settings) (table : RuleTable)
    (excluded : String → Bool) (remoteUrl revision : String) : Except Failure Report :=
  let traversal : Traversal :=
    { fileSystem := fileSystem, skippedNames := settings.skippedNames }
  match traversal.coverage table fun path => settings.isRulesPath path || excluded path with
  | .error error => .error (.traversal error)
  | .ok summary => .ok (ofSummary remoteUrl revision summary)

/-- The report on a file system, by the rules file that is found in it. -/
def generate (fileSystem : FileSystem) (settings : Settings) (excluded : String → Bool)
    (remoteUrl revision : String) : Except Failure Report :=
  match fileSystem.loadTable settings with
  | .error failure => .error failure
  | .ok (_, table) => ofTable fileSystem settings table excluded remoteUrl revision

end Report

end OwnerCoverage
