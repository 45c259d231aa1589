import OwnerCoverage.CommandLine.Arguments
import OwnerCoverage.Host.View
import OwnerCoverage.Report

/-!
# Running the command line

A run reports on one root after another and ends at the first root that has no report. Before the
first report the format, the rules file given by an option and the exclusion patterns are read, in
this order, and the first of them that is faulty ends the run without any report.
-/

namespace OwnerCoverage

namespace CommandLine

/-- How a run ends. The errors are the diagnosis, or the usage; log lines, which are written to the
same stream by default, for example for an entry whose name is no text, are left out. -/
structure Outcome where
  code : Nat
  output : String
  errors : String
deriving DecidableEq, Repr

/-- Why a run failed: what could not be done, and the causes, each of which brought about the one
before it. -/
structure Diagnosis where
  message : String
  causes : List String
deriving DecidableEq, Repr

namespace Diagnosis

/-- A failure that needs no context. -/
def ofFailure (failure : Failure) : Diagnosis := ⟨failure.message, failure.causes⟩

/-- A failure, as the cause of what could not be done. -/
def inContext (context : String) (failure : Failure) : Diagnosis :=
  ⟨context, failure.message :: failure.causes⟩

/-- A text whose lines after the first are indented. -/
def indentLines (indent : List Char) (text : String) : String :=
  String.ofList (text.toList.flatMap fun char => if char = '\n' then '\n' :: indent else [char])

/-- Numbered causes, one below the other, with further lines under the first characters. -/
def numberedCauses (number : Nat) : List String → String
  | [] => ""
  | cause :: rest =>
      let label := toString number
      String.ofList (List.replicate (5 - label.length) ' ') ++ label ++ ": " ++
        indentLines (List.replicate 7 ' ') cause ++ "\n" ++ numberedCauses (number + 1) rest

/-- The text of a diagnosis. A single cause has no number. -/
def text (diagnosis : Diagnosis) : String :=
  "Error: " ++ diagnosis.message ++ "\n" ++
    match diagnosis.causes with
    | [] => ""
    | [cause] => "\nCaused by:\n    " ++ indentLines (List.replicate 4 ' ') cause ++ "\n"
    | causes => "\nCaused by:\n" ++ numberedCauses 0 causes

end Diagnosis

/-- What a run finds: the host, where on it the run works, and the variable that names a format. -/
structure Environment where
  tree : Host.Tree
  working : Host.Place
  /-- The name of the format if no option gives it. -/
  format : Option String

/-- What is settled before the first report. -/
structure Job where
  arguments : Arguments
  settings : Settings
  format : ReportFormat
  /-- The table of the rules file that an option names. -/
  table : Option RuleTable
  excludes : List Pattern

/-- The settings that the options ask for. Directories for the rules file replace the usual ones. -/
def Arguments.settings (arguments : Arguments) : Settings :=
  if arguments.rulesDirectories.isEmpty then {}
  else { candidateDirectories := arguments.rulesDirectories }

/-- The roots to report on, which is the working directory if none is given. -/
def Arguments.rootPaths (arguments : Arguments) : List String :=
  if arguments.roots.isEmpty then ["."] else arguments.roots

/-- The view of the working directory, in which paths of the command line are read. -/
def Environment.view (environment : Environment) (root : String) : Host.View :=
  ⟨environment.tree, environment.working, root⟩

/-- The table of the rules file at a path of the host. -/
def Environment.tableAt (environment : Environment) (path : String) : Except Failure RuleTable :=
  Failure.tableOfRead path
    ((environment.tree.read environment.working (Bytes.ofText path)).mapError
      Host.LookupFault.error)

/-- Compiles exclusion patterns, up to the first that is faulty. -/
def compileExcludes : List String → Except Diagnosis (List Pattern)
  | [] => .ok []
  | text :: rest =>
      match Pattern.compile text with
      | .error error =>
          .error ⟨"invalid --exclude pattern `" ++ text ++ "`", [error.message, error.cause]⟩
      | .ok pattern => (compileExcludes rest).map fun patterns => pattern :: patterns

/-- The rules file that an option names, if one does, as a table. -/
def Environment.givenTable (environment : Environment) (arguments : Arguments) :
    Except Diagnosis (Option RuleTable) :=
  match arguments.rulesFile with
  | none => .ok none
  | some path =>
      match environment.tableAt path with
      | .error failure => .error (.inContext ("failed to load " ++ path) failure)
      | .ok table => .ok (some table)

/-- Settles what all reports have in common. The format comes first, then the rules file that an
option names, then the exclusion patterns; the first of them that is faulty is diagnosed. -/
def Environment.prepare (environment : Environment) (arguments : Arguments) :
    Except Diagnosis Job :=
  match ReportFormat.ofName ((arguments.format.or environment.format).getD "json") with
  | .error failure => .error (.ofFailure failure)
  | .ok format =>
      match environment.givenTable arguments with
      | .error diagnosis => .error diagnosis
      | .ok table =>
          match compileExcludes arguments.excludes with
          | .error diagnosis => .error diagnosis
          | .ok excludes => .ok ⟨arguments, arguments.settings, format, table, excludes⟩

/-- Whether an exclusion pattern of a job matches a path. -/
def Job.excludes? (job : Job) (path : String) : Bool := job.excludes.any (·.accepts path)

/-- The report on one root. A given rules file inside the root is not counted. -/
def Environment.report (environment : Environment) (job : Job) (root : String) :
    Except Failure Report :=
  let view := environment.view root
  let remoteUrl := job.arguments.remoteUrl.getD ""
  let revision := job.arguments.revision.getD ""
  match job.table with
  | none => Report.generate view.fileSystem job.settings job.excludes? remoteUrl revision
  | some table =>
      let rulesPath := job.arguments.rulesFile.bind view.pathWithin?
      Report.ofTable view.fileSystem job.settings table
        (fun path => rulesPath == some path || job.excludes? path) remoteUrl revision

/-- The outcomes of all roots, each of which depends on nothing but its own root. -/
def Environment.reports (environment : Environment) (job : Job) :
    List (String × Except Failure Report) :=
  job.arguments.rootPaths.map fun root => (root, environment.report job root)

/-- Prints reports in order, after some output, up to the first root that has none. -/
def printReports (format : ReportFormat) (output : String) :
    List (String × Except Failure Report) → Outcome
  | [] => ⟨0, output, ""⟩
  | (root, .error failure) :: _ =>
      ⟨1, output, (Diagnosis.inContext ("failed to report on " ++ root) failure).text⟩
  | (_, .ok report) :: rest => printReports format (output ++ report.write format ++ "\n") rest

def versionText : String := "codeowners-coverage-cli 0.1.0\n"

def usageText : String :=
  "Usage: [-f FILE] [-F FORMAT] [--rules-dir DIR]... [--exclude PATTERN]... " ++
    "[--remote-url URL] [--sha SHA] [PATH]...\n"

/-- A whole run, from the arguments to what is printed. -/
def Environment.run (environment : Environment) (arguments : List String) : Outcome :=
  match readArguments {} arguments with
  | .error _ => ⟨2, "", usageText⟩
  | .ok .version => ⟨0, versionText, ""⟩
  | .ok .help => ⟨0, usageText, ""⟩
  | .ok (.report arguments) =>
      match environment.prepare arguments with
      | .error diagnosis => ⟨1, "", diagnosis.text⟩
      | .ok job => printReports job.format "" (environment.reports job)

end CommandLine

end OwnerCoverage
