import Mathlib.Data.List.Forall2
import Mathlib.Data.List.ReduceOption
import Mathlib.Logic.Relation
import OwnerCoverage.CommandLine.Run

/-!
# What a run prints

A run first reads the format, the rules file and the exclusion patterns, and ends without output at
the first of these that is faulty. Then the reports on all roots are computed, in any order, and
printed in the order of the roots up to the first root that has none.
`run_reports_in_order` says so for every host and every list of arguments that can be read.
-/

namespace OwnerCoverage

theorem ReportFormat.ofName_eq_ok_iff {name : String} {format : ReportFormat} :
    ofName name = .ok format ↔ format.name = name := by
  unfold ofName
  constructor
  · intro read
    split at read
    · cases read
      rename_i isJson
      exact isJson.symm
    · split at read
      · cases read
        rename_i isText
        exact isText.symm
      · simp at read
  · rintro rfl
    cases format <;> rfl

theorem ReportFormat.ofName_eq_error_iff {name : String} {failure : Failure} :
    ofName name = .error failure ↔
      (∀ format : ReportFormat, format.name ≠ name) ∧ failure = .unsupportedFormat name := by
  unfold ofName
  constructor
  · intro unread
    split at unread
    · simp at unread
    · split at unread
      · simp at unread
      · rename_i notJson notText
        rw [Except.error.injEq] at unread
        refine ⟨?_, unread.symm⟩
        rintro (_ | _) equal
        · exact notJson equal.symm
        · exact notText equal.symm
  · rintro ⟨unknown, rfl⟩
    have notJson : name ≠ "json" := (unknown .json).symm
    have notText : name ≠ "text" := (unknown .text).symm
    rw [if_neg notJson, if_neg notText]

namespace CommandLine

section Preparing

variable {environment : Environment} {arguments : Arguments}

/-- The name of the format: an option comes before the variable, and that before the usual one. -/
def Environment.formatName (environment : Environment) (arguments : Arguments) : String :=
  (arguments.format.or environment.format).getD "json"

/-- Whether the rules file that an option names is loaded; `none` stands for no such option. -/
def Environment.Loads (environment : Environment) (arguments : Arguments) :
    Option RuleTable → Prop
  | none => arguments.rulesFile = none
  | some table => ∃ path, arguments.rulesFile = some path ∧ environment.tableAt path = .ok table

/-- Which patterns exclusion texts compile to, one by one. -/
def Compiled (texts : List String) (patterns : List Pattern) : Prop :=
  List.Forall₂ (fun text pattern => Pattern.compile text = .ok pattern) texts patterns

/-- Why a run prints nothing: the first fault among the format, the rules file and the exclusion
patterns, in this order. -/
inductive Environment.Refuses (environment : Environment) (arguments : Arguments) :
    Diagnosis → Prop
  | format (unknown : ∀ format : ReportFormat, format.name ≠ environment.formatName arguments) :
      Refuses environment arguments
        (.ofFailure (.unsupportedFormat (environment.formatName arguments)))
  | rulesFile {format : ReportFormat} {path : String} {failure : Failure}
      (known : format.name = environment.formatName arguments)
      (given : arguments.rulesFile = some path)
      (fails : environment.tableAt path = .error failure) :
      Refuses environment arguments (.inContext ("failed to load " ++ path) failure)
  | exclude {format : ReportFormat} {table : Option RuleTable} {before after : List String}
      {patterns : List Pattern} {text : String} {error : PatternError}
      (known : format.name = environment.formatName arguments)
      (loads : environment.Loads arguments table)
      (split : arguments.excludes = before ++ text :: after) (compiled : Compiled before patterns)
      (fails : Pattern.compile text = .error error) :
      Refuses environment arguments
        ⟨"invalid --exclude pattern `" ++ text ++ "`", [error.message, error.cause]⟩

/-- What a job holds that the reports on all roots are computed from. -/
structure Environment.Prepares (environment : Environment) (arguments : Arguments) (job : Job) :
    Prop where
  given : job.arguments = arguments
  settings : job.settings = arguments.settings
  format : job.format.name = environment.formatName arguments
  table : environment.Loads arguments job.table
  excludes : Compiled arguments.excludes job.excludes

theorem compileExcludes_eq_ok_iff {texts : List String} {patterns : List Pattern} :
    compileExcludes texts = .ok patterns ↔ Compiled texts patterns := by
  induction texts generalizing patterns with
  | nil => simp [compileExcludes, Compiled, eq_comm]
  | cons text rest ih =>
      rw [compileExcludes, Compiled, List.forall₂_cons_left_iff]
      cases compiled : Pattern.compile text with
      | error error => simp
      | ok pattern =>
          cases others : compileExcludes rest with
          | error diagnosis =>
              simp only [Except.map, reduceCtorEq, Except.ok.injEq, false_iff]
              rintro ⟨_, more, _, compiledRest, _⟩
              exact absurd (ih.2 compiledRest) (by simp [others])
          | ok more =>
              simp only [Except.map, Except.ok.injEq]
              constructor
              · rintro rfl
                exact ⟨pattern, more, rfl, ih.1 others, rfl⟩
              · rintro ⟨_, others', rfl, compiledRest, rfl⟩
                have same := ih.2 compiledRest
                rw [others, Except.ok.injEq] at same
                rw [same]

/-- The exclusion patterns fail at the first text that does not compile. -/
theorem compileExcludes_eq_error_iff {texts : List String} {diagnosis : Diagnosis} :
    compileExcludes texts = .error diagnosis ↔
      ∃ before text after patterns error, texts = before ++ text :: after ∧
        Compiled before patterns ∧ Pattern.compile text = .error error ∧
        diagnosis =
          ⟨"invalid --exclude pattern `" ++ text ++ "`", [error.message, error.cause]⟩ := by
  constructor
  · intro fails
    induction texts with
    | nil => simp [compileExcludes] at fails
    | cons text rest ih =>
        rw [compileExcludes] at fails
        cases compiled : Pattern.compile text with
        | error error =>
            simp only [compiled, Except.error.injEq] at fails
            exact ⟨[], text, rest, [], error, rfl, .nil, compiled, fails.symm⟩
        | ok pattern =>
            cases others : compileExcludes rest with
            | ok more => simp [compiled, others, Except.map] at fails
            | error failed =>
                simp only [compiled, others, Except.map, Except.error.injEq] at fails
                subst fails
                rcases ih others with
                  ⟨before, text', after, patterns, error, rfl, first, fault, equal⟩
                exact ⟨text :: before, text', after, pattern :: patterns, error, rfl,
                  .cons compiled first, fault, equal⟩
  · rintro ⟨before, text, after, patterns, error, rfl, first, fault, rfl⟩
    induction first with
    | nil => simp [compileExcludes, fault]
    | cons compiled _ ih => simp [compileExcludes, compiled, ih, Except.map]

theorem givenTable_eq_ok_iff {table : Option RuleTable} :
    environment.givenTable arguments = .ok table ↔ environment.Loads arguments table := by
  unfold Environment.givenTable
  cases given : arguments.rulesFile with
  | none => cases table <;> simp [Environment.Loads, given]
  | some path =>
      cases loaded : environment.tableAt path <;> cases table <;>
        simp [Environment.Loads, given, loaded]

theorem prepare_eq : environment.prepare arguments =
    match ReportFormat.ofName (environment.formatName arguments) with
    | .error failure => .error (.ofFailure failure)
    | .ok format =>
        match environment.givenTable arguments with
        | .error diagnosis => .error diagnosis
        | .ok table =>
            match compileExcludes arguments.excludes with
            | .error diagnosis => .error diagnosis
            | .ok excludes => .ok ⟨arguments, arguments.settings, format, table, excludes⟩ := rfl

theorem prepare_eq_error_iff {diagnosis : Diagnosis} :
    environment.prepare arguments = .error diagnosis ↔
      environment.Refuses arguments diagnosis := by
  constructor
  · intro failed
    rw [prepare_eq] at failed
    split at failed
    · rename_i failure unread
      cases failed
      rcases ReportFormat.ofName_eq_error_iff.1 unread with ⟨unknown, rfl⟩
      exact .format unknown
    · rename_i format read
      have known := ReportFormat.ofName_eq_ok_iff.1 read
      split at failed
      · rename_i fault unloaded
        cases failed
        unfold Environment.givenTable at unloaded
        split at unloaded
        · simp at unloaded
        · rename_i path given
          split at unloaded
          · rename_i failure fails
            cases unloaded
            exact .rulesFile known given fails
          · simp at unloaded
      · rename_i table loaded
        split at failed
        · rename_i fault uncompiled
          cases failed
          rcases compileExcludes_eq_error_iff.1 uncompiled with
            ⟨before, text, after, patterns, error, split, compiled, fails, rfl⟩
          exact .exclude known (givenTable_eq_ok_iff.1 loaded) split compiled fails
        · simp at failed
  · intro refused
    rw [prepare_eq]
    cases refused with
    | format unknown => simp only [ReportFormat.ofName_eq_error_iff.2 ⟨unknown, rfl⟩]
    | rulesFile known given fails =>
        simp only [ReportFormat.ofName_eq_ok_iff.2 known, Environment.givenTable, given, fails]
    | @exclude _ _ before after patterns text error known loads split compiled fails =>
        have uncompiled := compileExcludes_eq_error_iff.2
          ⟨before, text, after, patterns, error, split, compiled, fails, rfl⟩
        simp only [ReportFormat.ofName_eq_ok_iff.2 known, givenTable_eq_ok_iff.2 loads, uncompiled]

theorem prepare_eq_ok_iff {job : Job} :
    environment.prepare arguments = .ok job ↔ environment.Prepares arguments job := by
  constructor
  · intro prepared
    rw [prepare_eq] at prepared
    split at prepared
    · simp at prepared
    · rename_i format read
      split at prepared
      · simp at prepared
      · rename_i table loaded
        split at prepared
        · simp at prepared
        · rename_i excludes compiled
          cases prepared
          exact ⟨rfl, rfl, ReportFormat.ofName_eq_ok_iff.1 read, givenTable_eq_ok_iff.1 loaded,
            compileExcludes_eq_ok_iff.1 compiled⟩
  · rintro ⟨rfl, settings, known, loads, compiled⟩
    rw [prepare_eq]
    simp only [ReportFormat.ofName_eq_ok_iff.2 known, givenTable_eq_ok_iff.2 loads,
      compileExcludes_eq_ok_iff.2 compiled, ← settings]

end Preparing

section Printing

/-- The output for some reports: each is followed by a line feed. -/
def printed (format : ReportFormat) : List Report → String
  | [] => ""
  | report :: rest => report.write format ++ "\n" ++ printed format rest

variable {environment : Environment} {job : Job}

/-- Which reports there are on roots, one by one. -/
def Environment.Reported (environment : Environment) (job : Job) (roots : List String)
    (reports : List Report) : Prop :=
  List.Forall₂ (fun root report => environment.report job root = .ok report) roots reports

/-- What printing the outcomes of some roots behind some output leads to: all reports in the order
of the roots, or those of the roots before the first one without a report. -/
inductive Environment.Prints (environment : Environment) (job : Job) (roots : List String)
    (output : String) : Outcome → Prop
  | all {reports : List Report} (reported : environment.Reported job roots reports) :
      Prints environment job roots output ⟨0, output ++ printed job.format reports, ""⟩
  | before {earlier later : List String} {root : String} {reports : List Report} {failure : Failure}
      (split : roots = earlier ++ root :: later)
      (reported : environment.Reported job earlier reports)
      (fails : environment.report job root = .error failure) :
      Prints environment job roots output ⟨1, output ++ printed job.format reports,
        (Diagnosis.inContext ("failed to report on " ++ root) failure).text⟩

theorem Environment.Prints.cons {roots : List String} {root output : String} {report : Report}
    {outcome : Outcome} (first : environment.report job root = .ok report)
    (rest : environment.Prints job roots (output ++ report.write job.format ++ "\n") outcome) :
    environment.Prints job (root :: roots) output outcome := by
  have behind (reports : List Report) :
      output ++ report.write job.format ++ "\n" ++ printed job.format reports =
        output ++ printed job.format (report :: reports) := by
    simp only [printed, String.append_assoc]
  cases rest with
  | all reported =>
      rw [behind]
      exact .all (.cons first reported)
  | before split reported fails =>
      rw [behind]
      exact .before (by rw [split, List.cons_append]) (.cons first reported) fails

/-- Reports are printed in the order of the roots, up to the first root that has none. -/
theorem prints_printReports (environment : Environment) (job : Job) (roots : List String)
    (output : String) : environment.Prints job roots output
      (printReports job.format output
        (roots.map fun root => (root, environment.report job root))) := by
  induction roots generalizing output with
  | nil =>
      have none : environment.Prints job [] output
          ⟨0, output ++ printed job.format [], ""⟩ := .all .nil
      rwa [printed, String.append_empty] at none
  | cons root roots ih =>
      rw [List.map_cons]
      cases first : environment.report job root with
      | error failure =>
          have none : environment.Prints job (root :: roots) output
              ⟨1, output ++ printed job.format [],
                (Diagnosis.inContext ("failed to report on " ++ root) failure).text⟩ :=
            .before (List.nil_append _).symm .nil first
          rwa [printed, String.append_empty] at none
      | ok report => exact (ih _).cons first

end Printing

section Computing

/-- The outcomes that have been computed so far, in the order of the roots. -/
abbrev Board := List (Option (Except Failure Report))

variable {environment : Environment} {job : Job} {board next : Board}

/-- A worker computes the outcome of a root that has none yet. -/
inductive Environment.Computes (environment : Environment) (job : Job) (board : Board) :
    Board → Prop
  | report {index : Nat} {root : String} (named : job.arguments.rootPaths[index]? = some root)
      (missing : board[index]? = some none) :
      Computes environment job board (board.set index (some (environment.report job root)))

/-- What workers may have computed, in whatever order they took the roots. -/
def Environment.Reaches (environment : Environment) (job : Job) : Board → Prop :=
  Relation.ReflTransGen (environment.Computes job)
    (List.replicate job.arguments.rootPaths.length none)

/-- Whether all that has been computed is what the roots have for themselves. -/
structure Environment.Agrees (environment : Environment) (job : Job) (board : Board) : Prop where
  length : board.length = job.arguments.rootPaths.length
  outcome : ∀ (index : Nat) (root : String) (outcome : Except Failure Report),
    job.arguments.rootPaths[index]? = some root → board[index]? = some (some outcome) →
      outcome = environment.report job root

theorem Environment.Agrees.computes (agrees : environment.Agrees job board)
    (step : environment.Computes job board next) : environment.Agrees job next := by
  cases step with
  | @report index root named missing =>
      refine ⟨by rw [List.length_set, agrees.length], ?_⟩
      intro other otherRoot outcome otherNamed here
      rw [List.getElem?_set] at here
      split at here
      · rename_i same
        subst same
        rw [named, Option.some.injEq] at otherNamed
        subst otherNamed
        split at here
        · simpa [eq_comm] using here
        · simp at here
      · exact agrees.outcome other otherRoot outcome otherNamed here

theorem Environment.Reaches.agrees (reached : environment.Reaches job board) :
    environment.Agrees job board := by
  induction reached with
  | refl =>
      refine ⟨List.length_replicate, ?_⟩
      intro index root outcome _ here
      rw [List.getElem?_replicate] at here
      split at here <;> simp at here
  | tail _ step ih => exact ih.computes step

/-- Where nothing is left to compute, every root has its own outcome. -/
theorem Environment.Agrees.eq_of_complete (agrees : environment.Agrees job board)
    (complete : ∀ next, ¬environment.Computes job board next) :
    board = job.arguments.rootPaths.map fun root => some (environment.report job root) := by
  apply List.ext_getElem?
  intro index
  rw [List.getElem?_map]
  cases named : job.arguments.rootPaths[index]? with
  | none =>
      rw [List.getElem?_eq_none_iff] at named
      rw [Option.map_none, List.getElem?_eq_none_iff, agrees.length]
      exact named
  | some root =>
      have inside := (List.getElem?_eq_some_iff.1 named).1
      rw [← agrees.length] at inside
      rw [Option.map_some, List.getElem?_eq_getElem inside]
      have standsAt := List.getElem?_eq_getElem inside
      cases here : board[index] with
      | none =>
          rw [here] at standsAt
          exact (complete _ (.report named standsAt)).elim
      | some outcome =>
          rw [here] at standsAt
          rw [agrees.outcome index root outcome named standsAt]

/-- Computing goes on until every root has its outcome. -/
theorem Environment.exists_complete (environment : Environment) (job : Job) (board : Board) :
    ∃ last, Relation.ReflTransGen (environment.Computes job) board last ∧
      ∀ next, ¬environment.Computes job last next := by
  induction missing : board.countP Option.isNone generalizing board with
  | zero =>
      refine ⟨board, .refl, ?_⟩
      rintro _ ⟨_, here⟩
      rw [List.countP_eq_zero] at missing
      exact absurd rfl (missing none (List.mem_of_getElem? here))
  | succ count ih =>
      by_cases done : ∀ next, ¬environment.Computes job board next
      · exact ⟨board, .refl, done⟩
      · rw [not_forall] at done
        rcases done with ⟨next, step⟩
        rw [not_not] at step
        rcases id step with @⟨index, root, _, here⟩
        rcases List.getElem?_eq_some_iff.1 here with ⟨inside, unset⟩
        have fewer : (board.set index (some (environment.report job root))).countP Option.isNone =
            count := by
          rw [List.countP_set inside, missing, unset]
          simp
        rcases ih _ fewer with ⟨last, reached, complete⟩
        exact ⟨last, .head step reached, complete⟩

end Computing

section Runs

variable {environment : Environment} {arguments : Arguments}

/-- The roots take no part in what a job is prepared from. -/
theorem prepare_roots (environment : Environment) (arguments : Arguments) (roots : List String) :
    environment.prepare { arguments with roots := roots } =
      (environment.prepare arguments).map fun job =>
        { job with arguments := { job.arguments with roots := roots } } := by
  have sameTable : environment.givenTable { arguments with roots := roots } =
      environment.givenTable arguments := rfl
  rw [prepare_eq, prepare_eq, sameTable]
  change (match ReportFormat.ofName (environment.formatName arguments) with
    | .error failure => _ | .ok format => _) = _
  cases ReportFormat.ofName (environment.formatName arguments) with
  | error failure => rfl
  | ok format =>
      cases environment.givenTable arguments with
      | error diagnosis => rfl
      | ok table =>
          change (match compileExcludes arguments.excludes with
            | .error diagnosis => _ | .ok excludes => _) = _
          cases compileExcludes arguments.excludes <;> rfl

/-- The report on a root depends on the root and on the options, and not on the other roots. -/
theorem report_eq_of_prepares {job other : Job} {roots : List String}
    (prepares : environment.Prepares arguments job)
    (otherwise : environment.Prepares { arguments with roots := roots } other) :
    environment.report other = environment.report job := by
  have prepared := prepare_eq_ok_iff.2 otherwise
  rw [prepare_roots, prepare_eq_ok_iff.2 prepares, Except.map, Except.ok.injEq] at prepared
  rw [← prepared]
  rfl

theorem run_eq_of_prepares {texts : List String} {job : Job}
    (read : readArguments {} texts = .ok (.report arguments))
    (prepares : environment.Prepares arguments job) :
    environment.run texts = printReports job.format ""
      (arguments.rootPaths.map fun root => (root, environment.report job root)) := by
  rw [Environment.run, read]
  simp only [prepare_eq_ok_iff.2 prepares, Environment.reports, prepares.given]

/-- What a run on readable arguments does. A fault in the format, the rules file or an exclusion
pattern, in this order, ends it with nothing but the text of that fault. Otherwise it prints the
reports on its roots in their order, up to the first root without a report, whose failure it ends
with. This is so in whatever order the outcomes of the roots are computed, which always comes to an
end, and no report depends on which other roots there are. -/
theorem run_reports_in_order {texts : List String}
    (read : readArguments {} texts = .ok (.report arguments)) :
    (∀ diagnosis, environment.Refuses arguments diagnosis →
      environment.run texts = ⟨1, "", diagnosis.text⟩) ∧
    ((∀ diagnosis, ¬environment.Refuses arguments diagnosis) →
      ∃ job, environment.Prepares arguments job ∧
        environment.Prints job arguments.rootPaths "" (environment.run texts) ∧
        (∀ board, environment.Reaches job board →
          (∃ last, Relation.ReflTransGen (environment.Computes job) board last ∧
            ∀ next, ¬environment.Computes job last next) ∧
          ((∀ next, ¬environment.Computes job board next) →
            environment.run texts = printReports job.format ""
              (arguments.rootPaths.zip board.reduceOption))) ∧
        ∀ (roots : List String) (other : Job),
          environment.Prepares { arguments with roots := roots } other →
            environment.report other = environment.report job) := by
  constructor
  · intro diagnosis refused
    rw [Environment.run, read]
    simp only [prepare_eq_error_iff.2 refused]
  · intro accepted
    cases prepared : environment.prepare arguments with
    | error diagnosis => exact (accepted diagnosis (prepare_eq_error_iff.1 prepared)).elim
    | ok job =>
        have prepares := prepare_eq_ok_iff.1 prepared
        have printed := run_eq_of_prepares read prepares
        refine ⟨job, prepares, ?_, ?_, fun roots other => report_eq_of_prepares prepares⟩
        · rw [printed]
          exact prints_printReports environment job arguments.rootPaths ""
        · intro board reached
          refine ⟨environment.exists_complete job board, ?_⟩
          intro complete
          have outcomes :
              board.reduceOption = arguments.rootPaths.map (environment.report job) := by
            rw [reached.agrees.eq_of_complete complete, prepares.given, List.reduceOption,
              List.filterMap_map]
            exact congrFun List.filterMap_eq_map _
          rw [printed, outcomes, List.map_prod_left_eq_zip]

/-- A host with one directory, which holds a rules file. -/
def sampleEnvironment : Environment where
  tree := ⟨[([103], .directory [(Bytes.ofText "CODEOWNERS", .file (Bytes.ofText "* @a"))])]⟩
  working := []
  format := none

theorem run_reports_in_order_sample :
    sampleEnvironment.run ["-F", "csv", "g"] =
      ⟨1, "", "Error: unsupported report format: csv\n"⟩ ∧
    ∃ job, sampleEnvironment.Prepares { roots := ["g", "gone", "g"] } job ∧
      sampleEnvironment.Prints job ["g", "gone", "g"] ""
        (sampleEnvironment.run ["g", "gone", "g"]) := by
  constructor
  · have read : readArguments {} ["-F", "csv", "g"] =
        .ok (.report { roots := ["g"], format := some "csv" }) := by decide
    have unknown : ∀ format : ReportFormat, format.name ≠ "csv" := by
      rintro (_ | _) <;> decide
    exact (run_reports_in_order read).1 _ (.format unknown)
  · have read : readArguments {} ["g", "gone", "g"] =
        .ok (.report { roots := ["g", "gone", "g"] }) := by decide
    have prepared : sampleEnvironment.prepare { roots := ["g", "gone", "g"] } =
        .ok ⟨{ roots := ["g", "gone", "g"] }, {}, .json, none, []⟩ := rfl
    have accepted : ∀ diagnosis,
        ¬sampleEnvironment.Refuses { roots := ["g", "gone", "g"] } diagnosis := by
      intro diagnosis refused
      rw [← prepare_eq_error_iff, prepared] at refused
      simp at refused
    rcases (run_reports_in_order read).2 accepted with ⟨job, prepares, prints, _⟩
    exact ⟨job, prepares, prints⟩

end Runs

end CommandLine

end OwnerCoverage
