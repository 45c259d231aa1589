import OwnerCoverage.Proofs.CommandLine.GivenFile

/-!
# The discovered rules file as the given one

The rules file of a directory is found in one of its candidate directories, or it is named by an
option. Where no link stands in the directory and the candidates are written plainly, both come to
the same: the path of the directory with the path of the rules file below it leads to the file that
was found, and is told to be the path that is left out anyway. So naming the file changes no report
(`report_eq_of_found_file_given`).
-/

namespace OwnerCoverage

namespace Path

variable {path name : String}

theorem IsPlain.join_eq (plain : IsPlain path) (name : String) :
    join path name = ofNames (names path ++ [name]) := by
  rw [← join_ofNames fun _ => isListed_of_mem_names]
  exact congrArg (join · name) plain.canonical.symm

theorem IsPlain.names_join_name (plain : IsPlain path) (listed : IsListed name) :
    names (join path name) = names path ++ [name] := by
  rw [plain.join_eq, names_ofNames]
  rw [List.forall_mem_append]
  exact ⟨fun _ => isListed_of_mem_names, List.forall_mem_singleton.2 listed⟩

/-- A plain path stays plain where a name is joined to it. -/
theorem IsPlain.join (plain : IsPlain path) (listed : IsListed name) (noUpward : name ≠ "..") :
    IsPlain (join path name) := by
  have names_eq := plain.names_join_name listed
  constructor
  · rw [Path.canonical, names_eq, plain.join_eq]
  · rw [names_eq, List.mem_append, List.mem_singleton]
    rintro (upward | upward)
    · exact plain.noUpward upward
    · exact noUpward upward.symm

end Path

namespace Host

/-- A second slash between two parts of a path changes none of its names. -/
theorem pathNames_second_slash (before rest : Bytes) :
    pathNames (before ++ [slash] ++ slash :: rest) = pathNames (before ++ slash :: rest) := by
  have inner : innerNames (before ++ [slash] ++ slash :: rest) =
      innerNames (before ++ slash :: rest) := by
    rw [innerNames_append_slash, innerNames_append_slash, innerNames_append_slash]
    simp [innerNames]
  change innerNames _ ++ _ = innerNames _ ++ _
  rw [inner, List.getLast?_append_of_ne_nil _ (List.cons_ne_nil slash rest),
    List.getLast?_append_of_ne_nil _ (List.cons_ne_nil slash rest)]

namespace View

variable {view : View} {children : List (FileName × Node)} {trail last : Trail} {fewer : Nat}
  {follows : Bool} {path file : String}

/-- Whether a path of the host is spelled as the path of a root and a path below it. A slash that
ends the root may stand between the two alone. -/
def Spells (root path file : String) : Prop :=
  file = below root path ∨
    file = root ++ "/" ++ path ∧ (Bytes.ofText file).length ≤ longestPath

theorem hostPath_of_canonical (nonempty : view.root ≠ "") (someName : Path.names path ≠ [])
    (canonical : Path.canonical path = path) : view.hostPath path = below view.root path := by
  rw [hostPath_eq, foldl_below_eq nonempty someName fun _ => Path.isListed_of_mem_names]
  exact congrArg (below view.root) canonical

/-- However the path of the host is spelled, it leads where the view is led for the path below. -/
theorem resolve_of_spells (nonempty : view.root ≠ "") (someName : Path.names path ≠ [])
    (canonical : Path.canonical path = path) (spells : Spells view.root path file)
    (resolved : view.tree.resolve follows view.working (Bytes.ofText (view.hostPath path)) =
      .ok last) :
    view.tree.resolve follows view.working (Bytes.ofText file) = .ok last := by
  rw [hostPath_of_canonical nonempty someName canonical] at resolved
  rcases spells with rfl | ⟨rfl, short⟩
  · exact resolved
  · have slashBytes : Bytes.ofText "/" = [slash] := by decide
    have bytes : Bytes.ofText (view.root ++ "/" ++ path) =
        Bytes.ofText view.root ++ slash :: Bytes.ofText path := by
      rw [Bytes.ofText_append, Bytes.ofText_append, slashBytes, List.append_assoc]
      rfl
    rcases exists_ofText_below nonempty path with ⟨before, below_eq, base_eq | base_eq⟩
    · rwa [bytes, base_eq, ← below_eq]
    · rw [below_eq] at resolved
      rw [bytes, base_eq] at short ⊢
      have noZero := (Tree.exists_of_resolve resolved).2.1
      apply Tree.resolve_of_pathNames resolved (by simp) (by simpa using noZero) short
      · cases before <;> rfl
      · exact pathNames_second_slash before (Bytes.ofText path)

/-- In a directory without links, a path that leads anywhere leads to the place that its names make
up. -/
theorem Leads.place_of_resolve (leads : view.Leads children trail fewer)
    (noLink : ∀ names, (Node.directory children).chart names ≠ some .symlink)
    (someName : Path.names path ≠ []) (noUpward : ".." ∉ Path.names path)
    (resolved : view.tree.resolve follows view.working (Bytes.ofText (view.hostPath path)) =
      .ok last) :
    last.place = ((Path.names path).map Bytes.ofText).reverse ++ trail.place := by
  have here_eq : Bytes.ofText "." = here := by decide
  have above_eq : Bytes.ofText ".." = above := by decide
  rw [leads.below someName] at resolved
  split at resolved
  · simp at resolved
  · apply Tree.place_of_locate _ _ resolved
    · rw [List.forall_mem_map]
      intro name mem
      rw [← here_eq, ← above_eq]
      constructor
      · intro isHere
        have isName := (Path.isListed_of_mem_names mem).isName
        rw [Bytes.ofText_injective isHere] at isName
        exact absurd isName (by decide)
      · intro isAbove
        exact noUpward (Bytes.ofText_injective isAbove ▸ mem)
    · intro before rest split target atLink
      rcases List.map_eq_append_iff.1 split with ⟨names, _, _, rfl, _⟩
      rw [leads.directory] at atLink
      apply noLink names
      rw [Node.chart, atLink]
      rfl

/-- In a real directory without links, a path of the host that spells a path below leads to the same
text, and is told to be that path. -/
theorem reads_of_spells
    (root : view.tree.stat view.working (Bytes.ofText view.root) = .ok (.directory children))
    (noLink : ∀ names, (Node.directory children).chart names ≠ some .symlink)
    (someName : Path.names path ≠ []) (plain : Path.IsPlain path)
    (spells : Spells view.root path file) {text : String} (read : view.read path = .ok text) :
    view.pathWithin? file = some path ∧
      view.tree.read view.working (Bytes.ofText file) = .ok text := by
  rcases exists_resolve_of_stat root with ⟨trail, atTrail, rootResolved⟩
  rcases exists_leads (rootResolved true) atTrail with ⟨fewer, leads⟩
  have nonempty := root_ne_empty_of_resolve leads.root
  rcases resolved : view.tree.resolve true view.working (Bytes.ofText (view.hostPath path)) with
    fault | last
  · simp [View.read, Tree.read, resolved] at read
  · have target := resolve_of_spells nonempty someName plain.canonical spells resolved
    constructor
    · apply (pathWithin?_eq_some_iff leads.root target).2
      refine ⟨Path.names path, ?_, ?_⟩
      · exact leads.place_of_resolve noLink someName plain.noUpward resolved
      · exact (Path.ofNames_of_ne_nil someName).symm.trans plain.canonical
    · have same : view.tree.read view.working (Bytes.ofText file) =
          view.tree.read view.working (Bytes.ofText (view.hostPath path)) := by
        rw [Tree.read, Tree.read, resolved, target]
      rw [View.read, ← same] at read
      cases answer : view.tree.read view.working (Bytes.ofText file) with
      | error fault => simp [answer] at read
      | ok other =>
          simp only [answer, Except.ok.injEq] at read
          rw [read]

end View

end Host

namespace Report

/-- A place where the rules file may stand is left out anyway. -/
theorem ofTable_of_isRulesPath {settings : Settings} {path : String}
    (isRulesPath : settings.isRulesPath path = true) (fileSystem : FileSystem) (table : RuleTable)
    (excluded : String → Bool) (remoteUrl revision : String) :
    ofTable fileSystem settings table (fun other => some path == some other || excluded other)
        remoteUrl revision =
      ofTable fileSystem settings table excluded remoteUrl revision := by
  have same : (fun other => settings.isRulesPath other ||
        (some path == some other || excluded other)) =
      fun other => settings.isRulesPath other || excluded other := by
    funext other
    by_cases found : some path = some other
    · cases found
      simp [isRulesPath]
    · have differs : (some path == some other) = false := by simpa using found
      rw [differs, Bool.false_or]
  simp only [ofTable, same]

end Report

namespace CommandLine

variable {environment : Environment} {arguments : Arguments} {job : Job} {table : RuleTable}
  {root located file : String} {children : List (Host.FileName × Host.Node)} {report : Report}

theorem rulesFileName_settings (arguments : Arguments) :
    arguments.settings.rulesFileName = "CODEOWNERS" := by
  rw [Arguments.settings]
  split <;> rfl

/-- Where the candidates are written plainly, so is the path of the rules file that is found, and it
is left out of reports. -/
theorem isPlain_of_rulesFile {fileSystem : FileSystem} (join : fileSystem.join = Path.join)
    (plain : ∀ directory ∈ arguments.settings.candidateDirectories, Path.IsPlain directory)
    (found : fileSystem.rulesFile arguments.settings = .ok located) :
    Path.IsPlain located ∧ Path.names located ≠ [] ∧
      arguments.settings.isRulesPath located = true := by
  have listed : Path.IsListed "CODEOWNERS" := ⟨by decide, by decide⟩
  rcases FileSystem.exists_of_rulesFile found with ⟨directory, mem, located_eq, _⟩
  rw [join] at located_eq
  have isRulesPath := Report.isRulesPath_iff.2 ⟨directory, mem, located_eq⟩
  rw [rulesFileName_settings] at located_eq
  subst located_eq
  refine ⟨(plain directory mem).join listed (by decide), ?_, isRulesPath⟩
  rw [(plain directory mem).names_join_name listed]
  simp

/-- A job that is prepared without a given rules file reports by the one that it finds. -/
theorem table_eq_none_of_prepares (prepares : environment.Prepares arguments job)
    (discovers : arguments.rulesFile = none) : job.table = none := by
  have loads := prepares.table
  cases held : job.table with
  | none => rfl
  | some table =>
      rw [held] at loads
      rcases loads with ⟨path, given, _⟩
      rw [discovers] at given
      exact absurd given (by simp)

/-- Naming the rules file that is found in a real directory without links changes no report on it,
however its path is put behind that of the directory, as long as the candidates are plain paths. -/
theorem report_eq_of_found_file_given (discovers : arguments.rulesFile = none)
    (plain : ∀ directory ∈ arguments.settings.candidateDirectories, Path.IsPlain directory)
    (atRoot : environment.tree.stat environment.working (Bytes.ofText root) =
      .ok (.directory children))
    (noLink : ∀ names, (Host.Node.directory children).chart names ≠ some .symlink)
    (found : (environment.view root).fileSystem.rulesFile arguments.settings = .ok located)
    (spells : Host.View.Spells root located file)
    (prepared : environment.prepare arguments = .ok job)
    (reported : environment.report job root = .ok report) :
    (∃ given, environment.prepare { arguments with rulesFile := some file } = .ok given ∧
      given.format = job.format ∧ environment.report given root = .ok report) ∧
    ∀ texts others, readArguments {} texts = .ok (.report arguments) →
      readArguments {} others = .ok (.report { arguments with rulesFile := some file }) →
      arguments.rootPaths = [root] →
      environment.run texts = ⟨0, report.write job.format ++ "\n", ""⟩ ∧
        environment.run others = environment.run texts := by
  have prepares := prepare_eq_ok_iff.1 prepared
  rcases isPlain_of_rulesFile rfl plain found with ⟨plainLocated, someName, isRulesPath⟩
  have generated : Report.generate (environment.view root).fileSystem arguments.settings
      job.excludes? (arguments.remoteUrl.getD "") (arguments.revision.getD "") = .ok report := by
    simpa only [Environment.report, table_eq_none_of_prepares prepares discovers, prepares.given,
      prepares.settings] using reported
  rcases Report.exists_of_generate generated with ⟨path, table, loaded, reportedTable⟩
  rcases FileSystem.loadTable_eq_ok_iff.1 loaded with ⟨foundPath, tableAt⟩
  have path_eq := Except.ok.inj (foundPath.symm.trans found)
  subst path_eq
  rcases Failure.tableOfRead_eq_ok_iff.1 tableAt with ⟨text, read, parsed⟩
  have sameFile : (environment.view root).pathWithin? file = some path ∧
      environment.tree.read environment.working (Bytes.ofText file) = .ok text :=
    Host.View.reads_of_spells atRoot noLink someName plainLocated spells read
  rcases sameFile with ⟨told, readFile⟩
  have tableGiven : environment.tableAt file = .ok table := by
    apply Failure.tableOfRead_eq_ok_iff.2
    exact ⟨text, by rw [readFile, Except.mapError], parsed⟩
  have preparesGiven : environment.Prepares { arguments with rulesFile := some file }
      { job with arguments := { arguments with rulesFile := some file }, table := some table } :=
    ⟨rfl, prepares.settings, prepares.format, ⟨file, rfl, tableGiven⟩, prepares.excludes⟩
  have reportedGiven : environment.report { job with
      arguments := { arguments with rulesFile := some file }, table := some table } root =
        .ok report := by
    rw [← reportedTable, ← Report.ofTable_of_isRulesPath isRulesPath, ← prepares.settings, ← told]
    rfl
  refine ⟨⟨_, prepare_eq_ok_iff.2 preparesGiven, rfl, reportedGiven⟩, ?_⟩
  intro texts others readTexts readOthers onlyRoot
  have onlyRootGiven : { arguments with rulesFile := some file }.rootPaths = [root] := onlyRoot
  rw [run_eq_of_prepares readTexts prepares, run_eq_of_prepares readOthers preparesGiven, onlyRoot,
    onlyRootGiven]
  simp only [List.map_cons, List.map_nil, reported, reportedGiven, printReports]
  simp

/-- A directory with a rules file in two of the default candidates. -/
def candidateChildren : List (Host.FileName × Host.Node) :=
  [(Bytes.ofText ".github", .directory [(Bytes.ofText "CODEOWNERS", .file (Bytes.ofText "* @b"))]),
    (Bytes.ofText "docs", .directory [(Bytes.ofText "CODEOWNERS", .file (Bytes.ofText "/x @a"))]),
    (Bytes.ofText "x", .file []), (Bytes.ofText "y", .file [])]

def candidateEnvironment : Environment :=
  ⟨⟨[(Bytes.ofText "g", .directory candidateChildren)]⟩, [], none⟩

/-- One root, and no rules file given. -/
def candidateArguments : Arguments := { roots := ["g/"] }

def candidateJob : Job := ⟨candidateArguments, candidateArguments.settings, .json, none, []⟩

theorem sound_candidateEnvironment : candidateEnvironment.tree.Sound := by
  have soundFile (contents : Bytes) : ∀ child ∈ [(Bytes.ofText "CODEOWNERS",
      Host.Node.file contents)], child.2.Sound := List.forall_mem_singleton.2 (.file contents)
  have sound : (Host.Node.directory candidateChildren).Sound := by
    refine .directory (by decide) (by decide) ?_
    simp only [candidateChildren, List.forall_mem_cons]
    exact ⟨.directory (by decide) (by decide) (soundFile _),
      .directory (by decide) (by decide) (soundFile _), .file _, .file _, by simp⟩
  exact .directory (by decide) (by decide) (List.forall_mem_singleton.2 sound)

theorem noLink_candidateChildren (names : List String) :
    (Host.Node.directory candidateChildren).chart names ≠ some .symlink := by
  have noLinkAt : ∀ place ∈ (Host.Node.directory candidateChildren).places,
      ((Host.Node.directory candidateChildren).at? place).map Host.Node.kind ≠ some .symlink := by
    decide
  intro atLink
  rcases Host.Node.chart_eq_some_iff.1 atLink with ⟨node, atNames, _⟩
  exact noLinkAt _ (Host.Node.mem_places_of_at? atNames) atLink

theorem stat_candidateEnvironment : candidateEnvironment.tree.stat candidateEnvironment.working
    (Bytes.ofText "g/") = .ok (.directory candidateChildren) :=
  rfl

theorem rulesFile_candidateEnvironment :
    (candidateEnvironment.view "g/").fileSystem.rulesFile candidateArguments.settings =
      .ok "docs/CODEOWNERS" := by
  decide +kernel

theorem exists_report_candidateJob :
    ∃ report, candidateEnvironment.report candidateJob "g/" = .ok report := by
  have read : (candidateEnvironment.view "g/").fileSystem.read "docs/CODEOWNERS" =
      .ok "/x @a" := by decide +kernel
  have isSome : (RuleTable.ofText "/x @a").toOption.isSome = true := by decide +kernel
  have inside : (Host.Node.directory candidateChildren).Inside
      (.directory candidateEnvironment.tree.children) := .child List.mem_cons_self (.self _)
  have readable : (candidateEnvironment.view "g/").Readable
      (Host.Node.directory candidateChildren).chart candidateJob.settings.skippedNames :=
    Host.View.readable_of_places (by decide)
      (Host.Node.Sound.of_inside sound_candidateEnvironment inside) _
  cases parsed : RuleTable.ofText "/x @a" with
  | error error => simp [parsed, Except.toOption] at isSome
  | ok table =>
      have loaded := FileSystem.loadTable_eq_ok_iff.2
        ⟨rulesFile_candidateEnvironment, Failure.tableOfRead_eq_ok_iff.2 ⟨"/x @a", read, parsed⟩⟩
      rcases Report.exists_of_readable sound_candidateEnvironment stat_candidateEnvironment readable
        table candidateJob.excludes? "" "" with ⟨report, reported⟩
      refine ⟨report, ?_⟩
      change Report.generate _ candidateArguments.settings _ _ _ = _
      rw [Report.generate, loaded]
      exact reported

/-- A second slash behind the directory is no matter. -/
theorem report_eq_of_found_file_given_in_docs : ∃ report : Report,
    candidateEnvironment.run ["g/"] = ⟨0, report.write .json ++ "\n", ""⟩ ∧
      candidateEnvironment.run ["-f", "g//docs/CODEOWNERS", "g/"] =
        candidateEnvironment.run ["g/"] := by
  have plain : ∀ directory ∈ candidateArguments.settings.candidateDirectories,
      Path.IsPlain directory := by decide
  have spells : Host.View.Spells "g/" "docs/CODEOWNERS" "g//docs/CODEOWNERS" :=
    Or.inr ⟨rfl, by decide⟩
  have prepared : candidateEnvironment.prepare candidateArguments = .ok candidateJob := rfl
  rcases exists_report_candidateJob with ⟨report, reported⟩
  have same := (report_eq_of_found_file_given rfl plain stat_candidateEnvironment
    noLink_candidateChildren rulesFile_candidateEnvironment spells prepared reported).2
  exact ⟨report, same ["g/"] ["-f", "g//docs/CODEOWNERS", "g/"] (by decide) (by decide) rfl⟩

end CommandLine

end OwnerCoverage
