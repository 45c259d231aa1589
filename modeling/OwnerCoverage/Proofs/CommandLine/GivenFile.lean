import OwnerCoverage.Proofs.CommandLine.Running
import OwnerCoverage.Proofs.Host.Within
import OwnerCoverage.Proofs.Report.RulesFiles

/-!
# The given rules file in reports

A rules file that an option names describes owners and is not owned itself, so a report on a
directory in which it lies should not count it. What a report leaves out is the file to which the
name finally leads, however it is spelled. If the name is that of a link inside the directory, the
link is another entry, and it is counted (`report_leaves_given_file_out_iff`).
-/

namespace OwnerCoverage

namespace Report

variable {view : Host.View} {settings : Settings} {table : RuleTable} {excluded : String → Bool}
  {file remoteUrl revision : String} {children : List (Host.FileName × Host.Node)}
  {report : Report} {visited : List String}

/-- Whether a report counts those of the visited paths that are neither rules files nor excluded,
nor left out for another reason. -/
def LeavesOut (report : Report) (settings : Settings) (table : RuleTable)
    (excluded : String → Bool) (visited : List String) (left : String → Bool) : Prop :=
  report.Counts table
    (countedPaths (fun path => settings.isRulesPath path || left path) excluded visited)

/-- What a report on a root of a host counts, which may be a link. -/
theorem exists_visitsLeaf_of_ofTable (sound : view.tree.Sound) {node : Host.Node}
    (atRoot : view.tree.stat view.working (Bytes.ofText view.root) = .ok node)
    (reported : ofTable view.fileSystem settings table excluded remoteUrl revision = .ok report) :
    ∃ visited : List String, visited.Nodup ∧
      (∀ path, path ∈ visited ↔ view.VisitsLeaf settings.skippedNames path) ∧
      (∀ path ∈ visited, ∃ entry, view.stat path = .ok entry) ∧
      report.Counts table (countedPaths settings.isRulesPath excluded visited) := by
  have soundNode := Host.Node.Sound.of_inside sound (Host.View.inside_of_stat atRoot)
  have stands : node.chart [] ≠ none := Option.some_ne_none _
  rcases exists_visited_of_follows (Host.View.follows_of_stat sound atRoot) soundNode.grounded
    (Host.View.withinLimit_of_stat atRoot) stands reported with
    ⟨visited, nodup, mem_iff, stats, counts⟩
  refine ⟨visited, nodup, ?_, stats, counts⟩
  intro path
  rw [mem_iff]
  constructor
  · rintro ⟨names, same, visits, leaf⟩
    exact ⟨node, names, atRoot, same, visits, leaf⟩
  · rintro ⟨other, names, otherAtRoot, same, visits, leaf⟩
    have node_eq := Except.ok.inj (atRoot.symm.trans otherAtRoot)
    subst node_eq
    exact ⟨names, same, visits, leaf⟩

/-- A report that leaves out the path which is told for a file inside a directory leaves out the
entry of that file among the visited ones, and nothing else for it. -/
theorem exists_visited_of_view (sound : view.tree.Sound)
    (directory : view.tree.list view.working (Bytes.ofText view.root) = .ok children)
    (leadsToFile : view.tree.LeadsToFile view.working (Bytes.ofText file))
    (reported : ofTable view.fileSystem settings table
      (fun path => view.pathWithin? file == some path || excluded path) remoteUrl revision =
        .ok report) :
    ∃ visited : List String, visited.Nodup ∧
      (∀ path, path ∈ visited ↔ view.VisitsLeaf settings.skippedNames path) ∧
      report.LeavesOut settings table excluded visited (view.isTargetOf file) := by
  rcases Host.Tree.list_eq_ok_iff.1 directory with ⟨outer, leads, atOuter⟩
  rcases Host.Tree.exists_stat_of_resolve leads with ⟨node, atRoot⟩
  rcases leadsToFile with ⟨last, contents, target, atTarget⟩
  rcases exists_visitsLeaf_of_ofTable sound atRoot reported with
    ⟨visited, nodup, mem_iff, stats, counts⟩
  refine ⟨visited, nodup, mem_iff, ?_⟩
  have same : countedPaths (fun path => settings.isRulesPath path || view.isTargetOf file path)
        excluded visited =
      countedPaths settings.isRulesPath
        (fun path => view.pathWithin? file == some path || excluded path) visited := by
    apply List.filter_congr
    intro path mem
    rcases (mem_iff path).1 mem with ⟨other, names, otherAtRoot, rfl, visits, _⟩
    have told := Host.View.pathWithin?_eq_some_iff_isTargetOf sound otherAtRoot leads atOuter target
      atTarget visits.stands (stats _ mem)
    have agree : (view.pathWithin? file == some (Path.ofNames names)) =
        view.isTargetOf file (Path.ofNames names) := by
      rw [Bool.eq_iff_iff, beq_iff_eq]
      exact told
    simp only [agree, Bool.or_assoc]
  rwa [LeavesOut, same]

/-- Leaving out the entry that the name of a file names as well makes no difference exactly if that
entry is not counted anyway. -/
theorem leavesOut_entry_iff
    (leaves : report.LeavesOut settings table excluded visited (view.isTargetOf file)) :
    report.LeavesOut settings table excluded visited (view.isNamedBy file) ↔
      ∀ path ∈ visited, view.isEntryOf file path = true →
        view.isTargetOf file path = true ∨ settings.isRulesPath path = true ∨
          excluded path = true := by
  have included : ∀ path ∈ visited,
      (settings.isRulesPath path || view.isTargetOf file path) = true →
        (settings.isRulesPath path || view.isNamedBy file path) = true := by
    intro path _ written
    rw [Host.View.isNamedBy, ← Bool.or_assoc, written, Bool.true_or]
  rw [LeavesOut, counts_iff leaves included]
  constructor
  · intro agree path mem isEntry
    by_cases retained : excluded path = false
    · have written := agree path mem retained (by simp [Host.View.isNamedBy, isEntry])
      rcases Bool.or_eq_true_iff.1 written with isRulesPath | isTarget
      · exact Or.inr (Or.inl isRulesPath)
      · exact Or.inl isTarget
    · exact Or.inr (Or.inr (by simpa using retained))
  · intro entries path mem retained left
    simp only [Host.View.isNamedBy, Bool.or_eq_true] at left ⊢
    rcases left with isRulesPath | isTarget | isEntry
    · exact Or.inl isRulesPath
    · exact Or.inr isTarget
    · rcases entries path mem isEntry with isTarget | isRulesPath | isExcluded
      · exact Or.inr isTarget
      · exact Or.inl isRulesPath
      · exact absurd isExcluded (by simp [retained])

/-- There is a report on a real directory if the host takes the paths of all that is in it. -/
theorem exists_of_readable (sound : view.tree.Sound)
    (root : view.tree.stat view.working (Bytes.ofText view.root) = .ok (.directory children))
    (readable : view.Readable (Host.Node.directory children).chart settings.skippedNames)
    (table : RuleTable) (excluded : String → Bool) (remoteUrl revision : String) :
    ∃ report, ofTable view.fileSystem settings table excluded remoteUrl revision = .ok report := by
  rcases Host.View.exists_starts root with ⟨trail, fewer, starts⟩
  have sees := starts.sees_of_readable sound readable
  have stands : (Host.Node.directory children).chart [] ≠ none := Option.some_ne_none _
  have follows : (view.traversal settings.skippedNames).fileSystem.Follows
      (Host.Node.directory children).chart := starts.follows sound
  rcases Chart.exists_outline follows (starts.sound sound).grounded starts.withinLimit stands with
    ⟨places, outlines, room⟩
  rcases (Traversal.coverageWith_of_outline outlines.outline room table (fun path (test : Unit) =>
    (settings.isRulesPath path || excluded path, test)) ()).1.2 sees with ⟨summary, after, counted⟩
  have covered : (view.traversal settings.skippedNames).coverage table
      (fun path => settings.isRulesPath path || excluded path) = .ok summary :=
    congrArg Prod.fst counted
  rw [Host.View.traversal] at covered
  exact ⟨ofSummary remoteUrl revision summary, by simp only [ofTable, covered]⟩

end Report

namespace CommandLine

variable {environment : Environment} {arguments : Arguments} {job : Job} {table : RuleTable}
  {file root : String} {children : List (Host.FileName × Host.Node)} {report : Report}

theorem leadsToFile_of_tableAt (loaded : environment.tableAt file = .ok table) :
    environment.tree.LeadsToFile environment.working (Bytes.ofText file) := by
  by_contra leadsNowhere
  rcases Host.Tree.exists_read_error leadsNowhere with ⟨fault, unread⟩
  simp [Environment.tableAt, unread, Except.mapError, Failure.tableOfRead] at loaded

/-- A job that is prepared for a given rules file holds its table. -/
theorem exists_table_of_prepare (prepared : environment.prepare arguments = .ok job)
    (given : arguments.rulesFile = some file) :
    job.arguments.rulesFile = some file ∧
      ∃ table, job.table = some table ∧ environment.tableAt file = .ok table := by
  have prepares := prepare_eq_ok_iff.1 prepared
  refine ⟨by rw [prepares.given, given], ?_⟩
  have loads := prepares.table
  rcases held : job.table with _ | table
  · rw [held, Environment.Loads, given] at loads
    exact absurd loads (by simp)
  · rw [held] at loads
    rcases loads with ⟨path, path_eq, loaded⟩
    rw [given, Option.some.injEq] at path_eq
    exact ⟨table, rfl, path_eq ▸ loaded⟩

/-- What a report on a directory counts for a rules file that an option names. Among all nodes that
are visited and are no directories, it leaves out the file to which the name finally leads, however
it is spelled. It leaves out the entry that is named as well exactly if this is that file, or is not
visited, or is left out for another reason. So it does if the entry is not a link. -/
theorem report_leaves_given_file_out_iff (sound : environment.tree.Sound)
    (prepared : environment.prepare arguments = .ok job) (given : arguments.rulesFile = some file)
    (directory : environment.tree.list environment.working (Bytes.ofText root) = .ok children)
    (reported : environment.report job root = .ok report) :
    ∃ table visited, environment.tableAt file = .ok table ∧ visited.Nodup ∧
      (∀ path, path ∈ visited ↔
        (environment.view root).VisitsLeaf job.settings.skippedNames path) ∧
      report.LeavesOut job.settings table job.excludes? visited
        ((environment.view root).isTargetOf file) ∧
      (report.LeavesOut job.settings table job.excludes? visited
          ((environment.view root).isNamedBy file) ↔
        ∀ path ∈ visited, (environment.view root).isEntryOf file path = true →
          (environment.view root).isTargetOf file path = true ∨
            job.settings.isRulesPath path = true ∨ job.excludes? path = true) ∧
      (∀ node, environment.tree.stat environment.working (Bytes.ofText file) = .ok node →
        node.kind ≠ .symlink →
          report.LeavesOut job.settings table job.excludes? visited
            ((environment.view root).isNamedBy file)) := by
  rcases exists_table_of_prepare prepared given with ⟨kept, table, loads, loaded⟩
  have reportedTable : Report.ofTable (environment.view root).fileSystem job.settings table
      (fun path => (environment.view root).pathWithin? file == some path || job.excludes? path)
        (job.arguments.remoteUrl.getD "") (job.arguments.revision.getD "") = .ok report := by
    rw [← reported]
    simp only [Environment.report, loads, kept]
    rfl
  rcases Report.exists_visited_of_view sound directory (leadsToFile_of_tableAt loaded)
    reportedTable with ⟨visited, nodup, mem_iff, leaves⟩
  have entry_iff := Report.leavesOut_entry_iff leaves
  refine ⟨table, visited, loaded, nodup, mem_iff, leaves, entry_iff, ?_⟩
  intro node known noLink
  apply entry_iff.2
  intro path _ isEntry
  left
  rwa [Host.View.isTargetOf_eq_isEntryOf known noLink]

/-- A directory in which a link leads to an empty rules file that lies in it as well. -/
def linkedChildren : List (Host.FileName × Host.Node) :=
  [(Bytes.ofText "OWN", .link (Bytes.ofText "real/OWN")),
    (Bytes.ofText "real", .directory [(Bytes.ofText "OWN", .file [])]),
    (Bytes.ofText "x", .file [])]

/-- The directory is the root of the host. -/
def linkedEnvironment : Environment := ⟨⟨linkedChildren⟩, [], none⟩

/-- The job of a run to which the rules file is given by a path. -/
def linkedJob (file : String) : Job := ⟨{ rulesFile := some file }, {}, .json, some ⟨[]⟩, []⟩

theorem sound_linkedEnvironment : linkedEnvironment.tree.Sound := by
  refine .directory (by decide) (by decide) ?_
  simp only [linkedEnvironment, linkedChildren, List.forall_mem_cons]
  refine ⟨.link _, .directory (by decide) (by decide) ?_, .file _, by simp⟩
  exact List.forall_mem_singleton.2 (.file _)

theorem exists_report_linkedJob (file : String) :
    ∃ report, linkedEnvironment.report (linkedJob file) "." = .ok report := by
  have root : linkedEnvironment.tree.stat [] (Bytes.ofText ".") =
      .ok (.directory linkedChildren) := rfl
  have readable : (linkedEnvironment.view ".").Readable
      (Host.Node.directory linkedChildren).chart [".git"] :=
    Host.View.readable_of_places (by decide) sound_linkedEnvironment [".git"]
  exact Report.exists_of_readable sound_linkedEnvironment root readable ⟨[]⟩ _ "" ""

/-- The rules file is left out in each spelling that does not name the link. -/
theorem report_leaves_given_file_out_iff_spelled : ∃ report table visited,
    linkedEnvironment.report (linkedJob "real/../real/./OWN") "." = .ok report ∧
    linkedEnvironment.tableAt "real/../real/./OWN" = .ok table ∧
    (∀ path, path ∈ visited ↔ (linkedEnvironment.view ".").VisitsLeaf [".git"] path) ∧
    report.LeavesOut {} table (linkedJob "real/../real/./OWN").excludes? visited
      ((linkedEnvironment.view ".").isNamedBy "real/../real/./OWN") := by
  have prepared : linkedEnvironment.prepare { rulesFile := some "real/../real/./OWN" } =
      .ok (linkedJob "real/../real/./OWN") := rfl
  have directory : linkedEnvironment.tree.list [] (Bytes.ofText ".") = .ok linkedChildren := rfl
  have known : linkedEnvironment.tree.stat [] (Bytes.ofText "real/../real/./OWN") =
      .ok (.file []) := rfl
  rcases exists_report_linkedJob "real/../real/./OWN" with ⟨report, reported⟩
  rcases report_leaves_given_file_out_iff sound_linkedEnvironment prepared rfl directory reported
    with ⟨table, visited, loaded, _, mem_iff, _, _, noLink⟩
  exact ⟨report, table, visited, reported, loaded, mem_iff,
    noLink _ known (by simp [Host.Node.kind])⟩

/-- With the link as the given rules file, the link is counted. -/
theorem report_counts_entry_of_given_file : ∃ report table visited,
    linkedEnvironment.prepare { rulesFile := some "OWN" } = .ok (linkedJob "OWN") ∧
    linkedEnvironment.report (linkedJob "OWN") "." = .ok report ∧
    linkedEnvironment.tableAt "OWN" = .ok table ∧ visited.Nodup ∧
    (∀ path, path ∈ visited ↔ (linkedEnvironment.view ".").VisitsLeaf [".git"] path) ∧
    ¬report.LeavesOut {} table (linkedJob "OWN").excludes? visited
      ((linkedEnvironment.view ".").isNamedBy "OWN") := by
  have prepared : linkedEnvironment.prepare { rulesFile := some "OWN" } =
      .ok (linkedJob "OWN") := rfl
  have loaded : linkedEnvironment.tableAt "OWN" = .ok ⟨[]⟩ := rfl
  have directory : linkedEnvironment.tree.list [] (Bytes.ofText ".") = .ok linkedChildren := rfl
  have root : linkedEnvironment.tree.stat [] (Bytes.ofText ".") =
      .ok (.directory linkedChildren) := rfl
  have visitsLink : (linkedEnvironment.view ".").VisitsLeaf [".git"] "OWN" := by
    refine ⟨_, ["OWN"], root, rfl, ⟨by decide, ?_⟩, by decide⟩
    rintro above name ⟨rest, split⟩ _
    have isOnly : name ∈ ["OWN"] := by rw [← split]; simp
    rw [List.mem_singleton.1 isOnly]
    decide
  have isEntry : (linkedEnvironment.view ".").isEntryOf "OWN" "OWN" = true := by decide +kernel
  have noTarget : (linkedEnvironment.view ".").isTargetOf "OWN" "OWN" = false := by decide +kernel
  rcases exists_report_linkedJob "OWN" with ⟨report, reported⟩
  have reportedTable : Report.ofTable (linkedEnvironment.view ".").fileSystem {} ⟨[]⟩
      (fun path => (linkedEnvironment.view ".").pathWithin? "OWN" == some path ||
        (linkedJob "OWN").excludes? path) "" "" = .ok report := reported
  rcases Report.exists_visited_of_view sound_linkedEnvironment directory
    (leadsToFile_of_tableAt loaded) reportedTable with ⟨visited, nodup, mem_iff, leaves⟩
  refine ⟨report, ⟨[]⟩, visited, prepared, reported, loaded, nodup, mem_iff, ?_⟩
  intro leavesEntry
  rcases (Report.leavesOut_entry_iff leaves).1 leavesEntry "OWN" ((mem_iff _).2 visitsLink) isEntry
    with isTarget | isRulesPath | excluded
  · exact absurd isTarget (by simp [noTarget])
  · exact absurd isRulesPath (by decide)
  · exact absurd excluded (by decide)

end CommandLine

end OwnerCoverage
