import OwnerCoverage.Proofs.FileSystem.Operations
import OwnerCoverage.Proofs.FileSystem.Walk
import OwnerCoverage.Proofs.Rules.Location
import OwnerCoverage.Report

/-!
# Rules files in reports

A report leaves out the paths that are written like a place of the rules file. A traversal writes
its paths canonically, so a rules file in a candidate directory that is not written canonically is
left out only if another candidate spells its canonical path. `generate_leaves_rulesFiles_out_iff`
says what a report counts, and when no rules file is among it.
-/

namespace OwnerCoverage

/-- The canonical path of the rules file in a directory. -/
def Settings.rulesPlace (settings : Settings) (directory : String) : String :=
  Path.canonical (Path.join directory settings.rulesFileName)

namespace MemoryTree

/-- The index of the node that a path leads to. -/
def index? (tree : MemoryTree) (path : String) : Option Nat := tree.follow 0 (Path.names path)

/-- The nodes at the name of the rules file in the candidate directories. -/
def rulesNodes (tree : MemoryTree) (settings : Settings) : List Nat :=
  settings.candidateDirectories.filterMap fun directory =>
    (tree.index? directory).bind fun index =>
      tree.follow index (Path.names settings.rulesFileName)

/-- Whether a path stands for such a node, however it is spelled. -/
def isRulesFile (tree : MemoryTree) (settings : Settings) (path : String) : Bool :=
  (tree.index? path).any (tree.rulesNodes settings).contains

variable {tree : MemoryTree} {settings : Settings} {path directory : String}

theorem index?_join (directory name : String) : tree.index? (Path.join directory name) =
    (tree.index? directory).bind fun index => tree.follow index (Path.names name) := by
  rw [index?, Path.names_join, follow_append]
  rfl

theorem isRulesFile_iff : tree.isRulesFile settings path = true ↔
    ∃ index, tree.index? path = some index ∧ ∃ directory ∈ settings.candidateDirectories,
      tree.index? (Path.join directory settings.rulesFileName) = some index := by
  simp [isRulesFile, Option.any_eq_true, rulesNodes, index?_join]

/-- A path that stands for a rules file is the canonical spelling of a candidate. -/
theorem isRulesFile_iff_rulesPlace (wellFormed : tree.WellFormed)
    (canonical : Path.canonical path = path)
    (exists_index : ∃ index, tree.index? path = some index) :
    tree.isRulesFile settings path = true ↔
      ∃ directory ∈ settings.candidateDirectories, settings.rulesPlace directory = path := by
  rcases exists_index with ⟨index, here⟩
  rw [isRulesFile_iff]
  constructor
  · rintro ⟨found, found_eq, directory, mem, there⟩
    rw [here, Option.some.injEq] at found_eq
    subst found_eq
    have sameNames := wellFormed.follow_injective there here
    refine ⟨directory, mem, ?_⟩
    rw [Settings.rulesPlace, Path.canonical, sameNames]
    exact canonical
  · rintro ⟨directory, mem, rfl⟩
    refine ⟨index, here, directory, mem, ?_⟩
    rw [← here, index?, index?, Settings.rulesPlace, Path.canonical, Path.names_ofNames]
    exact fun _ => Path.isListed_of_mem_names

theorem VisitsFile.exists_index {skipped : List String} (visit : tree.VisitsFile skipped path) :
    ∃ index, tree.index? path = some index := by
  rcases visit.file with ⟨name, text, file⟩
  rcases node?_eq_some_iff.1 file with ⟨index, here, _⟩
  exact ⟨index, here⟩

end MemoryTree

namespace Report

variable {tree : MemoryTree} {settings : Settings} {excluded : String → Bool}
  {remoteUrl revision : String} {report : Report}

/-- The paths that count if some paths are held to be rules files. -/
def countedPaths (rulesFile excluded : String → Bool) (visited : List String) : List String :=
  visited.filter fun path => !(rulesFile path || excluded path)

/-- Whether a report counts some paths, and those of them that a table covers. -/
structure Counts (report : Report) (table : RuleTable) (counted : List String) : Prop where
  total : report.total = counted.length
  covered : report.covered = (counted.filter table.covers).length

theorem isRulesPath_iff {path : String} : settings.isRulesPath path = true ↔
    ∃ directory ∈ settings.candidateDirectories,
      Path.join directory settings.rulesFileName = path := by
  simp [Settings.isRulesPath, Settings.rulesPaths]

theorem exists_of_ofTable {fileSystem : FileSystem} {table : RuleTable}
    (reported : ofTable fileSystem settings table excluded remoteUrl revision = .ok report) :
    ∃ summary, Traversal.coverage
        { fileSystem := fileSystem, skippedNames := settings.skippedNames } table
        (fun path => settings.isRulesPath path || excluded path) = .ok summary ∧
      report = ofSummary remoteUrl revision summary := by
  rw [ofTable] at reported
  split at reported
  · exact absurd reported (by simp)
  · rename_i summary counted
    rw [Except.ok.injEq] at reported
    exact ⟨summary, counted, reported.symm⟩

theorem exists_of_generate {fileSystem : FileSystem}
    (generated : generate fileSystem settings excluded remoteUrl revision = .ok report) :
    ∃ located table, fileSystem.loadTable settings = .ok (located, table) ∧
      ofTable fileSystem settings table excluded remoteUrl revision = .ok report := by
  rw [generate] at generated
  rcases loaded : fileSystem.loadTable settings with failure | ⟨located, table⟩
  · simp [loaded] at generated
  · simp only [loaded] at generated
    exact ⟨located, table, rfl, generated⟩

/-- What a report on a file system that follows a chart counts. -/
theorem exists_visited_of_follows {fileSystem : FileSystem} {chart : Chart}
    (follows : fileSystem.Follows chart) (grounded : chart.Grounded)
    (within : chart.Within fileSystem.visitLimit) (root : chart [] ≠ none) {table : RuleTable}
    (reported : ofTable fileSystem settings table excluded remoteUrl revision = .ok report) :
    ∃ visited : List String, visited.Nodup ∧
      (∀ path, path ∈ visited ↔ ∃ names, Path.ofNames names = path ∧
        chart.Visits settings.skippedNames names ∧ chart names ≠ some .directory) ∧
      (∀ path ∈ visited, ∃ entry, fileSystem.stat path = .ok entry) ∧
      report.Counts table (countedPaths settings.isRulesPath excluded visited) := by
  rcases exists_of_ofTable reported with ⟨summary, counted, rfl⟩
  rcases Chart.exists_leaves_of_coverage follows grounded within root rfl counted with
    ⟨visited, nodup, mem_iff, stats, rfl⟩
  exact ⟨visited, nodup, mem_iff, stats, rfl, rfl⟩

theorem isRulesFile_of_loadTable {located : String} {table : RuleTable}
    (loaded : tree.fileSystem.loadTable settings = .ok (located, table)) :
    tree.isRulesFile settings located = true := by
  rcases FileSystem.exists_of_rulesFile (FileSystem.loadTable_eq_ok_iff.1 loaded).1 with
    ⟨directory, mem, rfl, entry, stat, _⟩
  rcases (MemoryTree.stat_eq_ok_iff.1 stat).2 with ⟨node, atPath, _⟩
  rcases MemoryTree.node?_eq_some_iff.1 atPath with ⟨index, here, _⟩
  apply MemoryTree.isRulesFile_iff.2
  exact ⟨index, here, directory, mem, here⟩

theorem exists_visited (wellFormed : tree.WellFormed)
    (generated : generate tree.fileSystem settings excluded remoteUrl revision = .ok report) :
    ∃ located table visited, tree.fileSystem.loadTable settings = .ok (located, table) ∧
      visited.Nodup ∧ (∀ path, path ∈ visited ↔ tree.VisitsFile settings.skippedNames path) ∧
        report.Counts table (countedPaths settings.isRulesPath excluded visited) := by
  rcases exists_of_generate generated with ⟨located, table, loaded, reported⟩
  rcases exists_visited_of_follows wellFormed.follows wellFormed.grounded wellFormed.withinLimit
    wellFormed.chart_root reported with ⟨visited, nodup, mem_iff, _, counts⟩
  refine ⟨located, table, visited, loaded, nodup, ?_, counts⟩
  intro path
  rw [mem_iff, MemoryTree.visitsFile_iff wellFormed]

/-- Two ways to tell the rules files give the same counts exactly if they agree on the visited paths
that are not excluded, provided that the first one leaves out no more than the second. -/
theorem counts_iff {table : RuleTable} {written rulesFile : String → Bool} {visited : List String}
    (counts : report.Counts table (countedPaths written excluded visited))
    (included : ∀ path ∈ visited, written path = true → rulesFile path = true) :
    report.Counts table (countedPaths rulesFile excluded visited) ↔
      ∀ path ∈ visited, excluded path = false → rulesFile path = true → written path = true := by
  have nested : countedPaths rulesFile excluded visited =
      (countedPaths written excluded visited).filter fun path => !rulesFile path := by
    rw [countedPaths, countedPaths, List.filter_filter]
    apply List.filter_congr
    intro path mem
    have whenWritten := included path mem
    revert whenWritten
    cases written path <;> cases rulesFile path <;> simp
  constructor
  · intro expected path mem retained isRulesFile
    have lengths := counts.total.symm.trans expected.total
    rw [nested, eq_comm, List.length_filter_eq_length_iff] at lengths
    by_contra notWritten
    have counted : path ∈ countedPaths written excluded visited :=
      List.mem_filter.2 ⟨mem, by simp [Bool.eq_false_iff.2 notWritten, retained]⟩
    exact absurd (lengths path counted) (by simp [isRulesFile])
  · intro agree
    have same : countedPaths rulesFile excluded visited =
        countedPaths written excluded visited := by
      apply List.filter_congr
      intro path mem
      have whenWritten := included path mem
      have whenRulesFile := agree path mem
      revert whenWritten whenRulesFile
      cases excluded path <;> cases written path <;> cases rulesFile path <;> simp
    rwa [same]

/-- What a report counts, and when it leaves all rules files out. It counts the visited files that
are neither written like a place of the rules file nor excluded. These are the visited files that
are neither a rules file nor excluded exactly if, for every candidate directory, some candidate
spells the canonical path of its rules file, unless that file is not visited or is excluded anyway.
-/
theorem generate_leaves_rulesFiles_out_iff (operations : List MemoryTree.Operation)
    (generated : generate (MemoryTree.ofOperations operations).fileSystem settings excluded
      remoteUrl revision = .ok report) :
    ∃ located table visited,
      (MemoryTree.ofOperations operations).fileSystem.loadTable settings = .ok (located, table) ∧
      (MemoryTree.ofOperations operations).isRulesFile settings located = true ∧
      visited.Nodup ∧
      (∀ path, path ∈ visited ↔
        (MemoryTree.ofOperations operations).VisitsFile settings.skippedNames path) ∧
      report.Counts table (countedPaths settings.isRulesPath excluded visited) ∧
      (report.Counts table (countedPaths
          ((MemoryTree.ofOperations operations).isRulesFile settings) excluded visited) ↔
        ∀ directory ∈ settings.candidateDirectories,
          (MemoryTree.ofOperations operations).VisitsFile settings.skippedNames
            (settings.rulesPlace directory) →
          excluded (settings.rulesPlace directory) = false →
          ∃ other ∈ settings.candidateDirectories,
            Path.join other settings.rulesFileName = settings.rulesPlace directory) := by
  have wellFormed := MemoryTree.wellFormed_ofOperations operations
  rcases exists_visited wellFormed generated with
    ⟨located, table, visited, loaded, nodup, visits, counts⟩
  refine ⟨located, table, visited, loaded, isRulesFile_of_loadTable loaded, nodup, visits, counts,
    ?_⟩
  have isRulesFile_iff {path : String} (mem : path ∈ visited) :
      (MemoryTree.ofOperations operations).isRulesFile settings path = true ↔
        ∃ directory ∈ settings.candidateDirectories, settings.rulesPlace directory = path := by
    have visit := (visits path).1 mem
    exact MemoryTree.isRulesFile_iff_rulesPlace wellFormed visit.canonical visit.exists_index
  have included : ∀ path ∈ visited, settings.isRulesPath path = true →
      (MemoryTree.ofOperations operations).isRulesFile settings path = true := by
    intro path mem isRulesPath
    rcases isRulesPath_iff.1 isRulesPath with ⟨directory, directory_mem, rfl⟩
    apply (isRulesFile_iff mem).2
    exact ⟨directory, directory_mem, ((visits _).1 mem).canonical⟩
  rw [counts_iff counts included]
  constructor
  · intro agree directory directory_mem visit retained
    have mem := (visits _).2 visit
    exact isRulesPath_iff.1
      (agree _ mem retained ((isRulesFile_iff mem).2 ⟨directory, directory_mem, rfl⟩))
  · intro spelled path mem retained isRulesFile
    rcases (isRulesFile_iff mem).1 isRulesFile with ⟨directory, directory_mem, rfl⟩
    exact isRulesPath_iff.2 (spelled directory directory_mem ((visits _).1 mem) retained)

/-- A tree whose only file is a rules file that owns everything. -/
def sampleOperations : List MemoryTree.Operation := [.writeFile ".github/CODEOWNERS" "* @a"]

theorem generate_leaves_rulesFiles_out_iff_default : ∃ report located table visited,
    generate (MemoryTree.ofOperations sampleOperations).fileSystem {} (fun _ => false) "u" "s" =
      .ok report ∧
    (MemoryTree.ofOperations sampleOperations).fileSystem.loadTable {} = .ok (located, table) ∧
    report.Counts table (countedPaths
      ((MemoryTree.ofOperations sampleOperations).isRulesFile {}) (fun _ => false) visited) := by
  have generated : generate (MemoryTree.ofOperations sampleOperations).fileSystem {}
      (fun _ => false) "u" "s" = .ok (ofSummary "u" "s" (CoverageSummary.ofCounts 0 0)) := by
    decide +kernel
  rcases generate_leaves_rulesFiles_out_iff sampleOperations generated with
    ⟨located, table, visited, loaded, _, _, _, _, leaves_out_iff⟩
  refine ⟨_, located, table, visited, generated, loaded, leaves_out_iff.2 ?_⟩
  intro directory mem _ _
  have spelled : ∀ directory ∈ Settings.candidateDirectories {},
      Path.join directory "CODEOWNERS" = Settings.rulesPlace {} directory := by decide
  exact ⟨directory, mem, spelled directory mem⟩

/-- The only file of the tree is a rules file, and is counted, as its directory is not written
canonically. -/
theorem generate_counts_rulesFile : ∃ report,
    generate (MemoryTree.ofOperations sampleOperations).fileSystem
      { candidateDirectories := ["./.github"] } (fun _ => false) "u" "s" = .ok report ∧
    report.total = 1 ∧ report.covered = 1 ∧
    ∀ path, (MemoryTree.ofOperations sampleOperations).VisitsFile [".git"] path →
      (MemoryTree.ofOperations sampleOperations).isRulesFile
        { candidateDirectories := ["./.github"] } path = true := by
  have generated : generate (MemoryTree.ofOperations sampleOperations).fileSystem
      { candidateDirectories := ["./.github"] } (fun _ => false) "u" "s" =
        .ok (ofSummary "u" "s" (CoverageSummary.ofCounts 1 1)) := by
    decide +kernel
  refine ⟨_, generated, rfl, rfl, ?_⟩
  intro path visit
  rcases visit.file with ⟨name, text, file⟩
  rcases MemoryTree.node?_eq_some_iff.1 file with ⟨index, here, atIndex⟩
  have small : index < 3 :=
    (MemoryTree.wellFormed_ofOperations sampleOperations).lt_size_of_follow here
  have isLast : index = 2 := by
    have noDirectory : (MemoryTree.ofOperations sampleOperations).children? index = none := by
      simp [MemoryTree.children?, atIndex]
    have onlyLast : ∀ index < 3,
        (MemoryTree.ofOperations sampleOperations).children? index = none → index = 2 := by decide
    exact onlyLast index small noDirectory
  subst isLast
  apply MemoryTree.isRulesFile_iff.2
  exact ⟨2, here, "./.github", List.mem_singleton_self _, rfl⟩

end Report

end OwnerCoverage
