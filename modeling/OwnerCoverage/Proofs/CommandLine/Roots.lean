import OwnerCoverage.Proofs.CommandLine.GivenFile
import OwnerCoverage.Proofs.Host.Roots
import OwnerCoverage.Proofs.Report.Agreement

/-!
# Roots of reports

A report is on a directory, and that directory has many paths. Where the host's limits tell them
alike, a run does the same for two of them if a link stands at the end of both or of neither
(`run_eq_of_same_root`). A root that is named by a link is not entered. Nothing but the link is
counted then, although the rules file is looked for behind it.
-/

namespace OwnerCoverage

namespace CommandLine

variable {environment : Environment} {arguments : Arguments} {job : Job} {root other : String}
  {children : List (Host.FileName × Host.Node)} {report : Report}

section Counted

/-- What a report on a root leaves out besides the places of the rules file. -/
def Environment.leavesOut (environment : Environment) (job : Job) (root path : String) : Bool :=
  match job.table with
  | none => job.excludes? path
  | some _ =>
      job.arguments.rulesFile.bind (environment.view root).pathWithin? == some path ||
        job.excludes? path

theorem exists_ofTable_of_report (reported : environment.report job root = .ok report) :
    ∃ table, Report.ofTable (environment.view root).fileSystem job.settings table
      (environment.leavesOut job root) (job.arguments.remoteUrl.getD "")
      (job.arguments.revision.getD "") = .ok report := by
  cases held : job.table with
  | none =>
      have leaves : environment.leavesOut job root = job.excludes? := by
        funext path
        simp only [Environment.leavesOut, held]
      simp only [Environment.report, held] at reported
      rcases Report.exists_of_generate reported with ⟨_, table, _, reportedTable⟩
      exact ⟨table, leaves ▸ reportedTable⟩
  | some table =>
      have leaves : environment.leavesOut job root = fun path =>
          job.arguments.rulesFile.bind (environment.view root).pathWithin? == some path ||
            job.excludes? path := by
        funext path
        simp only [Environment.leavesOut, held]
      simp only [Environment.report, held] at reported
      exact ⟨table, leaves ▸ reported⟩

end Counted

section Alike

/-- The report on a root is the same for another path of it. -/
theorem report_eq_of_sameRoot {trail : Host.Trail} {fewer otherFewer : Nat}
    (sound : environment.tree.Sound)
    (same : (environment.view root).SameRoot other children trail fewer otherFewer)
    (limits : (environment.view root).LimitsAgree other job.settings children) :
    environment.report job other = environment.report job root := by
  have runs {σ : Type} (visitor : Visitor σ) (state : σ) :
      ((environment.view other).traversal job.settings.skippedNames).run visitor state =
        ((environment.view root).traversal job.settings.skippedNames).run visitor state :=
    same.run_eq sound limits.places job.settings.skippedNames visitor state
  cases held : job.table with
  | none =>
      simp only [Environment.report, held]
      exact Report.generate_eq (same.loadTable_eq limits.candidates) runs _ _ _
  | some table =>
      have told : (environment.view other).pathWithin? = (environment.view root).pathWithin? :=
        funext same.pathWithin?_eq
      simp only [Environment.report, held, told]
      exact Report.ofTable_eq runs _ _ _ _

/-- A run on a single root prints its report, or tells of its failure. -/
theorem run_of_single_root {texts : List String} (prepares : environment.Prepares arguments job)
    (read : readArguments {} texts = .ok (.report { arguments with roots := [root] })) :
    environment.run texts =
      printReports job.format "" [(root, environment.report job root)] := by
  have prepared := prepare_roots environment arguments [root]
  rw [prepare_eq_ok_iff.2 prepares, Except.map] at prepared
  have otherwise := prepare_eq_ok_iff.1 prepared
  rw [run_eq_of_prepares read otherwise, report_eq_of_prepares prepares otherwise]
  rfl

/-- What a run does for a directory does not depend on the path of it, as long as the limits of the
host tell the paths alike, if a link stands at the end of both of two paths or of neither: it prints
the same report, or ends with the same failure. The root is counted exactly if it is named by a
link, and nothing else is then. -/
theorem run_eq_of_same_root (sound : environment.tree.Sound)
    (directory : environment.tree.list environment.working (Bytes.ofText root) = .ok children)
    (place : environment.tree.place? true environment.working (Bytes.ofText other) =
      environment.tree.place? true environment.working (Bytes.ofText root)) :
    ((environment.view root).LimitsAgree other arguments.settings children →
      ((environment.view root).HasLinkedRoot ↔ (environment.view other).HasLinkedRoot) →
      (∀ job, environment.Prepares arguments job →
        environment.report job other = environment.report job root) ∧
      ∀ texts others, readArguments {} texts = .ok (.report { arguments with roots := [root] }) →
        readArguments {} others = .ok (.report { arguments with roots := [other] }) →
        environment.run others = environment.run texts ∨ ∃ failure,
          environment.run texts =
            ⟨1, "", (Diagnosis.inContext ("failed to report on " ++ root) failure).text⟩ ∧
          environment.run others =
            ⟨1, "", (Diagnosis.inContext ("failed to report on " ++ other) failure).text⟩) ∧
    ∀ job report, environment.Prepares arguments job → environment.report job root = .ok report →
      ∃ table visited, visited.Nodup ∧
        (∀ path, path ∈ visited ↔
          (environment.view root).VisitsLeaf job.settings.skippedNames path) ∧
        report.Counts table (Report.countedPaths job.settings.isRulesPath
          (environment.leavesOut job root) visited) ∧
        (Path.root ∈ visited ↔ (environment.view root).HasLinkedRoot) ∧
        ((environment.view root).HasLinkedRoot → ∀ path ∈ visited, path = Path.root) := by
  rcases Host.Tree.list_eq_ok_iff.1 directory with ⟨outer, resolved, atOuter⟩
  have paths : ∃ trail, (∃ fewer, (environment.view root).Leads children trail fewer) ∧
      ∃ fewer, (environment.view other).Leads children trail fewer :=
    Host.View.exists_leads_of_place directory place
  rcases paths with ⟨trail, ⟨fewer, leads⟩, otherFewer, otherLeads⟩
  constructor
  · intro limits linked
    have same : (environment.view root).SameRoot other children trail fewer otherFewer :=
      ⟨leads, otherLeads, linked⟩
    have reports : ∀ job, environment.Prepares arguments job →
        environment.report job other = environment.report job root := by
      intro job prepares
      rw [← prepares.settings] at limits
      exact report_eq_of_sameRoot sound same limits
    refine ⟨reports, ?_⟩
    intro texts others read readOthers
    cases prepared : environment.prepare arguments with
    | error diagnosis =>
        left
        rw [Environment.run, Environment.run, read, readOthers]
        simp only [prepare_roots, prepared, Except.map]
    | ok job =>
        have prepares := prepare_eq_ok_iff.1 prepared
        rw [run_of_single_root prepares read, run_of_single_root prepares readOthers,
          reports job prepares]
        cases environment.report job root with
        | error failure => exact Or.inr ⟨failure, rfl, rfl⟩
        | ok report => exact Or.inl rfl
  · intro job report prepares reported
    rcases exists_ofTable_of_report reported with ⟨table, reportedTable⟩
    rcases Host.Tree.exists_stat_of_resolve resolved with ⟨node, atRoot⟩
    rcases Report.exists_visitsLeaf_of_ofTable sound atRoot reportedTable with
      ⟨visited, nodup, mem_iff, _, counts⟩
    refine ⟨table, visited, nodup, mem_iff, counts, ?_, ?_⟩
    · rw [mem_iff]
      exact leads.visitsLeaf_root_iff sound _
    · intro linked path mem
      exact linked.eq_root_of_visitsLeaf ((mem_iff path).1 mem)

/-- A directory with an empty rules file, and a link to it. -/
def linkedRootChildren : List (Host.FileName × Host.Node) :=
  [(Bytes.ofText "CODEOWNERS", .file []), (Bytes.ofText "x", .file [])]

/-- The directory, and a link to it beside it. -/
def linkedRootEnvironment : Environment :=
  ⟨⟨[(Bytes.ofText "d", .directory linkedRootChildren),
    (Bytes.ofText "l", .link (Bytes.ofText "d"))]⟩, [], none⟩

def linkedRootJob : Job := ⟨{}, {}, .json, none, []⟩

theorem prepares_linkedRootJob : linkedRootEnvironment.Prepares {} linkedRootJob :=
  prepare_eq_ok_iff.1 rfl

theorem list_linkedRootEnvironment : ∀ root ∈ ["d", "l", "l/"],
    linkedRootEnvironment.tree.list linkedRootEnvironment.working (Bytes.ofText root) =
      .ok linkedRootChildren := by
  simp only [List.forall_mem_cons]
  exact ⟨rfl, rfl, rfl, by simp⟩

theorem sound_linkedRootChildren : (Host.Node.directory linkedRootChildren).Sound := by
  refine .directory (by decide) (by decide) ?_
  simp only [linkedRootChildren, List.forall_mem_cons]
  exact ⟨.file _, .file _, by simp⟩

theorem sound_linkedRootEnvironment : linkedRootEnvironment.tree.Sound := by
  refine .directory (by decide) (by decide) ?_
  simp only [linkedRootEnvironment, List.forall_mem_cons]
  exact ⟨sound_linkedRootChildren, .link _, by simp⟩

/-- The host takes all paths that a report comes to, whichever path names the root. -/
theorem limitsAgree_linkedRootEnvironment : ∀ other ∈ ["l", "l/"],
    (linkedRootEnvironment.view "d").LimitsAgree other {} linkedRootChildren := by
  have small : ∀ root ∈ ["d", "l", "l/"], ∀ place ∈ (Host.Node.directory linkedRootChildren).places,
      (Bytes.ofText root ++ place.flatMap (Host.slash :: ·)).length ≤ Host.longestPath := by decide
  have short : ∀ root ∈ ["d", "l", "l/"],
      ∀ path ∈ Settings.candidateDirectories {} ++ Settings.rulesPaths {},
        (linkedRootEnvironment.view root).Takes path := by
    unfold Host.View.Takes
    decide +kernel
  have evaluated : (["d", "l", "l/"].all fun root =>
      (Settings.candidateDirectories {} ++ Settings.rulesPaths {}).all fun path =>
        [true, false].all fun follows => decide
          (((linkedRootEnvironment.view root).resolve follows path).map (fun _ => ()) ≠
            .error .linkLoop)) = true := by
    decide +kernel
  have noLoop : ∀ root ∈ ["d", "l", "l/"],
      ∀ path ∈ Settings.candidateDirectories {} ++ Settings.rulesPaths {}, ∀ follows,
        (linkedRootEnvironment.view root).resolve follows path ≠ .error .linkLoop := by
    intro root root_mem path path_mem follows loop
    have follows_mem : follows ∈ [true, false] := by cases follows <;> simp
    have differs := List.all_eq_true.1 (List.all_eq_true.1 (List.all_eq_true.1 evaluated root
      root_mem) path path_mem) follows follows_mem
    rw [loop] at differs
    exact absurd differs (by decide)
  intro other mem
  have other_mem : other ∈ ["d", "l", "l/"] := List.mem_cons_of_mem "d" mem
  constructor
  · intro path path_mem
    refine ⟨iff_of_true (short "d" (by simp) path path_mem) (short other other_mem path path_mem),
      ?_⟩
    intro follows
    exact iff_of_false (noLoop "d" (by simp) path path_mem follows)
      (noLoop other other_mem path path_mem follows)
  · intro names stands
    exact iff_of_true
      (Host.View.takes_of_places (small "d" (by simp)) sound_linkedRootChildren stands)
      (Host.View.takes_of_places (small other other_mem) sound_linkedRootChildren stands)

theorem place_linkedRootEnvironment : ∀ other ∈ ["l", "l/"],
    linkedRootEnvironment.tree.place? true linkedRootEnvironment.working (Bytes.ofText other) =
      linkedRootEnvironment.tree.place? true linkedRootEnvironment.working (Bytes.ofText "d") := by
  simp only [List.forall_mem_cons]
  exact ⟨rfl, rfl, by simp⟩

theorem stat_linkedRootEnvironment :
    linkedRootEnvironment.tree.stat linkedRootEnvironment.working (Bytes.ofText "d") =
      .ok (.directory linkedRootChildren) :=
  rfl

theorem exists_report_linkedRootJob :
    ∃ report, linkedRootEnvironment.report linkedRootJob "d" = .ok report := by
  have loaded : (linkedRootEnvironment.view "d").fileSystem.loadTable linkedRootJob.settings =
      .ok ("CODEOWNERS", ⟨[]⟩) := by with_unfolding_all rfl
  have readable : (linkedRootEnvironment.view "d").Readable
      (Host.Node.directory linkedRootChildren).chart linkedRootJob.settings.skippedNames :=
    Host.View.readable_of_places (by decide) sound_linkedRootChildren _
  rcases Report.exists_of_readable sound_linkedRootEnvironment stat_linkedRootEnvironment readable
    ⟨[]⟩ linkedRootJob.excludes? "" "" with ⟨report, reported⟩
  refine ⟨report, ?_⟩
  change Report.generate _ linkedRootJob.settings _ _ _ = _
  rw [Report.generate, loaded]
  exact reported

theorem exists_run_linkedRootEnvironment : ∃ report : Report,
    linkedRootEnvironment.run ["d"] = ⟨0, report.write .json ++ "\n", ""⟩ := by
  have read : readArguments {} ["d"] = .ok (.report { ({} : Arguments) with roots := ["d"] }) := by
    decide
  rcases exists_report_linkedRootJob with ⟨report, reported⟩
  refine ⟨report, ?_⟩
  rw [run_of_single_root prepares_linkedRootJob read, reported]
  simp [printReports, linkedRootJob]

/-- A link with a slash behind it is entered. -/
theorem run_eq_of_same_root_respelled : ∃ report : Report,
    linkedRootEnvironment.run ["d"] = ⟨0, report.write .json ++ "\n", ""⟩ ∧
      linkedRootEnvironment.run ["l/"] = linkedRootEnvironment.run ["d"] := by
  have unlinked : ¬(linkedRootEnvironment.view "d").HasLinkedRoot :=
    Host.View.not_hasLinkedRoot_of_stat stat_linkedRootEnvironment
  have otherUnlinked : ¬(linkedRootEnvironment.view "l/").HasLinkedRoot := by
    have atRoot : linkedRootEnvironment.tree.stat [] (Bytes.ofText "l/") =
        .ok (.directory linkedRootChildren) := rfl
    exact Host.View.not_hasLinkedRoot_of_stat atRoot
  rcases exists_run_linkedRootEnvironment with ⟨report, printed⟩
  have limits : (linkedRootEnvironment.view "d").LimitsAgree "l/" (Arguments.settings {})
      linkedRootChildren := limitsAgree_linkedRootEnvironment "l/" (by simp)
  have same := (run_eq_of_same_root sound_linkedRootEnvironment
    (list_linkedRootEnvironment "d" (by simp)) (place_linkedRootEnvironment "l/" (by simp))).1
    limits (iff_of_false unlinked otherUnlinked)
  refine ⟨report, printed, ?_⟩
  rcases same.2 ["d"] ["l/"] (by decide) (by decide) with equal | ⟨failure, failed, _⟩
  · exact equal
  · exact absurd (printed.symm.trans failed) (by simp)

/-- The job of a run to which the rules file is given by its path through the directory. -/
def linkedRootGivenJob : Job :=
  ⟨{ rulesFile := some "d/CODEOWNERS" }, {}, .json, some ⟨[]⟩, []⟩

theorem report_linkedRootGivenJob : linkedRootEnvironment.report linkedRootGivenJob "l" =
    .ok (Report.ofSummary "" "" (CoverageSummary.ofCounts 0 1)) := by
  have counted : ((linkedRootEnvironment.view "l").traversal [".git"]).run
      (Tally.visitor ⟨[]⟩ fun path test => (linkedRootGivenJob.settings.isRulesPath path ||
        (linkedRootGivenJob.arguments.rulesFile.bind
          (linkedRootEnvironment.view "l").pathWithin? == some path ||
            linkedRootGivenJob.excludes? path), test)) ⟨0, 0, ()⟩ = (.ok (), ⟨1, 0, ()⟩) := by
    with_unfolding_all rfl
  rw [Host.View.traversal] at counted
  simp only [Environment.report, linkedRootGivenJob] at counted ⊢
  simp only [Report.ofTable, Traversal.coverage, Traversal.coverageWith, counted]
  rfl

/-- Behind the link no rules file is found: the candidates are looked up from the link itself. -/
theorem run_linkedRootEnvironment_code : (linkedRootEnvironment.run ["l"]).code = 1 := by
  have read : readArguments {} ["l"] = .ok (.report { ({} : Arguments) with roots := ["l"] }) := by
    decide
  have unloaded : (linkedRootEnvironment.view "l").fileSystem.loadTable linkedRootJob.settings =
      .error (.noRulesFile "CODEOWNERS" [".", "docs", ".github"]) := by with_unfolding_all rfl
  have unreported : linkedRootEnvironment.report linkedRootJob "l" =
      .error (.noRulesFile "CODEOWNERS" [".", "docs", ".github"]) := by
    change Report.generate _ linkedRootJob.settings _ _ _ = _
    rw [Report.generate, unloaded]
  rw [run_of_single_root prepares_linkedRootJob read, unreported]
  rfl

/-- Where the link itself is the root, no rules file is found in the directory. With the rules file
given, the link is all that is counted. -/
theorem run_differs_at_linked_root :
    linkedRootEnvironment.tree.Sound ∧
    (∀ root ∈ ["d", "l"], linkedRootEnvironment.tree.list linkedRootEnvironment.working
      (Bytes.ofText root) = .ok linkedRootChildren) ∧
    linkedRootEnvironment.tree.place? true linkedRootEnvironment.working (Bytes.ofText "l") =
      linkedRootEnvironment.tree.place? true linkedRootEnvironment.working (Bytes.ofText "d") ∧
    (linkedRootEnvironment.view "d").LimitsAgree "l" {} linkedRootChildren ∧
    (∃ report : Report,
      linkedRootEnvironment.run ["d"] = ⟨0, report.write .json ++ "\n", ""⟩) ∧
    (linkedRootEnvironment.run ["l"]).code = 1 ∧
    ∃ job report,
      linkedRootEnvironment.prepare { rulesFile := some "d/CODEOWNERS" } = .ok job ∧
      linkedRootEnvironment.report job "l" = .ok report ∧ report.Counts ⟨[]⟩ [Path.root] := by
  have prepared : linkedRootEnvironment.prepare { rulesFile := some "d/CODEOWNERS" } =
      .ok linkedRootGivenJob := rfl
  refine ⟨sound_linkedRootEnvironment, ?_, place_linkedRootEnvironment "l" (by simp),
    limitsAgree_linkedRootEnvironment "l" (by simp), exists_run_linkedRootEnvironment,
    run_linkedRootEnvironment_code, linkedRootGivenJob, _, prepared, report_linkedRootGivenJob, rfl,
    by decide⟩
  intro root mem
  exact list_linkedRootEnvironment root (List.mem_append_left ["l/"] mem)

end Alike

end CommandLine

end OwnerCoverage
