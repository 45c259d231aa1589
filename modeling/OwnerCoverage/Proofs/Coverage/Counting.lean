import OwnerCoverage.Coverage.Count
import OwnerCoverage.FileSystem.Scripted
import OwnerCoverage.Proofs.Rules.Lookup
import OwnerCoverage.Proofs.Traversal.Outline

/-!
# What is counted

On a finite traversal the counting is decided by the outline. If every node of it can be seen, each
one that is no directory is put to the exclusion test, in pre-order, and the summary counts those
that the test does not exclude. Otherwise the counting ends with the error of the first node that
cannot be seen. `coverageWith_of_outline` puts this together with what is in an outline.
-/

namespace OwnerCoverage

namespace RuleTable

/-- Whether the last rule that matches a path names an owner. -/
def covers (table : RuleTable) (path : String) : Bool :=
  match (table.matchingRules path).getLast? with
  | none => false
  | some rule => rule.owners != []

theorem covers_eq (table : RuleTable) (path : String) :
    table.covers path = !(table.owners path).isEmpty := by
  rw [covers, owners, decidingRule?_eq_getLast?]
  rcases (table.matchingRules path).getLast? with _ | rule
  · rfl
  · cases owned : rule.owners <;> simp [owned]

end RuleTable

/-- The paths that an exclusion test does not exclude, when it is asked about some paths one after
another, and its last state. -/
def ExclusionTest.retained {τ : Type} (excluded : ExclusionTest τ) :
    List String → τ → List String × τ
  | [], test => ([], test)
  | path :: paths, test =>
      match excluded path test with
      | (true, after) => retained excluded paths after
      | (false, after) =>
          (path :: (retained excluded paths after).1, (retained excluded paths after).2)

namespace Traversal

variable {τ : Type}

/-- The paths of those nodes that are no directories and have a stat. -/
def leafPaths (entries : List (PendingNode × Finding)) : List String :=
  entries.filterMap fun (node, finding) =>
    match finding with
    | .leaf _ => some node.path
    | _ => none

theorem kind_ne_directory {traversal : Traversal} {node : PendingNode} {kind : NodeKind}
    (found : traversal.finding node = .leaf kind) : kind ≠ .directory := by
  cases finds_iff.2 found with
  | leaf _ leaf => exact leaf

section Tallies

variable {table : RuleTable} {excluded : ExclusionTest τ}

/-- The tally after some paths, of which those that are left out are not counted. -/
def tallied (table : RuleTable) (excluded : ExclusionTest τ) (paths : List String)
    (tally : Tally τ) : Tally τ :=
  let (retained, test) := excluded.retained paths tally.test
  ⟨tally.total + retained.length, tally.covered + (retained.filter table.covers).length, test⟩

theorem visitor_leaf {kind : NodeKind} (leaf : kind ≠ .directory) (path : String)
    (tally : Tally τ) : Tally.visitor table excluded ⟨path, some kind, none⟩ tally =
      (.descend, tallied table excluded [path] tally) := by
  have noDirectory : (kind == NodeKind.directory) = false := beq_eq_false_iff_ne.2 leaf
  simp only [Tally.visitor, Visit.isDirectory, Option.some_beq_some, noDirectory, tallied,
    ExclusionTest.retained]
  rcases excluded path tally.test with ⟨_ | _, after⟩
  · have covers := table.covers_eq path
    cases owned : (table.owners path).isEmpty <;> simp_all [Tally.count]
  · simp

theorem retained_append (excluded : ExclusionTest τ) (first second : List String) (test : τ) :
    excluded.retained (first ++ second) test =
      ((excluded.retained first test).1 ++
          (excluded.retained second (excluded.retained first test).2).1,
        (excluded.retained second (excluded.retained first test).2).2) := by
  induction first generalizing test with
  | nil => rfl
  | cons path first ih =>
      simp only [List.cons_append, ExclusionTest.retained]
      rcases excluded path test with ⟨_ | _, after⟩ <;> simp [ih]

theorem tallied_append (first second : List String) (tally : Tally τ) :
    tallied table excluded (first ++ second) tally =
      tallied table excluded second (tallied table excluded first tally) := by
  simp [tallied, retained_append, Nat.add_assoc]

/-- Without a failure all that is no directory is put to the test. -/
theorem visitAll_of_sound {traversal : Traversal} {entries : List (PendingNode × Finding)}
    (found : ∀ entry ∈ entries, entry.2 = traversal.finding entry.1)
    (sound : ∀ entry ∈ entries, entry.2.failure? entry.1 = none) (tally : Tally τ) :
    visitAll (Tally.visitor table excluded) entries tally =
      (.ok (), tallied table excluded (leafPaths entries) tally) := by
  induction entries generalizing tally with
  | nil => simp [visitAll, leafPaths, tallied, ExclusionTest.retained]
  | cons entry entries ih =>
      rcases entry with ⟨node, finding⟩
      rcases List.forall_mem_cons.1 sound with ⟨soundFirst, soundRest⟩
      rcases List.forall_mem_cons.1 found with ⟨foundFirst, foundRest⟩
      cases finding with
      | unknown error => simp [Finding.failure?] at soundFirst
      | unlisted error => simp [Finding.failure?] at soundFirst
      | skipped => exact ih foundRest soundRest tally
      | directory children => exact ih foundRest soundRest tally
      | leaf kind =>
          have leaf := kind_ne_directory foundFirst.symm
          have paths : leafPaths ((node, .leaf kind) :: entries) =
              [node.path] ++ leafPaths entries := rfl
          simp only [visitAll, Finding.visit?, visitor_leaf leaf, Finding.fatal?]
          rw [ih foundRest soundRest, paths, tallied_append]

theorem visitAll_of_failure {traversal : Traversal} {before after : List (PendingNode × Finding)}
    {node : PendingNode} {finding : Finding} {error : TraversalError}
    (found : ∀ entry ∈ before, entry.2 = traversal.finding entry.1)
    (sound : ∀ entry ∈ before, entry.2.failure? entry.1 = none)
    (failure : finding.failure? node = some error) (tally : Tally τ) :
    visitAll (Tally.visitor table excluded) (before ++ (node, finding) :: after) tally =
      (.error error, tallied table excluded (leafPaths before) tally) := by
  rw [visitAll_append, visitAll_of_sound found sound]
  cases finding with
  | unknown reason =>
      simp only [Finding.failure?, Option.some.injEq] at failure
      simp [andThen, visitAll, Finding.visit?, Tally.visitor, Visit.isDirectory, Finding.fatal?,
        failure]
  | unlisted reason =>
      simp only [Finding.failure?, Option.some.injEq] at failure
      simp [andThen, visitAll, Finding.visit?, Tally.visitor, Visit.isDirectory, Finding.fatal?,
        failure]
  | _ => simp [Finding.failure?] at failure

theorem neverPrunes (table : RuleTable) (excluded : ExclusionTest τ) (visit : Visit)
    (tally : Tally τ) : (Tally.visitor table excluded visit tally).1 ≠ .prune := by
  unfold Tally.visitor
  split
  · simp
  · split
    · simp
    · rcases excluded visit.path tally.test with ⟨_ | _, after⟩ <;> simp

end Tallies

section Counts

variable {traversal : Traversal} {outline : List (PendingNode × Finding)}

theorem run_of_outline {σ : Type} {visitor : Visitor σ}
    (neverPrunes : ∀ visit state, (visitor visit state).1 ≠ .prune)
    (finite : traversal.Outline [⟨traversal.start, 0⟩] outline)
    (room : outline.length ≤ traversal.fileSystem.visitLimit) (state : σ) :
    traversal.run visitor state = visitAll visitor outline state :=
  runWithin_of_outline neverPrunes finite room state

theorem first_failure (entries : List (PendingNode × Finding)) :
    (∀ entry ∈ entries, entry.2.failure? entry.1 = none) ∨
      ∃ before node finding after error, entries = before ++ (node, finding) :: after ∧
        (∀ entry ∈ before, entry.2.failure? entry.1 = none) ∧
          finding.failure? node = some error := by
  induction entries with
  | nil => exact Or.inl (by simp)
  | cons entry entries ih =>
      rcases entry with ⟨node, finding⟩
      cases failure : finding.failure? node with
      | some error => exact Or.inr ⟨[], node, finding, entries, error, rfl, by simp, failure⟩
      | none =>
          rcases ih with sound | ⟨before, failing, found, after, error, rfl, sound, failed⟩
          · exact Or.inl (List.forall_mem_cons.2 ⟨failure, sound⟩)
          · refine Or.inr ⟨(node, finding) :: before, failing, found, after, error, rfl, ?_, failed⟩
            exact List.forall_mem_cons.2 ⟨failure, sound⟩

theorem coverageWith_of_sound (finite : traversal.Outline [⟨traversal.start, 0⟩] outline)
    (room : outline.length ≤ traversal.fileSystem.visitLimit)
    (sound : ∀ entry ∈ outline, entry.2.failure? entry.1 = none) (table : RuleTable)
    (excluded : ExclusionTest τ) (test : τ) :
    traversal.coverageWith table excluded test =
      let (retained, after) := excluded.retained (leafPaths outline) test
      (.ok (CoverageSummary.ofCounts (retained.filter table.covers).length retained.length),
        after) := by
  have found : ∀ entry ∈ outline, entry.2 = traversal.finding entry.1 :=
    fun _ mem => ((mem_outline_iff finite).1 mem).1
  simp only [coverageWith, run_of_outline (neverPrunes table excluded) finite room,
    visitAll_of_sound found sound, tallied, Tally.summary, Nat.zero_add]

theorem coverageWith_of_failure {before after : List (PendingNode × Finding)} {node : PendingNode}
    {finding : Finding} {error : TraversalError}
    (finite : traversal.Outline [⟨traversal.start, 0⟩] (before ++ (node, finding) :: after))
    (room : (before ++ (node, finding) :: after).length ≤ traversal.fileSystem.visitLimit)
    (sound : ∀ entry ∈ before, entry.2.failure? entry.1 = none)
    (failure : finding.failure? node = some error) (table : RuleTable) (excluded : ExclusionTest τ)
    (test : τ) : traversal.coverageWith table excluded test =
      (.error error, (excluded.retained (leafPaths before) test).2) := by
  have found : ∀ entry ∈ before, entry.2 = traversal.finding entry.1 :=
    fun _ mem => ((mem_outline_iff finite).1 (List.mem_append_left _ mem)).1
  simp only [coverageWith, run_of_outline (neverPrunes table excluded) finite room,
    visitAll_of_failure found sound failure, tallied]

theorem retained_predicate (excluded : String → Bool) (paths : List String) :
    ExclusionTest.retained (fun path (test : Unit) => (excluded path, test)) paths () =
      (paths.filter fun path => !excluded path, ()) := by
  induction paths with
  | nil => rfl
  | cons path paths ih =>
      rw [ExclusionTest.retained]
      cases asked : excluded path <;> simp [asked, ih]

/-- What is put to the test is what is reached and is no directory. -/
theorem mem_leafPaths_iff (finite : traversal.Outline [⟨traversal.start, 0⟩] outline)
    {path : String} :
    path ∈ leafPaths outline ↔
      ∃ node entry, traversal.Reaches ⟨traversal.start, 0⟩ node ∧ node.path = path ∧
        traversal.fileSystem.stat path = .ok entry ∧ entry.kind ≠ .directory := by
  rw [leafPaths, List.mem_filterMap]
  constructor
  · rintro ⟨⟨node, finding⟩, mem, isLeaf⟩
    rcases (mem_outline_iff finite).1 mem with ⟨found, root, root_mem, reaches⟩
    rw [List.mem_singleton] at root_mem
    subst root_mem
    cases finds_iff.2 found.symm with
    | leaf stat leaf =>
        rw [Option.some.injEq] at isLeaf
        exact ⟨node, _, reaches, isLeaf, isLeaf ▸ stat, leaf⟩
    | _ => simp at isLeaf
  · rintro ⟨node, entry, reaches, rfl, stat, leaf⟩
    refine ⟨(node, .leaf entry.kind), ?_, rfl⟩
    exact (mem_outline_iff finite).2
      ⟨(finds_iff.1 (.leaf stat leaf)).symm, _, List.mem_singleton_self _, reaches⟩

theorem sound_iff (finite : traversal.Outline [⟨traversal.start, 0⟩] outline) :
    (∀ entry ∈ outline, entry.2.failure? entry.1 = none) ↔
      ∀ node, traversal.Reaches ⟨traversal.start, 0⟩ node → traversal.Sees node := by
  constructor
  · intro sound node reaches
    have mem : (node, traversal.finding node) ∈ outline :=
      (mem_outline_iff finite).2 ⟨rfl, _, List.mem_singleton_self _, reaches⟩
    exact failure?_eq_none_iff.1 (sound _ mem)
  · rintro sees ⟨node, finding⟩ mem
    rcases (mem_outline_iff finite).1 mem with ⟨rfl, root, root_mem, reaches⟩
    rw [List.mem_singleton] at root_mem
    subst root_mem
    exact failure?_eq_none_iff.2 (sees node reaches)

theorem coverage_of_outline (finite : traversal.Outline [⟨traversal.start, 0⟩] outline)
    (room : outline.length ≤ traversal.fileSystem.visitLimit) {table : RuleTable}
    {excluded : String → Bool} {summary : CoverageSummary}
    (counted : traversal.coverage table excluded = .ok summary) :
    (∀ node, traversal.Reaches ⟨traversal.start, 0⟩ node → traversal.Sees node) ∧
      summary = CoverageSummary.ofCounts
        (((leafPaths outline).filter fun path => !excluded path).filter table.covers).length
        ((leafPaths outline).filter fun path => !excluded path).length := by
  rw [coverage] at counted
  rcases first_failure outline with
    sound | ⟨before, node, finding, rest, error, rfl, sound, failure⟩
  · rw [coverageWith_of_sound finite room sound, retained_predicate, Except.ok.injEq] at counted
    exact ⟨(sound_iff finite).1 sound, counted.symm⟩
  · rw [coverageWith_of_failure finite room sound failure] at counted
    exact absurd counted (by simp)

/-- What a finite traversal counts, or why it counts nothing. It succeeds exactly if every reached
node can be seen, and ends otherwise with the error of the first one in pre-order that cannot. On
success the exclusion test has been asked of each reached node that is no directory, in pre-order
and of nothing else, and the summary counts those that it does not exclude. -/
theorem coverageWith_of_outline (finite : traversal.Outline [⟨traversal.start, 0⟩] outline)
    (room : outline.length ≤ traversal.fileSystem.visitLimit) (table : RuleTable)
    (excluded : ExclusionTest τ) (test : τ) :
    ((∃ summary after, traversal.coverageWith table excluded test = (.ok summary, after)) ↔
      ∀ node, traversal.Reaches ⟨traversal.start, 0⟩ node → traversal.Sees node) ∧
    (∀ error after, traversal.coverageWith table excluded test = (.error error, after) →
      ∃ before node finding rest, outline = before ++ (node, finding) :: rest ∧
        (∀ entry ∈ before, traversal.Sees entry.1) ∧ traversal.Fails node error ∧
          after = (excluded.retained (leafPaths before) test).2) ∧
    (∀ summary after, traversal.coverageWith table excluded test = (.ok summary, after) →
      ∃ retained, excluded.retained (leafPaths outline) test = (retained, after) ∧
        summary.total = retained.length ∧ summary.covered = (retained.filter table.covers).length ∧
          summary.covered ≤ summary.total) ∧
    ∀ path, path ∈ leafPaths outline ↔
      ∃ node entry, traversal.Reaches ⟨traversal.start, 0⟩ node ∧ node.path = path ∧
        traversal.fileSystem.stat path = .ok entry ∧ entry.kind ≠ .directory := by
  rw [← sound_iff finite]
  rcases first_failure outline with
    sound | ⟨before, node, finding, rest, error, rfl, sound, failure⟩
  · have run := coverageWith_of_sound finite room sound table excluded test
    rcases asked : excluded.retained (leafPaths outline) test with ⟨retained, last⟩
    rw [asked] at run
    refine ⟨⟨fun _ => sound, fun _ => ⟨_, _, run⟩⟩, ?_, ?_, fun path => mem_leafPaths_iff finite⟩
    · intro error after fails
      rw [run] at fails
      exact absurd fails (by simp)
    · intro summary after succeeds
      rw [run, Prod.mk.injEq, Except.ok.injEq] at succeeds
      rcases succeeds with ⟨rfl, rfl⟩
      exact ⟨retained, rfl, rfl, rfl, List.length_filter_le _ retained⟩
  · have run := coverageWith_of_failure finite room sound failure table excluded test
    refine ⟨⟨?_, ?_⟩, ?_, ?_, fun path => mem_leafPaths_iff finite⟩
    · rintro ⟨summary, after, succeeds⟩
      rw [run] at succeeds
      exact absurd succeeds (by simp)
    · intro allSound
      have noFailure := allSound (node, finding) (by simp)
      rw [failure] at noFailure
      exact absurd noFailure (by simp)
    · intro error' after fails
      rw [run, Prod.mk.injEq, Except.error.injEq] at fails
      rcases fails with ⟨rfl, rfl⟩
      have found {entry : PendingNode × Finding} (mem : entry ∈ before ++ (node, finding) :: rest) :
          entry.2 = traversal.finding entry.1 := ((mem_outline_iff finite).1 mem).1
      refine ⟨before, node, finding, rest, rfl, fun entry mem => ?_, ?_, rfl⟩
      · rw [← failure?_eq_none_iff, ← found (List.mem_append_left _ mem)]
        exact sound entry mem
      · have foundNode : finding = traversal.finding node :=
          found (List.mem_append_right before List.mem_cons_self)
        rwa [← failure?_eq_some_iff, ← foundNode]
    · intro summary after succeeds
      rw [run] at succeeds
      exact absurd succeeds (by simp)

/-- A root with a link, a directory that is passed over, and a file. -/
def sampleTraversal : Traversal where
  fileSystem := Script.fileSystem
    { stats := [(".", .ok ⟨".", .directory⟩), ("a", .ok ⟨"a", .symlink⟩),
        (".git", .ok ⟨".git", .directory⟩), ("b", .ok ⟨"b", .file⟩)]
      listings := [(".", .ok [⟨"a", .symlink⟩, ⟨".git", .directory⟩, ⟨"b", .file⟩])]
      texts := [] }
  skippedNames := [".git"]

theorem coverageWith_of_outline_sample : ∃ summary,
    sampleTraversal.coverageWith RuleTable.empty
        (fun path asked => (path == "a", asked ++ [path])) [] =
      (.ok summary, ["a", "b"]) ∧ summary.total = 1 := by
  have root : sampleTraversal.finding ⟨".", 0⟩ =
      .directory [⟨"a", .symlink⟩, ⟨".git", .directory⟩, ⟨"b", .file⟩] := by decide
  have link : sampleTraversal.finding ⟨"a", 1⟩ = .leaf .symlink := by decide
  have skipped : sampleTraversal.finding ⟨".git", 1⟩ = .skipped := by decide
  have file : sampleTraversal.finding ⟨"b", 1⟩ = .leaf .file := by decide
  have finite := outline_cons root
    (outline_cons link .nil (outline_cons skipped .nil (outline_cons file .nil .nil))) .nil
  rcases coverageWith_of_outline finite (by decide) RuleTable.empty
    (fun path asked => (path == "a", asked ++ [path])) [] with ⟨succeeds, _, counts, _⟩
  rcases succeeds.2 ((sound_iff finite).1 (by decide)) with ⟨summary, after, run⟩
  rcases counts summary after run with ⟨retained, asked, total, _⟩
  have asks : (["b"], ["a", "b"]) = (retained, after) := asked
  rw [Prod.mk.injEq] at asks
  rcases asks with ⟨rfl, rfl⟩
  exact ⟨summary, run, total⟩

end Counts

end Traversal

end OwnerCoverage
