import Mathlib.Algebra.GroupWithZero.Nat
import OwnerCoverage.Proofs.FileSystem.Walk
import OwnerCoverage.Proofs.Traversal.Subtree

/-!
# Counting part by part

On a tree in memory whose answers do not fail, counting may start at any directory. It comes to the
sum of what is counted from each of its children, except for the directories that are passed over
(`coverage_additive`). A path means the same to a table and to an exclusion test wherever the
counting starts.
-/

namespace OwnerCoverage

open Traversal (leafPaths)

namespace Traversal

variable {table : RuleTable} {excluded : String → Bool} {whole : List (PendingNode × Finding)}
  {parts : List (List (PendingNode × Finding))}

theorem total_counted (leaves : leafPaths whole = parts.flatMap leafPaths) :
    (counted table excluded whole).total =
      ((parts.map (counted table excluded)).map CoverageSummary.total).sum := by
  have total (entries : List (PendingNode × Finding)) : (counted table excluded entries).total =
      ((leafPaths entries).filter fun path => !excluded path).length := rfl
  rw [total, leaves, List.filter_flatMap, List.length_flatMap, List.map_map]
  rfl

theorem covered_counted (leaves : leafPaths whole = parts.flatMap leafPaths) :
    (counted table excluded whole).covered =
      ((parts.map (counted table excluded)).map CoverageSummary.covered).sum := by
  have covered (entries : List (PendingNode × Finding)) : (counted table excluded entries).covered =
      (((leafPaths entries).filter fun path => !excluded path).filter table.covers).length := rfl
  rw [covered, leaves, List.filter_flatMap, List.filter_flatMap, List.length_flatMap, List.map_map]
  rfl

end Traversal

namespace MemoryTree

variable {tree : MemoryTree} {operations : List Operation} {path name : String}

theorem chart_eq_directory_of_stat (directory : tree.stat path = .ok ⟨name, .directory⟩) :
    tree.contents.chart (Path.names path) = some .directory := by
  rcases (stat_eq_ok_iff.1 directory).2 with ⟨node, found, entry_eq⟩
  rw [Entry.mk.injEq] at entry_eq
  rcases node?_eq_some_iff.1 found with ⟨index, follow, atIndex⟩
  exact chart_eq_some_iff.2 ⟨index, node, follow, atIndex, entry_eq.2.symm⟩

/-- An intact tree answers at all its places. -/
theorem exists_answers (wellFormed : tree.WellFormed) (intact : tree.catalog.Intact)
    {names : List String} (stands : tree.contents.chart names ≠ none) :
    ∃ entry, tree.stat (Path.ofNames names) = .ok entry ∧
      (entry.kind = .directory → ∃ children, tree.list (Path.ofNames names) = .ok children) := by
  rcases exists_stat_of_intact wellFormed intact stands with ⟨⟨name, kind⟩, stat⟩
  refine ⟨⟨name, kind⟩, stat, ?_⟩
  rintro rfl
  have directory := chart_eq_directory_of_stat stat
  rw [Path.names_ofNames (wellFormed.grounded.listed stands)] at directory
  exact exists_list_of_intact wellFormed intact directory

/-- Whatever directories and files are made, what is counted from a directory is the sum of what is
counted from its children, directories to be passed over left out. All these counts succeed. -/
theorem coverage_additive (builds : ∀ operation ∈ operations, Catalog.Builds operation)
    (skipped : List String) (table : RuleTable) (excluded : String → Bool)
    (canonical : Path.canonical path = path)
    (directory : (ofOperations operations).stat path = .ok ⟨name, .directory⟩) :
    ∃ children summary parts, (ofOperations operations).list path = .ok children ∧
      (((ofOperations operations).traversal skipped).startingAt path).coverage table excluded =
        .ok summary ∧
      List.Forall₂
        (fun child part => (((ofOperations operations).traversal skipped).startingAt
          (Path.join path child.name)).coverage table excluded = .ok part)
        (children.filter fun child => !(child.isDirectory && skipped.contains child.name)) parts ∧
      summary.total = (parts.map CoverageSummary.total).sum ∧
      summary.covered = (parts.map CoverageSummary.covered).sum := by
  have wellFormed := wellFormed_ofOperations operations
  have intact := intact_catalog_ofOperations builds
  have here := chart_eq_directory_of_stat directory
  rcases @Chart.exists_parts ((ofOperations operations).traversal skipped) _ _ wellFormed.follows
    wellFormed.grounded _ wellFormed.withinLimit
    (fun _ stands => exists_answers wellFormed intact stands) here with
    ⟨children, whole, parts, list, tells, tellsParts, leaves⟩
  have path_eq : Path.ofNames (Path.names path) = path := canonical
  rw [path_eq] at list tells tellsParts
  refine ⟨children, _, parts.map (Traversal.counted table excluded), list,
    Traversal.coverage_of_part tells le_rfl table excluded, ?_,
    Traversal.total_counted leaves, Traversal.covered_counted leaves⟩
  rw [List.forall₂_map_right_iff]
  refine tellsParts.imp ?_
  intro child part told
  exact Traversal.coverage_of_part told le_rfl table excluded

/-- A directory with an empty directory in it, one to pass over, one with two files, and a file. -/
def sampleNested : List Operation :=
  [.writeFile "a/b/c" "", .writeFile "a/b/e" "", .writeFile "a/d" "", .createDirectory "a/f",
    .writeFile "a/.git/h" "", .writeFile "g" ""]

theorem coverage_additive_sample :
    (∀ operation ∈ sampleNested, Catalog.Builds operation) ∧ Path.canonical "a" = "a" ∧
    (ofOperations sampleNested).stat "a" = .ok ⟨"a", .directory⟩ ∧
    ∃ table parts, RuleTable.ofLines ["b/ @x", "e"] = .ok table ∧
      List.Forall₂
        (fun (child : Entry) part => (((ofOperations sampleNested).traversal [".git"]).startingAt
          (Path.join "a" child.name)).coverage table (fun _ => false) = .ok part)
        [⟨"b", .directory⟩, ⟨"d", .file⟩, ⟨"f", .directory⟩] parts ∧
      (parts.map CoverageSummary.total).sum = 3 ∧ (parts.map CoverageSummary.covered).sum = 1 := by
  have builds : ∀ operation ∈ sampleNested, Catalog.Builds operation := by
    simp [sampleNested, Catalog.Builds]
  have directory : (ofOperations sampleNested).stat "a" = .ok ⟨"a", .directory⟩ := by decide +kernel
  have evaluated : ((RuleTable.ofLines ["b/ @x", "e"]).toOption.map fun table =>
      ((((ofOperations sampleNested).traversal [".git"]).startingAt "a").coverage table
        fun _ => false).toOption.map (fun summary => (summary.total, summary.covered)) ==
          some (3, 1)) = some true := by decide +kernel
  rcases RuleTable.exists_of_ofLines_map evaluated with ⟨table, built, holds⟩
  refine ⟨builds, by decide, directory, table, ?_⟩
  rcases coverage_additive builds [".git"] table (fun _ => false) (by decide) directory with
    ⟨children, summary, parts, list, counted, tells, total, covered⟩
  have listed : (ofOperations sampleNested).list "a" =
      .ok [⟨".git", .directory⟩, ⟨"b", .directory⟩, ⟨"d", .file⟩, ⟨"f", .directory⟩] := by
    decide +kernel
  rw [listed, Except.ok.injEq] at list
  subst list
  rw [counted] at holds
  simp only [Except.toOption, Option.map_some, beq_iff_eq, Option.some.injEq,
    Prod.mk.injEq] at holds
  exact ⟨parts, built, tells, total ▸ holds.1, covered ▸ holds.2⟩

end MemoryTree

end OwnerCoverage
