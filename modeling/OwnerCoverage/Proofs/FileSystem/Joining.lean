import OwnerCoverage.Proofs.FileSystem.Additivity

/-!
# Paths of children

A traversal makes the path of a child by joining the child's name to the path of its directory,
which may be spelled in any way. Joining adds the names of what is joined, so the path leads to what
the listing of the directory tells: the child of that name, and of that kind
(`join_leads_to_children`).
-/

namespace OwnerCoverage

namespace MemoryTree

variable {tree : MemoryTree} {path name : String} {children : List Entry}

/-- Where nothing is made to fail, what a listing tells of a child is what stands at its path. -/
theorem stat_join_of_lists (wellFormed : tree.WellFormed) (intact : tree.catalog.Intact)
    (lists : tree.contents.chart.Lists (Path.names path) children) {child : Entry}
    (mem : child ∈ children) : tree.stat (Path.join path child.name) = .ok child := by
  have stands := (lists.mem_iff child).1 mem
  have placed : tree.contents.chart (Path.names path ++ [child.name]) ≠ none := by
    rw [stands]
    exact Option.some_ne_none _
  have listed := wellFormed.grounded.listed placed child.name (by simp)
  have answer := wellFormed.answers.stat (Path.join path child.name) (by simp [intact.stats])
  rcases Option.map_eq_some_iff.1 stands with ⟨content, here, kind⟩
  have found : tree.catalog.contents (Path.names (Path.join path child.name)) = some content := by
    rw [Path.names_join, Path.names_of_isListed listed]
    exact here
  rw [found, Path.baseName_join path listed] at answer
  simpa only [kind] using answer

theorem exists_lists_of_directory (wellFormed : tree.WellFormed) (intact : tree.catalog.Intact)
    (directory : tree.stat path = .ok ⟨name, .directory⟩) :
    ∃ children, tree.list path = .ok children ∧
      tree.contents.chart.Lists (Path.names path) children := by
  have answer := wellFormed.answers.list path (by simp [intact.lists])
  have here : tree.catalog.contents (Path.names path) = some .directory :=
    Contents.chart_eq_directory_iff.1 (chart_eq_directory_of_stat directory)
  rw [here] at answer
  exact answer

/-- Joining adds the names of what is joined to those of the base, in any spelling of both. So a
name joined to a canonical base is the last name of a canonical path; and wherever directories and
files are made and nothing is made to fail, each path of a directory has a listing, and each child
that it tells of stands at its joined path. -/
theorem join_leads_to_children :
    (∀ base name, Path.names (Path.join base name) = Path.names base ++ Path.names name) ∧
    (∀ base name, Path.canonical base = base → Path.IsListed name →
      Path.canonical (Path.join base name) = Path.join base name ∧
        Path.baseName (Path.join base name) = name) ∧
    ∀ operations : List Operation, (∀ operation ∈ operations, Catalog.Builds operation) →
      ∀ path name, (ofOperations operations).stat path = .ok ⟨name, .directory⟩ →
        ∃ children, (ofOperations operations).list path = .ok children ∧
          ∀ child ∈ children,
            (ofOperations operations).stat (Path.join path child.name) = .ok child := by
  refine ⟨Path.names_join, ?_, ?_⟩
  · intro base name canonical listed
    exact ⟨Path.canonical_join canonical listed, Path.baseName_join base listed⟩
  · intro operations builds path name directory
    have wellFormed := wellFormed_ofOperations operations
    have intact := intact_catalog_ofOperations builds
    rcases exists_lists_of_directory wellFormed intact directory with ⟨children, list, lists⟩
    exact ⟨children, list, fun _ mem => stat_join_of_lists wellFormed intact lists mem⟩

theorem join_leads_to_children_respelled :
    Path.canonical "a/f" = "a/f" ∧ Path.IsListed "..." ∧
    (∀ operation ∈ sampleNested, Catalog.Builds operation) ∧
    (ofOperations sampleNested).stat "./a//" = .ok ⟨"a", .directory⟩ ∧
    Path.names (Path.join "./a//" "b/./c") = ["a", "b", "c"] ∧
    Path.canonical (Path.join "a/f" "...") = Path.join "a/f" "..." ∧
    (ofOperations sampleNested).stat (Path.join "./a//" "d") = .ok ⟨"d", .file⟩ := by
  have canonical : Path.canonical "a/f" = "a/f" := by decide
  have listed : Path.IsListed "..." := ⟨by decide, by decide⟩
  have builds : ∀ operation ∈ sampleNested, Catalog.Builds operation := by
    simp [sampleNested, Catalog.Builds]
  have directory : (ofOperations sampleNested).stat "./a//" = .ok ⟨"a", .directory⟩ := by
    decide +kernel
  rcases join_leads_to_children with ⟨names, joins, leads⟩
  refine ⟨canonical, listed, builds, directory, ?_, (joins "a/f" "..." canonical listed).1, ?_⟩
  · rw [names]
    decide
  · rcases leads sampleNested builds "./a//" "a" directory with ⟨children, list, stands⟩
    have listing : (ofOperations sampleNested).list "./a//" =
        .ok [⟨".git", .directory⟩, ⟨"b", .directory⟩, ⟨"d", .file⟩, ⟨"f", .directory⟩] := by
      decide +kernel
    rw [listing, Except.ok.injEq] at list
    subst list
    exact stands ⟨"d", .file⟩ (by simp)

end MemoryTree

end OwnerCoverage
