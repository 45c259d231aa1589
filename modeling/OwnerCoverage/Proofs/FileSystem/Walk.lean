import OwnerCoverage.Proofs.Coverage.Counting
import OwnerCoverage.Proofs.FileSystem.Catalog
import OwnerCoverage.Proofs.Traversal.Charted

/-!
# Traversals of trees in memory

A tree in memory follows the chart of its contents, whose places are no more than its nodes. So a
traversal of it never meets the limit of the file system, and if no answer is made to fail, it
visits exactly the places that the chart and the skipped names tell, each once and in their order
(`traversal_covers_ofOperations`).
-/

namespace OwnerCoverage

namespace Chart

variable {traversal : Traversal} {chart : Chart}

theorem leafPaths_sublist (entries : List (PendingNode × Finding)) :
    (Traversal.leafPaths entries).Sublist (entries.map fun entry => entry.1.path) := by
  induction entries with
  | nil => exact .slnil
  | cons entry entries ih =>
      rcases entry with ⟨node, _ | _ | _ | _ | _⟩
      case leaf => exact ih.cons_cons node.path
      all_goals exact ih.cons node.path

theorem nodup_leafPaths (grounded : chart.Grounded) {places : List (List String)}
    (outlines : chart.Outlines traversal [place []] places) :
    (Traversal.leafPaths (entriesAt traversal places)).Nodup := by
  apply (leafPaths_sublist (entriesAt traversal places)).nodup
  rw [entriesAt, List.map_map]
  exact nodup_map_ofNames grounded outlines.increasing outlines.stand

/-- If no answer fails, the leaves of an outline are what is visited and is no directory. -/
theorem mem_leafPaths_iff (follows : traversal.fileSystem.Follows chart)
    (grounded : chart.Grounded) (root : chart [] ≠ none) (start : traversal.start = Path.root)
    {places : List (List String)} (outlines : chart.Outlines traversal [place []] places)
    (sees : ∀ node, traversal.Reaches (place []) node → traversal.Sees node) {path : String} :
    path ∈ Traversal.leafPaths (entriesAt traversal places) ↔
      ∃ names, Path.ofNames names = path ∧ chart.Visits traversal.skippedNames names ∧
        chart names ≠ some .directory := by
  have atRoot : (⟨traversal.start, 0⟩ : PendingNode) = place [] := by rw [start]; rfl
  rw [Traversal.mem_leafPaths_iff (atRoot ▸ outlines.outline), atRoot]
  constructor
  · rintro ⟨node, entry, reaches, rfl, stat, leaf⟩
    rcases exists_reached_of_reaches follows grounded (reached_nil root) reaches with
      ⟨names, rfl, reached⟩
    rcases Option.ne_none_iff_exists'.1 reached.stands with ⟨kind, here⟩
    have entry_eq := follows.stat here stat
    subst entry_eq
    have noDirectory : chart names ≠ some .directory := by simpa [here] using leaf
    refine ⟨names, rfl, (visits_iff_reached grounded).2 ⟨reached, ?_⟩, noDirectory⟩
    intro directory
    exact absurd directory noDirectory
  · rintro ⟨names, rfl, visits, noDirectory⟩
    have reached := ((visits_iff_reached grounded).1 visits).1
    have reaches := reaches_place follows grounded sees reached
    rcases sees _ reaches with ⟨entry, stat, _⟩
    rcases Option.ne_none_iff_exists'.1 reached.stands with ⟨kind, here⟩
    have entry_eq := follows.stat here stat
    refine ⟨place names, entry, reaches, rfl, stat, ?_⟩
    subst entry_eq
    simpa [here] using noDirectory

/-- What is counted is found among the visited leaves, each of which has one path, and whose stats
succeed. -/
theorem exists_leaves_of_coverage (follows : traversal.fileSystem.Follows chart)
    (grounded : chart.Grounded) (within : chart.Within traversal.fileSystem.visitLimit)
    (root : chart [] ≠ none) (start : traversal.start = Path.root) {table : RuleTable}
    {excluded : String → Bool} {summary : CoverageSummary}
    (counted : traversal.coverage table excluded = .ok summary) :
    ∃ leaves : List String, leaves.Nodup ∧
      (∀ path, path ∈ leaves ↔ ∃ names, Path.ofNames names = path ∧
        chart.Visits traversal.skippedNames names ∧ chart names ≠ some .directory) ∧
      (∀ path ∈ leaves, ∃ entry, traversal.fileSystem.stat path = .ok entry) ∧
      summary = CoverageSummary.ofCounts
        ((leaves.filter fun path => !excluded path).filter table.covers).length
        (leaves.filter fun path => !excluded path).length := by
  have atRoot : (⟨traversal.start, 0⟩ : PendingNode) = place [] := by rw [start]; rfl
  rcases exists_outline follows grounded within root with ⟨places, outlines, room⟩
  rcases Traversal.coverage_of_outline (atRoot ▸ outlines.outline) room counted with
    ⟨sees, summary_eq⟩
  rw [atRoot] at sees
  refine ⟨_, nodup_leafPaths grounded outlines, ?_, ?_, summary_eq⟩
  · intro path
    exact mem_leafPaths_iff follows grounded root start outlines sees
  · intro path mem
    rcases (Traversal.mem_leafPaths_iff (atRoot ▸ outlines.outline)).1 mem with
      ⟨_, entry, _, _, stat, _⟩
    exact ⟨entry, stat⟩

end Chart

namespace MemoryTree

/-- The walk over a tree in memory, from its root. -/
def traversal (tree : MemoryTree) (skippedNames : List String) : Traversal :=
  { fileSystem := tree.fileSystem, skippedNames := skippedNames }

variable {tree : MemoryTree} {skipped : List String}

namespace WellFormed

theorem follows (wellFormed : tree.WellFormed) :
    tree.fileSystem.Follows tree.contents.chart := by
  constructor
  case join => rfl
  case stat =>
    intro names kind entry here stat
    have stands : tree.contents.chart names ≠ none := by simp [here]
    have read := Path.names_ofNames (wellFormed.grounded.listed stands)
    rcases chart_eq_some_iff.1 here with ⟨index, node, follow, atIndex, rfl⟩
    rcases (stat_eq_ok_iff.1 stat).2 with ⟨found, atPath, rfl⟩
    rw [node?, read, follow, Option.bind_some, atIndex, Option.some.injEq] at atPath
    rw [Path.baseName, read, atPath]
  case list =>
    intro names entries directory list
    have stands : tree.contents.chart names ≠ none := by simp [directory]
    have read := Path.names_ofNames (wellFormed.grounded.listed stands)
    rcases (list_eq_ok_iff.1 list).2 with ⟨index, children, follow, listed, rfl⟩
    exact wellFormed.lists_childEntries (read ▸ follow) listed

theorem withinLimit (wellFormed : tree.WellFormed) :
    tree.contents.chart.Within tree.fileSystem.visitLimit :=
  wellFormed.within.mono (Nat.le_succ tree.nodes.size)

theorem chart_root (wellFormed : tree.WellFormed) : tree.contents.chart [] ≠ none := by
  simp [Contents.chart, wellFormed.contents_root]

end WellFormed

section Files

/-- A file that a traversal visits, under its canonical path: no directory above it is passed
over. -/
structure VisitsFile (tree : MemoryTree) (skipped : List String) (path : String) : Prop where
  canonical : Path.canonical path = path
  file : ∃ name text, tree.node? path = some ⟨name, .file text⟩
  entered : ∀ name ∈ (Path.names path).dropLast, name ∉ skipped

theorem kind_ne_directory_iff {node : TreeNode} :
    node.kind ≠ .directory ↔ ∃ name text, node = ⟨name, .file text⟩ := by
  rcases node with ⟨name, text | children⟩ <;> simp [TreeNode.kind]

/-- The files are the places that are visited and hold no directory. -/
theorem visitsFile_iff (wellFormed : tree.WellFormed) {path : String} :
    tree.VisitsFile skipped path ↔
      ∃ names, Path.ofNames names = path ∧ tree.contents.chart.Visits skipped names ∧
        tree.contents.chart names ≠ some .directory := by
  constructor
  · rintro ⟨canonical, ⟨name, text, file⟩, entered⟩
    rcases node?_eq_some_iff.1 file with ⟨index, follow, atIndex⟩
    have here : tree.contents.chart (Path.names path) = some .file :=
      chart_eq_some_iff.2 ⟨index, _, follow, atIndex, rfl⟩
    refine ⟨Path.names path, canonical, ⟨by simp [here], ?_⟩, by simp [here]⟩
    rintro above last ⟨rest, split⟩ directory
    have longer : rest ≠ [] := by
      rintro rfl
      rw [List.append_nil] at split
      simp [← split, directory] at here
    apply entered
    rw [← split, List.dropLast_append_of_ne_nil longer]
    simp
  · rintro ⟨names, rfl, ⟨stands, entered⟩, leaf⟩
    have read := Path.names_ofNames (wellFormed.grounded.listed stands)
    rcases Option.ne_none_iff_exists'.1 stands with ⟨kind, here⟩
    rcases chart_eq_some_iff.1 here with ⟨index, node, follow, atIndex, rfl⟩
    have noDirectory : node.kind ≠ .directory := by simpa [here] using leaf
    rcases kind_ne_directory_iff.1 noDirectory with ⟨name, text, rfl⟩
    refine ⟨by rw [Path.canonical, read], ⟨name, text, ?_⟩, ?_⟩
    · rw [node?_eq_some_iff, read]
      exact ⟨index, follow, atIndex⟩
    · rw [read]
      intro last mem
      rcases List.eq_nil_or_concat' names with rfl | ⟨before, final, rfl⟩
      · simp at mem
      · rw [List.dropLast_concat] at mem
        rcases List.append_of_mem mem with ⟨above, between, rfl⟩
        have split : above ++ last :: between ++ [final] =
            above ++ [last] ++ (between ++ [final]) := by simp
        apply entered above last ⟨_, split.symm⟩
        rw [split] at stands
        exact wellFormed.grounded.directory_of_append (by simp) stands

end Files

section Covering

variable {operations : List Operation}

theorem exists_stat_of_intact (wellFormed : tree.WellFormed) (intact : tree.catalog.Intact)
    {names : List String} (stands : tree.contents.chart names ≠ none) :
    ∃ entry, tree.stat (Path.ofNames names) = .ok entry := by
  apply wellFormed.answers.exists_stat intact.stats
  rwa [Path.names_ofNames (wellFormed.grounded.listed stands)]

theorem exists_list_of_intact (wellFormed : tree.WellFormed) (intact : tree.catalog.Intact)
    {names : List String} (directory : tree.contents.chart names = some .directory) :
    ∃ children, tree.list (Path.ofNames names) = .ok children := by
  have stands := Option.ne_none_iff_exists'.2 ⟨_, directory⟩
  apply wellFormed.answers.exists_list intact.lists
  rwa [Path.names_ofNames (wellFormed.grounded.listed stands)]

/-- A traversal of a tree whose answers are not made to fail sees all that it reaches. -/
theorem sees_of_intact (wellFormed : tree.WellFormed) (intact : tree.catalog.Intact) :
    ∀ node, (tree.traversal skipped).Reaches (Chart.place []) node →
      (tree.traversal skipped).Sees node := by
  apply Chart.sees_of_answers wellFormed.follows wellFormed.grounded wellFormed.chart_root
  · intro names reached
    exact exists_stat_of_intact wellFormed intact reached.stands
  · intro names _ directory
    exact exists_list_of_intact wellFormed intact directory

/-- Whatever directories and files are made, by operations some of which may fail, a traversal that
always goes on ends without an error. It visits the root and all nodes that neither are nor stand
below a directory that is passed over, each once, in the order of their places. -/
theorem traversal_covers_ofOperations
    (builds : ∀ operation ∈ operations, Catalog.Builds operation) (skipped : List String) :
    ∃ places, (ofOperations operations).contents.chart.Covers skipped places ∧
      ∀ {σ : Type} (note : σ → Visit → σ) (state : σ) (limit : Nat),
        (ofOperations operations).fileSystem.visitLimit ≤ limit →
          ((ofOperations operations).traversal skipped).runWithin limit (Traversal.noting note)
              state =
            (.ok (), (places.map (ofOperations operations).contents.chart.visit).foldl note
              state) := by
  have wellFormed := wellFormed_ofOperations operations
  exact Chart.exists_covers wellFormed.follows wellFormed.grounded wellFormed.withinLimit
    wellFormed.chart_root rfl (sees_of_intact wellFormed (intact_catalog_ofOperations builds))

/-- A directory whose name starts the name of a file beside it, and a directory to pass over. -/
def sampleBuild : List Operation :=
  [.writeFile "a.txt" "", .writeFile "a/b" "1", .writeFile "a.txt/c" "", .createDirectory ".git/d"]

theorem traversal_covers_ofOperations_sample :
    (∀ operation ∈ sampleBuild, Catalog.Builds operation) ∧
    ∃ places, (ofOperations sampleBuild).contents.chart.Covers [".git"] places ∧
      places.map Path.ofNames = [".", "a", "a/b", "a.txt"] := by
  have builds : ∀ operation ∈ sampleBuild, Catalog.Builds operation := by
    simp [sampleBuild, Catalog.Builds]
  refine ⟨builds, ?_⟩
  rcases traversal_covers_ofOperations builds [".git"] with ⟨places, covers, run⟩
  refine ⟨places, covers, ?_⟩
  have noted := run (fun paths visit => visit.path :: paths) [] _ le_rfl
  have computed : ((ofOperations sampleBuild).traversal [".git"]).runWithin
      (ofOperations sampleBuild).fileSystem.visitLimit
        (Traversal.noting fun paths visit => visit.path :: paths) [] =
      (.ok (), ["a.txt", "a/b", "a", "."]) := by decide +kernel
  rw [computed, Prod.mk.injEq, List.foldl_flip_cons_eq_append, List.append_nil,
    List.map_map] at noted
  exact (List.reverse_eq_iff.1 noted.2.symm)

end Covering

end MemoryTree

end OwnerCoverage
