import Mathlib.Data.Set.Insert
import OwnerCoverage.Proofs.FileSystem.Contents

/-!
# Trees in memory as catalogs

A catalog is a tree of files without nodes and indices: what stands at each place, and at which
places stats and listings are made to fail. Operations on a tree in memory do to its catalog what
`Catalog.after` says, and fail exactly if the catalog refuses them. So after any operations on the
empty tree its nodes form a tree that represents the catalog of these operations
(`represents_ofOperations`), from which all its answers follow.
-/

namespace OwnerCoverage

/-- What a tree in memory answers, without its arena: what stands where, and where errors are
injected. -/
structure Catalog where
  contents : Contents
  failingStats : Set (List String)
  failingLists : Set (List String)

namespace Catalog

open MemoryTree (Operation)

/-- The catalog in which only the root stands, and nothing fails. -/
def empty : Catalog := ⟨fun names => if names = [] then some .directory else none, ∅, ∅⟩

/-- Whether a catalog refuses an operation. A directory cannot be created where a file stands in the
way. A file cannot be written at the root, where a file stands above it, or where a directory is. -/
def Refuses (catalog : Catalog) : Operation → Prop
  | .createDirectory path => catalog.contents.Blocks (Path.names path)
  | .writeFile path _ => Path.names path = [] ∨ catalog.contents.Blocks (Path.names path).dropLast ∨
      catalog.contents (Path.names path) = some .directory
  | .failStat _ => False
  | .failList _ => False

instance (catalog : Catalog) : (operation : Operation) → Decidable (catalog.Refuses operation)
  | .createDirectory path => inferInstanceAs (Decidable (catalog.contents.Blocks (Path.names path)))
  | .writeFile path _ => inferInstanceAs (Decidable (Path.names path = [] ∨ _ ∨ _))
  | .failStat _ => inferInstanceAs (Decidable False)
  | .failList _ => inferInstanceAs (Decidable False)

/-- The catalog that an operation leaves if it is not refused. -/
def performed (catalog : Catalog) : Operation → Catalog
  | .createDirectory path =>
      { catalog with contents := catalog.contents.withDirectories (Path.names path) }
  | .writeFile path text =>
      { catalog with contents := catalog.contents.withFile (Path.names path) text }
  | .failStat path =>
      { catalog with failingStats := insert (Path.names path) catalog.failingStats }
  | .failList path =>
      { catalog with failingLists := insert (Path.names path) catalog.failingLists }

/-- The catalog after an operation, which changes nothing if it is refused. -/
def after (catalog : Catalog) (operation : Operation) : Catalog :=
  if catalog.Refuses operation then catalog else catalog.performed operation

/-- The catalog that operations leave behind, from an empty one on. -/
def ofOperations (operations : List Operation) : Catalog := operations.foldl after empty

/-- Whether an operation makes a directory or a file, and no answer fail. -/
def Builds : Operation → Prop
  | .createDirectory _ => True
  | .writeFile _ _ => True
  | .failStat _ => False
  | .failList _ => False

/-- Whether no answer is made to fail. -/
structure Intact (catalog : Catalog) : Prop where
  stats : catalog.failingStats = ∅
  lists : catalog.failingLists = ∅

theorem Intact.after {catalog : Catalog} (intact : catalog.Intact) {operation : Operation}
    (builds : Builds operation) : (catalog.after operation).Intact := by
  rw [Catalog.after]
  split
  · exact intact
  · cases operation with
    | createDirectory path => exact ⟨intact.stats, intact.lists⟩
    | writeFile path text => exact ⟨intact.stats, intact.lists⟩
    | failStat path => exact absurd builds not_false
    | failList path => exact absurd builds not_false

theorem intact_ofOperations {operations : List Operation}
    (builds : ∀ operation ∈ operations, Builds operation) : (ofOperations operations).Intact := by
  have run {catalog : Catalog} (intact : catalog.Intact) :
      (operations.foldl after catalog).Intact := by
    induction operations generalizing catalog with
    | nil => exact intact
    | cons operation operations ih =>
        rcases List.forall_mem_cons.1 builds with ⟨buildsFirst, buildsRest⟩
        exact ih buildsRest (intact.after buildsFirst)
  exact run ⟨rfl, rfl⟩

/-- Unless an operation makes a stat fail, none does. -/
theorem failingStats_ofOperations {operations : List Operation}
    (answered : ∀ path, .failStat path ∉ operations) :
    (ofOperations operations).failingStats = ∅ := by
  have run (catalog : Catalog) :
      (operations.foldl after catalog).failingStats = catalog.failingStats := by
    induction operations generalizing catalog with
    | nil => rfl
    | cons operation operations ih =>
        have answeredRest : ∀ path, .failStat path ∉ operations :=
          fun path mem => answered path (List.mem_cons_of_mem operation mem)
        rw [List.foldl_cons, ih answeredRest, after]
        split
        · rfl
        · cases operation with
          | failStat path => exact absurd List.mem_cons_self (answered path)
          | _ => rfl
  exact run empty

end Catalog

namespace MemoryTree

/-- The result of an operation on a tree. -/
def outcome (tree : MemoryTree) : Operation → Except IoError Unit
  | .createDirectory path => (tree.createDirectory path).1
  | .writeFile path text => (tree.writeFile path text).1
  | .failStat _ => .ok ()
  | .failList _ => .ok ()

/-- The places of canonical paths. Every spelling of a path has the same place. -/
def placesOf (paths : List String) : Set (List String) :=
  {names | ∃ path, Path.names path = names ∧ Path.canonical path ∈ paths}

/-- The catalog of a tree. -/
def catalog (tree : MemoryTree) : Catalog :=
  ⟨tree.contents, placesOf tree.failingStats, placesOf tree.failingLists⟩

variable {tree : MemoryTree} {path text : String}

section Operations

theorem makeDirectories_root_of_blocks (wellFormed : tree.WellFormed) {names : List String}
    (blocks : tree.contents.Blocks names) :
    ∃ error, tree.makeDirectories 0 names = (.error error, tree) := by
  have root : tree.follow 0 [] = some 0 := rfl
  exact makeDirectories_of_blocks wellFormed root wellFormed.contents_root blocks

theorem makeDirectories_root_of_not_blocks (wellFormed : tree.WellFormed) {names : List String}
    (listed : ∀ name ∈ names, Path.IsListed name) (free : ¬tree.contents.Blocks names) :
    ∃ last changed, tree.makeDirectories 0 names = (.ok last, changed) ∧
      changed.follow 0 names = some last ∧
        tree.Becomes changed (tree.contents.withDirectories names) := by
  have root : tree.follow 0 [] = some 0 := rfl
  exact makeDirectories_of_not_blocks wellFormed root wellFormed.contents_root listed free

theorem createDirectory_of_blocks (wellFormed : tree.WellFormed)
    (blocks : tree.contents.Blocks (Path.names path)) :
    ∃ error, tree.createDirectory path = (.error error, tree) := by
  rcases makeDirectories_root_of_blocks wellFormed blocks with ⟨error, failed⟩
  exact ⟨error, by simp only [createDirectory, failed]⟩

theorem createDirectory_of_not_blocks (wellFormed : tree.WellFormed)
    (free : ¬tree.contents.Blocks (Path.names path)) :
    ∃ changed, tree.createDirectory path = (.ok (), changed) ∧
      tree.Becomes changed (tree.contents.withDirectories (Path.names path)) := by
  have listed : ∀ name ∈ Path.names path, Path.IsListed name := by
    intro name mem
    exact Path.isListed_of_mem_names mem
  rcases makeDirectories_root_of_not_blocks wellFormed listed free with
    ⟨last, changed, made, _, becomes⟩
  exact ⟨changed, by simp only [createDirectory, made], becomes⟩

theorem writeFile_of_refuses (wellFormed : tree.WellFormed)
    (refuses : tree.catalog.Refuses (.writeFile path text)) :
    ∃ error, tree.writeFile path text = (.error error, tree) := by
  rcases refuses with atRoot | blocks | directory
  · exact ⟨rootIsNoFile, by simp [writeFile, atRoot]⟩
  · rcases makeDirectories_root_of_blocks wellFormed blocks with ⟨error, failed⟩
    cases last : (Path.names path).getLast? with
    | none => exact ⟨rootIsNoFile, by simp only [writeFile, last]⟩
    | some name => exact ⟨error, by simp only [writeFile, last, failed]⟩
  · rcases List.eq_nil_or_concat' (Path.names path) with atRoot | ⟨above, name, split⟩
    · exact ⟨rootIsNoFile, by simp [writeFile, atRoot]⟩
    · have found : tree.contents (above ++ [name]) = some .directory := split ▸ directory
      have parentFound : tree.contents above = some .directory :=
        Contents.directory_of_isPrefix wellFormed.grounded (List.prefix_append above [name]) found
      have root : tree.follow 0 [] = some 0 := rfl
      rcases makeDirectories_of_directory wellFormed root parentFound with ⟨parent, made, here⟩
      have failed := writeChild_of_directory here found path text
      refine ⟨isADirectory path, ?_⟩
      simp only [writeFile, split, List.getLast?_concat, List.dropLast_concat, made]
      exact failed

theorem writeFile_of_not_refuses (wellFormed : tree.WellFormed)
    (free : ¬tree.catalog.Refuses (.writeFile path text)) :
    ∃ changed, tree.writeFile path text = (.ok (), changed) ∧
      tree.Becomes changed (tree.contents.withFile (Path.names path) text) := by
  simp only [Catalog.Refuses, not_or] at free
  rcases free with ⟨notRoot, unblocked, writable⟩
  rcases List.eq_nil_or_concat' (Path.names path) with atRoot | ⟨above, name, split⟩
  · exact absurd atRoot notRoot
  · have listed : ∀ other ∈ above ++ [name], Path.IsListed other := by
      intro other mem
      rw [← split] at mem
      exact Path.isListed_of_mem_names mem
    rcases List.forall_mem_append.1 listed with ⟨listedAbove, listedLast⟩
    rw [split, List.dropLast_concat] at unblocked
    rw [split] at writable ⊢
    rcases makeDirectories_root_of_not_blocks wellFormed listedAbove unblocked with
      ⟨parent, changed, made, here, becomes⟩
    have directory : changed.contents above = some .directory := by
      rw [becomes.contents]
      exact if_pos List.prefix_rfl
    -- The directories that are made stand above the file, so nothing new is in its place.
    have stillWritable : changed.contents (above ++ [name]) ≠ some .directory := by
      have longer : ¬above ++ [name] <+: above := by
        intro starts
        have short := starts.length_le
        simp at short
      rw [becomes.contents, Contents.withDirectories, if_neg longer]
      exact writable
    rcases writeChild_of_not_directory becomes.wellFormed here directory stillWritable
      (listedLast name (List.mem_singleton_self name)) path text with
      ⟨final, written, becomesFinal⟩
    refine ⟨final, ?_, ?_⟩
    · simp only [writeFile, split, List.getLast?_concat, List.dropLast_concat, made, written]
    · rw [becomes.contents] at becomesFinal
      rw [Contents.withFile, List.dropLast_concat]
      exact becomes.trans becomesFinal

theorem Becomes.catalog_eq {changed : MemoryTree} {contents : Contents}
    (becomes : tree.Becomes changed contents) :
    changed.catalog = { tree.catalog with contents := contents } := by
  simp only [catalog, becomes.contents, becomes.failingStats, becomes.failingLists]

theorem names_mem_placesOf_iff {paths : List String} :
    Path.names path ∈ placesOf paths ↔ Path.canonical path ∈ paths := by
  constructor
  · rintro ⟨other, same, mem⟩
    rwa [← Path.canonical_eq_iff.2 same]
  · intro mem
    exact ⟨path, rfl, mem⟩

theorem placesOf_insert (paths : List String) (path : String) :
    placesOf (paths.insert (Path.canonical path)) =
      insert (Path.names path) (placesOf paths) := by
  ext names
  constructor
  · rintro ⟨other, rfl, mem⟩
    rcases List.mem_insert_iff.1 mem with same | mem
    · exact Or.inl (Path.canonical_eq_iff.1 same)
    · exact Or.inr (names_mem_placesOf_iff.2 mem)
  · rintro (rfl | ⟨other, same, mem⟩)
    · exact ⟨path, rfl, List.mem_insert_self⟩
    · exact ⟨other, same, List.mem_insert_of_mem mem⟩

theorem contents_of_nodes {other : MemoryTree} (same : other.nodes = tree.nodes) :
    other.contents = tree.contents := by
  have follow (start : Nat) (names : List String) :
      other.follow start names = tree.follow start names := by
    induction names generalizing start with
    | nil => rfl
    | cons name names ih =>
        rw [follow, follow, childIndex?, childIndex?, children?, children?, same]
        split
        · rfl
        · exact ih _
  funext names
  rw [contents, contents, follow, same]

/-- An operation that the catalog refuses fails, and leaves the tree as it was. -/
theorem perform_of_refuses (wellFormed : tree.WellFormed) {operation : Operation}
    (refuses : tree.catalog.Refuses operation) :
    (∃ error, tree.outcome operation = .error error) ∧ tree.after operation = tree := by
  cases operation with
  | createDirectory path =>
      rcases createDirectory_of_blocks wellFormed refuses with ⟨error, failed⟩
      exact ⟨⟨error, by rw [outcome, failed]⟩, by rw [after, failed]⟩
  | writeFile path text =>
      rcases writeFile_of_refuses wellFormed refuses with ⟨error, failed⟩
      exact ⟨⟨error, by rw [outcome, failed]⟩, by rw [after, failed]⟩
  | failStat path => exact absurd refuses not_false
  | failList path => exact absurd refuses not_false

/-- An operation that the catalog does not refuse succeeds, and does to the tree what it does to the
catalog. -/
theorem perform_of_not_refuses (wellFormed : tree.WellFormed) {operation : Operation}
    (free : ¬tree.catalog.Refuses operation) :
    tree.outcome operation = .ok () ∧
      (tree.after operation).catalog = tree.catalog.performed operation := by
  cases operation with
  | createDirectory path =>
      rcases createDirectory_of_not_blocks wellFormed free with ⟨changed, made, becomes⟩
      exact ⟨by rw [outcome, made], by rw [after, made]; exact becomes.catalog_eq⟩
  | writeFile path text =>
      rcases writeFile_of_not_refuses wellFormed free with ⟨changed, written, becomes⟩
      exact ⟨by rw [outcome, written], by rw [after, written]; exact becomes.catalog_eq⟩
  | failStat path =>
      refine ⟨rfl, ?_⟩
      have contents : (tree.failStat path).contents = tree.contents := contents_of_nodes rfl
      rw [after, catalog, contents]
      exact congrArg (Catalog.mk tree.contents · (placesOf tree.failingLists))
        (placesOf_insert tree.failingStats path)
  | failList path =>
      refine ⟨rfl, ?_⟩
      have contents : (tree.failList path).contents = tree.contents := contents_of_nodes rfl
      rw [after, catalog, contents]
      exact congrArg (Catalog.mk tree.contents (placesOf tree.failingStats))
        (placesOf_insert tree.failingLists path)

theorem outcome_eq_error_iff (wellFormed : tree.WellFormed) (operation : Operation) :
    (∃ error, tree.outcome operation = .error error) ↔ tree.catalog.Refuses operation := by
  by_cases refuses : tree.catalog.Refuses operation
  · exact iff_of_true (perform_of_refuses wellFormed refuses).1 refuses
  · have done := (perform_of_not_refuses wellFormed refuses).1
    exact iff_of_false (by simp [done]) refuses

theorem catalog_after (wellFormed : tree.WellFormed) (operation : Operation) :
    (tree.after operation).catalog = tree.catalog.after operation := by
  rw [Catalog.after]
  split
  · rename_i refuses
    rw [(perform_of_refuses wellFormed refuses).2]
  · rename_i free
    exact (perform_of_not_refuses wellFormed free).2

theorem catalog_foldl_after (wellFormed : tree.WellFormed) (operations : List Operation) :
    (operations.foldl after tree).catalog = operations.foldl Catalog.after tree.catalog := by
  induction operations generalizing tree with
  | nil => rfl
  | cons operation operations ih =>
      rw [List.foldl_cons, List.foldl_cons, ih (wellFormed.after operation),
        catalog_after wellFormed]

theorem catalog_empty : empty.catalog = Catalog.empty := by
  have noChild (name : String) : empty.childIndex? 0 name = none := rfl
  have contents : empty.contents = Catalog.empty.contents := by
    funext names
    cases names with
    | nil => rfl
    | cons name names => simp [MemoryTree.contents, follow, noChild, Catalog.empty]
  have noPlace : placesOf [] = ∅ := by simp [placesOf]
  simp only [catalog, contents]
  rw [empty, noPlace]
  rfl

theorem catalog_ofOperations (operations : List Operation) :
    (ofOperations operations).catalog = Catalog.ofOperations operations := by
  rw [ofOperations, catalog_foldl_after wellFormed_empty, catalog_empty]
  rfl

theorem intact_catalog_ofOperations {operations : List Operation}
    (builds : ∀ operation ∈ operations, Catalog.Builds operation) :
    (ofOperations operations).catalog.Intact := by
  rw [catalog_ofOperations]
  exact Catalog.intact_ofOperations builds

end Operations

section Answers

/-- Whether a tree answers every question from a catalog. A question about a path depends on the
place of the path, except for the path in the text of an error. -/
structure Answers (tree : MemoryTree) (catalog : Catalog) : Prop where
  stat_failing : ∀ path, Path.names path ∈ catalog.failingStats →
    tree.stat path = .error (denied path)
  stat : ∀ path, Path.names path ∉ catalog.failingStats → tree.stat path =
    match catalog.contents (Path.names path) with
    | none => .error (notFound path)
    | some content => .ok ⟨Path.baseName path, content.kind⟩
  list_failing : ∀ path, Path.names path ∈ catalog.failingLists →
    tree.list path = .error (denied path)
  list : ∀ path, Path.names path ∉ catalog.failingLists →
    match catalog.contents (Path.names path) with
    | none => tree.list path = .error (notFound path)
    | some (.file _) => tree.list path = .error (notADirectory path)
    | some .directory => ∃ entries, tree.list path = .ok entries ∧
        catalog.contents.chart.Lists (Path.names path) entries
  read : ∀ path, tree.read path =
    match catalog.contents (Path.names path) with
    | none => .error (notFound path)
    | some (.file text) => .ok text
    | some .directory => .error (isADirectory path)

theorem WellFormed.answers (wellFormed : tree.WellFormed) : tree.Answers tree.catalog := by
  constructor
  case stat_failing =>
    intro path failing
    simp [MemoryTree.stat, names_mem_placesOf_iff.1 failing]
  case stat =>
    intro path answered
    have free := mt names_mem_placesOf_iff.2 answered
    simp only [catalog, contents_names]
    cases found : tree.node? path <;> simp [MemoryTree.stat, free, found, kind_forget]
  case list_failing =>
    intro path failing
    simp [MemoryTree.list, names_mem_placesOf_iff.1 failing]
  case list =>
    intro path answered
    have free := mt names_mem_placesOf_iff.2 answered
    simp only [catalog, contents_names]
    rcases found : tree.node? path with _ | ⟨name, text | children⟩
    · simp [MemoryTree.list, free, found]
    · simp [MemoryTree.list, free, found, NodeContent.forget]
    · rcases node?_eq_some_iff.1 found with ⟨index, here, atIndex⟩
      have directory : tree.children? index = some children := by simp [children?, atIndex]
      simp only [Option.map_some, NodeContent.forget]
      refine ⟨tree.childEntries children, ?_, wellFormed.lists_childEntries here directory⟩
      exact list_eq_ok_iff.2 ⟨free, index, children, here, directory, rfl⟩
  case read =>
    intro path
    simp only [catalog, contents_names, MemoryTree.read]
    rcases tree.node? path with _ | ⟨name, text | children⟩ <;> rfl

theorem Answers.exists_stat {catalog : Catalog} (answers : tree.Answers catalog)
    (answered : catalog.failingStats = ∅)
    (stands : catalog.contents.chart (Path.names path) ≠ none) :
    ∃ entry, tree.stat path = .ok entry := by
  have stat := answers.stat path (by simp [answered])
  rcases here : catalog.contents (Path.names path) with _ | content
  · simp [Contents.chart, here] at stands
  · rw [here] at stat
    exact ⟨_, stat⟩

theorem Answers.exists_list {catalog : Catalog} (answers : tree.Answers catalog)
    (answered : catalog.failingLists = ∅)
    (directory : catalog.contents.chart (Path.names path) = some .directory) :
    ∃ entries, tree.list path = .ok entries := by
  have list := answers.list path (by simp [answered])
  rw [Contents.chart_eq_directory_iff.1 directory] at list
  rcases list with ⟨entries, listed, _⟩
  exact ⟨entries, listed⟩

end Answers

end MemoryTree

end OwnerCoverage
