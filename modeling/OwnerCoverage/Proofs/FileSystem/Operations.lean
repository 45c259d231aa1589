import OwnerCoverage.Proofs.FileSystem.Arena

/-!
# Operations on trees in memory

Whatever operations are made on an empty tree, the nodes form a tree afterwards
(`wellFormed_ofOperations`). Each step of an operation keeps the shape, so that it is kept as well
where a later step fails.
-/

namespace OwnerCoverage

namespace MemoryTree

/-- What can be done to a tree in memory. -/
inductive Operation where
  | createDirectory (path : String)
  | writeFile (path text : String)
  | failStat (path : String)
  | failList (path : String)
deriving DecidableEq, Repr

/-- The tree after an operation, whether or not that succeeds. -/
def after (tree : MemoryTree) : Operation → MemoryTree
  | .createDirectory path => (tree.createDirectory path).2
  | .writeFile path text => (tree.writeFile path text).2
  | .failStat path => tree.failStat path
  | .failList path => tree.failList path

/-- The tree that operations on the empty tree leave behind. -/
def ofOperations (operations : List Operation) : MemoryTree := operations.foldl after empty

theorem wellFormed_empty : empty.WellFormed := by
  have children {index : Nat} {children : List (String × Nat)}
      (directory : empty.children? index = some children) : children = [] := by
    rcases index with _ | index
    · exact (Option.some.inj directory).symm
    · exact absurd directory (by simp [children?, empty])
  have noLinks {parent index : Nat} {name : String} : ¬empty.Links parent name index := by
    rintro ⟨listed, directory, mem⟩
    simp [children directory] at mem
  constructor
  case root => exact ⟨[], rfl⟩
  case above => exact fun links => absurd links noLinks
  case named => exact fun links => absurd links noLinks
  case listed => exact fun links => absurd links noLinks
  case sorted => exact fun directory => by simp [children directory]
  case unique => exact fun links => absurd links noLinks
  case attached =>
    intro index positive small
    exact absurd small (by simp [empty]; omega)

section Replacement

variable {tree : MemoryTree} {index : Nat} {text : String}

theorem children?_setText (file : tree.children? index = none) (other : Nat) :
    (tree.setText index text).children? other = tree.children? other := by
  simp only [children?_eq, setText, Array.getElem?_modify]
  by_cases here : index = other
  · subst here
    rw [← children?_eq, file, if_pos rfl]
    cases tree.nodes[index]? <;> rfl
  · rw [if_neg here]

theorem nameAt?_setText (other : Nat) :
    (tree.setText index text).nameAt? other = tree.nameAt? other := by
  simp only [nameAt?, setText, Array.getElem?_modify]
  split
  · rw [Option.map_map]
    rfl
  · rfl

end Replacement

namespace WellFormed

variable {tree : MemoryTree} {parent index : Nat} {name : String}

theorem setText (wellFormed : tree.WellFormed) (file : tree.children? index = none)
    (text : String) : (tree.setText index text).WellFormed :=
  wellFormed.of_same_shape (children?_setText file) nameAt?_setText
    (by simp [MemoryTree.setText])

/-- A directory is found or made, and it is one afterwards. -/
theorem childDirectory (wellFormed : tree.WellFormed)
    (directory : ∃ children, tree.children? parent = some children) (listed : Path.IsListed name) :
    (tree.childDirectory parent name).2.WellFormed ∧
      ∀ index, (tree.childDirectory parent name).1 = .ok index →
        ∃ children, (tree.childDirectory parent name).2.children? index = some children := by
  rcases directory with ⟨children, directory⟩
  rw [MemoryTree.childDirectory]
  cases child : tree.childIndex? parent name with
  | none =>
      refine ⟨wellFormed.addChild directory child listed (by simp [contentChildren?]), ?_⟩
      intro index created
      rw [Except.ok.injEq] at created
      subst created
      refine ⟨[], ?_⟩
      simp only [children?_addChild directory, index_addChild, if_pos, contentChildren?]
  | some index =>
      cases inside : tree.children? index with
      | none =>
          simp only [inside]
          exact ⟨wellFormed, by simp⟩
      | some listedInside =>
          simp only [inside]
          refine ⟨wellFormed, ?_⟩
          intro index found
          rw [Except.ok.injEq] at found
          exact ⟨listedInside, found ▸ inside⟩

theorem makeDirectories {names : List String} (wellFormed : tree.WellFormed)
    (directory : ∃ children, tree.children? index = some children)
    (listed : ∀ name ∈ names, Path.IsListed name) :
    (tree.makeDirectories index names).2.WellFormed ∧
      ∀ last, (tree.makeDirectories index names).1 = .ok last →
        ∃ children, (tree.makeDirectories index names).2.children? last = some children := by
  induction names generalizing tree index with
  | nil =>
      refine ⟨wellFormed, ?_⟩
      intro last found
      rw [MemoryTree.makeDirectories, Except.ok.injEq] at found
      exact found ▸ directory
  | cons name names ih =>
      rcases List.forall_mem_cons.1 listed with ⟨listedFirst, listedRest⟩
      have step := wellFormed.childDirectory directory listedFirst
      rw [MemoryTree.makeDirectories]
      rcases made : tree.childDirectory index name with ⟨error | child, changed⟩
      · rw [made] at step
        exact ⟨step.1, by simp⟩
      · rw [made] at step
        exact ih step.1 (step.2 child rfl) listedRest

theorem createDirectory (wellFormed : tree.WellFormed) (path : String) :
    (tree.createDirectory path).2.WellFormed := by
  have listed : ∀ name ∈ Path.names path, Path.IsListed name := by
    intro name mem
    exact Path.isListed_of_mem_names mem
  have made := (wellFormed.makeDirectories wellFormed.root listed).1
  rw [MemoryTree.createDirectory]
  rcases run : tree.makeDirectories 0 (Path.names path) with ⟨error | last, changed⟩ <;>
    simpa only [run] using made

theorem writeChild (wellFormed : tree.WellFormed)
    (directory : ∃ children, tree.children? parent = some children) (listed : Path.IsListed name)
    (path text : String) : (tree.writeChild parent name path text).2.WellFormed := by
  rcases directory with ⟨children, directory⟩
  rw [MemoryTree.writeChild]
  cases child : tree.childIndex? parent name with
  | none => exact wellFormed.addChild directory child listed (by simp [contentChildren?])
  | some index =>
      cases inside : tree.children? index with
      | none =>
          simp only [inside]
          exact wellFormed.setText inside text
      | some listedInside =>
          simp only [inside]
          exact wellFormed

theorem writeFile (wellFormed : tree.WellFormed) (path text : String) :
    (tree.writeFile path text).2.WellFormed := by
  rw [MemoryTree.writeFile]
  cases last : (Path.names path).getLast? with
  | none => exact wellFormed
  | some name =>
      have listed {other : String} : other ∈ Path.names path → Path.IsListed other :=
        Path.isListed_of_mem_names
      have listedAbove : ∀ other ∈ (Path.names path).dropLast, Path.IsListed other := by
        intro other mem
        exact listed (List.dropLast_subset _ mem)
      have step := wellFormed.makeDirectories wellFormed.root listedAbove
      rcases made : tree.makeDirectories 0 (Path.names path).dropLast with ⟨error | parent, changed⟩
      · simpa only [made] using step.1
      · rw [made] at step
        exact step.1.writeChild (step.2 parent rfl) (listed (List.mem_of_getLast? last)) path text

theorem after (wellFormed : tree.WellFormed) (operation : Operation) :
    (tree.after operation).WellFormed := by
  cases operation with
  | createDirectory path => exact wellFormed.createDirectory path
  | writeFile path text => exact wellFormed.writeFile path text
  | failStat path => exact wellFormed.of_same_shape (fun _ => rfl) (fun _ => rfl) rfl
  | failList path => exact wellFormed.of_same_shape (fun _ => rfl) (fun _ => rfl) rfl

theorem afterAll (wellFormed : tree.WellFormed) (operations : List Operation) :
    (operations.foldl MemoryTree.after tree).WellFormed := by
  induction operations generalizing tree with
  | nil => exact wellFormed
  | cons operation operations ih => exact ih (wellFormed.after operation)

end WellFormed

/-- Whatever operations are made on the empty tree, they leave a tree behind. -/
theorem wellFormed_ofOperations (operations : List Operation) :
    (ofOperations operations).WellFormed :=
  wellFormed_empty.afterAll operations

end MemoryTree

end OwnerCoverage
