import OwnerCoverage.Proofs.FileSystem.Arena

/-!
# Lookup in trees in memory

Names lead from the root to at most one node, and no other names lead there (`follow_injective`). So
two paths stand for the same node exactly if they have the same names, however they are spelled.
-/

namespace OwnerCoverage

namespace MemoryTree

variable {tree : MemoryTree} {index last : Nat} {name : String} {names : List String}

theorem follow_append (index : Nat) (names rest : List String) :
    tree.follow index (names ++ rest) =
      (tree.follow index names).bind fun middle => tree.follow middle rest := by
  induction names generalizing index with
  | nil => rfl
  | cons name names ih =>
      rw [List.cons_append, follow, follow]
      cases tree.childIndex? index name with
      | none => rfl
      | some child => exact ih child

theorem follow_singleton (index : Nat) (name : String) :
    tree.follow index [name] = tree.childIndex? index name := by
  rw [follow]
  cases tree.childIndex? index name <;> rfl

namespace WellFormed

theorem follow_concat_iff (wellFormed : tree.WellFormed) :
    tree.follow index (names ++ [name]) = some last ↔
      ∃ parent, tree.follow index names = some parent ∧ tree.Links parent name last := by
  rw [follow_append, Option.bind_eq_some_iff]
  apply exists_congr
  intro parent
  apply and_congr_right
  intro _
  rw [follow_singleton, wellFormed.childIndex?_eq_some_iff]

theorem follow_cons_iff (wellFormed : tree.WellFormed) :
    tree.follow index (name :: names) = some last ↔
      ∃ child, tree.Links index name child ∧ tree.follow child names = some last := by
  rw [← List.singleton_append, follow_append, Option.bind_eq_some_iff]
  simp only [follow_singleton, wellFormed.childIndex?_eq_some_iff]

/-- Only names that can be listed lead anywhere. -/
theorem isListed_of_follow (wellFormed : tree.WellFormed)
    (here : tree.follow index names = some last) : ∀ name ∈ names, Path.IsListed name := by
  induction names generalizing index with
  | nil => simp
  | cons name names ih =>
      rcases wellFormed.follow_cons_iff.1 here with ⟨child, links, below⟩
      exact List.forall_mem_cons.2 ⟨wellFormed.listed links, ih below⟩

theorem lt_size_of_follow (wellFormed : tree.WellFormed)
    (here : tree.follow 0 names = some index) : index < tree.nodes.size := by
  rcases List.eq_nil_or_concat' names with rfl | ⟨before, name, rfl⟩
  · rw [follow, Option.some.injEq] at here
    rcases wellFormed.root with ⟨children, root⟩
    exact here ▸ lt_size_of_children? root
  · rcases wellFormed.follow_concat_iff.1 here with ⟨parent, _, links⟩
    exact wellFormed.lt_size links

/-- Different names lead from the root to different nodes. -/
theorem follow_injective {others : List String} (wellFormed : tree.WellFormed)
    (first : tree.follow 0 names = some index) (second : tree.follow 0 others = some index) :
    names = others := by
  -- The induction is on the node: its directory comes before it.
  induction index using Nat.strong_induction_on generalizing names others with
  | _ index ih =>
      rcases List.eq_nil_or_concat' names with rfl | ⟨names, name, rfl⟩ <;>
        rcases List.eq_nil_or_concat' others with rfl | ⟨others, other, rfl⟩
      · rfl
      · rcases wellFormed.follow_concat_iff.1 second with ⟨parent, _, links⟩
        have above := wellFormed.above links
        rw [follow, Option.some.injEq] at first
        omega
      · rcases wellFormed.follow_concat_iff.1 first with ⟨parent, _, links⟩
        have above := wellFormed.above links
        rw [follow, Option.some.injEq] at second
        omega
      · rcases wellFormed.follow_concat_iff.1 first with ⟨parent, firstParent, firstLinks⟩
        rcases wellFormed.follow_concat_iff.1 second with ⟨otherParent, secondParent, secondLinks⟩
        have sameParent := wellFormed.unique firstLinks secondLinks
        subst sameParent
        have sameName : name = other := by
          rw [← Option.some.injEq, ← wellFormed.named firstLinks, wellFormed.named secondLinks]
        rw [ih parent (wellFormed.above firstLinks) firstParent secondParent, sameName]

end WellFormed

section Answers

variable {path : String}

theorem node?_eq_some_iff {node : TreeNode} : tree.node? path = some node ↔
    ∃ index, tree.follow 0 (Path.names path) = some index ∧ tree.nodes[index]? = some node :=
  Option.bind_eq_some_iff

theorem stat_eq_ok_iff {entry : Entry} : tree.stat path = .ok entry ↔
    Path.canonical path ∉ tree.failingStats ∧
      ∃ node, tree.node? path = some node ∧ entry = ⟨Path.baseName path, node.kind⟩ := by
  rw [stat]
  by_cases denied : Path.canonical path ∈ tree.failingStats
  · simp [denied]
  · cases tree.node? path <;> simp [denied, eq_comm]

/-- What the listing of a directory tells about its children. -/
def childEntries (tree : MemoryTree) (children : List (String × Nat)) : List Entry :=
  children.filterMap fun (_, index) =>
    tree.nodes[index]?.map fun child => ⟨child.name, child.kind⟩

theorem list_eq_ok_iff {entries : List Entry} : tree.list path = .ok entries ↔
    Path.canonical path ∉ tree.failingLists ∧
      ∃ index children, tree.follow 0 (Path.names path) = some index ∧
        tree.children? index = some children ∧ entries = tree.childEntries children := by
  rw [list, node?]
  by_cases denied : Path.canonical path ∈ tree.failingLists
  · simp [denied]
  · cases here : tree.follow 0 (Path.names path) with
    | none => simp [denied]
    | some index =>
        rcases found : tree.nodes[index]? with _ | ⟨name, text | children⟩ <;>
          simp [denied, found, children?_eq, contentChildren?, childEntries, eq_comm]

/-- A listing gives the children under the names by which they are linked. -/
theorem WellFormed.map_name_childEntries (wellFormed : tree.WellFormed)
    {children : List (String × Nat)} (directory : tree.children? index = some children) :
    (tree.childEntries children).map Entry.name = children.map Prod.fst := by
  have linked : ∀ child ∈ children, tree.Links index child.1 child.2 :=
    fun child mem => ⟨children, directory, mem⟩
  clear directory
  induction children with
  | nil => rfl
  | cons child children ih =>
      rcases List.forall_mem_cons.1 linked with ⟨linkedFirst, linkedRest⟩
      rcases Option.map_eq_some_iff.1 (wellFormed.named linkedFirst) with ⟨node, here, named⟩
      rw [List.map_cons, ← ih linkedRest, ← named]
      simp [childEntries, here]

end Answers

end MemoryTree

end OwnerCoverage
