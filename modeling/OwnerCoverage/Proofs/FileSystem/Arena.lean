import Mathlib.Data.String.Basic
import OwnerCoverage.FileSystem.Memory
import OwnerCoverage.Proofs.Path

/-!
# The shape of trees in memory

The nodes of a tree in memory stand in an array, and only the indices in the lists of children say
how they hang together. `WellFormed` says that they form a tree: every node but the root is listed
by exactly one directory, which stands before it, under its own name, and the names in a directory
increase. Adding a child keeps this.
-/

namespace OwnerCoverage

namespace MemoryTree

/-- The name of a node, by its index. -/
def nameAt? (tree : MemoryTree) (index : Nat) : Option String :=
  tree.nodes[index]?.map TreeNode.name

/-- Whether a directory lists a child with some name and index. -/
def Links (tree : MemoryTree) (parent : Nat) (name : String) (index : Nat) : Prop :=
  ∃ children, tree.children? parent = some children ∧ (name, index) ∈ children

/-- Whether the nodes form a tree with the root first. -/
structure WellFormed (tree : MemoryTree) : Prop where
  root : ∃ children, tree.children? 0 = some children
  /-- Children are created after the directory that lists them. -/
  above : ∀ {parent name index}, tree.Links parent name index → parent < index
  named : ∀ {parent name index}, tree.Links parent name index → tree.nameAt? index = some name
  listed : ∀ {parent name index}, tree.Links parent name index → Path.IsListed name
  sorted : ∀ {parent children}, tree.children? parent = some children →
    (children.map Prod.fst).Pairwise (· < ·)
  unique : ∀ {parent other name otherName index}, tree.Links parent name index →
    tree.Links other otherName index → parent = other
  attached : ∀ {index}, 0 < index → index < tree.nodes.size →
    ∃ parent name, tree.Links parent name index

section Insertion

variable {name other : String} {index otherIndex : Nat} {children : List (String × Nat)}

theorem mem_insertName_iff : (other, otherIndex) ∈ insertName name index children ↔
    other = name ∧ otherIndex = index ∨ (other, otherIndex) ∈ children := by
  induction children with
  | nil => simp [insertName]
  | cons child children ih =>
      rw [insertName]
      split
      · simp
      · rw [List.mem_cons, ih, List.mem_cons]
        tauto

/-- Inserting a new name keeps the names in order. -/
theorem pairwise_insertName (new : ∀ index, (name, index) ∉ children)
    (sorted : (children.map Prod.fst).Pairwise (· < ·)) :
    ((insertName name index children).map Prod.fst).Pairwise (· < ·) := by
  induction children with
  | nil => simp [insertName]
  | cons child children ih =>
      rcases child with ⟨first, firstIndex⟩
      rw [List.map_cons, List.pairwise_cons] at sorted
      rw [insertName]
      split
      · rename_i below
        rw [List.map_cons, List.map_cons, List.pairwise_cons]
        refine ⟨?_, List.pairwise_cons.2 sorted⟩
        intro later mem
        rcases List.mem_cons.1 mem with rfl | mem
        · exact below
        · exact below.trans (sorted.1 later mem)
      · rename_i notBelow
        have newRest : ∀ index, (name, index) ∉ children :=
          fun index mem => new index (List.mem_cons_of_mem _ mem)
        have different : first ≠ name := by
          rintro rfl
          exact new firstIndex List.mem_cons_self
        have above : first < name := lt_of_le_of_ne (not_lt.1 notBelow) different
        rw [List.map_cons, List.pairwise_cons]
        refine ⟨?_, ih newRest sorted.2⟩
        intro later mem
        rcases List.mem_map.1 mem with ⟨⟨child, childIndex⟩, child_mem, rfl⟩
        rcases mem_insertName_iff.1 child_mem with ⟨rfl, _⟩ | child_mem
        · exact above
        · exact sorted.1 child (List.mem_map.2 ⟨_, child_mem, rfl⟩)

end Insertion

section Growth

variable {tree : MemoryTree} {parent : Nat} {name text : String} {content : NodeContent}
  {children : List (String × Nat)}

def contentChildren? : NodeContent → Option (List (String × Nat))
  | .file _ => none
  | .directory children => some children

theorem children?_eq (tree : MemoryTree) (index : Nat) :
    tree.children? index = tree.nodes[index]?.bind fun node => contentChildren? node.content := by
  rw [children?]
  rcases tree.nodes[index]? with _ | ⟨_, _ | _⟩ <;> rfl

theorem lt_size_of_children? (directory : tree.children? parent = some children) :
    parent < tree.nodes.size := by
  rw [children?_eq] at directory
  rcases Option.bind_eq_some_iff.1 directory with ⟨node, here, _⟩
  exact (Array.getElem?_eq_some_iff.1 here).1

theorem lt_size_of_nameAt? {index : Nat} (named : tree.nameAt? index = some name) :
    index < tree.nodes.size := by
  rcases Option.map_eq_some_iff.1 named with ⟨node, here, _⟩
  exact (Array.getElem?_eq_some_iff.1 here).1

/-- What a directory holds with one more child. A file holds the same. -/
def withChild (name : String) (index : Nat) : NodeContent → NodeContent
  | .file text => .file text
  | .directory children => .directory (insertName name index children)

theorem size_addChild : (tree.addChild parent name content).1.nodes.size = tree.nodes.size + 1 := by
  simp [addChild]

theorem index_addChild : (tree.addChild parent name content).2 = tree.nodes.size := rfl

theorem getElem?_addChild (index : Nat) : (tree.addChild parent name content).1.nodes[index]? =
    if index = tree.nodes.size then some ⟨name, content⟩
    else if index = parent then
      tree.nodes[index]?.map fun node => ⟨node.name, withChild name tree.nodes.size node.content⟩
    else tree.nodes[index]? := by
  simp only [addChild, Array.getElem?_push, Array.size_modify, Array.getElem?_modify]
  split
  · rfl
  · by_cases here : parent = index
    · subst here
      rw [if_pos rfl, if_pos rfl]
      rcases tree.nodes[parent]? with _ | ⟨_, _ | _⟩ <;> rfl
    · rw [if_neg here, if_neg (Ne.symm here)]

theorem nameAt?_addChild (index : Nat) : (tree.addChild parent name content).1.nameAt? index =
    if index = tree.nodes.size then some name else tree.nameAt? index := by
  rw [nameAt?, nameAt?, getElem?_addChild]
  split
  · rfl
  · split
    · rw [Option.map_map]
      rfl
    · rfl

theorem children?_addChild (directory : tree.children? parent = some children) (index : Nat) :
    (tree.addChild parent name content).1.children? index =
      if index = tree.nodes.size then contentChildren? content
      else if index = parent then some (insertName name tree.nodes.size children)
      else tree.children? index := by
  rw [children?_eq, children?_eq, getElem?_addChild]
  split
  · rfl
  · split
    · rename_i here
      subst here
      rw [children?_eq] at directory
      rcases here : tree.nodes[index]? with _ | ⟨_, _ | old⟩
      · simp [here] at directory
      · simp [here, contentChildren?] at directory
      · simp only [here, Option.bind_some, contentChildren?, Option.some.injEq] at directory
        simp [withChild, contentChildren?, directory]
    · rfl

/-- A new node without children is linked to its directory, and nothing else changes. -/
theorem links_addChild_iff (directory : tree.children? parent = some children)
    (childless : ∀ child, child ∉ (contentChildren? content).getD []) {other : Nat}
    {otherName : String} {index : Nat} :
    (tree.addChild parent name content).1.Links other otherName index ↔
      other = parent ∧ otherName = name ∧ index = tree.nodes.size ∨
        tree.Links other otherName index := by
  have inside := lt_size_of_children? directory
  simp only [Links, children?_addChild directory]
  by_cases last : other = tree.nodes.size
  · have outside : tree.children? other = none := by
      rw [children?_eq, Array.getElem?_eq_none (by omega)]
      rfl
    subst last
    rw [if_pos rfl, outside]
    constructor
    · rintro ⟨listed, content_eq, mem⟩
      rw [content_eq] at childless
      exact absurd mem (childless _)
    · rintro (⟨equal, _⟩ | ⟨listed, none_eq, _⟩)
      · omega
      · exact absurd none_eq (by simp)
  · rw [if_neg last]
    by_cases here : other = parent
    · subst here
      rw [if_pos rfl, directory]
      constructor
      · rintro ⟨listed, listed_eq, mem⟩
        rw [Option.some.injEq] at listed_eq
        subst listed_eq
        rcases mem_insertName_iff.1 mem with ⟨rfl, rfl⟩ | mem
        · exact Or.inl ⟨rfl, rfl, rfl⟩
        · exact Or.inr ⟨children, rfl, mem⟩
      · rintro (⟨_, rfl, rfl⟩ | ⟨listed, listed_eq, mem⟩)
        · exact ⟨_, rfl, mem_insertName_iff.2 (Or.inl ⟨rfl, rfl⟩)⟩
        · rw [Option.some.injEq] at listed_eq
          subst listed_eq
          exact ⟨_, rfl, mem_insertName_iff.2 (Or.inr mem)⟩
    · rw [if_neg here]
      constructor
      · exact Or.inr
      · rintro (⟨equal, _⟩ | links)
        · exact absurd equal here
        · exact links

end Growth

namespace WellFormed

variable {tree : MemoryTree} {parent index : Nat} {name : String} {children : List (String × Nat)}

theorem lt_size (wellFormed : tree.WellFormed) (links : tree.Links parent name index) :
    index < tree.nodes.size :=
  lt_size_of_nameAt? (wellFormed.named links)

/-- Looking a name up finds exactly the child that is listed under it. -/
theorem childIndex?_eq_some_iff (wellFormed : tree.WellFormed) :
    tree.childIndex? parent name = some index ↔ tree.Links parent name index := by
  rw [childIndex?, Option.bind_eq_some_iff]
  apply exists_congr
  intro children
  apply and_congr_right
  intro directory
  constructor
  · intro found
    rcases List.lookup_eq_some_iff.1 found with ⟨before, after, rfl, _⟩
    exact List.mem_append_right before List.mem_cons_self
  · intro mem
    rcases List.append_of_mem mem with ⟨before, after, rfl⟩
    refine List.lookup_eq_some_iff.2 ⟨before, after, rfl, ?_⟩
    intro child child_mem
    have sorted := wellFormed.sorted directory
    rw [List.map_append, List.pairwise_append] at sorted
    have less : child.1 < name :=
      sorted.2.2 child.1 (List.mem_map_of_mem child_mem) name (by simp)
    simpa using less.ne'

theorem childIndex?_eq_none_iff (wellFormed : tree.WellFormed) :
    tree.childIndex? parent name = none ↔ ∀ index, ¬tree.Links parent name index := by
  rw [Option.eq_none_iff_forall_ne_some]
  apply forall_congr'
  intro index
  exact not_congr wellFormed.childIndex?_eq_some_iff

theorem addChild {content : NodeContent} (wellFormed : tree.WellFormed)
    (directory : tree.children? parent = some children)
    (new : tree.childIndex? parent name = none) (listed : Path.IsListed name)
    (childless : ∀ child, child ∉ (contentChildren? content).getD []) :
    (tree.addChild parent name content).1.WellFormed := by
  have inside := lt_size_of_children? directory
  have links_iff {other : Nat} {otherName : String} {index : Nat} :
      (tree.addChild parent name content).1.Links other otherName index ↔
        other = parent ∧ otherName = name ∧ index = tree.nodes.size ∨
          tree.Links other otherName index :=
    links_addChild_iff directory childless
  constructor
  case root =>
    rcases wellFormed.root with ⟨rootChildren, root⟩
    rw [children?_addChild directory, if_neg (by omega)]
    split
    · exact ⟨_, rfl⟩
    · exact ⟨rootChildren, root⟩
  case above =>
    intro other otherName index links
    rcases links_iff.1 links with ⟨rfl, rfl, rfl⟩ | links
    · exact inside
    · exact wellFormed.above links
  case named =>
    intro other otherName index links
    rw [nameAt?_addChild]
    rcases links_iff.1 links with ⟨rfl, rfl, rfl⟩ | links
    · rw [if_pos rfl]
    · have old := wellFormed.lt_size links
      rw [if_neg (by omega)]
      exact wellFormed.named links
  case listed =>
    intro other otherName index links
    rcases links_iff.1 links with ⟨_, rfl, _⟩ | links
    · exact listed
    · exact wellFormed.listed links
  case sorted =>
    intro other otherChildren here
    rw [children?_addChild directory] at here
    split at here
    · rw [here] at childless
      have empty : otherChildren = [] := List.eq_nil_iff_forall_not_mem.2 childless
      rw [empty]
      exact .nil
    · split at here
      · rw [Option.some.injEq] at here
        subst here
        refine pairwise_insertName (fun index mem => ?_) (wellFormed.sorted directory)
        exact wellFormed.childIndex?_eq_none_iff.1 new index ⟨children, directory, mem⟩
      · exact wellFormed.sorted here
  case unique =>
    intro first second firstName secondName index firstLinks secondLinks
    rcases links_iff.1 firstLinks with ⟨rfl, _, firstNew⟩ | firstOld <;>
      rcases links_iff.1 secondLinks with ⟨rfl, _, secondNew⟩ | secondOld
    · rfl
    · have old := wellFormed.lt_size secondOld
      omega
    · have old := wellFormed.lt_size firstOld
      omega
    · exact wellFormed.unique firstOld secondOld
  case attached =>
    intro index positive small
    rw [size_addChild] at small
    by_cases last : index = tree.nodes.size
    · exact ⟨parent, name, links_iff.2 (Or.inl ⟨rfl, rfl, last⟩)⟩
    · rcases wellFormed.attached positive (by omega) with ⟨other, otherName, links⟩
      exact ⟨other, otherName, links_iff.2 (Or.inr links)⟩

/-- Only the children and the names of nodes matter for the shape. -/
theorem of_same_shape {other : MemoryTree} (wellFormed : tree.WellFormed)
    (children : ∀ index, other.children? index = tree.children? index)
    (names : ∀ index, other.nameAt? index = tree.nameAt? index)
    (size : other.nodes.size = tree.nodes.size) : other.WellFormed := by
  have links {parent : Nat} {name : String} {index : Nat} :
      other.Links parent name index ↔ tree.Links parent name index := by
    rw [Links, Links, children]
  constructor
  case root => simpa only [children] using wellFormed.root
  case above => exact fun listed => wellFormed.above (links.1 listed)
  case named => exact fun listed => names _ ▸ wellFormed.named (links.1 listed)
  case listed => exact fun listed => wellFormed.listed (links.1 listed)
  case sorted => exact fun here => wellFormed.sorted (children _ ▸ here)
  case unique => exact fun first second => wellFormed.unique (links.1 first) (links.1 second)
  case attached =>
    intro index positive small
    rcases wellFormed.attached positive (size ▸ small) with ⟨parent, name, listed⟩
    exact ⟨parent, name, links.2 listed⟩

end WellFormed

end MemoryTree

end OwnerCoverage
