import Mathlib.Data.Finset.Dedup
import OwnerCoverage.Host.Tree
import OwnerCoverage.Proofs.FileSystem.Chart
import OwnerCoverage.Proofs.Text.Search

/-!
# Nodes of a host

What stands below a node of a host, through real directories only. A link leads nowhere here,
whatever its target is, so the places below a node are as many as its nodes (`length_places`). Names
that are no text have no place in the chart of a node, and neither has what stands below them.
-/

namespace OwnerCoverage

namespace Host

/-- Whether bytes can be the name of a node in its directory. -/
structure IsFileName (name : FileName) : Prop where
  nonempty : name ≠ []
  noSlash : slash ∉ name
  noZero : 0 ∉ name
  isNodeName : Host.isNodeName name = true

instance (name : FileName) : Decidable (IsFileName name) :=
  decidable_of_iff (name ≠ [] ∧ slash ∉ name ∧ 0 ∉ name ∧ Host.isNodeName name = true)
    ⟨fun ⟨nonempty, noSlash, noZero, isNodeName⟩ => ⟨nonempty, noSlash, noZero, isNodeName⟩,
      fun ⟨nonempty, noSlash, noZero, isNodeName⟩ => ⟨nonempty, noSlash, noZero, isNodeName⟩⟩

theorem slash_mem_ofText_iff {name : String} : slash ∈ Bytes.ofText name ↔ '/' ∈ name.toList := by
  have slashBytes : Bytes.ofText "/" = [slash] := by decide
  have slashText : "/".toList = ['/'] := by decide
  rw [← List.singleton_infix_iff, ← slashBytes, Bytes.ofText_infix_iff, slashText,
    List.singleton_infix_iff]

/-- Whether the names in all directories at and below a node are names, and different within each
directory. -/
inductive Node.Sound : Node → Prop
  | file (contents : Bytes) : Sound (.file contents)
  | link (target : Bytes) : Sound (.link target)
  | special : Sound .special
  | directory {children : List (FileName × Node)} (names : ∀ child ∈ children, IsFileName child.1)
      (distinct : (children.map Prod.fst).Nodup) (inside : ∀ child ∈ children, Sound child.2) :
      Sound (.directory children)

/-- Whether the names in all directories of a tree are names, and different within each. -/
def Tree.Sound (tree : Tree) : Prop := (Node.directory tree.children).Sound

/-- Whether a node stands at or below another one. -/
inductive Node.Inside : Node → Node → Prop
  | self (node : Node) : Inside node node
  | child {node : Node} {children : List (FileName × Node)} {child : FileName × Node}
      (mem : child ∈ children) (inside : Inside node child.2) : Inside node (.directory children)

/-- The child of a directory with some name. -/
def Node.child? : Node → FileName → Option Node
  | .directory children, name => children.lookup name
  | _, _ => none

/-- What stands below a node, through real directories. -/
def Node.at? (node : Node) : List FileName → Option Node
  | [] => some node
  | name :: rest => (node.child? name).bind fun child => child.at? rest

mutual

/-- The names that lead from a node to the nodes at and below it. -/
def Node.places : Node → List (List FileName)
  | .directory children => [] :: placesOfChildren children
  | .file _ => [[]]
  | .link _ => [[]]
  | .special => [[]]

/-- The places of some children and of all below them. -/
def placesOfChildren : List (FileName × Node) → List (List FileName)
  | [] => []
  | (name, node) :: rest => node.places.map (name :: ·) ++ placesOfChildren rest

end

namespace Node

/-- What kind of node stands below a node, where all names are texts. -/
def chart (node : Node) : Chart := fun names => (node.at? (names.map Bytes.ofText)).map Node.kind

variable {node found : Node} {children : List (FileName × Node)} {name : FileName}
  {names rest : List FileName}

section Lookup

theorem mem_of_lookup {κ α : Type} [BEq κ] [LawfulBEq κ] {entries : List (κ × α)} {key : κ}
    {value : α} (found : entries.lookup key = some value) : (key, value) ∈ entries := by
  rcases List.lookup_eq_some_iff.1 found with ⟨before, after, rfl, _⟩
  exact List.mem_append_right before List.mem_cons_self

theorem lookup_eq_some_iff_mem {κ α : Type} [BEq κ] [LawfulBEq κ] {entries : List (κ × α)}
    (distinct : (entries.map Prod.fst).Nodup) {key : κ} {value : α} :
    entries.lookup key = some value ↔ (key, value) ∈ entries := by
  refine ⟨mem_of_lookup, ?_⟩
  intro mem
  rcases List.append_of_mem mem with ⟨before, after, rfl⟩
  refine List.lookup_eq_some_iff.2 ⟨before, after, rfl, ?_⟩
  intro entry entry_mem
  rw [List.map_append, List.nodup_append] at distinct
  have different := distinct.2.2 entry.1 (List.mem_map_of_mem entry_mem) key (by simp)
  simpa using different.symm

theorem child?_eq_some_iff : node.child? name = some found ↔
    ∃ children, node = .directory children ∧ children.lookup name = some found := by
  cases node <;> simp [child?]

theorem at?_append (node : Node) (names rest : List FileName) :
    node.at? (names ++ rest) = (node.at? names).bind fun middle => middle.at? rest := by
  induction names generalizing node with
  | nil => rfl
  | cons name names ih =>
      rw [List.cons_append, at?, at?]
      cases node.child? name with
      | none => rfl
      | some child => exact ih child

theorem at?_concat_eq_some_iff : node.at? (names ++ [name]) = some found ↔
    ∃ children, node.at? names = some (.directory children) ∧
      children.lookup name = some found := by
  rw [at?_append, Option.bind_eq_some_iff]
  constructor
  · rintro ⟨middle, here, below⟩
    rcases Option.bind_eq_some_iff.1 below with ⟨child, childFound, last⟩
    rw [at?, Option.some.injEq] at last
    subst last
    rcases child?_eq_some_iff.1 childFound with ⟨children, rfl, found⟩
    exact ⟨children, here, found⟩
  · rintro ⟨children, here, childFound⟩
    exact ⟨_, here, by simp [at?, child?, childFound]⟩

end Lookup

section Inside

theorem Inside.trans {middle : Node} (inner : node.Inside middle) (outer : middle.Inside found) :
    node.Inside found := by
  induction outer with
  | self => exact inner
  | child mem _ ih => exact .child mem ih

theorem Sound.of_inside (sound : found.Sound) (inside : node.Inside found) : node.Sound := by
  induction inside with
  | self => exact sound
  | child mem _ ih =>
      cases sound with
      | directory _ _ below => exact ih (below _ mem)

theorem size_le_sizeOfChildren {child : FileName × Node} (mem : child ∈ children) :
    child.2.size ≤ sizeOfChildren children := by
  induction children with
  | nil => simp at mem
  | cons first children ih =>
      rw [sizeOfChildren]
      rcases List.mem_cons.1 mem with rfl | mem
      · omega
      · have small := ih mem
        omega

theorem Inside.size_le (inside : node.Inside found) : node.size ≤ found.size := by
  induction inside with
  | self => exact Nat.le_refl _
  | child mem _ ih =>
      have small := size_le_sizeOfChildren mem
      rw [size]
      omega

theorem inside_of_lookup (found_eq : children.lookup name = some found) :
    found.Inside (.directory children) :=
  .child (mem_of_lookup found_eq) (.self found)

theorem inside_of_at? (here : node.at? names = some found) : found.Inside node := by
  induction names generalizing node with
  | nil =>
      rw [at?, Option.some.injEq] at here
      exact here ▸ .self node
  | cons name names ih =>
      rcases Option.bind_eq_some_iff.1 here with ⟨child, childFound, below⟩
      rcases child?_eq_some_iff.1 childFound with ⟨children, rfl, lookup⟩
      exact (ih below).trans (inside_of_lookup lookup)

end Inside

section Places

mutual

theorem length_places : (node : Node) → node.places.length = node.size
  | .directory children => by
      rw [places, size, List.length_cons, length_placesOfChildren children]
  | .file _ => rfl
  | .link _ => rfl
  | .special => rfl

theorem length_placesOfChildren :
    (children : List (FileName × Node)) →
      (placesOfChildren children).length = sizeOfChildren children
  | [] => rfl
  | (name, node) :: rest => by
      rw [placesOfChildren, sizeOfChildren, List.length_append, List.length_map,
        length_places node, length_placesOfChildren rest]

end

theorem mem_placesOfChildren {child : FileName × Node} (mem : child ∈ children)
    (names_mem : names ∈ child.2.places) : child.1 :: names ∈ placesOfChildren children := by
  induction children with
  | nil => simp at mem
  | cons first children ih =>
      rw [placesOfChildren, List.mem_append]
      rcases List.mem_cons.1 mem with rfl | mem
      · exact Or.inl (List.mem_map_of_mem names_mem)
      · exact Or.inr (ih mem)

theorem mem_places_of_at? (here : node.at? names = some found) : names ∈ node.places := by
  induction names generalizing node with
  | nil => cases node <;> simp [places]
  | cons name names ih =>
      rcases Option.bind_eq_some_iff.1 here with ⟨child, childFound, below⟩
      rcases child?_eq_some_iff.1 childFound with ⟨children, rfl, lookup⟩
      rw [places]
      exact List.mem_cons_of_mem [] (mem_placesOfChildren (mem_of_lookup lookup) (ih below))

/-- No more places hold a node than there are nodes. -/
theorem within (node : Node) : node.chart.Within node.size := by
  classical
  have read (names : List String) :
      (names.map Bytes.ofText).map (fun bytes => (Bytes.toText? bytes).getD "") = names := by
    simp [Function.comp_def, Bytes.toText?_ofText]
  refine ⟨(node.places.map fun names =>
    names.map fun bytes => (Bytes.toText? bytes).getD "").toFinset, ?_, ?_⟩
  · intro names stands
    rcases Option.ne_none_iff_exists'.1 stands with ⟨kind, here⟩
    rcases Option.map_eq_some_iff.1 here with ⟨found, found_eq, _⟩
    rw [List.mem_toFinset]
    exact List.mem_map.2 ⟨_, mem_places_of_at? found_eq, read names⟩
  · apply (List.toFinset_card_le _).trans
    rw [List.length_map, length_places]

end Places

section Charts

theorem isListed_of_isFileName {name : String} (isFileName : IsFileName (Bytes.ofText name)) :
    Path.IsListed name := by
  refine ⟨?_, fun mem => isFileName.noSlash (slash_mem_ofText_iff.2 mem)⟩
  have nonempty : name.toList ≠ [] := by
    intro empty
    apply isFileName.nonempty
    simp [Bytes.ofText_eq_flatMap, empty]
  have notHere : name.toList ≠ ['.'] := by
    intro dot
    have isHere : Bytes.ofText name = here := by
      rw [Bytes.ofText_eq_flatMap, dot]
      rfl
    have isNodeName := isFileName.isNodeName
    rw [isHere] at isNodeName
    exact absurd isNodeName (by decide)
  simp [Path.isName, nonempty, notHere]

theorem Sound.isFileName_of_at? (sound : node.Sound) (here : node.at? names = some found) :
    ∀ name ∈ names, IsFileName name := by
  induction names generalizing node with
  | nil => simp
  | cons name names ih =>
      rcases Option.bind_eq_some_iff.1 here with ⟨child, childFound, below⟩
      rcases child?_eq_some_iff.1 childFound with ⟨children, rfl, lookup⟩
      have mem := mem_of_lookup lookup
      cases sound with
      | directory isFileName _ inside =>
          exact List.forall_mem_cons.2 ⟨isFileName _ mem, ih (inside _ mem) below⟩

theorem chart_eq_some_iff {texts : List String} {kind : NodeKind} :
    node.chart texts = some kind ↔
      ∃ found, node.at? (texts.map Bytes.ofText) = some found ∧ found.kind = kind := by
  rw [chart, Option.map_eq_some_iff]

theorem kind_eq_directory_iff :
    node.kind = .directory ↔ ∃ children, node = .directory children := by
  cases node <;> simp [kind]

theorem Sound.grounded (sound : node.Sound) : node.chart.Grounded := by
  constructor
  case closed =>
    intro texts text stands
    rcases Option.ne_none_iff_exists'.1 stands with ⟨kind, here⟩
    rcases chart_eq_some_iff.1 here with ⟨found, found_eq, _⟩
    rw [List.map_append, List.map_singleton, at?_concat_eq_some_iff] at found_eq
    rcases found_eq with ⟨children, above, _⟩
    exact chart_eq_some_iff.2 ⟨_, above, rfl⟩
  case listed =>
    intro texts stands text mem
    rcases Option.ne_none_iff_exists'.1 stands with ⟨kind, here⟩
    rcases chart_eq_some_iff.1 here with ⟨found, found_eq, _⟩
    apply isListed_of_isFileName
    exact sound.isFileName_of_at? found_eq _ (List.mem_map_of_mem mem)

/-- What a listing tells of some children, before it is sorted. -/
def namedEntries (children : List (FileName × Node)) : List Entry :=
  children.filterMap fun (name, node) =>
    (Bytes.toText? name).map fun name => (⟨name, node.kind⟩ : Entry)

theorem mem_namedEntries_iff {entry : Entry} : entry ∈ namedEntries children ↔
    ∃ node, (Bytes.ofText entry.name, node) ∈ children ∧ node.kind = entry.kind := by
  rw [namedEntries, List.mem_filterMap]
  constructor
  · rintro ⟨⟨name, node⟩, mem, shown⟩
    rcases Option.map_eq_some_iff.1 shown with ⟨text, read, rfl⟩
    exact ⟨node, Bytes.ofText_of_toText? read ▸ mem, rfl⟩
  · rintro ⟨node, mem, kind⟩
    exact ⟨_, mem, by simp [Bytes.toText?_ofText, kind]⟩

theorem nodup_namedEntries (distinct : (children.map Prod.fst).Nodup) :
    ((namedEntries children).map fun entry => Bytes.ofText entry.name).Nodup := by
  have sublist : ((namedEntries children).map fun entry => Bytes.ofText entry.name).Sublist
      (children.map Prod.fst) := by
    clear distinct
    induction children with
    | nil => exact .slnil
    | cons child children ih =>
        rcases child with ⟨name, node⟩
        cases read : Bytes.toText? name with
        | none =>
            simp only [namedEntries, List.filterMap_cons, read, Option.map_none]
            exact ih.cons name
        | some text =>
            simp only [namedEntries, List.filterMap_cons, read, Option.map_some, List.map_cons,
              Bytes.ofText_of_toText? read]
            exact ih.cons_cons name
  exact sublist.nodup distinct

/-- A sorted listing tells of all children whose names are texts, in the order of their names. -/
theorem lists_namedEntries {texts : List String} (distinct : (children.map Prod.fst).Nodup)
    (here : node.at? (texts.map Bytes.ofText) = some (.directory children)) :
    node.chart.Lists texts
      ((namedEntries children).mergeSort fun left right => left.name ≤ right.name) := by
  constructor
  case increasing =>
    have transitive : ∀ first second third : Entry, decide (first.name ≤ second.name) = true →
        decide (second.name ≤ third.name) = true → decide (first.name ≤ third.name) = true := by
      simp only [decide_eq_true_iff]
      intro _ _ _
      exact le_trans
    have total : ∀ first second : Entry,
        (decide (first.name ≤ second.name) || decide (second.name ≤ first.name)) = true := by
      simp only [Bool.or_eq_true, decide_eq_true_iff]
      intro _ _
      exact le_total _ _
    have sorted := List.pairwise_mergeSort transitive total (namedEntries children)
    have perm := List.mergeSort_perm (namedEntries children) fun left right =>
      decide (left.name ≤ right.name)
    have distinctTexts := ((perm.map fun entry => Bytes.ofText entry.name).nodup_iff).2
      (nodup_namedEntries distinct)
    rw [List.pairwise_map]
    apply (sorted.and (List.pairwise_map.1 distinctTexts)).imp
    rintro first second ⟨le, different⟩
    have namesDiffer : first.name ≠ second.name := fun same => different (by rw [same])
    exact Bytes.ofText_lt_iff.2 (lt_of_le_of_ne (decide_eq_true_iff.1 le) namesDiffer)
  case mem_iff =>
    intro entry
    rw [List.mem_mergeSort, mem_namedEntries_iff, chart_eq_some_iff, List.map_append,
      List.map_singleton]
    simp only [at?_concat_eq_some_iff, here, Option.some.injEq, directory.injEq]
    constructor
    · rintro ⟨found, mem, kind⟩
      exact ⟨found, ⟨_, rfl, (lookup_eq_some_iff_mem distinct).2 mem⟩, kind⟩
    · rintro ⟨found, ⟨_, rfl, lookup⟩, kind⟩
      exact ⟨found, mem_of_lookup lookup, kind⟩

end Charts

end Node

end Host

end OwnerCoverage
