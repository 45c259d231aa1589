import Mathlib.Logic.Function.Basic
import OwnerCoverage.Proofs.FileSystem.Chart
import OwnerCoverage.Proofs.FileSystem.Lookup
import OwnerCoverage.Proofs.FileSystem.Operations

/-!
# What stands where in a tree in memory

The contents of a tree forget the indices of its nodes and keep what stands at each place. An
operation that succeeds changes them at the places that it names, and one that fails leaves the
whole tree as it was: a file in the way is met before anything is created.
-/

namespace OwnerCoverage

/-- What stands at a place of a tree of files. -/
inductive Content where
  | file (text : String)
  | directory
deriving DecidableEq, Repr

namespace Content

def kind : Content → NodeKind
  | .file _ => .file
  | .directory => .directory

def isFile : Content → Bool
  | .file _ => true
  | .directory => false

end Content

/-- What stands at each place of a tree, if anything does. -/
abbrev Contents := List String → Option Content

namespace Contents

/-- The kinds of what stands at each place. -/
def chart (contents : Contents) : Chart := fun names => (contents names).map Content.kind

/-- Whether a file stands at a place or above it. -/
def Blocks (contents : Contents) (names : List String) : Prop :=
  ∃ before ∈ names.inits, (contents before).any Content.isFile = true

instance (contents : Contents) (names : List String) : Decidable (contents.Blocks names) :=
  inferInstanceAs (Decidable (∃ before ∈ names.inits, _))

/-- The contents in which a place and all places above it are directories. -/
def withDirectories (contents : Contents) (names : List String) : Contents := fun place =>
  if place <+: names then some .directory else contents place

/-- The contents in which a file stands at a place, and directories above it. -/
def withFile (contents : Contents) (names : List String) (text : String) : Contents :=
  Function.update (contents.withDirectories names.dropLast) names (some (.file text))

variable {contents : Contents} {names : List String}

theorem blocks_iff : contents.Blocks names ↔
    ∃ before text, before <+: names ∧ contents before = some (.file text) := by
  constructor
  · rintro ⟨before, mem, file⟩
    rcases here : contents before with _ | ⟨text | _⟩
    · simp [here] at file
    · exact ⟨before, text, (List.mem_inits _ _).1 mem, here⟩
    · simp [here, Content.isFile] at file
  · rintro ⟨before, text, starts, here⟩
    exact ⟨before, (List.mem_inits _ _).2 starts, by simp [here, Content.isFile]⟩

theorem chart_eq_directory_iff :
    contents.chart names = some .directory ↔ contents names = some .directory := by
  rcases here : contents names with _ | ⟨text | _⟩ <;> simp [chart, here, Content.kind]

theorem directory_of_append (grounded : contents.chart.Grounded) {rest : List String}
    (longer : rest ≠ []) (stands : contents (names ++ rest) ≠ none) :
    contents names = some .directory := by
  apply chart_eq_directory_iff.1
  apply grounded.directory_of_append longer
  simpa [chart] using stands

theorem directory_of_isPrefix (grounded : contents.chart.Grounded) {before : List String}
    (starts : before <+: names) (directory : contents names = some .directory) :
    contents before = some .directory := by
  rcases starts with ⟨rest, rfl⟩
  by_cases same : rest = []
  · subst same
    rwa [List.append_nil] at directory
  · exact directory_of_append grounded same (by simp [directory])

theorem not_blocks_of_directory (grounded : contents.chart.Grounded)
    (directory : contents names = some .directory) : ¬contents.Blocks names := by
  rw [blocks_iff]
  rintro ⟨before, text, starts, file⟩
  rw [directory_of_isPrefix grounded starts directory] at file
  simp at file

/-- Nothing is in the way below a directory where nothing stands. -/
theorem not_blocks_of_missing (grounded : contents.chart.Grounded)
    (directory : contents names = some .directory) {name : String}
    (missing : contents (names ++ [name]) = none) (rest : List String) :
    ¬contents.Blocks (names ++ name :: rest) := by
  rw [blocks_iff]
  rintro ⟨before, text, starts, file⟩
  rw [List.append_cons] at starts
  rcases List.prefix_or_prefix_of_prefix starts (List.prefix_append (names ++ [name]) rest) with
    short | ⟨more, rfl⟩
  · rcases List.prefix_concat_iff.1 short with rfl | short
    · rw [missing] at file
      simp at file
    · rw [directory_of_isPrefix grounded short directory] at file
      simp at file
  · by_cases same : more = []
    · subst same
      rw [List.append_nil, missing] at file
      simp at file
    · have stands : contents (names ++ [name] ++ more) ≠ none := by
        rw [file]
        exact Option.some_ne_none _
      have above := directory_of_append grounded same stands
      rw [missing] at above
      simp at above

theorem blocks_of_blocks_update {place : List String}
    (blocks : Blocks (Function.update contents place (some .directory)) names) :
    contents.Blocks names := by
  rcases blocks_iff.1 blocks with ⟨before, text, starts, file⟩
  apply blocks_iff.2
  refine ⟨before, text, starts, ?_⟩
  by_cases here : before = place
  · subst here
    simp at file
  · rwa [Function.update_of_ne here] at file

theorem withDirectories_of_directory (grounded : contents.chart.Grounded)
    (directory : contents names = some .directory) : contents.withDirectories names = contents := by
  funext place
  rw [withDirectories]
  split
  · rename_i starts
    exact (directory_of_isPrefix grounded starts directory).symm
  · rfl

theorem withDirectories_update {place : List String} (starts : place <+: names) :
    withDirectories (Function.update contents place (some .directory)) names =
      contents.withDirectories names := by
  funext other
  rw [withDirectories, withDirectories]
  split
  · rfl
  · rename_i outside
    apply Function.update_of_ne
    rintro rfl
    exact outside starts

end Contents

/-- What a node of the arena is without the indices of its children. -/
def NodeContent.forget : NodeContent → Content
  | .file text => .file text
  | .directory _ => .directory

namespace MemoryTree

/-- What stands at the places of a tree. -/
def contents (tree : MemoryTree) : Contents := fun names =>
  (tree.follow 0 names).bind fun index => tree.nodes[index]?.map fun node => node.content.forget

variable {tree : MemoryTree} {names above : List String} {name text : String} {parent index : Nat}
  {content : NodeContent} {children : List (String × Nat)}

theorem contents_eq_some_iff {shown : Content} : tree.contents names = some shown ↔
    ∃ index node, tree.follow 0 names = some index ∧ tree.nodes[index]? = some node ∧
      node.content.forget = shown := by
  simp [contents, Option.bind_eq_some_iff]

theorem contents_eq_directory_iff : tree.contents names = some .directory ↔
    ∃ index children, tree.follow 0 names = some index ∧
      tree.children? index = some children := by
  rw [contents_eq_some_iff]
  apply exists_congr
  intro index
  constructor
  · rintro ⟨⟨nodeName, text | children⟩, here, atIndex, directory⟩
    · exact absurd directory (by simp [NodeContent.forget])
    · exact ⟨children, here, by simp [children?, atIndex]⟩
  · rintro ⟨children, here, directory⟩
    rw [children?_eq] at directory
    rcases Option.bind_eq_some_iff.1 directory with ⟨⟨nodeName, text | listed⟩, atIndex, same⟩
    · exact absurd same (by simp [contentChildren?])
    · exact ⟨_, here, atIndex, rfl⟩

theorem contents_eq_file_iff : tree.contents names = some (.file text) ↔
    ∃ index name, tree.follow 0 names = some index ∧
      tree.nodes[index]? = some ⟨name, .file text⟩ := by
  rw [contents_eq_some_iff]
  apply exists_congr
  intro index
  constructor
  · rintro ⟨⟨nodeName, text | children⟩, here, atIndex, file⟩
    · rw [NodeContent.forget, Content.file.injEq] at file
      exact ⟨nodeName, here, file ▸ atIndex⟩
    · exact absurd file (by simp [NodeContent.forget])
  · rintro ⟨nodeName, here, atIndex⟩
    exact ⟨_, here, atIndex, rfl⟩

theorem kind_forget (node : TreeNode) : node.content.forget.kind = node.kind := by
  rcases node with ⟨name, text | children⟩ <;> rfl

theorem chart_eq_some_iff {kind : NodeKind} : tree.contents.chart names = some kind ↔
    ∃ index node, tree.follow 0 names = some index ∧ tree.nodes[index]? = some node ∧
      node.kind = kind := by
  rw [Contents.chart, Option.map_eq_some_iff]
  simp only [contents_eq_some_iff]
  constructor
  · rintro ⟨shown, ⟨index, node, here, atIndex, rfl⟩, rfl⟩
    exact ⟨index, node, here, atIndex, (kind_forget node).symm⟩
  · rintro ⟨index, node, here, atIndex, rfl⟩
    exact ⟨_, ⟨index, node, here, atIndex, rfl⟩, kind_forget node⟩

theorem contents_names (path : String) : tree.contents (Path.names path) =
    (tree.node? path).map fun node => node.content.forget := by
  rw [contents, node?, Option.map_bind]
  rfl

theorem exists_of_stands (stands : tree.contents.chart names ≠ none) :
    ∃ index, tree.follow 0 names = some index := by
  rcases Option.ne_none_iff_exists'.1 stands with ⟨kind, here⟩
  rcases chart_eq_some_iff.1 here with ⟨index, _, follow, _⟩
  exact ⟨index, follow⟩

namespace WellFormed

/-- A node stands wherever names lead. -/
theorem contents_eq_none_iff (wellFormed : tree.WellFormed) :
    tree.contents names = none ↔ tree.follow 0 names = none := by
  rw [contents, Option.bind_eq_none_iff]
  constructor
  · intro nothing
    rw [Option.eq_none_iff_forall_ne_some]
    intro index here
    have inside := wellFormed.lt_size_of_follow here
    have absent := nothing index here
    simp [inside] at absent
  · intro nothing index here
    rw [nothing] at here
    exact absurd here (by simp)

theorem contents_root (wellFormed : tree.WellFormed) : tree.contents [] = some .directory := by
  rcases wellFormed.root with ⟨children, root⟩
  exact contents_eq_directory_iff.2 ⟨0, children, rfl, root⟩

theorem grounded (wellFormed : tree.WellFormed) : tree.contents.chart.Grounded := by
  constructor
  case closed =>
    intro names name stands
    rcases exists_of_stands stands with ⟨index, here⟩
    rcases wellFormed.follow_concat_iff.1 here with ⟨parent, parentHere, children, directory, _⟩
    rw [Contents.chart, contents_eq_directory_iff.2 ⟨parent, children, parentHere, directory⟩]
    rfl
  case listed =>
    intro names stands
    rcases exists_of_stands stands with ⟨index, here⟩
    exact wellFormed.isListed_of_follow here

/-- Names lead to each node, and to no node but theirs. -/
theorem exists_unique_names (wellFormed : tree.WellFormed) (inside : index < tree.nodes.size) :
    ∃! names, tree.follow 0 names = some index := by
  have exists_names : ∃ names, tree.follow 0 names = some index := by
    -- The induction is on the node: its directory comes before it.
    induction index using Nat.strong_induction_on with
    | _ index ih =>
        rcases Nat.eq_zero_or_pos index with rfl | positive
        · exact ⟨[], rfl⟩
        · rcases wellFormed.attached positive inside with ⟨parent, name, links⟩
          have before := wellFormed.above links
          rcases ih parent before (before.trans inside) with ⟨names, here⟩
          exact ⟨names ++ [name], wellFormed.follow_concat_iff.2 ⟨parent, here, links⟩⟩
  rcases exists_names with ⟨names, here⟩
  exact ⟨names, here, fun others there => wellFormed.follow_injective there here⟩

/-- The children of a directory are all that stands directly below it, in the order of names. -/
theorem lists_childEntries (wellFormed : tree.WellFormed) (here : tree.follow 0 names = some index)
    (directory : tree.children? index = some children) :
    tree.contents.chart.Lists names (tree.childEntries children) := by
  constructor
  case increasing =>
    have names_eq : (tree.childEntries children).map (fun entry => Bytes.ofText entry.name) =
        (children.map Prod.fst).map Bytes.ofText := by
      rw [← wellFormed.map_name_childEntries directory, List.map_map]
      rfl
    rw [names_eq, List.pairwise_map]
    exact (wellFormed.sorted directory).imp Bytes.ofText_lt_iff.2
  case mem_iff =>
    intro entry
    rw [chart_eq_some_iff, childEntries, List.mem_filterMap]
    constructor
    · rintro ⟨⟨name, child⟩, mem, shown⟩
      rcases Option.map_eq_some_iff.1 shown with ⟨node, atChild, rfl⟩
      have links : tree.Links index name child := ⟨children, directory, mem⟩
      have named := wellFormed.named links
      rw [nameAt?, atChild, Option.map_some, Option.some.injEq] at named
      have follow := wellFormed.follow_concat_iff.2 ⟨index, here, links⟩
      exact ⟨child, node, named ▸ follow, atChild, rfl⟩
    · rintro ⟨child, node, follow, atChild, kind⟩
      rcases wellFormed.follow_concat_iff.1 follow with ⟨parent, parentHere, links⟩
      rw [here, Option.some.injEq] at parentHere
      subst parentHere
      have named := wellFormed.named links
      rw [nameAt?, atChild, Option.map_some, Option.some.injEq] at named
      rcases links with ⟨listed, found, mem⟩
      rw [directory, Option.some.injEq] at found
      subst found
      exact ⟨(entry.name, child), mem, by simp [atChild, named, kind]⟩

/-- No more places hold a node than there are nodes. -/
theorem within (wellFormed : tree.WellFormed) : tree.contents.chart.Within tree.nodes.size := by
  choose! namesOf leads using fun index (inside : index < tree.nodes.size) =>
    (wellFormed.exists_unique_names inside).exists
  refine ⟨(Finset.range tree.nodes.size).image namesOf, ?_, ?_⟩
  · intro names stands
    rcases exists_of_stands stands with ⟨index, here⟩
    have inside := wellFormed.lt_size_of_follow here
    apply Finset.mem_image.2
    exact ⟨index, Finset.mem_range.2 inside,
      wellFormed.follow_injective (leads index inside) here⟩
  · apply Finset.card_image_le.trans
    rw [Finset.card_range]

end WellFormed

section Growth

/-- A new child is found under its name in its directory, and nothing else is found anew. -/
theorem follow_addChild (wellFormed : tree.WellFormed) (here : tree.follow 0 above = some parent)
    (directory : tree.children? parent = some children)
    (new : tree.childIndex? parent name = none) (listed : Path.IsListed name)
    (childless : ∀ child, child ∉ (contentChildren? content).getD []) (names : List String) :
    (tree.addChild parent name content).1.follow 0 names =
      if names = above ++ [name] then some tree.nodes.size else tree.follow 0 names := by
  have extended := wellFormed.addChild directory new listed childless
  have noLink := wellFormed.childIndex?_eq_none_iff.1 new
  have inside := lt_size_of_children? directory
  induction names using List.reverseRecOn with
  | nil => simp [follow]
  | append_singleton names last ih =>
      apply Option.ext
      intro index
      rw [extended.follow_concat_iff, ih]
      simp only [links_addChild_iff directory childless]
      by_cases same : names ++ [last] = above ++ [name]
      · rcases List.append_inj' same rfl with ⟨rfl, sameLast⟩
        rw [List.singleton_inj] at sameLast
        subst sameLast
        rw [if_pos rfl, if_neg (by simp), Option.some.injEq]
        constructor
        · rintro ⟨found, follow, ⟨rfl, _, rfl⟩ | links⟩
          · rfl
          · rw [here, Option.some.injEq] at follow
            exact absurd (follow ▸ links) (noLink index)
        · rintro rfl
          exact ⟨parent, here, Or.inl ⟨rfl, rfl, rfl⟩⟩
      · rw [if_neg same, wellFormed.follow_concat_iff]
        by_cases atNew : names = above ++ [name]
        · subst atNew
          rw [if_pos rfl]
          constructor
          · rintro ⟨found, follow, ⟨rfl, _, _⟩ | ⟨listed, directory, _⟩⟩
            · rw [Option.some.injEq] at follow
              omega
            · rw [Option.some.injEq] at follow
              have small := lt_size_of_children? directory
              omega
          · rintro ⟨found, follow, _⟩
            rcases wellFormed.follow_concat_iff.1 follow with ⟨other, otherHere, links⟩
            rw [here, Option.some.injEq] at otherHere
            exact absurd (otherHere ▸ links) (noLink found)
        · rw [if_neg atNew]
          apply exists_congr
          intro found
          apply and_congr_right
          intro follow
          constructor
          · rintro (⟨rfl, rfl, _⟩ | links)
            · have sameNames := wellFormed.follow_injective follow here
              exact absurd (by rw [sameNames]) same
            · exact links
          · exact Or.inr

theorem contents_addChild (wellFormed : tree.WellFormed) (here : tree.follow 0 above = some parent)
    (directory : tree.children? parent = some children)
    (new : tree.childIndex? parent name = none) (listed : Path.IsListed name)
    (childless : ∀ child, child ∉ (contentChildren? content).getD []) :
    (tree.addChild parent name content).1.contents =
      Function.update tree.contents (above ++ [name]) (some content.forget) := by
  funext names
  rw [contents, follow_addChild wellFormed here directory new listed childless]
  by_cases atNew : names = above ++ [name]
  · subst atNew
    rw [if_pos rfl, Function.update_self, Option.bind_some, getElem?_addChild, if_pos rfl]
    rfl
  · rw [if_neg atNew, Function.update_of_ne atNew, contents]
    apply Option.bind_congr
    intro index follow
    have old := wellFormed.lt_size_of_follow follow
    rw [getElem?_addChild, if_neg (Nat.ne_of_lt old)]
    split
    · rcases tree.nodes[index]? with _ | ⟨_, _ | _⟩ <;> rfl
    · rfl

theorem follow_setText (file : tree.children? index = none) (start : Nat) (names : List String) :
    (tree.setText index text).follow start names = tree.follow start names := by
  induction names generalizing start with
  | nil => rfl
  | cons name names ih =>
      rw [follow, follow, childIndex?, childIndex?, children?_setText file]
      cases (tree.children? start).bind fun children => children.lookup name with
      | none => rfl
      | some child => exact ih child

theorem contents_setText (wellFormed : tree.WellFormed) (here : tree.follow 0 names = some index)
    (file : tree.children? index = none) :
    (tree.setText index text).contents =
      Function.update tree.contents names (some (.file text)) := by
  funext others
  rw [contents, follow_setText file]
  by_cases same : others = names
  · subst same
    have inside := wellFormed.lt_size_of_follow here
    simp [here, setText, Array.getElem?_modify, inside, NodeContent.forget]
  · rw [Function.update_of_ne same, contents]
    apply Option.bind_congr
    intro other follow
    have different : index ≠ other := by
      rintro rfl
      exact same (wellFormed.follow_injective follow here)
    rw [setText, Array.getElem?_modify, if_neg different]

end Growth

/-- Whether a change of a tree leaves some contents, and the places as they were at which answers
are made to fail. -/
structure Becomes (tree changed : MemoryTree) (contents : Contents) : Prop where
  wellFormed : changed.WellFormed
  contents : changed.contents = contents
  failingStats : changed.failingStats = tree.failingStats
  failingLists : changed.failingLists = tree.failingLists

theorem Becomes.trans {middle changed : MemoryTree} {between contents : Contents}
    (first : tree.Becomes middle between) (second : middle.Becomes changed contents) :
    tree.Becomes changed contents :=
  ⟨second.wellFormed, second.contents, second.failingStats.trans first.failingStats,
    second.failingLists.trans first.failingLists⟩

theorem follow_concat (here : tree.follow 0 above = some parent) (name : String) :
    tree.follow 0 (above ++ [name]) = tree.childIndex? parent name := by
  rw [follow_append, here, Option.bind_some, follow_singleton]

/-- A child is added where nothing stands under its name. -/
theorem becomes_addChild (wellFormed : tree.WellFormed) (here : tree.follow 0 above = some parent)
    (directory : tree.contents above = some .directory)
    (missing : tree.contents (above ++ [name]) = none) (listed : Path.IsListed name)
    (childless : ∀ child, child ∉ (contentChildren? content).getD []) :
    tree.childIndex? parent name = none ∧
      (tree.addChild parent name content).1.follow 0 (above ++ [name]) = some tree.nodes.size ∧
        tree.Becomes (tree.addChild parent name content).1
          (Function.update tree.contents (above ++ [name]) (some content.forget)) := by
  rcases contents_eq_directory_iff.1 directory with ⟨index, children, follow, inside⟩
  rw [here, Option.some.injEq] at follow
  subst follow
  have new := wellFormed.contents_eq_none_iff.1 missing
  rw [follow_concat here] at new
  refine ⟨new, ?_, ?_, ?_, rfl, rfl⟩
  · rw [follow_addChild wellFormed here inside new listed childless, if_pos rfl]
  · exact wellFormed.addChild inside new listed childless
  · exact contents_addChild wellFormed here inside new listed childless

section Directories

theorem childDirectory_of_file (here : tree.follow 0 above = some parent)
    (file : tree.contents (above ++ [name]) = some (.file text)) :
    ∃ error, tree.childDirectory parent name = (.error error, tree) := by
  rcases contents_eq_file_iff.1 file with ⟨child, childName, follow, atChild⟩
  rw [follow_concat here] at follow
  have noDirectory : tree.children? child = none := by simp [children?, atChild]
  exact ⟨notADirectory name, by simp only [childDirectory, follow, noDirectory]⟩

theorem childDirectory_of_directory (here : tree.follow 0 above = some parent)
    (directory : tree.contents (above ++ [name]) = some .directory) :
    ∃ child, tree.childDirectory parent name = (.ok child, tree) ∧
      tree.follow 0 (above ++ [name]) = some child := by
  rcases contents_eq_directory_iff.1 directory with ⟨child, listed, follow, inside⟩
  refine ⟨child, ?_, follow⟩
  rw [follow_concat here] at follow
  simp only [childDirectory, follow, inside]

theorem childDirectory_of_missing (wellFormed : tree.WellFormed)
    (here : tree.follow 0 above = some parent) (directory : tree.contents above = some .directory)
    (missing : tree.contents (above ++ [name]) = none) (listed : Path.IsListed name) :
    ∃ child changed, tree.childDirectory parent name = (.ok child, changed) ∧
      changed.follow 0 (above ++ [name]) = some child ∧
        tree.Becomes changed
          (Function.update tree.contents (above ++ [name]) (some .directory)) := by
  have childless : ∀ child, child ∉ (contentChildren? (.directory [])).getD [] := by
    simp [contentChildren?]
  rcases becomes_addChild wellFormed here directory missing listed childless with
    ⟨new, follow, becomes⟩
  refine ⟨tree.nodes.size, (tree.addChild parent name (.directory [])).1, ?_, follow, becomes⟩
  simp only [childDirectory, new]
  rfl

/-- Where the directories are there already, none is made. -/
theorem makeDirectories_of_directory (wellFormed : tree.WellFormed)
    (here : tree.follow 0 above = some parent)
    (directory : tree.contents (above ++ names) = some .directory) :
    ∃ last, tree.makeDirectories parent names = (.ok last, tree) ∧
      tree.follow 0 (above ++ names) = some last := by
  induction names generalizing above parent with
  | nil => exact ⟨parent, rfl, by rwa [List.append_nil]⟩
  | cons name names ih =>
      rw [List.append_cons] at directory ⊢
      have first : tree.contents (above ++ [name]) = some .directory :=
        Contents.directory_of_isPrefix wellFormed.grounded (List.prefix_append _ names) directory
      rcases childDirectory_of_directory here first with ⟨child, found, follow⟩
      rcases ih follow directory with ⟨last, made, followLast⟩
      exact ⟨last, by simp only [makeDirectories, found, made], followLast⟩

/-- A file in the way is met before any directory is made. -/
theorem makeDirectories_of_blocks (wellFormed : tree.WellFormed)
    (here : tree.follow 0 above = some parent) (directory : tree.contents above = some .directory)
    (blocks : tree.contents.Blocks (above ++ names)) :
    ∃ error, tree.makeDirectories parent names = (.error error, tree) := by
  induction names generalizing above parent with
  | nil =>
      rw [List.append_nil] at blocks
      exact absurd blocks (Contents.not_blocks_of_directory wellFormed.grounded directory)
  | cons name names ih =>
      rcases child : tree.contents (above ++ [name]) with _ | ⟨text | _⟩
      · exact absurd blocks
          (Contents.not_blocks_of_missing wellFormed.grounded directory child names)
      · rcases childDirectory_of_file here child with ⟨error, failed⟩
        exact ⟨error, by simp only [makeDirectories, failed]⟩
      · rcases childDirectory_of_directory here child with ⟨index, found, follow⟩
        rw [List.append_cons] at blocks
        rcases ih follow child blocks with ⟨error, failed⟩
        exact ⟨error, by simp only [makeDirectories, found, failed]⟩

theorem makeDirectories_of_not_blocks (wellFormed : tree.WellFormed)
    (here : tree.follow 0 above = some parent) (directory : tree.contents above = some .directory)
    (listed : ∀ name ∈ names, Path.IsListed name)
    (free : ¬tree.contents.Blocks (above ++ names)) :
    ∃ last changed, tree.makeDirectories parent names = (.ok last, changed) ∧
      changed.follow 0 (above ++ names) = some last ∧
        tree.Becomes changed (tree.contents.withDirectories (above ++ names)) := by
  induction names generalizing tree above parent with
  | nil =>
      rw [List.append_nil]
      refine ⟨parent, tree, rfl, here, wellFormed, ?_, rfl, rfl⟩
      exact (Contents.withDirectories_of_directory wellFormed.grounded directory).symm
  | cons name names ih =>
      rcases List.forall_mem_cons.1 listed with ⟨listedFirst, listedRest⟩
      rw [List.append_cons] at free ⊢
      rcases child : tree.contents (above ++ [name]) with _ | ⟨text | _⟩
      · rcases childDirectory_of_missing wellFormed here directory child listedFirst with
          ⟨index, changed, created, follow, becomes⟩
        have created_directory : changed.contents (above ++ [name]) = some .directory := by
          rw [becomes.contents, Function.update_self]
        have still_free : ¬changed.contents.Blocks (above ++ [name] ++ names) := by
          rw [becomes.contents]
          exact fun blocks => free (Contents.blocks_of_blocks_update blocks)
        rcases ih becomes.wellFormed follow created_directory listedRest still_free with
          ⟨last, final, made, followLast, becomesFinal⟩
        rw [becomes.contents,
          Contents.withDirectories_update (List.prefix_append _ names)] at becomesFinal
        exact ⟨last, final, by simp only [makeDirectories, created, made], followLast,
          becomes.trans becomesFinal⟩
      · refine absurd (Contents.blocks_iff.2 ?_) free
        exact ⟨above ++ [name], text, List.prefix_append _ names, child⟩
      · rcases childDirectory_of_directory here child with ⟨index, found, follow⟩
        rcases ih wellFormed follow child listedRest free with
          ⟨last, changed, made, followLast, becomes⟩
        exact ⟨last, changed, by simp only [makeDirectories, found, made], followLast, becomes⟩

end Directories

section Writing

theorem writeChild_of_directory (here : tree.follow 0 above = some parent)
    (directory : tree.contents (above ++ [name]) = some .directory) (path text : String) :
    tree.writeChild parent name path text = (.error (isADirectory path), tree) := by
  rcases contents_eq_directory_iff.1 directory with ⟨child, children, follow, inside⟩
  rw [follow_concat here] at follow
  simp only [writeChild, follow, inside]

theorem writeChild_of_not_directory (wellFormed : tree.WellFormed)
    (here : tree.follow 0 above = some parent) (directory : tree.contents above = some .directory)
    (writable : tree.contents (above ++ [name]) ≠ some .directory) (listed : Path.IsListed name)
    (path text : String) :
    ∃ changed, tree.writeChild parent name path text = (.ok (), changed) ∧
      tree.Becomes changed
        (Function.update tree.contents (above ++ [name]) (some (.file text))) := by
  rcases child : tree.contents (above ++ [name]) with _ | ⟨old | _⟩
  · have childless : ∀ child, child ∉ (contentChildren? (.file text)).getD [] := by
      simp [contentChildren?]
    rcases becomes_addChild wellFormed here directory child listed childless with ⟨new, _, becomes⟩
    exact ⟨(tree.addChild parent name (.file text)).1, by simp only [writeChild, new], becomes⟩
  · rcases contents_eq_file_iff.1 child with ⟨index, childName, follow, atChild⟩
    have noDirectory : tree.children? index = none := by simp [children?, atChild]
    refine ⟨tree.setText index text, ?_, ?_, ?_, rfl, rfl⟩
    · rw [follow_concat here] at follow
      simp only [writeChild, follow, noDirectory]
    · exact wellFormed.setText noDirectory text
    · exact contents_setText wellFormed follow noDirectory
  · exact absurd child writable

end Writing

end MemoryTree

end OwnerCoverage
