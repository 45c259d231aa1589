import OwnerCoverage.Proofs.Host.Walk

/-!
# Files of a host inside a directory

A file of a host may be named in many ways, through links and out of the directory and back. Whether
it lies inside a directory is told by the places that the two paths lead to
(`pathWithin?_eq_some_iff`). Below the directory a node is named by its path from there, and that is
the path which is told for a file inside, unless no traversal comes to it
(`pathWithin?_eq_some_iff_isTargetOf`). The entry that a path names is another one than the file
that the path leads to if it is a link.
-/

namespace OwnerCoverage

namespace Host

theorem mapM_toText?_eq_some_iff {names : List FileName} {texts : List String} :
    names.mapM Bytes.toText? = some texts ↔ texts.map Bytes.ofText = names := by
  induction names generalizing texts with
  | nil => cases texts <;> simp
  | cons name names ih =>
      rw [List.mapM_cons]
      cases texts with
      | nil => simp [Option.bind_eq_some_iff]
      | cons text texts =>
          simp only [Option.pure_def, Option.bind_eq_bind, Option.bind_eq_some_iff,
            Option.some.injEq, List.cons_eq_cons, List.map_cons]
          constructor
          · rintro ⟨_, read, _, readRest, rfl, rfl⟩
            exact ⟨Bytes.ofText_of_toText? read, ih.1 readRest⟩
          · rintro ⟨rfl, rest⟩
            exact ⟨text, Bytes.toText?_ofText text, texts, ih.2 rest, rfl, rfl⟩

/-- The place that a path leads to, if it leads anywhere. -/
def Tree.place? (tree : Tree) (follows : Bool) (working : Place) (path : Bytes) : Option Place :=
  match tree.resolve follows working path with
  | .error _ => none
  | .ok trail => some trail.place

theorem Tree.place?_of_resolve {tree : Tree} {follows : Bool} {working : Place} {path : Bytes}
    {trail : Trail} (resolved : tree.resolve follows working path = .ok trail) :
    tree.place? follows working path = some trail.place := by
  simp only [place?, resolved]

namespace View

/-- The place of the directory entry that a path below the root names. -/
def entryPlace? (view : View) (path : String) : Option Place :=
  view.tree.place? false view.working (Bytes.ofText (view.hostPath path))

/-- Whether a path below the root names the same directory entry as a path of the host, which may be
a link. -/
def isEntryOf (view : View) (file path : String) : Bool :=
  view.entryPlace? path == view.tree.place? false view.working (Bytes.ofText file)

/-- Whether a path below the root names the directory entry that a path of the host finally leads
to. -/
def isTargetOf (view : View) (file path : String) : Bool :=
  view.entryPlace? path == view.tree.place? true view.working (Bytes.ofText file)

/-- Whether a path below the root names a file as a path of the host does: the directory entry with
that name, or the one that it finally leads to. -/
def isNamedBy (view : View) (file path : String) : Bool :=
  view.isTargetOf file path || view.isEntryOf file path

/-- Whether a traversal visits a node that is no directory under some path: the root itself, or a
node below it that it comes to through real directories which are not passed over. -/
def VisitsLeaf (view : View) (skipped : List String) (path : String) : Prop :=
  ∃ node names, view.tree.stat view.working (Bytes.ofText view.root) = .ok node ∧
    Path.ofNames names = path ∧ node.chart.Visits skipped names ∧
      node.chart names ≠ some .directory

variable {view : View} {node : Node} {children : List (FileName × Node)} {names : List String}
  {outer last trail : Trail} {file path : String} {contents : Bytes}

/-- A path that does not name a link names what it leads to. -/
theorem isTargetOf_eq_isEntryOf
    (known : view.tree.stat view.working (Bytes.ofText file) = .ok node)
    (noLink : node.kind ≠ .symlink) : view.isTargetOf file path = view.isEntryOf file path := by
  rw [Tree.stat] at known
  rcases resolved : view.tree.resolve false view.working (Bytes.ofText file) with fault | trail
  · simp [resolved] at known
  · rw [resolved, Except.ok.injEq] at known
    have followed := Tree.resolve_true_of_no_link resolved (by rwa [known])
    rw [isTargetOf, isEntryOf, Tree.place?_of_resolve resolved, Tree.place?_of_resolve followed]

theorem pathWithin?_eq_some_iff
    (root : view.tree.resolve true view.working (Bytes.ofText view.root) = .ok outer)
    (target : view.tree.resolve true view.working (Bytes.ofText file) = .ok last) :
    view.pathWithin? file = some path ↔ ∃ names : List String,
      last.place = (names.map Bytes.ofText).reverse ++ outer.place ∧
        "/".intercalate names = path := by
  have length (trail : Trail) : trail.length = trail.place.length := by simp [Trail.place]
  simp only [pathWithin?, root, target, length]
  by_cases inside : outer.place <:+ last.place
  · rcases inside with ⟨inner, split⟩
    rw [← split, if_pos (List.isSuffixOf_iff_suffix.2 (List.suffix_append inner outer.place)),
      List.length_append, Nat.add_sub_cancel, List.take_left, Option.map_eq_some_iff]
    constructor
    · rintro ⟨names, read, rfl⟩
      rw [mapM_toText?_eq_some_iff] at read
      exact ⟨names, by rw [read, List.reverse_reverse], rfl⟩
    · rintro ⟨names, same, rfl⟩
      have inner_eq := List.append_cancel_right same
      exact ⟨names, by rw [mapM_toText?_eq_some_iff, inner_eq, List.reverse_reverse], rfl⟩
  · rw [if_neg (mt List.isSuffixOf_iff_suffix.1 inside)]
    refine iff_of_false (by simp) ?_
    rintro ⟨names, split, _⟩
    exact inside ⟨_, split.symm⟩

/-- The file that a path leads to does not stand at the place of another kind of node. -/
theorem place_ne_of_file {other : Trail} {follows : Bool} {first second : Bytes}
    (resolved : view.tree.resolve follows view.working first = .ok other)
    (target : view.tree.resolve true view.working second = .ok last)
    (atTarget : view.tree.nodeAt last = .file contents)
    (noFile : (view.tree.nodeAt other).kind ≠ .file) : other.place ≠ last.place := by
  intro same
  have equal := (Tree.placed_of_resolve resolved).eq_of_place_eq
    (Tree.placed_of_resolve target) same
  rw [equal, atTarget] at noFile
  exact noFile rfl

section Below

theorem hostPath_root (view : View) : view.hostPath Path.root = view.root := by
  rw [hostPath_eq, Path.names_root]
  rfl

/-- The names that lead from a directory to a file are names of files, and at least one. -/
theorem listed_of_place (sound : view.tree.Sound) {first second : Bytes}
    (root : view.tree.resolve true view.working first = .ok outer)
    (directory : view.tree.nodeAt outer = .directory children)
    (target : view.tree.resolve true view.working second = .ok last)
    (atTarget : view.tree.nodeAt last = .file contents)
    (split : last.place = (names.map Bytes.ofText).reverse ++ outer.place) :
    names ≠ [] ∧ ∀ name ∈ names, Path.IsListed name := by
  constructor
  · rintro rfl
    exact place_ne_of_file root target atTarget (by simp [directory, Node.kind]) split.symm
  · have placed := Tree.placed_of_resolve root
    have below := (Tree.placed_of_resolve target).at?_of_place_eq placed split
    have soundOuter := Node.Sound.of_inside sound placed.real.nodeAt
    intro name mem
    apply Node.isListed_of_isFileName
    exact soundOuter.isFileName_of_at? below _ (List.mem_map_of_mem mem)

theorem Starts.resolve_root {fewer : Nat} (starts : view.Starts children trail fewer)
    (root : view.tree.stat view.working (Bytes.ofText view.root) = .ok (.directory children))
    (follows : Bool) :
    view.tree.resolve follows view.working (Bytes.ofText view.root) = .ok trail := by
  have noName : ∀ name ∈ Path.names Path.root, IsFileName (Bytes.ofText name) := by simp
  have takes : view.Takes Path.root := by
    by_contra refused
    have failed := starts.refuse noName refused false
    rw [hostPath_root] at failed
    simp [Tree.stat, failed] at root
  have resolved := starts.resolve noName takes follows
  rwa [hostPath_root, Path.names_root, List.map_nil, Tree.locate_nil] at resolved

/-- A path whose stat succeeds names the entry at the end of its names. -/
theorem Starts.entryPlace?_eq {fewer : Nat} (starts : view.Starts children trail fewer)
    (sound : view.tree.Sound) (stands : (Node.directory children).chart names ≠ none)
    (known : ∃ entry, view.stat (Path.ofNames names) = .ok entry) :
    view.entryPlace? (Path.ofNames names) =
      some ((names.map Bytes.ofText).reverse ++ trail.place) := by
  rcases Option.ne_none_iff_exists'.1 stands with ⟨kind, here⟩
  have takes := (starts.exists_stat_iff sound here).1 known
  rcases starts.exists_at? sound here with ⟨read, isFileName, node, _, found⟩
  rcases starts.resolve_of_at? isFileName takes found false (by simp) with
    ⟨last, resolved, _, place⟩
  rw [read] at place
  rw [entryPlace?, Tree.place?_of_resolve resolved, place]

/-- What is told for a file inside a directory is the path that its names from there make up. -/
theorem pathWithin?_eq_some_iff_ofNames (sound : view.tree.Sound)
    (root : view.tree.resolve true view.working (Bytes.ofText view.root) = .ok outer)
    (directory : view.tree.nodeAt outer = .directory children)
    (target : view.tree.resolve true view.working (Bytes.ofText file) = .ok last)
    (atTarget : view.tree.nodeAt last = .file contents) :
    view.pathWithin? file = some path ↔ ∃ names : List String, names ≠ [] ∧
      (∀ name ∈ names, Path.IsListed name) ∧
      last.place = (names.map Bytes.ofText).reverse ++ outer.place ∧
      Path.ofNames names = path := by
  rw [pathWithin?_eq_some_iff root target]
  constructor
  · rintro ⟨names, split, path_eq⟩
    rcases listed_of_place sound root directory target atTarget split with ⟨nonempty, listed⟩
    exact ⟨names, nonempty, listed, split, (Path.ofNames_of_ne_nil nonempty).trans path_eq⟩
  · rintro ⟨names, nonempty, _, split, path_eq⟩
    exact ⟨names, split, (Path.ofNames_of_ne_nil nonempty).symm.trans path_eq⟩

/-- Below a real directory, the path that is told for a file inside names the entry of that file. -/
theorem pathWithin?_eq_some_iff_of_directory (sound : view.tree.Sound)
    (root : view.tree.stat view.working (Bytes.ofText view.root) = .ok (.directory children))
    (target : view.tree.resolve true view.working (Bytes.ofText file) = .ok last)
    (atTarget : view.tree.nodeAt last = .file contents)
    (stands : (Node.directory children).chart names ≠ none)
    (known : ∃ entry, view.stat (Path.ofNames names) = .ok entry) :
    view.pathWithin? file = some (Path.ofNames names) ↔
      view.isTargetOf file (Path.ofNames names) = true := by
  rcases exists_starts root with ⟨trail, fewer, starts⟩
  have rootTrail := starts.resolve_root root true
  have listedNames := (starts.sound sound).grounded.listed stands
  rw [pathWithin?_eq_some_iff_ofNames sound rootTrail starts.directory target atTarget, isTargetOf,
    starts.entryPlace?_eq sound stands known, Tree.place?_of_resolve target, beq_iff_eq,
    Option.some.injEq]
  constructor
  · rintro ⟨others, _, listed, split, path_eq⟩
    rw [split, Path.ofNames_injective listed listedNames path_eq]
  · intro split
    rcases listed_of_place sound rootTrail starts.directory target atTarget split.symm with
      ⟨nonempty, _⟩
    exact ⟨names, nonempty, listedNames, split.symm, rfl⟩

end Below

section Roots

/-- Nothing stands below a node that is no directory. -/
theorem names_eq_nil_of_chart (noDirectory : node.kind ≠ .directory)
    (stands : node.chart names ≠ none) : names = [] := by
  cases names with
  | nil => rfl
  | cons name names =>
      rcases Option.ne_none_iff_exists'.1 stands with ⟨kind, here⟩
      rcases Node.chart_eq_some_iff.1 here with ⟨found, below, _⟩
      rcases Option.bind_eq_some_iff.1 below with ⟨child, childFound, _⟩
      rcases Node.child?_eq_some_iff.1 childFound with ⟨children, rfl, _⟩
      exact absurd rfl noDirectory

theorem exists_resolve_root
    (root : view.tree.stat view.working (Bytes.ofText view.root) = .ok node) :
    ∃ trail, view.tree.resolve false view.working (Bytes.ofText view.root) = .ok trail ∧
      view.tree.nodeAt trail = node := by
  rw [Tree.stat] at root
  rcases resolved : view.tree.resolve false view.working (Bytes.ofText view.root) with fault | trail
  · simp [resolved] at root
  · rw [resolved, Except.ok.injEq] at root
    exact ⟨trail, rfl, root⟩

/-- A view follows the chart of its root, also if that is a link to a directory. -/
theorem follows_of_stat (sound : view.tree.Sound)
    (root : view.tree.stat view.working (Bytes.ofText view.root) = .ok node) :
    view.fileSystem.Follows node.chart := by
  by_cases directory : node.kind = .directory
  · rcases Node.kind_eq_directory_iff.1 directory with ⟨children, rfl⟩
    rcases exists_starts root with ⟨trail, fewer, starts⟩
    exact starts.follows sound
  · constructor
    case join => rfl
    case stat =>
      intro names kind entry here stat
      have stands : node.chart names ≠ none := by simp [here]
      have atRoot := names_eq_nil_of_chart directory stands
      subst atRoot
      have kind_eq : node.kind = kind := by simpa [Node.chart, Node.at?] using here
      have known : view.stat Path.root = .ok ⟨Path.baseName Path.root, node.kind⟩ := by
        simp only [View.stat, hostPath_root, root]
      rw [← kind_eq]
      exact Except.ok.inj (stat.symm.trans known)
    case list =>
      intro names entries here _
      have stands : node.chart names ≠ none := by simp [here]
      have atRoot := names_eq_nil_of_chart directory stands
      subst atRoot
      exact absurd (by simpa [Node.chart, Node.at?] using here) directory

theorem inside_of_stat (root : view.tree.stat view.working (Bytes.ofText view.root) = .ok node) :
    node.Inside (.directory view.tree.children) := by
  rcases exists_resolve_root root with ⟨trail, resolved, rfl⟩
  exact (Tree.placed_of_resolve resolved).real.nodeAt

theorem withinLimit_of_stat
    (root : view.tree.stat view.working (Bytes.ofText view.root) = .ok node) :
    node.chart.Within view.fileSystem.visitLimit :=
  node.within.mono (inside_of_stat root).size_le

/-- The path that is told for a file inside a directory names the entry of that file, among all
paths that a traversal of the directory comes to. If the directory is named by a link, the traversal
comes to that link only. -/
theorem pathWithin?_eq_some_iff_isTargetOf (sound : view.tree.Sound)
    (root : view.tree.stat view.working (Bytes.ofText view.root) = .ok node)
    (leads : view.tree.resolve true view.working (Bytes.ofText view.root) = .ok outer)
    (directory : view.tree.nodeAt outer = .directory children)
    (target : view.tree.resolve true view.working (Bytes.ofText file) = .ok last)
    (atTarget : view.tree.nodeAt last = .file contents) (stands : node.chart names ≠ none)
    (known : ∃ entry, view.stat (Path.ofNames names) = .ok entry) :
    view.pathWithin? file = some (Path.ofNames names) ↔
      view.isTargetOf file (Path.ofNames names) = true := by
  rcases exists_resolve_root root with ⟨trail, resolved, atTrail⟩
  by_cases noLink : node.kind ≠ .symlink
  · have same := Tree.resolve_true_of_no_link resolved (by rwa [atTrail])
    rw [leads, Except.ok.injEq] at same
    rw [← same, directory] at atTrail
    subst atTrail
    exact pathWithin?_eq_some_iff_of_directory sound root target atTarget stands known
  · rw [not_not] at noLink
    have atRoot := names_eq_nil_of_chart (by simp [noLink]) stands
    subst atRoot
    refine iff_of_false ?_ ?_
    · rw [pathWithin?_eq_some_iff_ofNames sound leads directory target atTarget]
      rintro ⟨others, nonempty, listed, _, path_eq⟩
      have noName : ∀ name ∈ ([] : List String), Path.IsListed name := by simp
      exact nonempty (Path.ofNames_injective listed noName path_eq)
    · intro isTarget
      have entry_eq : view.entryPlace? Path.root = some trail.place := by
        rw [entryPlace?, hostPath_root, Tree.place?_of_resolve resolved]
      rw [isTargetOf, Path.ofNames, entry_eq, Tree.place?_of_resolve target, beq_iff_eq,
        Option.some.injEq] at isTarget
      exact place_ne_of_file resolved target atTarget (by simp [atTrail, noLink]) isTarget

end Roots

end View

end Host

end OwnerCoverage
