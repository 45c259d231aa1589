import OwnerCoverage.Proofs.Host.View
import OwnerCoverage.Proofs.Traversal.Charted

/-!
# Traversals of host directories

A view of a host directory follows the chart of what stands below its root through real directories,
which are no more nodes than the tree has. So a traversal ends, whatever links there are, and visits
exactly the places of that chart, as long as the host takes their paths
(`traversal_covers_real_nodes`).
-/

namespace OwnerCoverage

namespace Host

namespace View

/-- The walk over a directory of a host. -/
def traversal (view : View) (skippedNames : List String) : Traversal :=
  { fileSystem := view.fileSystem, skippedNames := skippedNames }

/-- Whether the host takes the paths of all that a traversal comes to. -/
def Readable (view : View) (chart : Chart) (skipped : List String) : Prop :=
  ∀ names, chart.Reached skipped names → view.Takes (Path.ofNames names)

variable {view : View} {children : List (FileName × Node)} {trail : Trail} {fewer : Nat}
  {skipped names : List String}

namespace Starts

theorem sound (starts : view.Starts children trail fewer) (sound : view.tree.Sound) :
    (Node.directory children).Sound := by
  apply Node.Sound.of_inside sound
  rw [← starts.directory]
  exact starts.real.nodeAt

theorem withinLimit (starts : view.Starts children trail fewer) :
    (Node.directory children).chart.Within view.fileSystem.visitLimit := by
  apply (Node.within (.directory children)).mono
  have inside := starts.real.nodeAt
  rw [starts.directory] at inside
  exact inside.size_le

/-- The path of a place is read as its names, and these lead to what stands there. -/
theorem exists_at? (starts : view.Starts children trail fewer) (sound : view.tree.Sound)
    {kind : NodeKind} (here : (Node.directory children).chart names = some kind) :
    Path.names (Path.ofNames names) = names ∧
      (∀ name ∈ Path.names (Path.ofNames names), IsFileName (Bytes.ofText name)) ∧
        ∃ node, node.kind = kind ∧
          (Node.directory children).at? ((Path.names (Path.ofNames names)).map Bytes.ofText) =
            some node := by
  have soundRoot := starts.sound sound
  have stands : (Node.directory children).chart names ≠ none := by simp [here]
  have read := Path.names_ofNames (soundRoot.grounded.listed stands)
  rcases Node.chart_eq_some_iff.1 here with ⟨node, found, kind_eq⟩
  rw [read]
  refine ⟨rfl, ?_, node, kind_eq, found⟩
  intro name mem
  exact soundRoot.isFileName_of_at? found _ (List.mem_map_of_mem mem)

theorem exists_stat_iff (starts : view.Starts children trail fewer) (sound : view.tree.Sound)
    {kind : NodeKind} (here : (Node.directory children).chart names = some kind) :
    (∃ entry, view.stat (Path.ofNames names) = .ok entry) ↔ view.Takes (Path.ofNames names) := by
  rcases starts.exists_at? sound here with ⟨_, isFileName, node, _, found⟩
  by_cases takes : view.Takes (Path.ofNames names)
  · exact iff_of_true ⟨_, starts.stat_of_at? isFileName takes found⟩ takes
  · refine iff_of_false ?_ takes
    simp [starts.stat_of_not_takes isFileName takes]

theorem exists_list_iff (starts : view.Starts children trail fewer) (sound : view.tree.Sound)
    (here : (Node.directory children).chart names = some .directory) :
    (∃ entries, view.list (Path.ofNames names) = .ok entries) ↔
      view.Takes (Path.ofNames names) := by
  rcases starts.exists_at? sound here with ⟨_, isFileName, node, kind, found⟩
  rcases Node.kind_eq_directory_iff.1 kind with ⟨inside, rfl⟩
  by_cases takes : view.Takes (Path.ofNames names)
  · exact iff_of_true ⟨_, starts.list_of_at? isFileName takes found⟩ takes
  · refine iff_of_false ?_ takes
    simp [starts.list_of_not_takes isFileName takes]

theorem follows (starts : view.Starts children trail fewer) (sound : view.tree.Sound) :
    view.fileSystem.Follows (Node.directory children).chart := by
  constructor
  case join => rfl
  case stat =>
    intro names kind entry here stat
    rcases starts.exists_at? sound here with ⟨read, isFileName, node, rfl, found⟩
    have takes := (starts.exists_stat_iff sound here).1 ⟨entry, stat⟩
    have known := starts.stat_of_at? isFileName takes found
    rw [Path.baseName, read] at known
    exact Except.ok.inj (stat.symm.trans known)
  case list =>
    intro names entries here list
    rcases starts.exists_at? sound here with ⟨read, isFileName, node, kind, found⟩
    rcases Node.kind_eq_directory_iff.1 kind with ⟨inside, rfl⟩
    have takes := (starts.exists_list_iff sound here).1 ⟨entries, list⟩
    have known := starts.list_of_at? isFileName takes found
    have sorted := Except.ok.inj (list.symm.trans known)
    rw [read] at found
    have soundInside := (starts.sound sound).of_inside (Node.inside_of_at? found)
    cases soundInside with
    | directory _ distinct _ =>
        rw [sorted]
        exact Node.lists_namedEntries distinct found

theorem sees_of_readable (starts : view.Starts children trail fewer) (sound : view.tree.Sound)
    (readable : view.Readable (Node.directory children).chart skipped) :
    ∀ node, (view.traversal skipped).Reaches (Chart.place []) node →
      (view.traversal skipped).Sees node := by
  have root : (Node.directory children).chart [] ≠ none := Option.some_ne_none _
  have grounded := (starts.sound sound).grounded
  apply Chart.sees_of_answers (starts.follows sound) grounded root
  · intro names reached
    rcases Option.ne_none_iff_exists'.1 reached.stands with ⟨kind, here⟩
    exact (starts.exists_stat_iff sound here).2 (readable names reached)
  · intro names reached directory
    exact (starts.exists_list_iff sound directory).2 (readable names reached)

/-- A traversal sees all that it reaches only if the host takes the paths of it. -/
theorem readable_of_sees (starts : view.Starts children trail fewer) (sound : view.tree.Sound)
    (sees : ∀ node, (view.traversal skipped).Reaches (Chart.place []) node →
      (view.traversal skipped).Sees node) :
    view.Readable (Node.directory children).chart skipped := by
  intro names reached
  have grounded := (starts.sound sound).grounded
  rcases sees _ (Chart.reaches_place (starts.follows sound) grounded sees reached) with
    ⟨entry, stat, _⟩
  rcases Option.ne_none_iff_exists'.1 reached.stands with ⟨kind, here⟩
  exact (starts.exists_stat_iff sound here).1 ⟨entry, stat⟩

/-- The stats of all that a traversal reaches succeed only if it sees all that. -/
theorem sees_of_known (starts : view.Starts children trail fewer) (sound : view.tree.Sound)
    (known : ∀ node, (view.traversal skipped).Reaches (Chart.place []) node →
      ∀ error, (view.traversal skipped).finding node ≠ .unknown error) :
    ∀ node, (view.traversal skipped).Reaches (Chart.place []) node →
      (view.traversal skipped).Sees node := by
  intro node reaches
  have root : (Node.directory children).chart [] ≠ none := Option.some_ne_none _
  have grounded := (starts.sound sound).grounded
  rcases Chart.exists_reached_of_reaches (starts.follows sound) grounded (Chart.reached_nil root)
    reaches with ⟨names, rfl, reached⟩
  rcases stat : view.stat (Path.ofNames names) with error | entry
  · exact absurd (Traversal.finds_iff.1 (.unknown stat)) (known _ reaches error)
  · rcases Option.ne_none_iff_exists'.1 reached.stands with ⟨kind, here⟩
    have takes := (starts.exists_stat_iff sound here).1 ⟨entry, stat⟩
    have entry_eq := (starts.follows sound).stat here stat
    subst entry_eq
    refine ⟨_, stat, ?_⟩
    intro directory _
    exact (starts.exists_list_iff sound (directory ▸ here)).2 takes

theorem exists_covers (starts : view.Starts children trail fewer) (sound : view.tree.Sound)
    (readable : view.Readable (Node.directory children).chart skipped) :
    ∃ places, (Node.directory children).chart.Covers skipped places ∧
      ∀ {σ : Type} (note : σ → Visit → σ) (state : σ) (limit : Nat),
        view.fileSystem.visitLimit ≤ limit →
          (view.traversal skipped).runWithin limit (Traversal.noting note) state =
            (.ok (), (places.map (Node.directory children).chart.visit).foldl note state) := by
  have root : (Node.directory children).chart [] ≠ none := Option.some_ne_none _
  exact Chart.exists_covers (starts.follows sound) (starts.sound sound).grounded
    starts.withinLimit root rfl (starts.sees_of_readable sound readable)

/-- Nothing but a path that the host refuses ends a traversal that always goes on. -/
theorem run_eq_ok_iff (starts : view.Starts children trail fewer) (sound : view.tree.Sound)
    {σ : Type} (note : σ → Visit → σ) (state : σ) :
    ((view.traversal skipped).run (Traversal.noting note) state).1 = .ok () ↔
      view.Readable (Node.directory children).chart skipped := by
  constructor
  · intro finished
    have root : (Node.directory children).chart [] ≠ none := Option.some_ne_none _
    have follows : (view.traversal skipped).fileSystem.Follows (Node.directory children).chart :=
      starts.follows sound
    rcases Chart.exists_outline follows (starts.sound sound).grounded starts.withinLimit root with
      ⟨places, outlines, room⟩
    have neverPrunes : ∀ visit state, (Traversal.noting note visit state).1 ≠ .prune := by
      simp [Traversal.noting]
    rw [Traversal.run, Traversal.runWithin_of_outline neverPrunes outlines.outline room,
      Traversal.visitAll_noting_eq_ok_iff] at finished
    apply starts.readable_of_sees sound
    apply starts.sees_of_known sound
    intro node reaches
    have mem := (Traversal.mem_outline_iff outlines.outline).2
      ⟨rfl, _, List.mem_singleton_self _, reaches⟩
    exact finished _ mem
  · intro readable
    rcases starts.exists_covers sound readable with ⟨places, _, run⟩
    exact congrArg Prod.fst (run note state _ (Nat.le_refl _))

end Starts

/-- The host takes all paths in a tree that is not too deep for the path of its root. -/
theorem takes_of_places (small : ∀ place ∈ (Node.directory children).places,
    (Bytes.ofText view.root ++ place.flatMap (slash :: ·)).length ≤ longestPath)
    (sound : (Node.directory children).Sound)
    (stands : (Node.directory children).chart names ≠ none) : view.Takes (Path.ofNames names) := by
  rcases Option.ne_none_iff_exists'.1 stands with ⟨kind, here⟩
  rcases Node.chart_eq_some_iff.1 here with ⟨node, found, _⟩
  have bound := small _ (Node.mem_places_of_at? found)
  have length := length_foldl_below_le view.root names
  rw [Takes, hostPath_eq, Path.names_ofNames (sound.grounded.listed stands)]
  exact length.trans bound

theorem readable_of_places (small : ∀ place ∈ (Node.directory children).places,
    (Bytes.ofText view.root ++ place.flatMap (slash :: ·)).length ≤ longestPath)
    (sound : (Node.directory children).Sound) (skipped : List String) :
    view.Readable (Node.directory children).chart skipped :=
  fun _ reached => takes_of_places small sound reached.stands

/-- A traversal of a real directory of a host that always goes on ends without an error exactly if
the host takes the paths of all that it comes to. Then it visits the root and all nodes below it,
under names that are texts, that it comes to through real directories which are not passed over:
each once, as the kind of node that it is, and in the order of their places. -/
theorem traversal_covers_real_nodes (sound : view.tree.Sound)
    (root : view.tree.stat view.working (Bytes.ofText view.root) = .ok (.directory children))
    (skipped : List String) :
    (∀ {σ : Type} (note : σ → Visit → σ) (state : σ),
      ((view.traversal skipped).run (Traversal.noting note) state).1 = .ok () ↔
        view.Readable (Node.directory children).chart skipped) ∧
    (view.Readable (Node.directory children).chart skipped →
      ∃ places, (Node.directory children).chart.Covers skipped places ∧
        ∀ {σ : Type} (note : σ → Visit → σ) (state : σ) (limit : Nat),
          view.fileSystem.visitLimit ≤ limit →
            (view.traversal skipped).runWithin limit (Traversal.noting note) state =
              (.ok (), (places.map (Node.directory children).chart.visit).foldl note state)) := by
  rcases exists_starts root with ⟨trail, fewer, starts⟩
  exact ⟨starts.run_eq_ok_iff sound, starts.exists_covers sound⟩

/-- A directory that holds a link to itself, a link out of it, a dangling link, a socket, and a
directory whose name is no text. -/
def sampleChildren : List (FileName × Node) :=
  [([98], .file [120]), ([97], .directory [([122], .link [46, 46]), ([99], .special)]),
    ([111], .link [47]), ([100], .link [110, 111]), ([255], .directory [([98], .file [])]),
    ([46, 103, 105, 116], .directory [([98], .file [])])]

/-- The directory stands at `r` in the root of the host. -/
def sampleView : View := ⟨⟨[([114], .directory sampleChildren)]⟩, [], "r"⟩

theorem traversal_covers_real_nodes_sample :
    sampleView.tree.Sound ∧
    sampleView.tree.stat sampleView.working (Bytes.ofText sampleView.root) =
      .ok (.directory sampleChildren) ∧
    sampleView.Readable (Node.directory sampleChildren).chart [".git"] ∧
    ∃ places, (Node.directory sampleChildren).chart.Covers [".git"] places ∧
      ["a", "z"] ∈ places ∧
      (sampleView.traversal [".git"]).run
          (Traversal.noting fun (paths : List String) visit => visit.path :: paths) [] =
        (.ok (), (places.map Path.ofNames).reverse) := by
  have soundFile (contents : Bytes) : ∀ child ∈ [(([98] : FileName), Node.file contents)],
      child.2.Sound := List.forall_mem_singleton.2 (.file contents)
  have soundRoot : (Node.directory sampleChildren).Sound := by
    refine .directory (by decide) (by decide) ?_
    simp only [sampleChildren, List.forall_mem_cons]
    refine ⟨.file _, .directory (by decide) (by decide) ?_, .link _, .link _,
      .directory (by decide) (by decide) (soundFile []),
      .directory (by decide) (by decide) (soundFile []), by simp⟩
    simp only [List.forall_mem_cons]
    exact ⟨.link _, .special, by simp⟩
  have sound : sampleView.tree.Sound :=
    .directory (by decide) (by decide) (List.forall_mem_singleton.2 soundRoot)
  have root : sampleView.tree.stat sampleView.working (Bytes.ofText sampleView.root) =
      .ok (.directory sampleChildren) :=
    Tree.stat_of_at? (by decide) (by decide) (by decide) rfl (by decide) rfl
  have readable : sampleView.Readable (Node.directory sampleChildren).chart [".git"] :=
    readable_of_places (by decide) soundRoot [".git"]
  rcases (traversal_covers_real_nodes sound root [".git"]).2 readable with ⟨places, covers, run⟩
  refine ⟨sound, root, readable, places, covers, ?_, ?_⟩
  · apply (covers.mem_iff ["a", "z"]).2
    refine ⟨by decide, ?_⟩
    intro above name starts _
    have entered : ∀ name ∈ ["a", "z"], name ∉ [".git"] := by decide
    exact entered name (starts.subset (by simp))
  · have noted := run (fun paths visit => visit.path :: paths) [] _ (Nat.le_refl _)
    rw [List.foldl_flip_cons_eq_append, List.append_nil, List.map_map] at noted
    exact noted

end View

end Host

end OwnerCoverage
