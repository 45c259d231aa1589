import Mathlib.Data.Finset.Card
import Mathlib.Data.List.Induction
import Mathlib.Data.List.Lex
import OwnerCoverage.Proofs.FileSystem.Chart
import OwnerCoverage.Proofs.Traversal.Outline

/-!
# Traversals of charted trees

A traversal of a file system that follows a finite chart is finite: the places below a node are
fewer than those below its directory. The places in the outline increase, which is why none is
reached twice (`exists_outline`). If no answer fails, a visitor that always goes on sees exactly the
places that the chart and the skipped names tell, in their order (`exists_covers`).
-/

namespace OwnerCoverage

namespace Chart

/-- The node of a traversal that stands for some names. -/
def place (names : List String) : PendingNode := ⟨Path.ofNames names, names.length⟩

/-- The order of places: name by name, in the order of the bytes of the names. -/
def Precedes (first second : List String) : Prop :=
  first.map Bytes.ofText < second.map Bytes.ofText

theorem precedes_append_of_ne_nil (names : List String) {rest : List String} (longer : rest ≠ []) :
    Precedes names (names ++ rest) := by
  have less : [] < rest.map Bytes.ofText := by
    cases rest with
    | nil => exact absurd rfl longer
    | cons => exact .nil
  have starts : names.map Bytes.ofText ++ [] < names.map Bytes.ofText ++ rest.map Bytes.ofText :=
    List.append_left_lt less
  rwa [List.append_nil, ← List.map_append] at starts

theorem precedes_of_different_child {names firstRest secondRest : List String}
    {first second : String} (less : Bytes.ofText first < Bytes.ofText second) :
    Precedes (names ++ [first] ++ firstRest) (names ++ [second] ++ secondRest) := by
  simp only [Precedes, List.map_append, List.append_assoc]
  exact List.append_left_lt (.rel less)

theorem ne_of_precedes {first second : List String} (precedes : Precedes first second) :
    first ≠ second := by
  rintro rfl
  exact List.lt_irrefl _ precedes

variable {traversal : Traversal} {chart : Chart} {names : List String}

section Outlines

/-- The nodes at some places, with what is found at them. -/
def entriesAt (traversal : Traversal) (places : List (List String)) :
    List (PendingNode × Finding) :=
  places.map fun names => (place names, traversal.finding (place names))

/-- Whether places outline what is reached from some nodes: they increase, and a node stands at each
of them. -/
structure Outlines (chart : Chart) (traversal : Traversal) (nodes : List PendingNode)
    (places : List (List String)) : Prop where
  outline : traversal.Outline nodes (entriesAt traversal places)
  increasing : places.Pairwise Precedes
  stand : ∀ names ∈ places, chart names ≠ none

/-- What is joined to the path of a place is the path of the place below. -/
theorem place_concat (follows : traversal.fileSystem.Follows chart) (grounded : chart.Grounded)
    (stands : chart names ≠ none) (name : String) : place (names ++ [name]) =
      ⟨traversal.fileSystem.join (place names).path name, (place names).depth + 1⟩ := by
  simp [place, follows.join, Path.join_ofNames (grounded.listed stands)]

/-- The children of a directory come at the places below it, in the order of the listing. -/
theorem pendingChildren_place (follows : traversal.fileSystem.Follows chart)
    (grounded : chart.Grounded) (stands : chart names ≠ none) (entries : List Entry) :
    traversal.pendingChildren (place names) entries =
      entries.map fun entry => place (names ++ [entry.name]) := by
  apply List.map_congr_left
  intro entry _
  exact (place_concat follows grounded stands entry.name).symm

/-- Something is below a node only if a directory stands there, and then its listing tells what. -/
theorem children_finding (follows : traversal.fileSystem.Follows chart)
    (stands : chart names ≠ none) (node : PendingNode) (path : node.path = Path.ofNames names) :
    (traversal.finding node).children = [] ∨
      chart.Lists names (traversal.finding node).children := by
  rcases Option.ne_none_iff_exists'.1 stands with ⟨kind, here⟩
  generalize found : traversal.finding node = finding
  cases Traversal.finds_iff.2 found with
  | directory stat directory _ list =>
      rw [path] at stat list
      have entry := follows.stat here stat
      subst entry
      exact Or.inr (follows.list (directory ▸ here) list)
  | _ => exact Or.inl rfl

/-- The outlines of the children of a directory, one after another. -/
theorem outlines_children {entries : List Entry}
    (increasing : (entries.map fun entry => Bytes.ofText entry.name).Pairwise (· < ·))
    (inside : ∀ entry ∈ entries, ∃ places,
      chart.Outlines traversal [place (names ++ [entry.name])] places ∧
        ∀ there ∈ places, names ++ [entry.name] <+: there) :
    ∃ places, chart.Outlines traversal
        (entries.map fun entry => place (names ++ [entry.name])) places ∧
      ∀ there ∈ places, ∃ entry ∈ entries, names ++ [entry.name] <+: there := by
  induction entries with
  | nil => exact ⟨[], ⟨.nil, .nil, by simp⟩, by simp⟩
  | cons entry entries ih =>
      rcases List.forall_mem_cons.1 inside with ⟨⟨first, outlines, below⟩, insideRest⟩
      rw [List.map_cons, List.pairwise_cons] at increasing
      rcases ih increasing.2 insideRest with ⟨rest, outlinesRest, belowRest⟩
      refine ⟨first ++ rest, ⟨?_, ?_, ?_⟩, ?_⟩
      · rw [entriesAt, List.map_append]
        exact Traversal.outline_append outlines.outline outlinesRest.outline
      · apply List.pairwise_append.2
        refine ⟨outlines.increasing, outlinesRest.increasing, ?_⟩
        intro there there_mem later later_mem
        rcases below there there_mem with ⟨firstRest, rfl⟩
        rcases belowRest later later_mem with ⟨other, other_mem, ⟨secondRest, rfl⟩⟩
        apply precedes_of_different_child
        apply increasing.1
        exact List.mem_map_of_mem other_mem
      · exact List.forall_mem_append.2 ⟨outlines.stand, outlinesRest.stand⟩
      · refine List.forall_mem_append.2 ⟨?_, ?_⟩
        · intro there mem
          exact ⟨entry, List.mem_cons_self, below there mem⟩
        · intro there mem
          rcases belowRest there mem with ⟨other, other_mem, starts⟩
          exact ⟨other, List.mem_cons_of_mem entry other_mem, starts⟩

/-- What comes below a place that is listed, or of which nothing is told. -/
theorem exists_outline_children {entries : List Entry}
    (listing : entries = [] ∨ chart.Lists names entries)
    (inside : ∀ entry ∈ entries, chart (names ++ [entry.name]) ≠ none → ∃ places,
      chart.Outlines traversal [place (names ++ [entry.name])] places ∧
        ∀ there ∈ places, names ++ [entry.name] <+: there) :
    ∃ places, chart.Outlines traversal
        (entries.map fun entry => place (names ++ [entry.name])) places ∧
      ∀ there ∈ places, ∃ name, names ++ [name] <+: there := by
  rcases listing with rfl | lists
  · exact ⟨[], ⟨.nil, .nil, by simp⟩, by simp⟩
  · have insideListed : ∀ entry ∈ entries, ∃ places,
        chart.Outlines traversal [place (names ++ [entry.name])] places ∧
          ∀ there ∈ places, names ++ [entry.name] <+: there := by
      intro entry mem
      exact inside entry mem (by simp [(lists.mem_iff entry).1 mem])
    rcases outlines_children lists.increasing insideListed with ⟨places, outlines, starts⟩
    refine ⟨places, outlines, ?_⟩
    intro there mem
    rcases starts there mem with ⟨entry, _, start⟩
    exact ⟨entry.name, start⟩

/-- Fewer places of a finite chart are below a child than below its directory. -/
theorem card_below_lt {all : Finset (List String)} (mem : names ∈ all) (name : String) :
    (all.filter fun there => names ++ [name] <+: there).card <
      (all.filter fun there => names <+: there).card := by
  apply Finset.card_lt_card
  refine Finset.ssubset_iff_subset_ne.2 ⟨?_, ?_⟩
  · intro there there_mem
    rw [Finset.mem_filter] at there_mem ⊢
    exact ⟨there_mem.1, (List.prefix_append names [name]).trans there_mem.2⟩
  · intro same
    have self : names ∈ all.filter fun there => names <+: there :=
      Finset.mem_filter.2 ⟨mem, List.prefix_rfl⟩
    rw [← same, Finset.mem_filter] at self
    have short := self.2.length_le
    simp at short

/-- Every place of a finite chart has a finite outline, of places below it. -/
theorem exists_outline_below (follows : traversal.fileSystem.Follows chart)
    (grounded : chart.Grounded) {all : Finset (List String)}
    (finite : ∀ names, chart names ≠ none → names ∈ all) (stands : chart names ≠ none) :
    ∃ places, chart.Outlines traversal [place names] places ∧
      ∀ there ∈ places, names <+: there := by
  -- The induction is on the number of places below the place, itself included.
  induction room : (all.filter fun there => names <+: there).card using Nat.strong_induction_on
    generalizing names with
  | _ room ih =>
      subst room
      have below : ∃ places, chart.Outlines traversal
          (traversal.pendingChildren (place names)
            (traversal.finding (place names)).children) places ∧
          ∀ there ∈ places, ∃ name, names ++ [name] <+: there := by
        rw [pendingChildren_place follows grounded stands]
        apply exists_outline_children (children_finding follows stands (place names) rfl)
        intro entry _ standsThere
        exact ih _ (card_below_lt (finite names stands) entry.name) standsThere rfl
      rcases below with ⟨places, outlines, starts⟩
      refine ⟨names :: places, ⟨?_, ?_, ?_⟩, ?_⟩
      · have outline := Traversal.Outline.cons outlines.outline .nil
        rwa [List.append_nil] at outline
      · apply List.pairwise_cons.2
        refine ⟨?_, outlines.increasing⟩
        intro there mem
        rcases starts there mem with ⟨name, ⟨rest, rfl⟩⟩
        rw [List.append_assoc]
        exact precedes_append_of_ne_nil names (by simp)
      · exact List.forall_mem_cons.2 ⟨stands, outlines.stand⟩
      · refine List.forall_mem_cons.2 ⟨List.prefix_rfl, ?_⟩
        intro there mem
        rcases starts there mem with ⟨name, start⟩
        exact (List.prefix_append names [name]).trans start

/-- No more places than the limit of a chart hold a node. -/
theorem length_le_of_within {limit : Nat} (within : chart.Within limit)
    {places : List (List String)} (distinct : places.Nodup)
    (stand : ∀ names ∈ places, chart names ≠ none) : places.length ≤ limit := by
  rcases within with ⟨all, finite, small⟩
  rw [← List.toFinset_card_of_nodup distinct]
  apply le_trans (Finset.card_le_card ?_) small
  intro names mem
  exact finite names (stand names (List.mem_toFinset.1 mem))

/-- An outline has no more entries than the chart has places. -/
theorem length_entriesAt_le {limit : Nat} (within : chart.Within limit) {nodes : List PendingNode}
    {places : List (List String)} (outlines : chart.Outlines traversal nodes places) :
    (entriesAt traversal places).length ≤ limit := by
  rw [entriesAt, List.length_map]
  exact length_le_of_within within (outlines.increasing.imp ne_of_precedes) outlines.stand

/-- A chart within the limit of a file system has an outline within that limit. -/
theorem exists_outline (follows : traversal.fileSystem.Follows chart) (grounded : chart.Grounded)
    (within : chart.Within traversal.fileSystem.visitLimit) (root : chart [] ≠ none) :
    ∃ places, chart.Outlines traversal [place []] places ∧
      (entriesAt traversal places).length ≤ traversal.fileSystem.visitLimit := by
  rcases within with ⟨all, finite, small⟩
  rcases exists_outline_below follows grounded finite root with ⟨places, outlines, _⟩
  exact ⟨places, outlines, length_entriesAt_le ⟨all, finite, small⟩ outlines⟩

end Outlines

section Reached

/-- Whether a traversal visits a place: a node stands there, and neither it nor any node above it,
except for the root, is a directory whose name is to be passed over. -/
structure Visits (chart : Chart) (skipped names : List String) : Prop where
  stands : chart names ≠ none
  entered : ∀ above name, above ++ [name] <+: names →
    chart (above ++ [name]) = some .directory → name ∉ skipped

variable {skipped : List String} {name : String}

theorem visits_nil_iff : chart.Visits skipped [] ↔ chart [] ≠ none := by
  constructor
  · exact Visits.stands
  · intro stands
    exact ⟨stands, fun above name starts => by simp at starts⟩

theorem visits_concat_iff (grounded : chart.Grounded) : chart.Visits skipped (names ++ [name]) ↔
    chart.Visits skipped names ∧ chart (names ++ [name]) ≠ none ∧
      (chart (names ++ [name]) = some .directory → name ∉ skipped) := by
  constructor
  · rintro ⟨stands, entered⟩
    refine ⟨⟨?_, ?_⟩, stands, entered names name List.prefix_rfl⟩
    · simp [grounded.closed stands]
    · intro above last starts
      exact entered above last (starts.trans (List.prefix_append names [name]))
  · rintro ⟨⟨_, entered⟩, stands, enters⟩
    refine ⟨stands, ?_⟩
    intro above last starts
    rcases List.prefix_concat_iff.1 starts with same | starts
    · rcases List.append_inj' same rfl with ⟨rfl, sameLast⟩
      rw [List.singleton_inj] at sameLast
      exact sameLast ▸ enters
    · exact entered above last starts

/-- Whether a directory at a place is entered: the root is, and any other one unless its name is to
be passed over. -/
def Entered (skipped names : List String) : Prop :=
  (place names).depth = 0 ∨ names.getLast?.getD Path.root ∉ skipped

theorem entered_nil : Entered skipped [] := Or.inl rfl

theorem entered_concat_iff : Entered skipped (names ++ [name]) ↔ name ∉ skipped := by
  simp [Entered, place]

theorem not_entered_iff : ¬Entered skipped names ↔
    0 < (place names).depth ∧ names.getLast?.getD Path.root ∈ skipped := by
  rw [Entered, not_or, Decidable.not_not, Nat.pos_iff_ne_zero]

/-- Whether a traversal comes to a place: a node stands there, and its directory is visited. -/
structure Reached (chart : Chart) (skipped names : List String) : Prop where
  stands : chart names ≠ none
  above : ∀ {before name}, names = before ++ [name] → chart.Visits skipped before

theorem reached_nil (root : chart [] ≠ none) : chart.Reached skipped [] :=
  ⟨root, fun split => by simp at split⟩

/-- Of what a traversal comes to, it visits all but the directories that are passed over. -/
theorem visits_iff_reached (grounded : chart.Grounded) : chart.Visits skipped names ↔
    chart.Reached skipped names ∧ (chart names = some .directory → Entered skipped names) := by
  rcases List.eq_nil_or_concat' names with rfl | ⟨before, last, rfl⟩
  · rw [visits_nil_iff]
    constructor
    · intro stands
      exact ⟨reached_nil stands, fun _ => entered_nil⟩
    · rintro ⟨reached, _⟩
      exact reached.stands
  · rw [visits_concat_iff grounded, entered_concat_iff]
    constructor
    · rintro ⟨above, stands, enters⟩
      refine ⟨⟨stands, ?_⟩, enters⟩
      intro other name split
      rcases List.append_inj' split rfl with ⟨rfl, _⟩
      exact above
    · rintro ⟨reached, enters⟩
      exact ⟨reached.above rfl, reached.stands, enters⟩

/-- What a directory lists stands below its place. -/
theorem stands_of_listed (follows : traversal.fileSystem.Follows chart)
    (stands : chart names ≠ none) {entry child : Entry} {entries : List Entry}
    (stat : traversal.fileSystem.stat (Path.ofNames names) = .ok entry)
    (directory : entry.kind = .directory)
    (list : traversal.fileSystem.list (Path.ofNames names) = .ok entries)
    (listed : child ∈ entries) :
    chart names = some .directory ∧ entry = ⟨names.getLast?.getD Path.root, .directory⟩ ∧
      chart (names ++ [child.name]) = some child.kind := by
  rcases Option.ne_none_iff_exists'.1 stands with ⟨kind, here⟩
  have entry_eq := follows.stat here stat
  subst entry_eq
  change kind = .directory at directory
  subst directory
  exact ⟨here, rfl, ((follows.list here list).mem_iff child).1 listed⟩

/-- Only places that the chart tells of are reached. -/
theorem exists_reached_of_reaches (follows : traversal.fileSystem.Follows chart)
    (grounded : chart.Grounded) (here : chart.Reached traversal.skippedNames names)
    {node : PendingNode} (reaches : traversal.Reaches (place names) node) :
    ∃ there, node = place there ∧ chart.Reached traversal.skippedNames there := by
  generalize start : place names = parent at reaches
  induction reaches generalizing names with
  | self => exact ⟨names, start.symm, here⟩
  | @inside _ _ entry child entries stat directory enters list listed _ ih =>
      subst start
      rcases stands_of_listed follows here.stands stat directory list listed with
        ⟨_, rfl, standsThere⟩
      have below : chart.Reached traversal.skippedNames (names ++ [child.name]) := by
        refine ⟨by simp [standsThere], ?_⟩
        intro before name split
        rcases List.append_inj' split rfl with ⟨rfl, _⟩
        exact (visits_iff_reached grounded).2 ⟨here, fun _ => enters⟩
      exact ih below (place_concat follows grounded here.stands child.name)

/-- If no answer fails, all places are reached that the chart tells of. -/
theorem reaches_place (follows : traversal.fileSystem.Follows chart) (grounded : chart.Grounded)
    (sees : ∀ node, traversal.Reaches (place []) node → traversal.Sees node)
    (here : chart.Reached traversal.skippedNames names) :
    traversal.Reaches (place []) (place names) := by
  induction names using List.reverseRecOn with
  | nil => exact .self
  | append_singleton names name ih =>
      rcases (visits_iff_reached grounded).1 (here.above rfl) with ⟨above, enters⟩
      have directory := grounded.closed here.stands
      rcases sees _ (ih above) with ⟨entry, stat, lists⟩
      have entry_eq := follows.stat directory stat
      subst entry_eq
      rcases lists rfl (enters directory) with ⟨entries, list⟩
      rcases Option.ne_none_iff_exists'.1 here.stands with ⟨kind, kind_eq⟩
      have mem := ((follows.list directory list).mem_iff ⟨name, kind⟩).2 kind_eq
      refine (ih above).trans (.inside stat rfl (enters directory) list mem ?_)
      rw [← place_concat follows grounded above.stands name]
      exact .self

/-- A traversal sees all that it reaches if the stats of what it comes to succeed, and the listings
of the directories among it. -/
theorem sees_of_answers (follows : traversal.fileSystem.Follows chart) (grounded : chart.Grounded)
    (root : chart [] ≠ none)
    (stats : ∀ names, chart.Reached traversal.skippedNames names →
      ∃ entry, traversal.fileSystem.stat (Path.ofNames names) = .ok entry)
    (lists : ∀ names, chart.Reached traversal.skippedNames names →
      chart names = some .directory →
        ∃ entries, traversal.fileSystem.list (Path.ofNames names) = .ok entries) :
    ∀ node, traversal.Reaches (place []) node → traversal.Sees node := by
  intro node reaches
  rcases exists_reached_of_reaches follows grounded (reached_nil root) reaches with
    ⟨names, rfl, reached⟩
  rcases Option.ne_none_iff_exists'.1 reached.stands with ⟨kind, here⟩
  rcases stats names reached with ⟨entry, stat⟩
  have entry_eq := follows.stat here stat
  subst entry_eq
  refine ⟨_, stat, ?_⟩
  intro directory _
  exact lists names reached (directory ▸ here)

end Reached

section Findings

theorem finding_of_leaf (follows : traversal.fileSystem.Follows chart) {kind : NodeKind}
    (here : chart names = some kind) (leaf : kind ≠ .directory)
    (sees : traversal.Sees (place names)) : traversal.finding (place names) = .leaf kind := by
  rcases sees with ⟨entry, stat, _⟩
  have entry_eq := follows.stat here stat
  subst entry_eq
  exact Traversal.finds_iff.1 (.leaf stat leaf)

theorem finding_of_not_entered (follows : traversal.fileSystem.Follows chart)
    (here : chart names = some .directory) (passed : ¬Entered traversal.skippedNames names)
    (sees : traversal.Sees (place names)) : traversal.finding (place names) = .skipped := by
  rcases sees with ⟨entry, stat, _⟩
  have entry_eq := follows.stat here stat
  subst entry_eq
  rcases not_entered_iff.1 passed with ⟨deep, skip⟩
  exact Traversal.finds_iff.1 (.skipped stat rfl deep skip)

theorem exists_finding_of_entered (follows : traversal.fileSystem.Follows chart)
    (here : chart names = some .directory) (enters : Entered traversal.skippedNames names)
    (sees : traversal.Sees (place names)) :
    ∃ children, traversal.finding (place names) = .directory children ∧
      chart.Lists names children := by
  rcases sees with ⟨entry, stat, lists⟩
  have entry_eq := follows.stat here stat
  subst entry_eq
  rcases lists rfl enters with ⟨children, list⟩
  exact ⟨children, Traversal.finds_iff.1 (.directory stat rfl enters list), follows.list here list⟩

end Findings

section Visited

variable {skipped : List String}

/-- The visit that is made at a place if no answer fails. -/
def visit (chart : Chart) (names : List String) : Visit := ⟨Path.ofNames names, chart names, none⟩

/-- Whether places are all those that a traversal visits, in their order. No two of them have the
same path, and each path is canonical. -/
structure Covers (chart : Chart) (skipped : List String) (places : List (List String)) : Prop where
  mem_iff : ∀ names, names ∈ places ↔ chart.Visits skipped names
  increasing : places.Pairwise Precedes
  distinct : (places.map Path.ofNames).Nodup
  canonical : ∀ names ∈ places, Path.names (Path.ofNames names) = names

theorem visit?_of_visits (follows : traversal.fileSystem.Follows chart) (grounded : chart.Grounded)
    (visits : chart.Visits traversal.skippedNames names) (sees : traversal.Sees (place names)) :
    (traversal.finding (place names)).visit? (place names).path = some (chart.visit names) := by
  rcases (visits_iff_reached grounded).1 visits with ⟨reached, enters⟩
  rcases Option.ne_none_iff_exists'.1 reached.stands with ⟨kind, here⟩
  by_cases directory : kind = .directory
  · subst directory
    rcases exists_finding_of_entered follows here (enters here) sees with ⟨children, found, _⟩
    rw [found]
    simp [Finding.visit?, visit, place, here]
  · rw [finding_of_leaf follows here directory sees]
    simp [Finding.visit?, visit, place, here]

theorem visit?_of_not_visits (follows : traversal.fileSystem.Follows chart)
    (grounded : chart.Grounded) (reached : chart.Reached traversal.skippedNames names)
    (passed : ¬chart.Visits traversal.skippedNames names) (sees : traversal.Sees (place names)) :
    (traversal.finding (place names)).visit? (place names).path = none := by
  have passedOver : ¬(chart names = some .directory → Entered traversal.skippedNames names) := by
    intro enters
    exact passed ((visits_iff_reached grounded).2 ⟨reached, enters⟩)
  rcases Classical.not_imp.1 passedOver with ⟨here, skips⟩
  rw [finding_of_not_entered follows here skips sees]
  rfl

/-- If no answer fails, the places in an outline are those that are reached. -/
theorem mem_places_iff (follows : traversal.fileSystem.Follows chart) (grounded : chart.Grounded)
    {places : List (List String)} (outlines : chart.Outlines traversal [place []] places)
    (root : chart [] ≠ none)
    (sees : ∀ node, traversal.Reaches (place []) node → traversal.Sees node) :
    names ∈ places ↔ chart.Reached traversal.skippedNames names := by
  constructor
  · intro mem
    have entry_mem : (place names, traversal.finding (place names)) ∈ entriesAt traversal places :=
      List.mem_map_of_mem mem
    rcases (Traversal.mem_outline_iff outlines.outline).1 entry_mem with
      ⟨_, first, first_mem, reaches⟩
    rw [List.mem_singleton] at first_mem
    subst first_mem
    rcases exists_reached_of_reaches follows grounded (reached_nil root) reaches with
      ⟨there, same, reached⟩
    have names_eq : names = there :=
      Path.ofNames_injective (grounded.listed (outlines.stand names mem))
        (grounded.listed reached.stands) (congrArg PendingNode.path same)
    exact names_eq ▸ reached
  · intro reached
    have reaches := reaches_place follows grounded sees reached
    have entry_mem : (place names, traversal.finding (place names)) ∈ entriesAt traversal places :=
      (Traversal.mem_outline_iff outlines.outline).2 ⟨rfl, _, List.mem_singleton_self _, reaches⟩
    rcases List.mem_map.1 entry_mem with ⟨there, mem, same⟩
    have names_eq : there = names :=
      Path.ofNames_injective (grounded.listed (outlines.stand there mem))
        (grounded.listed reached.stands) (congrArg (fun entry => entry.1.path) same)
    exact names_eq ▸ mem

theorem visitsOf_entriesAt [DecidablePred (chart.Visits traversal.skippedNames)]
    (follows : traversal.fileSystem.Follows chart) (grounded : chart.Grounded)
    {places : List (List String)}
    (seen : ∀ names ∈ places, chart.Reached traversal.skippedNames names ∧
      traversal.Sees (place names)) :
    Traversal.visitsOf (entriesAt traversal places) =
      (places.filter fun names => chart.Visits traversal.skippedNames names).map chart.visit := by
  induction places with
  | nil => rfl
  | cons names places ih =>
      rcases List.forall_mem_cons.1 seen with ⟨⟨reached, sees⟩, seenRest⟩
      have rest := ih seenRest
      rw [entriesAt] at rest ⊢
      rw [List.map_cons, Traversal.visitsOf_cons, rest]
      by_cases visits : chart.Visits traversal.skippedNames names
      · rw [visit?_of_visits follows grounded visits sees]
        simp [visits]
      · rw [visit?_of_not_visits follows grounded reached visits sees]
        simp [visits]

/-- Different places that a grounded chart tells of have different paths. -/
theorem nodup_map_ofNames (grounded : chart.Grounded) {places : List (List String)}
    (increasing : places.Pairwise Precedes) (stand : ∀ names ∈ places, chart names ≠ none) :
    (places.map Path.ofNames).Nodup := by
  have distinct : places.Nodup := increasing.imp ne_of_precedes
  apply distinct.map_on
  intro names mem others other_mem same
  exact Path.ofNames_injective (grounded.listed (stand names mem))
    (grounded.listed (stand others other_mem)) same

/-- A traversal of a file system that follows a chart, without a failing answer, visits exactly the
places that the chart and the skipped names tell, each of them once and in their order, and ends
without an error. So does it within every limit from that of the file system on. -/
theorem exists_covers (follows : traversal.fileSystem.Follows chart) (grounded : chart.Grounded)
    (within : chart.Within traversal.fileSystem.visitLimit) (root : chart [] ≠ none)
    (start : traversal.start = Path.root)
    (sees : ∀ node, traversal.Reaches (place []) node → traversal.Sees node) :
    ∃ places, chart.Covers traversal.skippedNames places ∧
      ∀ {σ : Type} (note : σ → Visit → σ) (state : σ) (limit : Nat),
        traversal.fileSystem.visitLimit ≤ limit →
          traversal.runWithin limit (Traversal.noting note) state =
            (.ok (), (places.map chart.visit).foldl note state) := by
  classical
  rcases exists_outline follows grounded within root with ⟨places, outlines, room⟩
  have mem_iff (names : List String) : names ∈ places ↔
      chart.Reached traversal.skippedNames names :=
    mem_places_iff follows grounded outlines root sees
  have seen : ∀ names ∈ places, chart.Reached traversal.skippedNames names ∧
      traversal.Sees (place names) := by
    intro names mem
    have reached := (mem_iff names).1 mem
    exact ⟨reached, sees _ (reaches_place follows grounded sees reached)⟩
  have stand : ∀ names ∈ places.filter fun names => chart.Visits traversal.skippedNames names,
      chart names ≠ none := by
    intro names mem
    exact outlines.stand names (List.mem_of_mem_filter mem)
  have increasing := outlines.increasing.filter fun names =>
    decide (chart.Visits traversal.skippedNames names)
  refine ⟨_, ⟨?_, increasing, nodup_map_ofNames grounded increasing stand, ?_⟩, ?_⟩
  · intro names
    rw [List.mem_filter, decide_eq_true_iff]
    constructor
    · exact And.right
    · intro visits
      exact ⟨(mem_iff names).2 ((visits_iff_reached grounded).1 visits).1, visits⟩
  · intro names mem
    exact Path.names_ofNames (grounded.listed (stand names mem))
  · intro σ note state limit enough
    have atRoot : (⟨traversal.start, 0⟩ : PendingNode) = place [] := by rw [start]; rfl
    have neverPrunes : ∀ visit state, (Traversal.noting note visit state).1 ≠ .prune := by
      simp [Traversal.noting]
    have known : ∀ entry ∈ entriesAt traversal places, ∀ error, entry.2 ≠ .unknown error := by
      intro entry mem error unknown
      rcases List.mem_map.1 mem with ⟨names, names_mem, rfl⟩
      have found : traversal.finding (place names) = .unknown error := unknown
      have noFailure := Traversal.failure?_eq_none_iff.2 (seen names names_mem).2
      rw [found] at noFailure
      exact absurd noFailure (by simp [Finding.failure?])
    rw [Traversal.runWithin_of_outline neverPrunes (atRoot ▸ outlines.outline)
      (room.trans enough) state, Traversal.visitAll_noting note known,
      visitsOf_entriesAt follows grounded seen]

end Visited

section Agreement

variable {first second : Traversal}

/-- A chart leaves no choice to what is found where no answer fails. -/
theorem finding_eq (follows : first.fileSystem.Follows chart)
    (otherFollows : second.fileSystem.Follows chart)
    (sameSkipped : first.skippedNames = second.skippedNames) (stands : chart names ≠ none)
    (sees : first.Sees (place names)) (otherSees : second.Sees (place names)) :
    first.finding (place names) = second.finding (place names) := by
  rcases Option.ne_none_iff_exists'.1 stands with ⟨kind, here⟩
  by_cases directory : kind = .directory
  · subst directory
    by_cases enters : Entered first.skippedNames names
    · rcases exists_finding_of_entered follows here enters sees with ⟨children, found, lists⟩
      rcases exists_finding_of_entered otherFollows here (sameSkipped ▸ enters) otherSees with
        ⟨others, otherFound, otherLists⟩
      rw [found, otherFound, lists.unique otherLists]
    · rw [finding_of_not_entered follows here enters sees,
        finding_of_not_entered otherFollows here (sameSkipped ▸ enters) otherSees]
  · rw [finding_of_leaf follows here directory sees,
      finding_of_leaf otherFollows here directory otherSees]

/-- Traversals of two file systems that follow one chart, without a failing answer, do the same with
every visitor. -/
theorem run_eq (follows : first.fileSystem.Follows chart)
    (otherFollows : second.fileSystem.Follows chart) (grounded : chart.Grounded)
    (root : chart [] ≠ none) (within : chart.Within first.fileSystem.visitLimit)
    (otherWithin : chart.Within second.fileSystem.visitLimit)
    (start : first.start = Path.root) (otherStart : second.start = Path.root)
    (sameSkipped : first.skippedNames = second.skippedNames)
    (sees : ∀ node, first.Reaches (place []) node → first.Sees node)
    (otherSees : ∀ node, second.Reaches (place []) node → second.Sees node)
    {σ : Type} (visitor : Visitor σ) (state : σ) :
    first.run visitor state = second.run visitor state := by
  rcases exists_outline follows grounded within root with ⟨places, outlines, room⟩
  have atRoot : (⟨first.start, 0⟩ : PendingNode) = place [] := by rw [start]; rfl
  have otherAtRoot : (⟨second.start, 0⟩ : PendingNode) = place [] := by rw [otherStart]; rfl
  have join : second.fileSystem.join = first.fileSystem.join :=
    otherFollows.join.trans follows.join.symm
  have agree : ∀ entry ∈ entriesAt first places, second.finding entry.1 = entry.2 := by
    intro entry mem
    rcases List.mem_map.1 mem with ⟨names, names_mem, rfl⟩
    have reached := (mem_places_iff follows grounded outlines root sees).1 names_mem
    have reaches := reaches_place follows grounded sees reached
    have otherReaches := reaches_place otherFollows grounded otherSees (sameSkipped ▸ reached)
    exact (finding_eq follows otherFollows sameSkipped reached.stands (sees _ reaches)
      (otherSees _ otherReaches)).symm
  have otherRoom := length_entriesAt_le otherWithin outlines
  rw [Traversal.run, Traversal.run, Traversal.runWithin, Traversal.runWithin, atRoot, otherAtRoot]
  exact Traversal.visitStack_eq_of_outline join outlines.outline agree _ _ room otherRoom state

end Agreement

end Chart

end OwnerCoverage
