import OwnerCoverage.Proofs.Traversal.Charted

/-!
# Pruning and stopping

A visitor may look at nothing but the path of a node. Where no stat fails, its verdicts only take
away what they name. Pruning at some paths leaves out the visits below them and no others, as
`visitStack_prunesAt` says for any stack, and stopping at a path leaves out the visits that come
after it (`visitAll_stopsAt`). What is visited otherwise, and in which order, stays the same
(`exists_visits`).
-/

namespace OwnerCoverage

namespace Path

/-- The paths of the directories above a path, from the root on. -/
def ancestors (path : String) : List String :=
  (List.range (Path.names path).length).map fun count => ofNames ((Path.names path).take count)

variable {names : List String} {name : String}

theorem ancestors_root : ancestors (ofNames []) = [] := by decide

theorem ancestors_concat (listed : ∀ other ∈ names ++ [name], IsListed other) :
    ancestors (ofNames (names ++ [name])) = ancestors (ofNames names) ++ [ofNames names] := by
  have above := names_ofNames (List.forall_mem_append.1 listed).1
  rw [ancestors, ancestors, names_ofNames listed, above, List.length_append,
    List.length_singleton, List.range_succ, List.map_append, List.map_singleton]
  congr 1
  · apply List.map_congr_left
    intro count small
    rw [List.take_append_of_le_length (List.mem_range.1 small).le]
  · rw [List.take_left]

theorem ofNames_mem_ancestors {rest : List String}
    (listed : ∀ other ∈ names ++ name :: rest, IsListed other) :
    ofNames names ∈ ancestors (ofNames (names ++ name :: rest)) := by
  rw [ancestors, names_ofNames listed]
  refine List.mem_map.2 ⟨names.length, List.mem_range.2 (by simp), ?_⟩
  rw [List.take_left]

end Path

/-- The error that a traversal ends with if it is stopped at a visit. -/
def Visit.stopped (visit : Visit) : TraversalError :=
  match visit.error with
  | none => .stopped visit.path
  | some error => .list visit.path error

namespace Finding

variable {finding : Finding}

/-- Unless a stat failed, only stopping is fatal. -/
theorem fatal?_eq_none (known : ∀ error, finding ≠ .unknown error) (node : PendingNode)
    {verdict : Verdict} (goesOn : verdict ≠ .stop) : finding.fatal? node verdict = none := by
  cases finding with
  | unknown error => exact absurd rfl (known error)
  | _ =>
      cases verdict with
      | stop => exact absurd rfl goesOn
      | _ => rfl

/-- Stopping is fatal at every visit. -/
theorem fatal?_stop (known : ∀ error, finding ≠ .unknown error) {node : PendingNode} {visit : Visit}
    (visited : finding.visit? node.path = some visit) :
    finding.fatal? node .stop = some visit.stopped := by
  cases finding with
  | unknown error => exact absurd rfl (known error)
  | skipped => simp [visit?] at visited
  | _ =>
      rw [visit?, Option.some.injEq] at visited
      subst visited
      rfl

theorem below_prune (finding : Finding) : finding.below .prune = [] := by cases finding <;> rfl

theorem path_of_visit? {path : String} {visit : Visit}
    (visited : finding.visit? path = some visit) : visit.path = path := by
  cases finding with
  | skipped => simp [visit?] at visited
  | _ =>
      rw [visit?, Option.some.injEq] at visited
      rw [← visited]

end Finding

namespace Traversal

/-- The visitor that notes every visit, and whose verdict depends on the path only. -/
def signalling (signal : String → Verdict) : Visitor (List Visit) := fun visit visits =>
  (signal visit.path, visits ++ [visit])

/-- The verdict that leaves out what lies below marked paths. -/
def prunesAt (marked : String → Bool) (path : String) : Verdict :=
  if marked path then .prune else .descend

/-- The verdict that ends a traversal at a path. -/
def stopsAt (last path : String) : Verdict := if path = last then .stop else .descend

variable {traversal : Traversal} {signal : String → Verdict} {marked : String → Bool}
  {entries : List (PendingNode × Finding)}

theorem visitsOf_append (first second : List (PendingNode × Finding)) :
    visitsOf (first ++ second) = visitsOf first ++ visitsOf second := List.filterMap_append

theorem finding_ne_unknown {node : PendingNode}
    (known : ∃ entry, traversal.fileSystem.stat node.path = .ok entry) :
    ∀ error, traversal.finding node ≠ .unknown error := by
  rcases known with ⟨entry, stat⟩
  intro error unknown
  cases finds_iff.2 unknown with
  | unknown statFails => exact absurd (stat.symm.trans statFails) (by simp)

/-- A step that nothing ends notes the visit, if there is one, and goes on below it. -/
theorem visitNode_signalling (node : PendingNode)
    (harmless : (traversal.finding node).fatal? node (signal node.path) = none)
    (visits : List Visit) :
    traversal.visitNode (signalling signal) node visits =
      (.ok (traversal.pendingChildren node ((traversal.finding node).below (signal node.path))),
        visits ++ visitsOf [(node, traversal.finding node)]) := by
  rw [visitNode_eq, visitsOf_cons]
  cases visited : (traversal.finding node).visit? node.path with
  | none =>
      have nothing : (traversal.finding node).below (signal node.path) = [] := by
        rcases below_eq (traversal.finding node) (signal node.path) with all | nothing
        · rw [all, children_of_unvisited visited]
        · exact nothing
      simp [nothing, pendingChildren, visitsOf]
  | some visit =>
      have here := Finding.path_of_visit? visited
      simp only [signalling, here, harmless, visitsOf, List.filterMap_nil]

theorem visitStack_signalling (node : PendingNode)
    (harmless : (traversal.finding node).fatal? node (signal node.path) = none) (limit left : Nat)
    (stack : List PendingNode) (visits : List Visit) :
    traversal.visitStack (signalling signal) limit (left + 1) (node :: stack) visits =
      traversal.visitStack (signalling signal) limit left
        (traversal.pendingChildren node ((traversal.finding node).below (signal node.path)) ++
          stack)
        (visits ++ visitsOf [(node, traversal.finding node)]) := by
  rw [visitStack, visitNode_signalling node harmless]

/-- Where nothing ends the traversal, all visits of an outline are made. -/
theorem visitAll_signalling (harmless : ∀ entry ∈ entries,
      entry.2.fatal? entry.1 (signal entry.1.path) = none) (visits : List Visit) :
    visitAll (signalling signal) entries visits = (.ok (), visits ++ visitsOf entries) := by
  induction entries generalizing visits with
  | nil => simp [visitAll, visitsOf]
  | cons entry entries ih =>
      rcases entry with ⟨node, finding⟩
      rcases List.forall_mem_cons.1 harmless with ⟨here, rest⟩
      rw [visitAll, visitsOf_cons]
      cases visited : finding.visit? node.path with
      | none => exact ih rest visits
      | some visit =>
          have path_eq := Finding.path_of_visit? visited
          simp only [signalling, path_eq, here]
          exact (ih rest _).trans (by simp)

/-- A visit is made at one entry of the outline, and what comes before it at the entries before. -/
theorem exists_of_visitsOf_eq_append {before after : List Visit} {visit : Visit}
    (split : visitsOf entries = before ++ visit :: after) :
    ∃ first node finding rest, entries = first ++ (node, finding) :: rest ∧
      visitsOf first = before ∧ finding.visit? node.path = some visit := by
  rcases List.filterMap_eq_append_iff.1 split with ⟨first, others, rfl, firstVisits, visits⟩
  rcases List.filterMap_eq_cons_iff.1 visits with
    ⟨passed, ⟨node, finding⟩, rest, rfl, unvisited, visited, _⟩
  have nothing : visitsOf passed = [] := List.filterMap_eq_nil_iff.2 unvisited
  refine ⟨first ++ passed, node, finding, rest, by simp, ?_, visited⟩
  rw [visitsOf_append, nothing, List.append_nil]
  exact firstVisits

/-- Stopping at the path of a visit that no node before has ends the traversal there. -/
theorem visitAll_stopsAt {before after : List Visit} {visit : Visit}
    (known : ∀ entry ∈ entries, ∀ error, entry.2 ≠ .unknown error)
    (distinct : (entries.map fun entry => entry.1.path).Nodup)
    (split : visitsOf entries = before ++ visit :: after) (visits : List Visit) :
    visitAll (signalling (stopsAt visit.path)) entries visits =
      (.error visit.stopped, visits ++ before ++ [visit]) := by
  rcases exists_of_visitsOf_eq_append split with
    ⟨first, node, finding, rest, rfl, rfl, visited⟩
  have path_eq := Finding.path_of_visit? visited
  rw [List.map_append, List.map_cons] at distinct
  have harmless : ∀ entry ∈ first,
      entry.2.fatal? entry.1 (stopsAt visit.path entry.1.path) = none := by
    intro entry mem
    have other : entry.1.path ≠ node.path :=
      (List.nodup_append.1 distinct).2.2 _ (List.mem_map_of_mem mem) _ List.mem_cons_self
    apply Finding.fatal?_eq_none (known entry (List.mem_append_left _ mem))
    simp [stopsAt, path_eq, other]
  have knownHere := known (node, finding) (by simp)
  rw [visitAll_append, visitAll_signalling harmless, andThen, visitAll, visited]
  simp only [signalling, stopsAt, if_pos, Finding.fatal?_stop knownHere visited]

end Traversal

namespace Chart

open Traversal (signalling prunesAt stopsAt visitsOf)

variable {traversal : Traversal} {chart : Chart} {names : List String}
  {marked : String → Bool} {entries : List (PendingNode × Finding)}

/-- Below a place that the chart tells of, only such places are reached. -/
theorem exists_prefix_of_reaches (follows : traversal.fileSystem.Follows chart)
    (grounded : chart.Grounded) (stands : chart names ≠ none) {node : PendingNode}
    (reaches : traversal.Reaches (place names) node) :
    ∃ there, node = place there ∧ chart there ≠ none ∧ names <+: there := by
  generalize start : place names = parent at reaches
  induction reaches generalizing names with
  | self => exact ⟨names, start.symm, stands, List.prefix_rfl⟩
  | @inside _ _ entry child entries stat directory enters list listed _ ih =>
      subst start
      have below := (stands_of_listed follows stands stat directory list listed).2.2
      rcases ih (by simp [below]) (place_concat follows grounded stands child.name) with
        ⟨there, same, standsThere, starts⟩
      exact ⟨there, same, standsThere, (List.prefix_append names [child.name]).trans starts⟩

/-- Whether no directory above a node is marked. -/
def free (marked : String → Bool) (entry : PendingNode × Finding) : Bool :=
  !(Path.ancestors entry.1.path).any marked

theorem visitsOf_filter_free (marked : String → Bool) (entries : List (PendingNode × Finding)) :
    visitsOf (entries.filter (free marked)) =
      (visitsOf entries).filter fun visit => !(Path.ancestors visit.path).any marked := by
  rw [visitsOf, visitsOf, List.filterMap_filter, List.filter_filterMap]
  apply List.filterMap_congr
  rintro ⟨node, finding⟩ _
  change (if free marked (node, finding) = true then finding.visit? node.path else none) =
    (finding.visit? node.path).filter _
  cases visited : finding.visit? node.path with
  | none => simp
  | some visit => simp [free, Finding.path_of_visit? visited, Option.filter]

section Steps

variable {top : List String} {tops : List (List String)}

/-- What is found at the children of a directory stands there, below the directory. -/
theorem exists_children (follows : traversal.fileSystem.Follows chart) (grounded : chart.Grounded)
    (stands : chart top ≠ none) : ∃ children : List String,
      traversal.pendingChildren (place top) (traversal.finding (place top)).children =
        (children.map fun name => top ++ [name]).map place ∧
      ∀ name ∈ children, chart (top ++ [name]) ≠ none := by
  refine ⟨(traversal.finding (place top)).children.map Entry.name, ?_, ?_⟩
  · rw [pendingChildren_place follows grounded stands, List.map_map, List.map_map]
    rfl
  · intro name mem
    rcases List.mem_map.1 mem with ⟨child, child_mem, rfl⟩
    rcases children_finding follows stands (place top) rfl with empty | lists
    · rw [empty] at child_mem
      exact absurd child_mem List.not_mem_nil
    · simp [(lists.mem_iff child).1 child_mem]

/-- Below a marked place nothing is free. -/
theorem filter_free_eq_nil (follows : traversal.fileSystem.Follows chart)
    (grounded : chart.Grounded) (stands : chart top ≠ none)
    (outline : traversal.Outline
      (traversal.pendingChildren (place top) (traversal.finding (place top)).children) entries)
    (isMarked : marked (Path.ofNames top) = true) : entries.filter (free marked) = [] := by
  rw [List.filter_eq_nil_iff]
  rintro ⟨node, finding⟩ mem
  rcases exists_children follows grounded stands with ⟨children, sameNodes, stand⟩
  rw [sameNodes] at outline
  rcases (Traversal.mem_outline_iff outline).1 mem with ⟨_, first, first_mem, reaches⟩
  rw [List.map_map] at first_mem
  rcases List.mem_map.1 first_mem with ⟨name, name_mem, rfl⟩
  rcases exists_prefix_of_reaches follows grounded (stand name name_mem) reaches with
    ⟨_, rfl, standsThere, ⟨rest, rfl⟩⟩
  rw [List.append_assoc] at standsThere ⊢
  have above := Path.ofNames_mem_ancestors (grounded.listed standsThere)
  simp only [free, Bool.not_eq_true', Bool.not_eq_false, List.any_eq_true]
  exact ⟨_, above, isMarked⟩

/-- Above a child of an unmarked directory stands what stands above the directory, and that. -/
theorem unmarked_above_child {name : String} (grounded : chart.Grounded)
    (stands : chart (top ++ [name]) ≠ none) (unmarked : marked (Path.ofNames top) = false)
    (unmarkedAbove : ∀ above ∈ Path.ancestors (Path.ofNames top), marked above = false) :
    ∀ above ∈ Path.ancestors (Path.ofNames (top ++ [name])), marked above = false := by
  rw [Path.ancestors_concat (grounded.listed stands)]
  exact List.forall_mem_append.2 ⟨unmarkedAbove, List.forall_mem_singleton.2 unmarked⟩

/-- A traversal that prunes marked directories does, on top of any stack, what an outline tells of
the nodes below no marked one. -/
theorem visitStack_prunesAt (follows : traversal.fileSystem.Follows chart)
    (grounded : chart.Grounded) (marked : String → Bool)
    (outline : traversal.Outline (tops.map place) entries)
    (known : ∀ entry ∈ entries, ∀ error, entry.2 ≠ .unknown error)
    (stand : ∀ top ∈ tops, chart top ≠ none)
    (unmarked : ∀ top ∈ tops, ∀ above ∈ Path.ancestors (Path.ofNames top), marked above = false)
    (limit left : Nat) (stack : List PendingNode) (visits : List Visit) :
    traversal.visitStack (signalling (prunesAt marked)) limit
        ((entries.filter (free marked)).length + left) (tops.map place ++ stack) visits =
      traversal.visitStack (signalling (prunesAt marked)) limit left stack
        (visits ++ visitsOf (entries.filter (free marked))) := by
  generalize start : tops.map place = nodes at outline
  induction outline generalizing tops left stack visits with
  | nil => simp [visitsOf]
  | @cons node siblings inside behind below _ ihBelow ihRest =>
      rcases List.map_eq_cons_iff.1 start with ⟨top, rest, rfl, rfl, rfl⟩
      rcases List.forall_mem_cons.1 stand with ⟨stands, standRest⟩
      rcases List.forall_mem_cons.1 unmarked with ⟨unmarkedTop, unmarkedRest⟩
      rcases List.forall_mem_cons.1 known with ⟨knownTop, knownOthers⟩
      rcases List.forall_mem_append.1 knownOthers with ⟨knownInside, knownBehind⟩
      have isFree : free marked (place top, traversal.finding (place top)) = true := by
        simpa [free, place] using unmarkedTop
      have goesOn : prunesAt marked (place top).path ≠ .stop := by
        rw [prunesAt]
        split <;> simp
      have harmless := Finding.fatal?_eq_none knownTop (place top) goesOn
      have room : (((place top, traversal.finding (place top)) :: (inside ++ behind)).filter
          (free marked)).length + left = (inside.filter (free marked)).length +
            ((behind.filter (free marked)).length + left) + 1 := by
        rw [List.filter_cons_of_pos isFree, List.filter_append, List.length_cons,
          List.length_append]
        omega
      have noted : visits ++ visitsOf (((place top, traversal.finding (place top)) ::
          (inside ++ behind)).filter (free marked)) =
            visits ++ visitsOf [(place top, traversal.finding (place top))] ++
              visitsOf (inside.filter (free marked)) ++ visitsOf (behind.filter (free marked)) := by
        rw [List.filter_cons_of_pos isFree, List.filter_append, ← List.singleton_append,
          Traversal.visitsOf_append, Traversal.visitsOf_append, List.append_assoc,
          List.append_assoc]
      rw [room, noted, List.cons_append, Traversal.visitStack_signalling _ harmless,
        ← ihRest knownBehind standRest unmarkedRest left stack _ rfl]
      cases isMarked : marked (place top).path with
      | true =>
          rw [prunesAt, if_pos isMarked, Finding.below_prune,
            filter_free_eq_nil follows grounded stands below isMarked]
          simp [Traversal.pendingChildren, visitsOf]
      | false =>
          have descends : prunesAt marked (place top).path = .descend := by
            simp [prunesAt, isMarked]
          rw [descends] at harmless ⊢
          rw [Traversal.below_of_harmless (by decide) harmless]
          rcases exists_children follows grounded stands with ⟨children, sameNodes, standInside⟩
          refine ihBelow knownInside ?_ ?_ _ _ _ sameNodes.symm
          · rw [List.forall_mem_map]
            exact standInside
          · rw [List.forall_mem_map]
            intro name mem
            exact unmarked_above_child grounded (standInside name mem) isMarked unmarkedTop

end Steps

section Runs

/-- A traversal that prunes marked directories visits what an outline tells of the nodes below no
marked one, within every limit that the outline keeps to. -/
theorem runWithin_prunesAt (follows : traversal.fileSystem.Follows chart)
    (grounded : chart.Grounded) (root : chart [] ≠ none) (start : traversal.start = Path.root)
    (outline : traversal.Outline [place []] entries)
    (known : ∀ entry ∈ entries, ∀ error, entry.2 ≠ .unknown error) {limit : Nat}
    (room : entries.length ≤ limit) (marked : String → Bool) :
    traversal.runWithin limit (signalling (prunesAt marked)) [] =
      (.ok (), visitsOf (entries.filter (free marked))) := by
  have atRoot : (⟨traversal.start, 0⟩ : PendingNode) = place [] := by rw [start]; rfl
  have small := (List.length_filter_le (free marked) entries).trans room
  have outlineTops : traversal.Outline ([[]].map place) entries := outline
  have run := visitStack_prunesAt follows grounded marked outlineTops known (by simpa using root)
    (by simp [Path.ancestors_root]) limit (limit - (entries.filter (free marked)).length) [] []
  rw [Nat.add_sub_cancel' small, List.append_nil, List.map_singleton] at run
  rw [Traversal.runWithin, atRoot, run]
  simp [Traversal.visitStack]

/-- Where no stat fails, a traversal that always goes on makes some visits and ends without an
error. One that prunes marked directories leaves out the visits below these and no others. One that
stops at a visit makes that visit and those before it. None of this depends on the limit. -/
theorem exists_visits (follows : traversal.fileSystem.Follows chart) (grounded : chart.Grounded)
    (within : chart.Within traversal.fileSystem.visitLimit) (root : chart [] ≠ none)
    (start : traversal.start = Path.root)
    (known : ∀ names, chart names ≠ none →
      ∃ entry, traversal.fileSystem.stat (Path.ofNames names) = .ok entry) :
    ∃ visits, ∀ limit, traversal.fileSystem.visitLimit ≤ limit →
      traversal.runWithin limit (signalling fun _ => .descend) [] = (.ok (), visits) ∧
      (∀ marked, traversal.runWithin limit (signalling (prunesAt marked)) [] =
        (.ok (), visits.filter fun visit => !(Path.ancestors visit.path).any marked)) ∧
      ∀ before visit after, visits = before ++ visit :: after →
        traversal.runWithin limit (signalling (stopsAt visit.path)) [] =
          (.error visit.stopped, before ++ [visit]) := by
  have atRoot : (⟨traversal.start, 0⟩ : PendingNode) = place [] := by rw [start]; rfl
  rcases exists_outline follows grounded within root with ⟨places, outlines, room⟩
  have allKnown : ∀ entry ∈ entriesAt traversal places, ∀ error, entry.2 ≠ .unknown error := by
    rw [entriesAt, List.forall_mem_map]
    intro names mem
    exact Traversal.finding_ne_unknown (known names (outlines.stand names mem))
  refine ⟨visitsOf (entriesAt traversal places), ?_⟩
  intro limit enough
  have outline := outlines.outline
  rw [← atRoot] at outline
  refine ⟨?_, ?_, ?_⟩
  · have neverPrunes : ∀ visit visits,
        (signalling (fun _ => .descend) visit visits).1 ≠ .prune := by
      simp [signalling]
    have harmless : ∀ entry ∈ entriesAt traversal places, entry.2.fatal? entry.1 .descend = none :=
      fun entry mem => Finding.fatal?_eq_none (allKnown entry mem) entry.1 (by decide)
    rw [Traversal.runWithin_of_outline neverPrunes outline (room.trans enough),
      Traversal.visitAll_signalling harmless, List.nil_append]
  · intro marked
    rw [runWithin_prunesAt follows grounded root start outlines.outline allKnown
      (room.trans enough), visitsOf_filter_free]
  · intro before visit after split
    have neverPrunes (last : String) : ∀ visit visits,
        (signalling (stopsAt last) visit visits).1 ≠ .prune := by
      intro visit visits
      rw [signalling, stopsAt]
      split <;> simp
    have distinct : ((entriesAt traversal places).map fun entry => entry.1.path).Nodup := by
      rw [entriesAt, List.map_map]
      exact nodup_map_ofNames grounded outlines.increasing outlines.stand
    rw [Traversal.runWithin_of_outline (neverPrunes visit.path) outline (room.trans enough),
      Traversal.visitAll_stopsAt allKnown distinct split, List.nil_append]

end Runs

end Chart

end OwnerCoverage
