import OwnerCoverage.Proofs.Coverage.Counting
import OwnerCoverage.Proofs.Traversal.Charted

/-!
# Traversals from inside a tree

A traversal may start at any directory. What it finds at a node depends on the path, and on the
depth only in so far as the first node is never passed over. So below its first node a traversal
goes the way of one that starts further up (`exists_outline_of_alike`), and what comes below a node
is what the traversals from its children come to, one after another (`exists_parts`).
-/

namespace OwnerCoverage

namespace Traversal

/-- The same traversal from another first node on. -/
def startingAt (traversal : Traversal) (path : String) : Traversal :=
  { traversal with start := path }

/-- Whether two nodes have the same path, and both or neither of them is a first one. -/
structure Alike (first second : PendingNode) : Prop where
  path : second.path = first.path
  deep : 0 < second.depth ↔ 0 < first.depth

/-- Whether two entries of outlines tell the same of one path. -/
structure Matches (first second : PendingNode × Finding) : Prop where
  path : second.1.path = first.1.path
  finding : second.2 = first.2

variable {traversal : Traversal} {node other : PendingNode} {start : String}

theorem finding_of_alike (alike : Alike node other) :
    (traversal.startingAt start).finding other = traversal.finding node := by
  simp only [finding, startingAt, alike.path, alike.deep]

/-- A first node is found as it is found further below, unless it is passed over there. -/
theorem finding_of_entered (entered : traversal.finding node ≠ .skipped) :
    (traversal.startingAt start).finding ⟨node.path, 0⟩ = traversal.finding node := by
  generalize found : traversal.finding node = finding at entered
  apply finds_iff.1
  cases finds_iff.2 found with
  | unknown stat => exact .unknown stat
  | leaf stat leaf => exact .leaf stat leaf
  | skipped => exact absurd rfl entered
  | unlisted stat directory _ list => exact .unlisted stat directory (Or.inl rfl) list
  | directory stat directory _ list => exact .directory stat directory (Or.inl rfl) list

theorem finding_eq_skipped_iff {path : String} {depth : Nat} {entry : Entry}
    (stat : traversal.fileSystem.stat path = .ok entry) (deep : 0 < depth) :
    traversal.finding ⟨path, depth⟩ = .skipped ↔
      entry.kind = .directory ∧ entry.name ∈ traversal.skippedNames := by
  constructor
  · intro found
    cases finds_iff.2 found with
    | skipped stat' directory _ skip =>
        rw [stat, Except.ok.injEq] at stat'
        exact stat' ▸ ⟨directory, skip⟩
  · rintro ⟨directory, skip⟩
    exact finds_iff.1 (.skipped stat directory deep skip)

theorem alike_pendingChildren (same : other.path = node.path) (children : List Entry) :
    List.Forall₂ Alike (traversal.pendingChildren node children)
      ((traversal.startingAt start).pendingChildren other children) := by
  rw [pendingChildren, pendingChildren, List.forall₂_map_left_iff, List.forall₂_map_right_iff,
    List.forall₂_same]
  intro child _
  exact ⟨by rw [same, startingAt], by simp⟩

/-- Nodes that are alike have outlines that tell the same. -/
theorem exists_outline_of_alike {nodes others : List PendingNode}
    {entries : List (PendingNode × Finding)} (outline : traversal.Outline nodes entries)
    (alike : List.Forall₂ Alike nodes others) :
    ∃ otherEntries, (traversal.startingAt start).Outline others otherEntries ∧
      List.Forall₂ Matches entries otherEntries := by
  induction outline generalizing others with
  | nil =>
      cases alike
      exact ⟨[], .nil, .nil⟩
  | @cons node _ _ _ _ _ ihBelow ihRest =>
      rcases List.forall₂_cons_left_iff.1 alike with ⟨other, others, here, alikeRest, rfl⟩
      have found : (traversal.startingAt start).finding other = traversal.finding node :=
        finding_of_alike here
      rcases ihBelow (alike_pendingChildren here.path _) with ⟨inside, outlineInside, sameInside⟩
      rcases ihRest alikeRest with ⟨behind, outlineBehind, sameBehind⟩
      refine ⟨_, outline_cons found outlineInside outlineBehind, ?_⟩
      exact .cons ⟨here.path, rfl⟩ (List.rel_append sameInside sameBehind)

section Matching

variable {entries others : List (PendingNode × Finding)}

theorem failure?_of_matches {first second : PendingNode × Finding} (same : Matches first second) :
    second.2.failure? second.1 = first.2.failure? first.1 := by
  rcases first with ⟨node, finding⟩
  rcases second with ⟨other, otherFinding⟩
  rcases same with ⟨path, rfl⟩
  cases otherFinding <;> simp_all [Finding.failure?]

theorem sound_of_matches (same : List.Forall₂ Matches entries others)
    (sound : ∀ entry ∈ entries, entry.2.failure? entry.1 = none) :
    ∀ entry ∈ others, entry.2.failure? entry.1 = none := by
  induction same with
  | nil => simp
  | cons first _ ih =>
      rcases List.forall_mem_cons.1 sound with ⟨soundFirst, soundRest⟩
      exact List.forall_mem_cons.2 ⟨(failure?_of_matches first).trans soundFirst, ih soundRest⟩

theorem leafPaths_cons (node : PendingNode) (finding : Finding)
    (entries : List (PendingNode × Finding)) :
    leafPaths ((node, finding) :: entries) = leafPaths [(node, finding)] ++ leafPaths entries := by
  cases finding <;> rfl

theorem leafPaths_append (first second : List (PendingNode × Finding)) :
    leafPaths (first ++ second) = leafPaths first ++ leafPaths second := List.filterMap_append

theorem leafPaths_of_matches (same : List.Forall₂ Matches entries others) :
    leafPaths others = leafPaths entries := by
  induction same with
  | nil => rfl
  | @cons first second _ _ here _ ih =>
      rcases first with ⟨node, finding⟩
      rcases second with ⟨other, otherFinding⟩
      rcases here with ⟨path, rfl⟩
      rw [leafPaths_cons, leafPaths_cons node, ih]
      cases otherFinding <;> simp_all [leafPaths]

end Matching

section Parts

variable {bound : Nat} {path : String} {part : List (PendingNode × Finding)}

/-- Whether entries are all that a traversal from a path finds, without a failure and within a
bound. -/
structure Part (traversal : Traversal) (bound : Nat) (path : String)
    (part : List (PendingNode × Finding)) : Prop where
  outline : (traversal.startingAt path).Outline [⟨path, 0⟩] part
  small : part.length ≤ bound
  sound : ∀ entry ∈ part, entry.2.failure? entry.1 = none

theorem Part.mono (tells : traversal.Part bound path part) {greater : Nat} (le : bound ≤ greater) :
    traversal.Part greater path part :=
  ⟨tells.outline, tells.small.trans le, tells.sound⟩

/-- Nothing is found below a directory that is passed over. -/
theorem eq_nil_of_skipped {below : List (PendingNode × Finding)}
    (skipped : traversal.finding node = .skipped)
    (outline : traversal.Outline
      (traversal.pendingChildren node (traversal.finding node).children) below) : below = [] := by
  rw [skipped] at outline
  cases outline
  rfl

/-- What is found at a node and below it is what a traversal finds that starts there. -/
theorem exists_part {below : List (PendingNode × Finding)}
    (entered : traversal.finding node ≠ .skipped)
    (outline : traversal.Outline
      (traversal.pendingChildren node (traversal.finding node).children) below)
    (sound : ∀ entry ∈ (node, traversal.finding node) :: below,
      entry.2.failure? entry.1 = none) :
    ∃ part, traversal.Part (below.length + 1) node.path part ∧
      leafPaths part = leafPaths ((node, traversal.finding node) :: below) := by
  have found : (traversal.startingAt node.path).finding ⟨node.path, 0⟩ = traversal.finding node :=
    finding_of_entered entered
  have samePath : (⟨node.path, 0⟩ : PendingNode).path = node.path := rfl
  rcases exists_outline_of_alike outline (alike_pendingChildren samePath _) with
    ⟨inside, outlineInside, sameInside⟩
  have same : List.Forall₂ Matches ((node, traversal.finding node) :: below)
      ((⟨node.path, 0⟩, traversal.finding node) :: inside) := .cons ⟨rfl, rfl⟩ sameInside
  refine ⟨_, ⟨?_, same.length_eq.ge, sound_of_matches same sound⟩, leafPaths_of_matches same⟩
  have whole := outline_cons found outlineInside .nil
  rwa [List.append_nil] at whole

/-- The outline of some nodes is made up of parts, one for each node that is not passed over. Each
part is what a traversal finds that starts at the node. -/
theorem exists_parts {nodes : List PendingNode} {entries : List (PendingNode × Finding)}
    (outline : traversal.Outline nodes entries)
    (sound : ∀ entry ∈ entries, entry.2.failure? entry.1 = none) :
    ∃ parts, List.Forall₂ (fun node part => traversal.Part entries.length node.path part)
        (nodes.filter fun node => traversal.finding node ≠ .skipped) parts ∧
      leafPaths entries = parts.flatMap leafPaths := by
  induction nodes generalizing entries with
  | nil =>
      cases outline
      exact ⟨[], .nil, rfl⟩
  | cons node nodes ih =>
      cases outline with
      | @cons _ _ below behind outlineBelow outlineBehind =>
          rw [← List.cons_append, List.forall_mem_append] at sound
          rcases ih outlineBehind sound.2 with ⟨parts, tells, leaves⟩
          have fewer : behind.length ≤
              ((node, traversal.finding node) :: (below ++ behind)).length := by
            rw [List.length_cons, List.length_append]
            omega
          have tellsMore : List.Forall₂ (fun node part => traversal.Part
              ((node, traversal.finding node) :: (below ++ behind)).length node.path part)
                (nodes.filter fun node => traversal.finding node ≠ .skipped) parts :=
            tells.imp fun _ _ part => part.mono fewer
          rw [← List.cons_append, leafPaths_append, leaves]
          by_cases skipped : traversal.finding node = .skipped
          · refine ⟨parts, ?_, ?_⟩
            · rw [List.filter_cons_of_neg (by simpa using skipped)]
              exact tellsMore
            · rw [eq_nil_of_skipped skipped outlineBelow, skipped]
              rfl
          · rcases exists_part skipped outlineBelow sound.1 with ⟨part, tellsHere, leavesHere⟩
            refine ⟨part :: parts, ?_, ?_⟩
            · rw [List.filter_cons_of_pos (by simpa using skipped)]
              exact .cons (tellsHere.mono (by simp)) tellsMore
            · rw [List.flatMap_cons, leavesHere]

/-- The summary of those leaves of an outline that a test does not exclude. -/
def counted (table : RuleTable) (excluded : String → Bool)
    (entries : List (PendingNode × Finding)) : CoverageSummary :=
  CoverageSummary.ofCounts
    (((leafPaths entries).filter fun path => !excluded path).filter table.covers).length
    ((leafPaths entries).filter fun path => !excluded path).length

/-- Counting from a path counts what is found from there on. -/
theorem coverage_of_part (tells : traversal.Part bound path part)
    (room : bound ≤ traversal.fileSystem.visitLimit) (table : RuleTable)
    (excluded : String → Bool) :
    (traversal.startingAt path).coverage table excluded = .ok (counted table excluded part) := by
  rw [coverage, coverageWith_of_sound tells.outline (tells.small.trans room) tells.sound,
    retained_predicate]
  rfl

end Parts

end Traversal

namespace Chart

variable {traversal : Traversal} {chart : Chart} {names : List String}

/-- A traversal may start at any place of a finite chart, and where no answer fails it finds
something everywhere. -/
theorem exists_part (follows : traversal.fileSystem.Follows chart) (grounded : chart.Grounded)
    {limit : Nat} (within : chart.Within limit)
    (answers : ∀ there, chart there ≠ none →
      ∃ entry, traversal.fileSystem.stat (Path.ofNames there) = .ok entry ∧
        (entry.kind = .directory →
          ∃ children, traversal.fileSystem.list (Path.ofNames there) = .ok children))
    (stands : chart names ≠ none) :
    ∃ part, traversal.Part limit (Path.ofNames names) part := by
  have sees {there : List String} (standsThere : chart there ≠ none) {node : PendingNode}
      (path : node.path = Path.ofNames there) : (traversal.finding node).failure? node = none := by
    rcases answers there standsThere with ⟨entry, stat, list⟩
    rw [← path] at stat list
    exact Traversal.failure?_eq_none_iff.2 ⟨entry, stat, fun directory _ => list directory⟩
  have listing := children_finding follows stands ⟨Path.ofNames names, 0⟩ rfl
  have inside : ∀ child ∈ (traversal.finding ⟨Path.ofNames names, 0⟩).children,
      chart (names ++ [child.name]) ≠ none → ∃ places,
        chart.Outlines traversal [place (names ++ [child.name])] places ∧
          ∀ there ∈ places, names ++ [child.name] <+: there := by
    rcases within with ⟨all, finite, _⟩
    exact fun child _ standsThere => exists_outline_below follows grounded finite standsThere
  rcases exists_outline_children listing inside with ⟨places, outlines, below⟩
  have outline := outlines.outline
  rw [← pendingChildren_place follows grounded stands] at outline
  have samePath : (⟨Path.ofNames names, 0⟩ : PendingNode).path = (place names).path := rfl
  have alike : List.Forall₂ Traversal.Alike _
      ((traversal.startingAt (Path.ofNames names)).pendingChildren ⟨Path.ofNames names, 0⟩
        (traversal.finding ⟨Path.ofNames names, 0⟩).children) :=
    Traversal.alike_pendingChildren samePath _
  rcases Traversal.exists_outline_of_alike outline alike with ⟨inside, outlineInside, sameInside⟩
  have soundInside : ∀ entry ∈ entriesAt traversal places, entry.2.failure? entry.1 = none := by
    intro entry mem
    rcases List.mem_map.1 mem with ⟨there, there_mem, rfl⟩
    exact sees (outlines.stand there there_mem) rfl
  have new : names ∉ places := by
    intro mem
    rcases below names mem with ⟨name, starts⟩
    have short := starts.length_le
    simp at short
  have distinct : (names :: places).Nodup :=
    List.nodup_cons.2 ⟨new, outlines.increasing.imp ne_of_precedes⟩
  have small := length_le_of_within within distinct
    (List.forall_mem_cons.2 ⟨stands, outlines.stand⟩)
  have whole := Traversal.outline_cons rfl outlineInside .nil
  rw [List.append_nil] at whole
  refine ⟨_, whole, ?_, ?_⟩
  · rw [List.length_cons, ← sameInside.length_eq, entriesAt, List.length_map]
    exact small
  · refine List.forall_mem_cons.2 ⟨sees stands rfl, ?_⟩
    exact Traversal.sound_of_matches sameInside soundInside

/-- A child of a place is passed over exactly if it is a directory with a skipped name. -/
theorem finding_child_eq_skipped_iff (follows : traversal.fileSystem.Follows chart)
    (grounded : chart.Grounded) (stands : chart names ≠ none) {child : Entry}
    (here : chart (names ++ [child.name]) = some child.kind)
    (known : ∃ entry, traversal.fileSystem.stat (Path.ofNames (names ++ [child.name])) = .ok entry)
    {depth : Nat} (deep : 0 < depth) :
    traversal.finding ⟨traversal.fileSystem.join (Path.ofNames names) child.name, depth⟩ =
        .skipped ↔
      child.kind = .directory ∧ child.name ∈ traversal.skippedNames := by
  rcases known with ⟨entry, stat⟩
  have entry_eq := follows.stat here stat
  rw [List.getLast?_concat, Option.getD_some] at entry_eq
  subst entry_eq
  rw [follows.join, Path.join_ofNames (grounded.listed stands)]
  exact Traversal.finding_eq_skipped_iff stat deep

/-- What a traversal finds from a directory on is made up of parts, one for each child that is not
passed over. Each part is what a traversal finds that starts at the child. -/
theorem exists_parts (follows : traversal.fileSystem.Follows chart) (grounded : chart.Grounded)
    {limit : Nat} (within : chart.Within limit)
    (answers : ∀ there, chart there ≠ none →
      ∃ entry, traversal.fileSystem.stat (Path.ofNames there) = .ok entry ∧
        (entry.kind = .directory →
          ∃ children, traversal.fileSystem.list (Path.ofNames there) = .ok children))
    (directory : chart names = some .directory) :
    ∃ children whole parts, traversal.fileSystem.list (Path.ofNames names) = .ok children ∧
      traversal.Part limit (Path.ofNames names) whole ∧
      List.Forall₂
        (fun child part => traversal.Part limit (Path.join (Path.ofNames names) child.name) part)
        (children.filter fun child =>
          !(child.isDirectory && traversal.skippedNames.contains child.name)) parts ∧
      Traversal.leafPaths whole = parts.flatMap Traversal.leafPaths := by
  have stands : chart names ≠ none := by simp [directory]
  rcases exists_part follows grounded within answers stands with ⟨all, tells⟩
  rcases answers names stands with ⟨entry, stat, listed⟩
  have entry_eq := follows.stat directory stat
  subst entry_eq
  rcases listed rfl with ⟨children, list⟩
  have lists := follows.list directory list
  have found : traversal.finding ⟨Path.ofNames names, 0⟩ = .directory children :=
    Traversal.finds_iff.1 (.directory stat rfl (Or.inl rfl) list)
  have entered : ∀ child ∈ children,
      decide (traversal.finding ⟨traversal.fileSystem.join (Path.ofNames names) child.name, 0 + 1⟩ ≠
        .skipped) = !(child.isDirectory && traversal.skippedNames.contains child.name) := by
    intro child mem
    have here := (lists.mem_iff child).1 mem
    rcases answers (names ++ [child.name]) (by simp [here]) with ⟨entry, stat, _⟩
    have skips := finding_child_eq_skipped_iff follows grounded stands here ⟨entry, stat⟩
      (Nat.succ_pos 0)
    simp only [ne_eq, skips]
    simp [Entry.isDirectory, beq_eq_decide]
  rcases tells with ⟨outline, small, sound⟩
  cases outline with
  | @cons _ _ inside behind outlineInside outlineBehind =>
      cases outlineBehind
      have foundHere : (traversal.startingAt (Path.ofNames names)).finding
          ⟨Path.ofNames names, 0⟩ = .directory children := found
      rw [foundHere, List.append_nil] at small sound
      rw [foundHere] at outlineInside
      rcases Traversal.exists_parts outlineInside (List.forall_mem_cons.1 sound).2 with
        ⟨parts, tells, leaves⟩
      rw [Traversal.pendingChildren, List.filter_map, List.forall₂_map_left_iff] at tells
      have whole := Traversal.outline_cons foundHere outlineInside .nil
      rw [List.append_nil] at whole
      refine ⟨children, _, parts, list, ⟨whole, small, sound⟩, ?_, leaves⟩
      rw [← List.filter_congr entered]
      refine tells.imp ?_
      intro child part told
      have here : traversal.fileSystem.join (Path.ofNames names) child.name =
          Path.join (Path.ofNames names) child.name := by rw [follows.join]
      exact here ▸ ⟨told.outline, told.small.trans (Nat.le_of_succ_le small), told.sound⟩

end Chart

end OwnerCoverage
