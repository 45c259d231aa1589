import OwnerCoverage.Proofs.Host.Within
import OwnerCoverage.Proofs.Rules.Location

/-!
# Paths of one directory

A directory of a host has many paths. Two views that name it by different paths see the same tables
and make the same traversals, as long as the limits of the host tell their paths alike and a link
stands at the end of both of the paths or of none (`SameRoot.loadTable_eq`, `SameRoot.run_eq`). A
view that names it by a link sees only that link at its root, though paths below the root are
followed through it (`Leads.stat_root`).
-/

namespace OwnerCoverage

namespace Host

namespace View

/-- The view in which another path names the root. -/
def withRoot (view : View) (root : String) : View := { view with root := root }

/-- Whether a link stands at the end of the path of the root. -/
def HasLinkedRoot (view : View) : Prop :=
  ∃ target, view.tree.stat view.working (Bytes.ofText view.root) = .ok (.link target)

/-- Where a path below the root leads on the host. -/
def resolve (view : View) (follows : Bool) (path : String) : Except LookupFault Trail :=
  view.tree.resolve follows view.working (Bytes.ofText (view.hostPath path))

/-- Whether the limits of the host, for the length of a path and for the links that are followed,
tell a path alike whichever of two paths names the root. -/
structure SameLimits (view : View) (other path : String) : Prop where
  takes : view.Takes path ↔ (view.withRoot other).Takes path
  loops : ∀ follows, view.resolve follows path = .error .linkLoop ↔
    (view.withRoot other).resolve follows path = .error .linkLoop

/-- Whether the limits of the host tell alike all paths that a report on a directory with some
children comes to: those of the candidates, and those of what stands in the directory. -/
structure LimitsAgree (view : View) (other : String) (settings : Settings)
    (children : List (FileName × Node)) : Prop where
  candidates : ∀ path ∈ settings.candidateDirectories ++ settings.rulesPaths,
    view.SameLimits other path
  places : ∀ names, (Node.directory children).chart names ≠ none →
    (view.Takes (Path.ofNames names) ↔ (view.withRoot other).Takes (Path.ofNames names))

/-- Whether two paths of the root of a view lead through the same trail to a directory with some
children. -/
structure SameRoot (view : View) (other : String) (children : List (FileName × Node))
    (trail : Trail) (fewer otherFewer : Nat) : Prop where
  leads : view.Leads children trail fewer
  otherLeads : (view.withRoot other).Leads children trail otherFewer
  linked : view.HasLinkedRoot ↔ (view.withRoot other).HasLinkedRoot

variable {view : View} {other path : String} {children : List (FileName × Node)} {trail : Trail}
  {fewer otherFewer : Nat}

section Roots

/-- Paths of one place that lead to a directory lead through the same trail. -/
theorem exists_leads_of_place
    (directory : view.tree.list view.working (Bytes.ofText view.root) = .ok children)
    (place : view.tree.place? true view.working (Bytes.ofText other) =
      view.tree.place? true view.working (Bytes.ofText view.root)) :
    ∃ trail, (∃ fewer, view.Leads children trail fewer) ∧
      ∃ fewer, (view.withRoot other).Leads children trail fewer := by
  rcases Tree.list_eq_ok_iff.1 directory with ⟨trail, resolved, atTrail⟩
  rw [Tree.place?_of_resolve resolved] at place
  rcases otherResolved : view.tree.resolve true view.working (Bytes.ofText other) with fault | last
  · simp [Tree.place?, otherResolved] at place
  · rw [Tree.place?_of_resolve otherResolved, Option.some.injEq] at place
    have same := (Tree.placed_of_resolve otherResolved).eq_of_place_eq
      (Tree.placed_of_resolve resolved) place
    subst same
    exact ⟨last, exists_leads resolved atTrail, exists_leads otherResolved atTrail⟩

/-- At the end of a path that leads to a directory stands a link, or that directory. -/
theorem Leads.stat_root (leads : view.Leads children trail fewer) : view.HasLinkedRoot ∨
    view.tree.stat view.working (Bytes.ofText view.root) = .ok (.directory children) := by
  rcases Tree.exists_stat_of_resolve leads.root with ⟨node, atRoot⟩
  rcases exists_resolve_root atRoot with ⟨last, resolved, atLast⟩
  by_cases noLink : node.kind ≠ .symlink
  · right
    have followed := Tree.resolve_true_of_no_link resolved (by rwa [atLast])
    rw [leads.root, Except.ok.injEq] at followed
    rw [atRoot, ← atLast, ← followed, leads.directory]
  · left
    cases node with
    | link target => exact ⟨target, atRoot⟩
    | _ => exact absurd (by simp [Node.kind]) noLink

theorem stat_at_root (atTop : Path.names path = []) {node : Node}
    (atRoot : view.tree.stat view.working (Bytes.ofText view.root) = .ok node) :
    view.stat path = .ok ⟨Path.baseName path, node.kind⟩ := by
  simp only [View.stat, hostPath_eq, atTop, List.foldl_nil, atRoot]

theorem SameRoot.stat_of_top (same : view.SameRoot other children trail fewer otherFewer)
    (atTop : Path.names path = []) : (view.withRoot other).stat path = view.stat path := by
  by_cases linked : view.HasLinkedRoot
  · rcases linked with ⟨target, atRoot⟩
    rcases same.linked.1 ⟨target, atRoot⟩ with ⟨otherTarget, otherAtRoot⟩
    rw [stat_at_root atTop atRoot, stat_at_root atTop otherAtRoot]
    rfl
  · have otherUnlinked := mt same.linked.2 linked
    rw [stat_at_root atTop (same.leads.stat_root.resolve_left linked),
      stat_at_root atTop (same.otherLeads.stat_root.resolve_left otherUnlinked)]

theorem not_hasLinkedRoot_of_stat
    (atRoot : view.tree.stat view.working (Bytes.ofText view.root) = .ok (.directory children)) :
    ¬view.HasLinkedRoot := by
  rintro ⟨target, atLink⟩
  exact absurd (atRoot.symm.trans atLink) (by simp)

/-- The root of a directory is visited as a leaf exactly if it is named by a link. -/
theorem Leads.visitsLeaf_root_iff (leads : view.Leads children trail fewer)
    (sound : view.tree.Sound) (skipped : List String) :
    view.VisitsLeaf skipped Path.root ↔ view.HasLinkedRoot := by
  constructor
  · rintro ⟨node, names, atRoot, path_eq, visits, leaf⟩
    rcases leads.stat_root with linked | atDirectory
    · exact linked
    · have node_eq := Except.ok.inj (atRoot.symm.trans atDirectory)
      subst node_eq
      have soundNode := Node.Sound.of_inside sound (inside_of_stat atRoot)
      have noName : ∀ name ∈ ([] : List String), Path.IsListed name := by simp
      have atTop := Path.ofNames_injective (soundNode.grounded.listed visits.stands) noName path_eq
      rw [atTop] at leaf
      exact absurd rfl leaf
  · rintro ⟨target, atLink⟩
    exact ⟨.link target, [], atLink, rfl, Chart.visits_nil_iff.2 (Option.some_ne_none _),
      by simp [Node.chart, Node.at?, Node.kind]⟩

/-- Behind a link nothing is visited. -/
theorem HasLinkedRoot.eq_root_of_visitsLeaf (linked : view.HasLinkedRoot) {skipped : List String}
    (visits : view.VisitsLeaf skipped path) : path = Path.root := by
  rcases linked with ⟨target, atLink⟩
  rcases visits with ⟨node, names, atRoot, rfl, visits, _⟩
  have node_eq := Except.ok.inj (atRoot.symm.trans atLink)
  subst node_eq
  rw [names_eq_nil_of_chart (by simp [Node.kind]) visits.stands]
  rfl

end Roots

section Answers

theorem SameRoot.resolve_of_top (same : view.SameRoot other children trail fewer otherFewer)
    (atTop : Path.names path = []) :
    (view.withRoot other).resolve true path = view.resolve true path := by
  rw [resolve, resolve, hostPath_eq, hostPath_eq, atTop, List.foldl_nil, List.foldl_nil,
    same.leads.root, same.otherLeads.root]

theorem SameRoot.refusal?_eq (same : view.SameRoot other children trail fewer otherFewer)
    (takes : view.Takes path ↔ (view.withRoot other).Takes path) :
    (view.withRoot other).refusal? path = view.refusal? path := by
  have zero : 0 ∈ Bytes.ofText ((view.withRoot other).hostPath path) ↔
      0 ∈ Bytes.ofText (view.hostPath path) := by
    have noZero := (Tree.exists_of_resolve same.leads.root).2.1
    have otherNoZero := (Tree.exists_of_resolve same.otherLeads.root).2.1
    rw [hostPath_eq, hostPath_eq,
      zero_mem_foldl_below_iff (root_ne_empty_of_resolve same.leads.root),
      zero_mem_foldl_below_iff (root_ne_empty_of_resolve same.otherLeads.root)]
    simp [noZero, otherNoZero]
  have long : longestPath < (Bytes.ofText ((view.withRoot other).hostPath path)).length ↔
      longestPath < (Bytes.ofText (view.hostPath path)).length := by
    rw [← Nat.not_le, ← Nat.not_le]
    exact not_congr takes.symm
  simp only [refusal?, zero, long]

theorem SameRoot.resolve_below (same : view.SameRoot other children trail fewer otherFewer)
    (limits : view.SameLimits other path) (someName : Path.names path ≠ []) (follows : Bool) :
    (view.withRoot other).resolve follows path = view.resolve follows path := by
  have loops := limits.loops follows
  rw [resolve, resolve, same.leads.below someName, same.otherLeads.below someName] at loops ⊢
  rw [same.refusal?_eq limits.takes] at loops ⊢
  cases refused : view.refusal? path with
  | some fault => rfl
  | none =>
      rw [refused] at loops
      exact (Tree.locate_eq_of_loops loops).symm

theorem SameRoot.stat_eq (same : view.SameRoot other children trail fewer otherFewer)
    (limits : view.SameLimits other path) :
    (view.withRoot other).stat path = view.stat path := by
  by_cases atTop : Path.names path = []
  · exact same.stat_of_top atTop
  · have resolved := same.resolve_below limits atTop false
    rw [resolve, resolve] at resolved
    simp only [View.stat, Tree.stat, resolved]
    rfl

theorem SameRoot.read_eq (same : view.SameRoot other children trail fewer otherFewer)
    (limits : view.SameLimits other path) :
    (view.withRoot other).read path = view.read path := by
  have resolved : (view.withRoot other).resolve true path = view.resolve true path := by
    by_cases atTop : Path.names path = []
    · exact same.resolve_of_top atTop
    · exact same.resolve_below limits atTop true
  rw [resolve, resolve] at resolved
  simp only [View.read, Tree.read, resolved]
  rfl

theorem SameRoot.pathWithin?_eq (same : view.SameRoot other children trail fewer otherFewer)
    (file : String) : (view.withRoot other).pathWithin? file = view.pathWithin? file := by
  rw [pathWithin?, pathWithin?, same.leads.root, same.otherLeads.root]
  rfl

end Answers

section Agreement

theorem SameRoot.holds_eq (same : view.SameRoot other children trail fewer otherFewer)
    (limits : view.SameLimits other path) (wanted : Bool) :
    (view.withRoot other).fileSystem.holds path wanted = view.fileSystem.holds path wanted := by
  simp only [FileSystem.holds, fileSystem, same.stat_eq limits]

/-- The same rules file is found from all paths of a directory, and the same table is read. -/
theorem SameRoot.loadTable_eq (same : view.SameRoot other children trail fewer otherFewer)
    {settings : Settings} (limits : ∀ path ∈ settings.candidateDirectories ++ settings.rulesPaths,
      view.SameLimits other path) :
    (view.withRoot other).fileSystem.loadTable settings = view.fileSystem.loadTable settings := by
  rcases List.forall_mem_append.1 limits with ⟨directories, files⟩
  have file {directory : String} (mem : directory ∈ settings.candidateDirectories) :
      view.SameLimits other (Path.join directory settings.rulesFileName) :=
    files _ (List.mem_map.2 ⟨directory, mem, rfl⟩)
  apply FileSystem.loadTable_eq
  · intro directory mem
    have join : (view.withRoot other).fileSystem.join = view.fileSystem.join := rfl
    apply FileSystem.rulesFileIn_eq join
    · exact same.holds_eq (directories directory mem) true
    · exact fun _ => same.holds_eq (file mem) false
  · intro path found
    rcases FileSystem.exists_of_rulesFile found with ⟨directory, mem, rfl, _⟩
    exact same.read_eq (file mem)

/-- About what stands below a real directory, all its paths give the same answers. -/
theorem SameRoot.answers_below (same : view.SameRoot other children trail fewer otherFewer)
    (sound : view.tree.Sound) (unlinked : ¬view.HasLinkedRoot) {kind : NodeKind}
    {names : List String} (here : (Node.directory children).chart names = some kind)
    (takes : view.Takes (Path.ofNames names) ↔
      (view.withRoot other).Takes (Path.ofNames names)) :
    (view.withRoot other).stat (Path.ofNames names) = view.stat (Path.ofNames names) ∧
      (kind = .directory →
        (view.withRoot other).list (Path.ofNames names) = view.list (Path.ofNames names)) := by
  rcases exists_starts (same.leads.stat_root.resolve_left unlinked) with ⟨_, _, starts⟩
  rcases exists_starts (same.otherLeads.stat_root.resolve_left (mt same.linked.2 unlinked)) with
    ⟨_, _, otherStarts⟩
  rcases starts.exists_at? sound here with ⟨_, isFileName, node, rfl, found⟩
  by_cases short : view.Takes (Path.ofNames names)
  · rw [starts.stat_of_at? isFileName short found,
      otherStarts.stat_of_at? isFileName (takes.1 short) found]
    refine ⟨rfl, ?_⟩
    intro directory
    rcases Node.kind_eq_directory_iff.1 directory with ⟨inside, rfl⟩
    rw [starts.list_of_at? isFileName short found,
      otherStarts.list_of_at? isFileName (takes.1 short) found]
  · have otherLong := mt takes.2 short
    rw [starts.stat_of_not_takes isFileName short,
      otherStarts.stat_of_not_takes isFileName otherLong,
      starts.list_of_not_takes isFileName short,
      otherStarts.list_of_not_takes isFileName otherLong]
    exact ⟨rfl, fun _ => rfl⟩

/-- What is found at a place of a directory is the same from all paths of the directory. -/
theorem SameRoot.finding_eq (same : view.SameRoot other children trail fewer otherFewer)
    (sound : view.tree.Sound)
    {node : Node} (atRoot : view.tree.stat view.working (Bytes.ofText view.root) = .ok node)
    {names : List String} (stands : node.chart names ≠ none)
    (takes : ∀ names, (Node.directory children).chart names ≠ none →
      (view.Takes (Path.ofNames names) ↔ (view.withRoot other).Takes (Path.ofNames names)))
    (skipped : List String) :
    ((view.withRoot other).traversal skipped).finding (Chart.place names) =
      (view.traversal skipped).finding (Chart.place names) := by
  by_cases linked : view.HasLinkedRoot
  · rcases linked with ⟨target, atLink⟩
    have node_eq := Except.ok.inj (atRoot.symm.trans atLink)
    subst node_eq
    have atTop := names_eq_nil_of_chart (by simp [Node.kind]) stands
    subst atTop
    apply Traversal.finding_eq_of_answers
    · exact same.stat_of_top Path.names_root
    · intro entry stat directory
      have entry_eq := Except.ok.inj (stat.symm.trans (stat_at_root Path.names_root atLink))
      subst entry_eq
      exact absurd directory (by simp [Node.kind])
    · rfl
  · have node_eq := Except.ok.inj (atRoot.symm.trans (same.leads.stat_root.resolve_left linked))
    subst node_eq
    rcases Option.ne_none_iff_exists'.1 stands with ⟨kind, here⟩
    rcases same.answers_below sound linked here (takes names stands) with ⟨stat, list⟩
    apply Traversal.finding_eq_of_answers
    · exact stat
    · intro entry known directory
      have entry_eq := (follows_of_stat sound atRoot).stat here known
      subst entry_eq
      exact list directory
    · rfl

/-- Every visitor does the same on a directory, from whatever path it starts. -/
theorem SameRoot.run_eq (same : view.SameRoot other children trail fewer otherFewer)
    (sound : view.tree.Sound)
    (takes : ∀ names, (Node.directory children).chart names ≠ none →
      (view.Takes (Path.ofNames names) ↔ (view.withRoot other).Takes (Path.ofNames names)))
    (skipped : List String) {σ : Type} (visitor : Visitor σ) (state : σ) :
    ((view.withRoot other).traversal skipped).run visitor state =
      (view.traversal skipped).run visitor state := by
  rcases Tree.exists_stat_of_resolve same.leads.root with ⟨node, atRoot⟩
  have soundNode := Node.Sound.of_inside sound (inside_of_stat atRoot)
  have follows : (view.traversal skipped).fileSystem.Follows node.chart :=
    follows_of_stat sound atRoot
  rcases Chart.exists_outline follows soundNode.grounded (withinLimit_of_stat atRoot)
    (Option.some_ne_none _) with ⟨places, outlines, room⟩
  have join : ((view.withRoot other).traversal skipped).fileSystem.join =
      (view.traversal skipped).fileSystem.join := rfl
  symm
  apply Traversal.visitStack_eq_of_outline join outlines.outline _ _ _ room room state
  intro entry mem
  rcases List.mem_map.1 mem with ⟨names, names_mem, rfl⟩
  exact same.finding_eq sound atRoot (outlines.stand names names_mem) takes skipped

end Agreement

end View

end Host

end OwnerCoverage
