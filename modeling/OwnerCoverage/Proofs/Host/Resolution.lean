import OwnerCoverage.Proofs.Host.Nodes

/-!
# Following paths on a host

What each name of a path does to the way that is followed, as a relation with one rule for each
thing that a name can be (`Leads`, `locate_eq_iff`). Inductions on a way are inductions on that
relation, whether the next name is one of the path or of the target of a link. So it is shown what
the rest of a path comes to once its beginning has led to a directory (`locate_append`), and that a
way stays in the tree, whatever links are followed (`Placed.locate`). Below a directory, the names
of real directories lead where they seem to (`locate_of_at?`).
-/

namespace OwnerCoverage

namespace Host

namespace Tree

variable {tree : Tree} {follows : Bool} {links : Nat} {trail last : Trail}
  {names rest : List FileName} {children : List (FileName × Node)} {name : FileName} {node : Node}
  {target : Bytes} {fault : LookupFault}

section Steps

theorem isNodeName_iff : isNodeName name = true ↔
    name ≠ here ∧ name ≠ above ∧ ¬longestName < name.length := by
  simp [isNodeName, and_assoc]

theorem kind_ne_symlink_iff : node.kind ≠ .symlink ↔ ∀ target, node ≠ .link target := by
  cases node <;> simp [Node.kind]

theorem exists_target_of_symlink (link : node.kind = .symlink) :
    ∃ target, node = .link target := by
  cases node with
  | link target => exact ⟨target, rfl⟩
  | _ => exact absurd link (by simp [Node.kind])

theorem locate_nil : tree.locate follows links trail [] = .ok trail := by
  rw [locate, walk]

/-- Names that are walked to the same stop lead to the same place. -/
theorem locate_of_walk_eq {other : Trail} {others : List FileName}
    (same : tree.walk follows trail names = tree.walk follows other others) :
    tree.locate follows links trail names = tree.locate follows links other others := by
  rw [locate, same, ← locate]

theorem locate_here (directory : tree.nodeAt trail = .directory children) :
    tree.locate follows links trail (here :: rest) = tree.locate follows links trail rest := by
  apply locate_of_walk_eq
  rw [walk]
  simp only [directory, if_true]

theorem locate_above (directory : tree.nodeAt trail = .directory children) :
    tree.locate follows links trail (above :: rest) =
      tree.locate follows links trail.tail rest := by
  have different : above ≠ here := by decide
  apply locate_of_walk_eq
  rw [walk]
  simp only [directory, if_neg different, if_true]

theorem locate_child (directory : tree.nodeAt trail = .directory children)
    (isNodeName : isNodeName name = true) (found : children.lookup name = some node)
    (noLink : node.kind ≠ .symlink) :
    tree.locate follows links trail (name :: rest) =
      tree.locate follows links ((name, node) :: trail) rest := by
  rcases isNodeName_iff.1 isNodeName with ⟨notHere, notAbove, short⟩
  apply locate_of_walk_eq
  rw [walk]
  cases node <;> simp_all [Node.kind]

/-- A link that is to be followed stops the walk. -/
theorem walk_link (directory : tree.nodeAt trail = .directory children)
    (isNodeName : isNodeName name = true) (found : children.lookup name = some (.link target))
    (followed : rest = [] → follows = true) :
    tree.walk follows trail (name :: rest) = .ok (.atLink trail target rest) := by
  rcases isNodeName_iff.1 isNodeName with ⟨notHere, notAbove, short⟩
  have notLast : ¬(rest.isEmpty && !follows) = true := by
    simpa using followed
  rw [walk]
  simp only [directory, if_neg notHere, if_neg notAbove, if_neg short, found, if_neg notLast]

theorem locate_link (directory : tree.nodeAt trail = .directory children)
    (isNodeName : isNodeName name = true) (found : children.lookup name = some (.link target))
    (followed : rest = [] → follows = true) :
    tree.locate follows (links + 1) trail (name :: rest) =
      tree.locate follows links (if isAbsolute target then [] else trail)
        (pathNames target ++ rest) := by
  rw [locate, walk_link directory isNodeName found followed]

theorem locate_link_zero (directory : tree.nodeAt trail = .directory children)
    (isNodeName : isNodeName name = true) (found : children.lookup name = some (.link target))
    (followed : rest = [] → follows = true) :
    tree.locate follows 0 trail (name :: rest) = .error .linkLoop := by
  rw [locate, walk_link directory isNodeName found followed]

theorem locate_last_link (directory : tree.nodeAt trail = .directory children)
    (isNodeName : isNodeName name = true) (found : children.lookup name = some (.link target)) :
    tree.locate false links trail [name] = .ok ((name, .link target) :: trail) := by
  rcases isNodeName_iff.1 isNodeName with ⟨notHere, notAbove, short⟩
  rw [locate, walk]
  simp [directory, notHere, notAbove, short, found]

/-- How a name leads nowhere from the end of a trail, however many links may be followed. -/
inductive Refuses (tree : Tree) (trail : Trail) (name : FileName) : LookupFault → Prop where
  | noDirectory (noDirectory : ∀ children, tree.nodeAt trail ≠ .directory children) :
      Refuses tree trail name .notADirectory
  | long {children : List (FileName × Node)} (directory : tree.nodeAt trail = .directory children)
      (notHere : name ≠ here) (notAbove : name ≠ above) (long : longestName < name.length) :
      Refuses tree trail name .nameTooLong
  | missing {children : List (FileName × Node)}
      (directory : tree.nodeAt trail = .directory children) (isNodeName : isNodeName name = true)
      (missing : children.lookup name = none) :
      Refuses tree trail name .notFound

theorem Refuses.locate (refuses : tree.Refuses trail name fault) :
    tree.locate follows links trail (name :: rest) = .error fault := by
  rw [Tree.locate, walk]
  cases refuses with
  | noDirectory noDirectory =>
      rcases atTrail : tree.nodeAt trail with children | _ | _ | _
      · exact absurd atTrail (noDirectory children)
      all_goals rfl
  | long directory notHere notAbove long => simp [directory, notHere, notAbove, long]
  | missing directory isNodeName missing =>
      rcases isNodeName_iff.1 isNodeName with ⟨notHere, notAbove, short⟩
      simp [directory, notHere, notAbove, short, missing]

end Steps

/-- What following names from the end of a trail comes to, through at most so many links: one name
after the other, where the names of a link's target take its place. -/
inductive Leads (tree : Tree) (follows : Bool) :
    Nat → Trail → List FileName → Except LookupFault Trail → Prop where
  | nil {links : Nat} {trail : Trail} : Leads tree follows links trail [] (.ok trail)
  | here {links : Nat} {trail : Trail} {rest : List FileName} {children : List (FileName × Node)}
      {answer : Except LookupFault Trail} (directory : tree.nodeAt trail = .directory children)
      (next : Leads tree follows links trail rest answer) :
      Leads tree follows links trail (here :: rest) answer
  | above {links : Nat} {trail : Trail} {rest : List FileName} {children : List (FileName × Node)}
      {answer : Except LookupFault Trail} (directory : tree.nodeAt trail = .directory children)
      (next : Leads tree follows links trail.tail rest answer) :
      Leads tree follows links trail (above :: rest) answer
  | child {links : Nat} {trail : Trail} {name : FileName} {rest : List FileName}
      {children : List (FileName × Node)} {node : Node} {answer : Except LookupFault Trail}
      (directory : tree.nodeAt trail = .directory children) (isNodeName : isNodeName name = true)
      (found : children.lookup name = some node) (noLink : node.kind ≠ .symlink)
      (next : Leads tree follows links ((name, node) :: trail) rest answer) :
      Leads tree follows links trail (name :: rest) answer
  | link {links : Nat} {trail : Trail} {name : FileName} {rest : List FileName}
      {children : List (FileName × Node)} {target : Bytes} {answer : Except LookupFault Trail}
      (directory : tree.nodeAt trail = .directory children) (isNodeName : isNodeName name = true)
      (found : children.lookup name = some (.link target)) (followed : rest = [] → follows = true)
      (next : Leads tree follows links (if isAbsolute target then [] else trail)
        (pathNames target ++ rest) answer) :
      Leads tree follows (links + 1) trail (name :: rest) answer
  | loop {trail : Trail} {name : FileName} {rest : List FileName}
      {children : List (FileName × Node)} {target : Bytes}
      (directory : tree.nodeAt trail = .directory children) (isNodeName : isNodeName name = true)
      (found : children.lookup name = some (.link target))
      (followed : rest = [] → follows = true) :
      Leads tree follows 0 trail (name :: rest) (.error .linkLoop)
  | lastLink {links : Nat} {trail : Trail} {name : FileName} {children : List (FileName × Node)}
      {target : Bytes} (directory : tree.nodeAt trail = .directory children)
      (isNodeName : isNodeName name = true) (found : children.lookup name = some (.link target))
      (unfollowed : follows = false) :
      Leads tree follows links trail [name] (.ok ((name, .link target) :: trail))
  | refused {links : Nat} {trail : Trail} {name : FileName} {rest : List FileName}
      {fault : LookupFault} (refuses : tree.Refuses trail name fault) :
      Leads tree follows links trail (name :: rest) (.error fault)

theorem Refuses.leads (refuses : tree.Refuses trail name fault) :
    tree.Leads follows links trail (name :: rest)
      (tree.locate follows links trail (name :: rest)) := by
  rw [refuses.locate]
  exact .refused refuses

theorem leads_locate (tree : Tree) (follows : Bool) (links : Nat) (trail : Trail)
    (names : List FileName) :
    tree.Leads follows links trail names (tree.locate follows links trail names) := by
  -- up to a link the induction is on the names, and from there on the links that are left
  induction links using Nat.strong_induction_on generalizing trail names with
  | _ links ihLinks =>
  induction names generalizing trail with
  | nil =>
      rw [locate_nil]
      exact .nil
  | cons name rest ihNames =>
      by_cases noDirectory : ∀ children, tree.nodeAt trail ≠ .directory children
      · exact Refuses.leads (.noDirectory noDirectory)
      rcases not_forall_not.1 noDirectory with ⟨children, directory⟩
      by_cases isHere : name = here
      · subst isHere
        rw [locate_here directory]
        exact .here directory (ihNames trail)
      by_cases isAbove : name = above
      · subst isAbove
        rw [locate_above directory]
        exact .above directory (ihNames trail.tail)
      by_cases long : longestName < name.length
      · exact Refuses.leads (.long directory isHere isAbove long)
      have isNodeName := isNodeName_iff.2 ⟨isHere, isAbove, long⟩
      cases lookup : children.lookup name with
      | none => exact Refuses.leads (.missing directory isNodeName lookup)
      | some node =>
          by_cases noLink : node.kind ≠ .symlink
          · rw [locate_child directory isNodeName lookup noLink]
            exact .child directory isNodeName lookup noLink (ihNames _)
          rcases exists_target_of_symlink (not_not.1 noLink) with ⟨target, rfl⟩
          by_cases followed : rest = [] → follows = true
          · rcases links with _ | fewer
            · rw [locate_link_zero directory isNodeName lookup followed]
              exact .loop directory isNodeName lookup followed
            · rw [locate_link directory isNodeName lookup followed]
              exact .link directory isNodeName lookup followed
                (ihLinks fewer (Nat.lt_succ_self fewer) _ _)
          · rcases Classical.not_imp.1 followed with ⟨rfl, stays⟩
            rw [Bool.not_eq_true] at stays
            subst stays
            rw [locate_last_link directory isNodeName lookup]
            exact .lastLink directory isNodeName lookup rfl

/-- Names are followed exactly as the relation says. -/
theorem locate_eq_iff {answer : Except LookupFault Trail} :
    tree.locate follows links trail names = answer ↔
      tree.Leads follows links trail names answer := by
  constructor
  · rintro rfl
    exact leads_locate tree follows links trail names
  · intro leads
    induction leads with
    | nil => exact locate_nil
    | here directory _ ih => exact (locate_here directory).trans ih
    | above directory _ ih => exact (locate_above directory).trans ih
    | child directory isNodeName found noLink _ ih =>
        exact (locate_child directory isNodeName found noLink).trans ih
    | link directory isNodeName found followed _ ih =>
        exact (locate_link directory isNodeName found followed).trans ih
    | loop directory isNodeName found followed =>
        exact locate_link_zero directory isNodeName found followed
    | lastLink directory isNodeName found unfollowed =>
        subst unfollowed
        exact locate_last_link directory isNodeName found
    | refused refuses => exact refuses.locate

/-- Where the beginning of a path leads to a directory, the rest is followed from there, with the
links that are left. -/
theorem locate_append (found : tree.locate follows links trail names = .ok last)
    (directory : tree.nodeAt last = .directory children) :
    ∃ fewer, ∀ followsLast rest, (rest = [] → followsLast = true) →
      tree.locate followsLast links trail (names ++ rest) =
        tree.locate followsLast fewer last rest := by
  replace found := locate_eq_iff.1 found
  generalize answered : Except.ok last = answer at found
  induction found with
  | @nil links trail =>
      rw [Except.ok.injEq] at answered
      subst answered
      exact ⟨links, fun _ _ _ => rfl⟩
  | here atTrail _ ih =>
      rcases ih answered with ⟨fewer, agree⟩
      refine ⟨fewer, ?_⟩
      intro followsLast rest followed
      rw [List.cons_append, locate_here atTrail]
      exact agree followsLast rest followed
  | above atTrail _ ih =>
      rcases ih answered with ⟨fewer, agree⟩
      refine ⟨fewer, ?_⟩
      intro followsLast rest followed
      rw [List.cons_append, locate_above atTrail]
      exact agree followsLast rest followed
  | child atTrail isNodeName atName noLink _ ih =>
      rcases ih answered with ⟨fewer, agree⟩
      refine ⟨fewer, ?_⟩
      intro followsLast rest followed
      rw [List.cons_append, locate_child atTrail isNodeName atName noLink]
      exact agree followsLast rest followed
  | link atTrail isNodeName atName _ _ ih =>
      rcases ih answered with ⟨fewer, agree⟩
      refine ⟨fewer, ?_⟩
      intro followsLast rest followed
      rw [List.cons_append, locate_link atTrail isNodeName atName]
      · rw [← List.append_assoc]
        exact agree followsLast rest followed
      · simpa using fun _ => followed
  | lastLink =>
      rw [Except.ok.injEq] at answered
      subst answered
      simp [nodeAt] at directory
  | _ => exact absurd answered (by simp)

/-- More links change nothing, unless there were too few. -/
theorem locate_of_more_links {more : Nat} (enough : links ≤ more)
    (noLoop : tree.locate follows links trail names ≠ .error .linkLoop) :
    tree.locate follows more trail names = tree.locate follows links trail names := by
  have leads := leads_locate tree follows links trail names
  generalize tree.locate follows links trail names = answer at leads noLoop ⊢
  induction leads generalizing more with
  | nil => exact locate_nil
  | here atTrail _ ih =>
      rw [locate_here atTrail]
      exact ih enough noLoop
  | above atTrail _ ih =>
      rw [locate_above atTrail]
      exact ih enough noLoop
  | child atTrail isNodeName atName noLink _ ih =>
      rw [locate_child atTrail isNodeName atName noLink]
      exact ih enough noLoop
  | @link fewer _ _ _ _ _ _ atTrail isNodeName atName followed _ ih =>
      rcases more with _ | more
      · exact absurd enough (Nat.not_succ_le_zero fewer)
      · rw [locate_link atTrail isNodeName atName followed]
        exact ih (Nat.le_of_succ_le_succ enough) noLoop
  | loop => exact absurd rfl noLoop
  | lastLink atTrail isNodeName atName unfollowed =>
      subst unfollowed
      exact locate_last_link atTrail isNodeName atName
  | refused refuses => exact refuses.locate

/-- Only the links that are left can tell two ways of following the same names apart. -/
theorem locate_eq_of_loops {others : Nat}
    (loops : tree.locate follows links trail names = .error .linkLoop ↔
      tree.locate follows others trail names = .error .linkLoop) :
    tree.locate follows links trail names = tree.locate follows others trail names := by
  by_cases loop : tree.locate follows links trail names = .error .linkLoop
  · rw [loop, loops.1 loop]
  · rcases Nat.le_total links others with more | more
    · exact (locate_of_more_links more loop).symm
    · exact locate_of_more_links more (mt loops.2 loop)

/-- Links at the end of a path are followed to no avail where there is none. -/
theorem locate_true_of_no_link (found : tree.locate false links trail names = .ok last)
    (noLink : (tree.nodeAt last).kind ≠ .symlink) :
    tree.locate true links trail names = .ok last := by
  replace found := locate_eq_iff.1 found
  generalize answered : Except.ok last = answer at found
  induction found with
  | nil => exact locate_nil
  | here atTrail _ ih =>
      rw [locate_here atTrail]
      exact ih answered
  | above atTrail _ ih =>
      rw [locate_above atTrail]
      exact ih answered
  | child atTrail isNodeName atName isNode _ ih =>
      rw [locate_child atTrail isNodeName atName isNode]
      exact ih answered
  | link atTrail isNodeName atName _ _ ih =>
      rw [locate_link atTrail isNodeName atName (by simp)]
      exact ih answered
  | lastLink =>
      rw [Except.ok.injEq] at answered
      subst answered
      exact absurd rfl noLink
  | _ => exact absurd answered (by simp)

/-- A fault on the way to a link at the end of a path is met as well where that link is followed. -/
theorem locate_true_of_error (failed : tree.locate false links trail names = .error fault) :
    tree.locate true links trail names = .error fault := by
  replace failed := locate_eq_iff.1 failed
  generalize answered : Except.error fault = answer at failed
  induction failed with
  | here atTrail _ ih =>
      rw [locate_here atTrail]
      exact ih answered
  | above atTrail _ ih =>
      rw [locate_above atTrail]
      exact ih answered
  | child atTrail isNodeName atName noLink _ ih =>
      rw [locate_child atTrail isNodeName atName noLink]
      exact ih answered
  | link atTrail isNodeName atName _ _ ih =>
      rw [locate_link atTrail isNodeName atName (by simp)]
      exact ih answered
  | loop atTrail isNodeName atName _ =>
      exact locate_link_zero atTrail isNodeName atName (by simp)
  | refused refuses => exact refuses.locate
  | _ => exact absurd answered (by simp)

/-- A path that ends with the name of a directory in itself leads to a directory, through any link
before that name. -/
theorem locate_of_locate_here
    (found : tree.locate follows links trail (names ++ [here]) = .ok last) :
    tree.locate true links trail names = .ok last ∧
      ∃ children, tree.nodeAt last = .directory children := by
  have leads := leads_locate tree true links trail names
  generalize tree.locate true links trail names = answer at leads ⊢
  induction leads with
  | @nil links trail =>
      rw [List.nil_append] at found
      by_cases directory : ∃ children, tree.nodeAt trail = .directory children
      · rcases directory with ⟨children, directory⟩
        rw [locate_here directory, locate_nil, Except.ok.injEq] at found
        subst found
        exact ⟨rfl, children, directory⟩
      · have refuses : tree.Refuses trail here _ := .noDirectory (not_exists.1 directory)
        simp [refuses.locate] at found
  | here atTrail _ ih =>
      rw [List.cons_append, locate_here atTrail] at found
      exact ih found
  | above atTrail _ ih =>
      rw [List.cons_append, locate_above atTrail] at found
      exact ih found
  | child atTrail isNodeName atName noLink _ ih =>
      rw [List.cons_append, locate_child atTrail isNodeName atName noLink] at found
      exact ih found
  | link atTrail isNodeName atName _ _ ih =>
      rw [List.cons_append, locate_link atTrail isNodeName atName (by simp),
        ← List.append_assoc] at found
      exact ih found
  | loop atTrail isNodeName atName _ =>
      rw [List.cons_append, locate_link_zero atTrail isNodeName atName (by simp)] at found
      exact absurd found (by simp)
  | lastLink _ _ _ unfollowed => exact absurd unfollowed (by simp)
  | refused refuses =>
      rw [List.cons_append, refuses.locate] at found
      exact absurd found (by simp)

section Placed

/-- Whether a way is the one that leads to its place, through the nodes that stand there. -/
def Placed (tree : Tree) (trail : Trail) : Prop := tree.trail? trail.place = some trail

theorem placed_nil : tree.Placed [] := rfl

theorem placed_of_trail? {place : Place} (found : tree.trail? place = some trail) :
    tree.Placed trail := by
  rw [Placed, place_of_trail? found]
  exact found

theorem placed_cons_iff : tree.Placed ((name, node) :: trail) ↔
    tree.Placed trail ∧ (tree.childrenAt trail).lookup name = some node := by
  have place_cons : Trail.place ((name, node) :: trail) = name :: trail.place := rfl
  rw [Placed, place_cons, trail?]
  constructor
  · intro placed
    cases outer : tree.trail? trail.place with
    | none => simp [outer] at placed
    | some before =>
        simp only [outer, Option.map_eq_some_iff] at placed
        rcases placed with ⟨found, lookup, same⟩
        rw [List.cons_eq_cons, Prod.mk.injEq] at same
        rcases same with ⟨⟨_, rfl⟩, rfl⟩
        exact ⟨outer, lookup⟩
  · rintro ⟨placed, lookup⟩
    rw [Placed] at placed
    simp [placed, lookup]

theorem Placed.cons (placed : tree.Placed trail)
    (directory : tree.nodeAt trail = .directory children)
    (found : children.lookup name = some node) : tree.Placed ((name, node) :: trail) := by
  apply placed_cons_iff.2
  refine ⟨placed, ?_⟩
  rw [childrenAt, directory]
  exact found

theorem Placed.tail (placed : tree.Placed trail) : tree.Placed trail.tail := by
  cases trail with
  | nil => exact placed
  | cons entry trail => exact (placed_cons_iff.1 placed).1

theorem Placed.of_append {inner : Trail} (placed : tree.Placed (inner ++ trail)) :
    tree.Placed trail := by
  induction inner with
  | nil => exact placed
  | cons entry inner ih => exact ih placed.tail

/-- At one place there is one node. -/
theorem Placed.eq_of_place_eq (placed : tree.Placed trail) (otherPlaced : tree.Placed last)
    (same : trail.place = last.place) : trail = last := by
  rw [Placed, same, otherPlaced, Option.some.injEq] at placed
  exact placed.symm

theorem Placed.locate (placed : tree.Placed trail)
    (found : tree.locate follows links trail names = .ok last) : tree.Placed last := by
  replace found := locate_eq_iff.1 found
  generalize answered : Except.ok last = answer at found
  induction found with
  | nil =>
      rw [Except.ok.injEq] at answered
      exact answered ▸ placed
  | here _ _ ih => exact ih placed answered
  | above _ _ ih => exact ih placed.tail answered
  | child atTrail _ atName _ _ ih => exact ih (placed.cons atTrail atName) answered
  | link _ _ _ _ _ ih =>
      apply ih _ answered
      split
      · exact placed_nil
      · exact placed
  | lastLink atTrail _ atName _ =>
      rw [Except.ok.injEq] at answered
      subst answered
      exact placed.cons atTrail atName
  | _ => exact absurd answered (by simp)

/-- The names by which a way goes on from a node lead to the end of the way, below that node. -/
theorem Placed.at? (placed : tree.Placed (trail ++ last)) :
    (tree.nodeAt last).at? trail.place.reverse = some (tree.nodeAt (trail ++ last)) := by
  induction trail with
  | nil => rfl
  | cons entry trail ih =>
      rcases entry with ⟨name, node⟩
      rcases placed_cons_iff.1 placed with ⟨placedOuter, lookup⟩
      change (tree.childrenAt (trail ++ last)).lookup name = some node at lookup
      have place_cons : Trail.place ((name, node) :: trail) = name :: Trail.place trail := rfl
      rw [place_cons, List.reverse_cons, Node.at?_concat_eq_some_iff]
      rcases atOuter : tree.nodeAt (trail ++ last) with children | _ | _ | _
      · rw [childrenAt, atOuter] at lookup
        exact ⟨children, by rw [ih placedOuter, atOuter], lookup⟩
      all_goals simp [childrenAt, atOuter] at lookup

theorem Placed.at?_of_place_eq (placed : tree.Placed last) (outerPlaced : tree.Placed trail)
    (split : last.place = names.reverse ++ trail.place) :
    (tree.nodeAt trail).at? names = some (tree.nodeAt last) := by
  rcases List.map_eq_append_iff.1 split with ⟨inner, outer, rfl, innerPlace, outerPlace⟩
  have same := placed.of_append.eq_of_place_eq outerPlaced outerPlace
  subst same
  have below := placed.at?
  rwa [Trail.place, innerPlace, List.reverse_reverse] at below

/-- Whether a way leads through nodes of the tree. -/
def Real (tree : Tree) (trail : Trail) : Prop :=
  ∀ entry ∈ trail, entry.2.Inside (.directory tree.children)

theorem Real.nodeAt (real : tree.Real trail) :
    (tree.nodeAt trail).Inside (.directory tree.children) := by
  cases trail with
  | nil => exact .self _
  | cons entry trail => exact real entry List.mem_cons_self

theorem Placed.real (placed : tree.Placed trail) : tree.Real trail := by
  intro entry mem
  rcases List.append_of_mem mem with ⟨inner, outer, rfl⟩
  have placedOuter := placed.of_append
  rw [← List.append_nil (entry :: outer)] at placedOuter
  exact Node.inside_of_at? placedOuter.at?

end Placed

section Below

/-- Names of real directories are followed to the last of them. -/
theorem locate_append_of_at? (isNodeName : ∀ name ∈ names, isNodeName name = true)
    (here : (tree.nodeAt trail).at? names = some (.directory children)) :
    ∃ inner, tree.nodeAt inner = .directory children ∧
      inner.place = names.reverse ++ trail.place ∧ ∀ follows rest,
        tree.locate follows links trail (names ++ rest) = tree.locate follows links inner rest := by
  induction names generalizing trail with
  | nil =>
      rw [Node.at?, Option.some.injEq] at here
      exact ⟨trail, here, rfl, fun _ _ => rfl⟩
  | cons name names ih =>
      rcases List.forall_mem_cons.1 isNodeName with ⟨isNodeNameFirst, isNodeNameRest⟩
      rcases Option.bind_eq_some_iff.1 here with ⟨child, childFound, below⟩
      rcases Node.child?_eq_some_iff.1 childFound with ⟨inside, atTrail, lookup⟩
      have noLink : child.kind ≠ .symlink := by
        apply kind_ne_symlink_iff.2
        rintro target rfl
        cases names <;> simp [Node.at?, Node.child?] at below
      rcases @ih ((name, child) :: trail) isNodeNameRest below with ⟨inner, atInner, place, agree⟩
      refine ⟨inner, atInner, ?_, ?_⟩
      · rw [place, List.reverse_cons, List.append_assoc]
        rfl
      intro follows rest
      rw [List.cons_append, locate_child atTrail isNodeNameFirst lookup noLink]
      exact agree follows rest

/-- Names lead to what stands below the beginning of their way, unless a link there is followed. -/
theorem locate_of_at? (isNodeName : ∀ name ∈ names, isNodeName name = true)
    (here : (tree.nodeAt trail).at? names = some node)
    (unfollowed : follows = true → node.kind ≠ .symlink) :
    ∃ last, tree.locate follows links trail names = .ok last ∧ tree.nodeAt last = node ∧
      last.place = names.reverse ++ trail.place := by
  rcases List.eq_nil_or_concat' names with rfl | ⟨before, name, rfl⟩
  · rw [Node.at?, Option.some.injEq] at here
    exact ⟨trail, locate_nil, here, rfl⟩
  · rcases Node.at?_concat_eq_some_iff.1 here with ⟨children, directory, lookup⟩
    rcases List.forall_mem_append.1 isNodeName with ⟨isNodeNameBefore, isNodeNameLast⟩
    have isNodeNameLast := isNodeNameLast name (List.mem_singleton_self name)
    rcases locate_append_of_at? isNodeNameBefore directory with ⟨inner, atInner, place, agree⟩
    have place_cons : Trail.place ((name, node) :: inner) = name :: inner.place := rfl
    refine ⟨(name, node) :: inner, ?_, rfl, by simp [place_cons, place]⟩
    rw [agree]
    by_cases noLink : node.kind ≠ .symlink
    · rw [locate_child atInner isNodeNameLast lookup noLink, locate_nil]
    · have stays : follows = false := by
        rw [← Bool.not_eq_true]
        exact mt unfollowed noLink
      subst stays
      cases node with
      | link target => exact locate_last_link atInner isNodeNameLast lookup
      | _ => exact absurd (by simp [Node.kind]) noLink

/-- Where no link is on their way, names that lead anywhere lead to the place that they make up. -/
theorem place_of_locate (plain : ∀ name ∈ names, name ≠ here ∧ name ≠ above)
    (noLink : ∀ before rest, names = before ++ rest →
      ∀ target, (tree.nodeAt trail).at? before ≠ some (.link target))
    (found : tree.locate follows links trail names = .ok last) :
    last.place = names.reverse ++ trail.place := by
  replace found := locate_eq_iff.1 found
  generalize answered : Except.ok last = answer at found
  induction found with
  | nil =>
      rw [Except.ok.injEq] at answered
      subst answered
      rfl
  | here => exact absurd rfl (plain here List.mem_cons_self).1
  | above => exact absurd rfl (plain above List.mem_cons_self).2
  | @child _ trail name names _ node _ atTrail _ atName _ _ ih =>
      have place_cons : Trail.place ((name, node) :: trail) = name :: trail.place := rfl
      have plainRest := (List.forall_mem_cons.1 plain).2
      rw [ih plainRest _ answered, place_cons, List.reverse_cons, List.append_assoc]
      · rfl
      · intro before rest split target
        have onTheWay := noLink (name :: before) rest (by rw [split, List.cons_append]) target
        rwa [atTrail, Node.at?, Node.child?, atName] at onTheWay
  | @link _ _ name rest _ target _ atTrail _ atName _ _ _ =>
      apply absurd _ (noLink [name] rest rfl target)
      rw [atTrail, Node.at?, Node.child?, atName]
      rfl
  | @lastLink _ _ name _ target atTrail _ atName _ =>
      apply absurd _ (noLink [name] [] rfl target)
      rw [atTrail, Node.at?, Node.child?, atName]
      rfl
  | _ => exact absurd answered (by simp)

/-- Nothing is found under a name that a real directory does not hold. -/
theorem locate_of_at?_missing (isNodeName : ∀ name ∈ names, isNodeName name = true)
    (here : (tree.nodeAt trail).at? names = some (.directory children))
    (isNodeNameLast : Host.isNodeName name = true) (missing : children.lookup name = none) :
    tree.locate follows links trail (names ++ [name]) = .error .notFound := by
  rcases locate_append_of_at? isNodeName here with ⟨inner, atInner, _, agree⟩
  rw [agree]
  exact (Refuses.missing atInner isNodeNameLast missing).locate

end Below

section Resolving

variable {working : Place} {path : Bytes} {start : Trail}

theorem resolve_of_trail? (nonempty : path ≠ []) (noZero : 0 ∉ path)
    (short : path.length ≤ longestPath)
    (found : tree.trail? (if isAbsolute path then [] else working) = some start) :
    tree.resolve follows working path = tree.locate follows linkLimit start (pathNames path) := by
  have notEmpty : path.isEmpty = false := by simpa using nonempty
  have noZeroByte : path.contains 0 = false := by simpa using noZero
  simp only [resolve, notEmpty, noZeroByte, if_neg (Nat.not_lt.2 short), found, Bool.false_eq_true,
    if_false]

/-- A path of names of real directories names what stands below these. -/
theorem stat_of_at? (nonempty : path ≠ []) (noZero : 0 ∉ path) (short : path.length ≤ longestPath)
    (found : tree.trail? (if isAbsolute path then [] else working) = some start)
    (isNodeName : ∀ name ∈ pathNames path, isNodeName name = true)
    (there : (tree.nodeAt start).at? (pathNames path) = some node) :
    tree.stat working path = .ok node := by
  have unfollowed : false = true → node.kind ≠ .symlink := by simp
  rcases locate_of_at? isNodeName there unfollowed with ⟨last, located, atLast, _⟩
  rw [stat, resolve_of_trail? nonempty noZero short found, located]
  exact congrArg Except.ok atLast

theorem resolve_of_zero (nonempty : path ≠ []) (zero : 0 ∈ path) :
    tree.resolve follows working path = .error .zeroByte := by
  have notEmpty : path.isEmpty = false := by simpa using nonempty
  have zeroByte : path.contains 0 = true := by simpa using zero
  simp only [resolve, notEmpty, zeroByte, if_true, Bool.false_eq_true, if_false]

theorem resolve_of_long (nonempty : path ≠ []) (noZero : 0 ∉ path)
    (long : ¬path.length ≤ longestPath) :
    tree.resolve follows working path = .error .nameTooLong := by
  have notEmpty : path.isEmpty = false := by simpa using nonempty
  have noZeroByte : path.contains 0 = false := by simpa using noZero
  simp only [resolve, notEmpty, noZeroByte, if_pos (Nat.not_le.1 long), Bool.false_eq_true,
    if_false]

theorem exists_of_resolve (resolved : tree.resolve follows working path = .ok last) :
    path ≠ [] ∧ 0 ∉ path ∧ ∃ start,
      tree.trail? (if isAbsolute path then [] else working) = some start ∧
        tree.locate follows linkLimit start (pathNames path) = .ok last := by
  by_cases empty : path = []
  · simp [resolve, empty] at resolved
  by_cases zeroByte : 0 ∈ path
  · simp [resolve, empty, zeroByte] at resolved
  by_cases short : path.length ≤ longestPath
  · cases found : tree.trail? (if isAbsolute path then [] else working) with
    | none => simp [resolve, empty, zeroByte, Nat.not_lt.2 short, found] at resolved
    | some start =>
        rw [resolve_of_trail? empty zeroByte short found] at resolved
        exact ⟨empty, zeroByte, start, rfl, resolved⟩
  · rw [resolve_of_long empty zeroByte short] at resolved
    exact absurd resolved (by simp)

/-- A path leads where another one does that starts at the same place and has the same names, as
long as the host takes it. -/
theorem resolve_of_pathNames {other : Bytes}
    (resolved : tree.resolve follows working path = .ok last) (nonempty : other ≠ [])
    (noZero : 0 ∉ other) (short : other.length ≤ longestPath)
    (absolute : isAbsolute other = isAbsolute path) (names : pathNames other = pathNames path) :
    tree.resolve follows working other = .ok last := by
  rcases exists_of_resolve resolved with ⟨_, _, start, atStart, located⟩
  rw [← absolute] at atStart
  rw [resolve_of_trail? nonempty noZero short atStart, names, located]

theorem placed_of_resolve (resolved : tree.resolve follows working path = .ok last) :
    tree.Placed last := by
  rcases exists_of_resolve resolved with ⟨_, _, start, atStart, found⟩
  exact (placed_of_trail? atStart).locate found

/-- Whether or not links at the end are followed, a path is refused in the same way, or its names
are followed from the same place. -/
theorem resolve_refuses_or_locates (tree : Tree) (working : Place) (path : Bytes) :
    (∃ fault, ∀ follows, tree.resolve follows working path = .error fault) ∨
      ∃ start, ∀ follows, tree.resolve follows working path =
        tree.locate follows linkLimit start (pathNames path) := by
  by_cases nonempty : path = []
  · exact Or.inl ⟨.notFound, fun follows => by simp [resolve, nonempty]⟩
  by_cases noZero : 0 ∈ path
  · exact Or.inl ⟨.zeroByte, fun follows => by simp [resolve, nonempty, noZero]⟩
  by_cases short : path.length ≤ longestPath
  · cases atStart : tree.trail? (if isAbsolute path then [] else working) with
    | none =>
        refine Or.inl ⟨.notFound, ?_⟩
        intro follows
        simp [resolve, nonempty, noZero, Nat.not_lt.2 short, atStart]
    | some start => exact Or.inr ⟨start, fun _ => resolve_of_trail? nonempty noZero short atStart⟩
  · exact Or.inl ⟨.nameTooLong, fun _ => resolve_of_long nonempty noZero short⟩

theorem resolve_true_of_error (failed : tree.resolve false working path = .error fault) :
    tree.resolve true working path = .error fault := by
  rcases resolve_refuses_or_locates tree working path with ⟨other, refuses⟩ | ⟨start, locates⟩
  · rw [refuses] at failed ⊢
    exact failed
  · rw [locates] at failed ⊢
    exact locate_true_of_error failed

theorem resolve_true_of_no_link (resolved : tree.resolve false working path = .ok last)
    (noLink : (tree.nodeAt last).kind ≠ .symlink) :
    tree.resolve true working path = .ok last := by
  rcases resolve_refuses_or_locates tree working path with ⟨other, refuses⟩ | ⟨start, locates⟩
  · rw [refuses] at resolved
    exact absurd resolved (by simp)
  · rw [locates] at resolved ⊢
    exact locate_true_of_no_link resolved noLink

/-- What leads somewhere where a link at its end is followed leads somewhere also where it is
not. -/
theorem exists_stat_of_resolve (resolved : tree.resolve true working path = .ok last) :
    ∃ node, tree.stat working path = .ok node := by
  rw [stat]
  rcases stopped : tree.resolve false working path with fault | trail
  · rw [resolve_true_of_error stopped] at resolved
    exact absurd resolved (by simp)
  · exact ⟨_, rfl⟩

theorem list_eq_ok_iff : tree.list working path = .ok children ↔
    ∃ trail, tree.resolve true working path = .ok trail ∧
      tree.nodeAt trail = .directory children := by
  rw [list]
  rcases tree.resolve true working path with fault | trail
  · simp
  · rcases atTrail : tree.nodeAt trail with inside | _ | _ | _ <;> simp [atTrail]

/-- Whether a path leads to a file, where a link at its end is followed. -/
def LeadsToFile (tree : Tree) (working : Place) (path : Bytes) : Prop :=
  ∃ trail contents, tree.resolve true working path = .ok trail ∧
    tree.nodeAt trail = .file contents

/-- Of a path that leads to no file nothing is read. -/
theorem exists_read_error (leadsNowhere : ¬tree.LeadsToFile working path) :
    ∃ fault, tree.read working path = .error fault := by
  rw [read]
  rcases resolved : tree.resolve true working path with fault | trail
  · exact ⟨fault, rfl⟩
  · rcases atTrail : tree.nodeAt trail with children | contents | target | _
    · exact ⟨.isADirectory, by simp only [atTrail]⟩
    · exact absurd ⟨trail, contents, resolved, atTrail⟩ leadsNowhere
    · exact ⟨.linkLoop, by simp only [atTrail]⟩
    · exact ⟨.noSuchDevice, by simp only [atTrail]⟩

end Resolving

end Tree

end Host

end OwnerCoverage
