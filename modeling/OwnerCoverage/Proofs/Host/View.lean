import OwnerCoverage.Host.View
import OwnerCoverage.Proofs.Host.Resolution

/-!
# Answers of a host directory

A view of a host directory spells the path of a place as the path of its root and the names of the
place. So it answers from what stands below its root, through real directories only, as long as the
host takes the path (`stat_of_at?`, `list_of_at?`, `read_of_at?`). The host refuses a path for its
length only (`stat_of_not_takes`).
-/

namespace OwnerCoverage

namespace Host

section Paths

/-- The names of a path, whether or not a slash ends it. -/
def innerNames (path : Bytes) : List FileName :=
  (path.splitOnP (· == slash)).filter (!·.isEmpty)

variable {path : Bytes} {name : String}

theorem ofText_ne_nil {text : String} (nonempty : text ≠ "") : Bytes.ofText text ≠ [] := by
  intro empty
  apply nonempty
  apply Bytes.ofText_injective
  rw [empty]
  decide

theorem innerNames_append_slash (first second : Bytes) :
    innerNames (first ++ slash :: second) = innerNames first ++ innerNames second := by
  rw [innerNames, List.splitOnP_append_cons first second (by simp), List.filter_append]
  rfl

/-- A name that can be listed stays whole. -/
theorem innerNames_ofText (listed : Path.IsListed name) :
    innerNames (Bytes.ofText name) = [Bytes.ofText name] := by
  have uncut : ∀ byte ∈ Bytes.ofText name, (byte == slash) = false := by
    intro byte mem
    rw [beq_eq_false_iff_ne]
    rintro rfl
    exact listed.noSeparator (slash_mem_ofText_iff.1 mem)
  have nonempty : (Bytes.ofText name).isEmpty = false := by
    simpa using ofText_ne_nil (Path.ne_empty listed)
  rw [innerNames, List.splitOnP_eq_singleton uncut]
  simp [nonempty]

theorem isNodeName_of_isFileName {names : List String}
    (isFileName : ∀ name ∈ names, IsFileName (Bytes.ofText name)) :
    ∀ name ∈ names.map Bytes.ofText, isNodeName name = true := by
  intro name mem
  rcases List.mem_map.1 mem with ⟨text, text_mem, rfl⟩
  exact (isFileName text text_mem).isNodeName

theorem pathNames_of_slash_at_end (before : Bytes) :
    pathNames (before ++ [slash]) = innerNames (before ++ [slash]) ++ [here] := by
  simp [pathNames, innerNames]

theorem pathNames_of_no_slash_at_end (inside : path.getLast? ≠ some slash) :
    pathNames path = innerNames path := by
  simp [pathNames, innerNames, inside]

end Paths

namespace View

/-- The path of the host for a name below a path of the host. -/
def below (base name : String) : String :=
  if base.isEmpty || base.endsWith "/" then base ++ name else base ++ "/" ++ name

theorem hostPath_eq (view : View) (path : String) :
    view.hostPath path = (Path.names path).foldl below view.root := rfl

/-- Whether the host takes the path that a view spells. -/
def Takes (view : View) (path : String) : Prop :=
  (Bytes.ofText (view.hostPath path)).length ≤ longestPath

/-- A name is added after one slash, which may be there already. -/
theorem exists_ofText_below {base : String} (nonempty : base ≠ "") (name : String) :
    ∃ before, Bytes.ofText (below base name) = before ++ slash :: Bytes.ofText name ∧
      (Bytes.ofText base = before ∨ Bytes.ofText base = before ++ [slash]) := by
  have slashBytes : Bytes.ofText "/" = [slash] := by decide
  have notEmpty : base.isEmpty = false := by simpa using nonempty
  rw [below, notEmpty, Bool.false_or]
  split
  · rename_i ends
    rw [String.endsWith] at ends
    rcases String.Slice.endsWith_string_iff.1 ends with ⟨before, split⟩
    rw [String.copy_toSlice] at split
    have base_eq : base = String.ofList before ++ "/" := by
      rw [← String.toList_inj, String.toList_append, String.toList_ofList, split]
    refine ⟨Bytes.ofText (String.ofList before), ?_, Or.inr ?_⟩
    · rw [Bytes.ofText_append, base_eq, Bytes.ofText_append, slashBytes]
      simp
    · rw [base_eq, Bytes.ofText_append, slashBytes]
  · refine ⟨Bytes.ofText base, ?_, Or.inl rfl⟩
    rw [Bytes.ofText_append, Bytes.ofText_append, slashBytes]
    simp

theorem below_ne_empty {base : String} (nonempty : base ≠ "") (name : String) :
    below base name ≠ "" := by
  intro empty
  rcases exists_ofText_below nonempty name with ⟨before, below_eq, _⟩
  have noBytes : Bytes.ofText "" = [] := by decide
  rw [empty, noBytes] at below_eq
  simp at below_eq

section Spelling

variable {base name : String} {names : List String}

theorem innerNames_below (nonempty : base ≠ "") (listed : Path.IsListed name) :
    innerNames (Bytes.ofText (below base name)) =
      innerNames (Bytes.ofText base) ++ [Bytes.ofText name] := by
  rcases exists_ofText_below nonempty name with ⟨before, below_eq, base_eq⟩
  have same : innerNames (Bytes.ofText base) = innerNames before := by
    rcases base_eq with base_eq | base_eq
    · rw [base_eq]
    · rw [base_eq, innerNames_append_slash]
      simp [innerNames]
  rw [below_eq, innerNames_append_slash, innerNames_ofText listed, same]

theorem isAbsolute_below (nonempty : base ≠ "") (name : String) :
    isAbsolute (Bytes.ofText (below base name)) = isAbsolute (Bytes.ofText base) := by
  rcases exists_ofText_below nonempty name with ⟨before, below_eq, base_eq⟩
  have someBytes := ofText_ne_nil nonempty
  rcases base_eq with base_eq | base_eq
  · rw [base_eq] at someBytes
    rw [isAbsolute, isAbsolute, below_eq, base_eq, List.head?_append_of_ne_nil _ someBytes]
  · rw [isAbsolute, isAbsolute, below_eq, base_eq]
    cases before <;> rfl

theorem zero_mem_below_iff (nonempty : base ≠ "") : 0 ∈ Bytes.ofText (below base name) ↔
    0 ∈ Bytes.ofText base ∨ 0 ∈ Bytes.ofText name := by
  have different : (0 : UInt8) ≠ slash := by decide
  rcases exists_ofText_below nonempty name with ⟨before, below_eq, base_eq | base_eq⟩ <;>
    simp [below_eq, base_eq, different]

theorem getLast?_below (nonempty : base ≠ "") (listed : Path.IsListed name) :
    (Bytes.ofText (below base name)).getLast? ≠ some slash := by
  rcases exists_ofText_below nonempty name with ⟨before, below_eq, _⟩
  intro ends
  have notEmpty : slash :: Bytes.ofText name ≠ [] := List.cons_ne_nil slash _
  rw [below_eq, List.getLast?_append_of_ne_nil _ notEmpty, List.getLast?_cons_of_ne_nil
    (ofText_ne_nil (Path.ne_empty listed))] at ends
  exact listed.noSeparator (slash_mem_ofText_iff.1 (List.mem_of_getLast? ends))

/-- Behind a base that no slash ends, a name stands after a slash. -/
theorem below_of_no_slash_at_end (nonempty : base ≠ "")
    (inside : (Bytes.ofText base).getLast? ≠ some slash) (name : String) :
    below base name = base ++ "/" ++ name := by
  have slashBytes : Bytes.ofText "/" = [slash] := by decide
  rcases exists_ofText_below nonempty name with ⟨before, below_eq, base_eq | base_eq⟩
  · apply Bytes.ofText_injective
    rw [below_eq, Bytes.ofText_append, Bytes.ofText_append, slashBytes, base_eq]
    simp
  · exact absurd (by simp [base_eq]) inside

theorem below_append (base name more : String) : below base (name ++ more) =
    below base name ++ more := by
  rw [below, below]
  split <;> simp only [String.append_assoc]

theorem innerNames_foldl_below (nonempty : base ≠ "")
    (listed : ∀ name ∈ names, Path.IsListed name) :
    innerNames (Bytes.ofText (names.foldl below base)) =
      innerNames (Bytes.ofText base) ++ names.map Bytes.ofText := by
  induction names generalizing base with
  | nil => simp
  | cons name names ih =>
      rcases List.forall_mem_cons.1 listed with ⟨listedFirst, listedRest⟩
      rw [List.foldl_cons, ih (below_ne_empty nonempty name) listedRest,
        innerNames_below nonempty listedFirst]
      simp

theorem foldl_below_ne_empty (nonempty : base ≠ "") (names : List String) :
    names.foldl below base ≠ "" := by
  induction names generalizing base with
  | nil => exact nonempty
  | cons name names ih => exact ih (below_ne_empty nonempty name)

theorem getLast?_foldl_below (nonempty : base ≠ "") (some_name : names ≠ [])
    (listed : ∀ name ∈ names, Path.IsListed name) :
    (Bytes.ofText (names.foldl below base)).getLast? ≠ some slash := by
  rcases List.eq_nil_or_concat' names with rfl | ⟨before, name, rfl⟩
  · exact absurd rfl some_name
  · rw [List.foldl_append]
    apply getLast?_below (foldl_below_ne_empty nonempty before)
    exact listed name (by simp)

theorem isAbsolute_foldl_below (nonempty : base ≠ "") (names : List String) :
    isAbsolute (Bytes.ofText (names.foldl below base)) = isAbsolute (Bytes.ofText base) := by
  induction names generalizing base with
  | nil => rfl
  | cons name names ih =>
      rw [List.foldl_cons, ih (below_ne_empty nonempty name), isAbsolute_below nonempty]

/-- Names that are added one by one make up what their path makes up. -/
theorem foldl_below_eq (nonempty : base ≠ "") (some_name : names ≠ [])
    (listed : ∀ name ∈ names, Path.IsListed name) :
    names.foldl below base = below base (Path.ofNames names) := by
  induction names using List.reverseRecOn with
  | nil => exact absurd rfl some_name
  | append_singleton names name ih =>
      rw [List.foldl_append, List.foldl_cons, List.foldl_nil]
      by_cases single : names = []
      · rw [single, List.foldl_nil]
        rfl
      · have listedInner : ∀ name ∈ names, Path.IsListed name :=
          fun name mem => listed name (List.mem_append_left _ mem)
        have inside : (Bytes.ofText (names.foldl below base)).getLast? ≠ some slash :=
          getLast?_foldl_below nonempty single listedInner
        have inner := foldl_below_ne_empty nonempty names
        have joined : Path.ofNames (names ++ [name]) = Path.ofNames names ++ ("/" ++ name) := by
          rw [Path.ofNames_of_ne_nil single, Path.ofNames_of_ne_nil (by simp),
            String.intercalate_append_of_ne_nil single (List.cons_ne_nil name []),
            String.append_assoc]
          rfl
        rw [below_of_no_slash_at_end inner inside, joined, below_append, ih single listedInner,
          String.append_assoc]

theorem zero_mem_foldl_below_iff (nonempty : base ≠ "") :
    0 ∈ Bytes.ofText (names.foldl below base) ↔
      0 ∈ Bytes.ofText base ∨ ∃ name ∈ names, 0 ∈ Bytes.ofText name := by
  induction names generalizing base with
  | nil => simp
  | cons name names ih =>
      rw [List.foldl_cons, ih (below_ne_empty nonempty name), zero_mem_below_iff nonempty, or_assoc,
        List.exists_mem_cons_iff]

theorem length_below_le (base name : String) : (Bytes.ofText (below base name)).length ≤
    (Bytes.ofText base).length + ((Bytes.ofText name).length + 1) := by
  have slashBytes : Bytes.ofText "/" = [slash] := by decide
  rw [below]
  split <;>
    simp only [Bytes.ofText_append, slashBytes, List.length_append, List.length_singleton] <;> omega

/-- A path that is spelled for some names is no longer than that of its root and the names, each
after a slash. -/
theorem length_foldl_below_le (base : String) (names : List String) :
    (Bytes.ofText (names.foldl below base)).length ≤
      (Bytes.ofText base ++ (names.map Bytes.ofText).flatMap (slash :: ·)).length := by
  induction names generalizing base with
  | nil => simp
  | cons name names ih =>
      have first := length_below_le base name
      have rest := ih (below base name)
      simp only [List.foldl_cons, List.map_cons, List.flatMap_cons, List.length_append,
        List.length_cons] at rest ⊢
      omega

/-- The names of a path that is spelled for some names are those of its root, and these. -/
theorem pathNames_foldl_below (nonempty : base ≠ "") (some_name : names ≠ [])
    (listed : ∀ name ∈ names, Path.IsListed name) :
    pathNames (Bytes.ofText (names.foldl below base)) =
      innerNames (Bytes.ofText base) ++ names.map Bytes.ofText := by
  rw [← innerNames_foldl_below nonempty listed]
  exact pathNames_of_no_slash_at_end (getLast?_foldl_below nonempty some_name listed)

end Spelling

section Answers

variable {view : View} {children inside : List (FileName × Node)} {trail : Trail} {fewer : Nat}
  {path : String}

/-- Whether the root of a view is a real directory of its tree with some children, from which paths
are followed with the links that are left. -/
structure Starts (view : View) (children : List (FileName × Node)) (trail : Trail)
    (fewer : Nat) : Prop where
  real : view.tree.Real trail
  directory : view.tree.nodeAt trail = .directory children
  resolve : ∀ {path}, (∀ name ∈ Path.names path, IsFileName (Bytes.ofText name)) →
    view.Takes path → ∀ follows,
      view.tree.resolve follows view.working (Bytes.ofText (view.hostPath path)) =
        view.tree.locate follows fewer trail ((Path.names path).map Bytes.ofText)
  refuse : ∀ {path}, (∀ name ∈ Path.names path, IsFileName (Bytes.ofText name)) →
    ¬view.Takes path → ∀ follows,
      view.tree.resolve follows view.working (Bytes.ofText (view.hostPath path)) =
        .error .nameTooLong

/-- What the host says against a path that a view spells, before it follows the names of it. -/
def refusal? (view : View) (path : String) : Option LookupFault :=
  if 0 ∈ Bytes.ofText (view.hostPath path) then some .zeroByte
  else if longestPath < (Bytes.ofText (view.hostPath path)).length then some .nameTooLong
  else none

/-- Whether the root of a view leads to a directory with some children, through links or not, from
which the paths below the root are followed with the links that are left. -/
structure Leads (view : View) (children : List (FileName × Node)) (trail : Trail)
    (fewer : Nat) : Prop where
  directory : view.tree.nodeAt trail = .directory children
  root : view.tree.resolve true view.working (Bytes.ofText view.root) = .ok trail
  below : ∀ {path}, Path.names path ≠ [] → ∀ follows,
    view.tree.resolve follows view.working (Bytes.ofText (view.hostPath path)) =
      match view.refusal? path with
      | some fault => .error fault
      | none => view.tree.locate follows fewer trail ((Path.names path).map Bytes.ofText)

/-- Below what a path leads to, more names are followed from there. A slash at its end makes no
difference to that. -/
theorem exists_locate_innerNames {tree : Tree} {follows : Bool} {links : Nat} {start last : Trail}
    {path : Bytes} (found : tree.locate follows links start (pathNames path) = .ok last)
    (directory : tree.nodeAt last = .directory children) :
    ∃ fewer, ∀ followsLast rest, rest ≠ [] →
      tree.locate followsLast links start (innerNames path ++ rest) =
        tree.locate followsLast fewer last rest := by
  have inner : ∃ follows, tree.locate follows links start (innerNames path) = .ok last := by
    by_cases ends : path.getLast? = some slash
    · rcases List.getLast?_eq_some_iff.1 ends with ⟨before, rfl⟩
      rw [pathNames_of_slash_at_end] at found
      exact ⟨true, (Tree.locate_of_locate_here found).1⟩
    · rw [pathNames_of_no_slash_at_end ends] at found
      exact ⟨follows, found⟩
  rcases inner with ⟨follows, found⟩
  rcases Tree.locate_append found directory with ⟨fewer, agree⟩
  refine ⟨fewer, ?_⟩
  intro followsLast rest longer
  exact agree followsLast rest fun empty => absurd empty longer

theorem root_ne_empty_of_resolve {follows : Bool}
    (root : view.tree.resolve follows view.working (Bytes.ofText view.root) = .ok trail) :
    view.root ≠ "" := by
  intro empty
  apply (Tree.exists_of_resolve root).1
  rw [empty]
  decide

theorem exists_leads
    (root : view.tree.resolve true view.working (Bytes.ofText view.root) = .ok trail)
    (directory : view.tree.nodeAt trail = .directory children) :
    ∃ fewer, view.Leads children trail fewer := by
  rcases Tree.exists_of_resolve root with ⟨_, _, start, atStart, found⟩
  rcases exists_locate_innerNames found directory with ⟨fewer, agree⟩
  have nonempty := root_ne_empty_of_resolve root
  refine ⟨fewer, directory, root, ?_⟩
  intro path someName follows
  have listed : ∀ name ∈ Path.names path, Path.IsListed name :=
    fun _ => Path.isListed_of_mem_names
  have someBytes := ofText_ne_nil (foldl_below_ne_empty nonempty (Path.names path))
  rw [← isAbsolute_foldl_below nonempty (Path.names path)] at atStart
  rw [refusal?, hostPath_eq]
  split_ifs with zero long
  · exact Tree.resolve_of_zero someBytes zero
  · exact Tree.resolve_of_long someBytes zero (Nat.not_le.2 long)
  · rw [Tree.resolve_of_trail? someBytes zero (Nat.not_lt.1 long) atStart,
      pathNames_foldl_below nonempty someName listed]
    exact agree follows _ (by simpa using someName)

theorem zero_not_mem_hostPath
    (root : view.tree.resolve true view.working (Bytes.ofText view.root) = .ok trail)
    (isFileName : ∀ name ∈ Path.names path, IsFileName (Bytes.ofText name)) :
    0 ∉ Bytes.ofText (view.hostPath path) := by
  rw [hostPath_eq, zero_mem_foldl_below_iff (root_ne_empty_of_resolve root)]
  rintro (zero | ⟨name, mem, zero⟩)
  · exact (Tree.exists_of_resolve root).2.1 zero
  · exact (isFileName name mem).noZero zero

/-- A path of a real directory leads there, whether or not links at its end are followed. -/
theorem exists_resolve_of_stat (root : view.tree.stat view.working (Bytes.ofText view.root) =
    .ok (.directory children)) : ∃ trail, view.tree.nodeAt trail = .directory children ∧
      ∀ follows, view.tree.resolve follows view.working (Bytes.ofText view.root) = .ok trail := by
  rw [Tree.stat] at root
  rcases resolved : view.tree.resolve false view.working (Bytes.ofText view.root) with fault | last
  · simp [resolved] at root
  · simp only [resolved, Except.ok.injEq] at root
    refine ⟨last, root, ?_⟩
    intro follows
    cases follows with
    | false => exact resolved
    | true => exact Tree.resolve_true_of_no_link resolved (by simp [root, Node.kind])

theorem exists_starts (root : view.tree.stat view.working (Bytes.ofText view.root) =
    .ok (.directory children)) : ∃ trail fewer, view.Starts children trail fewer := by
  rcases exists_resolve_of_stat root with ⟨trail, atTrail, resolved⟩
  rcases exists_leads (resolved true) atTrail with ⟨fewer, leads⟩
  refine ⟨trail, fewer, (Tree.placed_of_resolve (resolved true)).real, atTrail, ?_, ?_⟩
  · intro path isFileName takes follows
    by_cases atTop : Path.names path = []
    · rw [hostPath_eq, atTop, List.foldl_nil, List.map_nil, Tree.locate_nil]
      exact resolved follows
    · have free : view.refusal? path = none := by
        rw [refusal?, if_neg (zero_not_mem_hostPath (resolved true) isFileName),
          if_neg (Nat.not_lt.2 takes)]
      rw [leads.below atTop, free]
  · intro path isFileName refused follows
    have nonempty :=
      foldl_below_ne_empty (root_ne_empty_of_resolve (resolved true)) (Path.names path)
    exact Tree.resolve_of_long (ofText_ne_nil nonempty)
      (zero_not_mem_hostPath (resolved true) isFileName) refused

namespace Starts

variable {node : Node}

/-- A path is followed to what stands below the root, unless a link there is followed. -/
theorem resolve_of_at? (starts : view.Starts children trail fewer)
    (isFileName : ∀ name ∈ Path.names path, IsFileName (Bytes.ofText name))
    (takes : view.Takes path)
    (here : (Node.directory children).at? ((Path.names path).map Bytes.ofText) = some node)
    (follows : Bool) (unfollowed : follows = true → node.kind ≠ .symlink) :
    ∃ last, view.tree.resolve follows view.working (Bytes.ofText (view.hostPath path)) = .ok last ∧
      view.tree.nodeAt last = node ∧
        last.place = ((Path.names path).map Bytes.ofText).reverse ++ trail.place := by
  rw [← starts.directory] at here
  rw [starts.resolve isFileName takes]
  exact Tree.locate_of_at? (isNodeName_of_isFileName isFileName) here unfollowed

theorem stat_of_at? (starts : view.Starts children trail fewer)
    (isFileName : ∀ name ∈ Path.names path, IsFileName (Bytes.ofText name))
    (takes : view.Takes path)
    (here : (Node.directory children).at? ((Path.names path).map Bytes.ofText) = some node) :
    view.stat path = .ok ⟨Path.baseName path, node.kind⟩ := by
  rcases starts.resolve_of_at? isFileName takes here false (by simp) with
    ⟨last, resolved, atLast, _⟩
  simp only [View.stat, Tree.stat, resolved, atLast]

theorem list_of_at? (starts : view.Starts children trail fewer)
    (isFileName : ∀ name ∈ Path.names path, IsFileName (Bytes.ofText name))
    (takes : view.Takes path)
    (here : (Node.directory children).at? ((Path.names path).map Bytes.ofText) =
      some (.directory inside)) :
    view.list path = .ok ((Node.namedEntries inside).mergeSort fun left right =>
      left.name ≤ right.name) := by
  rcases starts.resolve_of_at? isFileName takes here true (by simp [Node.kind]) with
    ⟨last, resolved, atLast, _⟩
  simp only [View.list, Tree.list, resolved, atLast]
  rfl

theorem read_of_at? (starts : view.Starts children trail fewer)
    (isFileName : ∀ name ∈ Path.names path, IsFileName (Bytes.ofText name))
    (takes : view.Takes path) {text : String}
    (here : (Node.directory children).at? ((Path.names path).map Bytes.ofText) =
      some (.file (Bytes.ofText text))) : view.read path = .ok text := by
  rcases starts.resolve_of_at? isFileName takes here true (by simp [Node.kind]) with
    ⟨last, resolved, atLast, _⟩
  simp only [View.read, Tree.read, resolved, atLast, Bytes.toText?_ofText]

/-- Nothing is found under a name that a directory does not hold. -/
theorem stat_of_missing (starts : view.Starts children trail fewer)
    (isFileName : ∀ name ∈ Path.names path, IsFileName (Bytes.ofText name))
    (takes : view.Takes path) {before : List String} {last : String}
    (split : Path.names path = before ++ [last])
    (here : (Node.directory children).at? (before.map Bytes.ofText) = some (.directory inside))
    (missing : inside.lookup (Bytes.ofText last) = none) :
    view.stat path = .error LookupFault.notFound.error := by
  rw [split] at isFileName
  rcases List.forall_mem_append.1 isFileName with ⟨isFileNameBefore, isFileNameLast⟩
  have isNodeName := isNodeName_of_isFileName isFileNameBefore
  have isNodeNameLast := (isFileNameLast last (List.mem_singleton_self last)).isNodeName
  rw [← starts.directory] at here
  have resolved := starts.resolve (split ▸ isFileName) takes false
  rw [split, List.map_append, List.map_singleton,
    Tree.locate_of_at?_missing isNodeName here isNodeNameLast missing] at resolved
  simp only [View.stat, Tree.stat, resolved]

/-- The host refuses a path for its length only. -/
theorem stat_of_not_takes (starts : view.Starts children trail fewer)
    (isFileName : ∀ name ∈ Path.names path, IsFileName (Bytes.ofText name))
    (refused : ¬view.Takes path) : view.stat path = .error LookupFault.nameTooLong.error := by
  simp only [View.stat, Tree.stat, starts.refuse isFileName refused]

theorem list_of_not_takes (starts : view.Starts children trail fewer)
    (isFileName : ∀ name ∈ Path.names path, IsFileName (Bytes.ofText name))
    (refused : ¬view.Takes path) : view.list path = .error LookupFault.nameTooLong.error := by
  simp only [View.list, Tree.list, starts.refuse isFileName refused]

end Starts

end Answers

end View

end Host

end OwnerCoverage
