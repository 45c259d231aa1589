import Mathlib.Data.List.Induction
import OwnerCoverage.Path
import OwnerCoverage.Proofs.Text.Pieces

/-!
# Names and paths

A path that is put together from names is read back as the same names (`names_ofNames`), and joining
a name to it adds the name at its end (`join_ofNames`). Paths of different names are different
texts. Whatever the spelling of a base, joining adds the names of what is joined (`names_join`).
-/

namespace OwnerCoverage

namespace Path

/-- Whether a text is a name that a directory can list. -/
structure IsListed (name : String) : Prop where
  isName : Path.isName name.toList = true
  noSeparator : '/' ∉ name.toList

variable {names : List String} {name : String}

@[simp]
theorem names_root : Path.names root = [] := by decide

@[simp]
theorem names_empty : Path.names "" = [] := by decide

theorem toList_ne_nil (listed : IsListed name) : name.toList ≠ [] := by
  intro empty
  have isName := listed.isName
  rw [empty] at isName
  exact absurd isName (by decide)

theorem ne_empty (listed : IsListed name) : name ≠ "" := by
  rintro rfl
  exact toList_ne_nil listed rfl

theorem ofNames_of_ne_nil (nonempty : names ≠ []) : ofNames names = "/".intercalate names := by
  cases names with
  | nil => exact absurd rfl nonempty
  | cons first rest => rfl

theorem names_ofNames (listed : ∀ name ∈ names, IsListed name) :
    Path.names (ofNames names) = names := by
  cases names with
  | nil => exact names_root
  | cons first rest =>
      have pieces : (ofNames (first :: rest)).toList.splitOnP (· == '/') =
          (first :: rest).map String.toList := by
        rw [ofNames, String.toList_intercalate]
        · refine List.splitOn_intercalate '/' ?_ (by simp)
          intro piece mem
          rcases List.mem_map.1 mem with ⟨name, name_mem, rfl⟩
          exact (listed name name_mem).noSeparator
        · exact List.cons_ne_nil first rest
      have allNames : ((first :: rest).map String.toList).filter isName =
          (first :: rest).map String.toList := by
        rw [List.filter_eq_self]
        intro piece mem
        rcases List.mem_map.1 mem with ⟨name, name_mem, rfl⟩
        exact (listed name name_mem).isName
      rw [Path.names, pieces, allNames, List.map_map]
      simp [Function.comp_def]

theorem ofNames_injective {others : List String} (listed : ∀ name ∈ names, IsListed name)
    (listedOthers : ∀ name ∈ others, IsListed name) (same : ofNames names = ofNames others) :
    names = others := by
  rw [← names_ofNames listed, same, names_ofNames listedOthers]

theorem isListed_of_mem_names {path : String} (mem : name ∈ Path.names path) : IsListed name := by
  rcases List.mem_map.1 mem with ⟨piece, piece_mem, rfl⟩
  rw [List.mem_filter] at piece_mem
  refine ⟨by simpa using piece_mem.2, ?_⟩
  intro separator_mem
  rw [String.toList_ofList] at separator_mem
  exact absurd (Text.mem_of_mem_piece piece_mem.1 separator_mem).2 (by decide)

theorem names_canonical (path : String) : Path.names (canonical path) = Path.names path := by
  apply names_ofNames
  intro name mem
  exact isListed_of_mem_names mem

theorem canonical_eq_iff {path other : String} :
    canonical path = canonical other ↔ Path.names path = Path.names other := by
  constructor
  · intro same
    rw [← names_canonical path, same, names_canonical]
  · intro same
    rw [canonical, same, canonical]

/-- Whether a path is written with nothing but the names on it, none of which leads upwards. -/
structure IsPlain (path : String) : Prop where
  canonical : Path.canonical path = path
  noUpward : ".." ∉ Path.names path

instance (path : String) : Decidable (IsPlain path) :=
  decidable_of_iff (Path.canonical path = path ∧ ".." ∉ Path.names path)
    ⟨fun both => ⟨both.1, both.2⟩, fun plain => ⟨plain.canonical, plain.noUpward⟩⟩

/-- A path of at least one name ends with a character of its last name. -/
theorem exists_last_of_names (nonempty : names ≠ []) (listed : ∀ name ∈ names, IsListed name) :
    ∃ before last, ('/' == last) = false ∧ (ofNames names).toList = before ++ [last] := by
  induction names with
  | nil => exact absurd rfl nonempty
  | cons first rest ih =>
      rcases List.forall_mem_cons.1 listed with ⟨listedFirst, listedRest⟩
      cases rest with
      | nil =>
          rcases List.eq_nil_or_concat' first.toList with empty | ⟨before, last, equal⟩
          · exact absurd empty (toList_ne_nil listedFirst)
          · refine ⟨before, last, ?_, by rw [← equal]; rfl⟩
            rw [beq_eq_false_iff_ne]
            rintro rfl
            exact listedFirst.noSeparator (by simp [equal])
      | cons second rest =>
          rcases ih (List.cons_ne_nil second rest) listedRest with ⟨before, last, other, equal⟩
          refine ⟨first.toList ++ '/' :: before, last, other, ?_⟩
          have split : ofNames (first :: second :: rest) =
              first ++ "/" ++ ofNames (second :: rest) := String.intercalate_cons_cons
          rw [split, String.toList_append, String.toList_append, equal]
          simp

/-- Joining a name to the path of some names adds it at their end. -/
theorem join_ofNames (listed : ∀ name ∈ names, IsListed name) (name : String) :
    join (ofNames names) name = ofNames (names ++ [name]) := by
  cases names with
  | nil => simp [join, ofNames, root]
  | cons first rest =>
      have notRoot : ¬(ofNames (first :: rest) = "" ∨ ofNames (first :: rest) = root) := by
        have read := names_ofNames listed
        rintro (empty | isRoot)
        · rw [empty, names_empty] at read
          exact absurd read (by simp)
        · rw [isRoot, names_root] at read
          exact absurd read (by simp)
      rcases exists_last_of_names (List.cons_ne_nil first rest) listed with
        ⟨before, last, other, equal⟩
      have trimmed : String.ofList (Text.dropEndWhile (· == '/') (ofNames (first :: rest)).toList) =
          ofNames (first :: rest) := by
        rw [equal, Text.dropEndWhile_concat (by rwa [BEq.comm] at other), ← equal,
          String.ofList_toList]
      rw [join, if_neg notRoot, trimmed]
      exact (String.intercalate_append_of_ne_nil (List.cons_ne_nil first rest)
        (List.cons_ne_nil name [])).symm

theorem filter_isName_append_slash (text rest : List Char) :
    ((text ++ '/' :: rest).splitOnP (· == '/')).filter isName =
      (text.splitOnP (· == '/')).filter isName ++ (rest.splitOnP (· == '/')).filter isName := by
  rw [List.splitOnP_append_cons text rest (by simp), List.filter_append]

theorem filter_isName_dropEndWhile (text : List Char) :
    ((Text.dropEndWhile (· == '/') text).splitOnP (· == '/')).filter isName =
      (text.splitOnP (· == '/')).filter isName := by
  induction text using List.reverseRecOn with
  | nil => rfl
  | append_singleton text last ih =>
      by_cases slash : last = '/'
      · subst slash
        have dropped : Text.dropEndWhile (· == '/') (text ++ ['/']) =
            Text.dropEndWhile (· == '/') text := by
          simp [Text.dropEndWhile]
        have noName : (([] : List Char).splitOnP (· == '/')).filter isName = [] := by decide
        rw [dropped, ih, filter_isName_append_slash, noName, List.append_nil]
      · rw [Text.dropEndWhile_concat (by simpa using slash)]

/-- Joining a name to a base, in any spelling, adds what the name leads to below the base. -/
theorem names_join (base name : String) :
    Path.names (join base name) = Path.names base ++ Path.names name := by
  rw [join]
  split
  · rename_i atRoot
    rcases atRoot with rfl | rfl
    · rw [names_empty, List.nil_append]
    · rw [names_root, List.nil_append]
  · simp only [Path.names, String.toList_append, String.toList_ofList]
    have joined : Text.dropEndWhile (· == '/') base.toList ++ "/".toList ++ name.toList =
        Text.dropEndWhile (· == '/') base.toList ++ '/' :: name.toList := by simp
    rw [joined, filter_isName_append_slash, filter_isName_dropEndWhile, List.map_append]

section Joining

variable {base : String}

/-- A name that can be listed is a path of one name. -/
theorem names_of_isListed (listed : IsListed name) : Path.names name = [name] := by
  have single : ofNames [name] = name :=
    (ofNames_of_ne_nil (List.cons_ne_nil name [])).trans String.intercalate_singleton
  have read := names_ofNames (List.forall_mem_singleton.2 listed)
  rwa [single] at read

theorem canonical_join (canonical : Path.canonical base = base) (listed : IsListed name) :
    Path.canonical (join base name) = join base name := by
  have listedBase : ∀ name ∈ Path.names base, IsListed name := fun _ => isListed_of_mem_names
  have joined := join_ofNames listedBase name
  have base_eq : ofNames (Path.names base) = base := canonical
  rw [Path.canonical, names_join, names_of_isListed listed, ← joined, base_eq]

/-- What is joined stands last, however the base is spelled. -/
theorem baseName_join (base : String) (listed : IsListed name) :
    baseName (join base name) = name := by
  rw [baseName, names_join, names_of_isListed listed, List.getLast?_concat, Option.getD_some]

end Joining

end Path

end OwnerCoverage
