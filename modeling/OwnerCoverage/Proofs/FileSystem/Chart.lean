import Mathlib.Data.Finset.Card
import OwnerCoverage.FileSystem.Basic
import OwnerCoverage.Proofs.Path
import OwnerCoverage.Proofs.Text.Order

/-!
# Charts

A chart tells what kind of node stands at each place of a tree. A place is the list of the names
that lead to it from the root. A file system follows a chart if its answers, as far as they succeed,
agree with it. What a traversal does then depends on the chart, and not on how the file system comes
to its answers.
-/

namespace OwnerCoverage

/-- What kind of node stands at each place of a tree, if any does. -/
abbrev Chart := List String → Option NodeKind

namespace Chart

/-- Whether what stands below a place stands in a directory, under a name that can be listed. -/
structure Grounded (chart : Chart) : Prop where
  closed : ∀ {names name}, chart (names ++ [name]) ≠ none → chart names = some .directory
  listed : ∀ {names}, chart names ≠ none → ∀ name ∈ names, Path.IsListed name

/-- Whether no more places than a limit hold a node. -/
def Within (chart : Chart) (limit : Nat) : Prop :=
  ∃ places : Finset (List String), (∀ names, chart names ≠ none → names ∈ places) ∧
    places.card ≤ limit

/-- Whether entries tell of all nodes directly below a place, in the order of their names. -/
structure Lists (chart : Chart) (names : List String) (entries : List Entry) : Prop where
  increasing : (entries.map fun entry => Bytes.ofText entry.name).Pairwise (· < ·)
  mem_iff : ∀ entry, entry ∈ entries ↔ chart (names ++ [entry.name]) = some entry.kind

variable {chart : Chart} {names : List String} {entries others : List Entry}

theorem Within.mono {limit greater : Nat} (within : chart.Within limit) (le : limit ≤ greater) :
    chart.Within greater := by
  rcases within with ⟨places, finite, small⟩
  exact ⟨places, finite, small.trans le⟩

/-- Above what stands somewhere there are directories only. -/
theorem Grounded.directory_of_append (grounded : chart.Grounded) {rest : List String}
    (longer : rest ≠ []) (stands : chart (names ++ rest) ≠ none) :
    chart names = some .directory := by
  induction rest using List.reverseRecOn with
  | nil => exact absurd rfl longer
  | append_singleton rest name ih =>
      rw [← List.append_assoc] at stands
      have above := grounded.closed stands
      cases rest with
      | nil => rwa [List.append_nil] at above
      | cons first rest =>
          apply ih (List.cons_ne_nil first rest)
          simp [above]

/-- A chart leaves no choice to a listing. -/
theorem Lists.unique (lists : chart.Lists names entries) (otherLists : chart.Lists names others) :
    entries = others := by
  have nodup {entries : List Entry} (lists : chart.Lists names entries) : entries.Nodup := by
    apply List.Nodup.of_map fun entry => Bytes.ofText entry.name
    apply lists.increasing.imp
    rintro first _ less rfl
    exact List.lt_irrefl first less
  have perm : entries.Perm others := by
    apply (List.perm_ext_iff_of_nodup (nodup lists) (nodup otherLists)).2
    intro entry
    rw [lists.mem_iff, otherLists.mem_iff]
  have sorted := List.pairwise_map.1 lists.increasing
  have otherSorted := List.pairwise_map.1 otherLists.increasing
  refine perm.eq_of_pairwise ?_ sorted otherSorted
  intro first second _ _ less greater
  exact absurd greater (List.lt_asymm less)

end Chart

/-- Whether the answers of a file system agree with a chart, as far as they succeed. -/
structure FileSystem.Follows (fileSystem : FileSystem) (chart : Chart) : Prop where
  join : fileSystem.join = Path.join
  stat : ∀ {names kind entry}, chart names = some kind →
    fileSystem.stat (Path.ofNames names) = .ok entry →
      entry = ⟨names.getLast?.getD Path.root, kind⟩
  list : ∀ {names entries}, chart names = some .directory →
    fileSystem.list (Path.ofNames names) = .ok entries → chart.Lists names entries

end OwnerCoverage
