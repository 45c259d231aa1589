import Mathlib.Data.List.Basic
import Mathlib.Data.List.TakeWhile
import OwnerCoverage.Text.Lines

/-!
# Pieces of a text

What stands in the pieces of a list that is cut at some of its elements, how many pieces there are,
and what is left of a list without the elements at its start or end that satisfy a test.
-/

namespace OwnerCoverage

namespace Text

variable {α : Type} {test : α → Bool} {elements : List α}

/-- A piece holds elements of the list only, and none at which the list is cut. -/
theorem mem_of_mem_piece {piece : List α} {element : α} (piece_mem : piece ∈ elements.splitOnP test)
    (mem : element ∈ piece) : element ∈ elements ∧ test element = false := by
  induction elements generalizing piece with
  | nil =>
      rw [List.splitOnP_nil, List.mem_singleton] at piece_mem
      simp [piece_mem] at mem
  | cons first rest ih =>
      rcases List.exists_cons_of_ne_nil (List.splitOnP_ne_nil test rest) with ⟨head, pieces, split⟩
      rw [split] at ih
      rw [List.splitOnP_cons_eq_if_modifyHead, split] at piece_mem
      cases cut : test first with
      | true =>
          rw [cut, if_pos rfl, List.mem_cons] at piece_mem
          rcases piece_mem with rfl | piece_mem
          · simp at mem
          · exact ⟨List.mem_cons_of_mem first (ih piece_mem mem).1, (ih piece_mem mem).2⟩
      | false =>
          rw [cut, if_neg Bool.false_ne_true, List.modifyHead_cons, List.mem_cons] at piece_mem
          rcases piece_mem with rfl | piece_mem
          · rcases List.mem_cons.1 mem with rfl | mem
            · exact ⟨List.mem_cons_self, cut⟩
            · have inHead := ih List.mem_cons_self mem
              exact ⟨List.mem_cons_of_mem first inHead.1, inHead.2⟩
          · have inRest := ih (List.mem_cons_of_mem head piece_mem) mem
            exact ⟨List.mem_cons_of_mem first inRest.1, inRest.2⟩

/-- There is one piece more than there are cuts. -/
theorem length_splitOnP (test : α → Bool) (elements : List α) :
    (elements.splitOnP test).length = elements.countP test + 1 := by
  induction elements with
  | nil => rfl
  | cons first rest ih =>
      rw [List.splitOnP_cons_eq_if_modifyHead, List.countP_cons]
      split <;> simp [ih]

/-- A run of elements that satisfy a test is cut off before the first one that does not. -/
theorem takeWhile_append_of_stops {run rest : List α}
    (holds : ∀ element ∈ run, test element = true)
    (stops : ∀ element ∈ rest.head?, test element = false) :
    (run ++ rest).takeWhile test = run ∧ (run ++ rest).dropWhile test = rest := by
  rw [List.takeWhile_append_of_pos holds, List.dropWhile_append_of_pos holds]
  cases rest with
  | nil => exact ⟨List.append_nil run, rfl⟩
  | cons next rest =>
      have fails : ¬test next = true := by rw [stops next rfl]; decide
      rw [List.takeWhile_cons_of_neg fails, List.dropWhile_cons_of_neg fails]
      exact ⟨List.append_nil run, rfl⟩

/-- Every list is cut into a run of elements that satisfy a test and what does not start with such
an element. -/
theorem exists_append_of_stops (test : α → Bool) (elements : List α) :
    ∃ run rest, run ++ rest = elements ∧ (∀ element ∈ run, test element = true) ∧
      ∀ element ∈ rest.head?, test element = false := by
  refine ⟨elements.takeWhile test, elements.dropWhile test, List.takeWhile_append_dropWhile, ?_, ?_⟩
  · intro element mem
    exact List.mem_takeWhile_imp mem
  · intro element head
    have fails := List.head?_dropWhile_not test elements
    rw [Option.mem_def.1 head] at fails
    exact fails

/-- A list is cut in one way only into a run of elements that satisfy a test and what does not start
with such an element. -/
theorem append_inj_of_stops {run rest otherRun otherRest : List α}
    (holds : ∀ element ∈ run, test element = true)
    (stops : ∀ element ∈ rest.head?, test element = false)
    (otherHolds : ∀ element ∈ otherRun, test element = true)
    (otherStops : ∀ element ∈ otherRest.head?, test element = false)
    (same : run ++ rest = otherRun ++ otherRest) : run = otherRun ∧ rest = otherRest := by
  rcases takeWhile_append_of_stops holds stops with ⟨taken, left⟩
  rcases takeWhile_append_of_stops otherHolds otherStops with ⟨otherTaken, otherLeft⟩
  rw [same] at taken left
  exact ⟨taken.symm.trans otherTaken, left.symm.trans otherLeft⟩

theorem dropEndWhile_concat {last : α} (stays : test last = false) :
    dropEndWhile test (elements ++ [last]) = elements ++ [last] := by
  simp [dropEndWhile, stays]

theorem dropEndWhile_concat_of_dropped {last : α} (dropped : test last = true) :
    dropEndWhile test (elements ++ [last]) = dropEndWhile test elements := by
  simp [dropEndWhile, dropped]

theorem dropEndWhile_eq_self (stay : ∀ element ∈ elements, test element = false) :
    dropEndWhile test elements = elements := by
  rcases List.eq_nil_or_concat' elements with rfl | ⟨before, last, rfl⟩
  · rfl
  · exact dropEndWhile_concat (stay last (by simp))

theorem mem_of_mem_dropEndWhile {element : α} (mem : element ∈ dropEndWhile test elements) :
    element ∈ elements := by
  rw [dropEndWhile, List.mem_reverse] at mem
  exact List.mem_reverse.1 ((List.dropWhile_suffix test).subset mem)

/-- A carriage return at the end of a line does not matter if it is dropped anyway. -/
theorem dropEndWhile_dropCarriageReturn {test : Char → Bool} (dropped : test '\r' = true)
    (line : List Char) : dropEndWhile test (dropCarriageReturn line) = dropEndWhile test line := by
  unfold dropCarriageReturn
  split
  · rename_i rest reversed
    have ended : line = rest.reverse ++ ['\r'] := by
      rw [← line.reverse_reverse, reversed, List.reverse_cons]
    rw [ended, dropEndWhile_concat_of_dropped dropped]
  · rfl

end Text

end OwnerCoverage
