import OwnerCoverage.Regex.Reader

/-!
# Reading an expression piece by piece

The reader goes from left to right and keeps what is open, so a text that is put together from
complete pieces is read as the items of one piece after another. `Piece.Reads` says of one piece
what the reader makes of it wherever it stands, and `run_pieces` is the run over a list of pieces:
it either collects the items of all of them or ends at the first faulty one.

A question mark behind a repetition belongs to the repetition, so a piece must not stand before one.
-/

namespace OwnerCoverage

namespace Regex

/-- The fault in a text that is followed by some more characters. -/
def Fault.before (fault : Fault) (length : Nat) : Fault :=
  { fault with remaining := fault.remaining + length }

@[simp]
theorem Fault.before_before (fault : Fault) (first second : Nat) :
    (fault.before first).before second = fault.before (first + second) := by
  simp [Fault.before, Nat.add_assoc]

/-- Adds items to the alternative that is being read, in order. -/
def OpenGroup.addAll (group : OpenGroup) (items : List (Regex CharSet)) : OpenGroup :=
  { group with items := items.reverse ++ group.items }

@[simp]
theorem OpenGroup.addAll_addAll (group : OpenGroup) (first second : List (Regex CharSet)) :
    (group.addAll first).addAll second = group.addAll (first ++ second) := by
  simp [OpenGroup.addAll]

namespace Reader

/-- A run goes on behind what its first step reads. -/
theorem run_of_step {reader next : Reader} {text rest : List Char}
    (stepped : reader.step text = .ok (next, rest)) : reader.run text = next.run rest := by
  cases text with
  | nil =>
      have shorter := length_lt_of_step stepped
      simp at shorter
  | cons char tail =>
      rw [run]
      split <;> simp_all

theorem run_of_step_error {reader : Reader} {char : Char} {tail : List Char} {fault : Fault}
    (stepped : reader.step (char :: tail) = .error fault) :
    reader.run (char :: tail) = .error fault := by
  rw [run]
  split <;> simp_all

end Reader

/-- A part of an expression that is read on its own: its text, the items it is read as, and its
first fault, if it has one, as it lies in the text of the piece. -/
structure Piece where
  text : List Char
  items : List (Regex CharSet)
  fault : Option Fault := none

namespace Piece

/-- Whether a text stands behind a complete repetition without changing it. -/
def Follows (rest : List Char) : Prop := rest.head? ≠ some '?'

theorem follows_cons {head : Char} {tail : List Char} (other : head ≠ '?') :
    Follows (head :: tail) := by
  simpa [Follows] using other

/-- What the reader makes of a piece outside all classes, whatever groups are open. -/
def Reads (piece : Piece) : Prop :=
  ∀ rest, Follows rest → Follows (piece.text ++ rest) ∧ ∀ group groups,
    Reader.run ⟨group, groups, []⟩ (piece.text ++ rest) =
      match piece.fault with
      | none => Reader.run ⟨group.addAll piece.items, groups, []⟩ rest
      | some fault => .error (fault.before rest.length)

def textOf (pieces : List Piece) : List Char := pieces.flatMap text

def itemsOf (pieces : List Piece) : List (Regex CharSet) := pieces.flatMap items

/-- The fault of the first faulty piece, as it lies in the text of all of them. -/
def firstFault : List Piece → Option Fault
  | [] => none
  | piece :: pieces =>
      match piece.fault with
      | none => firstFault pieces
      | some fault => some (fault.before (textOf pieces).length)

theorem run_pieces {pieces : List Piece} (reads : ∀ piece ∈ pieces, piece.Reads) :
    Reads ⟨textOf pieces, itemsOf pieces, firstFault pieces⟩ := by
  induction pieces with
  | nil =>
      intro rest follows
      exact ⟨follows, fun group groups => rfl⟩
  | cons piece pieces ih =>
      rcases List.forall_mem_cons.1 reads with ⟨readsFirst, readsRest⟩
      intro rest follows
      rcases ih readsRest rest follows with ⟨followsRest, runRest⟩
      rcases readsFirst _ followsRest with ⟨followsFirst, runFirst⟩
      simp only [textOf, itemsOf, List.flatMap_cons, List.append_assoc] at followsFirst runFirst ⊢
      refine ⟨followsFirst, ?_⟩
      intro group groups
      rw [runFirst]
      cases faulty : piece.fault with
      | none =>
          simp only [textOf, itemsOf] at runRest
          simp [firstFault, faulty, runRest]
      | some fault => simp [firstFault, faulty, textOf]

end Piece

end Regex

end OwnerCoverage
