/-!
# Regular expressions

Regular expressions over sets of characters. The kind of set is a parameter: the expressions that
are read from a text hold `CharSet`s, and a matcher replaces each of them by the positions of one
text that hold a character of the set.
-/

namespace OwnerCoverage

/-- An operation that a class applies to what stands before and after it. -/
inductive SetOperation where
  | intersection
  | difference
  | symmetricDifference
deriving DecidableEq, Repr

/-- A set of characters, as a class describes it. -/
inductive CharSet where
  | empty
  | range (first last : Char)
  | union (left right : CharSet)
  | combine (operation : SetOperation) (left right : CharSet)
  | complement (set : CharSet)
deriving DecidableEq, Repr

namespace CharSet

def single (char : Char) : CharSet := .range char char

/-- Every character but the line feed. -/
def notLineFeed : CharSet := .complement (single '\n')

/-- Whether a set holds a character. Ranges compare code points. -/
def contains : CharSet → Char → Bool
  | .empty, _ => false
  | .range first last, char => first ≤ char && char ≤ last
  | .union left right, char => left.contains char || right.contains char
  | .combine .intersection left right, char => left.contains char && right.contains char
  | .combine .difference left right, char => left.contains char && !right.contains char
  | .combine .symmetricDifference left right, char => left.contains char != right.contains char
  | .complement set, char => !set.contains char

@[simp]
theorem contains_single (member char : Char) :
    (single member).contains char = decide (char = member) := by
  rw [Bool.eq_iff_iff]
  simp only [single, contains, Bool.and_eq_true, decide_eq_true_eq]
  constructor
  · rintro ⟨below, above⟩
    exact Char.le_antisymm above below
  · rintro rfl
    exact ⟨Char.le_refl _, Char.le_refl _⟩

end CharSet

/-- A regular expression whose characters come from sets of type `σ`. -/
inductive Regex (σ : Type) where
  /-- The empty text. -/
  | empty
  /-- One character of a set. -/
  | oneOf (set : σ)
  /-- The empty text at the start of the whole text. -/
  | textStart
  /-- The empty text at the end of the whole text. -/
  | textEnd
  | concat (first second : Regex σ)
  | alternate (left right : Regex σ)
  /-- Any number of repetitions. -/
  | star (body : Regex σ)
deriving DecidableEq, Repr

namespace Regex

variable {σ τ : Type}

/-- An expression or nothing. -/
def optional (body : Regex σ) : Regex σ := .alternate body .empty

/-- An expression, once or more often. -/
def plus (body : Regex σ) : Regex σ := .concat body (.star body)

/-- Expressions one behind the other. -/
def sequence : List (Regex σ) → Regex σ
  | [] => .empty
  | [last] => last
  | first :: next :: rest => .concat first (sequence (next :: rest))

/-- One of several expressions. -/
def choice (first : Regex σ) : List (Regex σ) → Regex σ
  | [] => first
  | second :: rest => .alternate first (choice second rest)

/-- The expression in which each set is replaced. -/
def map (f : σ → τ) : Regex σ → Regex τ
  | .empty => .empty
  | .oneOf set => .oneOf (f set)
  | .textStart => .textStart
  | .textEnd => .textEnd
  | .concat first second => .concat (first.map f) (second.map f)
  | .alternate left right => .alternate (left.map f) (right.map f)
  | .star body => .star (body.map f)

end Regex

end OwnerCoverage
