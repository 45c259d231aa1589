/-!
# Blank characters

The characters that separate the fields of a rules line are those with the `White_Space`
property: the ASCII blanks, the next-line and no-break spaces, and the space and separator
characters of the upper planes of the basic range.
-/

namespace OwnerCoverage

namespace Text

/-- The code points with the `White_Space` property, as inclusive ranges in increasing order. -/
def blankRanges : List (Nat × Nat) :=
  [(0x0009, 0x000D), (0x0020, 0x0020), (0x0085, 0x0085), (0x00A0, 0x00A0), (0x1680, 0x1680),
    (0x2000, 0x200A), (0x2028, 0x2029), (0x202F, 0x202F), (0x205F, 0x205F), (0x3000, 0x3000)]

/-- Whether a character is white space. -/
def isBlank (char : Char) : Bool :=
  blankRanges.any fun (first, last) => first ≤ char.toNat && char.toNat ≤ last

@[simp]
theorem isBlank_backslash : isBlank '\\' = false := by decide

@[simp]
theorem isBlank_hash : isBlank '#' = false := by decide

end Text

end OwnerCoverage
