import OwnerCoverage.Regex.Basic

/-!
# Matching regular expressions

A match of an expression in a text leads from one position of the text to another. The matcher
follows all positions at once: a set of positions is a natural number whose bit `i` tells whether
position `i` is in the set, and each expression turns the positions where a match may start into
those where one may end. So the work is bounded by the size of the expression and the length of the
text, whatever the number of ways to match.
-/

namespace OwnerCoverage

namespace Regex

/-- The characters that occur in a text, each with the set of positions before it. A text has far
fewer different characters than positions, so the positions of any set of characters are put
together from few parts. -/
abbrev Occurrences := List (Char × Nat)

namespace Occurrences

/-- Notes that a character stands at a position. -/
def note (char : Char) (position : Nat) : Occurrences → Occurrences
  | [] => [(char, 1 <<< position)]
  | (other, positions) :: rest =>
      if other = char then (other, positions ||| 1 <<< position) :: rest
      else (other, positions) :: note char position rest

/-- The characters of a text whose first position has a given number. -/
def ofTextFrom (position : Nat) : List Char → Occurrences
  | [] => []
  | char :: rest => note char position (ofTextFrom (position + 1) rest)

/-- Where each character of a text stands in it. -/
def ofText (text : List Char) : Occurrences := ofTextFrom 0 text

/-- The positions before the characters that satisfy a test. -/
def positionsOf (test : Char → Bool) : Occurrences → Nat
  | [] => 0
  | (char, positions) :: rest =>
      if test char then positions ||| positionsOf test rest else positionsOf test rest

end Occurrences

/-- Adds to a set of positions those that a step reaches, up to a number of times, and stops when
nothing is added. -/
def closure (advance : Nat → Nat) : Nat → Nat → Nat
  | 0, positions => positions
  | rounds + 1, positions =>
      let extended := positions ||| advance positions
      if extended = positions then positions else closure advance rounds extended

/-- The positions where a match that starts at one of some positions may end, in a text of a given
length. Each set of the expression is given by the positions before its characters. -/
def advance (length : Nat) : Regex Nat → Nat → Nat
  | .empty, positions => positions
  | .oneOf set, positions => (positions &&& set) <<< 1
  | .textStart, positions => positions &&& 1
  | .textEnd, positions => positions &&& (1 <<< length)
  | .concat first second, positions => advance length second (advance length first positions)
  | .alternate left right, positions =>
      advance length left positions ||| advance length right positions
  | .star body, positions => closure (advance length body) (length + 1) positions

/-- Whether some part of a text matches an expression. -/
def foundIn (regex : Regex CharSet) (text : List Char) : Bool :=
  let occurrences := Occurrences.ofText text
  let located := regex.map fun set => occurrences.positionsOf set.contains
  located.advance text.length (Nat.pow 2 (text.length + 1) - 1) != 0

end Regex

end OwnerCoverage
