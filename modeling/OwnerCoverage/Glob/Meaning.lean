import Mathlib.Data.List.Destutter
import OwnerCoverage.Glob.Basic

/-!
# The meaning of a pattern

What a pattern says about a path, component by component and without a regular expression. The body
of a pattern is read symbol by symbol and cut at its separators into segments. A segment of two or
more stars stands for any number of components, and every other segment for one component, all of
which it must describe. A pattern that is not anchored may leave out any number of leading
components, and whatever follows the last segment lies below the match.
-/

namespace OwnerCoverage

namespace Glob

/-- Whether a member of a bracket expression stands for a character. -/
def ClassItem.holds : ClassItem → Char → Bool
  | .single member, char => char == member
  | .range first last, char => first ≤ char && char ≤ last

/-- Whether a symbol stands for a character. Only a separator stands for a separator. -/
def Token.holds : Token → Char → Bool
  | .literal member, char => char == member
  | .anyChar, char => char != '/'
  | .charClass negated items, char => char != '/' && (items.any (·.holds char) != negated)
  | _, _ => false

theorem Token.holds_literal (member char : Char) :
    (Token.literal member).holds char = (char == member) := rfl

theorem Token.holds_charClass (negated : Bool) (items : List ClassItem) (char : Char) :
    (Token.charClass negated items).holds char =
      (char != '/' && (items.any (·.holds char) != negated)) := rfl

/-- The symbols of a body, of which every star is one. A backslash makes the next character plain,
and a bracket that opens no bracket expression is plain too. -/
def symbols (body : List Char) : List Token :=
  match body with
  | [] => []
  | ['\\'] => [.literal '\\']
  | '\\' :: char :: rest => .literal char :: symbols rest
  | '*' :: rest => .star :: symbols rest
  | '?' :: rest => .anyChar :: symbols rest
  | '/' :: rest => .separator :: symbols rest
  | '[' :: rest =>
      match _read : readClass? rest with
      | some (token, after) => token :: symbols after
      | none => .literal '[' :: symbols rest
  | char :: rest => .literal char :: symbols rest
termination_by body.length
decreasing_by
  · simp only [List.length_cons]
    omega
  · simp
  · simp
  · simp
  · have := length_le_of_readClass? _read
    simp only [List.length_cons]
    omega
  all_goals simp

/-- The segment that the symbols between two separators make. -/
def Segment.ofSymbols (part : List Token) : Segment :=
  if 2 ≤ part.length ∧ ∀ symbol ∈ part, symbol = .star then .anyDepth else .component part

/-- The segments of a body. Neighbours that stand for any number of components are one. -/
def documentedSegments (body : List Char) : List Segment :=
  let parts := (symbols body).splitOnP (· == .separator)
  ((parts.filter (!·.isEmpty)).map Segment.ofSymbols).destutter fun first second =>
    ¬(first = .anyDepth ∧ second = .anyDepth)

/-- How a body is to be understood. -/
def documented (body : List Char) : Glob where
  anchored :=
    body.head? == some '/' ||
      match documentedSegments body with
      | first :: _ :: _ => first != .anyDepth
      | _ => false
  onlyBelow := (symbols body).getLast? == some .separator
  segments := documentedSegments body

/-- Whether tokens describe the name of a component, token by token. -/
def describesName : List Token → List Char → Bool
  | [], name => name.isEmpty
  | .star :: symbols, name => name.tails.any (describesName symbols)
  | _ :: _, [] => false
  | symbol :: symbols, char :: name => symbol.holds char && describesName symbols name

/-- Whether segments describe the first of some names, so that the other names lie below. A last
segment for any number of names stands for at least one. -/
def describesNames (onlyBelow : Bool) : List Segment → List (List Char) → Bool
  | [], below => !onlyBelow || !below.isEmpty
  | [.anyDepth], [] => false
  | [.anyDepth], _ :: names => names.tails.any (describesNames onlyBelow [])
  | .anyDepth :: segments, names => names.tails.any (describesNames onlyBelow segments)
  | .component _ :: _, [] => false
  | .component symbols :: segments, name :: names =>
      describesName symbols name && describesNames onlyBelow segments names

/-- Whether a glob describes the path with some names. -/
def describes (glob : Glob) (names : List (List Char)) : Bool :=
  glob.segments.isEmpty ||
    if glob.anchored then describesNames glob.onlyBelow glob.segments names
    else names.tails.any (describesNames glob.onlyBelow glob.segments)

end Glob

end OwnerCoverage
