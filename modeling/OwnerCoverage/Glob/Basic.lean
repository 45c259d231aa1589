import OwnerCoverage.Glob.Token

/-!
# Globs

A glob is a pattern cut into segments at its separators. Empty segments say only where the pattern
is anchored: a separator before the first segment, or between two segments of which the first does
not stand for any number of components, ties the pattern to the root of the tree, and a separator
after the last segment restricts it to what lies below a match.
-/

namespace OwnerCoverage

namespace Glob

/-- What stands between two separators of a pattern. -/
inductive Segment where
  /-- Any number of components. -/
  | anyDepth
  /-- One component, described by tokens. -/
  | component (tokens : List Token)
deriving DecidableEq, Repr

/-- Neighbouring segments that stand for any number of components count as one. -/
def Segment.merge : List Segment → List Segment
  | [] => []
  | .anyDepth :: rest =>
      match merge rest with
      | .anyDepth :: merged => .anyDepth :: merged
      | merged => .anyDepth :: merged
  | segment :: rest => segment :: merge rest

/-- The segment that a group of tokens between separators makes. -/
def Segment.ofTokens (group : List Token) : Segment :=
  if group = [.anyDepth] then .anyDepth else .component group

end Glob

/-- A pattern as a sequence of segments, and what the separators around them add. -/
structure Glob where
  /-- The first segment stands for a component of the root. -/
  anchored : Bool
  /-- Only what lies below a match is matched. -/
  onlyBelow : Bool
  segments : List Glob.Segment
deriving DecidableEq, Repr

namespace Glob

/-- The tokens between two separators, each group for itself. -/
def tokenGroups (tokens : List Token) : List (List Token) := tokens.splitOnP (· == .separator)

/-- Whether a pattern that has these segments is anchored without a separator in front. -/
def anchoredInside : List Segment → Bool
  | .component _ :: _ :: _ => true
  | _ => false

/-- The glob of some tokens. A separator in front of all others anchors it, and so does one behind
the first component if anything follows; one at the end leaves out the match itself. -/
def ofTokens (tokens : List Token) : Glob :=
  let groups := tokenGroups tokens
  let segments := Segment.merge ((groups.filter (!·.isEmpty)).map Segment.ofTokens)
  { anchored := (groups.length > 1 && groups.head? == some []) || anchoredInside segments
    onlyBelow := groups.length > 1 && groups.getLast? == some []
    segments := segments }

/-- The glob of the text of a pattern, without the exclamation mark that negates it. -/
def ofPattern (pattern : List Char) : Glob := ofTokens (tokens pattern)

/-- The maximal runs of literal characters among tokens, with empty runs in between. -/
def literalRuns : List Token → List (List Char)
  | [] => [[]]
  | .literal char :: rest => (literalRuns rest).modifyHead (char :: ·)
  | _ :: rest => [] :: literalRuns rest

def Segment.literalRuns : Segment → List (List Char)
  | .anyDepth => []
  | .component tokens => Glob.literalRuns tokens

/-- How many bytes a text has in UTF-8. -/
def byteLength (text : List Char) : Nat :=
  text.foldr (fun char length => char.utf8Size + length) 0

/-- The longer of two texts in bytes, and the first of two equally long ones. -/
def longer (best candidate : List Char) : List Char :=
  if byteLength best < byteLength candidate then candidate else best

/-- The longest run of literal characters, which every path that the glob matches contains. -/
def longestLiteral (glob : Glob) : List Char :=
  (glob.segments.flatMap Segment.literalRuns).foldl longer []

end Glob

end OwnerCoverage
