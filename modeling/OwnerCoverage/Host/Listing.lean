import OwnerCoverage.Host.Tree
import OwnerCoverage.Text.Blank
import OwnerCoverage.Text.Lines

/-!
# Listings of a host

A listing describes the tree of a host as a text with one node a line: the kind of the node, its
path from the root of the host, and for a file its contents or for a link its target. Paths and
contents are bytes, and are written as pairs of hexadecimal digits. A line `working` names the
working directory. The directories that lead to a node need not be listed.
-/

namespace OwnerCoverage

namespace Host

/-- The tree of a host, and the place where a run works. -/
structure Listing where
  tree : Tree
  working : Place

namespace Listing

/-- The value of a hexadecimal digit, of which the letters are small. -/
def hexValue? (digit : Char) : Option Nat :=
  if '0' ≤ digit ∧ digit ≤ '9' then some (digit.toNat - '0'.toNat)
  else if 'a' ≤ digit ∧ digit ≤ 'f' then some (digit.toNat - 'a'.toNat + 10)
  else none

/-- The bytes that pairs of hexadecimal digits stand for. -/
def bytesOfHex? : List Char → Option Bytes
  | [] => some []
  | [_] => none
  | high :: low :: rest =>
      match hexValue? high, hexValue? low, bytesOfHex? rest with
      | some high, some low, some bytes => some (UInt8.ofNat (16 * high + low) :: bytes)
      | _, _, _ => none

/-- Adds what a line with some fields describes: the kind of a node, its path, and more bytes. -/
def addFields? (listing : Listing) (kind : String) (path more : Bytes) : Option Listing :=
  match kind, more with
  | "working", [] => some { listing with working := (pathNames path).reverse }
  | "directory", [] => some { listing with tree := listing.tree.add [] path (.directory []) }
  | "special", [] => some { listing with tree := listing.tree.add [] path .special }
  | "link", target => some { listing with tree := listing.tree.add [] path (.link target) }
  | "file", contents => some { listing with tree := listing.tree.add [] path (.file contents) }
  | _, _ => none

/-- Adds what a line describes. A blank line describes nothing. -/
def addLine? (listing : Listing) (line : String) : Option Listing :=
  match (line.toList.splitOnP Text.isBlank).filter (!·.isEmpty) with
  | [] => some listing
  | [kind, path] =>
      (bytesOfHex? path).bind fun path => listing.addFields? (String.ofList kind) path []
  | [kind, path, more] =>
      (bytesOfHex? path).bind fun path =>
        (bytesOfHex? more).bind fun more => listing.addFields? (String.ofList kind) path more
  | _ => none

/-- Adds what lines describe, of which the first has a given number. Gives the number of the first
line that describes nothing. -/
def addLines (listing : Listing) (number : Nat) : List String → Except Nat Listing
  | [] => .ok listing
  | line :: rest =>
      match listing.addLine? line with
      | none => .error number
      | some listing => listing.addLines (number + 1) rest

/-- Reads a listing. Gives the number of the first line that describes nothing, if there is one. -/
def ofText (text : String) : Except Nat Listing := addLines ⟨.empty, []⟩ 1 (Text.lines text)

end Listing

end Host

end OwnerCoverage
