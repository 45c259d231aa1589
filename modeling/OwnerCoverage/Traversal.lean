import OwnerCoverage.FileSystem.Basic

/-!
# Traversal

A tree of files is traversed in pre-order, with the children of a directory in the order in which
the file system lists them. A visitor sees every node before what lies below it and says how to go
on. It may keep a state of its own. The nodes that are still to come stand on a stack, so that deep
trees are no harder than flat ones.

A file system may list directories without end, so a traversal has a limit of nodes that it takes
off the stack. A traversal that ends within a limit goes the same way under every greater one.
-/

namespace OwnerCoverage

/-- What a visitor decides about a node. -/
inductive Verdict where
  /-- Go on with what lies below the node. -/
  | descend
  /-- Leave out what lies below the node, or, for a node without a stat, its error. -/
  | prune
  /-- End the traversal with an error. -/
  | stop
deriving DecidableEq, Repr

/-- What a visitor is told about a node. -/
structure Visit where
  path : String
  /-- The kind of the node, unless its stat failed. -/
  kind : Option NodeKind
  /-- Why the stat of the node failed, or, for a directory, its listing. -/
  error : Option IoError
deriving DecidableEq, Repr

def Visit.isDirectory (visit : Visit) : Bool := visit.kind == some .directory

/-- Why a traversal ended early: the stat of a node or a listing failed, the visitor stopped, or
there were more nodes than the limit. -/
inductive TraversalError where
  | stat (path : String) (error : IoError)
  | list (path : String) (error : IoError)
  | stopped (path : String)
  | endless (limit : Nat)
deriving DecidableEq, Repr

namespace TraversalError

def message : TraversalError → String
  | .stat path error => "failed to stat " ++ path ++ ": " ++ error.message
  | .list path error => "failed to list " ++ path ++ ": " ++ error.message
  | .stopped path => "walk aborted at " ++ path
  | .endless limit => "walk did not end within " ++ toString limit ++ " nodes"

/-- The error of the file system behind an error of the traversal. -/
def cause? : TraversalError → Option IoError
  | .stat _ error => some error
  | .list _ error => some error
  | .stopped _ => none
  | .endless _ => none

end TraversalError

/-- What a visitor does at a node: it gives a verdict and its new state. -/
abbrev Visitor (σ : Type) := Visit → σ → Verdict × σ

/-- A node that is still to be visited. -/
structure PendingNode where
  path : String
  /-- The number of directories between the start and the node. -/
  depth : Nat
deriving DecidableEq, Repr

/-- A walk over a file system: where it starts, and which directories it passes over. -/
structure Traversal where
  fileSystem : FileSystem
  /-- The path of the first node. -/
  start : String := Path.root
  /-- The names of directories below the first node that are passed over. -/
  skippedNames : List String := []

namespace Traversal

variable {σ : Type}

/-- The children of a directory as nodes to be visited. -/
def pendingChildren (traversal : Traversal) (node : PendingNode) (children : List Entry) :
    List PendingNode :=
  children.map fun child => ⟨traversal.fileSystem.join node.path child.name, node.depth + 1⟩

/-- Whether a directory is passed over. The first node never is, whatever its name. -/
def skips (traversal : Traversal) (node : PendingNode) (entry : Entry) : Bool :=
  decide (0 < node.depth) && traversal.skippedNames.contains entry.name

/-- Visits a node that is no directory. Gives the nodes that come before the others, of which there
are none, or the error that ends the traversal. -/
def visitLeaf (visitor : Visitor σ) (node : PendingNode) (entry : Entry) (state : σ) :
    Except TraversalError (List PendingNode) × σ :=
  match visitor ⟨node.path, some entry.kind, none⟩ state with
  | (.stop, state) => (.error (.stopped node.path), state)
  | (_, state) => (.ok [], state)

/-- Visits a node whose stat failed. The error is fatal unless the visitor prunes a node below the
first. -/
def visitUnknown (visitor : Visitor σ) (node : PendingNode) (error : IoError) (state : σ) :
    Except TraversalError (List PendingNode) × σ :=
  match visitor ⟨node.path, none, some error⟩ state with
  | (.prune, state) =>
      if 0 < node.depth then (.ok [], state) else (.error (.stat node.path error), state)
  | (_, state) => (.error (.stat node.path error), state)

/-- Visits a directory, after its listing has been tried. -/
def visitDirectory (traversal : Traversal) (visitor : Visitor σ) (node : PendingNode) (state : σ) :
    Except TraversalError (List PendingNode) × σ :=
  match traversal.fileSystem.list node.path with
  | .error error =>
      match visitor ⟨node.path, some .directory, some error⟩ state with
      | (.stop, state) => (.error (.list node.path error), state)
      | (_, state) => (.ok [], state)
  | .ok children =>
      match visitor ⟨node.path, some .directory, none⟩ state with
      | (.stop, state) => (.error (.stopped node.path), state)
      | (.prune, state) => (.ok [], state)
      | (.descend, state) => (.ok (traversal.pendingChildren node children), state)

/-- Handles one node: gives the nodes that come right after it. -/
def visitNode (traversal : Traversal) (visitor : Visitor σ) (node : PendingNode) (state : σ) :
    Except TraversalError (List PendingNode) × σ :=
  match traversal.fileSystem.stat node.path with
  | .error error => visitUnknown visitor node error state
  | .ok entry =>
      if !entry.isDirectory then visitLeaf visitor node entry state
      else if traversal.skips node entry then (.ok [], state)
      else traversal.visitDirectory visitor node state

/-- Handles the nodes of a stack, with a limit on their number. -/
def visitStack (traversal : Traversal) (visitor : Visitor σ) (limit : Nat) :
    Nat → List PendingNode → σ → Except TraversalError Unit × σ
  | _, [], state => (.ok (), state)
  | 0, _ :: _, state => (.error (.endless limit), state)
  | nodes + 1, node :: stack, state =>
      match traversal.visitNode visitor node state with
      | (.error error, state) => (.error error, state)
      | (.ok children, state) => traversal.visitStack visitor limit nodes (children ++ stack) state

/-- Visits the first node and what lies below it, as far as the visitor goes on: each node before
its children, and these in the order of their listing, each with all that lies below it. Gives the
last state of the visitor. A traversal that reaches more nodes than the limit is taken to be
endless. -/
def runWithin (traversal : Traversal) (limit : Nat) (visitor : Visitor σ) (state : σ) :
    Except TraversalError Unit × σ :=
  traversal.visitStack visitor limit limit [⟨traversal.start, 0⟩] state

/-- A traversal within the limit of its file system. -/
def run (traversal : Traversal) (visitor : Visitor σ) (state : σ) :
    Except TraversalError Unit × σ :=
  traversal.runWithin traversal.fileSystem.visitLimit visitor state

end Traversal

end OwnerCoverage
