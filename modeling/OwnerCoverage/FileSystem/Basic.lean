import OwnerCoverage.Path

/-!
# File systems

What a traversal needs to know of a tree of files: what stands at a path, what stands directly
inside a directory, the text of a file, and how the path of a child is spelled. A file system may
answer as it likes; answers may fail, and need not agree with one another.
-/

namespace OwnerCoverage

/-- What a node of a file system is. A link is a node of its own, wherever it leads. -/
inductive NodeKind where
  | file
  | directory
  | symlink
  | other
deriving DecidableEq, Repr

/-- A node as a stat or a listing reports it. -/
structure Entry where
  /-- The last name of the node's path. -/
  name : String
  kind : NodeKind
deriving DecidableEq, Repr

def Entry.isDirectory (entry : Entry) : Bool := entry.kind == .directory

/-- The errors of a file system that are told apart. -/
inductive IoErrorKind where
  | notFound
  | permissionDenied
  | invalidInput
  | invalidData
  | notADirectory
  | isADirectory
  | nameTooLong
  | linkLoop
  | noSuchDevice
  | other
deriving DecidableEq, Repr

/-- An error of a file system, with the text that is shown for it. -/
structure IoError where
  kind : IoErrorKind
  message : String
deriving DecidableEq, Repr

/-- A file system as a traversal and the search for rules files see it. -/
structure FileSystem where
  /-- What stands at a path. -/
  stat : String → Except IoError Entry
  /-- What stands directly inside a directory, in the order in which a traversal visits it. -/
  list : String → Except IoError (List Entry)
  /-- The text of a file. -/
  read : String → Except IoError String
  /-- The path of a child of a directory. -/
  join : String → String → String := Path.join
  /-- How many nodes a traversal may reach before it is taken to be endless. -/
  visitLimit : Nat

end OwnerCoverage
