import OwnerCoverage.FileSystem.Basic

/-!
# Trees in memory

A tree of directories and text files that is kept as an array of nodes. The root is node `0`, and a
directory lists its children by name, in the order of their names, with the index of each. Nodes are
only ever added, so an index stays valid. Single paths can be made to fail, in every spelling.
-/

namespace OwnerCoverage

/-- What a node of the arena holds. -/
inductive NodeContent where
  | file (text : String)
  /-- The names of the children in increasing order, with the index of each. -/
  | directory (children : List (String × Nat))
deriving DecidableEq, Repr

/-- A node of the arena, with its name in the directory above it. -/
structure TreeNode where
  name : String
  content : NodeContent
deriving DecidableEq, Repr

def TreeNode.kind (node : TreeNode) : NodeKind :=
  match node.content with
  | .file _ => .file
  | .directory _ => .directory

/-- A tree of files in memory: an arena of nodes, of which the first is the root, and the paths at
which errors are injected. -/
structure MemoryTree where
  nodes : Array TreeNode
  /-- The canonical paths whose stat fails. -/
  failingStats : List String
  /-- The canonical paths whose listing fails. -/
  failingLists : List String
deriving DecidableEq, Repr

namespace MemoryTree

/-- The path leads through a file. -/
def notADirectory (path : String) : IoError := ⟨.other, path ++ ": not a directory"⟩

/-- The path names a directory where a file is needed. -/
def isADirectory (path : String) : IoError := ⟨.other, path ++ ": is a directory"⟩

/-- Nothing stands at the path. -/
def notFound (path : String) : IoError := ⟨.notFound, path ++ ": no such file or directory"⟩

/-- The path was made to fail. -/
def denied (path : String) : IoError := ⟨.permissionDenied, path ++ ": permission denied"⟩

def rootIsNoFile : IoError := ⟨.invalidInput, "cannot write to the root"⟩

/-- A tree without files and without failing paths. -/
def empty : MemoryTree := ⟨#[⟨Path.root, .directory []⟩], [], []⟩

/-- The children that the node with some index lists, if it is a directory. -/
def children? (tree : MemoryTree) (index : Nat) : Option (List (String × Nat)) :=
  match tree.nodes[index]? with
  | some ⟨_, .directory children⟩ => some children
  | _ => none

/-- The index of the child of a directory with a given name. -/
def childIndex? (tree : MemoryTree) (index : Nat) (name : String) : Option Nat :=
  (tree.children? index).bind fun children => children.lookup name

/-- Inserts a name before the first greater one. -/
def insertName (name : String) (index : Nat) : List (String × Nat) → List (String × Nat)
  | [] => [(name, index)]
  | (other, otherIndex) :: rest =>
      if name < other then (name, index) :: (other, otherIndex) :: rest
      else (other, otherIndex) :: insertName name index rest

/-- Adds a child to a node that has none of that name, and gives its index. -/
def addChild (tree : MemoryTree) (parent : Nat) (name : String) (content : NodeContent) :
    MemoryTree × Nat :=
  let index := tree.nodes.size
  let link (node : TreeNode) : TreeNode :=
    match node.content with
    | .file _ => node
    | .directory children => { node with content := .directory (insertName name index children) }
  ({ tree with nodes := (tree.nodes.modify parent link).push ⟨name, content⟩ }, index)

/-- The directory with some name below a directory, which is created if nothing has that name. Like
every operation on a tree, it gives its result together with the tree that it leaves behind. -/
def childDirectory (tree : MemoryTree) (parent : Nat) (name : String) :
    Except IoError Nat × MemoryTree :=
  match tree.childIndex? parent name with
  | none =>
      let (extended, index) := tree.addChild parent name (.directory [])
      (.ok index, extended)
  | some index =>
      match tree.children? index with
      | some _ => (.ok index, tree)
      | none => (.error (notADirectory name), tree)

/-- Follows names from a directory, and creates the directories that are missing. -/
def makeDirectories (tree : MemoryTree) (index : Nat) :
    List String → Except IoError Nat × MemoryTree
  | [] => (.ok index, tree)
  | name :: rest =>
      match tree.childDirectory index name with
      | (.error error, changed) => (.error error, changed)
      | (.ok child, changed) => changed.makeDirectories child rest

/-- Creates a directory and all missing directories above it. -/
def createDirectory (tree : MemoryTree) (path : String) : Except IoError Unit × MemoryTree :=
  match tree.makeDirectories 0 (Path.names path) with
  | (.error error, changed) => (.error error, changed)
  | (.ok _, changed) => (.ok (), changed)

def setText (tree : MemoryTree) (index : Nat) (text : String) : MemoryTree :=
  { tree with nodes := tree.nodes.modify index fun node => { node with content := .file text } }

/-- Creates a file with a text in a directory, or replaces the text of the file that is there. -/
def writeChild (tree : MemoryTree) (parent : Nat) (name path text : String) :
    Except IoError Unit × MemoryTree :=
  match tree.childIndex? parent name with
  | none => (.ok (), (tree.addChild parent name (.file text)).1)
  | some index =>
      match tree.children? index with
      | some _ => (.error (isADirectory path), tree)
      | none => (.ok (), tree.setText index text)

/-- Creates a file with a text, or replaces the text of the file that is there, and creates all
missing directories above it. -/
def writeFile (tree : MemoryTree) (path text : String) : Except IoError Unit × MemoryTree :=
  match (Path.names path).getLast? with
  | none => (.error rootIsNoFile, tree)
  | some name =>
      match tree.makeDirectories 0 (Path.names path).dropLast with
      | (.error error, changed) => (.error error, changed)
      | (.ok parent, changed) => changed.writeChild parent name path text

/-- Makes every later stat of a path fail, however the path is spelled. -/
def failStat (tree : MemoryTree) (path : String) : MemoryTree :=
  { tree with failingStats := tree.failingStats.insert (Path.canonical path) }

/-- Makes every later listing of a path fail, however the path is spelled. -/
def failList (tree : MemoryTree) (path : String) : MemoryTree :=
  { tree with failingLists := tree.failingLists.insert (Path.canonical path) }

/-- Follows names from a node through directories. Gives the index of the node to which the last of
them leads. -/
def follow (tree : MemoryTree) (index : Nat) : List String → Option Nat
  | [] => some index
  | name :: rest =>
      match tree.childIndex? index name with
      | none => none
      | some child => tree.follow child rest

/-- The node that a path leads to. -/
def node? (tree : MemoryTree) (path : String) : Option TreeNode :=
  (tree.follow 0 (Path.names path)).bind fun index => tree.nodes[index]?

/-- What stands at a path, unless an error is injected there. -/
def stat (tree : MemoryTree) (path : String) : Except IoError Entry :=
  if tree.failingStats.contains (Path.canonical path) then .error (denied path)
  else
    match tree.node? path with
    | none => .error (notFound path)
    | some node => .ok ⟨Path.baseName path, node.kind⟩

/-- The children of a directory, in the order of their names. -/
def list (tree : MemoryTree) (path : String) : Except IoError (List Entry) :=
  if tree.failingLists.contains (Path.canonical path) then .error (denied path)
  else
    match tree.node? path with
    | none => .error (notFound path)
    | some ⟨_, .file _⟩ => .error (notADirectory path)
    | some ⟨_, .directory children⟩ =>
        .ok (children.filterMap fun (_, index) =>
          tree.nodes[index]?.map fun child => ⟨child.name, child.kind⟩)

/-- The text of the file at a path. -/
def read (tree : MemoryTree) (path : String) : Except IoError String :=
  match tree.node? path with
  | none => .error (notFound path)
  | some ⟨_, .file text⟩ => .ok text
  | some ⟨_, .directory _⟩ => .error (isADirectory path)

/-- The tree as a file system. No traversal reaches a node twice. -/
def fileSystem (tree : MemoryTree) : FileSystem where
  stat := tree.stat
  list := tree.list
  read := tree.read
  visitLimit := tree.nodes.size + 1

end MemoryTree

end OwnerCoverage
