import OwnerCoverage.FileSystem.Basic
import OwnerCoverage.Text.Bytes

/-!
# Host trees

The tree of a host holds directories, files, symbolic links and other nodes under names that are
any bytes but zero and the slash. A place in the tree is the list of names that lead to it, the
innermost first. A path is followed name by name; links on the way are replaced by their targets,
and whether a link at its end is followed depends on the question. No more than forty links are
followed for one path, and a path or a name beyond a certain length is refused.
-/

namespace OwnerCoverage

namespace Host

/-- The name of a node in its directory. -/
abbrev FileName := Bytes

/-- The names that lead to a node, the innermost first. -/
abbrev Place := List FileName

/-- A node of a host, with all that lies below it. -/
inductive Node where
  /-- The children have different names. -/
  | directory (children : List (FileName × Node))
  | file (contents : Bytes)
  | link (target : Bytes)
  | special

/-- What a node is, without following it if it is a link. -/
def Node.kind : Node → NodeKind
  | .directory _ => .directory
  | .file _ => .file
  | .link _ => .symlink
  | .special => .other

mutual

/-- How many nodes a node and all below it are. -/
def Node.size : Node → Nat
  | .directory children => sizeOfChildren children + 1
  | .file _ => 1
  | .link _ => 1
  | .special => 1

/-- How many nodes some children and all below them are. -/
def sizeOfChildren : List (FileName × Node) → Nat
  | [] => 0
  | (_, node) :: rest => node.size + sizeOfChildren rest

end

/-- Why a path of a host leads nowhere, or not to what is asked for. -/
inductive LookupFault where
  | notFound
  | notADirectory
  | isADirectory
  | linkLoop
  | nameTooLong
  | noSuchDevice
  | zeroByte
  | notUtf8
deriving DecidableEq, Repr

/-- The error that the host reports for a fault. -/
def LookupFault.error : LookupFault → IoError
  | .notFound => ⟨.notFound, "No such file or directory (os error 2)"⟩
  | .notADirectory => ⟨.notADirectory, "Not a directory (os error 20)"⟩
  | .isADirectory => ⟨.isADirectory, "Is a directory (os error 21)"⟩
  | .linkLoop => ⟨.linkLoop, "Too many levels of symbolic links (os error 40)"⟩
  | .nameTooLong => ⟨.nameTooLong, "File name too long (os error 36)"⟩
  | .noSuchDevice => ⟨.noSuchDevice, "No such device or address (os error 6)"⟩
  | .zeroByte => ⟨.invalidInput, "file name contained an unexpected NUL byte"⟩
  | .notUtf8 => ⟨.invalidData, "stream did not contain valid UTF-8"⟩

def slash : UInt8 := 47

/-- The name of a directory in itself. -/
def here : FileName := [46]

/-- The name of the directory above. -/
def above : FileName := [46, 46]

/-- How many bytes a name may have. -/
def longestName : Nat := 255

/-- Whether a node of a directory can have a name: it is not one of the names of directories that
are in each of them, and is short enough. -/
def isNodeName (name : FileName) : Bool :=
  name != here && name != above && decide (name.length ≤ longestName)

/-- How many bytes a path may have. -/
def longestPath : Nat := 4095

/-- How many links are followed for one path. -/
def linkLimit : Nat := 40

/-- Whether a path starts at the root of the host. -/
def isAbsolute (path : Bytes) : Bool := path.head? == some slash

/-- The names of a path. A slash at its end asks for a directory, as the name `.` there would. -/
def pathNames (path : Bytes) : List FileName :=
  (path.splitOnP (· == slash)).filter (!·.isEmpty) ++
    if path.getLast? == some slash then [here] else []

/-- A way from the root to a place: the nodes on it with their names, the innermost first. The root
itself does not stand on it. -/
abbrev Trail := List (FileName × Node)

/-- The place at the end of a trail. -/
def Trail.place (trail : Trail) : Place := trail.map (·.1)

/-- The children of a directory, among which one name is given to a node. -/
def putChild (name : FileName) (node : Node) : List (FileName × Node) → List (FileName × Node)
  | [] => [(name, node)]
  | (other, old) :: rest =>
      if other = name then (name, node) :: rest else (other, old) :: putChild name node rest

/-- A tree: the children of its root, which is a directory. -/
structure Tree where
  children : List (FileName × Node)

namespace Tree

def empty : Tree := ⟨[]⟩

def size (tree : Tree) : Nat := sizeOfChildren tree.children

/-- The node at the end of a trail. -/
def nodeAt (tree : Tree) : Trail → Node
  | [] => .directory tree.children
  | (_, node) :: _ => node

/-- The children of the directory at the end of a trail. -/
def childrenAt (tree : Tree) (trail : Trail) : List (FileName × Node) :=
  match tree.nodeAt trail with
  | .directory children => children
  | _ => []

/-- The trail to a place, through real directories only. -/
def trail? (tree : Tree) : Place → Option Trail
  | [] => some []
  | name :: outer =>
      match tree.trail? outer with
      | none => none
      | some trail =>
          ((tree.childrenAt trail).lookup name).map fun node => (name, node) :: trail

/-- The trail to a place leads to that place. -/
theorem place_of_trail? {tree : Tree} {place : Place} {trail : Trail}
    (found : tree.trail? place = some trail) : trail.place = place := by
  induction place generalizing trail with
  | nil =>
      simp only [trail?, Option.some.injEq] at found
      subst found
      rfl
  | cons name outer ih =>
      simp only [trail?] at found
      split at found
      · simp at found
      · rename_i outerTrail foundOuter
        rcases Option.map_eq_some_iff.1 found with ⟨node, _, rfl⟩
        have outerPlace := ih foundOuter
        simp only [Trail.place] at outerPlace
        simp [Trail.place, outerPlace]

/-- The node at a place. -/
def node? (tree : Tree) (place : Place) : Option Node := (tree.trail? place).map tree.nodeAt

/-- The tree in which the directory at the end of a trail has other children. -/
def withChildren (tree : Tree) (children : List (FileName × Node)) : Trail → Tree
  | [] => ⟨children⟩
  | (name, _) :: outer =>
      tree.withChildren (putChild name (.directory children) (tree.childrenAt outer)) outer

/-- Puts a node into the directory at the end of a trail, instead of what has its name. -/
def put (tree : Tree) (trail : Trail) (name : FileName) (node : Node) : Tree :=
  tree.withChildren (putChild name node (tree.childrenAt trail)) trail

/-- Where following names stops: at their end, or at a link that is to be followed, with the names
that stand behind it. -/
inductive Stop where
  | atEnd (trail : Trail)
  | atLink (trail : Trail) (target : Bytes) (rest : List FileName)

/-- Follows names from the end of a trail up to the first link that is to be followed. -/
def walk (tree : Tree) (followsLast : Bool) (trail : Trail) :
    List FileName → Except LookupFault Stop
  | [] => .ok (.atEnd trail)
  | name :: rest =>
      match tree.nodeAt trail with
      | .directory children =>
          if name = here then tree.walk followsLast trail rest
          else if name = above then tree.walk followsLast trail.tail rest
          else if longestName < name.length then .error .nameTooLong
          else
            match children.lookup name with
            | none => .error .notFound
            | some (.link target) =>
                if rest.isEmpty && !followsLast then .ok (.atEnd ((name, .link target) :: trail))
                else .ok (.atLink trail target rest)
            | some node => tree.walk followsLast ((name, node) :: trail) rest
      | _ => .error .notADirectory

/-- Follows names from the end of a trail, through at most so many links. The names of a link's
target take the place of its own name; a target that begins with a slash is followed from the root.
A link under the last name is followed only if asked. -/
def locate (tree : Tree) (followsLast : Bool) (links : Nat) (trail : Trail)
    (names : List FileName) : Except LookupFault Trail :=
  match tree.walk followsLast trail names with
  | .error fault => .error fault
  | .ok (.atEnd last) => .ok last
  | .ok (.atLink before target rest) =>
      match links with
      | 0 => .error .linkLoop
      | fewer + 1 =>
          tree.locate followsLast fewer (if isAbsolute target then [] else before)
            (pathNames target ++ rest)

/-- The way to the place that a path names for somebody at a working place. -/
def resolve (tree : Tree) (followsLast : Bool) (working : Place) (path : Bytes) :
    Except LookupFault Trail :=
  if path.isEmpty then .error .notFound
  else if path.contains 0 then .error .zeroByte
  else if longestPath < path.length then .error .nameTooLong
  else
    match tree.trail? (if isAbsolute path then [] else working) with
    | none => .error .notFound
    | some trail => tree.locate followsLast linkLimit trail (pathNames path)

/-- The node that a path names, without following a link at its end. -/
def stat (tree : Tree) (working : Place) (path : Bytes) : Except LookupFault Node :=
  match tree.resolve false working path with
  | .error fault => .error fault
  | .ok trail => .ok (tree.nodeAt trail)

/-- The names and nodes inside the directory that a path leads to. -/
def list (tree : Tree) (working : Place) (path : Bytes) :
    Except LookupFault (List (FileName × Node)) :=
  match tree.resolve true working path with
  | .error fault => .error fault
  | .ok trail =>
      match tree.nodeAt trail with
      | .directory children => .ok children
      | _ => .error .notADirectory

/-- The text of the file that a path leads to. -/
def read (tree : Tree) (working : Place) (path : Bytes) : Except LookupFault String :=
  match tree.resolve true working path with
  | .error fault => .error fault
  | .ok trail =>
      match tree.nodeAt trail with
      | .file contents =>
          match contents.toText? with
          | none => .error .notUtf8
          | some text => .ok text
      | .directory _ => .error .isADirectory
      | .special => .error .noSuchDevice
      | .link _ => .error .linkLoop

/-- Follows the names of directories from a place, through links, and creates those that are
missing. Gives the place that the names lead to, unless something else than a directory is in the
way, and the tree that is left behind. -/
def makeDirectories (tree : Tree) (place : Place) : List FileName → Option Place × Tree
  | [] => (some place, tree)
  | name :: rest =>
      match tree.trail? place with
      | none => (none, tree)
      | some trail =>
          match tree.locate true linkLimit trail [name], (tree.childrenAt trail).lookup name with
          | .ok inner, _ =>
              match tree.nodeAt inner with
              | .directory _ => tree.makeDirectories inner.place rest
              | _ => (none, tree)
          | .error .notFound, none =>
              (tree.put trail name (.directory [])).makeDirectories (name :: place) rest
          | .error _, _ => (none, tree)

/-- The directory where a file is written, and the name that it has there. Links are followed, also
those that lead to nothing yet. -/
def placeToWrite? (tree : Tree) (links : Nat) (trail : Trail) (names : List FileName) :
    Option (Trail × FileName) :=
  match names.getLast?, tree.locate true links trail names.dropLast with
  | some name, .ok parent =>
      match (tree.childrenAt parent).lookup name, links with
      | some (.link _), 0 => none
      | some (.link target), fewer + 1 =>
          tree.placeToWrite? fewer (if isAbsolute target then [] else parent) (pathNames target)
      | _, _ => some (parent, name)
  | _, _ => none

/-- Writes a file. Only a file can stand where it is written. -/
def writeFile (tree : Tree) (trail : Trail) (names : List FileName) (contents : Bytes) : Tree :=
  match tree.placeToWrite? linkLimit trail names with
  | none => tree
  | some (parent, name) =>
      match isNodeName name, (tree.childrenAt parent).lookup name with
      | true, none => tree.put parent name (.file contents)
      | true, some (.file _) => tree.put parent name (.file contents)
      | _, _ => tree

/-- Adds a node to the directory at the end of a trail. A file is written through links; any other
node needs a name that nothing has. -/
def addNode (tree : Tree) (trail : Trail) (name : FileName) (node : Node) : Tree :=
  match node, (tree.childrenAt trail).lookup name with
  | .file contents, _ => tree.writeFile trail [name] contents
  | node, none => tree.put trail name node
  | _, some _ => tree

/-- Adds a node at a path below a place, and the directories that lead to it. What cannot be added
is left out. Of a directory only the path counts. -/
def add (tree : Tree) (place : Place) (path : Bytes) (node : Node) : Tree :=
  match node, (pathNames path).getLast? with
  | .directory _, _ => (tree.makeDirectories place (pathNames path)).2
  | _, none => tree
  | node, some name =>
      if isNodeName name then
        let (parent, tree) := tree.makeDirectories place (pathNames path).dropLast
        match parent.bind tree.trail? with
        | none => tree
        | some trail => tree.addNode trail name node
      else tree

end Tree

end Host

end OwnerCoverage
