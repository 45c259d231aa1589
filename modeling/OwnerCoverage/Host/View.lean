import OwnerCoverage.Host.Tree

/-!
# A host directory as a file system

A directory of a host is seen as a file system whose root is named by a path of the host. Links are
reported as links, and never followed at the end of a path. Nodes whose name is no text are left
out of listings, since no path could name them.
-/

namespace OwnerCoverage

namespace Host

/-- A directory of a host, as somebody at a working place names it. -/
structure View where
  tree : Tree
  working : Place
  root : String

namespace View

/-- The path of the host for names below the root. -/
def hostPath (view : View) (path : String) : String :=
  (Path.names path).foldl (fun base name =>
    if base.isEmpty || base.endsWith "/" then base ++ name else base ++ "/" ++ name) view.root

/-- What stands at a path below the root. A link is not followed. -/
def stat (view : View) (path : String) : Except IoError Entry :=
  match view.tree.stat view.working (Bytes.ofText (view.hostPath path)) with
  | .error fault => .error fault.error
  | .ok node => .ok ⟨Path.baseName path, node.kind⟩

/-- The nodes inside a directory whose names are texts, in the order of their names. -/
def list (view : View) (path : String) : Except IoError (List Entry) :=
  match view.tree.list view.working (Bytes.ofText (view.hostPath path)) with
  | .error fault => .error fault.error
  | .ok children =>
      let entries := children.filterMap fun (name, node) =>
        (Bytes.toText? name).map fun name => (⟨name, node.kind⟩ : Entry)
      .ok (entries.mergeSort fun left right => left.name ≤ right.name)

/-- The text of the file that a path below the root leads to, through links. -/
def read (view : View) (path : String) : Except IoError String :=
  match view.tree.read view.working (Bytes.ofText (view.hostPath path)) with
  | .error fault => .error fault.error
  | .ok text => .ok text

/-- The directory as a file system. A traversal descends into real directories only, so it reaches
no node of the host twice. -/
def fileSystem (view : View) : FileSystem where
  stat := view.stat
  list := view.list
  read := view.read
  visitLimit := view.tree.size + 1

/-- The path below the root of the directory that leads to the same place as a path of the host,
unless that place is outside or its names are no texts. Finding the place is idealised: a host
refuses to spell out a place whose whole path is longer than it takes, and here there is no such
bound. -/
def pathWithin? (view : View) (path : String) : Option String :=
  match view.tree.resolve true view.working (Bytes.ofText view.root),
      view.tree.resolve true view.working (Bytes.ofText path) with
  | .ok root, .ok trail =>
      if root.place.isSuffixOf trail.place then
        let names := (trail.place.take (trail.length - root.length)).reverse
        (names.mapM Bytes.toText?).map fun names => "/".intercalate names
      else none
  | _, _ => none

end View

end Host

end OwnerCoverage
