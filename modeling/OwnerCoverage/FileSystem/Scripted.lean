import OwnerCoverage.FileSystem.Basic

/-!
# Scripted file systems

A file system that answers from three tables. What stands in them need not fit together: a stat may
name another node than its path does, and a listing may name nodes that no stat knows.
-/

namespace OwnerCoverage

/-- The answers of a file system, path by path. What is not listed is not found. -/
structure Script where
  stats : List (String × Except IoError Entry)
  listings : List (String × Except IoError (List Entry))
  texts : List (String × Except IoError String)

namespace Script

/-- The answer for a path, or that the named table has none. -/
def answer {α : Type} (name : String) (table : List (String × Except IoError α))
    (path : String) : Except IoError α :=
  match table.lookup path with
  | some answer => answer
  | none => .error ⟨.notFound, name ++ " " ++ path ++ ": unscripted"⟩

def widest (script : Script) : Nat :=
  script.listings.foldl (fun widest (_, listing) =>
    match listing with
    | .ok entries => max widest entries.length
    | .error _ => widest) 0

/-- The script as a file system. As long as names are neither empty nor that of the root, paths grow
on the way down, so no chain of directories is longer than the table of stats, and every directory
has at most as many children as the longest listing. -/
def fileSystem (script : Script) : FileSystem where
  stat := answer "stat" script.stats
  list := answer "list" script.listings
  read := answer "read" script.texts
  visitLimit := Nat.pow (script.widest + 2) (script.stats.length + 2)

end Script

end OwnerCoverage
