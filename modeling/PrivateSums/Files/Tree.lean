import PrivateSums.Files.Path

/-!
Trees of files, and what stands at a path in one.
-/

namespace PrivateSums

inductive FileEntry
  | directory
  | file (text : String)
  /-- A file whose text cannot be had. -/
  | unreadable
  deriving DecidableEq, Repr

/-- A tree of files. The directories above a file or a directory are in it. -/
structure FileTree where
  /-- Files by the segments of their paths. -/
  files : List (List String × String)
  /-- Directories that are made apart from the files. -/
  directories : List (List String)

namespace FileTree

/-- The files of these paths, and a directory. -/
def ofFiles (files : List (String × String)) (directory : String) : FileTree where
  files := files.map fun (path, text) => (Path.segments (Path.clean path), text)
  directories := [(Path.segments (Path.clean directory)).filter (!Path.isIdle ·)]

variable (tree : FileTree)

def isDirectory (place : List String) : Bool :=
  tree.directories.any place.isPrefixOf ||
    tree.files.any fun (path, _) => place.isPrefixOf path && place != path

def entryAt? (place : List String) : Option FileEntry :=
  match tree.files.lookup place with
  | some text => some (.file text)
  | none => if tree.isDirectory place then some .directory else none

/-- Follows one segment. Only directories lead on. -/
def follow? (place : List String) (segment : String) : Option (List String) := do
  guard (tree.isDirectory place)
  if Path.isIdle segment then return place
  if segment = ".." then return place.dropLast
  let next := place ++ [segment]
  guard (tree.entryAt? next).isSome
  return next

/-- What stands at a path from the root. -/
def look? (path : String) : Option FileEntry := do
  tree.entryAt? (← (Path.segments path).foldlM tree.follow? [])

end FileTree

end PrivateSums
