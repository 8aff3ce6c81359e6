import PrivateSums.Files.Tree

/-!
Where settings are read from: the file that is named, or else the nearest one of the usual name in
the directory or above it.
-/

namespace PrivateSums

/-- What a program finds where it runs. -/
structure Site where
  /-- The directory it runs in. -/
  directory : String
  look? : String → Option FileEntry
  /-- The variables of the environment. -/
  environment : List (String × String)

namespace Site

/-- The nearest path of this name, in a directory or above it, at which something stands. -/
def search (site : Site) (directory name : String) : Option String :=
  (Path.candidates directory name).find? fun path => (site.look? path).isSome

end Site

inductive SettingsSource
  /-- The file that is named. It must exist. -/
  | explicit (path : String)
  | found (path : String)
  /-- No file at all. -/
  | standard
  deriving DecidableEq, Repr

namespace SettingsSource

/-- The usual name of a settings file. -/
def fileName : String := "prio.config.yaml"

/-- The path of a file that is named in a directory. -/
def named (directory file : String) : String :=
  if Path.isAbsolute file then file else Path.clean (Path.join directory file)

/-- A file that is named comes before one that a search has found. -/
def choose (directory : String) (file found : Option String) : SettingsSource :=
  match file, found with
  | some file, _ => explicit (named directory file)
  | none, some path => .found path
  | none, none => standard

/-- Every path that may be looked at. -/
def paths (directory : String) : (file : Option String) → List String
  | some file => [named directory file]
  | none => Path.candidates directory fileName

end SettingsSource

end PrivateSums
