/-!
Paths as texts: names between slashes. A path that starts with a slash is absolute.
-/

namespace PrivateSums.Path

def isAbsolute (path : String) : Bool := path.startsWith "/"

/-- `path` seen from `base`. -/
def join (base path : String) : String :=
  if isAbsolute path || base.isEmpty then path
  else if base.endsWith "/" then base ++ path
  else base ++ "/" ++ path

/-- What stands between the slashes, the slash at the front left out. -/
def segments (path : String) : List String :=
  (if isAbsolute path then (path.drop 1).toString else path).splitOn "/"

/-- Segments that lead nowhere else. -/
def isIdle (segment : String) : Bool := segment == "" || segment == "."

def ofSegments (absolute : Bool) (segments : List String) : String :=
  (if absolute then "/" else "") ++ "/".intercalate segments

/-! ### Clean paths -/

/-- One segment after others, which are clean and stand last first. -/
def push (absolute : Bool) (clean : List String) (segment : String) : List String :=
  if isIdle segment then clean
  else if segment = ".." then
    match clean with
    | [] => if absolute then [] else [".."]
    | ".." :: _ => ".." :: clean
    | _ :: rest => rest
  else segment :: clean

/-- The shortest path that leads to the same place, as far as the text shows. -/
def clean (path : String) : String :=
  let absolute := isAbsolute path
  let result := ofSegments absolute ((segments path).foldl (push absolute) []).reverse
  if result.isEmpty then "." else result

/-! ### Ancestors -/

/-- The paths to what stands above a place, whose segments are given last first. -/
def above (absolute : Bool) : List String → List String
  | [] => []
  | segment :: rest =>
    if isIdle segment then above absolute rest
    else ofSegments absolute (rest.dropWhile isIdle).reverse :: above absolute rest

/-- A directory and those above it, the nearest first. -/
def upward (directory : String) : List String :=
  directory :: above (isAbsolute directory) (segments directory).reverse

/-- The places where something of this name may stand, in a directory or above it. -/
def candidates (directory name : String) : List String := (upward directory).map (join · name)

end PrivateSums.Path
