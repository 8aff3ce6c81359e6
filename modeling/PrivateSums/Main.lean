import PrivateSums.CommandLine.Run

/-!
The program: looks at the files that may hold settings, runs, and prints.
-/

namespace PrivateSums

def readEntry (path : String) : IO (Option FileEntry) := do
  match ← EIO.toBaseIO (IO.FS.realPath path) with
  | .error _ => return none
  | .ok place =>
    if ← place.isDir then return some .directory
    match ← EIO.toBaseIO (IO.FS.readFile place) with
    | .ok text => return some (.file text)
    | .error _ => return some .unreadable

def readVariables : IO (List (String × String)) :=
  Settings.variableKeys.filterMapM fun key => do
    let name := Settings.variableMark ++ key.toUpper
    return (← IO.getEnv name).map (name, ·)

def readSite (arguments : List String) : IO Site := do
  let directory := (← IO.currentDir).toString
  let entries ← (CommandLine.paths arguments directory).mapM fun path => do
    return (path, ← readEntry path)
  return {
    directory
    look? := fun path => (entries.lookup path).join
    environment := ← readVariables }

end PrivateSums

open PrivateSums in
def main (arguments : List String) : IO UInt32 := do
  let site ← readSite arguments
  let seed ← IO.getRandomBytes 32
  let source := (Key.ofList? seed.toList).elim (ChaCha20.ofSeed 0) ChaCha20.ofKey
  let outcome := CommandLine.run arguments site source
  IO.print outcome.output
  if outcome.code = 0 then IO.print outcome.notice else IO.eprint outcome.notice
  return outcome.code.toUInt32
