import PrivateSums.CommandLine.Help
import PrivateSums.CommandLine.Parser
import PrivateSums.Deployment.Simulation
import PrivateSums.Settings.Load
import PrivateSums.Yaml.Writer

/-!
What the program writes and how it ends, for its arguments and the place where it runs.
-/

namespace PrivateSums.CommandLine

structure Outcome where
  /-- Zero for success, one for a failed task, two for arguments that make no sense. -/
  code : Nat
  /-- What the task writes. -/
  output : String
  /-- What is said about the run itself: the help that was asked for, or why it failed. -/
  notice : String
  deriving DecidableEq, Repr

namespace Outcome

def success (output : String) : Outcome := ⟨0, output, ""⟩
def explanation (topic : Topic) : Outcome := ⟨0, "", topic.manual⟩
def failure (output reason : String) : Outcome := ⟨1, output, reason ++ "\n"⟩
def misuse (e : UsageError) : Outcome := ⟨2, "", s!"{e.message}\n\n{Topic.program.usage}\n"⟩

/-- A report is written also when the trial that it tells of went wrong. -/
def ofReport (r : Simulation.Report) : Outcome :=
  if r.isClean then success r.text
  else failure r.text
    s!"{r.tally.falseRejects} valid submissions were rejected and {r.tally.errors} failed"

end Outcome

def Task.run (settings : Settings) (source : ChaCha20) : Task → Outcome
  | printConfig => .success (Yaml.write (Documented.toDocument settings))
  | simulate requests invalid =>
    match Simulation.run settings requests invalid source with
    | .ok report => .ofReport report
    | .error e => .failure "" e.message

def Invocation.run (i : Invocation) (site : Site) (source : ChaCha20) : Outcome :=
  match Settings.load site i.file with
  | .ok settings => i.task.run settings source
  | .error e => .failure "" e.message

def run (arguments : List String) (site : Site) (source : ChaCha20) : Outcome :=
  match parse arguments with
  | .ok i => i.run site source
  | .error (.help topic) => .explanation topic
  | .error (.usage e) => .misuse e

/-- Every path that may be looked at, for arguments in a directory. -/
def paths (arguments : List String) (directory : String) : List String :=
  match parse arguments with
  | .ok i => SettingsSource.paths directory i.file
  | .error _ => []

end PrivateSums.CommandLine
