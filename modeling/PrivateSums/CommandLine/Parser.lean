import PrivateSums.CommandLine.Option
import PrivateSums.Text.Numeral

/-!
What the arguments of the program ask for. Flags may stand before and after the command; a value
after the command counts more than one before it.
-/

namespace PrivateSums.CommandLine

inductive UsageError
  | unexpected (argument : String)
  | missingValue (flag : Flag)
  | unneededValue (flag : Flag) (value : String)
  | repeated (flag : Flag)
  | noNumber (flag : Flag) (value : String)
  | conflict (flag other : Flag)
  | noCommand
  | unknownCommand (name : String)
  deriving DecidableEq, Repr

def UsageError.message : UsageError → String
  | unexpected argument => s!"error: unexpected argument '{argument}' found"
  | missingValue flag =>
    s!"error: a value is required for '{flag.display}' but none was supplied"
  | unneededValue flag value => s!"error: unexpected value '{value}' for '{flag.display}' found"
  | repeated flag => s!"error: the argument '{flag.display}' cannot be used multiple times"
  | noNumber flag value => s!"error: invalid value '{value}' for '{flag.display}'"
  | conflict flag other =>
    s!"error: the argument '{flag.display}' cannot be used with '{other.display}'"
  | noCommand => "error: 'prio' requires a subcommand but one was not provided"
  | unknownCommand name => s!"error: unrecognized subcommand '{name}'"

/-- Why reading the arguments ends early. -/
inductive Halt
  /-- Help is asked for. What follows is not looked at. -/
  | help (topic : Topic)
  | usage (error : UsageError)
  deriving DecidableEq, Repr

inductive Task
  | simulate (requests invalid : Nat)
  | printConfig
  deriving DecidableEq, Repr

structure Invocation where
  /-- The settings file that is named. -/
  file : Option String
  task : Task
  deriving DecidableEq, Repr

/-! ### Flags -/

/-- The flags that were given on one side of the command. -/
structure Given where
  file : Option String := none
  requests : Option Nat := none
  invalid : Option Nat := none
  verbosity : Nat := 0
  quiet : Bool := false

/-- The value of a flag that may be given once. -/
def once {α : Type} (flag : Flag) (earlier : Option α) (value : α) : Except Halt (Option α) :=
  if earlier.isSome then throw (.usage (.repeated flag)) else return some value

def count (flag : Flag) (value : String) : Except Halt Nat :=
  match (Numeral.nat? value).filter (· < UInt64.size) with
  | some n => return n
  | none => throw (.usage (.noNumber flag value))

namespace Given

/-- Takes a flag with its value. -/
def take (given : Given) (flag : Flag) (value : String) : Except Halt Given := do
  match flag with
  | .config => return { given with file := ← once flag given.file value }
  | .requests => return { given with requests := ← once flag given.requests (← count flag value) }
  | .invalid => return { given with invalid := ← once flag given.invalid (← count flag value) }
  | .verbose | .quiet | .help => throw (.usage (.unneededValue flag value))

/-- Takes a flag that has no value. -/
def mark (given : Given) (topic : Topic) (flag : Flag) : Except Halt Given := do
  match flag with
  | .verbose => return { given with verbosity := given.verbosity + 1 }
  | .quiet =>
    if given.quiet then throw (.usage (.repeated flag))
    return { given with quiet := true }
  | .help => throw (.help topic)
  | .config | .requests | .invalid => throw (.usage (.missingValue flag))

/-- Output is not silenced and extended at the same time. -/
def check (given : Given) : Except Halt Unit := do
  if given.quiet && given.verbosity != 0 then throw (.usage (.conflict .quiet .verbose))

end Given

/-! ### Arguments -/

/-- What an argument adds, and the flag that takes the next argument as its value. -/
abbrev Reading := Except Halt (Given × Option Flag)

/-- One-letter flags in a row. What follows one that takes a value is the value. -/
def readShort (topic : Topic) (given : Given) : List Char → Reading
  | [] => return (given, none)
  | c :: rest => do
    let some flag := topic.flags.find? (·.short? == some c) | throw (.usage (.unexpected s!"-{c}"))
    if flag.takesValue then
      match rest with
      | [] => return (given, some flag)
      | '=' :: value | value => return (← given.take flag (String.ofList value), none)
    else readShort topic (← given.mark topic flag) rest

/-- A flag in full, perhaps with its value. -/
def readLong (topic : Topic) (given : Given) (text : List Char) : Reading := do
  let name := String.ofList (text.takeWhile (· != '='))
  let some flag := topic.flags.find? (·.long == name) | throw (.usage (.unexpected s!"--{name}"))
  match text.dropWhile (· != '=') with
  | _ :: value => return (← given.take flag (String.ofList value), none)
  | [] =>
    if flag.takesValue then return (given, some flag)
    return (← given.mark topic flag, none)

/-- Whether an argument starts as a flag does. A lone dash does not. -/
def isFlag (argument : String) : Bool := argument.startsWith "-" && argument != "-"

/-- Reads flags up to the first argument that is none, or up to two dashes. -/
def readFlags (topic : Topic) (given : Given) :
    (pending : Option Flag) → List String → Except Halt (Given × List String)
  | some flag, [] => throw (.usage (.missingValue flag))
  | some flag, value :: rest => do
    if isFlag value then throw (.usage (.missingValue flag))
    readFlags topic (← given.take flag value) none rest
  | none, [] => return (given, [])
  | none, argument :: rest =>
    match argument.toList with
    | ['-', '-'] => return (given, argument :: rest)
    | '-' :: '-' :: text => do
      let (given, pending) ← readLong topic given text
      readFlags topic given pending rest
    | '-' :: c :: text => do
      let (given, pending) ← readShort topic given (c :: text)
      readFlags topic given pending rest
    | _ => return (given, argument :: rest)

/-- The flags after a command, which no other arguments follow. -/
def readCommand (topic : Topic) (arguments : List String) : Except Halt Given := do
  match ← readFlags topic {} none arguments with
  | (given, []) | (given, ["--"]) =>
    given.check
    return given
  | (_, "--" :: argument :: _) | (_, argument :: _) => throw (.usage (.unexpected argument))

/-- The topic that help is asked for by name. -/
def helpTopic : List String → Halt
  | [] => .help .program
  | [name] =>
    match Topic.ofName? name with
    | some topic => .help topic
    | none => .usage (.unknownCommand name)
  | _ :: name :: _ => .usage (.unknownCommand name)

def parse (arguments : List String) : Except Halt Invocation := do
  let (outer, rest) ← readFlags .program {} none arguments
  match rest with
  | [] | ["--"] => throw (.usage .noCommand)
  | "--" :: argument :: _ => throw (.usage (.unexpected argument))
  | name :: rest =>
    let some topic := Topic.ofName? name | throw (.usage (.unknownCommand name))
    if topic = .help then throw (helpTopic rest)
    let inner ← readCommand topic rest
    outer.check
    let task := if topic = .simulate then
        Task.simulate (inner.requests.getD standardRequests) (inner.invalid.getD standardInvalid)
      else .printConfig
    return { file := inner.file <|> outer.file, task }

end PrivateSums.CommandLine
