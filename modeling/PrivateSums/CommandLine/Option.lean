/-!
The words of the command line: commands, and the options that each of them takes.
-/

namespace PrivateSums.CommandLine

/-- What a part of the command line is about. -/
inductive Topic
  | program
  | simulate
  | printConfig
  | help
  deriving DecidableEq, Repr

inductive Flag
  | config
  | requests
  | invalid
  | verbose
  | quiet
  | help
  deriving DecidableEq, Repr

namespace Flag

def short? : Flag → Option Char
  | config => some 'c'
  | verbose => some 'v'
  | quiet => some 'q'
  | help => some 'h'
  | requests | invalid => none

def long : Flag → String
  | config => "config"
  | requests => "requests"
  | invalid => "invalid"
  | verbose => "verbose"
  | quiet => "quiet"
  | help => "help"

/-- What the value is called, for a flag that takes one. -/
def placeholder? : Flag → Option String
  | config => some "CONFIG"
  | requests => some "REQUESTS"
  | invalid => some "INVALID"
  | verbose | quiet | help => none

def takesValue (flag : Flag) : Bool := flag.placeholder?.isSome

/-- The flag as it is written in full. -/
def display (flag : Flag) : String :=
  match flag.placeholder? with
  | some placeholder => s!"--{flag.long} <{placeholder}>"
  | none => s!"--{flag.long}" ++ if flag = verbose then "..." else ""

end Flag

/-- Valid submissions of a simulation that states no number. -/
def standardRequests : Nat := 10

/-- Corrupted submissions of a simulation that states no number. -/
def standardInvalid : Nat := 0

namespace Flag

def about : Flag → String
  | config => "Path to config file"
  | requests => s!"Number of valid submissions [default: {standardRequests}]"
  | invalid => s!"Number of corrupted submissions [default: {standardInvalid}]"
  | verbose =>
    "Indicate error levels by adding additional `-v` arguments. " ++
      "Eg. `prio -vvv` will give you trace level output"
  | quiet => "Silence all output. This argument cannot be used alongside `-v`"
  | help => "Print help"

end Flag

namespace Topic

/-- The flags that may be given, in the order in which they are explained. -/
def flags : Topic → List Flag
  | program | printConfig => [.config, .verbose, .quiet, .help]
  | simulate => [.config, .requests, .invalid, .verbose, .quiet, .help]
  | help => []

def name : Topic → String
  | program => "prio"
  | simulate => "simulate"
  | printConfig => "print-config"
  | help => "help"

def about : Topic → String
  | program => "Private aggregation with distributed validity checks"
  | simulate => "Run a deployment in-process and push random submissions through it"
  | printConfig => "Print the effective configuration as YAML"
  | help => "Print this message or the help of the given subcommand(s)"

def commands : List Topic := [simulate, printConfig, help]

/-- The command of a name. -/
def ofName? (name : String) : Option Topic := commands.find? (·.name == name)

end Topic

end PrivateSums.CommandLine
