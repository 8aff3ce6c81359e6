import PrivateSums.CommandLine.Option

/-!
The texts that explain the command line.
-/

namespace PrivateSums.CommandLine

/-- Rows of two columns. -/
def table (rows : List (String × String)) : String :=
  let width := (rows.map (·.1.length)).foldl max 0
  String.join (rows.map fun (left, right) =>
    let space := String.ofList (List.replicate (width - left.length + 2) ' ')
    "  " ++ left ++ space ++ right ++ "\n")

def Flag.row (flag : Flag) : String × String :=
  let short := match flag.short? with
    | some c => s!"-{c}, "
    | none => "    "
  (short ++ flag.display, flag.about)

namespace Topic

def usage : Topic → String
  | program => "Usage: prio [OPTIONS] <COMMAND>"
  | help => "Usage: prio help [COMMAND]..."
  | topic => s!"Usage: prio {topic.name} [OPTIONS]"

def commandTable : String :=
  "Commands:\n" ++ table (commands.map fun topic => (topic.name, topic.about)) ++ "\n"

def flagTable (topic : Topic) : String := "Options:\n" ++ table (topic.flags.map Flag.row)

def details : Topic → String
  | program => commandTable ++ program.flagTable
  | help => "Arguments:\n" ++ table [("[COMMAND]...", "Print help for the subcommand(s)")]
  | topic => topic.flagTable

def manual (topic : Topic) : String :=
  topic.about ++ "\n\n" ++ topic.usage ++ "\n\n" ++ topic.details

end Topic

end PrivateSums.CommandLine
