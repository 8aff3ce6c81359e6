import PrivateSums.Settings.Document
import PrivateSums.Settings.Source
import PrivateSums.Yaml.Reader

/-!
Loading settings: the standard ones, under those of a file, under those of the environment.
-/

namespace PrivateSums

inductive LoadError
  /-- The file that is named does not exist. -/
  | notFound
  /-- No settings can be read: no readable map, an unknown key or a value of the wrong type. -/
  | unparsable
  | invalid (fault : SettingsError)
  deriving DecidableEq, Repr

def LoadError.message : LoadError → String
  | notFound => "Configuration file not found"
  | unparsable => "Could not parse configuration"
  | invalid fault => s!"Invalid configuration: {fault.message}"

namespace Settings

/-- What stands in the name of a variable before the key of a setting. -/
def variableMark : String := "PRIO_"

/-- The settings that a variable may hold. -/
def variableKeys : List String :=
  ["field", "num_servers", "max_pending_reqs", "eval_point_rotation"]

/-- The key whose setting a variable of this name holds. -/
def variableKey? (name : String) : Option String :=
  let lower := name.toLower.toList
  let mark := variableMark.toLower.toList
  if mark.isPrefixOf lower then
    variableKeys.find? (· == String.ofList (lower.drop mark.length))
  else none

/-- The value of a variable: an integer, or a text. Double quotes around a text are not part of
it. -/
def variableValue (text : String) : Document :=
  let text := text.trimAscii.toString
  match Numeral.int? text with
  | some i => .int i
  | none =>
    match text.toList with
    | '"' :: rest =>
      let content := rest.dropLast
      if rest.getLast? = some '"' && !content.contains '"' && !content.contains '\\' then
        .text (String.ofList content)
      else .text text
    | _ => .text text

/-- The settings that the variables of the environment hold. -/
def ofVariables (environment : List (String × String)) : List (String × Document) :=
  environment.filterMap fun (name, text) => do return (← variableKey? name, variableValue text)

/-- The entries of a settings file. A directory has none. -/
def entriesOf? : FileEntry → Option (List (String × Document))
  | .directory => some []
  | .unreadable => none
  | .file text => do (← Yaml.read? text).entries?

/-- The entries of the file that settings are read from. -/
def fileEntries (site : Site) : SettingsSource → Except LoadError (List (String × Document))
  | .standard => return []
  | .explicit path => do
    let some entry := site.look? path | throw .notFound
    (entriesOf? entry).elim (throw .unparsable) pure
  | .found path => ((site.look? path).bind entriesOf?).elim (throw .unparsable) pure

/-- The settings at a site, with the file that is named there. A variable replaces an entry of the
file before the entry is looked at. -/
def load (site : Site) (file : Option String) : Except LoadError Settings := do
  let source := SettingsSource.choose site.directory file
    (site.search site.directory SettingsSource.fileName)
  let entries ← fileEntries site source
  let merged := (ofVariables site.environment).foldl
    (fun all (key, value) => Document.put all key value) entries
  let some settings := standard.setAll? merged | throw .unparsable
  settings.validate.mapError .invalid
  return settings

end Settings

end PrivateSums
