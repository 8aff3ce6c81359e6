import PrivateSums.Schema.Measure

/-!
What makes settings invalid.
-/

namespace PrivateSums

/-- The settings that must be positive. -/
inductive PositiveSetting
  | servers
  | maxPending
  | rotation
  deriving DecidableEq, Repr

def PositiveSetting.name : PositiveSetting → String
  | servers => "num_servers"
  | maxPending => "max_pending_reqs"
  | rotation => "eval_point_rotation"

inductive SettingsError
  | invalidMeasure (name : String) (fault : MeasureFault)
  | duplicateMeasure (name : String)
  | notPositive (setting : PositiveSetting)
  deriving DecidableEq, Repr

def SettingsError.message : SettingsError → String
  | .invalidMeasure name fault => s!"Field '{name}': {fault.message}"
  | .duplicateMeasure name => s!"Field name '{name}' is used more than once"
  | .notPositive setting => s!"Invalid setting '{setting.name}': must be at least 1"

end PrivateSums
