import PrivateSums.Field.Preset
import PrivateSums.Settings.Error

/-!
The settings that all parties of a deployment share.
-/

namespace PrivateSums

structure Settings where
  preset : FieldPreset
  /-- The number of servers that hold shares. -/
  servers : Nat
  /-- The number of checkers a server keeps per leader, which bounds the requests in flight. -/
  maxPending : Nat
  /-- The number of requests checked at one evaluation point. -/
  rotation : Nat
  measures : List Measure
  deriving DecidableEq, Repr

namespace Settings

/-- The settings of a deployment that states none: one measure of every kind. -/
def standard : Settings where
  preset := .standard
  servers := 5
  maxPending := 64
  rotation := 1024
  measures := [
    .int "val0" 4, .boolOr "bool0", .boolAnd "bool1", .intUnsafe "unsafe0" 5,
    .intPow "pow0" 3 4, .countMin "sketch" 4 8, .linReg "linReg0" [2, 3, 4]]

def requirePositive (setting : PositiveSetting) (value : Nat) : Except SettingsError Unit := do
  if value = 0 then throw (.notPositive setting)

/-- Every measure is valid by itself and has a name that no earlier one has. -/
def validateMeasures : (seen : List String) → List Measure → Except SettingsError Unit
  | _, [] => return
  | seen, m :: measures => do
    m.validate.mapError (.invalidMeasure m.name)
    if m.name ∈ seen then throw (.duplicateMeasure m.name)
    validateMeasures (m.name :: seen) measures

/-- The first fault, in the order of the settings. -/
def validate (s : Settings) : Except SettingsError Unit := do
  requirePositive .servers s.servers
  requirePositive .maxPending s.maxPending
  requirePositive .rotation s.rotation
  validateMeasures [] s.measures

end Settings

end PrivateSums
