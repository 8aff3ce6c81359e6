import PrivateSums.Circuit.Error
import PrivateSums.Polynomial.Error
import PrivateSums.Schema.Value
import PrivateSums.Settings.Error

/-!
What can go wrong when a submission is encoded, shared and checked.
-/

namespace PrivateSums

/-- How far a checker is with its request. -/
inductive CheckerState
  | idle
  | hasRequest
  | layer1Done
  | finished
  deriving DecidableEq, Repr

namespace CheckerState

def all : List CheckerState := [idle, hasRequest, layer1Done, finished]

def name : CheckerState → String
  | idle => "Idle"
  | hasRequest => "HasRequest"
  | layer1Done => "Layer1Done"
  | finished => "Finished"

def describe : CheckerState → String
  | idle => "idle"
  | hasRequest => "holding a request"
  | layer1Done => "past the first round"
  | finished => "finished"

end CheckerState

/-- Why a submission cannot be processed. -/
inductive Malformation
  | valueCount (measures values : Nat)
  | tripleNotCanonical
  | deltaCount (expected found : Nat)
  | hints (cause : ShareError)
  deriving DecidableEq, Repr

def Malformation.message : Malformation → String
  | .valueCount measures values => s!"schema has {measures} fields, got {values} values"
  | .tripleNotCanonical => "triple share is not a field element"
  | .deltaCount expected found => s!"leader expected {expected} deltas, got {found}"
  | .hints cause => cause.message

/-- Why a measure does not take a value. -/
inductive ValueFault
  | tooWide (value bits : Nat)
  | cellCount (expected found : Nat)
  | termCount (expected found : Nat)
  | wrongKind (value : Value)
  deriving DecidableEq, Repr

def ValueFault.message : ValueFault → String
  | .tooWide value bits => s!"{value} does not fit in {bits} bits"
  | .cellCount expected found => s!"sketch has {found} cells, expected {expected}"
  | .termCount expected found => s!"expected {expected} terms, got {found}"
  | .wrongKind value => s!"value {value.describe} has the wrong kind"

/-- What is reported when a replay that was validated does not work out, before the system stops. -/
def majorIssue : String := "System has crashed. Shares can no longer be trusted."

inductive CheckerError
  | malformedRequest (cause : Malformation)
  | protocolSequence (expected found : CheckerState)
  | wrongShareCount (expected found : Nat)
  | precomputeMismatch (expected found : Nat)
  | invalidValue (name : String) (fault : ValueFault)
  /-- The replay of a request that passed all checks failed. -/
  | outOfSync (cause : CircuitError)
  | circuit (cause : CircuitError)
  | polynomial (cause : PolynomialError)
  | share (cause : ShareError)
  | settings (cause : SettingsError)
  deriving DecidableEq, Repr

def CheckerError.message : CheckerError → String
  | .malformedRequest cause => s!"Malformed request: {cause.message}"
  | .protocolSequence expected found =>
      s!"Protocol sequence error: checker is {found.describe}, operation needs {expected.describe}"
  | .wrongShareCount expected found => s!"Expected {expected} shares, got {found}"
  | .precomputeMismatch expected found =>
      s!"Precompute is for {found} interpolation points, circuit needs {expected}"
  | .invalidValue name fault => s!"Invalid value for field '{name}': {fault.message}"
  | .outOfSync _ => majorIssue
  | .circuit cause => cause.message
  | .polynomial cause => cause.message
  | .share cause => cause.message
  | .settings cause => cause.message

end PrivateSums
