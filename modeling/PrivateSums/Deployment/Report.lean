import PrivateSums.Deployment.Error
import PrivateSums.Document.Basic

/-!
Errors as they are reported: a code for programs beside the message for people. The code of an error
that comes from another part starts with the name of that part.
-/

namespace PrivateSums

class Reported (ε : Type) where
  code : ε → String
  message : ε → String

namespace Reported

def toDocument {ε : Type} [Reported ε] (e : ε) : Document :=
  .map [("error", .text (code e)), ("message", .text (message e))]

instance : Reported FieldError where
  code
    | .notOddPrime _ | .orderNotDividing _ => "InvalidModulus"
    | .trivialSubgroup | .wrongGeneratorOrder _ => "InvalidGenerator"
    | .unsupportedRootOrder .. => "UnsupportedRootOrder"
    | .notInvertible => "NotInvertible"
    | .unknownPreset _ => "UnknownPreset"
  message := FieldError.message

instance : Reported PolynomialError where
  code
    | .divisionByZero => "DivisionByZero"
    | .notTwoPower _ => "NotPowerOfTwo"
    | .lengthMismatch .. => "LengthMismatch"
    | .duplicatePoint _ => "DuplicatePoint"
    | .noPoints => "EmptyPointSet"
    | .field cause => s!"Field.{code cause}"
  message := PolynomialError.message

instance : Reported ShareError where
  code
    | .noServers => "NoServers"
    | .serverOutOfRange .. => "ServerOutOfRange"
    | .unexpectedDeltas .. => "UnexpectedDeltas"
    | .nonCanonicalDelta _ => "NonCanonicalDelta"
    | .exhausted _ => "Exhausted"
    | .positionMismatch .. => "PositionMismatch"
  message := ShareError.message

instance : Reported CircuitError where
  code
    | .unknownParent .. => "UnknownParent"
    | .inputCountMismatch .. => "InputCountMismatch"
    | .wireCountMismatch .. => "WireCountMismatch"
    | .invalidGadget _ => "InvalidGadget"
    | .share cause => s!"Share.{code cause}"
  message := CircuitError.message

instance : Reported SettingsError where
  code
    | .invalidMeasure .. => "InvalidField"
    | .duplicateMeasure _ => "DuplicateField"
    | .notPositive _ => "InvalidSetting"
  message := SettingsError.message

instance : Reported CheckerError where
  code
    | .malformedRequest _ => "MalformedRequest"
    | .protocolSequence .. => "ProtocolSequence"
    | .wrongShareCount .. => "WrongShareCount"
    | .precomputeMismatch .. => "PrecompMismatch"
    | .invalidValue .. => "InvalidValue"
    | .outOfSync _ => "OutOfSync"
    | .circuit cause => s!"Circuit.{code cause}"
    | .polynomial cause => s!"Polynomial.{code cause}"
    | .share cause => s!"Share.{code cause}"
    | .settings cause => s!"Config.{code cause}"
  message := CheckerError.message

instance : Reported ServerError where
  code
    | .unknownRequest _ => "UnknownRequest"
    | .duplicateRequest _ => "DuplicateRequest"
    | .leaderOutOfRange .. => "LeaderOutOfRange"
    | .unknownEpoch .. => "UnknownEpoch"
    | .staleEpoch .. => "StaleEpoch"
    | .disagreement _ => "Disagreement"
    | .checker cause => s!"Checker.{code cause}"
    | .poolClosed _ => "PoolClosed"
    | .compute _ => "Compute"
  message := ServerError.message

end Reported

end PrivateSums
