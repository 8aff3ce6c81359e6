import PrivateSums.Field.Error

/-!
What can go wrong in polynomial arithmetic and interpolation.
-/

namespace PrivateSums

inductive PolynomialError
  | divisionByZero
  | notTwoPower (length : Nat)
  | lengthMismatch (expected found : Nat)
  /-- The point at this index equals an earlier one. -/
  | duplicatePoint (index : Nat)
  | noPoints
  | field (cause : FieldError)
  deriving DecidableEq, Repr

def PolynomialError.message : PolynomialError → String
  | .divisionByZero => "Division by zero polynomial"
  | .notTwoPower length => s!"Transform length {length} is not a power of two"
  | .lengthMismatch expected found => s!"Length mismatch: expected {expected}, found {found}"
  | .duplicatePoint index => s!"Interpolation points must be distinct (point {index} repeats)"
  | .noPoints => "Interpolation requires at least one point"
  | .field cause => cause.message

end PrivateSums
