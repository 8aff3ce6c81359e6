/-!
What can go wrong when a field is set up or computed in.
-/

namespace PrivateSums

inductive FieldError
  /-- The modulus is even or below three. -/
  | notOddPrime (modulus : Nat)
  /-- `2 ^ twoOrder` does not divide the order of the multiplicative group. -/
  | orderNotDividing (twoOrder : Nat)
  /-- A subgroup of order one carries no roots. -/
  | trivialSubgroup
  | wrongGeneratorOrder (twoOrder : Nat)
  | unsupportedRootOrder (requested twoOrder : Nat)
  | notInvertible
  | unknownPreset (name : String)
  deriving DecidableEq, Repr

def FieldError.message : FieldError → String
  | .notOddPrime modulus => s!"Invalid modulus: modulus {modulus} must be an odd prime"
  | .orderNotDividing twoOrder => s!"Invalid modulus: 2^{twoOrder} does not divide p - 1"
  | .trivialSubgroup => "Invalid generator: subgroup order must be at least 2"
  | .wrongGeneratorOrder twoOrder =>
      s!"Invalid generator: generator does not have order 2^{twoOrder}"
  | .unsupportedRootOrder requested twoOrder =>
      s!"No root of unity of order {requested}; the field supports orders up to 2^{twoOrder}"
  | .notInvertible => "Zero has no multiplicative inverse"
  | .unknownPreset name => s!"Unknown field preset '{name}'"

end PrivateSums
