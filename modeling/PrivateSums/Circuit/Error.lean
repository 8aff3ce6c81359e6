import PrivateSums.Share.Error

/-!
What can go wrong when circuits are built, evaluated and shared.
-/

namespace PrivateSums

/-- Parameters that no gadget can be built for. -/
inductive GadgetError
  | bitWidth (name : String) (bits : Nat)
  | power (exponent : Nat)
  | emptySketch (name : String)
  | tooFewTerms (name : String)
  deriving DecidableEq, Repr

inductive CircuitError
  | unknownParent (gate parent : Nat)
  | inputCountMismatch (expected found : Nat)
  | wireCountMismatch (expected found : Nat)
  | invalidGadget (cause : GadgetError)
  | share (cause : ShareError)
  deriving DecidableEq, Repr

/-- The widest integer a gadget takes. -/
def maxIntBits : Nat := 64

def GadgetError.message : GadgetError → String
  | .bitWidth name bits => s!"{name}: bit width {bits} outside 1..={maxIntBits}"
  | .power exponent => s!"power {exponent} not in \x7b2, 4, 8\x7d"
  | .emptySketch name => s!"{name}: count-min needs at least one hash and one bucket"
  | .tooFewTerms name => s!"{name}: linear regression needs two terms"

def CircuitError.message : CircuitError → String
  | .unknownParent gate parent =>
      s!"Gate {gate} refers to parent {parent}, which does not precede it"
  | .inputCountMismatch expected found => s!"Circuit takes {expected} inputs, got {found}"
  | .wireCountMismatch expected found =>
      s!"Wire buffer has {found} values, circuit has {expected} gates"
  | .invalidGadget cause => s!"Invalid gadget parameters: {cause.message}"
  | .share cause => cause.message

end PrivateSums
