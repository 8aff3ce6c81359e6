import PrivateSums.Field.Roots
import PrivateSums.Polynomial.Error

/-!
The number-theoretic transform: evaluation at all powers of a root of unity of two-power order, and
its inverse.
-/

namespace PrivateSums

namespace Transform

/-- The entries at even positions. -/
def evens : List Nat → List Nat
  | [] => []
  | [a] => [a]
  | a :: _ :: rest => a :: evens rest

/-- Entries of two lists in turn, while both last. -/
def interleave : List Nat → List Nat → List Nat
  | a :: as, b :: bs => a :: b :: interleave as bs
  | _, _ => []

variable (F : Field)

/-- Evaluates `2 ^ levels` coefficients at the powers of a root, which `roots` lists. The even
outputs are the transform of the sums of opposite entries over the squared root; the odd ones that
of their differences, each times its root. -/
def levels : (levels : Nat) → (values roots : List Nat) → List Nat
  | 0, values, _ => values
  | k + 1, values, roots =>
    let low := values.take (2 ^ k)
    let high := values.drop (2 ^ k)
    let sums := List.zipWith F.add low high
    let differences := List.zipWith F.mul (List.zipWith F.sub low high) roots
    let next := evens roots
    interleave (levels k sums next) (levels k differences next)

/-- The transform of a list of two-power length. -/
def run (values roots : List Nat) : List Nat := levels F values.length.log2 values roots

def checkDomain (values roots : Nat) : Except PolynomialError Unit := do
  unless isTwoPower values do throw (.notTwoPower values)
  unless roots = values do throw (.lengthMismatch values roots)

/-- Evaluates the coefficients at `roots`, the powers of a principal root of unity of their
number. -/
def forward (coefficients roots : List Nat) : Except PolynomialError (List Nat) := do
  checkDomain coefficients.length roots.length
  return run F coefficients roots

/-- Recovers coefficients from evaluations, given the inverses of the roots evaluated at. -/
def inverse (values rootsInv : List Nat) : Except PolynomialError (List Nat) := do
  checkDomain values.length rootsInv.length
  let scale ← (F.inv values.length).mapError .field
  return (run F values rootsInv).map (F.mul · scale)

def padded (length : Nat) (values : List Nat) : List Nat :=
  values ++ List.replicate (length - values.length) 0

/-- Evaluates at the `n`-th roots of unity a polynomial of at most `n` coefficients. -/
def evaluateOnRoots (coefficients : List Nat) (n : Nat) : Except PolynomialError (List Nat) := do
  unless coefficients.length ≤ n do throw (.lengthMismatch n coefficients.length)
  let roots ← (F.roots n).mapError .field
  forward F (padded n coefficients) roots

/-- The coefficients of the polynomial of degree below `values.length` that takes these values at
the roots of unity of that order, in order. -/
def interpolateOnRoots (values : List Nat) : Except PolynomialError (List Nat) := do
  let rootsInv ← (F.rootsInv values.length).mapError .field
  inverse F values rootsInv

end Transform

end PrivateSums
