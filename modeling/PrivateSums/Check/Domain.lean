import PrivateSums.Check.Error
import PrivateSums.Circuit.Basic
import PrivateSums.Interpolation.PointWeights
import PrivateSums.Random.ElementStream

/-!
The interpolation points of a circuit's product check, and the points it is evaluated at. With `N`
the least power of two above the number of products, the factors `f` and `g` are interpolated
through the `N`-th roots of unity and their product `h` through the first `2N - 1` of the `2N`-th.
-/

namespace PrivateSums

/-- The number `N` of interpolation points of each factor. -/
def Circuit.domainSize (c : Circuit) : Nat := nextTwoPower (c.numMuls + 1)

structure CircuitDomain where
  /-- The number of points that carry a factor: one per product and one random. -/
  used : Nat
  size : Nat
  factors : PointSet
  product : PointSet

namespace CircuitDomain

def ofCircuit (F : Field) (c : Circuit) : Except CheckerError CircuitDomain := do
  let size := c.domainSize
  let factors ← (PointSet.onRoots F size).mapError .polynomial
  let roots ← (F.roots (2 * size)).mapError (.polynomial ∘ .field)
  let product ← (PointSet.ofPoints F (roots.take (2 * size - 1))).mapError .polynomial
  return { used := c.numMuls + 1, size, factors, product }

/-- The number of values of `h` that a client adds: those at the odd roots. -/
def numHints (d : CircuitDomain) : Nat := d.size - 1

end CircuitDomain

/-- A domain bound to the argument at which the factors and their product are compared. -/
structure EvaluationPoint where
  domain : CircuitDomain
  x : Nat
  factors : PointWeights
  product : PointWeights

namespace EvaluationPoint

def ofPoint (F : Field) (domain : CircuitDomain) (x : Nat) : EvaluationPoint where
  domain
  x := F.reduce x
  factors := .ofPoint F domain.factors x
  product := .ofPoint F domain.product x

variable {σ : Type} [WordSource σ]

/-- An element that is no root of unity of order `2 * size`, so that no interpolation point is
ever drawn. Zero is such an element too. -/
def randomArgument (F : Field) (size : Nat) : StateM σ Nat :=
  Random.redraw (fun x => F.pow x (2 * size) != 1) 0 F.random Random.patience

def random (F : Field) (domain : CircuitDomain) : StateM σ EvaluationPoint := do
  return ofPoint F domain (← randomArgument F domain.size)

end EvaluationPoint

end PrivateSums
