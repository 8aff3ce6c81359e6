import PrivateSums.Polynomial.Division
import PrivateSums.Polynomial.Product

/-!
Evaluation at a fixed set of points, and interpolation through them, by way of the tree of products
of the factors `x - point`.
-/

namespace PrivateSums

/-- The products of the linear factors of a list of points: all of them at the root, halves of the
list below. -/
inductive ProductTree
  | empty
  | leaf (point : Nat) (factor : Polynomial)
  | node (product : Polynomial) (left right : ProductTree)

namespace ProductTree

def product : ProductTree → Polynomial
  | empty => .constant 1
  | leaf _ factor => factor
  | node product _ _ => product

def size : ProductTree → Nat
  | empty => 0
  | leaf .. => 1
  | node _ left right => left.size + right.size

/-- Splits the points in the middle, the left half the smaller. -/
def ofPoints (F : Field) (points : List Nat) : ProductTree :=
  match h : points with
  | [] => empty
  | [point] => leaf point (.linear F point)
  | _ :: _ :: _ =>
    let left := ofPoints F (points.take (points.length / 2))
    let right := ofPoints F (points.drop (points.length / 2))
    node (left.product.mul F right.product) left right
termination_by points.length
decreasing_by all_goals simp [h]; omega

/-- Evaluates at every point, passing to each half the remainder by the product above it. -/
def evaluate (F : Field) (P : Polynomial) : ProductTree → Except PolynomialError (List Nat)
  | empty => return []
  | leaf point _ => return [P.evaluate F point]
  | node product left right => do
    let (_, remainder) ← P.divRem F product
    return (← left.evaluate F remainder) ++ (← right.evaluate F remainder)

/-- The sum over the points of their coefficient times the product of all other factors. -/
def combine (F : Field) : ProductTree → (coefficients : List Nat) → Polynomial
  | empty, _ => .zero 1
  | leaf .., coefficients => .constant (coefficients.headD 0)
  | node _ left right, coefficients =>
    let l := left.combine F (coefficients.take left.size)
    let r := right.combine F (coefficients.drop left.size)
    (l.mul F right.product).add F (r.mul F left.product)

end ProductTree

/-- Distinct points, with what interpolation through them needs: the tree of products and the
barycentric weights `1 / ∏ (xᵢ - xⱼ)`. -/
structure PointSet where
  points : List Nat
  tree : ProductTree
  weights : List Nat

namespace PointSet

/-- The index of the first entry that occurs earlier as well. -/
def firstRepeat? (points : List Nat) : Option Nat := go [] points
where
  go (seen : List Nat) : List Nat → Option Nat
    | [] => none
    | point :: rest =>
      if seen.contains point then some seen.length else go (point :: seen) rest

/-- The point set of the residues of a list. The weights are the inverses of the derivative of the
whole product at the points. -/
def ofPoints (F : Field) (points : List Nat) : Except PolynomialError PointSet := do
  if points.isEmpty then throw .noPoints
  let points := points.map F.reduce
  if let some index := firstRepeat? points then throw (.duplicatePoint index)
  let tree := ProductTree.ofPoints F points
  let slopes ← tree.evaluate F (tree.product.derivative F)
  let weights ← (slopes.mapM F.inv).mapError .field
  return { points, tree, weights }

/-- The `n`-th roots of unity. -/
def onRoots (F : Field) (n : Nat) : Except PolynomialError PointSet := do
  ofPoints F (← (F.roots n).mapError .field)

def size (S : PointSet) : Nat := S.points.length

/-- The product of all `x - point`. -/
def vanishing (S : PointSet) : Polynomial := S.tree.product

/-- The values of a polynomial at the points, in order. -/
def evaluate (F : Field) (S : PointSet) (P : Polynomial) : Except PolynomialError (List Nat) :=
  S.tree.evaluate F P

/-- The polynomial of degree below the number of points that takes these values at them. -/
def interpolate (F : Field) (S : PointSet) (values : List Nat) :
    Except PolynomialError Polynomial := do
  unless values.length = S.size do throw (.lengthMismatch S.size values.length)
  return (S.tree.combine F (List.zipWith F.mul values S.weights)).trim

end PointSet

end PrivateSums
