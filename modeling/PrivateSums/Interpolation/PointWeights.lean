import PrivateSums.Interpolation.PointSet

/-!
A point set bound to one argument `x`: the weights with which values at the points sum to the value
of their interpolant at `x`.
-/

namespace PrivateSums

structure PointWeights where
  x : Nat
  weights : List Nat

namespace PointWeights

/-- For each entry, the product of those before it times `before`. -/
def productsBefore (F : Field) (before : Nat) : List Nat → List Nat
  | [] => []
  | d :: rest => before :: productsBefore F (F.mul before d) rest

/-- For each entry, the product of those after it. -/
def productsAfter (F : Field) (values : List Nat) : List Nat :=
  (go values).2
where
  /-- The product of all entries, and the product after each. -/
  go : List Nat → Nat × List Nat
    | [] => (1, [])
    | d :: rest =>
      let (all, after) := go rest
      (F.mul all d, all :: after)

/-- At a point of the set the weights are its indicator. Elsewhere a point's weight is its
barycentric weight times the product of the distances from `x` to all other points. -/
def ofPoint (F : Field) (S : PointSet) (x : Nat) : PointWeights :=
  let x := F.reduce x
  if S.points.contains x then
    let hit := S.points.idxOf x
    ⟨x, S.points.mapIdx fun i _ => if i = hit then 1 else 0⟩
  else
    let distances := S.points.map (F.sub x)
    let others := List.zipWith F.mul (productsBefore F 1 distances) (productsAfter F distances)
    ⟨x, List.zipWith F.mul S.weights others⟩

def size (W : PointWeights) : Nat := W.weights.length

/-- The value at `x` of the interpolant through `values`. -/
def evaluate (F : Field) (W : PointWeights) (values : List Nat) : Except PolynomialError Nat := do
  unless values.length = W.size do throw (.lengthMismatch W.size values.length)
  return F.sum (List.zipWith F.mul values W.weights)

end PointWeights

end PrivateSums
