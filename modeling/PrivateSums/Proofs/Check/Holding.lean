import PrivateSums.Check.Checker
import PrivateSums.Proofs.Check.Domain
import PrivateSums.Proofs.Circuit.Evaluation
import PrivateSums.Proofs.Polynomial.Transform

/-!
What one server computes from its shares. Its evaluations are the values at `x` of the polynomials
through its shares, and everything it sends is linear in them.
-/

open scoped Polynomial

namespace PrivateSums

namespace Holding

variable (F : Field) (c : Circuit) (h : Holding)

/-- The shares of the first factor at its interpolation points. -/
def leftValues : List Nat :=
  ClientRequest.factorValues c.domainSize h.randomLeft (c.mulOperands.map (h.wires.at ·.1))

/-- The shares of the second factor at its interpolation points. -/
def rightValues : List Nat :=
  ClientRequest.factorValues c.domainSize h.randomRight (c.mulOperands.map (h.wires.at ·.2))

/-- The evaluations at a point, of as many shares as the point asks for. -/
def evaluations (point : EvaluationPoint) : Evaluations where
  left := point.factors.value F (h.leftValues c)
  right := F.mul (point.factors.value F (h.rightValues c)) point.x
  product := F.mul (point.product.value F (h.productValues c)) point.x

theorem length_factorValues (random : Nat) (f : Nat × Nat → Nat) :
    (ClientRequest.factorValues c.domainSize random (c.mulOperands.map f)).length =
      c.domainSize := by
  have := c.numMuls_lt_domainSize
  apply Transform.length_padded
  rw [List.length_cons, List.length_map, c.length_mulOperands]
  omega

theorem length_leftValues : (h.leftValues c).length = c.domainSize := length_factorValues c _ _

theorem length_rightValues : (h.rightValues c).length = c.domainSize := length_factorValues c _ _

/-- The number of values that a client shares beside the wires and the random ones. -/
def Complete : Prop := h.hints.length = c.domainSize - 1

variable {F c h}

theorem Complete.length_products (complete : h.Complete c) :
    (Transform.padded h.hints.length (c.mulGates.map h.wires.at)).length = h.hints.length := by
  have := c.numMuls_lt_domainSize
  apply Transform.length_padded
  rw [List.length_map, c.length_mulGates, complete]
  omega

theorem Complete.length_productValues (complete : h.Complete c) :
    (h.productValues c).length = 2 * c.domainSize - 1 := by
  have := c.numMuls_lt_domainSize
  rw [productValues, List.length_cons, Transform.length_interleave complete.length_products.symm,
    complete]
  omega

theorem getD_factorValues_zero (size random : Nat) (operands : List Nat) :
    (ClientRequest.factorValues size random operands).getD 0 0 = random :=
  Transform.getD_padded ..

theorem getD_factorValues_succ (size random : Nat) (operands : List Nat) (j : Nat) :
    (ClientRequest.factorValues size random operands).getD (j + 1) 0 = operands.getD j 0 :=
  Transform.getD_padded ..

theorem Complete.getD_productValues (complete : h.Complete c) (j : Nat) :
    (h.productValues c).getD (2 * j + 1) 0 = h.hints.getD j 0 ∧
      (h.productValues c).getD (2 * (j + 1)) 0 = (c.mulGates.map h.wires.at).getD j 0 := by
  obtain ⟨hint, product⟩ := Transform.getD_interleave complete.length_products.symm j
  rw [Transform.getD_padded] at product
  exact ⟨hint, product⟩

section Domain

variable {d : CircuitDomain} {k : Nat}

/-- A complete holding can be evaluated at every argument, over a domain of the circuit's size. -/
theorem evaluate_eq_ok (sized : d.Sized c.domainSize) (complete : h.Complete c) (x : Nat) :
    h.evaluate F c (.ofPoint F d x) = .ok (h.evaluations F c (.ofPoint F d x)) := by
  have left := PointWeights.evaluate_eq_ok (F := F) sized.weights_factors x
    ((h.length_leftValues c).trans sized.factors.symm)
  have right := PointWeights.evaluate_eq_ok (F := F) sized.weights_factors x
    ((h.length_rightValues c).trans sized.factors.symm)
  have product := PointWeights.evaluate_eq_ok (F := F) sized.weights_product x
    (complete.length_productValues.trans sized.product.symm)
  simp only [evaluate, EvaluationPoint.ofPoint]
  rw [← leftValues, ← rightValues, left, right, product]
  rfl

variable [Fact F.modulus.Prime] (F c d h)

/-- The polynomial through the shares of the first factor. -/
noncomputable def left : F.Residue[X] := d.factors.interpolant F (h.leftValues c)

/-- The polynomial through the shares of the second factor. -/
noncomputable def right : F.Residue[X] := d.factors.interpolant F (h.rightValues c)

/-- The polynomial through the shares of the product. -/
noncomputable def product : F.Residue[X] := d.product.interpolant F (h.productValues c)

variable {F c d h}

theorem cast_evaluations_left (hd : d.Valid F k) (size : c.domainSize = 2 ^ k) (x : Nat) :
    (((h.evaluations F c (.ofPoint F d x)).left : Nat) : F.Residue) =
      (h.left F c d).eval (x : F.Residue) :=
  PointWeights.cast_value hd.factors x (by rw [length_leftValues, hd.length_factors, size])

theorem cast_evaluations_right (hd : d.Valid F k) (size : c.domainSize = 2 ^ k) (x : Nat) :
    (((h.evaluations F c (.ofPoint F d x)).right : Nat) : F.Residue) =
      x * (h.right F c d).eval (x : F.Residue) := by
  rw [evaluations, F.cast_mul, mul_comm, EvaluationPoint.ofPoint, F.cast_reduce,
    PointWeights.cast_value hd.factors x (by rw [length_rightValues, hd.length_factors, size]),
    right]

theorem cast_evaluations_product (hd : d.Valid F k) (size : c.domainSize = 2 ^ k)
    (complete : h.Complete c) (x : Nat) :
    (((h.evaluations F c (.ofPoint F d x)).product : Nat) : F.Residue) =
      x * (h.product F c d).eval (x : F.Residue) := by
  have length : (h.productValues c).length = d.product.points.length := by
    rw [complete.length_productValues, hd.length_product, size, Nat.pow_succ']
  rw [evaluations, F.cast_mul, mul_comm, EvaluationPoint.ofPoint, F.cast_reduce,
    PointWeights.cast_value hd.product x length, product]

end Domain

theorem cast_productCheck (isLeader : Bool) (e : Evaluations) (cor : Cor) :
    ((h.productCheck F isLeader e cor : Nat) : F.Residue) =
      cor.d * h.triple.b + cor.e * h.triple.a + h.triple.c - e.product +
        Circuit.one F isLeader * (cor.d * cor.e) := by
  cases isLeader <;> simp [productCheck, Circuit.one]

/-- The sum of the zero checks, each times its coefficient. -/
def zeroSum (F : Field) (c : Circuit) (W : Nat → F.Residue) (rest : List Nat) : F.Residue :=
  ((List.zip c.zeroChecks.toList rest).map fun (gate, r) => W gate * (r : F.Residue)).sum

theorem cast_combine (productCheck first : Nat) (rest : List Nat) :
    ((h.combine F c productCheck (first :: rest) : Nat) : F.Residue) =
      productCheck * first + zeroSum F c (h.wires.residue F) rest := by
  rw [combine, zeroSum, ← F.cast_mul productCheck first]
  generalize F.mul productCheck first = start
  induction List.zip c.zeroChecks.toList rest generalizing start with
  | nil => simp
  | cons check checks ih =>
    rw [List.foldl_cons, ih, List.map_cons, List.sum_cons, F.cast_add, F.cast_mul, add_assoc]
    rfl

theorem combine_lt (productCheck : Nat) (coefficients : List Nat) :
    h.combine F c productCheck coefficients < F.modulus := by
  cases coefficients with
  | nil => exact F.modulus_pos
  | cons first rest =>
    rw [combine]
    generalize start : F.mul productCheck first = sum
    have lt : sum < F.modulus := start ▸ F.mul_lt _ _
    clear start
    induction List.zip c.zeroChecks.toList rest generalizing sum with
    | nil => exact lt
    | cons check checks ih => exact ih _ (F.add_lt _ _)

end Holding

end PrivateSums
