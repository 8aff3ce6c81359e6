import PrivateSums.Proofs.Interpolation.PointWeights

/-!
Interpolation by way of the product tree. What the tree combines from scaled values is the
interpolant, by its coefficients.
-/

open scoped Polynomial

namespace PrivateSums

namespace Field

variable (F : Field)

theorem vanishing_cons (p : Nat) (ps : List Nat) :
    F.vanishing (p :: ps) = (.X - .C (p : F.Residue)) * F.vanishing ps := by
  rw [vanishing, List.map_cons, List.prod_cons, vanishing]

/-- The sum over the points of their coefficient times the product of all other factors. -/
noncomputable def combination : (points coefficients : List Nat) → F.Residue[X]
  | p :: ps, c :: cs =>
    .C (c : F.Residue) * F.vanishing ps + (.X - .C (p : F.Residue)) * combination ps cs
  | _, _ => 0

theorem combination_append {ps cs : List Nat} (h : ps.length = cs.length) (qs ds : List Nat) :
    F.combination (ps ++ qs) (cs ++ ds) =
      F.combination ps cs * F.vanishing qs + F.vanishing ps * F.combination qs ds := by
  induction ps generalizing cs with
  | nil =>
    obtain rfl := List.length_eq_zero_iff.1 h.symm
    simp [combination, vanishing]
  | cons p ps ih =>
    obtain ⟨c, cs, rfl⟩ := List.exists_cons_of_length_eq_add_one h.symm
    rw [List.cons_append, List.cons_append, combination, combination, ih (Nat.succ.inj h),
      vanishing_append, vanishing_cons]
    ring

/-- At a point all summands vanish but its own. -/
theorem eval_combination [Fact F.modulus.Prime] {ps cs : List Nat} (h : ps.length = cs.length)
    {i : Nat} (hi : i < ps.length) : (F.combination ps cs).eval (F.node ps i) =
      (cs.getD i 0 : Nat) * (F.vanishing ps).derivative.eval (F.node ps i) := by
  induction ps generalizing cs i with
  | nil => simp at hi
  | cons p ps ih =>
    obtain ⟨c, cs, rfl⟩ := List.exists_cons_of_length_eq_add_one h.symm
    rw [combination, vanishing_cons]
    cases i with
    | zero => simp [node]
    | succ i =>
      have hi := Nat.lt_of_succ_lt_succ hi
      have zero : (F.vanishing ps).eval (F.node ps i) = 0 := by
        rw [node, List.getD_eq_getElem _ _ hi]
        exact F.eval_vanishing (List.getElem_mem hi)
      have same : F.node (p :: ps) (i + 1) = F.node ps i := rfl
      simp only [same, Polynomial.derivative_mul, Polynomial.eval_add, Polynomial.eval_mul, zero,
        ih (Nat.succ.inj h) hi, List.getD_cons_succ]
      ring

end Field

namespace ProductTree

variable {F : Field}

/-- The tree of a list is the empty one, a leaf, or that of two lists that are not empty. -/
theorem ofPoints_induction {motive : List Nat → ProductTree → Prop} (empty : motive [] .empty)
    (leaf : ∀ point, motive [point] (.leaf point (.linear F point)))
    (node : ∀ left right : List Nat, left ≠ [] → right ≠ [] → motive left (ofPoints F left) →
      motive right (ofPoints F right) → motive (left ++ right)
        (.node ((ofPoints F left).product.mul F (ofPoints F right).product) (ofPoints F left)
          (ofPoints F right))) (points : List Nat) : motive points (ofPoints F points) := by
  fun_induction ofPoints F points with
  | case1 => exact empty
  | case2 point => exact leaf point
  | case3 p q rest ihl ihr =>
    have both := node _ _ (List.ne_nil_of_length_pos (by simp))
      (List.ne_nil_of_length_pos (by simp; omega)) ihl ihr
    rwa [List.take_append_drop] at both

theorem length_product (points : List Nat) :
    (ofPoints F points).product.coefficients.length = points.length + 1 := by
  induction points using ofPoints_induction (F := F) with
  | empty => rfl
  | leaf point => rfl
  | node left right someL someR ihl ihr =>
    have some {P : Polynomial} {n : Nat} (h : P.coefficients.length = n + 1) :
        P.coefficients ≠ [] := List.ne_nil_of_length_eq_add_one h
    rw [product, Polynomial.length_mul (some ihl) (some ihr), ihl, ihr, List.length_append]
    omega

/-- One coefficient for each point. -/
theorem length_combine {points : List Nat} (nonempty : points ≠ []) (cs : List Nat) :
    ((ofPoints F points).combine F cs).coefficients.length = points.length := by
  induction points using ofPoints_induction (F := F) generalizing cs with
  | empty => exact absurd rfl nonempty
  | leaf point => rfl
  | node left right someL someR ihl ihr =>
    have some (points : List Nat) : (ofPoints F points).product.coefficients ≠ [] :=
      List.ne_nil_of_length_eq_add_one (length_product points)
    have lengthL := ihl someL (cs.take (ofPoints F left).size)
    have lengthR := ihr someR (cs.drop (ofPoints F left).size)
    have posL := List.length_pos_iff.2 someL
    have posR := List.length_pos_iff.2 someR
    rw [combine, Polynomial.add, Polynomial.length_zipWithAll,
      Polynomial.length_mul (List.ne_nil_of_length_pos (lengthL ▸ posL)) (some right),
      Polynomial.length_mul (List.ne_nil_of_length_pos (lengthR ▸ posR)) (some left), lengthL,
      lengthR, length_product, length_product, List.length_append]
    omega

/-- Canonical coefficients combine to canonical ones. -/
theorem combine_lt (T : ProductTree) {cs : List Nat} (h : ∀ c ∈ cs, c < F.modulus) :
    ∀ c ∈ (T.combine F cs).coefficients, c < F.modulus := by
  cases T with
  | empty => simp [combine, Polynomial.zero, F.modulus_pos]
  | leaf point =>
    rw [combine, Polynomial.constant, List.forall_mem_singleton]
    cases cs with
    | nil => exact F.modulus_pos
    | cons c cs => exact h c List.mem_cons_self
  | node product left right => exact Polynomial.add_lt _ _

variable [Fact F.modulus.Prime]

theorem polynomial_combine {points cs : List Nat} (h : points.length = cs.length) :
    F.polynomial ((ofPoints F points).combine F cs).coefficients = F.combination points cs := by
  induction points using ofPoints_induction (F := F) generalizing cs with
  | empty => simp [combine, Polynomial.zero, Field.combination, F.polynomial_cons]
  | leaf point =>
    obtain ⟨c, rfl⟩ := List.length_eq_one_iff.1 h.symm
    simp [combine, Polynomial.constant, Field.combination, F.polynomial_cons, Field.vanishing]
  | node left right someL someR ihl ihr =>
    rw [List.length_append] at h
    have lengthL : left.length = (cs.take left.length).length := by
      rw [List.length_take]
      omega
    have lengthR : right.length = (cs.drop left.length).length := by
      rw [List.length_drop]
      omega
    rw [combine, size_ofPoints, Polynomial.polynomial_add, Polynomial.polynomial_mul,
      Polynomial.polynomial_mul, ihl lengthL, ihr lengthR, polynomial_product, polynomial_product,
      mul_comm (F.combination right _), ← F.combination_append lengthL, List.take_append_drop]

end ProductTree

namespace PointSet

variable {F : Field} {S : PointSet}

variable [Fact F.modulus.Prime]

/-- A polynomial of as low a degree that takes the values is the interpolant. -/
theorem eq_interpolant (hS : S.Valid F) {values : List Nat} {P : F.Residue[X]}
    (degree : P.degree < S.points.length)
    (h : ∀ i < S.points.length, P.eval (F.node S.points i) = (values.getD i 0 : Nat)) :
    P = S.interpolant F values := by
  apply Polynomial.eq_of_degrees_lt_of_eval_index_eq (Finset.range S.points.length)
    (F.node_injOn hS.canonical hS.distinct)
  · rwa [Finset.card_range]
  · rw [Finset.card_range]
    exact degree_interpolant_lt hS values
  · intro i hi
    rw [h i (Finset.mem_range.1 hi), eval_interpolant hS values (Finset.mem_range.1 hi)]

/-- Interpolation answers the trimmed coefficients of the interpolant. -/
theorem interpolate_eq_ok {points : List Nat} (made : S.MadeOf F points) (hS : S.Valid F)
    {values : List Nat} (length : values.length = S.points.length) :
    ∃ P : Polynomial, S.interpolate F values = .ok P.trim ∧
      P.coefficients.length = S.points.length ∧ (∀ c ∈ P.coefficients, c < F.modulus) ∧
      F.polynomial P.coefficients = S.interpolant F values := by
  have nonempty : S.points ≠ [] := by
    rw [made.points_eq]
    simpa using made.nonempty
  have scaled : S.points.length = (List.zipWith F.mul values S.weights).length := by
    rw [List.length_zipWith, length, hS.length_weights, min_self]
  refine ⟨(ProductTree.ofPoints F S.points).combine F (List.zipWith F.mul values S.weights), ?_,
    ProductTree.length_combine nonempty _,
    ProductTree.combine_lt _ (Transform.mem_zipWith_lt F F.mul_lt _ _), ?_⟩
  · rw [interpolate, size, if_pos length, made.tree_eq]
    rfl
  · rw [ProductTree.polynomial_combine scaled]
    refine eq_interpolant hS ?_ fun i hi => ?_
    · rw [← ProductTree.polynomial_combine scaled]
      refine (F.degree_polynomial_lt _).trans_le ?_
      rw [ProductTree.length_combine nonempty]
    · -- The weight of a point cancels the slope that the combination has there.
      have slope := slope_ne_zero hS.canonical hS.distinct hi
      have weight := hS.cast_weight i hi
      rw [List.getD_eq_getElem _ _ (by rwa [hS.length_weights])] at weight
      rw [F.eval_combination scaled hi, List.getD_eq_getElem _ _ (scaled ▸ hi),
        List.getElem_zipWith, F.cast_mul, weight, mul_assoc, inv_mul_cancel₀ slope, mul_one,
        List.getD_eq_getElem]

end PointSet

end PrivateSums
