import PrivateSums.Interpolation.PointWeights
import PrivateSums.Proofs.Interpolation.PointSet

/-!
The weights of a point set at an argument are the values there of its Lagrange basis, on the grid
as off it. So they answer the value of the interpolant.
-/

open scoped Polynomial

namespace PrivateSums

/-- The polynomial through a list of values at the points of a set. -/
noncomputable def PointSet.interpolant (F : Field) [Fact F.modulus.Prime] (S : PointSet)
    (values : List Nat) : F.Residue[X] :=
  Lagrange.interpolate (Finset.range S.points.length) (F.node S.points)
    fun i => ((values.getD i 0 : Nat) : F.Residue)

namespace PointSet

variable {F : Field} [Fact F.modulus.Prime] {S : PointSet}

theorem eval_interpolant (hS : S.Valid F) (values : List Nat) {i : Nat} (hi : i < S.points.length) :
    (S.interpolant F values).eval (F.node S.points i) = ((values.getD i 0 : Nat) : F.Residue) :=
  Lagrange.eval_interpolate_at_node _ (F.node_injOn hS.canonical hS.distinct)
    (Finset.mem_range.2 hi)

theorem degree_interpolant_lt (hS : S.Valid F) (values : List Nat) :
    (S.interpolant F values).degree < S.points.length := by
  have lt := Lagrange.degree_interpolate_lt (fun i => ((values.getD i 0 : Nat) : F.Residue))
    (F.node_injOn hS.canonical hS.distinct)
  rwa [Finset.card_range] at lt

end PointSet

namespace PointWeights

variable {F : Field}

theorem length_productsBefore (before : Nat) (ds : List Nat) :
    (productsBefore F before ds).length = ds.length := by
  induction ds generalizing before with
  | nil => rfl
  | cons d ds ih => rw [productsBefore, List.length_cons, ih, List.length_cons]

theorem length_productsAfter (ds : List Nat) : (productsAfter F ds).length = ds.length := by
  unfold productsAfter
  induction ds with
  | nil => rfl
  | cons d ds ih => rw [productsAfter.go, List.length_cons, ih, List.length_cons]

theorem cast_go (ds : List Nat) : (((productsAfter.go F ds).1 : Nat) : F.Residue) =
    (ds.map (Nat.cast : Nat → F.Residue)).prod := by
  induction ds with
  | nil => simp [productsAfter.go]
  | cons d ds ih => simp [productsAfter.go, ih, mul_comm]

/-- The products before and after an entry leave out that entry only. -/
theorem products_mul (before : Nat) (ds : List Nat) {i : Nat} (hi : i < ds.length) :
    (((productsBefore F before ds).getD i 0 : Nat) : F.Residue) *
        ((productsAfter F ds).getD i 0 : Nat) * (ds.getD i 0 : Nat) =
      before * (ds.map (Nat.cast : Nat → F.Residue)).prod := by
  induction ds generalizing before i with
  | nil => simp at hi
  | cons d ds ih =>
    rw [List.map_cons, List.prod_cons]
    cases i with
    | zero =>
      simp only [productsBefore, productsAfter, productsAfter.go, List.getD_cons_zero, cast_go]
      ring
    | succ i =>
      have rest := ih (F.mul before d) (Nat.lt_of_succ_lt_succ hi)
      simp only [productsBefore, productsAfter, productsAfter.go, List.getD_cons_succ] at rest ⊢
      rw [rest, F.cast_mul, mul_assoc]

variable {S : PointSet}

theorem length_weights (weights : S.weights.length = S.points.length) (x : Nat) :
    (ofPoint F S x).weights.length = S.points.length := by
  unfold ofPoint
  dsimp only
  split
  · rw [List.length_mapIdx]
  · simp [length_productsBefore, length_productsAfter, weights]

theorem node_idxOf {x : Nat} (mem : F.reduce x ∈ S.points) :
    F.node S.points (S.points.idxOf (F.reduce x)) = (x : F.Residue) := by
  rw [Field.node, List.getD_eq_getElem _ _ (List.idxOf_lt_length_of_mem mem),
    List.getElem_idxOf, F.cast_reduce]

/-- The distances from `x` to all points. -/
theorem prod_distances (x : Nat) (points : List Nat) :
    (((points.map (F.sub (F.reduce x))).map (Nat.cast : Nat → F.Residue)).prod) =
      (F.vanishing points).eval (x : F.Residue) := by
  rw [Field.vanishing, Polynomial.eval_list_prod, List.map_map, List.map_map]
  congr 1
  exact List.map_congr_left fun p _ => by simp

/-- For each point, the product of the distances from `x` to all others. -/
def others (F : Field) (x : Nat) (points : List Nat) : List Nat :=
  List.zipWith F.mul (productsBefore F 1 (points.map (F.sub (F.reduce x))))
    (productsAfter F (points.map (F.sub (F.reduce x))))

theorem length_others (x : Nat) (points : List Nat) :
    (others F x points).length = points.length := by
  rw [others, List.length_zipWith, length_productsBefore, length_productsAfter, List.length_map,
    min_self]

theorem others_mul (x : Nat) (points : List Nat) {i : Nat} (hi : i < points.length) :
    (((others F x points).getD i 0 : Nat) : F.Residue) * (x - F.node points i) =
      (F.vanishing points).eval (x : F.Residue) := by
  rw [← prod_distances, others]
  generalize length : points.map (F.sub (F.reduce x)) = distances
  have hd : i < distances.length := by rwa [← length, List.length_map]
  have distance : ((distances.getD i 0 : Nat) : F.Residue) = x - F.node points i := by
    rw [← length, List.getD_eq_getElem _ _ (by rwa [List.length_map]), List.getElem_map,
      F.cast_sub, F.cast_reduce, Field.node, List.getD_eq_getElem _ _ hi]
  have products := products_mul (F := F) 1 distances hd
  have hb : i < (productsBefore F 1 distances).length := by rwa [length_productsBefore]
  have ha : i < (productsAfter F distances).length := by rwa [length_productsAfter]
  rw [distance, Nat.cast_one, one_mul, List.getD_eq_getElem _ _ hb,
    List.getD_eq_getElem _ _ ha] at products
  rw [List.getD_eq_getElem _ _ (by rw [List.length_zipWith]; exact lt_min hb ha),
    List.getElem_zipWith, F.cast_mul, products]

theorem weights_of_miss {x : Nat} (miss : F.reduce x ∉ S.points) :
    (ofPoint F S x).weights = List.zipWith F.mul S.weights (others F x S.points) := by
  rw [ofPoint, if_neg (by simpa using miss), others]

variable [Fact F.modulus.Prime]

theorem cast_weight_of_miss (hS : S.Valid F) {x : Nat} (miss : F.reduce x ∉ S.points) {i : Nat}
    (hi : i < S.points.length) :
    (((ofPoint F S x).weights.getD i 0 : Nat) : F.Residue) =
      (Lagrange.basis (Finset.range S.points.length) (F.node S.points) i).eval
        (x : F.Residue) := by
  have mem := Finset.mem_range.2 hi
  have apart : (x : F.Residue) ≠ F.node S.points i := by
    rw [← F.cast_reduce, Field.node, List.getD_eq_getElem _ _ hi, Ne,
      F.cast_inj (F.reduce_lt x) (hS.canonical _ (List.getElem_mem hi))]
    exact fun eq => miss (eq ▸ List.getElem_mem hi)
  have distances := (eq_mul_inv_iff_mul_eq₀ (sub_ne_zero_of_ne apart)).2 (others_mul x S.points hi)
  have hw : i < S.weights.length := by rwa [hS.length_weights]
  have ho : i < (others F x S.points).length := by rwa [length_others]
  have weight := hS.cast_weight i hi
  rw [List.getD_eq_getElem _ _ hw] at weight
  rw [List.getD_eq_getElem _ _ ho] at distances
  rw [Lagrange.eval_basis_not_at_node mem apart, Lagrange.nodalWeight_eq_eval_derivative_nodal mem,
    ← F.vanishing_eq_nodal, ← weight, weights_of_miss miss,
    List.getD_eq_getElem _ _ (by rw [List.length_zipWith]; exact lt_min hw ho),
    List.getElem_zipWith, F.cast_mul, distances]
  ring

theorem cast_weight (hS : S.Valid F) (x : Nat) {i : Nat} (hi : i < S.points.length) :
    (((ofPoint F S x).weights.getD i 0 : Nat) : F.Residue) =
      (Lagrange.basis (Finset.range S.points.length) (F.node S.points) i).eval
        (x : F.Residue) := by
  by_cases hit : F.reduce x ∈ S.points
  · have mem := Finset.mem_range.2 hi
    have inj := F.node_injOn hS.canonical hS.distinct
    have found := Finset.mem_range.2 (List.idxOf_lt_length_of_mem hit)
    simp only [ofPoint, List.contains_iff_mem, hit, if_true]
    rw [← node_idxOf hit]
    obtain rfl | ne := eq_or_ne i (S.points.idxOf (F.reduce x))
    · rw [Lagrange.eval_basis_self inj mem]
      simp [hi]
    · rw [Lagrange.eval_basis_of_ne ne found]
      simp [hi, ne]
  · exact cast_weight_of_miss hS hit hi

/-- The combination of values with the weights. -/
def value (F : Field) (W : PointWeights) (values : List Nat) : Nat :=
  F.sum (List.zipWith F.mul values W.weights)

omit [Fact F.modulus.Prime] in
theorem value_lt (W : PointWeights) (values : List Nat) : W.value F values < F.modulus :=
  F.sum_lt _

omit [Fact F.modulus.Prime] in
theorem evaluate_eq_ok_iff {W : PointWeights} {values : List Nat} {v : Nat} :
    W.evaluate F values = .ok v ↔ values.length = W.weights.length ∧ W.value F values = v := by
  unfold evaluate
  split
  · rename_i same
    simp [size, value, same]
  · rename_i other
    constructor
    · rintro ⟨⟩
    · rintro ⟨same, -⟩
      exact absurd same other

omit [Fact F.modulus.Prime] in
theorem evaluate_eq_ok (weights : S.weights.length = S.points.length) (x : Nat)
    {values : List Nat} (length : values.length = S.points.length) :
    (ofPoint F S x).evaluate F values = .ok ((ofPoint F S x).value F values) :=
  evaluate_eq_ok_iff.2 ⟨length.trans (length_weights weights x).symm, rfl⟩

/-- Values at all points of a set give the value of their interpolant. -/
theorem cast_value (hS : S.Valid F) (x : Nat) {values : List Nat}
    (length : values.length = S.points.length) :
    (((ofPoint F S x).value F values : Nat) : F.Residue) =
      (S.interpolant F values).eval (x : F.Residue) := by
  rw [value, F.cast_sum_zipWith_mul (by rw [length, length_weights hS.length_weights]),
    PointSet.interpolant, Lagrange.interpolate_apply, Polynomial.eval_finsetSum, length]
  refine Finset.sum_congr rfl fun i hi => ?_
  rw [Polynomial.eval_mul, Polynomial.eval_C, cast_weight hS x (Finset.mem_range.1 hi)]

end PointWeights

end PrivateSums
