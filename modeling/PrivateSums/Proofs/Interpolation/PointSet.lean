import Mathlib.LinearAlgebra.Lagrange
import PrivateSums.Interpolation.PointSet
import PrivateSums.Proofs.Polynomial.Division

/-!
Point sets. A list of distinct points always has one, and its weights are the barycentric weights
of the points.
-/

open scoped Polynomial

namespace PrivateSums

namespace Field

variable (F : Field)

/-- The product of all `x - point`. -/
noncomputable def vanishing (points : List Nat) : F.Residue[X] :=
  (points.map fun point : Nat => Polynomial.X - Polynomial.C (point : F.Residue)).prod

theorem vanishing_append (ps qs : List Nat) :
    F.vanishing (ps ++ qs) = F.vanishing ps * F.vanishing qs := by
  rw [vanishing, List.map_append, List.prod_append, vanishing, vanishing]

theorem eval_vanishing [Fact F.modulus.Prime] {points : List Nat} {point : Nat}
    (h : point ∈ points) : (F.vanishing points).eval (point : F.Residue) = 0 := by
  rw [vanishing, Polynomial.eval_list_prod, List.prod_eq_zero_iff]
  refine List.mem_map.2 ⟨_, List.mem_map.2 ⟨point, h, rfl⟩, by simp⟩

theorem vanishing_ne_zero [Fact F.modulus.Prime] (points : List Nat) :
    F.vanishing points ≠ 0 := by
  rw [vanishing, Ne, List.prod_eq_zero_iff]
  intro zero
  obtain ⟨point, -, h⟩ := List.mem_map.1 zero
  exact Polynomial.X_sub_C_ne_zero _ h

/-- The residue of the point with this number. -/
def node (points : List Nat) (i : Nat) : F.Residue := (points.getD i 0 : Nat)

theorem vanishing_eq_nodal (points : List Nat) :
    F.vanishing points = Lagrange.nodal (Finset.range points.length) (F.node points) := by
  rw [Lagrange.nodal_eq, Finset.prod_range, vanishing, ← List.prod_ofFn]
  congr 1
  apply List.ext_getElem (by simp)
  intro i hi hi'
  simp [node]

theorem node_injOn {points : List Nat} (canonical : ∀ p ∈ points, p < F.modulus)
    (distinct : points.Nodup) : Set.InjOn (F.node points) (Finset.range points.length) := by
  intro i hi j hj eq
  rw [Finset.mem_coe, Finset.mem_range] at hi hj
  rw [node, node, List.getD_eq_getElem _ _ hi, List.getD_eq_getElem _ _ hj,
    F.cast_inj (canonical _ (List.getElem_mem hi)) (canonical _ (List.getElem_mem hj))] at eq
  exact (List.Nodup.getElem_inj_iff distinct).1 eq

end Field

namespace ProductTree

variable {F : Field}

theorem size_ofPoints (points : List Nat) : (ofPoints F points).size = points.length := by
  fun_induction ofPoints F points with
  | case1 => rfl
  | case2 point => rfl
  | case3 p q rest ihl ihr => rw [size, ihl, ihr, ← List.length_append, List.take_append_drop]

theorem length_evaluate {T : ProductTree} {P : Polynomial} {values : List Nat}
    (h : T.evaluate F P = .ok values) : values.length = T.size := by
  induction T generalizing P values with
  | empty =>
    obtain rfl := Except.ok.inj h
    rfl
  | leaf =>
    obtain rfl := Except.ok.inj h
    rfl
  | node product left right ihl ihr =>
    obtain ⟨⟨_, remainder⟩, -, h⟩ := Answer.bind_eq_ok.1 h
    obtain ⟨lows, low, h⟩ := Answer.bind_eq_ok.1 h
    obtain ⟨highs, high, h⟩ := Answer.bind_eq_ok.1 h
    obtain rfl := Except.ok.inj h
    rw [List.length_append, ihl low, ihr high, size]

variable [Fact F.modulus.Prime]

theorem polynomial_product (points : List Nat) :
    F.polynomial (ofPoints F points).product.coefficients = F.vanishing points := by
  fun_induction ofPoints F points with
  | case1 => simp [product, Polynomial.constant, F.polynomial_cons, Field.vanishing]
  | case2 point =>
    simp [product, Polynomial.linear, F.polynomial_cons, Field.vanishing]
    ring
  | case3 p q rest ihl ihr =>
    rw [product, Polynomial.polynomial_mul, ihl, ihr, ← F.vanishing_append, List.take_append_drop]

/-- At the points of a product, a polynomial and its remainder agree. -/
theorem evaluate_eq_of_remainder {P Q R : Polynomial} {points : List Nat}
    (h : F.polynomial P.coefficients =
      F.polynomial Q.coefficients * F.vanishing points + F.polynomial R.coefficients)
    {point : Nat} (mem : point ∈ points) : R.evaluate F point = P.evaluate F point := by
  rw [← F.cast_inj (Polynomial.evaluate_lt F R point) (Polynomial.evaluate_lt F P point),
    Polynomial.cast_evaluate, Polynomial.cast_evaluate, h, Polynomial.eval_add,
    Polynomial.eval_mul, F.eval_vanishing mem, mul_zero, zero_add]

theorem evaluate_ofPoints (P : Polynomial) (points : List Nat) :
    (ofPoints F points).evaluate F P = .ok (points.map (P.evaluate F)) := by
  fun_induction ofPoints F points generalizing P with
  | case1 => rfl
  | case2 point => rfl
  | case3 p q rest ihl ihr =>
    generalize hl : (p :: q :: rest).take ((p :: q :: rest).length / 2) = l at ihl
    generalize hr : (p :: q :: rest).drop ((p :: q :: rest).length / 2) = r at ihr
    have eq : p :: q :: rest = l ++ r := by rw [← hl, ← hr, List.take_append_drop]
    have whole : F.polynomial ((ofPoints F l).product.mul F (ofPoints F r).product).coefficients =
        F.vanishing (p :: q :: rest) := by
      rw [Polynomial.polynomial_mul, polynomial_product, polynomial_product, eq,
        F.vanishing_append]
    obtain ⟨Q, R, div, sum⟩ := P.divRem_eq_ok (Polynomial.mul_lt _ _)
      (by rw [whole]; exact F.vanishing_ne_zero _)
    rw [whole] at sum
    have agree {points : List Nat} (sub : points ⊆ p :: q :: rest) :
        points.map (R.evaluate F) = points.map (P.evaluate F) :=
      List.map_congr_left fun point mem => evaluate_eq_of_remainder sum (sub mem)
    dsimp only
    rw [evaluate, div, Answer.ok_bind]
    dsimp only
    rw [ihl, Answer.ok_bind, ihr, Answer.ok_bind, Answer.pure_eq, agree (by simp [eq]),
      agree (by simp [eq]), eq, List.map_append]

end ProductTree

namespace PointSet

theorem go_eq_none {seen points : List Nat} (distinct : points.Nodup)
    (fresh : ∀ p ∈ points, p ∉ seen) : firstRepeat?.go seen points = none := by
  induction points generalizing seen with
  | nil => rfl
  | cons p points ih =>
    obtain ⟨new, distinct⟩ := List.nodup_cons.1 distinct
    have unseen : seen.contains p = false := by simpa using fresh p List.mem_cons_self
    rw [firstRepeat?.go, unseen]
    refine ih distinct fun q hq => List.not_mem_cons_of_ne_of_not_mem ?_ ?_
    · rintro rfl
      exact new hq
    · exact fresh q (List.mem_cons_of_mem _ hq)

/-- Distinct points with their barycentric weights. -/
structure Valid (F : Field) (S : PointSet) : Prop where
  canonical : ∀ p ∈ S.points, p < F.modulus
  distinct : S.points.Nodup
  length_weights : S.weights.length = S.points.length
  cast_weight : ∀ i < S.points.length, ((S.weights.getD i 0 : Nat) : F.Residue) =
    (((F.vanishing S.points).derivative).eval (F.node S.points i))⁻¹

variable {F : Field}

/-- What a point set is made of. -/
structure MadeOf (F : Field) (points : List Nat) (S : PointSet) : Prop where
  nonempty : points ≠ []
  points_eq : S.points = points.map F.reduce
  tree_eq : S.tree = .ofPoints F S.points
  length_weights : S.weights.length = S.points.length

theorem MadeOf.length_points {points : List Nat} {S : PointSet} (h : S.MadeOf F points) :
    S.points.length = points.length := by
  rw [h.points_eq, List.length_map]

/-- A point set has all points that it is made of, and a weight for each. -/
theorem madeOf_of_ofPoints {points : List Nat} {S : PointSet} (h : ofPoints F points = .ok S) :
    S.MadeOf F points := by
  unfold ofPoints at h
  split at h
  · cases h
  rename_i nonempty
  dsimp only at h
  split at h
  · cases h
  obtain ⟨slopes, evaluated, h⟩ := Answer.bind_eq_ok.1 h
  obtain ⟨weights, inverted, h⟩ := Answer.bind_eq_ok.1 h
  obtain rfl := Except.ok.inj h
  refine ⟨fun empty => nonempty (by rw [empty]; rfl), rfl, rfl, ?_⟩
  rw [(Answer.mapM_getElem (Answer.mapError_eq_ok.1 inverted)).1,
    ProductTree.length_evaluate evaluated, ProductTree.size_ofPoints]

variable [Fact F.modulus.Prime]

theorem slope_ne_zero {points : List Nat} (canonical : ∀ p ∈ points, p < F.modulus)
    (distinct : points.Nodup) {i : Nat} (hi : i < points.length) :
    ((F.vanishing points).derivative).eval (F.node points i) ≠ 0 := by
  have mem := Finset.mem_range.2 hi
  rw [F.vanishing_eq_nodal]
  intro zero
  refine Lagrange.nodalWeight_ne_zero (F.node_injOn canonical distinct) mem ?_
  rw [Lagrange.nodalWeight_eq_eval_derivative_nodal mem, zero, inv_zero]

/-- Every list of distinct residues has its point set. -/
theorem ofPoints_eq_ok {points : List Nat} (nonempty : points ≠ [])
    (distinct : (points.map F.reduce).Nodup) :
    ∃ S, ofPoints F points = .ok S ∧ S.points = points.map F.reduce ∧ S.Valid F := by
  have canonical : ∀ p ∈ points.map F.reduce, p < F.modulus := by
    intro p hp
    obtain ⟨a, -, rfl⟩ := List.mem_map.1 hp
    exact F.reduce_lt a
  have fresh : firstRepeat? (points.map F.reduce) = none := go_eq_none distinct (by simp)
  have unfolded : ofPoints F points = do
      let slopes ← (ProductTree.ofPoints F (points.map F.reduce)).evaluate F
        ((ProductTree.ofPoints F (points.map F.reduce)).product.derivative F)
      let weights ← (slopes.mapM F.inv).mapError .field
      return ⟨points.map F.reduce, .ofPoints F (points.map F.reduce), weights⟩ := by
    simp [ofPoints, nonempty, fresh]
  rw [unfolded, ProductTree.evaluate_ofPoints, Answer.ok_bind]
  clear unfolded
  generalize points.map F.reduce = nodes at *
  let slope := ((ProductTree.ofPoints F nodes).product.derivative F).evaluate F
  have cast_slope (i : Nat) (hi : i < nodes.length) : ((slope nodes[i] : Nat) : F.Residue) =
      ((F.vanishing nodes).derivative).eval (F.node nodes i) := by
    rw [Polynomial.cast_evaluate, Polynomial.polynomial_derivative, ProductTree.polynomial_product,
      Field.node, List.getD_eq_getElem _ _ hi]
  obtain ⟨weights, inverted⟩ : ∃ weights, (nodes.map slope).mapM F.inv = .ok weights := by
    refine Answer.exists_mapM_eq_ok fun s hs => ?_
    obtain ⟨p, hp, rfl⟩ := List.mem_map.1 hs
    obtain ⟨i, hi, rfl⟩ := List.mem_iff_getElem.1 hp
    obtain ⟨b, hb, -⟩ := F.inv_eq_ok <| by
      rw [cast_slope i hi]
      exact slope_ne_zero canonical distinct hi
    exact ⟨b, hb⟩
  obtain ⟨length, each⟩ := Answer.mapM_getElem inverted
  rw [List.length_map] at length
  refine ⟨⟨nodes, .ofPoints F nodes, weights⟩, ?_, rfl, canonical, distinct, length, ?_⟩
  · rw [inverted]
    rfl
  · intro i hi
    have := each i (by rwa [List.length_map]) (by rwa [length])
    rw [List.getElem_map] at this
    rw [List.getD_eq_getElem _ _ (by rwa [length]), (F.cast_of_inv this).2, cast_slope i hi]

end PointSet

end PrivateSums
