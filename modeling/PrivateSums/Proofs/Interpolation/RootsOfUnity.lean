import PrivateSums.Proofs.Interpolation.Combination

/-!
Interpolation through roots of unity. The transform and the product tree answer the same polynomial,
and the weights of an argument the values that the transform answers at the roots of twice the
order.
-/

open scoped Polynomial

namespace PrivateSums

variable {F : Field}

/-- What a list of roots gives when it is reduced and cut off. -/
theorem Field.Lists.points {w : F.Residue} {k n : Nat} {roots : List Nat}
    (h : F.Lists w k roots) (hn : n ≤ 2 ^ k) :
    (roots.take n).map F.reduce = roots.take n ∧ (roots.take n).length = n ∧
      ∀ i < n, F.node (roots.take n) i = w ^ i := by
  refine ⟨?_, by rw [List.length_take, h.length_eq, min_eq_left hn], fun i hi => ?_⟩
  · rw [List.map_congr_left (g := id), List.map_id]
    exact fun v hv => F.reduce_of_lt (h.lt v (List.mem_of_mem_take hv))
  · have hr : i < roots.length := by rw [h.length_eq]; omega
    rw [Field.node, List.getD_eq_getElem?_getD, List.getElem?_take_of_lt hi,
      List.getElem?_eq_getElem hr, Option.getD_some, h.getElem]

/-- The first powers of a primitive root are distinct points. -/
theorem PointSet.ofPoints_roots [Fact F.modulus.Prime] {w : F.Residue} {k n : Nat}
    {roots : List Nat} (lists : F.Lists w k roots) (hw : IsPrimitiveRoot w (2 ^ k : Nat))
    (pos : 0 < n) (hn : n ≤ 2 ^ k) :
    ∃ S, ofPoints F (roots.take n) = .ok S ∧ S.Valid F ∧ S.points.length = n ∧
      ∀ i < n, F.node S.points i = w ^ i := by
  obtain ⟨reduced, length, powers⟩ := lists.points hn
  have distinct : ((roots.take n).map F.reduce).Nodup := by
    rw [reduced, List.nodup_iff_injective_get]
    intro i j eq
    have hi : i.1 < n := i.2.trans_eq length
    have hj : j.1 < n := j.2.trans_eq length
    have same : F.node (roots.take n) i = F.node (roots.take n) j := by
      rw [Field.node, Field.node, List.getD_eq_getElem _ _ i.2, List.getD_eq_getElem _ _ j.2]
      exact congrArg _ eq
    rw [powers i hi, powers j hj] at same
    exact Fin.ext (hw.pow_inj (hi.trans_le hn) (hj.trans_le hn) same)
  have nonempty : roots.take n ≠ [] := List.ne_nil_of_length_pos (by rw [length]; exact pos)
  obtain ⟨S, ok, eq, valid⟩ := ofPoints_eq_ok nonempty distinct
  rw [reduced] at eq
  exact ⟨S, ok, valid, by rw [eq, length], by rw [eq]; exact powers⟩

namespace PointSet

variable [Fact F.modulus.Prime] {k : Nat}

/-- The point set of the roots of an order that the field has. -/
theorem onRoots_eq_ok (h : k ≤ F.twoOrder) : ∃ roots S, F.roots (2 ^ k) = .ok roots ∧
    onRoots F (2 ^ k) = .ok S ∧ S.MadeOf F roots ∧ S.Valid F ∧ S.points.length = 2 ^ k ∧
      ∀ i < 2 ^ k, F.node S.points i = F.root k ^ i := by
  obtain ⟨roots, found, lists⟩ := F.roots_two_pow h
  obtain ⟨S, ok, valid, length, node⟩ :=
    ofPoints_roots lists (F.isPrimitiveRoot_root h) (Nat.two_pow_pos k) le_rfl
  rw [List.take_of_length_le lists.length_eq.le] at ok
  refine ⟨roots, S, found, ?_, madeOf_of_ofPoints ok, valid, length, node⟩
  rw [onRoots, found, Answer.mapError_ok, Answer.ok_bind, ok]

/-- Among the roots of twice the order, the even ones are those of the order. -/
theorem mem_points_iff_even (order : k + 1 ≤ F.twoOrder) {S : PointSet} (hS : S.Valid F)
    (length : S.points.length = 2 ^ k) (node : ∀ i < 2 ^ k, F.node S.points i = F.root k ^ i)
    {x j : Nat} (hx : x < F.modulus) (root : (x : F.Residue) = F.root (k + 1) ^ j)
    (hj : j < 2 ^ (k + 1)) : x ∈ S.points ↔ Even j := by
  have found {i : Nat} (hi : i < 2 ^ k) : F.node S.points i = (x : F.Residue) ↔ 2 * i = j := by
    rw [node i hi, ← F.root_double order, root]
    refine ⟨(F.isPrimitiveRoot_root order).pow_inj ?_ hj, fun eq => by rw [eq]⟩
    rw [Nat.pow_succ]
    omega
  constructor
  · intro mem
    obtain ⟨i, hi, rfl⟩ := List.mem_iff_getElem.1 mem
    have index := (found (length ▸ hi)).1 (by rw [Field.node, List.getD_eq_getElem _ _ hi])
    exact ⟨i, by omega⟩
  · rintro ⟨i, rfl⟩
    have hi : i < 2 ^ k := by
      rw [Nat.pow_succ] at hj
      omega
    have same := (found hi).2 (two_mul i)
    have hp : i < S.points.length := by rwa [length]
    rw [Field.node, List.getD_eq_getElem _ _ hp,
      F.cast_inj (hS.canonical _ (List.getElem_mem hp)) hx] at same
    exact same ▸ List.getElem_mem hp

/-- Any values at the roots of an order: the product tree answers the polynomial of the transform
without its leading zeros, and bound to a root of twice the order, on the grid or off it, the point
set answers the value there that the transform does. -/
theorem agrees_onRoots {n : Nat} (two : isTwoPower n) (fits : 2 * n ≤ 2 ^ F.twoOrder)
    {values : List Nat} (length : values.length = n) :
    ∃ (S : PointSet) (coefficients roots extended : List Nat), onRoots F n = .ok S ∧
      Transform.interpolateOnRoots F values = .ok coefficients ∧
      S.interpolate F values = .ok (Polynomial.trim ⟨coefficients⟩) ∧
      F.roots (2 * n) = .ok roots ∧ roots.length = 2 * n ∧
      Transform.evaluateOnRoots F coefficients (2 * n) = .ok extended ∧ extended.length = 2 * n ∧
      ∀ j < 2 * n, (PointWeights.ofPoint F S (roots.getD j 0)).evaluate F values =
          .ok (extended.getD j 0) ∧
        (roots.getD j 0 ∈ S.points ↔ Even j) := by
  obtain ⟨k, rfl⟩ := isTwoPower_iff.1 two
  rw [← Nat.pow_succ'] at fits ⊢
  have order : k + 1 ≤ F.twoOrder := (Nat.pow_le_pow_iff_right (le_refl 2)).1 fits
  have low := Nat.le_of_succ_le order
  obtain ⟨grid, S, -, ok, made, valid, points, node⟩ := onRoots_eq_ok (F := F) low
  have lengthS : values.length = S.points.length := length.trans points.symm
  obtain ⟨coefficients, transformed, lengthC, canonical, evals⟩ :=
    Transform.interpolateOnRoots_eq_ok F low length
  obtain ⟨roots, found, lists⟩ := F.roots_two_pow order
  obtain ⟨extended, evaluated, lengthE, evals'⟩ := Transform.evaluateOnRoots_eq_ok F order
    (lengthC.trans_le (Nat.pow_le_pow_right Nat.two_pos (Nat.le_succ k)))
  have same : F.polynomial coefficients = S.interpolant F values := by
    refine eq_interpolant valid ?_ fun i hi => ?_
    · rw [points, ← lengthC]
      exact F.degree_polynomial_lt coefficients
    · rw [node i (points ▸ hi), evals i (points ▸ hi)]
  obtain ⟨P, interpolated, lengthP, canonical', eq⟩ := interpolate_eq_ok made valid lengthS
  obtain rfl : P.coefficients = coefficients := F.polynomial_injective
    (lengthP.trans (points.trans lengthC.symm)) canonical' canonical (eq.trans same.symm)
  refine ⟨S, P.coefficients, roots, extended, ok, transformed, interpolated, found,
    lists.length_eq, evaluated, lengthE, fun j hj => ?_⟩
  have hR : j < roots.length := by rwa [lists.length_eq]
  have hE : j < extended.length := by rwa [lengthE]
  have root : ((roots.getD j 0 : Nat) : F.Residue) = F.root (k + 1) ^ j := by
    rw [List.getD_eq_getElem _ _ hR, Field.Lists.getElem F lists hR]
  have lt : extended.getD j 0 < F.modulus := by
    rw [List.getD_eq_getElem _ _ hE]
    exact Transform.evaluateOnRoots_lt F canonical evaluated _ (List.getElem_mem hE)
  constructor
  · rw [PointWeights.evaluate_eq_ok valid.length_weights _ lengthS, Except.ok.injEq,
      ← F.cast_inj (PointWeights.value_lt _ _) lt, PointWeights.cast_value valid _ lengthS, root,
      ← same, evals' j hj]
  · refine mem_points_iff_even order valid points node ?_ root hj
    rw [List.getD_eq_getElem _ _ hR]
    exact lists.lt _ (List.getElem_mem hR)

/-- Four values, one of them beyond the modulus, at the second of eight roots, which is off the
grid, and at the third, which is on it. Four equal values, whose transform ends with zeros. -/
theorem agrees_onRoots_seventeen : ∃ S : PointSet, onRoots .seventeen 4 = .ok S ∧
    S.interpolate .seventeen [3, 20, 5, 1] = .ok ⟨[3, 10, 1, 6]⟩ ∧ 9 ∉ S.points ∧
    (PointWeights.ofPoint .seventeen S 9).evaluate .seventeen [3, 20, 5, 1] = .ok 9 ∧
    13 ∈ S.points ∧
    (PointWeights.ofPoint .seventeen S 13).evaluate .seventeen [3, 20, 5, 1] = .ok 3 ∧
    Transform.interpolateOnRoots .seventeen [5, 5, 5, 5] = .ok [5, 0, 0, 0] ∧
    S.interpolate .seventeen [5, 5, 5, 5] = .ok ⟨[5]⟩ ∧
    (PointWeights.ofPoint .seventeen S 9).evaluate .seventeen [5, 5, 5, 5] = .ok 5 := by
  have two : isTwoPower 4 := by decide
  have fits : 2 * 4 ≤ 2 ^ Field.seventeen.twoOrder := by decide
  have length : [3, 20, 5, 1].length = 4 := rfl
  have length' : [5, 5, 5, 5].length = 4 := rfl
  obtain ⟨S, coefficients, roots, extended, ok, transformed, interpolated, found, -, evaluated, -,
    agrees⟩ := agrees_onRoots (F := .seventeen) two fits length
  obtain ⟨S', constant, roots', extended', ok', transformed', interpolated', found', -, evaluated',
    -, agrees'⟩ := agrees_onRoots (F := .seventeen) two fits length'
  obtain rfl : S = S' := Except.ok.inj (ok.symm.trans ok')
  obtain rfl : [3, 10, 1, 6] = coefficients :=
    Except.ok.inj (.trans (by decide +kernel) transformed)
  obtain rfl : [5, 0, 0, 0] = constant :=
    Except.ok.inj (.trans (by decide +kernel) transformed')
  obtain rfl : [1, 9, 13, 15, 16, 8, 4, 2] = roots :=
    Except.ok.inj (.trans (by decide +kernel) found)
  obtain rfl : [1, 9, 13, 15, 16, 8, 4, 2] = roots' := Except.ok.inj (found.symm.trans found')
  obtain rfl : [3, 9, 3, 7, 5, 6, 1, 7] = extended :=
    Except.ok.inj (.trans (by decide +kernel) evaluated)
  obtain rfl : [5, 5, 5, 5, 5, 5, 5, 5] = extended' :=
    Except.ok.inj (.trans (by decide +kernel) evaluated')
  obtain ⟨odd, off⟩ := agrees 1 (by decide)
  obtain ⟨even, on⟩ := agrees 2 (by decide)
  exact ⟨S, ok, interpolated, fun mem => absurd (off.1 mem) (by decide), odd, on.2 (by decide),
    even, transformed', interpolated', (agrees' 1 (by decide)).1⟩

end PointSet

end PrivateSums
