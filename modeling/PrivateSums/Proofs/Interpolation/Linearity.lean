import PrivateSums.Proofs.Interpolation.Inverse

/-!
The value at an argument. On the points and off them, the weights of an argument answer the value
there of the polynomial that interpolation answers, and the answer is linear in the values.
-/

namespace PrivateSums

variable {F : Field}

namespace PointWeights

section Combination

variable {W : PointWeights} {as bs cs : List Nat}

/-- Entries that are combinations of those of two lists combine their values. -/
theorem cast_value_combination {c d : F.Residue} (ha : as.length = W.weights.length)
    (hb : bs.length = W.weights.length) (hc : cs.length = W.weights.length)
    (each : ∀ i < W.weights.length, ((as.getD i 0 : Nat) : F.Residue) =
      c * (bs.getD i 0 : Nat) + d * (cs.getD i 0 : Nat)) :
    ((W.value F as : Nat) : F.Residue) = c * (W.value F bs : Nat) + d * (W.value F cs : Nat) := by
  rw [value, F.cast_sum_zipWith_mul ha, value, F.cast_sum_zipWith_mul hb, value,
    F.cast_sum_zipWith_mul hc, ha, hb, hc, Finset.mul_sum, Finset.mul_sum,
    ← Finset.sum_add_distrib]
  refine Finset.sum_congr rfl fun i hi => ?_
  rw [each i (Finset.mem_range.1 hi)]
  ring

/-- An entry before and after the reduction of its list. -/
theorem cast_getD_of_map_reduce (reduced : as.map F.reduce = bs) (i : Nat) :
    ((as.getD i 0 : Nat) : F.Residue) = (bs.getD i 0 : Nat) := by
  subst reduced
  obtain lt | ge := Nat.lt_or_ge i as.length
  · rw [List.getD_eq_getElem _ _ lt, List.getD_eq_getElem _ _ (by rwa [List.length_map]),
      List.getElem_map, F.cast_reduce]
  · rw [List.getD_eq_default _ _ ge, List.getD_eq_default _ _ (by rwa [List.length_map])]

theorem evaluate_add {v w : Nat} (hv : W.evaluate F bs = .ok v) (hw : W.evaluate F cs = .ok w)
    (sums : as.map F.reduce = List.zipWith F.add bs cs) :
    W.evaluate F as = .ok (F.add v w) := by
  obtain ⟨hb, rfl⟩ := evaluate_eq_ok_iff.1 hv
  obtain ⟨hc, rfl⟩ := evaluate_eq_ok_iff.1 hw
  have ha : as.length = W.weights.length := by
    rw [← List.length_map F.reduce, sums, List.length_zipWith, hb, hc, min_self]
  have entry (i : Nat) (hi : i < W.weights.length) : ((as.getD i 0 : Nat) : F.Residue) =
      1 * (bs.getD i 0 : Nat) + 1 * (cs.getD i 0 : Nat) := by
    rw [cast_getD_of_map_reduce sums, List.getD_eq_getElem _ _ (by simp [hb, hc, hi]),
      List.getElem_zipWith, F.cast_add, List.getD_eq_getElem _ _ (hb ▸ hi),
      List.getD_eq_getElem _ _ (hc ▸ hi), one_mul, one_mul]
  refine evaluate_eq_ok_iff.2 ⟨ha, (F.cast_inj (value_lt _ _) (F.add_lt _ _)).1 ?_⟩
  rw [cast_value_combination ha hb hc entry, F.cast_add, one_mul, one_mul]

theorem evaluate_mul {c v : Nat} (hv : W.evaluate F bs = .ok v)
    (multiples : as.map F.reduce = bs.map (F.mul c)) :
    W.evaluate F as = .ok (F.mul c v) := by
  obtain ⟨hb, rfl⟩ := evaluate_eq_ok_iff.1 hv
  have ha : as.length = W.weights.length := by
    rw [← List.length_map F.reduce, multiples, List.length_map, hb]
  have entry (i : Nat) (hi : i < W.weights.length) : ((as.getD i 0 : Nat) : F.Residue) =
      c * (bs.getD i 0 : Nat) + 0 * (bs.getD i 0 : Nat) := by
    rw [cast_getD_of_map_reduce multiples, List.getD_eq_getElem _ _ (by simp [hb, hi]),
      List.getElem_map, F.cast_mul, List.getD_eq_getElem _ _ (hb ▸ hi), zero_mul, add_zero]
  refine evaluate_eq_ok_iff.2 ⟨ha, (F.cast_inj (value_lt _ _) (F.mul_lt _ _)).1 ?_⟩
  rw [cast_value_combination ha hb hb entry, F.cast_mul, zero_mul, add_zero]

end Combination

variable [Fact F.modulus.Prime] {S : PointSet} {points values : List Nat}

/-- The weights of an argument and the interpolant answer one value. -/
theorem evaluate_eq_evaluate (made : S.MadeOf F points) (hS : S.Valid F) (x : Nat)
    (length : values.length = points.length) : ∃ P, S.interpolate F values = .ok P ∧
      (ofPoint F S x).evaluate F values = .ok (P.evaluate F x) := by
  have lengthS : values.length = S.points.length := length.trans made.length_points.symm
  obtain ⟨P, ok, -, -, eq⟩ := PointSet.interpolate_eq_ok made hS lengthS
  refine ⟨P.trim, ok, ?_⟩
  rw [evaluate_eq_ok hS.length_weights x lengthS, Except.ok.injEq,
    ← F.cast_inj (value_lt _ _) (Polynomial.evaluate_lt F _ x), cast_value hS x lengthS,
    Polynomial.cast_evaluate, Polynomial.polynomial_trim, eq]

/-- Whatever the argument, the weights answer the value of the interpolant there, and sums and
multiples of the values modulo the modulus sums and multiples of the answers. -/
theorem weighs_ofPoint (made : PointSet.ofPoints F points = .ok S) (x : Nat) :
    let W := ofPoint F S x
    (∀ values, values.length = points.length → ∃ P, S.interpolate F values = .ok P ∧
      W.evaluate F values = .ok (P.evaluate F x)) ∧
    (∀ values others v w, W.evaluate F values = .ok v → W.evaluate F others = .ok w →
      ∀ sums, sums.map F.reduce = List.zipWith F.add values others →
        W.evaluate F sums = .ok (F.add v w)) ∧
    ∀ c values v, W.evaluate F values = .ok v →
      ∀ multiples, multiples.map F.reduce = values.map (F.mul c) →
        W.evaluate F multiples = .ok (F.mul c v) := by
  refine ⟨fun values length => ?_, fun _ _ _ _ hv hw _ sums => evaluate_add hv hw sums,
    fun _ _ _ hv _ multiples => evaluate_mul hv multiples⟩
  exact evaluate_eq_evaluate (PointSet.madeOf_of_ofPoints made) (PointSet.valid_of_ofPoints made)
    x length

/-- Bound to the second of three points, given beyond the modulus, and to an argument off them:
the values of `2 + x`, their sum with those of `x ^ 2`, and a multiple. -/
theorem weighs_ofPoint_seventeen : ∃ S, PointSet.ofPoints .seventeen [3, 5, 21] = .ok S ∧
    (ofPoint .seventeen S 22).evaluate .seventeen [5, 7, 6] = .ok 7 ∧
    (ofPoint .seventeen S 2).evaluate .seventeen [5, 7, 6] = .ok 4 ∧
    (ofPoint .seventeen S 2).evaluate .seventeen [14, 32, 22] = .ok 8 ∧
    (ofPoint .seventeen S 2).evaluate .seventeen [15, 21, 18] = .ok 12 := by
  obtain ⟨S, ok⟩ : ∃ S, PointSet.ofPoints .seventeen [3, 5, 21] = .ok S :=
    PointSet.exists_ofPoints_iff.2 (by decide)
  have made := PointSet.madeOf_of_ofPoints ok
  have valid := PointSet.valid_of_ofPoints ok
  have line : S.interpolate .seventeen [5, 7, 6] = .ok ⟨[2, 1]⟩ :=
    PointSet.interpolate_evaluate made valid (P := ⟨[2, 1]⟩) (by decide) (by decide)
  have square : S.interpolate .seventeen [9, 8, 16] = .ok ⟨[0, 0, 1]⟩ :=
    PointSet.interpolate_evaluate made valid (P := ⟨[0, 0, 1]⟩) (by decide) (by decide)
  obtain ⟨agrees, -, -⟩ := weighs_ofPoint ok 22
  obtain ⟨agrees', adds, scales⟩ := weighs_ofPoint ok 2
  obtain ⟨P, interpolated, on⟩ := agrees [5, 7, 6] rfl
  obtain rfl := Except.ok.inj (line.symm.trans interpolated)
  obtain ⟨P, interpolated, off⟩ := agrees' [5, 7, 6] rfl
  obtain rfl := Except.ok.inj (line.symm.trans interpolated)
  obtain ⟨P, interpolated, off'⟩ := agrees' [9, 8, 16] rfl
  obtain rfl := Except.ok.inj (square.symm.trans interpolated)
  exact ⟨S, ok, on, off, adds _ _ _ _ off off' [14, 32, 22] (by decide),
    scales 3 _ _ off [15, 21, 18] (by decide)⟩

end PointWeights

end PrivateSums
