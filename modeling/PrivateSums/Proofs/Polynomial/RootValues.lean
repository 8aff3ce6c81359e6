import PrivateSums.Proofs.Polynomial.LeadingZeros

/-!
The transform as a table of values. It lists the values of a polynomial at the roots of unity, over
every field, and over a prime field the inverse transform lists the coefficients that go with a
table: the two undo each other.
-/

open scoped Polynomial

namespace PrivateSums

/-- A field whose modulus is no prime, with an element of order four. -/
def Field.sixtyFive : Field where
  modulus := 65
  generator := 8
  twoOrder := 2
  three_le_modulus := by decide
  modulus_odd := by decide
  twoOrder_pos := by decide
  order_dvd := by decide
  generator_lt := by decide
  generator_half := by decide

namespace Transform

variable {F : Field} {k : Nat} {roots : List Nat}

theorem run_eq_map (hk : k ≤ F.twoOrder) (lists : F.Lists (F.root k) k roots)
    {coefficients : List Nat} (length : coefficients.length = 2 ^ k)
    (canonical : ∀ c ∈ coefficients, c < F.modulus) :
    run F coefficients roots = roots.map (Polynomial.evaluate F ⟨coefficients⟩) := by
  have lengthR := length_run F length lists.length_eq
  refine List.ext_getElem (by rw [lengthR, List.length_map, lists.length_eq]) fun j hj hj' => ?_
  have lt : (run F coefficients roots)[j] < F.modulus :=
    levels_lt F canonical _ (List.getElem_mem hj)
  have hR : j < roots.length := by rwa [lists.length_eq, ← lengthR]
  rw [List.getElem_map, ← F.cast_inj lt (Polynomial.evaluate_lt F _ _), Polynomial.cast_evaluate,
    lists.getElem F hR, ← cast_run_root F hk length lists (lengthR ▸ hj),
    List.getD_eq_getElem _ _ hj]

theorem evaluateOnRoots_eq_map (hk : k ≤ F.twoOrder) (found : F.roots (2 ^ k) = .ok roots)
    (lists : F.Lists (F.root k) k roots) {coefficients : List Nat}
    (fits : coefficients.length ≤ 2 ^ k) (canonical : ∀ c ∈ coefficients, c < F.modulus) :
    evaluateOnRoots F coefficients (2 ^ k) =
      .ok (roots.map (Polynomial.evaluate F ⟨coefficients⟩)) := by
  have length := length_padded fits
  have same : F.polynomial (⟨padded (2 ^ k) coefficients⟩ : Polynomial).coefficients =
      F.polynomial (⟨coefficients⟩ : Polynomial).coefficients := F.polynomial_padded _ _
  have table := run_eq_map hk lists length (padded_lt F canonical)
  rw [Polynomial.evaluate_congr same] at table
  rw [evaluateOnRoots, if_pos fits, found]
  simp [forward, length, lists.length_eq, checkDomain_two_pow, table]

/-- The transform of canonical coefficients lists the values of their polynomial at the roots of
unity, in the order of the roots. -/
theorem forward_eq_map {n : Nat} (two : isTwoPower n) (fits : n ≤ 2 ^ F.twoOrder) :
    ∃ roots, F.roots n = .ok roots ∧ roots.length = n ∧
      (∀ coefficients, coefficients.length = n → (∀ c ∈ coefficients, c < F.modulus) →
        forward F coefficients roots =
          .ok (roots.map (Polynomial.evaluate F ⟨coefficients⟩))) ∧
      ∀ coefficients, coefficients.length ≤ n → (∀ c ∈ coefficients, c < F.modulus) →
        evaluateOnRoots F coefficients n =
          .ok (roots.map (Polynomial.evaluate F ⟨coefficients⟩)) := by
  obtain ⟨k, rfl⟩ := isTwoPower_iff.1 two
  have hk : k ≤ F.twoOrder := (Nat.pow_le_pow_iff_right (le_refl 2)).1 fits
  obtain ⟨roots, found, lists⟩ := F.roots_two_pow hk
  refine ⟨roots, found, lists.length_eq, fun coefficients length canonical => ?_,
    fun coefficients short canonical => evaluateOnRoots_eq_map hk found lists short canonical⟩
  rw [forward, length, lists.length_eq, checkDomain_two_pow, run_eq_map hk lists length canonical]
  rfl

theorem forward_eq_map_sixtyFive :
    Field.sixtyFive.roots 4 = .ok [1, 8, 64, 57] ∧
      forward .sixtyFive [3, 64, 5, 20] [1, 8, 64, 57] =
        .ok ([1, 8, 64, 57].map (Polynomial.evaluate .sixtyFive ⟨[3, 64, 5, 20]⟩)) ∧
      evaluateOnRoots .sixtyFive [3, 64] 4 = .ok [2, 60, 4, 11] := by
  have two : isTwoPower 4 := by decide
  have fits : 4 ≤ 2 ^ Field.sixtyFive.twoOrder := by decide
  obtain ⟨roots, found, -, whole, short⟩ := forward_eq_map two fits
  obtain rfl : [1, 8, 64, 57] = roots := Except.ok.inj (.trans (by decide +kernel) found)
  exact ⟨found, whole [3, 64, 5, 20] rfl (by decide), short [3, 64] (by decide) (by decide)⟩

theorem degree_lt_of_length {coefficients : List Nat} (length : coefficients.length = 2 ^ k) :
    (F.polynomial coefficients).degree < (2 ^ k : Nat) :=
  length ▸ F.degree_polynomial_lt coefficients

section Prime

variable [Fact F.modulus.Prime]

/-- A table of values has one polynomial of lower degree than entries, up to leading zeros. -/
theorem sameTerms_of_map_evaluate (hk : k ≤ F.twoOrder) (lists : F.Lists (F.root k) k roots)
    {P Q : Polynomial} (hP : ∀ c ∈ P.coefficients, c < F.modulus)
    (hQ : ∀ c ∈ Q.coefficients, c < F.modulus)
    (lowP : (F.polynomial P.coefficients).degree < (2 ^ k : Nat))
    (lowQ : (F.polynomial Q.coefficients).degree < (2 ^ k : Nat))
    (same : roots.map (P.evaluate F) = roots.map (Q.evaluate F)) : P.SameTerms Q := by
  rw [Polynomial.sameTerms_iff hP hQ]
  refine eq_of_eval_roots F hk lowP lowQ fun j hj => ?_
  have hR : j < roots.length := by rwa [lists.length_eq]
  have value := List.map_inj_left.1 same _ (List.getElem_mem hR)
  rw [← lists.getElem F hR, ← Polynomial.cast_evaluate, ← Polynomial.cast_evaluate, value]

/-- Interpolation answers coefficients whose table the values are. -/
theorem map_evaluate_interpolateOnRoots (hk : k ≤ F.twoOrder)
    (lists : F.Lists (F.root k) k roots) {values : List Nat} (length : values.length = 2 ^ k)
    (canonical : ∀ v ∈ values, v < F.modulus) :
    ∃ coefficients, interpolateOnRoots F values = .ok coefficients ∧
      coefficients.length = 2 ^ k ∧ (∀ c ∈ coefficients, c < F.modulus) ∧
      roots.map (Polynomial.evaluate F ⟨coefficients⟩) = values := by
  obtain ⟨coefficients, ok, lengthC, small, evals⟩ := interpolateOnRoots_eq_ok F hk length
  refine ⟨coefficients, ok, lengthC, small,
    List.ext_getElem (by rw [List.length_map, lists.length_eq, length]) fun j hj hj' => ?_⟩
  have hR : j < roots.length := by rwa [List.length_map] at hj
  rw [List.getElem_map, ← F.cast_inj (Polynomial.evaluate_lt F _ _)
    (canonical _ (List.getElem_mem hj')), Polynomial.cast_evaluate, lists.getElem F hR,
    evals j (lists.length_eq ▸ hR), List.getD_eq_getElem _ _ hj']

/-- From the table of a polynomial, interpolation answers its coefficients. -/
theorem interpolateOnRoots_map_evaluate (hk : k ≤ F.twoOrder)
    (lists : F.Lists (F.root k) k roots) {coefficients : List Nat}
    (length : coefficients.length = 2 ^ k) (canonical : ∀ c ∈ coefficients, c < F.modulus) :
    interpolateOnRoots F (roots.map (Polynomial.evaluate F ⟨coefficients⟩)) =
      .ok coefficients := by
  have small : ∀ v ∈ roots.map (Polynomial.evaluate F ⟨coefficients⟩), v < F.modulus := by
    intro v hv
    obtain ⟨x, -, rfl⟩ := List.mem_map.1 hv
    exact Polynomial.evaluate_lt F _ x
  obtain ⟨back, ok, lengthB, smallB, table⟩ := map_evaluate_interpolateOnRoots hk lists
    (by rw [List.length_map, lists.length_eq]) small
  have same : (⟨back⟩ : Polynomial).SameTerms ⟨coefficients⟩ :=
    sameTerms_of_map_evaluate hk lists smallB canonical (degree_lt_of_length lengthB)
      (degree_lt_of_length length) table
  obtain rfl : back = coefficients :=
    congrArg Polynomial.coefficients (same.eq_of_length (lengthB.trans length.symm))
  exact ok

/-- Evaluation at the roots of unity and interpolation there undo each other: the coefficients that
interpolation answers are those of the only polynomial of degree below the number of values that
takes them at the roots. -/
theorem undoes_onRoots {n : Nat} (two : isTwoPower n) (fits : n ≤ 2 ^ F.twoOrder)
    {values : List Nat} (length : values.length = n) (canonical : ∀ v ∈ values, v < F.modulus) :
    ∃ roots evaluated coefficients, F.roots n = .ok roots ∧
      evaluateOnRoots F values n = .ok evaluated ∧
      interpolateOnRoots F evaluated = .ok values ∧
      interpolateOnRoots F values = .ok coefficients ∧
      evaluateOnRoots F coefficients n = .ok values ∧
      coefficients.length = n ∧ (∀ c ∈ coefficients, c < F.modulus) ∧
      ∀ P : Polynomial, (∀ c ∈ P.coefficients, c < F.modulus) →
        (P.degree < n ∧ roots.map (P.evaluate F) = values ↔ P.SameTerms ⟨coefficients⟩) := by
  obtain ⟨k, rfl⟩ := isTwoPower_iff.1 two
  have hk : k ≤ F.twoOrder := (Nat.pow_le_pow_iff_right (le_refl 2)).1 fits
  obtain ⟨roots, found, lists⟩ := F.roots_two_pow hk
  obtain ⟨coefficients, interpolated, lengthC, small, table⟩ :=
    map_evaluate_interpolateOnRoots hk lists length canonical
  have low := degree_lt_of_length (F := F) lengthC
  refine ⟨roots, _, coefficients, found, evaluateOnRoots_eq_map hk found lists length.le canonical,
    interpolateOnRoots_map_evaluate hk lists length canonical, interpolated, ?_, lengthC, small,
    fun P hP => ?_⟩
  · rw [evaluateOnRoots_eq_map hk found lists lengthC.le small, table]
  · rw [Polynomial.degree_lt_iff hP (Nat.two_pow_pos k)]
    constructor
    · rintro ⟨lowP, tableP⟩
      exact sameTerms_of_map_evaluate hk lists hP small lowP low (tableP.trans table.symm)
    · intro same
      have eq := (Polynomial.sameTerms_iff hP small).1 same
      exact ⟨eq ▸ low, by rw [Polynomial.evaluate_congr eq, table]⟩

theorem undoes_onRoots_seventeen :
    evaluateOnRoots .seventeen [3, 16, 5, 1] 4 = .ok [8, 6, 8, 7] ∧
      interpolateOnRoots .seventeen [8, 6, 8, 7] = .ok [3, 16, 5, 1] ∧
      interpolateOnRoots .seventeen [3, 16, 5, 1] = .ok [2, 6, 2, 10] ∧
      evaluateOnRoots .seventeen [2, 6, 2, 10] 4 = .ok [3, 16, 5, 1] ∧
      ∀ P : Polynomial, (∀ c ∈ P.coefficients, c < 17) → P.degree < 4 →
        [1, 13, 16, 4].map (P.evaluate .seventeen) = [3, 16, 5, 1] →
        P.SameTerms ⟨[2, 6, 2, 10]⟩ := by
  have two : isTwoPower 4 := by decide
  have fits : 4 ≤ 2 ^ Field.seventeen.twoOrder := by decide
  have length : [3, 16, 5, 1].length = 4 := rfl
  obtain ⟨roots, evaluated, coefficients, found, there, back, interpolated, again, -, -, only⟩ :=
    undoes_onRoots (F := .seventeen) two fits length (by decide)
  obtain rfl : [1, 13, 16, 4] = roots := Except.ok.inj (.trans (by decide +kernel) found)
  obtain rfl : [8, 6, 8, 7] = evaluated := Except.ok.inj (.trans (by decide +kernel) there)
  obtain rfl : [2, 6, 2, 10] = coefficients :=
    Except.ok.inj (.trans (by decide +kernel) interpolated)
  exact ⟨there, back, interpolated, again, fun P hP low table => (only P hP).1 ⟨low, table⟩⟩

end Prime

end Transform

end PrivateSums
