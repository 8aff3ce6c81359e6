import Mathlib.LinearAlgebra.Lagrange
import PrivateSums.Proofs.Polynomial.Coefficients

/-!
The transform evaluates: its outputs are the values of the polynomial at the powers of the root, and
the inverse transform recovers the coefficients from them.
-/

open scoped Polynomial

namespace PrivateSums.Transform

theorem length_evens {n : Nat} {l : List Nat} (h : l.length = 2 * n) : (evens l).length = n := by
  induction n generalizing l with
  | zero => simp_all [evens]
  | succ n ih =>
    match l, h with
    | a :: b :: l, h =>
      rw [evens, List.length_cons, ih (by simp only [List.length_cons] at h; omega)]

theorem geometric_evens {F : Field} {c w : F.Residue} {n : Nat} {l : List Nat}
    (length : l.length = 2 * n) (h : F.Geometric c w l) : F.Geometric c (w ^ 2) (evens l) := by
  induction n generalizing c l with
  | zero =>
    obtain rfl : l = [] := by simpa using length
    exact fun i hi => absurd hi (by simp [evens])
  | succ n ih =>
    match l, length, h with
    | a :: b :: l, length, h =>
      have rest := ih (by simp only [List.length_cons] at length; omega) h.tail.tail
      rw [mul_assoc, ← sq] at rest
      exact .cons h.head rest

theorem length_interleave {as bs : List Nat} (h : as.length = bs.length) :
    (interleave as bs).length = 2 * as.length := by
  induction as generalizing bs with
  | nil => simp [interleave]
  | cons a as ih =>
    obtain ⟨b, bs, rfl⟩ := List.exists_cons_of_length_eq_add_one h.symm
    simp only [interleave, List.length_cons, ih (Nat.succ.inj h)]
    ring

theorem getD_interleave {as bs : List Nat} (h : as.length = bs.length) (i : Nat) :
    (interleave as bs).getD (2 * i) 0 = as.getD i 0 ∧
      (interleave as bs).getD (2 * i + 1) 0 = bs.getD i 0 := by
  induction as generalizing bs i with
  | nil => cases bs <;> simp_all [interleave]
  | cons a as ih =>
    obtain ⟨b, bs, rfl⟩ := List.exists_cons_of_length_eq_add_one h.symm
    cases i with
    | zero => exact ⟨rfl, rfl⟩
    | succ i => exact ih (Nat.succ.inj h) i

theorem mem_interleave {v : Nat} {as bs : List Nat} (h : v ∈ interleave as bs) :
    v ∈ as ∨ v ∈ bs := by
  induction as generalizing bs with
  | nil => simp [interleave] at h
  | cons a as ih =>
    cases bs with
    | nil => simp [interleave] at h
    | cons b bs =>
      simp only [interleave, List.mem_cons] at h ⊢
      obtain rfl | rfl | h := h
      · exact .inl (.inl rfl)
      · exact .inr (.inl rfl)
      · exact (ih h).imp .inr .inr

variable (F : Field)

/-- Padding is not seen where missing entries count as zero. -/
theorem getD_padded (n : Nat) (l : List Nat) (i : Nat) : (padded n l).getD i 0 = l.getD i 0 := by
  rw [padded]
  obtain lt | ge := Nat.lt_or_ge i l.length
  · rw [List.getD_append _ _ _ _ lt]
  · rw [List.getD_append_right _ _ _ _ ge, List.getD_eq_default l _ ge,
      List.getD_eq_getElem?_getD, List.getElem?_getD_replicate_default_eq]

theorem mem_zipWith_lt {op : Nat → Nat → Nat} (h : ∀ a b, op a b < F.modulus) (as bs : List Nat) :
    ∀ v ∈ List.zipWith op as bs, v < F.modulus := by
  intro v hv
  obtain ⟨i, hi, rfl⟩ := List.mem_iff_getElem.1 hv
  rw [List.getElem_zipWith]
  exact h _ _

/-- A level works on the two halves of the coefficients. -/
theorem levels_append {k : Nat} {low : List Nat} (h : low.length = 2 ^ k) (high roots : List Nat) :
    levels F (k + 1) (low ++ high) roots =
      interleave (levels F k (List.zipWith F.add low high) (evens roots))
        (levels F k (List.zipWith F.mul (List.zipWith F.sub low high) roots) (evens roots)) := by
  rw [levels, ← h, List.take_left, List.drop_left]

theorem exists_halves {k : Nat} {l : List Nat} (h : l.length = 2 ^ (k + 1)) :
    ∃ low high, l = low ++ high ∧ low.length = 2 ^ k ∧ high.length = 2 ^ k := by
  refine ⟨_, _, (List.take_append_drop (2 ^ k) l).symm, ?_, ?_⟩ <;>
    simp only [List.length_take, List.length_drop, h, Nat.pow_succ] <;> omega

theorem length_levels {k : Nat} {values roots : List Nat} (hv : values.length = 2 ^ k)
    (hr : roots.length = 2 ^ k) : (levels F k values roots).length = 2 ^ k := by
  induction k generalizing values roots with
  | zero => exact hv
  | succ k ih =>
    obtain ⟨low, high, rfl, hl, hh⟩ := exists_halves hv
    rw [Nat.pow_succ'] at hr
    have next := length_evens hr
    have sums : (List.zipWith F.add low high).length = 2 ^ k := by simp [hl, hh]
    have differences : (List.zipWith F.mul (List.zipWith F.sub low high) roots).length = 2 ^ k := by
      simp only [List.length_zipWith, hl, hh, hr]
      omega
    rw [levels_append F hl, length_interleave ((ih sums next).trans (ih differences next).symm),
      ih sums next, Nat.pow_succ']

theorem levels_lt {k : Nat} {values roots : List Nat} (h : ∀ v ∈ values, v < F.modulus) :
    ∀ v ∈ levels F k values roots, v < F.modulus := by
  induction k generalizing values roots with
  | zero => exact h
  | succ k ih =>
    intro v hv
    obtain hv | hv := mem_interleave hv
    · exact ih (mem_zipWith_lt F F.add_lt _ _) v hv
    · exact ih (mem_zipWith_lt F F.mul_lt _ _) v hv

theorem length_run {k : Nat} {values roots : List Nat} (hv : values.length = 2 ^ k)
    (hr : roots.length = 2 ^ k) : (run F values roots).length = 2 ^ k := by
  rw [run, hv, Nat.log2_two_pow]
  exact length_levels F hv hr

theorem length_padded {n : Nat} {values : List Nat} (h : values.length ≤ n) :
    (padded n values).length = n := by
  rw [padded, List.length_append, List.length_replicate]
  omega

theorem padded_lt {n : Nat} {values : List Nat} (h : ∀ v ∈ values, v < F.modulus) :
    ∀ v ∈ padded n values, v < F.modulus := by
  intro v hv
  obtain mem | mem := List.mem_append.1 hv
  · exact h v mem
  · rw [List.eq_of_mem_replicate mem]
    exact F.modulus_pos

variable {F} {low high : List Nat}

theorem eval_sums (equal : low.length = high.length) {x : F.Residue} (h : x ^ low.length = 1) :
    (F.polynomial (List.zipWith F.add low high)).eval x = (F.polynomial (low ++ high)).eval x := by
  rw [F.polynomial_zipWith_add equal, F.polynomial_append, Polynomial.eval_add,
    Polynomial.eval_add, Polynomial.eval_mul, Polynomial.eval_pow, Polynomial.eval_X, h, one_mul]

theorem eval_differences (equal : low.length = high.length) {w : F.Residue} {roots : List Nat}
    (hw : F.Geometric 1 w roots) (le : low.length ≤ roots.length) {x : F.Residue}
    (h : (w * x) ^ low.length = -1) :
    (F.polynomial (List.zipWith F.mul (List.zipWith F.sub low high) roots)).eval x =
      (F.polynomial (low ++ high)).eval (w * x) := by
  rw [F.eval_polynomial_zipWith_mul hw (by simpa [equal] using le), one_mul,
    F.polynomial_zipWith_sub equal, F.polynomial_append, Polynomial.eval_sub,
    Polynomial.eval_add, Polynomial.eval_mul, Polynomial.eval_pow, Polynomial.eval_X, h,
    neg_one_mul, sub_eq_add_neg]

variable (F)

/-- The outputs are the values at the powers of the root. By induction on the levels: at its even
powers the halves of the coefficients are added, at its odd ones subtracted. -/
theorem cast_levels {k : Nat} {values roots : List Nat} {w : F.Residue}
    (hv : values.length = 2 ^ k) (hr : roots.length = 2 ^ k) (hw : F.Geometric 1 w roots)
    (half : ∀ i, k = i + 1 → w ^ (2 ^ i : Nat) = -1) {j : Nat} (hj : j < 2 ^ k) :
    (((levels F k values roots).getD j 0 : Nat) : F.Residue) =
      (F.polynomial values).eval (w ^ j) := by
  induction k generalizing values roots w j with
  | zero =>
    obtain rfl : j = 0 := by simpa using hj
    obtain ⟨v, rfl⟩ := List.length_eq_one_iff.1 (by simpa using hv)
    simp [levels, Field.polynomial_cons]
  | succ k ih =>
    obtain ⟨low, high, rfl, hl, hh⟩ := exists_halves hv
    have minus : w ^ low.length = -1 := by rw [hl]; exact half k rfl
    have equal : low.length = high.length := hl.trans hh.symm
    rw [Nat.pow_succ'] at hr
    have next := length_evens hr
    have squares := geometric_evens hr hw
    have halves : ∀ i, k = i + 1 → (w ^ 2) ^ (2 ^ i : Nat) = -1 := by
      rintro i rfl
      rw [← pow_mul, ← minus, hl, Nat.pow_succ']
    have sums : (List.zipWith F.add low high).length = 2 ^ k := by simp [hl, hh]
    have differences : (List.zipWith F.mul (List.zipWith F.sub low high) roots).length = 2 ^ k := by
      simp only [List.length_zipWith, hl, hh, hr]
      omega
    have bound : j / 2 < 2 ^ k := by
      rw [Nat.pow_succ] at hj
      omega
    have outputs := getD_interleave
      ((length_levels F sums next).trans (length_levels F differences next).symm) (j / 2)
    have one : ((w ^ 2) ^ (j / 2)) ^ low.length = 1 := by
      calc ((w ^ 2) ^ (j / 2)) ^ low.length = ((w ^ low.length) ^ 2) ^ (j / 2) := by ring
        _ = 1 := by rw [minus, neg_one_sq, one_pow]
    rw [levels_append F hl]
    obtain even | odd := Nat.mod_two_eq_zero_or_one j
    · have index : j = 2 * (j / 2) := by omega
      have power : w ^ j = (w ^ 2) ^ (j / 2) := by rw [← pow_mul, ← index]
      rw [power, ← eval_sums equal one, ← ih sums next squares halves bound, ← outputs.1, ← index]
    · have index : j = 2 * (j / 2) + 1 := by omega
      have power : w ^ j = w * (w ^ 2) ^ (j / 2) := by rw [← pow_mul, ← pow_succ', ← index]
      have minus' : (w * (w ^ 2) ^ (j / 2)) ^ low.length = -1 := by
        rw [mul_pow, minus, one, mul_one]
      rw [power, ← eval_differences equal hw (by omega) minus', ← ih differences next squares
        halves bound, ← outputs.2, ← index]

/-- At a listed root no prime modulus is asked for. -/
theorem cast_run_root {k : Nat} (hk : k ≤ F.twoOrder) {values roots : List Nat}
    (hv : values.length = 2 ^ k) (hr : F.Lists (F.root k) k roots) {j : Nat} (hj : j < 2 ^ k) :
    (((run F values roots).getD j 0 : Nat) : F.Residue) =
      (F.polynomial values).eval (F.root k ^ j) := by
  rw [run, hv, Nat.log2_two_pow]
  exact cast_levels F hv hr.length_eq hr.geometric (F.root_pow_half hk) hj

theorem checkDomain_two_pow (k : Nat) : checkDomain (2 ^ k) (2 ^ k) = .ok () := by
  have two : isTwoPower (2 ^ k) = true := isTwoPower_iff.2 ⟨k, rfl⟩
  simp [checkDomain, two]

/-- Evaluation at the roots of unity answers the values of the polynomial there. -/
theorem evaluateOnRoots_eq_ok {k : Nat} {coefficients : List Nat} (hk : k ≤ F.twoOrder)
    (h : coefficients.length ≤ 2 ^ k) :
    ∃ values, evaluateOnRoots F coefficients (2 ^ k) = .ok values ∧
      values.length = 2 ^ k ∧ ∀ j < 2 ^ k, ((values.getD j 0 : Nat) : F.Residue) =
        (F.polynomial coefficients).eval (F.root k ^ j) := by
  obtain ⟨roots, hr, lists⟩ := F.roots_two_pow hk
  have padded := length_padded h
  refine ⟨run F (Transform.padded (2 ^ k) coefficients) roots, ?_,
    length_run F padded lists.length_eq, fun j hj => ?_⟩
  · rw [evaluateOnRoots, if_pos h, hr]
    simp [forward, padded, lists.length_eq, checkDomain_two_pow]
  · rw [cast_run_root F hk padded lists hj, F.polynomial_padded]

theorem order_of_evaluateOnRoots {coefficients values : List Nat} {n : Nat}
    (h : evaluateOnRoots F coefficients n = .ok values) : ∃ k ≤ F.twoOrder, n = 2 ^ k := by
  by_cases le : coefficients.length ≤ n
  · rw [evaluateOnRoots, if_pos le] at h
    obtain ⟨roots, hr, -⟩ := Answer.bind_eq_ok.1 h
    obtain ⟨k, hk, eq, -⟩ := F.of_roots (Answer.mapError_eq_ok.1 hr)
    exact ⟨k, hk, eq⟩
  · simp [evaluateOnRoots, le] at h

theorem evaluateOnRoots_lt {coefficients values : List Nat} {n : Nat}
    (canonical : ∀ c ∈ coefficients, c < F.modulus)
    (h : evaluateOnRoots F coefficients n = .ok values) : ∀ v ∈ values, v < F.modulus := by
  by_cases le : coefficients.length ≤ n
  · rw [evaluateOnRoots, if_pos le] at h
    obtain ⟨roots, -, h⟩ := Answer.bind_eq_ok.1 h
    obtain ⟨-, -, h⟩ := Answer.bind_eq_ok.1 h
    obtain rfl := Except.ok.inj h
    exact levels_lt F (padded_lt F canonical)
  · simp [evaluateOnRoots, le] at h

theorem sum_pow_quotient [Fact F.modulus.Prime] {n : Nat} {w : F.Residue} (hw : IsPrimitiveRoot w n)
    {i j : Nat} (hi : i < n) (hj : j < n) :
    ∑ k ∈ Finset.range n, ((w⁻¹ ^ i * w ^ j) ^ k) = if i = j then (n : F.Residue) else 0 := by
  have nonzero : w ≠ 0 := hw.ne_zero (by omega)
  split
  · rename_i h
    rw [h, ← mul_pow, inv_mul_cancel₀ nonzero, one_pow]
    simp
  · rename_i h
    have power : (w⁻¹ ^ i * w ^ j) ^ n = 1 := by
      rw [mul_pow, pow_right_comm, inv_pow, hw.pow_eq_one, pow_right_comm, hw.pow_eq_one]
      simp
    have differ : w⁻¹ ^ i * w ^ j ≠ 1 := by
      rw [inv_pow, Ne, inv_mul_eq_one₀ (pow_ne_zero i nonzero)]
      exact fun h' => h (hw.pow_inj hi hj h')
    apply (mul_eq_zero.1 (?_ : (w⁻¹ ^ i * w ^ j - 1) * _ = 0)).resolve_left (sub_ne_zero.2 differ)
    rw [mul_geom_sum, power, sub_self]

/-- Values at the powers of `w⁻¹`, divided by their number, are the coefficients of a polynomial
that takes the transformed list as values at the powers of `w`. -/
theorem eval_of_inverse [Fact F.modulus.Prime] {n : Nat} {w : F.Residue} (hw : IsPrimitiveRoot w n)
    (hn : (n : F.Residue) ≠ 0) {values coefficients : List Nat} (hv : values.length = n)
    (hc : coefficients.length = n)
    (h : ∀ i < n, ((coefficients.getD i 0 : Nat) : F.Residue) =
      (F.polynomial values).eval (w⁻¹ ^ i) * (n : F.Residue)⁻¹) {j : Nat} (hj : j < n) :
    (F.polynomial coefficients).eval (w ^ j) = ((values.getD j 0 : Nat) : F.Residue) := by
  calc (F.polynomial coefficients).eval (w ^ j)
      = ∑ k ∈ Finset.range n, ∑ i ∈ Finset.range n,
          (n : F.Residue)⁻¹ * ((values.getD i 0 : Nat) : F.Residue) * (w⁻¹ ^ i * w ^ j) ^ k := by
        rw [F.eval_polynomial, hc]
        refine Finset.sum_congr rfl fun k hk => ?_
        rw [h k (Finset.mem_range.1 hk), F.eval_polynomial, hv, Finset.sum_mul, Finset.sum_mul]
        refine Finset.sum_congr rfl fun i _ => ?_
        ring
    _ = ∑ i ∈ Finset.range n, (n : F.Residue)⁻¹ * ((values.getD i 0 : Nat) : F.Residue) *
          (if i = j then (n : F.Residue) else 0) := by
        rw [Finset.sum_comm]
        refine Finset.sum_congr rfl fun i hi => ?_
        rw [← Finset.mul_sum, sum_pow_quotient F hw (Finset.mem_range.1 hi) hj]
    _ = ((values.getD j 0 : Nat) : F.Residue) := by
        simp only [mul_ite, mul_zero, Finset.sum_ite_eq', Finset.mem_range, hj, if_true]
        field_simp

variable [Fact F.modulus.Prime] {k : Nat}

theorem two_pow_ne_zero (k : Nat) : ((2 ^ k : Nat) : F.Residue) ≠ 0 := by
  rw [show ((2 ^ k : Nat) : F.Residue) = 2 ^ k from Nat.cast_pow 2 k]
  exact pow_ne_zero k F.two_ne_zero

theorem pow_half {w : F.Residue} (hw : IsPrimitiveRoot w (2 ^ k : Nat)) (i : Nat) (hi : k = i + 1) :
    w ^ (2 ^ i : Nat) = -1 := by
  subst hi
  have square : (w ^ (2 ^ i : Nat)) ^ 2 = 1 := by
    rw [← pow_mul, ← Nat.pow_succ, hw.pow_eq_one]
  refine (sq_eq_one_iff.1 square).resolve_left fun one => ?_
  have le := Nat.le_of_dvd (Nat.two_pow_pos i) (hw.dvd_of_pow_eq_one _ one)
  rw [Nat.pow_succ] at le
  have := Nat.two_pow_pos i
  omega

theorem cast_run {values roots : List Nat} {w : F.Residue} (hv : values.length = 2 ^ k)
    (hr : F.Lists w k roots) (hw : IsPrimitiveRoot w (2 ^ k : Nat)) {j : Nat} (hj : j < 2 ^ k) :
    (((run F values roots).getD j 0 : Nat) : F.Residue) = (F.polynomial values).eval (w ^ j) := by
  rw [run, hv, Nat.log2_two_pow]
  exact cast_levels F hv hr.length_eq hr.geometric (pow_half F hw) hj

/-- As many values as there are roots determine a polynomial of lower degree. -/
theorem eq_of_eval_roots (hk : k ≤ F.twoOrder) {P Q : F.Residue[X]}
    (hP : P.degree < (2 ^ k : Nat)) (hQ : Q.degree < (2 ^ k : Nat))
    (h : ∀ j < 2 ^ k, P.eval (F.root k ^ j) = Q.eval (F.root k ^ j)) : P = Q := by
  apply Polynomial.eq_of_degrees_lt_of_eval_index_eq (Finset.range (2 ^ k))
    (F.isPrimitiveRoot_root hk).injOn_pow
  · rwa [Finset.card_range]
  · rwa [Finset.card_range]
  · exact fun j hj => h j (Finset.mem_range.1 hj)

/-- Transforming values with the inverse roots and dividing by their number gives the coefficients
of the polynomial that takes those values at the roots. -/
theorem eval_inverse_run {values roots : List Nat} {scale : Nat} (hk : k ≤ F.twoOrder)
    (hv : values.length = 2 ^ k) (hr : F.Lists (F.root k)⁻¹ k roots)
    (hs : F.inv (2 ^ k) = .ok scale) {j : Nat} (hj : j < 2 ^ k) :
    (F.polynomial ((run F values roots).map (F.mul · scale))).eval (F.root k ^ j) =
      ((values.getD j 0 : Nat) : F.Residue) := by
  have primitive := F.isPrimitiveRoot_root hk
  have length := length_run F hv hr.length_eq
  refine eval_of_inverse F primitive (two_pow_ne_zero F k) hv (by simpa using length)
    (fun i hi => ?_) hj
  have entry : ((run F values roots).map (F.mul · scale)).getD i 0 =
      F.mul ((run F values roots).getD i 0) scale := by
    rw [List.getD_eq_getElem _ _ (by simpa [length] using hi), List.getElem_map,
      List.getD_eq_getElem _ _ (by simpa [length] using hi)]
  rw [entry, F.cast_mul, cast_run F hv hr primitive.inv hi, (F.cast_of_inv hs).2]

/-- Interpolation at the roots of unity answers canonical coefficients of the polynomial that takes
the given values there. -/
theorem interpolateOnRoots_eq_ok {values : List Nat} (hk : k ≤ F.twoOrder)
    (hv : values.length = 2 ^ k) : ∃ coefficients, interpolateOnRoots F values = .ok coefficients ∧
      coefficients.length = 2 ^ k ∧ (∀ c ∈ coefficients, c < F.modulus) ∧
      ∀ j < 2 ^ k, (F.polynomial coefficients).eval (F.root k ^ j) =
        ((values.getD j 0 : Nat) : F.Residue) := by
  obtain ⟨roots, hr, lists⟩ := F.rootsInv_two_pow hk
  obtain ⟨scale, inv, -, -⟩ := F.inv_eq_ok (two_pow_ne_zero F k)
  refine ⟨(run F values roots).map (F.mul · scale), ?_,
    by simpa using length_run F hv lists.length_eq, ?_,
    fun j hj => eval_inverse_run F hk hv lists inv hj⟩
  · rw [interpolateOnRoots, hv, hr]
    simp [inverse, hv, lists.length_eq, checkDomain_two_pow, inv]
  · intro c hc
    obtain ⟨v, -, rfl⟩ := List.mem_map.1 hc
    exact F.mul_lt v scale

end PrivateSums.Transform
