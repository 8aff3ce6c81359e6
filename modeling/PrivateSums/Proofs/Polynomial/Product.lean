import Mathlib.Algebra.Polynomial.Degree.Operations
import PrivateSums.Polynomial.Product
import PrivateSums.Proofs.Polynomial.Transform

/-!
Sums, products, values and derivatives of polynomials given by coefficients. A product is the same
on both of its paths: the domain of the transform is too large for products to wrap around.
-/

open scoped Polynomial

namespace PrivateSums

namespace Field

variable (F : Field)

theorem polynomial_map_reduce (as : List Nat) :
    F.polynomial (as.map F.reduce) = F.polynomial as := by
  induction as with
  | nil => rfl
  | cons a as ih => rw [List.map_cons, polynomial_cons, ih, cast_reduce, polynomial_cons]

theorem polynomial_map_mul_left (c : Nat) (as : List Nat) :
    F.polynomial (as.map (c * ·)) = Polynomial.C (c : F.Residue) * F.polynomial as := by
  induction as with
  | nil => simp
  | cons a as ih =>
    rw [List.map_cons, polynomial_cons, ih, polynomial_cons, Nat.cast_mul, Polynomial.C_mul]
    ring

/-- Entries added one by one, where missing ones count as zero. -/
theorem polynomial_zipWithAll {op : Option Nat → Option Nat → Nat}
    (h : ∀ a b, ((op a b : Nat) : F.Residue) = (a.getD 0 : Nat) + (b.getD 0 : Nat))
    (as bs : List Nat) :
    F.polynomial (List.zipWithAll op as bs) = F.polynomial as + F.polynomial bs := by
  induction as generalizing bs with
  | nil =>
    induction bs with
    | nil => simp
    | cons b bs ih =>
      rw [List.nil_zipWithAll, List.map_cons, polynomial_cons, ← List.nil_zipWithAll, ih, h,
        polynomial_cons]
      simp
  | cons a as ih =>
    cases bs with
    | nil =>
      have rest := ih []
      rw [List.zipWithAll_nil] at rest
      rw [List.zipWithAll_nil, List.map_cons, polynomial_cons, rest, h, polynomial_cons]
      simp
    | cons b bs =>
      rw [List.zipWithAll_cons_cons, polynomial_cons, ih, h, polynomial_cons, polynomial_cons,
        Option.getD_some, Option.getD_some, Polynomial.C_add]
      ring

theorem polynomial_convolution (as bs : List Nat) :
    F.polynomial (Polynomial.convolution as bs) = F.polynomial as * F.polynomial bs := by
  induction as with
  | nil => simp [Polynomial.convolution]
  | cons a as ih =>
    rw [Polynomial.convolution, polynomial_zipWithAll F (by simp), polynomial_map_mul_left,
      polynomial_cons, ih, polynomial_cons, Nat.cast_zero, Polynomial.C_0]
    ring

/-- Coefficients that are zero can be cut off. -/
theorem polynomial_take {n : Nat} {as : List Nat}
    (h : ∀ i, n ≤ i → ((as.getD i 0 : Nat) : F.Residue) = 0) :
    F.polynomial (as.take n) = F.polynomial as := by
  ext i
  rw [coeff_polynomial, coeff_polynomial]
  obtain lt | ge := Nat.lt_or_ge i n
  · rw [List.getD_eq_getElem?_getD, List.getElem?_take_of_lt lt, List.getD_eq_getElem?_getD]
  · rw [h i ge, List.getD_eq_default _ _ (by rw [List.length_take]; omega), Nat.cast_zero]

end Field

namespace Polynomial

variable (F : Field) (P Q : Polynomial)

theorem polynomial_add : F.polynomial (P.add F Q).coefficients =
    F.polynomial P.coefficients + F.polynomial Q.coefficients :=
  F.polynomial_zipWithAll (fun _ _ => F.cast_add _ _) _ _

theorem cast_evaluate (x : Nat) : ((P.evaluate F x : Nat) : F.Residue) =
    (F.polynomial P.coefficients).eval (x : F.Residue) := by
  unfold evaluate
  induction P.coefficients with
  | nil => simp
  | cons a as ih =>
    rw [List.foldr_cons, F.cast_add, F.cast_mul, ih, F.eval_polynomial_cons]
    ring

theorem evaluate_lt (x : Nat) : P.evaluate F x < F.modulus := by
  unfold evaluate
  cases P.coefficients with
  | nil => exact F.modulus_pos
  | cons a as => exact F.add_lt _ _

variable {F P Q} in
/-- Polynomials that are the same have the same values. -/
theorem evaluate_congr (h : F.polynomial P.coefficients = F.polynomial Q.coefficients) :
    P.evaluate F = Q.evaluate F := by
  funext x
  rw [← F.cast_inj (evaluate_lt F P x) (evaluate_lt F Q x), cast_evaluate, cast_evaluate, h]

theorem polynomial_derivative : F.polynomial (P.derivative F).coefficients =
    (F.polynomial P.coefficients).derivative := by
  ext i
  rw [Polynomial.coeff_derivative, F.coeff_polynomial, F.coeff_polynomial, derivative]
  split
  · rename_i short
    rw [List.getD_eq_default P.coefficients _ (by omega)]
    cases i <;> simp [zero]
  · rw [List.getD_eq_getElem?_getD, List.getElem?_tail, List.getElem?_mapIdx,
      List.getD_eq_getElem?_getD]
    cases P.coefficients[i + 1]? <;> simp

theorem polynomial_mulByTerms : F.polynomial (P.mulByTerms F Q).coefficients =
    F.polynomial P.coefficients * F.polynomial Q.coefficients := by
  rw [mulByTerms, F.polynomial_map_reduce, F.polynomial_convolution]

theorem mulByTerms_lt : ∀ c ∈ (P.mulByTerms F Q).coefficients, c < F.modulus := by
  intro c hc
  obtain ⟨a, -, rfl⟩ := List.mem_map.1 hc
  exact F.reduce_lt a

variable {F P Q}

theorem coeff_mul_eq_zero {as bs : List Nat} {i : Nat} (h : as.length + bs.length - 1 ≤ i) :
    (F.polynomial as * F.polynomial bs).coeff i = 0 := by
  rw [Polynomial.coeff_mul]
  refine Finset.sum_eq_zero fun ⟨j, k⟩ hjk => ?_
  rw [F.coeff_polynomial, F.coeff_polynomial]
  have sum : j + k = i := Finset.HasAntidiagonal.mem_antidiagonal.1 hjk
  obtain hj | hk : as.length ≤ j ∨ bs.length ≤ k := by omega
  · rw [List.getD_eq_default _ _ hj, Nat.cast_zero, zero_mul]
  · rw [List.getD_eq_default _ _ hk, Nat.cast_zero, mul_zero]

theorem degree_mul_lt {as bs : List Nat} {n : Nat} (h : as.length + bs.length - 1 ≤ n) :
    (F.polynomial as * F.polynomial bs).degree < n := by
  rw [Polynomial.degree_lt_iff_coeff_zero]
  exact fun i hi => coeff_mul_eq_zero (h.trans hi)

section ZipWithAll

variable {α β γ : Type} {op : Option α → Option β → γ}

theorem length_zipWithAll (as : List α) (bs : List β) :
    (List.zipWithAll op as bs).length = max as.length bs.length := by
  induction as generalizing bs with
  | nil => simp
  | cons a as ih => cases bs <;> simp [ih]

theorem exists_of_mem_zipWithAll {as : List α} {bs : List β} {c : γ}
    (h : c ∈ List.zipWithAll op as bs) : ∃ a b, op a b = c := by
  induction as generalizing bs with
  | nil =>
    rw [List.nil_zipWithAll] at h
    obtain ⟨b, -, rfl⟩ := List.mem_map.1 h
    exact ⟨none, some b, rfl⟩
  | cons a as ih =>
    cases bs with
    | nil =>
      rw [List.zipWithAll_nil] at h
      obtain ⟨a, -, rfl⟩ := List.mem_map.1 h
      exact ⟨some a, none, rfl⟩
    | cons b bs =>
      rw [List.zipWithAll_cons_cons] at h
      obtain rfl | rest := List.mem_cons.1 h
      · exact ⟨some a, some b, rfl⟩
      · exact ih rest

end ZipWithAll

theorem add_lt (P Q : Polynomial) : ∀ c ∈ (P.add F Q).coefficients, c < F.modulus := by
  intro c hc
  obtain ⟨a, b, rfl⟩ := exists_of_mem_zipWithAll hc
  exact F.add_lt _ _

theorem length_convolution {as bs : List Nat} (ha : as ≠ []) (hb : bs ≠ []) :
    (convolution as bs).length = as.length + bs.length - 1 := by
  have pos := List.length_pos_iff.2 hb
  induction as with
  | nil => exact absurd rfl ha
  | cons a as ih =>
    rw [convolution, length_zipWithAll, List.length_map, List.length_cons, List.length_cons]
    obtain rfl | rest := eq_or_ne as []
    · rw [convolution, List.length_nil]
      omega
    · have := List.length_pos_iff.2 rest
      rw [ih rest]
      omega

theorem length_mulByTerms (hP : P.coefficients ≠ []) (hQ : Q.coefficients ≠ []) :
    (P.mulByTerms F Q).coefficients.length =
      P.coefficients.length + Q.coefficients.length - 1 := by
  rw [mulByTerms, List.length_map, length_convolution hP hQ]

theorem length_mulByTransform {R : Polynomial} {length domain : Nat}
    (hP : P.coefficients.length ≤ domain) (hQ : Q.coefficients.length ≤ domain)
    (fits : length ≤ domain) (h : mulByTransform? F P Q length domain = some R) :
    R.coefficients.length = length := by
  obtain ⟨roots, hr, h⟩ := Option.bind_eq_some_iff.1 h
  obtain ⟨rootsInv, hi, h⟩ := Option.bind_eq_some_iff.1 h
  obtain ⟨scale, -, h⟩ := Option.bind_eq_some_iff.1 h
  obtain ⟨k, -, rfl, lists⟩ := F.of_roots (Answer.toOption_eq_some.1 hr)
  have inverses : rootsInv.length = 2 ^ k := by
    obtain ⟨r, -, listed⟩ := Answer.bind_eq_ok.1 (Answer.toOption_eq_some.1 hi)
    obtain ⟨i, -, listed⟩ := Answer.bind_eq_ok.1 listed
    obtain rfl := Except.ok.inj listed
    exact F.length_powers i _
  have values {S : Polynomial} (hS : S.coefficients.length ≤ 2 ^ k) :
      (Transform.run F (Transform.padded (2 ^ k) S.coefficients) roots).length = 2 ^ k :=
    Transform.length_run F (Transform.length_padded hS) lists.length_eq
  obtain rfl := Option.some.inj h
  rw [List.length_map, List.length_take, Transform.length_run F _ inverses, min_eq_left fits]
  rw [List.length_zipWith, values hP, values hQ, min_self]

theorem mulByTransform_lt {R : Polynomial} {length domain : Nat}
    (h : mulByTransform? F P Q length domain = some R) :
    ∀ c ∈ R.coefficients, c < F.modulus := by
  obtain ⟨roots, -, h⟩ := Option.bind_eq_some_iff.1 h
  obtain ⟨rootsInv, -, h⟩ := Option.bind_eq_some_iff.1 h
  obtain ⟨scale, -, h⟩ := Option.bind_eq_some_iff.1 h
  obtain rfl := Option.some.inj h
  intro c hc
  obtain ⟨v, -, rfl⟩ := List.mem_map.1 hc
  exact F.mul_lt v scale

/-- A product has as many coefficients on both paths. -/
theorem length_mul (hP : P.coefficients ≠ []) (hQ : Q.coefficients ≠ []) :
    (P.mul F Q).coefficients.length = P.coefficients.length + Q.coefficients.length - 1 := by
  have byTerms := length_mulByTerms (F := F) hP hQ
  have lP := List.length_pos_iff.2 hP
  have lQ := List.length_pos_iff.2 hQ
  have room := le_nextTwoPower (P.coefficients.length + Q.coefficients.length - 1)
  rw [mul, if_neg (by simp [hP, hQ])]
  dsimp only
  split
  · cases h : mulByTransform? F P Q (P.coefficients.length + Q.coefficients.length - 1)
      (nextTwoPower (P.coefficients.length + Q.coefficients.length - 1)) with
    | none => exact byTerms
    | some R => exact length_mulByTransform (by omega) (by omega) room h
  · exact byTerms

variable [Fact F.modulus.Prime]

/-- On a domain that holds the product, multiplying values multiplies the polynomials. -/
theorem polynomial_mulByTransform {R : Polynomial} {length domain : Nat}
    (hP : P.coefficients ≠ []) (hQ : Q.coefficients ≠ [])
    (hl : length = P.coefficients.length + Q.coefficients.length - 1) (fits : length ≤ domain)
    (h : mulByTransform? F P Q length domain = some R) : F.polynomial R.coefficients =
      F.polynomial P.coefficients * F.polynomial Q.coefficients := by
  obtain ⟨roots, hr, h⟩ := Option.bind_eq_some_iff.1 h
  obtain ⟨rootsInv, hi, h⟩ := Option.bind_eq_some_iff.1 h
  obtain ⟨scale, hs, h⟩ := Option.bind_eq_some_iff.1 h
  obtain ⟨k, le, rfl, lists⟩ := F.of_roots (Answer.toOption_eq_some.1 hr)
  obtain ⟨inverses, hi', listsInv⟩ := F.rootsInv_two_pow le
  obtain rfl : rootsInv = inverses := Option.some.inj (hi.symm.trans (by rw [hi']; rfl))
  have inv := Answer.toOption_eq_some.1 hs
  have values (S : Polynomial) (hS : S.coefficients.length ≤ 2 ^ k) :
      (Transform.run F (Transform.padded (2 ^ k) S.coefficients) roots).length = 2 ^ k ∧
      ∀ j < 2 ^ k,
        (((Transform.run F (Transform.padded (2 ^ k) S.coefficients) roots).getD j 0 : Nat)
          : F.Residue) = (F.polynomial S.coefficients).eval (F.root k ^ j) := by
    have padded := Transform.length_padded hS
    refine ⟨Transform.length_run F padded lists.length_eq, fun j hj => ?_⟩
    rw [Transform.cast_run_root F le padded lists hj, F.polynomial_padded]
  have lP := List.length_pos_iff.2 hP
  have lQ := List.length_pos_iff.2 hQ
  obtain ⟨lengthP, valuesP⟩ := values P (by omega)
  obtain ⟨lengthQ, valuesQ⟩ := values Q (by omega)
  have lengthPQ : (List.zipWith F.mul
      (Transform.run F (Transform.padded (2 ^ k) P.coefficients) roots)
      (Transform.run F (Transform.padded (2 ^ k) Q.coefficients) roots)).length = 2 ^ k := by
    rw [List.length_zipWith, lengthP, lengthQ, min_self]
  have full : F.polynomial ((Transform.run F (List.zipWith F.mul
      (Transform.run F (Transform.padded (2 ^ k) P.coefficients) roots)
      (Transform.run F (Transform.padded (2 ^ k) Q.coefficients) roots)) rootsInv).map
        (F.mul · scale)) = F.polynomial P.coefficients * F.polynomial Q.coefficients := by
    refine Transform.eq_of_eval_roots F le ?_ (degree_mul_lt (by omega)) fun j hj => ?_
    · refine (F.degree_polynomial_lt _).trans_le ?_
      rw [List.length_map, Transform.length_run F lengthPQ listsInv.length_eq]
    · rw [Transform.eval_inverse_run F le lengthPQ listsInv inv hj, Polynomial.eval_mul,
        ← valuesP j hj, ← valuesQ j hj, ← F.cast_mul,
        List.getD_eq_getElem _ _ (by rw [lengthPQ]; exact hj), List.getElem_zipWith,
        List.getD_eq_getElem _ _ (by rw [lengthP]; exact hj),
        List.getD_eq_getElem _ _ (by rw [lengthQ]; exact hj)]
  obtain rfl := Option.some.inj h
  rw [List.map_take, F.polynomial_take, full]
  intro i hi
  rw [← F.coeff_polynomial, full, coeff_mul_eq_zero (by omega)]

theorem polynomial_mul (P Q : Polynomial) : F.polynomial (P.mul F Q).coefficients =
    F.polynomial P.coefficients * F.polynomial Q.coefficients := by
  unfold mul
  split
  · rename_i empty
    simp only [Bool.or_eq_true, List.isEmpty_iff] at empty
    obtain h | h := empty <;> simp [h, zero, Field.polynomial_cons]
  · rename_i nonempty
    simp only [Bool.or_eq_true, List.isEmpty_iff, not_or] at nonempty
    dsimp only
    split
    · cases h : mulByTransform? F P Q (P.coefficients.length + Q.coefficients.length - 1)
        (nextTwoPower (P.coefficients.length + Q.coefficients.length - 1)) with
      | none => exact polynomial_mulByTerms F P Q
      | some R =>
        exact polynomial_mulByTransform nonempty.1 nonempty.2 rfl (le_nextTwoPower _) h
    · exact polynomial_mulByTerms F P Q

omit [Fact F.modulus.Prime] in
theorem mul_lt (P Q : Polynomial) : ∀ c ∈ (P.mul F Q).coefficients, c < F.modulus := by
  unfold mul
  split
  · simp [zero, F.modulus_pos]
  · dsimp only
    split
    · cases h : mulByTransform? F P Q (P.coefficients.length + Q.coefficients.length - 1)
        (nextTwoPower (P.coefficients.length + Q.coefficients.length - 1)) with
      | none => exact mulByTerms_lt F P Q
      | some R => exact mulByTransform_lt h
    · exact mulByTerms_lt F P Q

end Polynomial

end PrivateSums
