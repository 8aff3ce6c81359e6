import PrivateSums.Proofs.Polynomial.Product

/-!
Products as convolutions. Both paths of a product answer the same list, the canonical sums of the
products of coefficients whose powers add up to that of the answer.
-/

open scoped Polynomial

namespace PrivateSums.Polynomial

/-- The sum of all products of a coefficient of each list whose powers add up to `i`. -/
def convolutionSum (as bs : List Nat) (i : Nat) : Nat :=
  ∑ j ∈ Finset.range (i + 1), as.getD j 0 * bs.getD (i - j) 0

/-- The product of two polynomials that have coefficients, each coefficient by its sum. -/
def convolved (F : Field) (P Q : Polynomial) : Polynomial :=
  ⟨(List.range (P.coefficients.length + Q.coefficients.length - 1)).map fun i =>
    F.reduce (convolutionSum P.coefficients Q.coefficients i)⟩

variable {F : Field} {P Q : Polynomial}

theorem coeff_mul_eq_convolutionSum (as bs : List Nat) (i : Nat) :
    (F.polynomial as * F.polynomial bs).coeff i = (convolutionSum as bs i : Nat) := by
  rw [Polynomial.coeff_mul, Finset.Nat.sum_antidiagonal_eq_sum_range_succ_mk, convolutionSum,
    Nat.cast_sum]
  refine Finset.sum_congr rfl fun j _ => ?_
  rw [F.coeff_polynomial, F.coeff_polynomial, Nat.cast_mul]

/-- The sums are the only canonical coefficients of the product of their number. -/
theorem eq_convolved {R : Polynomial}
    (length : R.coefficients.length = P.coefficients.length + Q.coefficients.length - 1)
    (canonical : ∀ c ∈ R.coefficients, c < F.modulus)
    (product : F.polynomial R.coefficients =
      F.polynomial P.coefficients * F.polynomial Q.coefficients) : R = convolved F P Q := by
  obtain ⟨cs⟩ := R
  rw [convolved, mk.injEq]
  refine List.ext_getElem (by simpa using length) fun i hi hi' => ?_
  rw [List.getElem_map, List.getElem_range, ← F.cast_inj (canonical _ (List.getElem_mem hi))
    (F.reduce_lt _), F.cast_reduce, ← coeff_mul_eq_convolutionSum, ← product, F.coeff_polynomial,
    List.getD_eq_getElem _ _ hi]

variable [Fact F.modulus.Prime]

/-- On every domain that the field has and that holds the product, the transform answers it. -/
theorem exists_mulByTransform (P Q : Polynomial) (length : Nat) {k : Nat} (hk : k ≤ F.twoOrder) :
    ∃ R, mulByTransform? F P Q length (2 ^ k) = some R := by
  obtain ⟨roots, found, -⟩ := F.roots_two_pow hk
  obtain ⟨rootsInv, foundInv, -⟩ := F.rootsInv_two_pow hk
  obtain ⟨scale, inv, -, -⟩ := F.inv_eq_ok (Transform.two_pow_ne_zero F k)
  exact ⟨_, by rw [mulByTransform?, found, foundInv, inv]; rfl⟩

theorem mulByTransform_eq_convolved (hP : P.coefficients ≠ []) (hQ : Q.coefficients ≠ [])
    {length domain : Nat} (hl : length = P.coefficients.length + Q.coefficients.length - 1)
    (two : isTwoPower domain) (holds : length ≤ domain) (fits : domain ≤ 2 ^ F.twoOrder) :
    mulByTransform? F P Q length domain = some (convolved F P Q) := by
  obtain ⟨k, rfl⟩ := isTwoPower_iff.1 two
  obtain ⟨R, answer⟩ := exists_mulByTransform P Q length
    ((Nat.pow_le_pow_iff_right (le_refl 2)).1 fits)
  have lP := List.length_pos_iff.2 hP
  have lQ := List.length_pos_iff.2 hQ
  have same : R = convolved F P Q := eq_convolved
    ((length_mulByTransform (by omega) (by omega) holds answer).trans hl)
    (mulByTransform_lt answer) (polynomial_mulByTransform hP hQ hl holds answer)
  rw [answer, same]

/-- A product is the list of the sums, one for each power up to that of the two top coefficients, on
either path; without coefficients on one side it is a zero. So values multiply. -/
theorem mul_eq_convolved (P Q : Polynomial) :
    (P.coefficients = [] ∨ Q.coefficients = [] → P.mul F Q = ⟨[0]⟩) ∧
    (P.coefficients ≠ [] → Q.coefficients ≠ [] →
      let length := P.coefficients.length + Q.coefficients.length - 1
      P.mul F Q = convolved F P Q ∧ P.mulByTerms F Q = convolved F P Q ∧
        ∀ domain, isTwoPower domain → length ≤ domain → domain ≤ 2 ^ F.twoOrder →
          mulByTransform? F P Q length domain = some (convolved F P Q)) ∧
    ∀ x, (P.mul F Q).evaluate F x = F.mul (P.evaluate F x) (Q.evaluate F x) := by
  refine ⟨fun empty => ?_, fun hP hQ => ⟨?_, ?_, fun domain two holds fits => ?_⟩, fun x => ?_⟩
  · rw [mul, if_pos (by simpa using empty)]
    rfl
  · exact eq_convolved (length_mul hP hQ) (mul_lt P Q) (polynomial_mul P Q)
  · exact eq_convolved (length_mulByTerms hP hQ) (mulByTerms_lt F P Q)
      (polynomial_mulByTerms F P Q)
  · exact mulByTransform_eq_convolved hP hQ rfl two holds fits
  · rw [← F.cast_inj (evaluate_lt F _ x) (F.mul_lt _ _), F.cast_mul, cast_evaluate, cast_evaluate,
      cast_evaluate, polynomial_mul, Polynomial.eval_mul]

/-- Coefficients beyond the modulus and a leading zero, term by term and on a domain of eight. -/
theorem mul_eq_convolved_seventeen :
    mul .seventeen ⟨[]⟩ ⟨[16, 40, 0]⟩ = ⟨[0]⟩ ∧
      mul .seventeen ⟨[3, 20, 5]⟩ ⟨[16, 40, 0]⟩ = ⟨[14, 15, 13, 13, 0]⟩ ∧
      mulByTransform? .seventeen ⟨[3, 20, 5]⟩ ⟨[16, 40, 0]⟩ 5 8 =
        some ⟨[14, 15, 13, 13, 0]⟩ := by
  obtain ⟨empty, -, -⟩ := mul_eq_convolved (F := .seventeen) ⟨[]⟩ ⟨[16, 40, 0]⟩
  obtain ⟨-, product, -⟩ := mul_eq_convolved (F := .seventeen) ⟨[3, 20, 5]⟩ ⟨[16, 40, 0]⟩
  obtain ⟨whole, -, transformed⟩ := product (by decide) (by decide)
  have sums : convolved .seventeen ⟨[3, 20, 5]⟩ ⟨[16, 40, 0]⟩ = ⟨[14, 15, 13, 13, 0]⟩ := by decide
  rw [sums] at whole transformed
  exact ⟨empty (.inl rfl), whole, transformed 8 (by decide) (by decide) (by decide)⟩

end PrivateSums.Polynomial
