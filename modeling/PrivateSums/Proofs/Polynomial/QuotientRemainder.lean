import Mathlib.Algebra.Polynomial.FieldDivision
import PrivateSums.Proofs.Polynomial.LeadingZeros

/-!
What division answers. Its quotient and remainder are canonical and the only ones of the dividend,
up to leading zeros, and it fails on zero divisors alone.
-/

open scoped Polynomial

namespace PrivateSums.Field

/-- All entries are below the modulus. -/
def Canonical (F : Field) (values : List Nat) : Prop := ∀ v ∈ values, v < F.modulus

/-- All entries are below the modulus, but for those that stand in the same place of `as`. -/
def CanonicalBut (F : Field) (as values : List Nat) : Prop :=
  ∀ i v : Nat, values[i]? = some v → v < F.modulus ∨ as[i]? = some v

variable {F : Field} {as values start : List Nat}

theorem Canonical.but (h : F.Canonical values) (as : List Nat) : F.CanonicalBut as values :=
  fun _ v found => .inl (h v (List.mem_of_getElem? found))

theorem CanonicalBut.canonical (h : F.CanonicalBut as values) (ha : F.Canonical as) :
    F.Canonical values := by
  intro v hv
  obtain ⟨i, found⟩ := List.mem_iff_getElem?.1 hv
  obtain lt | same := h i v found
  · exact lt
  · exact ha v (List.mem_of_getElem? same)

theorem getElem?_of_isPrefix {i v : Nat} (h : start <+: values) (found : start[i]? = some v) :
    values[i]? = some v := by
  obtain ⟨rest, rfl⟩ := h
  obtain ⟨hi, -⟩ := List.getElem?_eq_some_iff.1 found
  rwa [List.getElem?_append_left hi]

theorem CanonicalBut.of_isPrefix (h : F.CanonicalBut as values) (cut : start <+: values) :
    F.CanonicalBut as start := fun i v found => h i v (getElem?_of_isPrefix cut found)

theorem CanonicalBut.mono (h : F.CanonicalBut start values) (cut : start <+: as) :
    F.CanonicalBut as values := fun i v found =>
  (h i v found).imp_right (getElem?_of_isPrefix cut)

end PrivateSums.Field

namespace PrivateSums.Polynomial

variable {F : Field} {P divisor Q R Q' R' : Polynomial}

/-- A quotient and a remainder of a dividend, by the operations of the field. -/
structure QuotientRemainder (F : Field) (P divisor Q R : Polynomial) : Prop where
  quotient_lt : ∀ c ∈ Q.coefficients, c < F.modulus
  remainder_lt : ∀ c ∈ R.coefficients, c < F.modulus
  sum : ((Q.mul F divisor).add F R).SameTerms P
  small : R.isZero ∨ R.degree < divisor.degree

section Canonical

variable {places : List Nat} {degree leadInverse : Nat} {state : List Nat × List Nat}

/-- A place of a long division puts a canonical digit before the quotient. -/
theorem canonical_divisionStep (a : Nat) (h : F.Canonical state.1) :
    F.Canonical (divisionStep F places degree leadInverse a state).1 := by
  unfold divisionStep
  dsimp only
  split
  · exact h
  · exact List.forall_mem_cons.2 ⟨F.modulus_pos, h⟩
  · exact List.forall_mem_cons.2 ⟨F.mul_lt _ _, h⟩

/-- A place of a long division leaves an entry of its window as it entered, or reduces it. -/
theorem canonicalBut_divisionStep {as : List Nat} (a : Nat) (h : F.CanonicalBut as state.2) :
    F.CanonicalBut (a :: as) (divisionStep F places degree leadInverse a state).2 := by
  have entered : F.CanonicalBut (a :: as) (a :: state.2.take degree) := by
    intro i v found
    cases i with
    | zero => exact .inr found
    | succ i => exact h.of_isPrefix ⟨_, List.take_append_drop degree state.2⟩ i v found
  unfold divisionStep
  dsimp only
  split
  · exact entered
  · exact entered
  · exact Field.Canonical.but
      (Transform.mem_zipWith_lt F (fun r d => F.sub_lt r (F.mul d _)) _ _) _

theorem canonical_foldr_divisionStep (as : List Nat) :
    F.Canonical (as.foldr (divisionStep F places degree leadInverse) ([], [])).1 := by
  induction as with
  | nil => exact fun _ hv => nomatch hv
  | cons a as ih => exact canonical_divisionStep a ih

theorem canonicalBut_foldr_divisionStep (as : List Nat) :
    F.CanonicalBut as (as.foldr (divisionStep F places degree leadInverse) ([], [])).2 := by
  induction as with
  | nil => exact fun i v found => by simp at found
  | cons a as ih => exact canonicalBut_divisionStep a ih

theorem canonicalBut_trim_take {as window : List Nat} (h : F.CanonicalBut as window) (n : Nat) :
    F.CanonicalBut as (trim ⟨window.take n⟩).coefficients :=
  h.of_isPrefix ((trimmed_isPrefix _).trans ⟨_, List.take_append_drop n window⟩)

/-- Whatever is divided, the quotient is canonical, and of the remainder what is not canonical has
been left as it was in the dividend. -/
theorem canonical_of_divRem (h : P.divRem F divisor = .ok (Q, R)) :
    F.Canonical Q.coefficients ∧ F.CanonicalBut P.coefficients R.coefficients := by
  unfold divRem at h
  dsimp only at h
  split at h
  · obtain ⟨leadInverse, -, h⟩ := Answer.bind_eq_ok.1 h
    obtain ⟨rfl, rfl⟩ := Prod.mk.inj (Except.ok.inj h)
    constructor
    · split
      · simp [Field.Canonical, zero, F.modulus_pos]
      · exact canonical_foldr_divisionStep _
    · exact (canonicalBut_trim_take (canonicalBut_foldr_divisionStep _) _).mono
        (trimmed_isPrefix P.coefficients)
  · cases h

end Canonical

/-- Division finds no leading coefficient in a list of zeros. -/
theorem divRem_of_zero (P : Polynomial) (zero : ∀ c ∈ divisor.coefficients, c = 0) :
    P.divRem F divisor = .error .divisionByZero := by
  have none : divisor.trim.leading? = none := by
    rw [leading?, List.findRev?_eq_find?_reverse, List.find?_eq_none]
    intro c hc
    simp [zero c (mem_trimmed _ c (List.mem_reverse.1 hc))]
  simp only [divRem, none]
  rfl

/-- The places of a trimmed divisor tell its degree. -/
theorem degree_divisor (hD : ∀ c ∈ divisor.coefficients, c < F.modulus)
    (nonzero : F.polynomial divisor.coefficients ≠ 0) {degree : Nat}
    (length : divisor.trim.coefficients.length = degree + 1) :
    (F.polynomial divisor.coefficients).degree = degree := by
  have top : divisor.degree = degree := by
    change divisor.trim.coefficients.length - 1 = degree
    rw [length, Nat.add_sub_cancel]
  rw [Polynomial.degree_eq_natDegree nonzero, natDegree_polynomial hD, top]

section Prime

variable [Fact F.modulus.Prime]

/-- Over the residues, a quotient and a remainder are those of polynomials over a field. -/
theorem quotientRemainder_iff (hP : ∀ c ∈ P.coefficients, c < F.modulus)
    (hD : ∀ c ∈ divisor.coefficients, c < F.modulus)
    (nonzero : F.polynomial divisor.coefficients ≠ 0)
    (hQ : ∀ c ∈ Q.coefficients, c < F.modulus) (hR : ∀ c ∈ R.coefficients, c < F.modulus) :
    QuotientRemainder F P divisor Q R ↔
      F.polynomial P.coefficients =
        F.polynomial Q.coefficients * F.polynomial divisor.coefficients +
          F.polynomial R.coefficients ∧
      (F.polynomial R.coefficients).degree < (F.polynomial divisor.coefficients).degree := by
  have sum : ((Q.mul F divisor).add F R).SameTerms P ↔ _ := sameTerms_iff (add_lt _ _) hP
  rw [polynomial_add, polynomial_mul, eq_comm] at sum
  have small := isZero_or_degree_lt_iff hR hD nonzero
  constructor
  · intro h
    exact ⟨sum.1 h.sum, small.1 h.small⟩
  · rintro ⟨adds, low⟩
    exact ⟨hQ, hR, sum.2 adds, small.2 low⟩

/-- No other quotient and remainder go with a dividend. -/
theorem QuotientRemainder.unique (hP : ∀ c ∈ P.coefficients, c < F.modulus)
    (hD : ∀ c ∈ divisor.coefficients, c < F.modulus)
    (nonzero : F.polynomial divisor.coefficients ≠ 0) (h : QuotientRemainder F P divisor Q R)
    (h' : QuotientRemainder F P divisor Q' R') : Q'.SameTerms Q ∧ R'.SameTerms R := by
  obtain ⟨sum, small⟩ := (quotientRemainder_iff hP hD nonzero h.quotient_lt h.remainder_lt).1 h
  obtain ⟨sum', small'⟩ :=
    (quotientRemainder_iff hP hD nonzero h'.quotient_lt h'.remainder_lt).1 h'
  rw [sameTerms_iff h'.quotient_lt h.quotient_lt, sameTerms_iff h'.remainder_lt h.remainder_lt]
  have modulo (f g : F.Residue[X]) (low : g.degree < (F.polynomial divisor.coefficients).degree) :
      (f * F.polynomial divisor.coefficients + g) % F.polynomial divisor.coefficients = g := by
    rw [Polynomial.add_mod, EuclideanDomain.mod_eq_zero.2 (dvd_mul_left _ _), zero_add,
      (Polynomial.mod_eq_self_iff nonzero).2 low]
  have remainder : F.polynomial R'.coefficients = F.polynomial R.coefficients := by
    rw [← modulo _ _ small', ← sum', sum, modulo _ _ small]
  have products := sum'.symm.trans sum
  rw [remainder, add_left_inj] at products
  exact ⟨mul_right_cancel₀ nonzero products, remainder⟩

/-- Division by a divisor that is not zero answers a quotient and a remainder. -/
theorem exists_quotientRemainder (hP : ∀ c ∈ P.coefficients, c < F.modulus)
    (hD : ∀ c ∈ divisor.coefficients, c < F.modulus)
    (nonzero : F.polynomial divisor.coefficients ≠ 0) :
    ∃ Q R, P.divRem F divisor = .ok (Q, R) ∧ R.trim = R ∧ QuotientRemainder F P divisor Q R := by
  obtain ⟨degree, state, length, divided, ok⟩ := exists_divided P hD nonzero
  obtain ⟨quotient, remainder⟩ := canonical_of_divRem ok
  refine ⟨_, _, ok, trim_trim _, (quotientRemainder_iff hP hD nonzero quotient
    (remainder.canonical hP)).2 ⟨?_, ?_⟩⟩
  · rw [polynomial_quotient, divided.polynomial_remainder, ← polynomial_trim P,
      ← polynomial_trim divisor, divided.sum]
  · rw [divided.polynomial_remainder, degree_divisor hD nonzero length,
      Polynomial.degree_lt_iff_coeff_zero]
    intro i hi
    rw [F.coeff_polynomial, divided.high i hi]

/-- Division fails on zero divisors alone. On every other it answers a quotient and a trimmed
remainder of the dividend, and there are no others up to leading zeros. -/
theorem divRem_quotientRemainder (hP : ∀ c ∈ P.coefficients, c < F.modulus)
    (hD : ∀ c ∈ divisor.coefficients, c < F.modulus) :
    (P.divRem F divisor = .error .divisionByZero ↔ ∀ c ∈ divisor.coefficients, c = 0) ∧
    ((∃ c ∈ divisor.coefficients, c ≠ 0) → ∃ Q R, P.divRem F divisor = .ok (Q, R) ∧
      R.trim = R ∧ QuotientRemainder F P divisor Q R ∧
      ∀ Q' R', QuotientRemainder F P divisor Q' R' → Q'.SameTerms Q ∧ R'.SameTerms R) := by
  have nonzero (some : ∃ c ∈ divisor.coefficients, c ≠ 0) :
      F.polynomial divisor.coefficients ≠ 0 := by
    rw [Ne, ← isZero_iff hD, isZero, List.all_eq_true]
    simpa using some
  constructor
  · constructor
    · intro failed
      by_contra some
      obtain ⟨Q, R, ok, -⟩ := exists_quotientRemainder hP hD (nonzero (by simpa using some))
      cases failed.symm.trans ok
    · exact divRem_of_zero P
  · intro some
    obtain ⟨Q, R, ok, trimmed, divides⟩ := exists_quotientRemainder hP hD (nonzero some)
    exact ⟨Q, R, ok, trimmed, divides, fun Q' R' h => divides.unique hP hD (nonzero some) h⟩

/-- Leading zeros on both sides, and a divisor of zeros. -/
theorem divRem_quotientRemainder_seventeen :
    divRem .seventeen ⟨[3, 16]⟩ ⟨[0, 0]⟩ = .error .divisionByZero ∧
      divRem .seventeen ⟨[3, 16, 0, 5, 9, 0]⟩ ⟨[1, 4, 2, 0]⟩ = .ok (⟨[15, 2, 13]⟩, ⟨[5, 5]⟩) ∧
      QuotientRemainder .seventeen ⟨[3, 16, 0, 5, 9, 0]⟩ ⟨[1, 4, 2, 0]⟩ ⟨[15, 2, 13]⟩ ⟨[5, 5]⟩ ∧
      ∀ Q R, QuotientRemainder .seventeen ⟨[3, 16, 0, 5, 9, 0]⟩ ⟨[1, 4, 2, 0]⟩ Q R →
        Q.SameTerms ⟨[15, 2, 13]⟩ ∧ R.SameTerms ⟨[5, 5]⟩ := by
  have zeros : ∀ c ∈ (⟨[0, 0]⟩ : Polynomial).coefficients, c < Field.seventeen.modulus := by decide
  have terms : ∀ c ∈ (⟨[1, 4, 2, 0]⟩ : Polynomial).coefficients, c < Field.seventeen.modulus := by
    decide
  obtain ⟨zero, -⟩ := divRem_quotientRemainder (P := ⟨[3, 16]⟩) (by decide) zeros
  obtain ⟨-, answers⟩ :=
    divRem_quotientRemainder (P := ⟨[3, 16, 0, 5, 9, 0]⟩) (by decide) terms
  obtain ⟨Q, R, ok, -, divides, unique⟩ := answers ⟨1, by decide, by decide⟩
  obtain ⟨rfl, rfl⟩ : (⟨[15, 2, 13]⟩ : Polynomial) = Q ∧ (⟨[5, 5]⟩ : Polynomial) = R :=
    Prod.mk.inj (Except.ok.inj (.trans (by decide +kernel) ok))
  exact ⟨zero.2 (by decide), ok, divides, unique⟩

end Prime

end PrivateSums.Polynomial
