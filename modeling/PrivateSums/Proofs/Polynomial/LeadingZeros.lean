import PrivateSums.Proofs.Polynomial.Division

/-!
Polynomials up to leading zeros. Lists of canonical coefficients have the same terms when they are
the same polynomial over the residues, and the degree of a list is that of its polynomial.
-/

open scoped Polynomial

namespace PrivateSums.Polynomial

/-- The same coefficients at every power, so that the lists differ in leading zeros at most. -/
def SameTerms (P Q : Polynomial) : Prop :=
  ∀ i, P.coefficients.getD i 0 = Q.coefficients.getD i 0

/-- Beyond both lists all coefficients are zero. -/
instance (P Q : Polynomial) : Decidable (P.SameTerms Q) :=
  decidable_of_iff (∀ i < max P.coefficients.length Q.coefficients.length,
    P.coefficients.getD i 0 = Q.coefficients.getD i 0) <| by
    refine ⟨fun h i => ?_, fun h i _ => h i⟩
    obtain lt | ge := Nat.lt_or_ge i (max P.coefficients.length Q.coefficients.length)
    · exact h i lt
    · rw [List.getD_eq_default _ _ (le_of_max_le_left ge),
        List.getD_eq_default _ _ (le_of_max_le_right ge)]

example : (⟨[1, 2, 0]⟩ : Polynomial).SameTerms ⟨[1, 2]⟩ ∧
    ¬ (⟨[0, 1, 2]⟩ : Polynomial).SameTerms ⟨[1, 2]⟩ := by decide

/-- Lists of one length have no room for leading zeros to differ in. -/
theorem SameTerms.eq_of_length {P Q : Polynomial} (h : P.SameTerms Q)
    (length : P.coefficients.length = Q.coefficients.length) : P = Q := by
  obtain ⟨as⟩ := P
  obtain ⟨bs⟩ := Q
  congr 1
  refine List.ext_getElem length fun i hi hi' => ?_
  have entry := h i
  rwa [List.getD_eq_getElem _ _ hi, List.getD_eq_getElem _ _ hi'] at entry

/-- Nothing is trimmed below a coefficient that is not zero. -/
theorem trimmed_append_of_ne_zero (rest : List Nat) {top : Nat} (h : top ≠ 0) :
    trimmed (rest ++ [top]) = rest ++ [top] := by
  induction rest with
  | nil => rfl
  | cons a rest ih =>
    obtain ⟨b, bs, eq⟩ := List.exists_cons_of_ne_nil (l := rest ++ [top]) (by simp)
    rw [eq] at ih
    rw [List.cons_append, eq, trimmed_cons_cons, ih, if_neg]
    intro zero
    rw [zero] at eq
    cases rest with
    | nil => exact h (by simpa using eq)
    | cons c rest => simp at eq

@[simp] theorem trimmed_trimmed (as : List Nat) : trimmed (trimmed as) = trimmed as := by
  obtain ⟨a, eq⟩ | eq | ⟨rest, top, eq, ne⟩ := trimmed_cases as
  · rw [eq, trimmed]
  · rw [eq, trimmed]
  · rw [eq, trimmed_append_of_ne_zero rest ne]

@[simp] theorem trim_trim (P : Polynomial) : P.trim.trim = P.trim := by
  rw [trim, trim, trimmed_trimmed]

variable {F : Field} {P Q : Polynomial}

theorem getD_lt {as : List Nat} (canonical : ∀ c ∈ as, c < F.modulus) (i : Nat) :
    as.getD i 0 < F.modulus := by
  obtain lt | ge := Nat.lt_or_ge i as.length
  · rw [List.getD_eq_getElem _ _ lt]
    exact canonical _ (List.getElem_mem lt)
  · rw [List.getD_eq_default _ _ ge]
    exact F.modulus_pos

/-- Canonical coefficients are told apart by the polynomials over the residues. -/
theorem sameTerms_iff (hP : ∀ c ∈ P.coefficients, c < F.modulus)
    (hQ : ∀ c ∈ Q.coefficients, c < F.modulus) :
    P.SameTerms Q ↔ F.polynomial P.coefficients = F.polynomial Q.coefficients := by
  rw [Polynomial.ext_iff]
  refine forall_congr' fun i => ?_
  rw [F.coeff_polynomial, F.coeff_polynomial, F.cast_inj (getD_lt hP i) (getD_lt hQ i)]

theorem isZero_iff (canonical : ∀ c ∈ P.coefficients, c < F.modulus) :
    P.isZero ↔ F.polynomial P.coefficients = 0 := by
  have none : F.polynomial (⟨[]⟩ : Polynomial).coefficients = 0 := F.polynomial_nil
  rw [← none, ← sameTerms_iff canonical (by simp), isZero, List.all_eq_true]
  constructor
  · intro zero i
    obtain lt | ge := Nat.lt_or_ge i P.coefficients.length
    · rw [List.getD_eq_getElem _ _ lt]
      simpa using zero _ (List.getElem_mem lt)
    · rw [List.getD_eq_default _ _ ge]
      rfl
  · intro same c hc
    obtain ⟨i, hi, rfl⟩ := List.mem_iff_getElem.1 hc
    have entry := same i
    rw [List.getD_eq_getElem _ _ hi] at entry
    simpa using entry

/-- The degree of a list is that of its polynomial; both are zero for the zero polynomial. -/
theorem natDegree_polynomial (canonical : ∀ c ∈ P.coefficients, c < F.modulus) :
    (F.polynomial P.coefficients).natDegree = P.degree := by
  rw [degree, ← polynomial_trimmed]
  have small := mem_trimmed P.coefficients
  obtain ⟨a, eq⟩ | eq | ⟨rest, top, eq, ne⟩ := trimmed_cases P.coefficients
  · simp [eq, F.polynomial_cons]
  · simp [eq]
  · have unit : (top : F.Residue) ≠ 0 := by
      rw [Ne, F.cast_eq_zero (canonical top (small top (by simp [eq])))]
      exact ne
    rw [eq, List.length_append, List.length_singleton, Nat.add_sub_cancel]
    refine Polynomial.natDegree_eq_of_le_of_coeff_ne_zero ?_ ?_
    · have lt := F.degree_polynomial_lt (rest ++ [top])
      rw [List.length_append, List.length_singleton] at lt
      exact Polynomial.natDegree_le_of_degree_le (Order.le_of_lt_succ lt)
    · rw [F.coeff_polynomial]
      simpa using unit

theorem degree_lt_iff (canonical : ∀ c ∈ P.coefficients, c < F.modulus) {n : Nat} (pos : 0 < n) :
    P.degree < n ↔ (F.polynomial P.coefficients).degree < n := by
  rw [← natDegree_polynomial canonical]
  obtain zero | nonzero := eq_or_ne (F.polynomial P.coefficients) 0
  · simp [zero, pos]
  · exact Polynomial.natDegree_lt_iff_degree_lt nonzero

theorem length_of_trim (trimmed : P.trim = P) (some : P.coefficients ≠ []) :
    P.coefficients.length = P.degree + 1 := by
  have pos := List.length_pos_iff.2 some
  have same : P.degree = P.coefficients.length - 1 :=
    congrArg (fun R : Polynomial => R.coefficients.length - 1) trimmed
  omega

/-- Trimmed lists that have a coefficient are told apart by the polynomials over the residues. -/
theorem eq_of_trim (hP : ∀ c ∈ P.coefficients, c < F.modulus)
    (hQ : ∀ c ∈ Q.coefficients, c < F.modulus) (trimmedP : P.trim = P) (trimmedQ : Q.trim = Q)
    (someP : P.coefficients ≠ []) (someQ : Q.coefficients ≠ [])
    (h : F.polynomial P.coefficients = F.polynomial Q.coefficients) : P = Q := by
  refine ((sameTerms_iff hP hQ).2 h).eq_of_length ?_
  rw [length_of_trim trimmedP someP, length_of_trim trimmedQ someQ, ← natDegree_polynomial hP,
    ← natDegree_polynomial hQ, h]

/-- Zero has no degree below that of a constant, so it is named apart. -/
theorem isZero_or_degree_lt_iff (hP : ∀ c ∈ P.coefficients, c < F.modulus)
    (hQ : ∀ c ∈ Q.coefficients, c < F.modulus) (nonzero : F.polynomial Q.coefficients ≠ 0) :
    P.isZero ∨ P.degree < Q.degree ↔
      (F.polynomial P.coefficients).degree < (F.polynomial Q.coefficients).degree := by
  rw [isZero_iff hP, ← natDegree_polynomial hP, ← natDegree_polynomial hQ]
  obtain zero | nonzero' := eq_or_ne (F.polynomial P.coefficients) 0
  · rw [zero, Polynomial.degree_zero]
    simp [bot_lt_iff_ne_bot, nonzero]
  · rw [Polynomial.natDegree_lt_natDegree_iff nonzero', or_iff_right nonzero']

end PrivateSums.Polynomial
