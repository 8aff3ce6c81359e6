import Mathlib.Tactic.LinearCombination
import PrivateSums.Polynomial.Division
import PrivateSums.Proofs.Polynomial.Product

/-!
Long division leaves a quotient and a remainder of the dividend. It fails on no divisor that is not
zero.
-/

open scoped Polynomial

namespace PrivateSums.Polynomial

variable {F : Field} {as : List Nat}

theorem trimmed_cons_cons (a b : Nat) (as : List Nat) : trimmed (a :: b :: as) =
    if trimmed (b :: as) = [0] then [a] else a :: trimmed (b :: as) := rfl

theorem trimmed_ne_nil (h : as ≠ []) : trimmed as ≠ [] := by
  match as with
  | [a] => simp [trimmed]
  | a :: b :: as =>
    rw [trimmed_cons_cons]
    split <;> simp

@[simp] theorem polynomial_trimmed (as : List Nat) :
    F.polynomial (trimmed as) = F.polynomial as := by
  match as with
  | [] => rfl
  | [a] => rfl
  | a :: b :: as =>
    have rest := polynomial_trimmed (b :: as)
    rw [trimmed_cons_cons]
    split
    · rename_i zero
      rw [F.polynomial_cons a (b :: as), ← rest, zero]
      simp [F.polynomial_cons]
    · rw [F.polynomial_cons, rest, F.polynomial_cons a]

theorem polynomial_trim (P : Polynomial) :
    F.polynomial P.trim.coefficients = F.polynomial P.coefficients :=
  polynomial_trimmed P.coefficients

theorem trimmed_isPrefix (as : List Nat) : trimmed as <+: as := by
  match as with
  | [] => exact ⟨[], rfl⟩
  | [a] => exact ⟨[], rfl⟩
  | a :: b :: as =>
    obtain ⟨zeros, eq⟩ := trimmed_isPrefix (b :: as)
    rw [trimmed_cons_cons]
    split
    · exact ⟨b :: as, rfl⟩
    · exact ⟨zeros, by rw [List.cons_append, eq]⟩

theorem mem_trimmed (as : List Nat) : ∀ a ∈ trimmed as, a ∈ as := fun _ h =>
  (trimmed_isPrefix as).subset h

/-- What is trimmed ends in a coefficient that is not zero, or is a constant. -/
theorem trimmed_cases (as : List Nat) : (∃ a, trimmed as = [a]) ∨ trimmed as = [] ∨
    ∃ rest top, trimmed as = rest ++ [top] ∧ top ≠ 0 := by
  match as with
  | [] => exact .inr (.inl rfl)
  | [a] => exact .inl ⟨a, rfl⟩
  | a :: b :: as =>
    rw [trimmed_cons_cons]
    split
    · exact .inl ⟨a, rfl⟩
    · rename_i nonzero
      obtain ⟨c, hc⟩ | empty | ⟨rest, top, eq, ne⟩ := trimmed_cases (b :: as)
      · exact .inr (.inr ⟨[a], c, by rw [hc]; rfl, fun zero => nonzero (by rw [hc, zero])⟩)
      · exact absurd empty (trimmed_ne_nil (List.cons_ne_nil _ _))
      · exact .inr (.inr ⟨a :: rest, top, by rw [eq]; rfl, ne⟩)

/-- A trimmed list of a polynomial that is not zero ends in its leading coefficient. -/
theorem exists_leading {P : Polynomial} (nonzero : F.polynomial P.coefficients ≠ 0) :
    ∃ rest lead, P.trim.coefficients = rest ++ [lead] ∧ lead ≠ 0 ∧
      P.trim.leading? = some lead := by
  suffices ∃ rest lead, P.trim.coefficients = rest ++ [lead] ∧ lead ≠ 0 by
    obtain ⟨rest, lead, eq, ne⟩ := this
    refine ⟨rest, lead, eq, ne, ?_⟩
    rw [leading?, eq, List.findRev?_eq_find?_reverse]
    simp [ne]
  rw [← polynomial_trimmed] at nonzero
  obtain ⟨a, ha⟩ | empty | found := trimmed_cases P.coefficients
  · refine ⟨[], a, ha, fun zero => nonzero ?_⟩
    rw [ha, zero]
    simp [F.polynomial_cons]
  · rw [empty] at nonzero
    exact absurd F.polynomial_nil nonzero
  · exact found

/-- What a long division by `divisor` has kept of the coefficients `as` so far. -/
structure Divided (F : Field) (divisor : List Nat) (degree : Nat) (as : List Nat)
    (state : List Nat × List Nat) : Prop where
  sum : F.polynomial as = F.polynomial state.1 * F.polynomial divisor + F.polynomial state.2
  high : ∀ i, degree ≤ i → ((state.2.getD i 0 : Nat) : F.Residue) = 0
  full : state.1 ≠ [] → degree ≤ state.2.length

variable {divisor : List Nat} {degree leadInverse : Nat} {state : List Nat × List Nat}

/-- The window with the next coefficient in it, before a digit is taken off. -/
theorem Divided.entered (h : Divided F divisor degree as state) (a : Nat) :
    F.polynomial (a :: as) = .X * F.polynomial state.1 * F.polynomial divisor +
      F.polynomial (a :: state.2.take degree) := by
  rw [F.polynomial_cons, F.polynomial_cons, F.polynomial_take h.high, h.sum]
  ring

theorem getD_window (a : Nat) (window : List Nat) {i : Nat} (h : degree < i) :
    (a :: window.take degree).getD i 0 = 0 := by
  apply List.getD_eq_default
  rw [List.length_cons, List.length_take]
  omega

theorem zipWith_takeOff (window : List Nat) (digit : Nat) :
    List.zipWith (fun r d => F.sub r (F.mul d digit)) window divisor =
      List.zipWith F.sub window (divisor.map (F.mul · digit)) :=
  List.zipWith_map_right.symm

/-- Each place of a long division keeps the sum. The digit cancels the top of the window. -/
theorem Divided.step (length : divisor.length = degree + 1)
    (lead : ((divisor.getD degree 0 : Nat) : F.Residue) * leadInverse = 1)
    (h : Divided F divisor degree as state) (a : Nat) :
    Divided F divisor degree (a :: as) (divisionStep F divisor degree leadInverse a state) := by
  obtain ⟨quotient, window⟩ := state
  have entered := h.entered a
  unfold divisionStep
  dsimp only at entered ⊢
  split
  · rename_i short
    have le : window.length < degree := by
      have := List.getElem?_eq_none_iff.1 short
      rw [List.length_cons, List.length_take] at this
      omega
    obtain rfl : quotient = [] := by
      by_contra ne
      exact absurd (h.full ne) (Nat.not_le.2 le)
    refine ⟨by rw [entered]; simp, fun i hi => ?_, fun ne => absurd rfl ne⟩
    rw [List.getD_eq_default, Nat.cast_zero]
    rw [List.length_cons, List.length_take]
    omega
  · rename_i zero
    obtain ⟨lt, -⟩ := List.getElem?_eq_some_iff.1 zero
    refine ⟨?_, fun i hi => ?_, fun _ => lt.le⟩
    · rw [entered, F.polynomial_cons 0]
      simp
    · obtain rfl | gt := Nat.eq_or_lt_of_le hi
      · rw [List.getD_eq_getElem?_getD, zero, Option.getD_some, Nat.cast_zero]
      · rw [getD_window a window gt, Nat.cast_zero]
  · rename_i top _ found
    obtain ⟨lt, -⟩ := List.getElem?_eq_some_iff.1 found
    have full : (a :: window.take degree).length = degree + 1 := by
      rw [List.length_cons, List.length_take] at lt ⊢
      omega
    have equal : (a :: window.take degree).length =
        (divisor.map (F.mul · (F.mul top leadInverse))).length := by
      rw [full, List.length_map, length]
    have kept := F.polynomial_zipWith_sub equal
    rw [F.polynomial_map_mul] at kept
    refine ⟨?_, fun i hi => ?_, fun _ => ?_⟩
    · rw [entered, zipWith_takeOff, kept, F.polynomial_cons (F.mul top leadInverse)]
      ring
    · rw [zipWith_takeOff, ← F.coeff_polynomial, kept, Polynomial.coeff_sub,
        Polynomial.coeff_C_mul, F.coeff_polynomial, F.coeff_polynomial]
      obtain rfl | gt := Nat.eq_or_lt_of_le hi
      · rw [List.getD_eq_getElem?_getD, found, Option.getD_some, F.cast_mul]
        linear_combination -(top : F.Residue) * lead
      · rw [getD_window a window gt, List.getD_eq_default divisor _ (by omega)]
        simp
    · rw [zipWith_takeOff, List.length_zipWith, ← equal, full]
      omega

theorem Divided.foldr (length : divisor.length = degree + 1)
    (lead : ((divisor.getD degree 0 : Nat) : F.Residue) * leadInverse = 1) (as : List Nat) :
    Divided F divisor degree as
      (as.foldr (divisionStep F divisor degree leadInverse) ([], [])) := by
  induction as with
  | nil => exact ⟨by simp, by simp, fun ne => absurd rfl ne⟩
  | cons a as ih => exact ih.step length lead a

theorem polynomial_quotient (quotient : List Nat) :
    F.polynomial (if quotient.isEmpty then zero 1 else ⟨quotient⟩ : Polynomial).coefficients =
      F.polynomial quotient := by
  cases quotient <;> simp [zero, F.polynomial_cons]

/-- Division by a canonical divisor that is not zero answers with what its places have kept. -/
theorem exists_divided [Fact F.modulus.Prime] (P : Polynomial) {divisor : Polynomial}
    (canonical : ∀ c ∈ divisor.coefficients, c < F.modulus)
    (nonzero : F.polynomial divisor.coefficients ≠ 0) :
    ∃ degree state, divisor.trim.coefficients.length = degree + 1 ∧
      Divided F divisor.trim.coefficients degree P.trim.coefficients state ∧
      P.divRem F divisor = .ok (if state.1.isEmpty then zero 1 else ⟨state.1⟩,
        trim ⟨state.2.take (max degree 1)⟩) := by
  obtain ⟨rest, lead, eq, ne, leading⟩ := exists_leading nonzero
  have small : lead < F.modulus := canonical lead
    (mem_trimmed divisor.coefficients lead (by rw [show trimmed _ = _ from eq]; simp))
  have unit : (lead : F.Residue) ≠ 0 := fun zero => ne ((F.cast_eq_zero small).1 zero)
  obtain ⟨leadInverse, inv, -, cast⟩ := F.inv_eq_ok unit
  have product : (lead : F.Residue) * leadInverse = 1 := by rw [cast, mul_inv_cancel₀ unit]
  have length : divisor.trim.coefficients.length = rest.length + 1 := by simp [eq]
  have top :
      ((divisor.trim.coefficients.getD rest.length 0 : Nat) : F.Residue) * leadInverse = 1 := by
    simpa [eq] using product
  refine ⟨rest.length, _, length, Divided.foldr length top P.trim.coefficients, ?_⟩
  simp only [divRem, leading, inv, length]
  rfl

/-- What is cut off the window for the remainder is zero. -/
theorem Divided.polynomial_remainder (h : Divided F divisor degree as state) :
    F.polynomial (trim ⟨state.2.take (max degree 1)⟩).coefficients = F.polynomial state.2 := by
  rw [polynomial_trim, F.polynomial_take fun i hi => h.high i (le_of_max_le_left hi)]

/-- Division by a canonical divisor that is not zero answers, and the dividend is the quotient
times the divisor plus the remainder. -/
theorem divRem_eq_ok [Fact F.modulus.Prime] (P : Polynomial) {divisor : Polynomial}
    (canonical : ∀ c ∈ divisor.coefficients, c < F.modulus)
    (nonzero : F.polynomial divisor.coefficients ≠ 0) :
    ∃ Q R, P.divRem F divisor = .ok (Q, R) ∧ F.polynomial P.coefficients =
      F.polynomial Q.coefficients * F.polynomial divisor.coefficients +
        F.polynomial R.coefficients := by
  obtain ⟨degree, state, -, divided, ok⟩ := exists_divided P canonical nonzero
  refine ⟨_, _, ok, ?_⟩
  rw [polynomial_quotient, divided.polynomial_remainder, ← polynomial_trim P,
    ← polynomial_trim divisor, divided.sum]

end PrivateSums.Polynomial
