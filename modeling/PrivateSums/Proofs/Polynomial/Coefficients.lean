import Mathlib.Algebra.Polynomial.BigOperators
import Mathlib.Algebra.Polynomial.Eval.Degree
import Mathlib.Algebra.Polynomial.Roots
import Mathlib.Data.List.GetD
import PrivateSums.Polynomial.Transform
import PrivateSums.Proofs.Field.RootsOfUnity

/-!
Lists of coefficients as polynomials over the residues, and what changes to the list do to the
polynomial.
-/

open scoped Polynomial

namespace PrivateSums.Field

variable (F : Field)

/-- The polynomial with these coefficients, from the constant term up. -/
noncomputable def polynomial : List Nat → F.Residue[X]
  | [] => 0
  | a :: as => Polynomial.C (a : F.Residue) + Polynomial.X * polynomial as

@[simp] theorem polynomial_nil : F.polynomial [] = 0 := rfl

theorem polynomial_cons (a : Nat) (as : List Nat) :
    F.polynomial (a :: as) = Polynomial.C (a : F.Residue) + Polynomial.X * F.polynomial as := rfl

theorem eval_polynomial_cons (a : Nat) (as : List Nat) (x : F.Residue) :
    (F.polynomial (a :: as)).eval x = a + x * (F.polynomial as).eval x := by
  simp [polynomial_cons]

theorem eval_polynomial (as : List Nat) (x : F.Residue) : (F.polynomial as).eval x =
    ∑ i ∈ Finset.range as.length, ((as.getD i 0 : Nat) : F.Residue) * x ^ i := by
  induction as with
  | nil => simp
  | cons a as ih =>
    rw [eval_polynomial_cons, ih, List.length_cons, Finset.sum_range_succ', Finset.mul_sum,
      add_comm]
    simp [pow_succ', mul_left_comm]

theorem coeff_polynomial (as : List Nat) (i : Nat) :
    (F.polynomial as).coeff i = ((as.getD i 0 : Nat) : F.Residue) := by
  induction as generalizing i with
  | nil => simp
  | cons a as ih => cases i <;> simp [polynomial_cons, Polynomial.coeff_X_mul, ih]

theorem degree_polynomial_lt (as : List Nat) : (F.polynomial as).degree < as.length := by
  rw [Polynomial.degree_lt_iff_coeff_zero]
  intro i hi
  rw [coeff_polynomial, List.getD_eq_default _ _ hi, Nat.cast_zero]

theorem polynomial_append (as bs : List Nat) : F.polynomial (as ++ bs) =
    F.polynomial as + Polynomial.X ^ as.length * F.polynomial bs := by
  induction as with
  | nil => simp
  | cons a as ih =>
    rw [List.cons_append, polynomial_cons, ih, polynomial_cons, List.length_cons]
    ring

@[simp] theorem polynomial_replicate_zero (n : Nat) : F.polynomial (List.replicate n 0) = 0 := by
  induction n with
  | zero => rfl
  | succ n ih => simp [List.replicate_succ, polynomial_cons, ih]

@[simp] theorem polynomial_padded (n : Nat) (as : List Nat) :
    F.polynomial (Transform.padded n as) = F.polynomial as := by
  rw [Transform.padded, polynomial_append, polynomial_replicate_zero, mul_zero, add_zero]

/-- Lists of one length with canonical entries are told apart by their polynomials. -/
theorem polynomial_injective {as bs : List Nat} (length : as.length = bs.length)
    (ha : ∀ a ∈ as, a < F.modulus) (hb : ∀ b ∈ bs, b < F.modulus)
    (h : F.polynomial as = F.polynomial bs) : as = bs := by
  apply List.ext_getElem length
  intro i hi hi'
  have coeff := congrArg (Polynomial.coeff · i) h
  simp only [coeff_polynomial, List.getD_eq_getElem _ _ hi, List.getD_eq_getElem _ _ hi'] at coeff
  exact (F.cast_inj (ha _ (List.getElem_mem hi)) (hb _ (List.getElem_mem hi'))).1 coeff

theorem polynomial_zipWith_add {as bs : List Nat} (h : as.length = bs.length) :
    F.polynomial (List.zipWith F.add as bs) = F.polynomial as + F.polynomial bs := by
  induction as generalizing bs with
  | nil => cases bs <;> simp_all
  | cons a as ih =>
    obtain ⟨b, bs, rfl⟩ := List.exists_cons_of_length_eq_add_one h.symm
    rw [List.zipWith_cons_cons, polynomial_cons, ih (by simpa using h), polynomial_cons,
      polynomial_cons, cast_add, Polynomial.C_add]
    ring

theorem polynomial_zipWith_sub {as bs : List Nat} (h : as.length = bs.length) :
    F.polynomial (List.zipWith F.sub as bs) = F.polynomial as - F.polynomial bs := by
  induction as generalizing bs with
  | nil => cases bs <;> simp_all
  | cons a as ih =>
    obtain ⟨b, bs, rfl⟩ := List.exists_cons_of_length_eq_add_one h.symm
    rw [List.zipWith_cons_cons, polynomial_cons, ih (by simpa using h), polynomial_cons,
      polynomial_cons, cast_sub, Polynomial.C_sub]
    ring

theorem polynomial_map_mul (s : Nat) (as : List Nat) :
    F.polynomial (as.map (F.mul · s)) = Polynomial.C (s : F.Residue) * F.polynomial as := by
  induction as with
  | nil => simp
  | cons a as ih =>
    rw [List.map_cons, polynomial_cons, ih, polynomial_cons, cast_mul, Polynomial.C_mul]
    ring

/-- Multiplying coefficients by the powers of `w` scales the argument by `w`. -/
theorem eval_polynomial_zipWith_mul {c w : F.Residue} {as ws : List Nat}
    (hw : F.Geometric c w ws) (h : as.length ≤ ws.length) (x : F.Residue) :
    (F.polynomial (List.zipWith F.mul as ws)).eval x = c * (F.polynomial as).eval (w * x) := by
  induction as generalizing ws c with
  | nil => simp
  | cons a as ih =>
    cases ws with
    | nil => simp at h
    | cons v ws =>
      rw [List.zipWith_cons_cons, eval_polynomial_cons, ih hw.tail (by simpa using h),
        eval_polynomial_cons, cast_mul, hw.head]
      ring

end PrivateSums.Field
