import Mathlib.Data.Nat.PSub
import PrivateSums.Proofs.Field.RootsOfUnity

/-!
Arithmetic on arbitrary naturals is that of the residues. Every operation answers the canonical
number of the residue, no subtraction in it stops at zero, and only multiples of the modulus have
no inverse.
-/

namespace PrivateSums.Field

/-- The canonical number of a residue. -/
structure Represents (F : Field) (a : Nat) (r : F.Residue) : Prop where
  lt : a < F.modulus
  cast_eq : (a : F.Residue) = r

section Checked

/-! The operations that subtract naturals, once more with a subtraction that fails where that of
naturals would stop at zero. -/

variable (F : Field) (a b : Nat)

def checkedSub : Option Nat := do
  return (← Nat.psub (a + F.modulus) (b % F.modulus)) % F.modulus

def checkedNeg : Option Nat :=
  if a % F.modulus = 0 then some 0 else Nat.psub F.modulus (a % F.modulus)

def checkedInv : Option (Except FieldError Nat) :=
  if a % F.modulus = 0 then some (.error .notInvertible)
  else do return .ok (powMod (a % F.modulus) (← Nat.psub F.modulus 2) F.modulus)

def checkedOfInt : Int → Option Nat
  | .ofNat a => some (F.reduce a)
  | .negSucc a => F.checkedNeg (F.reduce (a + 1))

theorem checkedSub_eq : F.checkedSub a b = some (F.sub a b) := by
  have le : b % F.modulus ≤ a + F.modulus :=
    le_trans (Nat.mod_lt b F.modulus_pos).le (Nat.le_add_left ..)
  rw [checkedSub, Nat.psub_eq_sub le]
  rfl

theorem checkedNeg_eq : F.checkedNeg a = some (F.neg a) := by
  unfold checkedNeg neg
  split
  · rfl
  · exact Nat.psub_eq_sub (Nat.mod_lt a F.modulus_pos).le

theorem checkedInv_eq : F.checkedInv a = some (F.inv a) := by
  unfold checkedInv inv
  split
  · rfl
  · have two : 2 ≤ F.modulus := by
      have := F.three_le_modulus
      omega
    rw [Nat.psub_eq_sub two]
    rfl

theorem checkedOfInt_eq (v : Int) : F.checkedOfInt v = some (F.ofInt v) := by
  cases v with
  | ofNat a => rfl
  | negSucc a => exact F.checkedNeg_eq _

end Checked

variable {F : Field} {a b : Nat}

theorem represents_powers (F : Field) (a n : Nat) : List.Forall₂ F.Represents (F.powers a n)
    ((List.range n).map fun i => (a : F.Residue) ^ i) := by
  rw [List.forall₂_iff_get]
  refine ⟨by simp, fun i hi _ => ⟨F.powers_lt a n _ (List.get_mem _ _), ?_⟩⟩
  have power := F.geometric_powers a n i hi
  rw [one_mul] at power
  simpa using power

/-- The one cause of failure is an argument that is congruent to zero. -/
theorem inv_eq_error_iff {e : FieldError} :
    F.inv a = .error e ↔ F.modulus ∣ a ∧ e = .notInvertible := by
  rw [Nat.dvd_iff_mod_eq_zero]
  unfold inv
  split
  · rename_i zero
    simp [zero, eq_comm]
  · rename_i nonzero
    simp [nonzero]

/-- Whatever the modulus does not divide has an inverse. -/
theorem exists_inv [Fact F.modulus.Prime] (h : ¬ F.modulus ∣ a) :
    ∃ b, F.inv a = .ok b ∧ F.Represents b (a : F.Residue)⁻¹ ∧ F.mul a b = 1 := by
  have nonzero : (a : F.Residue) ≠ 0 := mt (ZMod.natCast_eq_zero_iff a F.modulus).1 h
  obtain ⟨b, ok, lt, inverse⟩ := F.inv_eq_ok nonzero
  refine ⟨b, ok, ⟨lt, inverse⟩, ?_⟩
  rw [← F.cast_inj (F.mul_lt a b) F.one_lt_modulus, F.cast_mul, inverse,
    mul_inv_cancel₀ nonzero, Nat.cast_one]

/-- What the operations of a field answer to arbitrary numbers. -/
structure Computes (F : Field) : Prop where
  reduce : ∀ a : Nat, F.Represents (F.reduce a) a
  ofInt : ∀ a : Int, F.Represents (F.ofInt a) a
  add : ∀ a b : Nat, F.Represents (F.add a b) (a + b)
  sub : ∀ a b : Nat, F.Represents (F.sub a b) (a - b)
  mul : ∀ a b : Nat, F.Represents (F.mul a b) (a * b)
  neg : ∀ a : Nat, F.Represents (F.neg a) (-a)
  pow : ∀ a e : Nat, F.Represents (F.pow a e) (a ^ e)
  sum : ∀ as : List Nat, F.Represents (F.sum as) (as.map (Nat.cast : Nat → F.Residue)).sum
  powers : ∀ a n : Nat, List.Forall₂ F.Represents (F.powers a n)
    ((List.range n).map fun i => (a : F.Residue) ^ i)
  inv : ∀ a : Nat, ¬ F.modulus ∣ a →
    ∃ b, F.inv a = .ok b ∧ F.Represents b (a : F.Residue)⁻¹ ∧ F.mul a b = 1
  inv_fails : ∀ (a : Nat) (e : FieldError),
    F.inv a = .error e ↔ F.modulus ∣ a ∧ e = .notInvertible
  sub_checked : ∀ a b : Nat, F.checkedSub a b = some (F.sub a b)
  neg_checked : ∀ a : Nat, F.checkedNeg a = some (F.neg a)
  inv_checked : ∀ a : Nat, F.checkedInv a = some (F.inv a)
  ofInt_checked : ∀ a : Int, F.checkedOfInt a = some (F.ofInt a)

/-- Whatever parameters are accepted, if the modulus is prime the field computes as its residues
do. -/
theorem computes_of_ofParameters {modulus generator twoOrder : Nat} {F : Field}
    (accepted : ofParameters modulus generator twoOrder = .ok F) (prime : modulus.Prime) :
    F.modulus = modulus ∧ F.Computes := by
  obtain ⟨rfl, -, -⟩ := ofParameters_eq_ok_iff.1 accepted
  have : Fact F.modulus.Prime := ⟨prime⟩
  exact ⟨rfl, {
    reduce a := ⟨F.reduce_lt a, F.cast_reduce a⟩
    ofInt a := ⟨F.ofInt_lt a, F.cast_ofInt a⟩
    add a b := ⟨F.add_lt a b, F.cast_add a b⟩
    sub a b := ⟨F.sub_lt a b, F.cast_sub a b⟩
    mul a b := ⟨F.mul_lt a b, F.cast_mul a b⟩
    neg a := ⟨F.neg_lt a, F.cast_neg a⟩
    pow a e := ⟨F.pow_lt a e, F.cast_powMod a e⟩
    sum as := ⟨F.sum_lt as, F.cast_sum as⟩
    powers := F.represents_powers
    inv _ := exists_inv
    inv_fails _ _ := inv_eq_error_iff
    sub_checked := F.checkedSub_eq
    neg_checked := F.checkedNeg_eq
    inv_checked := F.checkedInv_eq
    ofInt_checked := F.checkedOfInt_eq }⟩

/-- The least integer of 64 bits, multiples of the modulus and a generator beyond it. -/
theorem computes_seventeen : ofParameters 17 20 4 = .ok .seventeen ∧ Nat.Prime 17 ∧
    Field.seventeen.Represents 8 Int64.minValue.toInt ∧
    Field.seventeen.Represents 0 (-(34 : Nat)) ∧
    Field.seventeen.checkedSub 0 50 = some 1 ∧
    Field.seventeen.inv 34 = .error .notInvertible ∧
    Field.seventeen.inv 22 = .ok 7 ∧ Field.seventeen.mul 22 7 = 1 := by
  have accepted : ofParameters 17 20 4 = .ok .seventeen :=
    ofParameters_eq_ok_iff.2 ⟨rfl, rfl, rfl⟩
  have prime : Nat.Prime 17 := by decide
  have least : Field.seventeen.ofInt Int64.minValue.toInt = 8 := by decide
  have inverse : Field.seventeen.inv 22 = .ok 7 := by decide +kernel
  have computes := (computes_of_ofParameters accepted prime).2
  obtain ⟨b, answered, -, one⟩ := computes.inv 22 (by decide)
  obtain rfl := Except.ok.inj (inverse.symm.trans answered)
  exact ⟨accepted, prime, least ▸ computes.ofInt Int64.minValue.toInt, computes.neg 34,
    computes.sub_checked 0 50, (computes.inv_fails 34 _).2 ⟨by decide, rfl⟩, inverse, one⟩

end PrivateSums.Field
