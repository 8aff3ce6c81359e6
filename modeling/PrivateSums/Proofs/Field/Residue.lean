import Mathlib.Algebra.BigOperators.Group.List.Basic
import Mathlib.Algebra.Field.ZMod
import Mathlib.FieldTheory.Finite.Basic
import PrivateSums.Field.Basic

/-!
The operations of a field on naturals, as those of the residues. Answers are canonical, so that a
residue determines them.
-/

namespace PrivateSums

theorem cast_pow_eq_one_iff {p : Nat} (large : 1 < p) (a e : Nat) :
    (a : ZMod p) ^ e = 1 ↔ powMod a e p = 1 := by
  rw [powMod_eq, ← Nat.cast_pow, ← Nat.cast_one, ZMod.natCast_eq_natCast_iff',
    Nat.mod_eq_of_lt large]

namespace Field

/-- The residues modulo the modulus of a field. -/
abbrev Residue (F : Field) : Type := ZMod F.modulus

variable (F : Field) (a b : Nat)

instance : NeZero F.modulus := ⟨F.modulus_pos.ne'⟩

theorem one_lt_modulus : 1 < F.modulus := by
  have := F.three_le_modulus
  omega

theorem reduce_lt : F.reduce a < F.modulus := Nat.mod_lt _ F.modulus_pos

theorem add_lt : F.add a b < F.modulus := Nat.mod_lt _ F.modulus_pos

theorem sub_lt : F.sub a b < F.modulus := Nat.mod_lt _ F.modulus_pos

theorem mul_lt : F.mul a b < F.modulus := Nat.mod_lt _ F.modulus_pos

theorem neg_lt : F.neg a < F.modulus := by
  unfold neg
  split
  · exact F.modulus_pos
  · have := F.modulus_pos
    omega

theorem ofInt_lt (v : Int) : F.ofInt v < F.modulus := by
  cases v with
  | ofNat a => exact F.reduce_lt a
  | negSucc a => exact F.neg_lt _

theorem pow_lt : F.pow a b < F.modulus := by
  rw [pow, powMod_eq]
  exact Nat.mod_lt _ F.modulus_pos

theorem foldl_add_lt (values : List Nat) (start : Nat) (h : start < F.modulus) :
    values.foldl F.add start < F.modulus := by
  induction values generalizing start with
  | nil => exact h
  | cons v values ih => exact ih _ (F.add_lt start v)

theorem sum_lt (values : List Nat) : F.sum values < F.modulus :=
  F.foldl_add_lt values 0 F.modulus_pos

variable {a b}

theorem reduce_of_lt (h : a < F.modulus) : F.reduce a = a := Nat.mod_eq_of_lt h

/-- Canonical elements are told apart by their residues. -/
theorem cast_inj (ha : a < F.modulus) (hb : b < F.modulus) :
    (a : F.Residue) = b ↔ a = b := by
  rw [ZMod.natCast_eq_natCast_iff', Nat.mod_eq_of_lt ha, Nat.mod_eq_of_lt hb]

theorem cast_eq_zero (ha : a < F.modulus) : (a : F.Residue) = 0 ↔ a = 0 := by
  simpa using F.cast_inj ha F.modulus_pos

theorem val_cast (ha : a < F.modulus) : (a : F.Residue).val = a := by
  rw [ZMod.val_natCast, Nat.mod_eq_of_lt ha]

variable (a b)

@[simp] theorem cast_reduce : ((F.reduce a : Nat) : F.Residue) = a := ZMod.natCast_mod a _

@[simp] theorem cast_add : ((F.add a b : Nat) : F.Residue) = a + b := by
  rw [add, ZMod.natCast_mod, Nat.cast_add]

@[simp] theorem cast_mul : ((F.mul a b : Nat) : F.Residue) = a * b := by
  rw [mul, ZMod.natCast_mod, Nat.cast_mul]

@[simp] theorem cast_sub : ((F.sub a b : Nat) : F.Residue) = a - b := by
  have le : b % F.modulus ≤ a + F.modulus :=
    le_trans (Nat.mod_lt _ F.modulus_pos).le (Nat.le_add_left ..)
  rw [sub, ZMod.natCast_mod, Nat.cast_sub le, ZMod.natCast_mod, Nat.cast_add, ZMod.natCast_self,
    add_zero]

@[simp] theorem cast_neg : ((F.neg a : Nat) : F.Residue) = -a := by
  unfold neg
  split
  · rename_i h
    have zero : (a : F.Residue) = 0 := by rw [← ZMod.natCast_mod, h, Nat.cast_zero]
    rw [zero, Nat.cast_zero, neg_zero]
  · rw [Nat.cast_sub (Nat.mod_lt _ F.modulus_pos).le, ZMod.natCast_self, ZMod.natCast_mod, zero_sub]

theorem cast_ofInt (v : Int) : ((F.ofInt v : Nat) : F.Residue) = v := by
  cases v with
  | ofNat a => rw [ofInt, F.cast_reduce, Int.ofNat_eq_natCast, Int.cast_natCast]
  | negSucc a => rw [ofInt, F.cast_neg, F.cast_reduce, Int.cast_negSucc]

theorem cast_modulus_sub_one : ((F.modulus - 1 : Nat) : F.Residue) = -1 := by
  rw [Nat.cast_sub F.modulus_pos, ZMod.natCast_self, Nat.cast_one, zero_sub]

@[simp] theorem cast_powMod (e : Nat) : ((powMod a e F.modulus : Nat) : F.Residue) = a ^ e := by
  rw [powMod_eq, ZMod.natCast_mod]
  exact Nat.cast_pow a e

theorem pow_eq_one_iff (e : Nat) : F.pow a e = 1 ↔ (a : F.Residue) ^ e = 1 :=
  (cast_pow_eq_one_iff F.one_lt_modulus a e).symm

theorem cast_foldl_add (values : List Nat) (start : Nat) :
    ((values.foldl F.add start : Nat) : F.Residue) =
      start + (values.map (Nat.cast : Nat → F.Residue)).sum := by
  induction values generalizing start with
  | nil => simp
  | cons v values ih => rw [List.foldl_cons, ih, cast_add, List.map_cons, List.sum_cons, add_assoc]

@[simp] theorem cast_sum (values : List Nat) :
    ((F.sum values : Nat) : F.Residue) = (values.map (Nat.cast : Nat → F.Residue)).sum := by
  rw [sum, cast_foldl_add, Nat.cast_zero, zero_add]

/-- A sum with one term apart. -/
theorem cast_sum_set {α : Type} (f : α → Nat) {l : List α} {j : Nat} (hj : j < l.length) (a : α) :
    ((F.sum ((l.set j a).map f) : Nat) : F.Residue) = F.sum ((l.eraseIdx j).map f) + f a := by
  have hj' : j < ((l.set j a).map fun b => ((f b : Nat) : F.Residue)).length := by simpa using hj
  have apart := List.add_sum_eraseIdx hj' fun _ _ => AddCommute.all _ _
  rw [F.cast_sum, F.cast_sum, List.map_map, List.map_map, add_comm]
  simpa [List.eraseIdx_map, List.eraseIdx_set_eq, Function.comp_def] using apart.symm

theorem sum_eq_mod (values : List Nat) : F.sum values = values.sum % F.modulus := by
  rw [← F.cast_inj (F.sum_lt _) (Nat.mod_lt _ F.modulus_pos), cast_sum, ZMod.natCast_mod,
    Nat.cast_list_sum]

theorem cast_sum_zipWith_mul {as bs : List Nat} (h : as.length = bs.length) :
    ((F.sum (List.zipWith F.mul as bs) : Nat) : F.Residue) =
      ∑ i ∈ Finset.range as.length, ((as.getD i 0 : Nat) : F.Residue) * (bs.getD i 0 : Nat) := by
  rw [cast_sum]
  induction as generalizing bs with
  | nil => simp
  | cons a as ih =>
    obtain ⟨b, bs, rfl⟩ := List.exists_cons_of_length_eq_add_one h.symm
    have rest := ih (Nat.succ.inj h)
    rw [List.zipWith_cons_cons, List.map_cons, List.sum_cons, rest, List.length_cons,
      Finset.sum_range_succ', cast_mul, add_comm]
    simp

section Prime

variable [Fact F.modulus.Prime] {a}

/-- Inversion succeeds away from zero, and answers the canonical inverse. -/
theorem inv_eq_ok (h : (a : F.Residue) ≠ 0) :
    ∃ b, F.inv a = .ok b ∧ b < F.modulus ∧ (b : F.Residue) = (a : F.Residue)⁻¹ := by
  have nonzero : a % F.modulus ≠ 0 := fun h' =>
    h (by rw [← ZMod.natCast_mod, h', Nat.cast_zero])
  refine ⟨_, if_neg nonzero, ?_, ?_⟩
  · rw [powMod_eq]
    exact Nat.mod_lt _ F.modulus_pos
  · have two : F.modulus - 2 + 1 = F.modulus - 1 := by
      have := F.three_le_modulus
      omega
    rw [cast_powMod, ZMod.natCast_mod]
    apply eq_inv_of_mul_eq_one_left
    rw [← pow_succ, two, ZMod.pow_card_sub_one_eq_one h]

theorem cast_of_inv {b : Nat} (h : F.inv a = .ok b) :
    b < F.modulus ∧ (b : F.Residue) = (a : F.Residue)⁻¹ := by
  have nonzero : (a : F.Residue) ≠ 0 := fun h' => by
    have : a % F.modulus = 0 := by
      rwa [← Nat.dvd_iff_mod_eq_zero, ← ZMod.natCast_eq_zero_iff]
    simp [inv, this] at h
  obtain ⟨b', hb, lt, eq⟩ := F.inv_eq_ok nonzero
  obtain rfl : b' = b := Except.ok.inj (hb.symm.trans h)
  exact ⟨lt, eq⟩

end Prime

/-- A field small enough to compute in by hand. -/
def seventeen : Field where
  modulus := 17
  generator := 3
  twoOrder := 4
  three_le_modulus := by decide
  modulus_odd := by decide
  twoOrder_pos := by decide
  order_dvd := by decide
  generator_lt := by decide
  generator_half := by decide

instance : Fact seventeen.modulus.Prime := ⟨by decide⟩

end Field

end PrivateSums
