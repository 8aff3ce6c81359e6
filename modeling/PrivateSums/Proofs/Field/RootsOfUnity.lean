import Mathlib.GroupTheory.OrderOfElement
import Mathlib.RingTheory.RootsOfUnity.PrimitiveRoots
import PrivateSums.Field.Roots
import PrivateSums.Proofs.Answer
import PrivateSums.Proofs.Field.Residue

/-!
The roots of unity that a field lists: principal ones of every order up to that of its subgroup, and
their powers in order. Each is the square of the next finer one.
-/

namespace PrivateSums.Field

variable (F : Field)

/-- The list `c, c * w, c * w ^ 2, …` of residues, by representatives. -/
def Geometric (c w : F.Residue) (values : List Nat) : Prop :=
  ∀ i (h : i < values.length), ((values[i] : Nat) : F.Residue) = c * w ^ i

variable {F} {c w : F.Residue} {values : List Nat}

theorem Geometric.head {v : Nat} (h : F.Geometric c w (v :: values)) : (v : F.Residue) = c := by
  have first := h 0 (by simp)
  simpa using first

theorem Geometric.tail {v : Nat} (h : F.Geometric c w (v :: values)) :
    F.Geometric (c * w) w values := by
  intro i hi
  have next := h (i + 1) (by simpa using hi)
  simpa [pow_succ', mul_assoc] using next

theorem Geometric.cons {v : Nat} (head : (v : F.Residue) = c)
    (tail : F.Geometric (c * w) w values) : F.Geometric c w (v :: values) := by
  intro i hi
  cases i with
  | zero => simpa using head
  | succ i =>
    have next := tail i (by simpa using hi)
    simpa [pow_succ', mul_assoc] using next

variable (F)

theorem length_powers_go (x power n : Nat) : (powers.go F x power n).length = n := by
  induction n generalizing power with
  | zero => rfl
  | succ n ih => rw [powers.go, List.length_cons, ih]

@[simp] theorem length_powers (x n : Nat) : (F.powers x n).length = n := F.length_powers_go x 1 n

variable {F} in
theorem length_roots {n : Nat} {roots : List Nat} (h : F.roots n = .ok roots) :
    roots.length = n := by
  obtain ⟨root, -, h⟩ := Answer.bind_eq_ok.1 h
  obtain rfl := Except.ok.inj h
  exact F.length_powers root n

theorem geometric_powers_go (x power n : Nat) :
    F.Geometric power x (powers.go F x power n) := by
  induction n generalizing power with
  | zero => exact fun i hi => absurd hi (by simp [powers.go])
  | succ n ih => exact .cons rfl (by simpa using ih (F.mul power x))

theorem geometric_powers (x n : Nat) : F.Geometric 1 x (F.powers x n) := by
  have powers := F.geometric_powers_go x 1 n
  rwa [Nat.cast_one] at powers

theorem powers_go_lt (x n : Nat) {power : Nat} (h : power < F.modulus) :
    ∀ v ∈ powers.go F x power n, v < F.modulus := by
  induction n generalizing power with
  | zero => simp [powers.go]
  | succ n ih => simpa [powers.go, h] using ih (F.mul_lt power x)

theorem powers_lt (x n : Nat) : ∀ v ∈ F.powers x n, v < F.modulus :=
  F.powers_go_lt x n F.one_lt_modulus

/-- A field is what its own parameters are accepted as. -/
theorem ofParameters_eq_ok_iff {F : Field} {modulus generator twoOrder : Nat} :
    ofParameters modulus generator twoOrder = .ok F ↔
      F.modulus = modulus ∧ F.generator = generator % modulus ∧ F.twoOrder = twoOrder := by
  constructor
  · intro accepted
    unfold ofParameters at accepted
    split at accepted
    · split at accepted
      · split at accepted
        · split at accepted
          · obtain rfl := Except.ok.inj accepted
            exact ⟨rfl, rfl, rfl⟩
          · cases accepted
        · cases accepted
      · cases accepted
    · cases accepted
  · rintro ⟨rfl, reduced, rfl⟩
    have large := F.three_le_modulus
    have fits : F.twoOrder ≤ (F.modulus - 1).log2 := by
      by_contra beyond
      exact not_dvd_of_log2_lt (by omega) (Nat.lt_of_not_le beyond) F.order_dvd
    have half : powMod (generator % F.modulus) (2 ^ (F.twoOrder - 1)) F.modulus =
        F.modulus - 1 := by
      rw [powMod_eq, ← reduced]
      exact F.generator_half
    rw [ofParameters, dif_pos ⟨large, F.modulus_odd⟩, dif_pos F.twoOrder_pos,
      dif_pos ⟨fits, Nat.mod_eq_zero_of_dvd F.order_dvd⟩, dif_pos half]
    simp only [← reduced]

/-- The principal root of order `2 ^ k`. -/
def root (k : Nat) : F.Residue := (F.generator : F.Residue) ^ (2 ^ (F.twoOrder - k) : Nat)

theorem root_succ_sq {k : Nat} (h : k < F.twoOrder) : F.root (k + 1) ^ 2 = F.root k := by
  rw [root, root, ← pow_mul]
  congr 1
  rw [← pow_succ]
  congr 1
  omega

/-- Every other root of twice the order is a root of the order. -/
theorem root_double {k : Nat} (h : k < F.twoOrder) (i : Nat) :
    F.root (k + 1) ^ (2 * i) = F.root k ^ i := by
  rw [pow_mul, F.root_succ_sq h]

theorem generator_pow_half :
    (F.generator : F.Residue) ^ (2 ^ (F.twoOrder - 1) : Nat) = -1 := by
  have half := congrArg (Nat.cast : Nat → F.Residue) F.generator_half
  rw [ZMod.natCast_mod, F.cast_modulus_sub_one] at half
  rw [← half]
  exact (Nat.cast_pow ..).symm

/-- Half the order of a listed root leads to `-1`, whether or not the modulus is prime. -/
theorem root_pow_half {k : Nat} (h : k ≤ F.twoOrder) (i : Nat) (hi : k = i + 1) :
    F.root k ^ (2 ^ i : Nat) = -1 := by
  have order : F.twoOrder - k + i = F.twoOrder - 1 := by omega
  rw [root, ← pow_mul, ← Nat.pow_add, order, F.generator_pow_half]

section Prime

variable [prime : Fact F.modulus.Prime]

theorem neg_one_ne_one : (-1 : F.Residue) ≠ 1 :=
  haveI : Fact (2 < F.modulus) := ⟨F.three_le_modulus⟩
  ZMod.neg_one_ne_one

theorem two_ne_zero : (2 : F.Residue) ≠ 0 := by
  intro h
  apply F.neg_one_ne_one
  rw [neg_eq_iff_add_eq_zero, one_add_one_eq_two, h]

theorem isPrimitiveRoot_generator :
    IsPrimitiveRoot (F.generator : F.Residue) (2 ^ F.twoOrder : Nat) := by
  have succ : F.twoOrder - 1 + 1 = F.twoOrder := Nat.sub_add_cancel F.twoOrder_pos
  have order := orderOf_eq_prime_pow (p := 2) (n := F.twoOrder - 1) (x := (F.generator : F.Residue))
    (by rw [F.generator_pow_half]; exact F.neg_one_ne_one)
    (by rw [pow_succ, pow_mul, F.generator_pow_half, neg_one_sq])
  rw [succ] at order
  rw [← order]
  exact IsPrimitiveRoot.orderOf _

theorem isPrimitiveRoot_root {k : Nat} (h : k ≤ F.twoOrder) :
    IsPrimitiveRoot (F.root k) (2 ^ k : Nat) := by
  apply F.isPrimitiveRoot_generator.pow (Nat.two_pow_pos _)
  rw [← pow_add, Nat.sub_add_cancel h]

end Prime

theorem rootOfUnity_eq_ok_iff {n r : Nat} : F.rootOfUnity n = .ok r ↔
    ∃ k ≤ F.twoOrder, n = 2 ^ k ∧
      r = powMod F.generator (2 ^ (F.twoOrder - k)) F.modulus := by
  unfold rootOfUnity
  constructor
  · intro h
    split at h
    · rename_i supported
      obtain ⟨two, le⟩ := Bool.and_eq_true_iff.1 supported
      obtain ⟨k, rfl⟩ := isTwoPower_iff.1 two
      rw [Nat.log2_two_pow] at le h
      exact ⟨k, of_decide_eq_true le, rfl, (Except.ok.inj h).symm⟩
    · cases h
  · rintro ⟨k, le, rfl, rfl⟩
    rw [Nat.log2_two_pow, if_pos]
    simp [isTwoPower_iff.2 ⟨k, rfl⟩, le]

theorem cast_rootOfUnity {k r : Nat} (h : F.rootOfUnity (2 ^ k) = .ok r) :
    (r : F.Residue) = F.root k := by
  obtain ⟨k', -, eq, rfl⟩ := F.rootOfUnity_eq_ok_iff.1 h
  obtain rfl : k = k' := Nat.pow_right_injective le_rfl eq
  exact F.cast_powMod ..

/-- A list of the first `2 ^ k` powers of a residue, by canonical representatives. -/
structure Lists (F : Field) (w : F.Residue) (k : Nat) (values : List Nat) : Prop where
  length_eq : values.length = 2 ^ k
  lt : ∀ v ∈ values, v < F.modulus
  geometric : F.Geometric 1 w values

theorem lists_powers (x k : Nat) : F.Lists x k (F.powers x (2 ^ k)) where
  length_eq := F.length_powers x _
  lt := F.powers_lt x _
  geometric := F.geometric_powers x _

theorem Lists.getElem {k : Nat} (h : F.Lists w k values) {i : Nat} (hi : i < values.length) :
    ((values[i] : Nat) : F.Residue) = w ^ i := by
  rw [h.geometric i hi, one_mul]

theorem roots_two_pow {k : Nat} (h : k ≤ F.twoOrder) :
    ∃ roots, F.roots (2 ^ k) = .ok roots ∧ F.Lists (F.root k) k roots := by
  have ok := F.rootOfUnity_eq_ok_iff.2 ⟨k, h, rfl, rfl⟩
  refine ⟨_, by rw [roots, ok, Answer.ok_bind, Answer.pure_eq], ?_⟩
  rw [← F.cast_rootOfUnity ok]
  exact F.lists_powers _ k

/-- Roots are listed only of the orders that divide that of the subgroup. -/
theorem of_roots {n : Nat} {roots : List Nat} (h : F.roots n = .ok roots) :
    ∃ k ≤ F.twoOrder, n = 2 ^ k ∧ F.Lists (F.root k) k roots := by
  cases ok : F.rootOfUnity n with
  | error e => rw [Field.roots, ok] at h; cases h
  | ok r =>
    obtain ⟨k, le, rfl, -⟩ := F.rootOfUnity_eq_ok_iff.1 ok
    obtain ⟨roots', h', lists⟩ := F.roots_two_pow le
    obtain rfl : roots' = roots := Except.ok.inj (h'.symm.trans h)
    exact ⟨k, le, rfl, lists⟩

theorem rootsInv_two_pow [prime : Fact F.modulus.Prime] {k : Nat} (h : k ≤ F.twoOrder) :
    ∃ roots, F.rootsInv (2 ^ k) = .ok roots ∧ F.Lists (F.root k)⁻¹ k roots := by
  have ok := F.rootOfUnity_eq_ok_iff.2 ⟨k, h, rfl, rfl⟩
  have cast := F.cast_rootOfUnity ok
  have nonzero := (F.isPrimitiveRoot_root h).ne_zero (Nat.two_pow_pos k).ne'
  obtain ⟨inverse, inv, -, eq⟩ := F.inv_eq_ok (cast ▸ nonzero)
  refine ⟨_, by rw [rootsInv, ok, Answer.ok_bind, inv, Answer.ok_bind, Answer.pure_eq], ?_⟩
  rw [← cast, ← eq]
  exact F.lists_powers inverse k

end PrivateSums.Field
