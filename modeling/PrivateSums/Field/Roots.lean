import PrivateSums.Field.Basic

/-!
Roots of unity of two-power order, and their powers in order.
-/

namespace PrivateSums

/-- Whether `n` is a power of two; zero is none. -/
def isTwoPower (n : Nat) : Bool := 2 ^ n.log2 = n

theorem isTwoPower_iff {n : Nat} : isTwoPower n ↔ ∃ k : Nat, n = 2 ^ k := by
  rw [isTwoPower, decide_eq_true_iff]
  constructor
  · exact fun h => ⟨_, h.symm⟩
  · rintro ⟨k, rfl⟩
    rw [Nat.log2_two_pow]

/-- The least power of two that is at least `n`. -/
def nextTwoPower (n : Nat) : Nat := if n ≤ 1 then 1 else 2 ^ ((n - 1).log2 + 1)

theorem exists_nextTwoPower_eq (n : Nat) : ∃ k : Nat, nextTwoPower n = 2 ^ k := by
  unfold nextTwoPower
  split
  · exact ⟨0, rfl⟩
  · exact ⟨_, rfl⟩

theorem le_nextTwoPower (n : Nat) : n ≤ nextTwoPower n := by
  unfold nextTwoPower
  split
  · assumption
  · have := Nat.lt_log2_self (n := n - 1)
    omega

namespace Field

variable (F : Field)

/-- The principal `n`-th root of unity, for a power of two `n` that the subgroup's order is a
multiple of. -/
def rootOfUnity (n : Nat) : Except FieldError Nat :=
  if isTwoPower n && n.log2 ≤ F.twoOrder then
    .ok (powMod F.generator (2 ^ (F.twoOrder - n.log2)) F.modulus)
  else .error (.unsupportedRootOrder n F.twoOrder)

/-- The powers of the principal `n`-th root, from the zeroth. -/
def roots (n : Nat) : Except FieldError (List Nat) := do
  return F.powers (← F.rootOfUnity n) n

/-- The inverses of `roots n`, in the same order. -/
def rootsInv (n : Nat) : Except FieldError (List Nat) := do
  return F.powers (← F.inv (← F.rootOfUnity n)) n

end Field

end PrivateSums
