/-!
Powers of naturals, and modular powers by repeated squaring. Main statement: `powMod_eq`.
-/

-- A power of naturals means the same wherever more general powers are defined as well.
attribute [instance (2000)] instPowNat

namespace PrivateSums

/-- `a ^ e % m`, squaring once for each binary digit of the exponent. -/
def powMod (a e m : Nat) : Nat :=
  if e = 0 then 1 % m
  else
    let rest := powMod (a * a % m) (e / 2) m
    if e % 2 = 0 then rest else a * rest % m
termination_by e

theorem powMod_eq (a e m : Nat) : powMod a e m = a ^ e % m := by
  fun_induction powMod a e m with
  | case1 a => simp
  | case2 a e _ rest even ih =>
    have split : e = 2 * (e / 2) := by omega
    rw [show rest = _ from ih, ← Nat.pow_mod]
    conv => rhs; rw [split, Nat.pow_mul, Nat.pow_two]
  | case3 a e _ rest odd ih =>
    have split : e = 2 * (e / 2) + 1 := by omega
    rw [show rest = _ from ih, ← Nat.pow_mod, Nat.mul_mod_mod]
    conv => rhs; rw [split, Nat.pow_succ, Nat.pow_mul, Nat.pow_two, Nat.mul_comm]

end PrivateSums
