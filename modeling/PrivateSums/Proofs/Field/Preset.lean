import Mathlib.Data.Nat.Prime.Basic
import Mathlib.NumberTheory.LucasPrimality
import Mathlib.Tactic.NormNum.Prime
import PrivateSums.Field.Preset
import PrivateSums.Proofs.Field.Residue

/-!
The moduli of the built-in fields are prime. Each is certified by the prime factors of its
predecessor and an element whose order is no proper divisor of that predecessor (Lucas's test);
a factor that is large itself has a certificate of its own.
-/

namespace PrivateSums

/-- Whether `a` has the order `p - 1` modulo `p`, by the powers that leave out one of the prime
factors each. -/
def isLucasWitness (p a : Nat) (factors : List (Nat × Nat)) : Bool :=
  (factors.map fun f => f.1 ^ f.2).prod = p - 1 ∧ powMod a (p - 1) p = 1 ∧
    ∀ f ∈ factors, powMod a ((p - 1) / f.1) p ≠ 1

theorem prime_of_isLucasWitness {p : Nat} (a : Nat) (factors : List (Nat × Nat)) (large : 1 < p)
    (h : isLucasWitness p a factors) (primes : factors.Forall fun f => f.1.Prime) : p.Prime := by
  obtain ⟨product, whole, parts⟩ := of_decide_eq_true h
  rw [List.forall_iff_forall_mem] at primes
  refine lucas_primality p a ((cast_pow_eq_one_iff large ..).2 whole) fun q prime dvd => ?_
  rw [← product] at dvd
  obtain ⟨x, mem, dvd⟩ := (Prime.dvd_prod_iff prime.prime).1 dvd
  obtain ⟨f, mem, rfl⟩ := List.mem_map.1 mem
  obtain rfl := (Nat.prime_dvd_prime_iff_eq prime (primes f ‹_›)).1 (prime.dvd_of_dvd_pow dvd)
  exact fun h => parts f ‹_› ((cast_pow_eq_one_iff large ..).1 h)

namespace FieldPreset

theorem prime_modulus_p63 : (modulus .p63).Prime := by
  have factor : Nat.Prime 2931542417 :=
    prime_of_isLucasWitness 3 [(2, 4), (11, 1), (1913, 1), (8707, 1)]
      (by decide) (by decide +kernel) (by norm_num)
  exact prime_of_isLucasWitness 3 [(2, 19), (17, 1), (353, 1), (2931542417, 1)]
    (by decide) (by decide +kernel) ⟨by norm_num, by norm_num, by norm_num, factor⟩

theorem prime_modulus_p87 : (modulus .p87).Prime := by
  have factor : Nat.Prime 2879347902817 :=
    prime_of_isLucasWitness 15 [(2, 5), (3, 1), (7, 1), (11, 1), (17, 1), (19, 1), (1205951, 1)]
      (by decide) (by decide +kernel) (by norm_num)
  exact prime_of_isLucasWitness 3 [(2, 19), (17, 2), (354689, 1), (2879347902817, 1)]
    (by decide) (by decide +kernel) ⟨by norm_num, by norm_num, by norm_num, factor⟩

theorem prime_modulus_p102 : (modulus .p102).Prime := by
  have smaller : Nat.Prime 15790321 :=
    prime_of_isLucasWitness 19 [(2, 4), (3, 2), (5, 1), (7, 1), (13, 1), (241, 1)]
      (by decide) (by decide +kernel) (by norm_num)
  have larger : Nat.Prime 88959882481 :=
    prime_of_isLucasWitness 26 [(2, 4), (3, 1), (5, 1), (7, 1), (67, 1), (790333, 1)]
      (by decide) (by decide +kernel) (by norm_num)
  exact prime_of_isLucasWitness 3
    [(2, 19), (17, 1), (241, 1), (3361, 1), (15790321, 1), (88959882481, 1)]
    (by decide) (by decide +kernel)
    ⟨by norm_num, by norm_num, by norm_num, by norm_num, smaller, larger⟩

instance (preset : FieldPreset) : Fact preset.field.modulus.Prime :=
  ⟨match preset with
    | .p63 => prime_modulus_p63
    | .p87 => prime_modulus_p87
    | .p102 => prime_modulus_p102⟩

end FieldPreset

end PrivateSums
