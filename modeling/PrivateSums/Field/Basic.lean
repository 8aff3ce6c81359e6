import PrivateSums.Field.Error
import PrivateSums.Power

/-!
Prime fields with a multiplicative subgroup of two-power order. Operations take arbitrary naturals
and answer canonical residues, the numbers below the modulus.
-/

namespace PrivateSums

/-- The integers modulo `modulus`, with an element of multiplicative order `2 ^ twoOrder`.
Primality of the modulus is the caller's promise. -/
structure Field where
  modulus : Nat
  generator : Nat
  twoOrder : Nat
  three_le_modulus : 3 ≤ modulus
  modulus_odd : modulus % 2 = 1
  twoOrder_pos : 0 < twoOrder
  order_dvd : 2 ^ twoOrder ∣ modulus - 1
  generator_lt : generator < modulus
  /-- Half the order leads to `-1`, so the order is `2 ^ twoOrder` and no less. -/
  generator_half : generator ^ (2 ^ (twoOrder - 1) : Nat) % modulus = modulus - 1
  deriving DecidableEq

namespace Field

theorem modulus_pos (F : Field) : 0 < F.modulus := by
  have := F.three_le_modulus
  omega

/-- A power of two above `n` divides no smaller positive number. -/
theorem not_dvd_of_log2_lt {n k : Nat} (hn : n ≠ 0) (h : n.log2 < k) : ¬ 2 ^ k ∣ n := fun hd =>
  absurd (Nat.le_of_dvd (Nat.pos_of_ne_zero hn) hd)
    (by have := (Nat.log2_lt hn).1 h; omega)

/-- The field with these parameters, after checking that the generator has order exactly
`2 ^ twoOrder`. -/
def ofParameters (modulus generator twoOrder : Nat) : Except FieldError Field :=
  if odd : 3 ≤ modulus ∧ modulus % 2 = 1 then
    if nontrivial : 0 < twoOrder then
      -- A power beyond the modulus need not be computed to see that it is no divisor.
      if divides : twoOrder ≤ (modulus - 1).log2 ∧ (modulus - 1) % 2 ^ twoOrder = 0 then
        if half : powMod (generator % modulus) (2 ^ (twoOrder - 1)) modulus = modulus - 1 then
          .ok {
            modulus, generator := generator % modulus, twoOrder
            three_le_modulus := odd.1
            modulus_odd := odd.2
            twoOrder_pos := nontrivial
            order_dvd := Nat.dvd_of_mod_eq_zero divides.2
            generator_lt := Nat.mod_lt _ (by omega)
            generator_half := by rw [← powMod_eq]; exact half }
        else .error (.wrongGeneratorOrder twoOrder)
      else .error (.orderNotDividing twoOrder)
    else .error .trivialSubgroup
  else .error (.notOddPrime modulus)

variable (F : Field)

/-- The number of points of the largest transform: a 64-bit word shifted by `twoOrder`, whose
shift distance counts modulo 64. -/
def maxDomain : Nat := 2 ^ (F.twoOrder % 64)

/-- Whether `a` is a canonical element. -/
def contains (a : Nat) : Bool := a < F.modulus

def reduce (a : Nat) : Nat := a % F.modulus

def add (a b : Nat) : Nat := (a + b) % F.modulus

def sub (a b : Nat) : Nat := (a + F.modulus - b % F.modulus) % F.modulus

def mul (a b : Nat) : Nat := a * b % F.modulus

def neg (a : Nat) : Nat :=
  if a % F.modulus = 0 then 0 else F.modulus - a % F.modulus

def pow (a e : Nat) : Nat := powMod a e F.modulus

/-- The inverse, as the power `modulus - 2`. -/
def inv (a : Nat) : Except FieldError Nat :=
  if a % F.modulus = 0 then .error .notInvertible
  else .ok (powMod (a % F.modulus) (F.modulus - 2) F.modulus)

/-- The residue of a signed integer, so that `-1` becomes `modulus - 1`. -/
def ofInt : Int → Nat
  | .ofNat a => F.reduce a
  | .negSucc a => F.neg (F.reduce (a + 1))

def sum (values : List Nat) : Nat := values.foldl F.add 0

/-- The modulus in hexadecimal and the order of the subgroup. -/
def describe : String :=
  let digits := String.ofList (Nat.toDigits 16 F.modulus)
  s!"Field \x7b modulus: 0x{digits}, two_order: {F.twoOrder} \x7d"

/-- `[x ^ 0, …, x ^ (n - 1)]`, the first entry literally one. -/
def powers (x n : Nat) : List Nat := go 1 n
where
  go (power : Nat) : Nat → List Nat
    | 0 => []
    | n + 1 => power :: go (F.mul power x) n

end Field

end PrivateSums
