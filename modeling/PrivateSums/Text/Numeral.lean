/-!
Numbers written in digits.
-/

namespace PrivateSums.Numeral

/-- The value of a digit in bases up to sixteen. -/
def digit? (base : Nat) (c : Char) : Option Nat :=
  let value :=
    if c.isDigit then c.toNat - '0'.toNat
    else if 'a' ≤ c ∧ c ≤ 'f' then c.toNat - 'a'.toNat + 10
    else if 'A' ≤ c ∧ c ≤ 'F' then c.toNat - 'A'.toNat + 10
    else base
  if value < base then some value else none

/-- The number that the digits stand for, the most significant first. There is at least one. -/
def digitsOf? (base : Nat) (digits : List Char) : Option Nat :=
  if digits.isEmpty then none
  else digits.foldlM (fun n c => do return base * n + (← digit? base c)) 0

/-- Decimal digits, perhaps after a plus sign. -/
def nat? (text : String) : Option Nat :=
  match text.toList with
  | '+' :: digits => digitsOf? 10 digits
  | digits => digitsOf? 10 digits

/-- Decimal digits, perhaps after a sign. -/
def int? (text : String) : Option Int :=
  match text.toList with
  | '-' :: digits => (digitsOf? 10 digits).map fun n => -n
  | _ => (nat? text).map Int.ofNat

end PrivateSums.Numeral
