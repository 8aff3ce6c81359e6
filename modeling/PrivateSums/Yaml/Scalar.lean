import PrivateSums.Document.Basic
import PrivateSums.Power
import PrivateSums.Text.Numeral

/-!
What a scalar without quotes stands for: null, a truth value, a number, or its text.
-/

namespace PrivateSums.Yaml

open Numeral (digitsOf?)

def dropSign : List Char → List Char
  | '+' :: rest | '-' :: rest => rest
  | chars => chars

/-- Several digits of which the first is zero. They are no number. -/
def isZeroPadded (chars : List Char) : Bool :=
  match dropSign chars with
  | '0' :: rest => !rest.isEmpty && rest.all Char.isDigit
  | _ => false

/-- Digits with or without the mark of a base. -/
def magnitude? : List Char → Option Nat
  | '0' :: 'x' :: digits => digitsOf? 16 digits
  | '0' :: 'o' :: digits => digitsOf? 8 digits
  | '0' :: 'b' :: digits => digitsOf? 2 digits
  | digits => digitsOf? 10 digits

def int? (chars : List Char) : Option Int :=
  if isZeroPadded chars then none
  else match chars with
    | '-' :: rest => do return -(← magnitude? rest : Nat)
    | _ => do return (← magnitude? (if chars.head? = some '+' then chars.tail else chars) : Nat)

/-- Decimal digits with a point or an exponent, of a size that floating point holds. -/
def isReal (chars : List Char) : Bool :=
  let unsigned := dropSign chars
  let whole := unsigned.takeWhile Char.isDigit
  let (fraction, rest) := match unsigned.dropWhile Char.isDigit with
    | '.' :: rest => (rest.takeWhile Char.isDigit, rest.dropWhile Char.isDigit)
    | rest => ([], rest)
  let exponent? : Option Int := match rest with
    | [] => some 0
    | e :: digits =>
      if e = 'e' ∨ e = 'E' then
        (digitsOf? 10 (dropSign digits)).map fun n => if digits.head? = some '-' then -n else n
      else none
  match exponent?, digitsOf? 10 (whole ++ fraction) with
  | some exponent, some mantissa =>
    let scale := exponent - fraction.length
    let size := (Nat.toDigits 10 mantissa).length + scale
    mantissa == 0 || size < 309 ||
      (size == 309 &&
        mantissa * 10 ^ scale.toNat < (1 <<< 1024 - 1 <<< 970) * 10 ^ (-scale).toNat)
  | _, _ => false

def specialReals : List String :=
  [".inf", ".Inf", ".INF", "+.inf", "+.Inf", "+.INF", "-.inf", "-.Inf", "-.INF",
    ".nan", ".NaN", ".NAN"]

def resolve (text : String) : Document :=
  if text ∈ ["", "~", "null", "Null", "NULL"] then .null
  else if text ∈ ["true", "True", "TRUE"] then .bool true
  else if text ∈ ["false", "False", "FALSE"] then .bool false
  else match int? text.toList with
    | some i => .int i
    | none =>
      if isZeroPadded text.toList then .text text
      else if text ∈ specialReals ∨ isReal text.toList then .real
      else .text text

end PrivateSums.Yaml
