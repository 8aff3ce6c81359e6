import PrivateSums.Polynomial.Basic

/-!
Division with remainder, from the highest coefficient of the dividend down.
-/

namespace PrivateSums.Polynomial

/-- One place of a long division. The window holds the lowest `degree + 1` coefficients of what is
left of the dividend so far; the next coefficient `a` enters it from below. Once it is full, its
top gives a digit of the quotient, and that multiple of the divisor is taken off. -/
def divisionStep (F : Field) (divisor : List Nat) (degree leadInverse : Nat) (a : Nat)
    (quotientAndWindow : List Nat × List Nat) : List Nat × List Nat :=
  let (quotient, window) := quotientAndWindow
  let window := a :: window.take degree
  match window[degree]? with
  | none => (quotient, window)
  | some 0 => (0 :: quotient, window)
  | some top =>
    let digit := F.mul top leadInverse
    (digit :: quotient, List.zipWith (fun r d => F.sub r (F.mul d digit)) window divisor)

/-- Quotient and remainder. A quotient without digits is written as the constant zero. -/
def divRem (F : Field) (P divisor : Polynomial) :
    Except PolynomialError (Polynomial × Polynomial) := do
  let divisor := divisor.trim
  let some lead := divisor.leading? | throw .divisionByZero
  let leadInverse ← (F.inv lead).mapError .field
  let degree := divisor.coefficients.length - 1
  let (quotient, window) :=
    P.trim.coefficients.foldr (divisionStep F divisor.coefficients degree leadInverse) ([], [])
  let quotient := if quotient.isEmpty then zero 1 else ⟨quotient⟩
  return (quotient, trim ⟨window.take (max degree 1)⟩)

end PrivateSums.Polynomial
