import PrivateSums.Polynomial.Basic
import PrivateSums.Polynomial.Transform

/-!
Products of polynomials: term by term when short, through the transform when long.
-/

namespace PrivateSums.Polynomial

/-- The coefficients of a product, not reduced. -/
def convolution : List Nat → List Nat → List Nat
  | [], _ => []
  | a :: as, bs =>
    List.zipWithAll (fun x y => x.getD 0 + y.getD 0) (bs.map (a * ·)) (0 :: convolution as bs)

variable (F : Field)

/-- The product of two polynomials that both have coefficients, term by term. -/
def mulByTerms (P Q : Polynomial) : Polynomial :=
  ⟨(convolution P.coefficients Q.coefficients).map F.reduce⟩

/-- The product by pointwise multiplication on a domain that holds all `length` coefficients of
it; nothing where the field has no such domain. -/
def mulByTransform? (P Q : Polynomial) (length domain : Nat) : Option Polynomial := do
  let roots ← (F.roots domain).toOption
  let rootsInv ← (F.rootsInv domain).toOption
  let scale ← (F.inv domain).toOption
  let values (R : Polynomial) := Transform.run F (Transform.padded domain R.coefficients) roots
  let product := Transform.run F (List.zipWith F.mul (values P) (values Q)) rootsInv
  return ⟨(product.take length).map (F.mul · scale)⟩

/-- Products with at least this many coefficients go through the transform. -/
def transformThreshold : Nat := 64

def mul (P Q : Polynomial) : Polynomial :=
  if P.coefficients.isEmpty || Q.coefficients.isEmpty then zero 1
  else
    let length := P.coefficients.length + Q.coefficients.length - 1
    let domain := nextTwoPower length
    if length ≥ transformThreshold && domain ≤ F.maxDomain then
      (mulByTransform? F P Q length domain).getD (mulByTerms F P Q)
    else mulByTerms F P Q

end PrivateSums.Polynomial
