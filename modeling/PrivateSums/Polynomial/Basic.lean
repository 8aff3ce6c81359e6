import PrivateSums.Field.Basic
import PrivateSums.Polynomial.Error

/-!
Polynomials over a field, as coefficients from the constant term up. Leading zeros are kept until
`trim` removes them.
-/

namespace PrivateSums

/-- `a₀ + a₁ x + …`, the list `[a₀, a₁, …]`. -/
structure Polynomial where
  coefficients : List Nat
  deriving DecidableEq, Repr

namespace Polynomial

/-- Drops the zeros at the end of a list, down to one entry. -/
def trimmed : List Nat → List Nat
  | [] => []
  | [a] => [a]
  | a :: as =>
    let rest := trimmed as
    if rest = [0] then [a] else a :: rest

/-- `x - root`. -/
def linear (F : Field) (root : Nat) : Polynomial := ⟨[F.neg root, 1]⟩

def constant (c : Nat) : Polynomial := ⟨[c]⟩

/-- Zero, written with `length` coefficients. -/
def zero (length : Nat) : Polynomial := ⟨List.replicate length 0⟩

/-- Without leading zeros, but with at least the one term that was there. -/
def trim (P : Polynomial) : Polynomial := ⟨trimmed P.coefficients⟩

def isZero (P : Polynomial) : Bool := P.coefficients.all (· == 0)

/-- The coefficient of the highest term that is not zero. -/
def leading? (P : Polynomial) : Option Nat := P.coefficients.findRev? (· != 0)

/-- The index of the highest term that is not zero; zero for the zero polynomial. -/
def degree (P : Polynomial) : Nat := (trimmed P.coefficients).length - 1

variable (F : Field)

def add (P Q : Polynomial) : Polynomial :=
  ⟨List.zipWithAll (fun a b => F.add (a.getD 0) (b.getD 0)) P.coefficients Q.coefficients⟩

def neg (P : Polynomial) : Polynomial := ⟨P.coefficients.map F.neg⟩

def sub (P Q : Polynomial) : Polynomial := P.add F (Q.neg F)

def scale (c : Nat) (P : Polynomial) : Polynomial := ⟨P.coefficients.map (F.mul · c)⟩

/-- The formal derivative. -/
def derivative (P : Polynomial) : Polynomial :=
  if P.coefficients.length ≤ 1 then zero 1
  else ⟨(P.coefficients.mapIdx fun i a => F.mul a i).tail⟩

/-- The value at `x`, by Horner's rule. -/
def evaluate (P : Polynomial) (x : Nat) : Nat :=
  P.coefficients.foldr (fun a value => F.add (F.mul value x) a) 0

/-- One term: a coefficient of one is left out before a power of `x`. -/
def showTerm (degree coefficient : Nat) : String :=
  let number := if degree = 0 || coefficient != 1 then toString coefficient else ""
  let power := match degree with
    | 0 => ""
    | 1 => "x"
    | d => s!"x^{d}"
  number ++ power

/-- The terms that are not zero, from the highest down. -/
def describe (P : Polynomial) : String :=
  let terms := (P.coefficients.mapIdx fun i a => (i, a)).filter (·.2 != 0)
  match terms.reverse with
  | [] => "0"
  | terms => String.intercalate " + " (terms.map fun (i, a) => showTerm i a)

end Polynomial

end PrivateSums
