import PrivateSums.Circuit.Basic

/-!
Validity predicates. Each gadget adds its gates, outputs and zero checks to the circuit under
construction. Witnesses that a gadget checks, such as powers, are further inputs after its own.
-/

namespace PrivateSums.Gadget

/-- An input without a condition. -/
def free (name : String) : Builder Nat := do
  let input ← Builder.input
  Builder.output input name
  return input

/-- An input `x` with `x * (x - 1) = 0`, not an output. -/
def bit (F : Field) : Builder Nat := do
  let input ← Builder.input
  let less ← Builder.addConst input (F.ofInt (-1))
  let product ← Builder.mul input less
  Builder.assertZero product
  return input

/-- An input that must be zero or one. -/
def oneBit (F : Field) (name : String) : Builder Nat := do
  let input ← bit F
  Builder.output input name
  return input

/-- Adds gates to a sum, each in front of it. -/
def addAll (sum : Nat) : (terms : List Nat) → Builder Nat
  | [] => return sum
  | term :: terms => do addAll (← Builder.add term sum) terms

/-- An integer of `width` bits, the least significant first. Its value is the output. -/
def int (F : Field) (width : Nat) (name : String) : Builder Nat := do
  if width = 0 ∨ maxIntBits < width then throw (.invalidGadget (.bitWidth name width))
  let inputs ← (List.range width).mapM fun _ => bit F
  let scaled ← inputs.zipIdx.mapM fun (input, i) => Builder.mulConst input (2 ^ i)
  let sum ← addAll (← Builder.addConst (scaled.headD 0) 0) scaled.tail
  Builder.output sum name
  return sum

def negate (F : Field) (gate : Nat) : Builder Nat := Builder.mulConst gate (F.ofInt (-1))

/-- Requires `left * right = product`. -/
def checkMul (F : Field) (left right product : Nat) : Builder Nat := do
  let negated ← negate F (← Builder.mul left right)
  let difference ← Builder.add negated product
  Builder.assertZero difference
  return difference

/-- How many squarings lead from `x` to `x ^ exponent`. -/
def squarings (exponent : Nat) : Except CircuitError Nat :=
  match exponent with
  | 2 => .ok 1
  | 4 => .ok 2
  | 8 => .ok 3
  | _ => .error (.invalidGadget (.power exponent))

/-- Requires each witness to be the square of the one before. -/
def checkSquares (F : Field) (base : Nat) : (powers : List Nat) → Builder Unit
  | [] => return
  | power :: powers => do
    let _ ← checkMul F base base power
    checkSquares F power powers

/-- An integer, and its repeated squares up to the power `exponent` as witnesses. -/
def intPow (F : Field) (width exponent : Nat) (name : String) : Builder Nat := do
  let steps ← squarings exponent
  let value ← int F width name
  let powers ← (List.range steps).mapM fun _ => free s!"{name}-pow"
  checkSquares F value powers
  return value

/-- Requires the bits of a row to sum to one. -/
def checkRow (F : Field) (row : List Nat) : Builder Unit := do
  let sum ← addAll (← Builder.addConst (row.headD 0) (F.ofInt (-1))) row.tail
  Builder.assertZero sum

/-- A count-min sketch, row by row: every cell is a bit and every row holds one set bit. -/
def countMin (F : Field) (hashes buckets : Nat) (name : String) : Builder Unit := do
  if hashes = 0 ∨ buckets = 0 then throw (.invalidGadget (.emptySketch name))
  let cells ← (List.range (hashes * buckets)).mapM fun i => oneBit F s!"{name}[{i}]"
  (List.range hashes).forM fun row => checkRow F ((cells.drop (row * buckets)).take buckets)

/-- The pairs `(i, j)` with `j ≤ i < n`, by rows. -/
def lowerPairs (n : Nat) : List (Nat × Nat) :=
  (List.range n).flatMap fun i => (List.range (i + 1)).map fun j => (i, j)

/-- The terms of a regression, of the given widths, and all their products as witnesses. -/
def linReg (F : Field) (widths : List Nat) (name : String) : Builder Unit := do
  if widths.length < 2 then throw (.invalidGadget (.tooFewTerms name))
  let terms ← widths.zipIdx.mapM fun (width, t) => int F width s!"{name}-bits[{t}]"
  let pairs := lowerPairs terms.length
  let products ← pairs.mapM fun (i, j) => free s!"{name}-prod[{i}*{j}]"
  (pairs.zip products).forM fun ((i, j), product) => do
    let _ ← checkMul F (terms.getD i 0) (terms.getD j 0) product

end PrivateSums.Gadget
