import PrivateSums.Schema.Basic

/-!
Random valid values.
-/

namespace PrivateSums.Schema

variable {σ : Type} [WordSource σ]

/-- A number of at most `bits` bits. -/
def randomBits (bits : Nat) : StateM σ UInt64 := do
  let word ← Random.word64
  return if 64 ≤ bits then word else (word.toNat % 2 ^ bits).toUInt64

/-- `rows` rows of `buckets` cells, one of each row set. -/
def randomSketch (buckets : Nat) : (rows : Nat) → StateM σ (List Bool)
  | 0 => return []
  | rows + 1 => do
    let set ← Random.index buckets
    let rest ← randomSketch buckets rows
    return (List.range buckets).map (· == set) ++ rest

def randomTerms : (bits : List Nat) → StateM σ (List UInt64)
  | [] => return []
  | width :: bits => do
    let first ← randomBits width
    let rest ← randomTerms bits
    return first :: rest

/-- A value that the measure takes and its gadget accepts. -/
def randomValue : Measure → StateM σ Value
  | .int _ bits | .intPow _ bits _ | .intUnsafe _ bits => do return .int (← randomBits bits)
  | .boolOr _ | .boolAnd _ => do return .bool (← Random.bool)
  | .countMin _ hashes buckets => do return .sketch (← randomSketch buckets hashes)
  | .linReg _ bits => do return .vector (← randomTerms bits)

/-- One value for every measure. -/
def randomValues : (measures : List Measure) → StateM σ (List Value)
  | [] => return []
  | m :: measures => do
    let first ← randomValue m
    let rest ← randomValues measures
    return first :: rest

end PrivateSums.Schema
