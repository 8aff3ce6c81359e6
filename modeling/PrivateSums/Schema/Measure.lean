/-!
What a deployment collects: named values, each with the condition that makes it valid.
-/

namespace PrivateSums

/-- One collected value. -/
inductive Measure
  /-- An integer of at most this many bits. -/
  | int (name : String) (bits : Nat)
  /-- An integer together with its powers up to the exponent. -/
  | intPow (name : String) (bits exponent : Nat)
  /-- An integer whose range is not checked. -/
  | intUnsafe (name : String) (bits : Nat)
  | boolOr (name : String)
  | boolAnd (name : String)
  /-- A sketch with one set bit per row. -/
  | countMin (name : String) (hashes buckets : Nat)
  /-- A training example: one integer per bit width. -/
  | linReg (name : String) (bits : List Nat)
  deriving DecidableEq, Repr

/-- What is wrong with a measure's parameters. -/
inductive MeasureFault
  | bits (found : Nat)
  | exponent (found : Nat)
  | hashes (found : Nat)
  | buckets (found : Nat)
  | tooFewTerms
  deriving DecidableEq, Repr

/-- The widest integer a measure takes. -/
def maxMeasureBits : Nat := 64

/-- Sketches have fewer rows than this. -/
def hashLimit : Nat := 256

/-- Sketches have fewer cells in a row than this. -/
def bucketLimit : Nat := 1024 * 128

def MeasureFault.message : MeasureFault → String
  | .bits found => s!"intBits must be in 1..={maxMeasureBits}, got {found}"
  | .exponent found => s!"intPow must be one of 2, 4, 8, got {found}"
  | .hashes found => s!"countMinHashes must be in 1..{hashLimit}, got {found}"
  | .buckets found => s!"countMinBuckets must be in 1..{bucketLimit}, got {found}"
  | .tooFewTerms => "linReg must have at least two terms"

namespace Measure

def name : Measure → String
  | int name _ | intPow name _ _ | intUnsafe name _ | boolOr name | boolAnd name
  | countMin name _ _ | linReg name _ => name

def checkBits (bits : Nat) : Except MeasureFault Unit := do
  if bits = 0 ∨ maxMeasureBits < bits then throw (.bits bits)

/-- The first fault in the parameters, in the order they are declared. -/
def validate : Measure → Except MeasureFault Unit
  | int _ bits | intUnsafe _ bits => checkBits bits
  | intPow _ bits exponent => do
    checkBits bits
    unless exponent ∈ [2, 4, 8] do throw (.exponent exponent)
  | boolOr _ | boolAnd _ => return
  | countMin _ hashes buckets => do
    if hashes = 0 ∨ hashLimit ≤ hashes then throw (.hashes hashes)
    if buckets = 0 ∨ bucketLimit ≤ buckets then throw (.buckets buckets)
  | linReg _ bits => do
    if bits.length < 2 then throw .tooFewTerms
    bits.forM checkBits

end Measure

end PrivateSums
