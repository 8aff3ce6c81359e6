import PrivateSums.Check.Error
import PrivateSums.Circuit.Gadget
import PrivateSums.Random.Source

/-!
A schema: the measures of a deployment as one validity circuit, and the encoding of a client's
values as inputs of that circuit.
-/

namespace PrivateSums

/-- The gadget of a valid measure. -/
def Measure.gadget (F : Field) : Measure → Builder Unit
  | int name bits => discard (Gadget.int F bits name)
  | intPow name bits exponent => discard (Gadget.intPow F bits exponent name)
  | intUnsafe name _ | boolOr name | boolAnd name => discard (Gadget.free name)
  | countMin name hashes buckets => Gadget.countMin F hashes buckets name
  | linReg name bits => Gadget.linReg F bits name

/-- The circuit that checks one measure. -/
def Measure.circuit (F : Field) (m : Measure) : Except CheckerError Circuit := do
  m.validate.mapError fun fault => .settings (.invalidMeasure m.name fault)
  (m.gadget F).build.mapError .circuit

/-- Measures, and the circuit that checks values for all of them. -/
structure Schema where
  measures : List Measure
  circuit : Circuit

namespace Schema

/-- One gadget per measure, conjoined in order. -/
def ofMeasures (F : Field) (measures : List Measure) : Except CheckerError Schema := do
  let circuits ← measures.mapM (Measure.circuit F)
  return { measures, circuit := Circuit.andAll circuits }

/-- The lowest `width` bits, the least significant first. -/
def bitsOf (value : UInt64) (width : Nat) : List Nat :=
  (List.range width).map fun i => value.toNat / 2 ^ i % 2

def ofBool (b : Bool) : Nat := if b then 1 else 0

/-- `x²`, `x⁴` and so on, `steps` of them. -/
def squares (F : Field) (x : Nat) : (steps : Nat) → List Nat
  | 0 => []
  | steps + 1 =>
    let square := F.mul x x
    square :: squares F square steps

def checkWidth (value : UInt64) (bits : Nat) : Except ValueFault Unit := do
  unless value.toNat < 2 ^ bits do throw (.tooWide value.toNat bits)

/-- The bits of every term, each checked against its width. -/
def encodeTerms : (terms : List UInt64) → (bits : List Nat) → Except ValueFault (List Nat)
  | term :: terms, width :: bits => do
    checkWidth term width
    return bitsOf term width ++ (← encodeTerms terms bits)
  | _, _ => return []

/-- The circuit inputs for one measure: bits and cells, then witnesses. -/
def encodeValue (F : Field) : Measure → Value → Except ValueFault (List Nat)
  | .int _ bits, .int v => do
    checkWidth v bits
    return bitsOf v bits
  | .intPow _ bits exponent, .int v => do
    checkWidth v bits
    return bitsOf v bits ++ squares F (F.reduce v.toNat) exponent.log2
  | .intUnsafe _ bits, .int v => do
    checkWidth v bits
    return [F.reduce v.toNat]
  | .boolOr _, .bool b | .boolAnd _, .bool b => return [ofBool b]
  | .countMin _ hashes buckets, .sketch cells => do
    unless cells.length = hashes * buckets do throw (.cellCount (hashes * buckets) cells.length)
    return cells.map ofBool
  | .linReg _ bits, .vector terms => do
    unless terms.length = bits.length do throw (.termCount bits.length terms.length)
    let encoded ← encodeTerms terms bits
    let residues := terms.map fun t => F.reduce t.toNat
    return encoded ++ (Gadget.lowerPairs terms.length).map fun (i, j) =>
      F.mul (residues.getD i 0) (residues.getD j 0)
  | _, value => throw (.wrongKind value)

/-- The circuit inputs for one value per measure, in measure order. -/
def encode (F : Field) (s : Schema) (values : List Value) : Except CheckerError (List Nat) := do
  unless values.length = s.measures.length do
    throw (.malformedRequest (.valueCount s.measures.length values.length))
  let inputs ← (s.measures.zip values).mapM fun (m, v) =>
    (encodeValue F m v).mapError (.invalidValue m.name)
  return inputs.flatten

end Schema

end PrivateSums
