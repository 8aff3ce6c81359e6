import PrivateSums.Random.ChaCha20

/-!
The binary form of values: integers of fixed width with the low byte first, lists with their length
in front, parts one after the other. Decoding takes a value off the front of the bytes.
-/

namespace PrivateSums

/-- Why bytes are not the form of a value. -/
inductive DecodeError
  | truncated
  /-- A truth value is neither zero nor one. -/
  | notBool
  /-- The mark of an optional value is neither zero nor one. -/
  | notTag
  | indexOutOfRange
  deriving DecidableEq, Repr

/-- The code under which a failure is reported. -/
def DecodeError.code : DecodeError → String
  | truncated => "Io"
  | notBool => "InvalidBoolEncoding"
  | notTag => "InvalidTagEncoding"
  | indexOutOfRange => "Custom"

abbrev Decoder (α : Type) := StateT (List UInt8) (Except DecodeError) α

class Wire (α : Type) where
  encode : α → List UInt8
  decode : Decoder α

namespace Wire

/-- The lowest `width` bytes of a number, from the lowest. -/
def bytesOf : (width : Nat) → Nat → List UInt8
  | 0, _ => []
  | width + 1, n => (n % 256).toUInt8 :: bytesOf width (n / 256)

def numberOf : List UInt8 → Nat
  | [] => 0
  | b :: rest => b.toNat + 256 * numberOf rest

def takeBytes : (count : Nat) → Decoder (List UInt8)
  | 0 => return []
  | count + 1 => do
    match ← get with
    | [] => throw .truncated
    | b :: rest =>
      set rest
      return b :: (← takeBytes count)

def number (width : Nat) : Decoder Nat := do
  return numberOf (← takeBytes width)

instance : Wire UInt32 where
  encode n := bytesOf 4 n.toNat
  decode := do return (← number 4).toUInt32

instance : Wire UInt64 where
  encode n := bytesOf 8 n.toNat
  decode := do return (← number 8).toUInt64

instance : Wire Bool where
  encode b := [if b then 1 else 0]
  decode := do
    match ← number 1 with
    | 0 => return false
    | 1 => return true
    | _ => throw .notBool

instance : Wire Key where
  encode key := key.bytes.toList
  decode := do
    let bytes ← takeBytes 32
    return ⟨Vector.ofFn fun i => bytes.getD i 0⟩

variable {α : Type} [Wire α]

def decodeMany : (count : Nat) → Decoder (List α)
  | 0 => return []
  | count + 1 => do
    let first ← decode
    let rest ← decodeMany count
    return first :: rest

instance : Wire (List α) where
  encode items := encode items.length.toUInt64 ++ items.flatMap encode
  decode := do decodeMany (← decode : UInt64).toNat

instance : Wire (Option α) where
  encode
    | none => [0]
    | some a => 1 :: encode a
  decode := do
    match ← number 1 with
    | 0 => return none
    | 1 => return some (← decode)
    | _ => throw .notTag

/-- The digits of a number to the base `2 ^ 32`, from the lowest, none of them superfluous. -/
def limbsOf (n : Nat) : List UInt32 :=
  if n = 0 then [] else (n % UInt32.size).toUInt32 :: limbsOf (n / UInt32.size)
termination_by n
decreasing_by simp only [UInt32.size]; omega

def ofLimbs : List UInt32 → Nat
  | [] => 0
  | limb :: rest => limb.toNat + UInt32.size * ofLimbs rest

instance : Wire Nat where
  encode n := encode (limbsOf n)
  decode := do return ofLimbs (← decode)

/-- One of a list of alternatives, by its index. -/
def encodeIndex {β : Type} [BEq β] (alternatives : List β) (b : β) : List UInt8 :=
  bytesOf 4 (alternatives.idxOf b)

def decodeIndex {β : Type} (alternatives : List β) : Decoder β := do
  match alternatives[← number 4]? with
  | some b => return b
  | none => throw .indexOutOfRange

end Wire

end PrivateSums
