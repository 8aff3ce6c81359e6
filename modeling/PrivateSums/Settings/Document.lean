import PrivateSums.Document.Basic
import PrivateSums.Settings.Basic

/-!
The document form of settings. Reading refuses unknown and missing keys and wrong types; a setting
that is left out keeps its standard value.
-/

namespace PrivateSums

open Documented

instance : Documented FieldPreset where
  toDocument preset := .text preset.name
  ofDocument? d := d.oneOf? FieldPreset.all FieldPreset.name

namespace Measure

/-- The keys of a measure of this kind, in order. -/
def keys? : (kind : String) → Option (List String)
  | "int" | "intUnsafe" => some ["name", "intBits"]
  | "intPow" => some ["name", "intBits", "intPow"]
  | "boolOr" | "boolAnd" => some ["name"]
  | "countMin" => some ["name", "countMinHashes", "countMinBuckets"]
  | "linReg" => some ["name", "linRegBits"]
  | _ => none

def ofFields? : (kind : String) → List Document → Option Measure
  | "int", [name, bits] => return .int (← name.text?) (← bits.size?)
  | "intUnsafe", [name, bits] => return .intUnsafe (← name.text?) (← bits.size?)
  | "intPow", [name, bits, exponent] =>
    return .intPow (← name.text?) (← bits.size?) (← exponent.size?)
  | "boolOr", [name] => return .boolOr (← name.text?)
  | "boolAnd", [name] => return .boolAnd (← name.text?)
  | "countMin", [name, hashes, buckets] =>
    return .countMin (← name.text?) (← hashes.size?) (← buckets.size?)
  | "linReg", [name, bits] => return .linReg (← name.text?) (← (← bits.list?).mapM Document.size?)
  | _, _ => none

def fromDocument? (d : Document) : Option Measure := do
  let (kind, content) ← d.alternative? "type"
  ofFields? kind (← content.exactly? (← keys? kind))

def kind : Measure → String
  | int .. => "int"
  | intPow .. => "intPow"
  | intUnsafe .. => "intUnsafe"
  | boolOr _ => "boolOr"
  | boolAnd _ => "boolAnd"
  | countMin .. => "countMin"
  | linReg .. => "linReg"

/-- The parameters under their keys, in order. -/
def parameters : Measure → List (String × Document)
  | int _ bits | intUnsafe _ bits => [("intBits", .int bits)]
  | intPow _ bits exponent => [("intBits", .int bits), ("intPow", .int exponent)]
  | boolOr _ | boolAnd _ => []
  | countMin _ hashes buckets =>
    [("countMinHashes", .int hashes), ("countMinBuckets", .int buckets)]
  | linReg _ bits => [("linRegBits", .list (bits.map fun (b : Nat) => .int b))]

instance : Documented Measure where
  toDocument m := .map (("type", .text m.kind) :: ("name", .text m.name) :: m.parameters)
  ofDocument? := fromDocument?

end Measure

namespace Settings

def keys : List String :=
  ["field", "num_servers", "max_pending_reqs", "eval_point_rotation", "fields"]

/-- Takes one setting from a document. -/
def set? (s : Settings) (key : String) (d : Document) : Option Settings :=
  match key with
  | "field" => return { s with preset := ← ofDocument? d }
  | "num_servers" => return { s with servers := ← d.size? }
  | "max_pending_reqs" => return { s with maxPending := ← d.size? }
  | "eval_point_rotation" => return { s with rotation := ← d.size? }
  | "fields" => return { s with measures := ← ofDocument? d }
  | _ => none

/-- Takes settings over one by one; any that is unknown or of the wrong type refuses all. -/
def setAll? (s : Settings) (entries : List (String × Document)) : Option Settings :=
  entries.foldlM (fun s (key, d) => s.set? key d) s

/-- Settings by name, or in their order; those left out are standard. -/
def fromDocument? : Document → Option Settings
  | .map entries => standard.setAll? entries
  | .list items => do
    guard (items.length ≤ keys.length)
    standard.setAll? (keys.zip items)
  | _ => none

instance : Documented Settings where
  toDocument s := .map [
    ("field", toDocument s.preset), ("num_servers", .int s.servers),
    ("max_pending_reqs", .int s.maxPending), ("eval_point_rotation", .int s.rotation),
    ("fields", toDocument s.measures)]
  ofDocument? := fromDocument?

end Settings

end PrivateSums
