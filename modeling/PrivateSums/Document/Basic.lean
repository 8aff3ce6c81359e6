/-!
Documents: trees of scalars, lists and maps, as configuration files and messages hold them.
-/

namespace PrivateSums

inductive Document
  | null
  | bool (value : Bool)
  | int (value : Int)
  /-- A number that is not an integer. Nothing here takes one. -/
  | real
  | text (value : String)
  | list (items : List Document)
  | map (entries : List (String × Document))
  deriving Inhabited

namespace Document

def text? : Document → Option String
  | text s => some s
  | _ => none

def bool? : Document → Option Bool
  | bool b => some b
  | _ => none

def list? : Document → Option (List Document)
  | list items => some items
  | _ => none

def entries? : Document → Option (List (String × Document))
  | map entries => some entries
  | _ => none

def int? : Document → Option Int
  | int i => some i
  | _ => none

def nat? : Document → Option Nat
  | int (.ofNat n) => some n
  | _ => none

/-- A natural number written out in decimal. -/
def decimal? : Document → Option Nat
  | text s => s.toNat?
  | _ => none

def nats? (d : Document) : Option (List Nat) := do (← d.list?).mapM nat?

def decimals? (d : Document) : Option (List Nat) := do (← d.list?).mapM decimal?

/-- What stands under a key, unless it is null. -/
def get? (d : Document) (key : String) : Option Document :=
  match d with
  | map entries => (entries.lookup key).filter fun
    | null => false
    | _ => true
  | _ => none

/-- The entries with another value under a key. -/
def put (entries : List (String × Document)) (key : String) (value : Document) :
    List (String × Document) :=
  entries.filter (·.1 != key) ++ [(key, value)]

/-- A natural number below a bound. -/
def natBelow? (bound : Nat) (d : Document) : Option Nat := d.nat?.filter (· < bound)

/-- A natural number of 64 bits. -/
def size? (d : Document) : Option Nat := d.natBelow? UInt64.size

/-- A named alternative and what is said about it: a map with the name under `key`, or a list
that starts with the name. -/
def alternative? (key : String) : Document → Option (String × Document)
  | map entries => do
    let name ← (← entries.lookup key).text?
    return (name, map (entries.filter (·.1 != key)))
  | list (name :: items) => do return (← name.text?, list items)
  | _ => none

/-- The values of `keys`, for a map with exactly these keys or a list of as many entries. -/
def exactly? (keys : List String) : Document → Option (List Document)
  | map entries => do
    guard (entries.length = keys.length)
    keys.mapM (entries.lookup ·)
  | list items => do
    guard (items.length = keys.length)
    return items
  | _ => none

/-- The values of `keys` among others, null where one is missing, or of a list of as many
entries. -/
def among? (keys : List String) : Document → Option (List Document)
  | map entries => some (keys.map fun key => (entries.lookup key).getD null)
  | list items => do
    guard (items.length = keys.length)
    return items
  | _ => none

/-- The alternative of this name; the name may also be the key of an empty entry. -/
def oneOf? {α : Type} (d : Document) (alternatives : List α) (name : α → String) : Option α :=
  match d with
  | text given | map [(given, null)] => alternatives.find? (name · == given)
  | _ => none

end Document

/-- Types with a document form. -/
class Documented (α : Type) where
  toDocument : α → Document
  ofDocument? : Document → Option α

namespace Documented

instance : Documented Bool := ⟨.bool, Document.bool?⟩

instance : Documented UInt64 where
  toDocument n := .int n.toNat
  ofDocument? d := d.size?.map Nat.toUInt64

instance {α : Type} [Documented α] : Documented (List α) where
  toDocument items := .list (items.map toDocument)
  ofDocument? d := do (← d.list?).mapM ofDocument?

instance {α : Type} [Documented α] : Documented (Option α) where
  toDocument
    | none => .null
    | some a => toDocument a
  ofDocument?
    | .null => some none
    | d => (ofDocument? d).map some

end Documented

end PrivateSums
