import PrivateSums.Field.Basic

/-!
The built-in fields. Each has a generator of order exactly `2 ^ 19`.
-/

namespace PrivateSums

/-- A built-in field, named for the bit length of its modulus less one. -/
inductive FieldPreset
  | p63
  | p87
  | p102
  deriving DecidableEq, Repr, Inhabited

namespace FieldPreset

def all : List FieldPreset := [p63, p87, p102]

def name : FieldPreset → String
  | p63 => "p63"
  | p87 => "p87"
  | p102 => "p102"

/-- The preset of exactly this name. -/
def ofExactName? (name : String) : Option FieldPreset := all.find? (·.name == name)

/-- The preset of this name, read without regard to ASCII case. -/
def ofName (name : String) : Except FieldError FieldPreset :=
  let lower := name.map Char.toLower
  match ofExactName? lower with
  | some preset => .ok preset
  | none => .error (.unknownPreset lower)

/-- The preset of a deployment that names none. -/
def standard : FieldPreset := p87

def modulus : FieldPreset → Nat
  | p63 => 0x8000000000080001
  | p87 => 0x8000000000000000080001
  | p102 => 0x80000000000000000000080001

def generator : FieldPreset → Nat
  | p63 => 0x22855fdf11374225
  | p87 => 0x2597c14f48d5b65ed8dcca
  | p102 => 0x71a9f9595f292cfd55e4c5254e

def twoOrder : Nat := 19

theorem generator_half (preset : FieldPreset) :
    preset.generator ^ (2 ^ (twoOrder - 1) : Nat) % preset.modulus = preset.modulus - 1 := by
  rw [← powMod_eq]
  cases preset <;> decide +kernel

def field (preset : FieldPreset) : Field where
  modulus := preset.modulus
  generator := preset.generator
  twoOrder := twoOrder
  three_le_modulus := by cases preset <;> decide
  modulus_odd := by cases preset <;> decide
  twoOrder_pos := by decide
  order_dvd := by cases preset <;> decide
  generator_lt := by cases preset <;> decide
  generator_half := preset.generator_half

end FieldPreset

end PrivateSums
