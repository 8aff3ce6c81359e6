/-!
A client's values.
-/

namespace PrivateSums

/-- A client's value for one measure. -/
inductive Value
  | int (value : UInt64)
  | bool (value : Bool)
  /-- The cells of a sketch, row by row. -/
  | sketch (cells : List Bool)
  | vector (terms : List UInt64)
  deriving DecidableEq, Repr

namespace Value

private def bracketed (entries : List String) : String :=
  "[" ++ String.intercalate ", " entries ++ "]"

private def truth (b : Bool) : String := if b then "true" else "false"

/-- The value with its kind in front. -/
def describe : Value → String
  | int value => s!"Int({value.toNat})"
  | bool value => s!"Bool({truth value})"
  | sketch cells => "Sketch(" ++ bracketed (cells.map truth) ++ ")"
  | vector terms => "Vector(" ++ bracketed (terms.map fun t => toString t.toNat) ++ ")"

end Value

end PrivateSums
