import PrivateSums.Document.Basic
import PrivateSums.Schema.Value

/-!
The document form of values: the kind of a value and the value, cells as digits.
-/

namespace PrivateSums

open Documented

instance : Documented Value where
  toDocument
    | .int v => .map [("int", toDocument v)]
    | .bool b => .map [("bool", .bool b)]
    | .sketch cells =>
      .map [("sketch", .text (String.ofList (cells.map fun b => if b then '1' else '0')))]
    | .vector terms => .map [("vector", toDocument terms)]
  ofDocument?
    | .map [("int", v)] => return .int (← ofDocument? v)
    | .map [("bool", b)] => return .bool (← b.bool?)
    | .map [("sketch", cells)] => return .sketch ((← cells.text?).toList.map (· == '1'))
    | .map [("vector", terms)] => return .vector (← ofDocument? terms)
    | _ => none

end PrivateSums
