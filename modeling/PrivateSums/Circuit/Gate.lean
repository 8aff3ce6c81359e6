import PrivateSums.Field.Basic

/-!
The gates of arithmetic circuits. A gate names its parents by their position in the circuit.
-/

namespace PrivateSums

inductive Gate
  | input
  | add (left right : Nat)
  | addConst (parent constant : Nat)
  | mul (left right : Nat)
  | mulConst (parent constant : Nat)
  deriving DecidableEq, Repr

/-- A value per gate, in gate order: the true values or one server's shares of them. -/
abbrev Wires := Array Nat

/-- The value on a gate's wire. -/
def Wires.at (wires : Wires) (gate : Nat) : Nat := wires.getD gate 0

namespace Gate

def parents : Gate → List Nat
  | input => []
  | add left right | mul left right => [left, right]
  | addConst parent _ | mulConst parent _ => [parent]

def isInput : Gate → Bool
  | input => true
  | _ => false

/-- The factors of a product. -/
def operands? : Gate → Option (Nat × Nat)
  | mul left right => some (left, right)
  | _ => none

def isMul (gate : Gate) : Bool := gate.operands?.isSome

/-- Clients share inputs and products; servers derive all other wires. -/
def isShared (gate : Gate) : Bool := gate.isInput || gate.isMul

/-- The gate with its parents moved up by `offset`. -/
def shift (offset : Nat) : Gate → Gate
  | input => input
  | add left right => add (left + offset) (right + offset)
  | addConst parent constant => addConst (parent + offset) constant
  | mul left right => mul (left + offset) (right + offset)
  | mulConst parent constant => mulConst (parent + offset) constant

/-- The value of a derived gate, given those before it. Constants are added by one server only, so
that they count once in the sum of the shares. -/
def derive? (F : Field) (addsConstants : Bool) (wires : Wires) : Gate → Option Nat
  | input | mul .. => none
  | add left right => some (F.add (wires.at left) (wires.at right))
  | addConst parent constant =>
      some (if addsConstants then F.add (wires.at parent) constant else wires.at parent)
  | mulConst parent constant => some (F.mul (wires.at parent) constant)

end Gate

end PrivateSums
