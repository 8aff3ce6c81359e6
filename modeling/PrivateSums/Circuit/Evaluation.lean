import PrivateSums.Circuit.Basic

/-!
Evaluation of circuits: all wires from the inputs, or the derived wires from the shared ones.
-/

namespace PrivateSums.Circuit

variable (F : Field)

/-- Appends the wires of `gates` to those before them, taking an input from the list where a gate
asks for one. -/
def evaluateGates : (gates : List Gate) → (inputs : List Nat) → (wires : Wires) → Wires
  | [], _, wires => wires
  | .input :: gates, inputs, wires =>
    evaluateGates gates inputs.tail (wires.push (F.reduce (inputs.headD 0)))
  | .mul left right :: gates, inputs, wires =>
    evaluateGates gates inputs (wires.push (F.mul (wires.at left) (wires.at right)))
  | gate :: gates, inputs, wires =>
    evaluateGates gates inputs (wires.push ((gate.derive? F true wires).getD 0))

/-- Every wire, from one value per input gate. -/
def evaluate (c : Circuit) (inputs : List Nat) : Except CircuitError Wires := do
  unless inputs.length = c.numInputs do throw (.inputCountMismatch c.numInputs inputs.length)
  return evaluateGates F c.gates.toList inputs #[]

/-- Whether every gate that must be zero is. -/
def accepts (c : Circuit) (wires : Wires) : Bool := c.zeroChecks.all (wires.at · == 0)

def check (c : Circuit) (inputs : List Nat) : Except CircuitError Bool := do
  return c.accepts (← c.evaluate F inputs)

/-- The wires at the outputs, in output order. -/
def outputValues (c : Circuit) (wires : Wires) : List Nat :=
  c.outputs.toList.map fun o => wires.at o.gate

def namedOutputs (c : Circuit) (wires : Wires) : List (String × Nat) :=
  c.outputs.toList.map fun o => (o.name, wires.at o.gate)

/-- Appends the wires of `gates` to those before them, taking the values of inputs and products
from two lists and deriving all others. -/
def deriveGates (addsConstants : Bool) :
    (gates : List Gate) → (inputs products : List Nat) → (wires : Wires) → Wires
  | [], _, _, wires => wires
  | .input :: gates, inputs, products, wires =>
    deriveGates addsConstants gates inputs.tail products (wires.push (inputs.headD 0))
  | .mul .. :: gates, inputs, products, wires =>
    deriveGates addsConstants gates inputs products.tail (wires.push (products.headD 0))
  | gate :: gates, inputs, products, wires =>
    deriveGates addsConstants gates inputs products
      (wires.push ((gate.derive? F addsConstants wires).getD 0))

/-- One server's wires, from its shares of the inputs and then of the products. -/
def wiresOfShares (c : Circuit) (addsConstants : Bool) (shares : List Nat) : Wires :=
  deriveGates F addsConstants c.gates.toList (shares.take c.numInputs) (shares.drop c.numInputs) #[]

def checkWires (c : Circuit) (wires : Wires) : Except CircuitError Unit := do
  unless wires.size = c.size do throw (.wireCountMismatch c.size wires.size)

/-- Derives every wire anew that is neither an input nor a product. -/
def deriveWires (c : Circuit) (addsConstants : Bool) (wires : Wires) :
    Except CircuitError Wires := do
  c.checkWires wires
  return c.wiresOfShares F addsConstants (c.sharedGates.map wires.at)

end PrivateSums.Circuit
