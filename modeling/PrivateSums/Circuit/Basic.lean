import PrivateSums.Circuit.Error
import PrivateSums.Circuit.Gate

/-!
Arithmetic circuits: gates in evaluation order, named outputs, and gates that must be zero. A
circuit is put together by `Builder` operations, which refuse parents that do not precede, and by
conjunction.
-/

namespace PrivateSums

/-- A gate whose wire is aggregated, and its name. Gates and names are only ever appended together,
so a circuit has one array of such pairs for both. -/
structure Output where
  gate : Nat
  name : String
  deriving DecidableEq, Repr

structure Circuit where
  gates : Array Gate
  outputs : Array Output
  /-- The gates that must evaluate to zero. -/
  zeroChecks : Array Nat
  deriving DecidableEq, Repr

namespace Circuit

def empty : Circuit := ⟨#[], #[], #[]⟩

def size (c : Circuit) : Nat := c.gates.size

/-- The positions of the gates of one kind, in order. -/
def positions (c : Circuit) (kind : Gate → Bool) : List Nat :=
  (c.gates.toList.zipIdx.filter (kind ·.1)).map (·.2)

def inputGates (c : Circuit) : List Nat := c.positions Gate.isInput

def mulGates (c : Circuit) : List Nat := c.positions Gate.isMul

/-- The factors of every product, in gate order. -/
def mulOperands (c : Circuit) : List (Nat × Nat) := c.gates.toList.filterMap Gate.operands?

def numInputs (c : Circuit) : Nat := c.gates.countP Gate.isInput

def numMuls (c : Circuit) : Nat := c.gates.countP Gate.isMul

/-- The number of wires that a client shares. -/
def numShared (c : Circuit) : Nat := c.gates.countP Gate.isShared

/-- The gates that a client shares, in the order it shares them: inputs, then products. -/
def sharedGates (c : Circuit) : List Nat := c.inputGates ++ c.mulGates

/-- The conjunction: the gates of `d` follow those of `c`. -/
def and (c d : Circuit) : Circuit where
  gates := c.gates ++ d.gates.map (Gate.shift c.size)
  outputs := c.outputs ++ d.outputs.map fun o => { o with gate := o.gate + c.size }
  zeroChecks := c.zeroChecks ++ d.zeroChecks.map (· + c.size)

def andAll (circuits : List Circuit) : Circuit := circuits.foldl and empty

end Circuit

/-- A circuit under construction. An operation that fails keeps what it added before. -/
abbrev Builder := ExceptT CircuitError (StateM Circuit)

namespace Builder

/-- Adds a gate after the others and answers its position. -/
def push (gate : Gate) : Builder Nat := do
  let id := (← get).size
  if let some parent := gate.parents.find? (id ≤ ·) then throw (.unknownParent id parent)
  modify fun c => { c with gates := c.gates.push gate }
  return id

def input : Builder Nat := push .input

def add (left right : Nat) : Builder Nat := push (.add left right)

def addConst (parent constant : Nat) : Builder Nat := push (.addConst parent constant)

def mul (left right : Nat) : Builder Nat := push (.mul left right)

def mulConst (parent constant : Nat) : Builder Nat := push (.mulConst parent constant)

def requireGate (gate : Nat) : Builder Unit := do
  let size := (← get).size
  if size ≤ gate then throw (.unknownParent size gate)

/-- Marks a gate as one that must evaluate to zero. -/
def assertZero (gate : Nat) : Builder Unit := do
  requireGate gate
  modify fun c => { c with zeroChecks := c.zeroChecks.push gate }

def output (gate : Nat) (name : String) : Builder Unit := do
  requireGate gate
  modify fun c => { c with outputs := c.outputs.push { gate, name } }

/-- The circuit that an operation leaves, started from the empty one. -/
def build {α : Type} (b : Builder α) : Except CircuitError Circuit :=
  let (result, c) := b.run.run .empty
  result.map fun _ => c

end Builder

end PrivateSums
