import PrivateSums.Circuit.Evaluation
import PrivateSums.Document.Basic

/-!
Circuits and what they evaluate to, as documents. Field elements are written in decimal.
-/

namespace PrivateSums

namespace Document

/-- Field elements, in decimal. -/
def ofElement (a : Nat) : Document := .text (toString a)

def ofElements (elements : List Nat) : Document := .list (elements.map ofElement)

def ofNat (n : Nat) : Document := .int n

def ofNats (ns : List Nat) : Document := .list (ns.map ofNat)

end Document

open Document

/-- The kind of a gate, its parents and its constant. -/
def Gate.toDocument : Gate → Document
  | input => .list [.text "input"]
  | add l r => .list [.text "add", ofNat l, ofNat r]
  | addConst p c => .list [.text "add_const", ofNat p, ofElement c]
  | mul l r => .list [.text "mul", ofNat l, ofNat r]
  | mulConst p c => .list [.text "mul_const", ofNat p, ofElement c]

namespace Circuit

def toDocument (c : Circuit) : Document := .map [
  ("gates", .list (c.gates.toList.map Gate.toDocument)),
  ("outputs", ofNats (c.outputs.toList.map (·.gate))),
  ("output_names", .list (c.outputs.toList.map (.text ·.name))),
  ("zero_checks", ofNats c.zeroChecks.toList)]

/-- The numbers and positions of the gates of each kind. -/
def statistics (c : Circuit) : Document := .map [
  ("len", ofNat c.size), ("is_empty", .bool c.gates.isEmpty),
  ("num_inputs", ofNat c.numInputs), ("num_muls", ofNat c.numMuls),
  ("num_shared", ofNat c.numShared), ("input_gates", ofNats c.inputGates),
  ("mul_gates", ofNats c.mulGates),
  ("mul_operands", .list (c.mulOperands.map fun (l, r) => ofNats [l, r]))]

/-- The wires, whether they are accepted, and the named outputs. -/
def evaluationDocument (c : Circuit) (wires : Wires) : Document := .map [
  ("wires", ofElements wires.toList), ("accepts", .bool (c.accepts wires)),
  ("outputs", .list ((c.namedOutputs wires).map fun (name, value) =>
    .list [.text name, ofElement value]))]

end Circuit

end PrivateSums
