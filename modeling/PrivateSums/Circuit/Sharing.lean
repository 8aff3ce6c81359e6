import PrivateSums.Circuit.Evaluation
import PrivateSums.Share.Hints

/-!
A circuit's wires as a client shares them and as a server takes them in.
-/

namespace PrivateSums.Circuit

variable (F : Field)

/-- Shares every input, then every product. -/
def shareWires (c : Circuit) (wires : Wires) : ExceptT CircuitError (StateM Splitter) Unit := do
  c.checkWires wires
  Splitter.shareAll F (c.sharedGates.map wires.at)

/-- Reads one server's shares in the order they were shared in, and derives its other wires. -/
def importWires (c : Circuit) : ExceptT CircuitError (StateM Replay) Wires := do
  let shares ← (Replay.take F c.numShared).adapt .share
  return c.wiresOfShares F (← get).isLeader shares

end PrivateSums.Circuit
