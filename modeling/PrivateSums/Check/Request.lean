import PrivateSums.Check.Domain
import PrivateSums.Circuit.Sharing
import PrivateSums.Polynomial.Transform
import PrivateSums.Schema.Basic
import PrivateSums.Share.Triple

/-!
A client's request: its wires, shared, with what the servers need to check the products among them.
-/

namespace PrivateSums

/-- What one server receives for one submission. -/
structure ClientRequest where
  hints : Hints
  triple : TripleShare
  deriving DecidableEq

/-- The number of values a client shares: every input and product, three values at the first
interpolation point, and `N - 1` hints. -/
def Circuit.numSharedValues (c : Circuit) : Nat := c.numShared + 3 + (c.domainSize - 1)

namespace Transform

/-- The entries at odd positions. -/
def odds : List Nat → List Nat
  | _ :: b :: rest => b :: odds rest
  | _ => []

end Transform

namespace ClientRequest

/-- The values of a factor at the interpolation points: a random one, one per product, zeros. -/
def factorValues (size random : Nat) (operands : List Nat) : List Nat :=
  Transform.padded size (random :: operands)

/-- The values of a factor at the `2N`-th roots of unity, from those at the `N`-th. -/
def extend (F : Field) (values : List Nat) : Except PolynomialError (List Nat) := do
  Transform.evaluateOnRoots F (← Transform.interpolateOnRoots F values) (2 * values.length)

/-- What is shared after the wires: the random values of both factors, their product, and the
product of the factors at every odd root but the last. -/
def proofValues (F : Field) (c : Circuit) (wires : Wires) (randomLeft randomRight : Nat) :
    Except PolynomialError (List Nat) := do
  let size := c.domainSize
  let left ← extend F (factorValues size randomLeft (c.mulOperands.map (wires.at ·.1)))
  let right ← extend F (factorValues size randomRight (c.mulOperands.map (wires.at ·.2)))
  let hints := (Transform.odds (List.zipWith F.mul left right)).take (size - 1)
  return randomLeft :: randomRight :: F.mul randomLeft randomRight :: hints

/-- Each server's hints beside its share of the triple. -/
def pair (splitter : Splitter) (triples : List TripleShare) :
    Except ShareError (List ClientRequest) :=
  triples.zipIdx.mapM fun (triple, server) => do
    return { hints := ← splitter.hints server, triple }

variable {σ : Type} [WordSource σ]

/-- One request per server, in server order. The inputs need not satisfy the circuit. -/
def ofInputs (F : Field) (c : Circuit) (inputs : List Nat) (servers leader : Nat) :
    ExceptT CheckerError (StateM σ) (List ClientRequest) := do
  let wires ← (c.evaluate F inputs).mapError CheckerError.circuit
  let splitter ← (Splitter.start servers leader).adapt CheckerError.share
  let (shared, splitter) := (c.shareWires F wires).run.run splitter
  shared.mapError CheckerError.circuit
  let randomLeft ← (F.random : StateM σ Nat)
  let randomRight ← (F.random : StateM σ Nat)
  let proof ← (proofValues F c wires randomLeft randomRight).mapError CheckerError.polynomial
  let ((), splitter) := (Splitter.shareAll F proof).run splitter
  let triples ← (TripleShare.deal F servers).adapt CheckerError.share
  (pair splitter triples).mapError CheckerError.share

/-- One request per server for a value of every measure. -/
def ofValues (F : Field) (s : Schema) (values : List Value) (servers leader : Nat) :
    ExceptT CheckerError (StateM σ) (List ClientRequest) := do
  ofInputs F s.circuit (← s.encode F values) servers leader

end ClientRequest

end PrivateSums
