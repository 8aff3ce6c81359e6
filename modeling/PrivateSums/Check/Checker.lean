import PrivateSums.Check.Request

/-!
The check of one request by one server, in two rounds. After the first all servers sum their
`CorShare`s, after the second their `OutShare`s; the request is valid when those sum to zero.
-/

namespace PrivateSums

/-- One server's blinded shares of `f x` and `x * g x`. -/
structure CorShare where
  d : Nat
  e : Nat
  deriving DecidableEq, Repr

/-- The sums of all servers' `CorShare`s. -/
structure Cor where
  d : Nat
  e : Nat
  deriving DecidableEq, Repr

/-- One server's share of a random combination of everything that must be zero. -/
structure OutShare where
  check : Nat
  deriving DecidableEq, Repr

/-- One server's shares of a client's values, decompressed. -/
structure Holding where
  wires : Wires
  randomLeft : Nat
  randomRight : Nat
  randomProduct : Nat
  hints : List Nat
  triple : TripleShare

/-- One server's shares of `f x`, `x * g x` and `x * h x`. -/
structure Evaluations where
  left : Nat
  right : Nat
  product : Nat

namespace Holding

variable (F : Field) (c : Circuit)

/-- Reads all of a request's shares, in the order the client shared them. -/
def read (triple : TripleShare) : ExceptT CircuitError (StateM Replay) Holding := do
  let wires ← c.importWires F
  let randomLeft ← (Replay.get F).adapt CircuitError.share
  let randomRight ← (Replay.get F).adapt CircuitError.share
  let randomProduct ← (Replay.get F).adapt CircuitError.share
  let hints ← (Replay.take F (c.domainSize - 1)).adapt CircuitError.share
  ((← get).finish c.numSharedValues).mapError CircuitError.share
  return { wires, randomLeft, randomRight, randomProduct, hints, triple }

/-- The shares of `h` at its interpolation points: after the first point, hints and products take
turns, with zeros for the products that are missing. -/
def productValues (h : Holding) : List Nat :=
  let products := Transform.padded h.hints.length (c.mulGates.map h.wires.at)
  h.randomProduct :: Transform.interleave h.hints products

/-- The shares of both factors and their product at the evaluation point. -/
def evaluate (h : Holding) (point : EvaluationPoint) : Except PolynomialError Evaluations := do
  let values (random : Nat) (operands : List Nat) :=
    ClientRequest.factorValues c.domainSize random operands
  let left ← point.factors.evaluate F
    (values h.randomLeft (c.mulOperands.map (h.wires.at ·.1)))
  let right ← point.factors.evaluate F
    (values h.randomRight (c.mulOperands.map (h.wires.at ·.2)))
  let product ← point.product.evaluate F (h.productValues c)
  return { left, right := F.mul right point.x, product := F.mul product point.x }

/-- The evaluated factors, blinded by the triple. -/
def corShare (h : Holding) (e : Evaluations) : CorShare where
  d := F.sub e.left h.triple.a
  e := F.sub e.right h.triple.b

/-- The share of `x * (f x * g x - h x)`, as the triple lets it be computed from public sums. The
product of the two sums is public and so added by one server only. -/
def productCheck (isLeader : Bool) (h : Holding) (e : Evaluations) (cor : Cor) : Nat :=
  let blinded := F.add (F.mul cor.d h.triple.b) (F.mul cor.e h.triple.a)
  let check := F.sub (F.add blinded h.triple.c) e.product
  if isLeader then F.add check (F.mul cor.d cor.e) else check

/-- The share of a linear combination of the product check and all zero checks. -/
def combine (h : Holding) (productCheck : Nat) : (coefficients : List Nat) → Nat
  | [] => 0
  | first :: rest =>
    (List.zip c.zeroChecks.toList rest).foldl
      (fun sum (gate, r) => F.add sum (F.mul (h.wires.at gate) r)) (F.mul productCheck first)

/-- As many coefficients as there are checks, from the key all servers share. -/
def coefficients (key : Key) : List Nat :=
  ((ElementStream.take F (c.zeroChecks.size + 1)).run (.ofKey key)).1

end Holding

/-- What a checker has of its request. -/
inductive Phase
  | idle
  | holding (request : Holding)
  | evaluated (request : Holding) (evaluations : Evaluations)
  | finished (request : Holding) (evaluations : Evaluations)

def Phase.state : Phase → CheckerState
  | idle => .idle
  | holding _ => .hasRequest
  | evaluated .. => .layer1Done
  | finished .. => .finished

/-- One server's check, of one request at a time. An operation that fails answers no checker, and
so leaves the one it was called on as it is. -/
structure Checker where
  field : Field
  circuit : Circuit
  server : Nat
  leader : Nat
  servers : Nat
  phase : Phase

namespace Checker

def new (field : Field) (circuit : Circuit) (server leader servers : Nat) : Checker :=
  { field, circuit, server, leader, servers, phase := .idle }

def state (k : Checker) : CheckerState := k.phase.state

def isLeader (k : Checker) : Bool := k.server == k.leader

def outOfSequence {α : Type} (k : Checker) (expected : CheckerState) : Except CheckerError α :=
  throw (.protocolSequence expected k.state)

def expectCount (k : Checker) (found : Nat) : Except CheckerError Unit := do
  unless found = k.servers do throw (.wrongShareCount k.servers found)

/-- Takes in a client's request. Everything a client controls is checked before the replay, so
that the replay cannot fail. -/
def setRequest (k : Checker) (request : ClientRequest) : Except CheckerError Checker := do
  let .idle := k.phase | k.outOfSequence .idle
  unless request.triple.isCanonical k.field do throw (.malformedRequest .tripleNotCanonical)
  let expected := k.circuit.numSharedValues
  let found := request.hints.deltas.length
  if k.isLeader ∧ found ≠ expected then throw (.malformedRequest (.deltaCount expected found))
  let replay ← (Replay.ofHints k.field k.server k.leader request.hints).mapError
    (.malformedRequest ∘ .hints)
  let (read, _) := (Holding.read k.field k.circuit request.triple).run.run replay
  return { k with phase := .holding (← read.mapError .outOfSync) }

/-- The first round: this server's share of the blinded factors at the evaluation point. -/
def corShare (k : Checker) (point : EvaluationPoint) :
    Except CheckerError (CorShare × Checker) := do
  let .holding request := k.phase | k.outOfSequence .hasRequest
  let expected := k.circuit.domainSize
  unless point.domain.size = expected do
    throw (.precomputeMismatch expected point.domain.size)
  let e ← (request.evaluate k.field k.circuit point).mapError .polynomial
  return (request.corShare k.field e, { k with phase := .evaluated request e })

/-- Sums the shares of all servers. -/
def cor (k : Checker) (shares : List CorShare) : Except CheckerError Cor := do
  let .evaluated .. := k.phase | k.outOfSequence .layer1Done
  k.expectCount shares.length
  return { d := k.field.sum (shares.map (·.d)), e := k.field.sum (shares.map (·.e)) }

/-- This server's share of the product check, from the sums of the first round. -/
def productCheck (k : Checker) (cor : Cor) : Except CheckerError Nat := do
  let .evaluated request e := k.phase | k.outOfSequence .layer1Done
  return request.productCheck k.field k.isLeader e cor

/-- This server's share of a linear combination of all checks. -/
def outShareWith (k : Checker) (cor : Cor) (coefficients : List Nat) :
    Except CheckerError (OutShare × Checker) := do
  let .evaluated request e := k.phase | k.outOfSequence .layer1Done
  let check := request.combine k.field k.circuit (← k.productCheck cor) coefficients
  return ({ check }, { k with phase := .finished request e })

/-- The second round: the coefficients come from a key that is the same on all servers. -/
def outShare (k : Checker) (cor : Cor) (key : Key) : Except CheckerError (OutShare × Checker) :=
  k.outShareWith cor (Holding.coefficients k.field k.circuit key)

/-- Whether the shares of all servers sum to zero. -/
def outputIsValid (k : Checker) (shares : List OutShare) : Except CheckerError Bool := do
  let .finished .. := k.phase | k.outOfSequence .finished
  k.expectCount shares.length
  return k.field.sum (shares.map (·.check)) == 0

/-- This server's shares of the outputs. -/
def outputShares (k : Checker) : Except CheckerError (List Nat) := do
  let .finished request _ := k.phase | k.outOfSequence .finished
  return k.circuit.outputValues request.wires

def reset (k : Checker) : Checker := { k with phase := .idle }

end Checker

end PrivateSums
