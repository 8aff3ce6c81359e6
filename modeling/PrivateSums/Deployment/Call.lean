import PrivateSums.Deployment.Message

/-!
The calls that a server answers.
-/

namespace PrivateSums

inductive Call
  | newRequest
  | evalCircuit
  | finalCircuit
  | accept
  | changePoint
  | abort
  deriving DecidableEq, Repr

namespace Call

def all : List Call := [newRequest, evalCircuit, finalCircuit, accept, changePoint, abort]

def name : Call → String
  | newRequest => "new_request"
  | evalCircuit => "eval_circuit"
  | finalCircuit => "final_circuit"
  | accept => "accept"
  | changePoint => "change_eval_point"
  | abort => "abort"

abbrev Message : Call → Type
  | newRequest => NewRequest
  | evalCircuit => EvalCircuit
  | finalCircuit => FinalCircuit
  | accept => Accept
  | changePoint => ChangePoint
  | abort => Abort

abbrev Reply : Call → Type
  | newRequest => Unit
  | evalCircuit => CorShare
  | finalCircuit => OutShare
  | accept => AcceptReply
  | changePoint => Unit
  | abort => Unit

/-- The leader a message is about. -/
def leader : (c : Call) → c.Message → UInt64
  | newRequest, m => m.leader
  | evalCircuit, m => m.leader
  | finalCircuit, m => m.leader
  | accept, m => m.leader
  | changePoint, m => m.leader
  | abort, m => m.leader

/-- The request a message is about. -/
def id? : (c : Call) → c.Message → Option RequestId
  | newRequest, m => some m.id
  | evalCircuit, m => some m.id
  | finalCircuit, m => some m.id
  | accept, m => some m.id
  | changePoint, _ => none
  | abort, m => some m.id

/-- What a log tells of a message: what it is about, and how many shares it carries. -/
def summary : (c : Call) → c.Message → List Nat
  | newRequest, m => [m.id.toNat, m.leader.toNat, m.epoch.toNat]
  | evalCircuit, m => [m.id.toNat, m.leader.toNat]
  | finalCircuit, m => [m.id.toNat, m.leader.toNat, m.corShares.length]
  | accept, m => [m.id.toNat, m.leader.toNat, m.outShares.length]
  | changePoint, m => [m.leader.toNat, m.epoch.toNat]
  | abort, m => [m.id.toNat, m.leader.toNat]

end Call

end PrivateSums
