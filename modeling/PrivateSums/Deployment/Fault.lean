import PrivateSums.Deployment.Network
import PrivateSums.Document.Basic

/-!
Faults that are put into the network of a deployment on trial.
-/

namespace PrivateSums

inductive FaultMode
  /-- The call never reaches the server. -/
  | before
  /-- The answer is lost. -/
  | after
  /-- The answer is tampered with. -/
  | tamper
  deriving DecidableEq, Repr

namespace FaultMode

def all : List FaultMode := [before, after, tamper]

def name : FaultMode → String
  | before => "before"
  | after => "after"
  | tamper => "tamper"

end FaultMode

/-- A fault of one peer in one kind of call, about one request or any. -/
structure Fault where
  peer : Nat
  call : Call
  request : Option RequestId
  mode : FaultMode
  deriving DecidableEq, Repr

namespace Fault

def applies (f : Fault) (peer : Nat) (c : Call) (m : c.Message) : Bool :=
  f.peer == peer && f.call == c && (f.request.isNone || f.request == c.id? m)

/-- Shares one too great, and verdicts turned round. -/
def tampered : (c : Call) → c.Reply → c.Reply
  | .evalCircuit, share => { share with d := share.d + 1 }
  | .finalCircuit, share => { check := share.check + 1 }
  | .accept, reply => { reply with accepted := !reply.accepted }
  | .newRequest, reply => reply
  | .changePoint, reply => reply
  | .abort, reply => reply

instance : Documented Fault where
  toDocument f := .map [("peer", .int f.peer), ("call", .text f.call.name),
    ("request", Documented.toDocument f.request), ("mode", .text f.mode.name)]
  ofDocument? d := do
    let [peer, call, request, mode] ← d.among? ["peer", "call", "request", "mode"] | none
    return {
      peer := ← peer.size?
      call := ← call.oneOf? Call.all Call.name
      request := ← Documented.ofDocument? request
      mode := ← mode.oneOf? FaultMode.all FaultMode.name }

end Fault

/-- A network in which the first fault that applies to a call decides its fate. -/
def Network.ofFaults (faults : List Fault) : Network := fun peer c m =>
  let error := ServerError.compute s!"injected {peer}"
  match (faults.find? (·.applies peer c m)).map Fault.mode with
  | none => .intact
  | some .before => .lost error
  | some .after => .replyLost error
  | some .tamper => .altered (Fault.tampered c)

end PrivateSums
