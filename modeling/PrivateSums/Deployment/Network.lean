import PrivateSums.Deployment.Operation.Run

/-!
Calls from a coordinator to servers, over a network that may lose calls and answers.
-/

namespace PrivateSums

/-- What becomes of one call. -/
inductive Fate (α : Type)
  | intact
  /-- It never reaches the server; the caller sees this error. -/
  | lost (error : ServerError)
  /-- It reaches the server, but a favourable answer is lost. -/
  | replyLost (error : ServerError)
  /-- A favourable answer comes back changed. -/
  | altered (alter : α → α)

/-- The fate of every call that a submission makes. It makes none twice to the same peer. -/
abbrev Network := (peer : Nat) → (c : Call) → c.Message → Fate c.Reply

namespace Network

def reliable : Network := fun _ _ _ => .intact

end Network

/-- What the caller sees of a server's answer. -/
def Fate.deliver {α : Type} : Fate α → Except ServerError α → Except ServerError α
  | .replyLost e, .ok _ => .error e
  | .altered alter, .ok a => .ok (alter a)
  | _, answer => answer

/-- The replies of all peers, or the first error among their answers. -/
def allReplies {α : Type} : List (Except ServerError α) → Except ServerError (List α)
  | [] => return []
  | answer :: answers => do return (← answer) :: (← allReplies answers)

/-- A call that was made. -/
structure CallRecord where
  peer : Nat
  call : Call
  message : call.Message

/-- A call under way. -/
structure PeerCall (c : Call) where
  peer : Nat
  fate : Fate c.Reply
  operation : Operation c

namespace PeerCall

variable {c : Call}

/-- Sends a message. A call that is lost has its answer already. -/
def start (network : Network) (peer : Nat) (message : c.Message) : PeerCall c :=
  let fate := network peer c message
  let stage : Stage c := match fate with
    | .lost e => .answered (.error e)
    | _ => .called
  { peer, fate, operation := { message, stage } }

def record (call : PeerCall c) : CallRecord := ⟨call.peer, c, call.operation.message⟩

def answer? (call : PeerCall c) : Option (Except ServerError c.Reply) :=
  call.operation.stage.answer?.map call.fate.deliver

def remaining (call : PeerCall c) : Nat := call.operation.stage.remaining

/-- One step of the call on its server. -/
def step (servers : List Server) (call : PeerCall c) : Option (List Server × PeerCall c) := do
  let (server, operation) ← (← servers[call.peer]?).step call.operation
  return (servers.set call.peer server, { call with operation })

/-- One step of the `i`th of some calls. -/
def stepAt (servers : List Server) (calls : List (PeerCall c)) (i : Nat) :
    Option (List Server × List (PeerCall c)) := do
  let (servers, call) ← (← calls[i]?).step servers
  return (servers, calls.set i call)

/-- All answers, in the order of the calls, once there are all. -/
def answers? (calls : List (PeerCall c)) : Option (List (Except ServerError c.Reply)) :=
  calls.mapM answer?

end PeerCall

end PrivateSums
