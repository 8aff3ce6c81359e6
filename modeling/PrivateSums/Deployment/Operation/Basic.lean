import PrivateSums.Deployment.Call
import PrivateSums.Deployment.Server

/-!
How a server answers a call: in atomic steps, between which other operations may take theirs. Each
access to the pending requests, to the evaluation points and to the pool is a step of its own, and
so is the computation between two of them.
-/

namespace PrivateSums

/-- Where an operation stands between two steps, and what it holds there. -/
inductive Stage : Call → Type
  | called {c : Call} : Stage c
  /-- The epoch of the request is known. -/
  | bound (point : EvaluationPoint) : Stage .newRequest
  /-- Its identifier was not in use. -/
  | unused (point : EvaluationPoint) : Stage .newRequest
  /-- A checker is promised. -/
  | permitted (point : EvaluationPoint) : Stage .newRequest
  /-- The checker is to take the request in. -/
  | loading (point : EvaluationPoint) (k : Checker) : Stage .newRequest
  /-- It did. -/
  | loaded (point : EvaluationPoint) (k : Checker) : Stage .newRequest
  | evaluating (p : Pending) : Stage .evalCircuit
  | evaluated (p : Pending) (share : CorShare) : Stage .evalCircuit
  | finalising (p : Pending) : Stage .finalCircuit
  | finalised (p : Pending) (share : OutShare) : Stage .finalCircuit
  | deciding (p : Pending) : Stage .accept
  | computed (point : EvaluationPoint) : Stage .changePoint
  /-- The answer is known; the checker is to go back to the pool. -/
  | releasing {c : Call} (k : Checker) (answer : Except ServerError c.Reply) : Stage c
  /-- The checker is back; its permit is to follow. -/
  | leaving {c : Call} (answer : Except ServerError c.Reply) : Stage c
  | answered {c : Call} (answer : Except ServerError c.Reply) : Stage c

namespace Stage

/-- A bound on the steps that are left. -/
def remaining {c : Call} : Stage c → Nat
  | called => 8
  | bound _ => 7
  | unused _ => 6
  | permitted _ => 5
  | loading .. => 4
  | loaded .. => 3
  | evaluating _ => 4
  | evaluated .. => 3
  | finalising _ => 4
  | finalised .. => 3
  | deciding _ => 3
  | computed _ => 1
  | releasing .. => 2
  | leaving _ => 1
  | answered _ => 0

def answer? {c : Call} : Stage c → Option (Except ServerError c.Reply)
  | answered a => some a
  | _ => none

end Stage

namespace Checker

/-- Both rounds' sums and the share of the second round, at once. -/
def finalShare (k : Checker) (shares : List CorShare) (key : Key) :
    Except CheckerError (OutShare × Checker) := do
  k.outShare (← k.cor shares) key

/-- The verdict that the shares of the second round give, with the output shares if it is
favourable. -/
def verdict (k : Checker) (shares : List OutShare) : Except CheckerError AcceptReply := do
  if ← k.outputIsValid shares then
    return { accepted := true, outputShares := some (← k.outputShares) }
  else
    return { accepted := false, outputShares := none }

end Checker

namespace LeaderSlot

variable (s : LeaderSlot)

/-- Puts a request back. One that came in its place meanwhile is given up. -/
def putBack {c : Call} (id : RequestId) (p : Pending) (reply : c.Reply) : LeaderSlot × Stage c :=
  let stage : Stage c := match s.pending.find? id with
    | none => .answered (.ok reply)
    | some displaced => .releasing displaced.checker (.ok reply)
  ({ s with pending := s.pending.insert id p }, stage)

/-- Takes a request out for an operation. -/
def takeOut {c : Call} (id : RequestId) (next : Pending → Stage c) : LeaderSlot × Stage c :=
  match s.pending.find? id with
  | none => (s, .answered (.error (.unknownRequest id)))
  | some p => ({ s with pending := s.pending.erase id }, next p)

/-- The steps with which every operation that holds a checker ends. -/
def finish {c : Call} : Stage c → Option (LeaderSlot × Stage c)
  | .releasing k answer => some ({ s with pool := s.pool.giveChecker k }, .leaving answer)
  | .leaving answer => some ({ s with pool := s.pool.givePermit }, .answered answer)
  | _ => none

def stepNewRequest (m : NewRequest) : Stage .newRequest → Option (LeaderSlot × Stage .newRequest)
  | .called => some <| match s.points.get? m.epoch with
    | none => (s, .answered (.error (.unknownEpoch m.leader m.epoch)))
    | some point => (s, .bound point)
  | .bound point => some <| match s.pending.find? m.id with
    | some _ => (s, .answered (.error (.duplicateRequest m.id)))
    | none => (s, .unused point)
  | .unused point => s.pool.takePermit?.map fun pool => ({ s with pool }, .permitted point)
  | .permitted point => some <| match s.pool.takeChecker with
    | .error e => (s, .leaving (.error e))
    | .ok (k, pool) => ({ s with pool }, .loading point k)
  | .loading point k => some <| match k.setRequest m.request with
    | .error e => (s, .releasing k (.error (.checker e)))
    | .ok k => (s, .loaded point k)
  | .loaded point k => some <| match s.pending.find? m.id with
    | some _ => (s, .releasing k (.error (.duplicateRequest m.id)))
    | none => ({ s with pending := s.pending.insert m.id ⟨k, point⟩ }, .answered (.ok ()))
  | stage => s.finish stage

def stepEvalCircuit (m : EvalCircuit) :
    Stage .evalCircuit → Option (LeaderSlot × Stage .evalCircuit)
  | .called => some (s.takeOut m.id .evaluating)
  | .evaluating p => some <| match p.checker.corShare p.point with
    | .error e => (s, .releasing p.checker (.error (.checker e)))
    | .ok (share, checker) => (s, .evaluated { p with checker } share)
  | .evaluated p share => some (s.putBack m.id p share)
  | stage => s.finish stage

def stepFinalCircuit (m : FinalCircuit) :
    Stage .finalCircuit → Option (LeaderSlot × Stage .finalCircuit)
  | .called => some (s.takeOut m.id .finalising)
  | .finalising p => some <| match p.checker.finalShare m.corShares m.key with
    | .error e => (s, .releasing p.checker (.error (.checker e)))
    | .ok (share, checker) => (s, .finalised { p with checker } share)
  | .finalised p share => some (s.putBack m.id p share)
  | stage => s.finish stage

def stepAccept (m : Accept) : Stage .accept → Option (LeaderSlot × Stage .accept)
  | .called => some (s.takeOut m.id .deciding)
  | .deciding p =>
    some (s, .releasing p.checker ((p.checker.verdict m.outShares).mapError .checker))
  | stage => s.finish stage

def stepChangePoint (pointAt : Nat → EvaluationPoint) (m : ChangePoint) :
    Stage .changePoint → Option (LeaderSlot × Stage .changePoint)
  | .called => some (s, .computed (pointAt m.x))
  | .computed point => some <| match s.points.rotate m.epoch point with
    | .error current => (s, .answered (.error (.staleEpoch m.leader m.epoch current)))
    | .ok points => ({ s with points }, .answered (.ok ()))
  | stage => s.finish stage

def stepAbort (m : Abort) : Stage .abort → Option (LeaderSlot × Stage .abort)
  | .called => some <| match s.pending.find? m.id with
    | none => (s, .answered (.ok ()))
    | some p => ({ s with pending := s.pending.erase m.id }, .releasing p.checker (.ok ()))
  | stage => s.finish stage

end LeaderSlot

/-- A call that a server is answering. -/
structure Operation (c : Call) where
  message : c.Message
  stage : Stage c

namespace Operation

def start {c : Call} (message : c.Message) : Operation c := { message, stage := .called }

def leader {c : Call} (op : Operation c) : UInt64 := c.leader op.message

end Operation

namespace Server

/-- One step on the slot of the message's leader. -/
def stepSlot (s : Server) (slot : LeaderSlot) :
    {c : Call} → c.Message → Stage c → Option (LeaderSlot × Stage c)
  | .newRequest, m, stage => slot.stepNewRequest m stage
  | .evalCircuit, m, stage => slot.stepEvalCircuit m stage
  | .finalCircuit, m, stage => slot.stepFinalCircuit m stage
  | .accept, m, stage => slot.stepAccept m stage
  | .changePoint, m, stage => slot.stepChangePoint (.ofPoint s.field s.domain) m stage
  | .abort, m, stage => slot.stepAbort m stage

/-- One step of an operation; none when it has answered, or waits for a permit. -/
def step (s : Server) {c : Call} (op : Operation c) : Option (Server × Operation c) :=
  let leader := op.leader.toNat
  match s.slots[leader]?, op.stage with
  | some slot, stage => do
    let (slot, stage) ← s.stepSlot slot op.message stage
    return ({ s with slots := s.slots.set leader slot }, { op with stage })
  | none, .called =>
    let e := ServerError.leaderOutOfRange leader s.slots.length
    return (s, { op with stage := .answered (.error e) })
  | none, _ => none

end Server

end PrivateSums
