import PrivateSums.Deployment.Basic

/-!
The way of one submission through a deployment: it enters its leader's lane, is given an epoch, is
admitted by all servers, and goes through both rounds of the check to a verdict. Every round is
broadcast, and ends when all answers are there. A failure withdraws the request from the servers.
-/

namespace PrivateSums

structure Verdict where
  accepted : Bool
  /-- Every server's shares of the outputs, in server order; none when rejected. -/
  outputShares : List (List Nat)
  deriving DecidableEq, Repr

namespace Verdict

/-- The verdict on which all servers agree. -/
def ofReplies (id : RequestId) (replies : List AcceptReply) : Except ServerError Verdict :=
  let accepted := replies.all (·.accepted)
  if replies.all (·.accepted == accepted) then
    .ok { accepted, outputShares := replies.filterMap (·.outputShares) }
  else .error (.disagreement id)

/-- Adds the output shares of all servers to running totals, output by output. -/
def addTo (F : Field) (totals : List Nat) (v : Verdict) : List Nat :=
  v.outputShares.foldl (List.zipWith F.add) totals

end Verdict

/-- How far a submission is, and the calls it waits for. -/
inductive Progress
  | arrived
  /-- Waits to enter the lane. -/
  | queued
  /-- Waits for the submission that is being given its epoch. -/
  | entered
  | choosing
  /-- Waits for the admissions under way, to rotate to this epoch. -/
  | draining (epoch : UInt64)
  | rotating (epoch : UInt64) (calls : List (PeerCall .changePoint))
  | admitting (calls : List (PeerCall .newRequest))
  | evaluating (calls : List (PeerCall .evalCircuit))
  | finalising (calls : List (PeerCall .finalCircuit))
  | accepting (calls : List (PeerCall .accept))
  | aborting (error : ServerError) (calls : List (PeerCall .abort))
  | leaving (result : Except ServerError Verdict)
  | returned (result : Except ServerError Verdict)

structure Submission where
  id : RequestId
  leader : UInt64
  /-- One request per server, in server order. -/
  requests : List ClientRequest
  network : Network
  progress : Progress

namespace Submission

def start (network : Network) (id : RequestId) (leader : UInt64) (requests : List ClientRequest) :
    Submission :=
  { id, leader, requests, network, progress := .arrived }

def result? (s : Submission) : Option (Except ServerError Verdict) :=
  match s.progress with
  | .returned result => some result
  | _ => none

/-- Whether there is such a leader and a request for every server. -/
def examine (s : Submission) (servers : Nat) : Except ServerError Unit := do
  unless s.leader.toNat < servers do throw (.leaderOutOfRange s.leader.toNat servers)
  unless s.requests.length = servers do
    throw (.checker (.wrongShareCount servers s.requests.length))

variable {σ : Type} [WordSource σ] (d : Deployment σ) (s : Submission)

/-- Gives the lane's epoch to the submission, and hands every server its request. -/
def handOut (l : Lane) (epoch : UInt64) : Deployment σ × Progress :=
  let message (request : ClientRequest) : NewRequest :=
    { id := s.id, leader := s.leader, epoch, request }
  let peers := List.range d.servers.length
  let (d, calls) := (d.setLane s.leader l.give).broadcast s.network (c := .newRequest)
    (peers.zip (s.requests.map message))
  (d, .admitting calls)

/-- Draws the point of an epoch and announces it. -/
def rotate (epoch : UInt64) : Deployment σ × Progress :=
  let (x, d) := d.draw (EvaluationPoint.randomArgument d.field d.size)
  let (d, calls) := d.broadcastAll s.network (c := .changePoint) { leader := s.leader, epoch, x }
  (d, .rotating epoch calls)

/-- Withdraws the request from some of the servers. -/
def withdraw (peers : List Nat) (error : ServerError) : Deployment σ × Progress :=
  let message : Abort := { id := s.id, leader := s.leader }
  let (d, calls) := d.broadcast s.network (c := .abort) (peers.map (·, message))
  (d, .aborting error calls)

def withdrawAll (error : ServerError) : Deployment σ × Progress :=
  s.withdraw d (List.range d.servers.length) error

/-- Goes on once the point of an epoch is announced. -/
def afterRotation (l : Lane) (epoch : UInt64) (answers : List (Except ServerError Unit)) :
    Deployment σ × Progress :=
  match allReplies answers with
  | .error e => (d.setLane s.leader l.stopGiving, .leaving (.error e))
  | .ok _ => s.handOut d (l.rotated epoch) epoch

/-- Goes on once all servers took the request or refused it. A refusal withdraws it from those that
took it, and from no other: there the identifier may be another request's. -/
def afterAdmission (answers : List (Except ServerError Unit)) : Deployment σ × Progress :=
  let d := d.onLane s.leader Lane.endAdmission
  match allReplies answers with
  | .error e =>
    let took (peer : Nat) : Bool := answers[peer]?.any (·.isOk)
    s.withdraw d ((List.range d.servers.length).filter took) e
  | .ok _ =>
    let (d, calls) := d.broadcastAll s.network (c := .evalCircuit)
      { id := s.id, leader := s.leader }
    (d, .evaluating calls)

/-- Goes on once the first round is over, with a fresh key for the second. -/
def afterEvaluation (answers : List (Except ServerError CorShare)) : Deployment σ × Progress :=
  match allReplies answers with
  | .error e => s.withdrawAll d e
  | .ok corShares =>
    let (key, d) := d.draw Random.key
    let (d, calls) := d.broadcastAll s.network (c := .finalCircuit)
      { id := s.id, leader := s.leader, corShares, key }
    (d, .finalising calls)

def afterFinal (answers : List (Except ServerError OutShare)) : Deployment σ × Progress :=
  match allReplies answers with
  | .error e => s.withdrawAll d e
  | .ok outShares =>
    let (d, calls) := d.broadcastAll s.network (c := .accept)
      { id := s.id, leader := s.leader, outShares }
    (d, .accepting calls)

def afterAccept (answers : List (Except ServerError AcceptReply)) : Deployment σ × Progress :=
  match allReplies answers >>= Verdict.ofReplies s.id with
  | .error e => s.withdrawAll d e
  | .ok verdict => (d, .leaving (.ok verdict))

/-- The next step of the submission itself; none while it waits or when it has returned. -/
def proceed : Option (Deployment σ × Progress) :=
  match s.progress with
  | .arrived => some <| match s.examine d.servers.length with
    | .error e => (d, .returned (.error e))
    | .ok () => (d, .queued)
  | .queued => do
    let l ← (← d.lane? s.leader).enter?
    return (d.setLane s.leader l, .entered)
  | .entered => do
    let l ← (← d.lane? s.leader).startGiving?
    return (d.setLane s.leader l, .choosing)
  | .choosing => do
    let l ← d.lane? s.leader
    match l.dueEpoch? d.rotation with
    | some epoch => return (d, .draining epoch)
    | none => return s.handOut d l (← l.epoch)
  | .draining epoch => do
    guard ((← d.lane? s.leader).admissions = 0)
    return s.rotate d epoch
  | .rotating epoch calls => do
    return s.afterRotation d (← d.lane? s.leader) epoch (← PeerCall.answers? calls)
  | .admitting calls => do return s.afterAdmission d (← PeerCall.answers? calls)
  | .evaluating calls => do return s.afterEvaluation d (← PeerCall.answers? calls)
  | .finalising calls => do return s.afterFinal d (← PeerCall.answers? calls)
  | .accepting calls => do return s.afterAccept d (← PeerCall.answers? calls)
  | .aborting e calls => do
    let _ ← PeerCall.answers? calls
    return (d, .leaving (.error e))
  | .leaving result => some (d.onLane s.leader Lane.leave, .returned result)
  | .returned _ => none

end Submission

end PrivateSums
