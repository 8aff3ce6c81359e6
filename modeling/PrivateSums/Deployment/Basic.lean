import PrivateSums.Deployment.Network

/-!
A deployment: the servers, and the coordinator through which submissions reach them. The
coordinator keeps a lane per leader. A lane limits the submissions in flight, says under which epoch
the next one is admitted, and keeps a rotation of the evaluation point apart from admissions.
-/

namespace PrivateSums

structure Lane where
  /-- The epoch of the point that all servers have. -/
  epoch : Option UInt64
  /-- The submissions that were given this epoch. -/
  given : Nat
  /-- Whether a submission is being given its epoch. One at a time is. -/
  giving : Bool
  /-- The admissions under way, during which no rotation starts. -/
  admissions : Nat
  /-- The submissions that may still enter. -/
  permits : Nat

namespace Lane

def fresh (capacity : Nat) : Lane :=
  { epoch := none, given := 0, giving := false, admissions := 0, permits := capacity }

def enter? (l : Lane) : Option Lane :=
  match l.permits with
  | 0 => none
  | permits + 1 => some { l with permits }

def leave (l : Lane) : Lane := { l with permits := l.permits + 1 }

def startGiving? (l : Lane) : Option Lane :=
  if l.giving then none else some { l with giving := true }

def stopGiving (l : Lane) : Lane := { l with giving := false }

/-- The epoch that is next, when the point has served `rotation` submissions or there is none. -/
def dueEpoch? (l : Lane) (rotation : Nat) : Option UInt64 :=
  match l.epoch with
  | none => some 0
  | some epoch => if rotation ≤ l.given then some (epoch + 1) else none

def rotated (l : Lane) (epoch : UInt64) : Lane := { l with epoch := some epoch, given := 0 }

/-- Gives out the epoch, and starts the admission under it. -/
def give (l : Lane) : Lane :=
  { l with given := l.given + 1, giving := false, admissions := l.admissions + 1 }

def endAdmission (l : Lane) : Lane := { l with admissions := l.admissions - 1 }

end Lane

structure Deployment (σ : Type) where
  field : Field
  /-- The number of interpolation points, which evaluation points keep clear of. -/
  size : Nat
  /-- The number of submissions per epoch. -/
  rotation : Nat
  servers : List Server
  /-- One lane per leader. -/
  lanes : List Lane
  source : σ
  /-- All calls made, the latest first. -/
  records : List CallRecord

namespace Deployment

variable {σ : Type}

/-- As many servers, each with `capacity` checkers per leader, and a coordinator that lets as many
submissions per leader in. -/
def start (F : Field) (c : Circuit) (servers capacity rotation : Nat) (source : σ) :
    Except ServerError (Deployment σ) := do
  return {
    field := F
    size := c.domainSize
    rotation := max rotation 1
    servers := ← (List.range servers).mapM (Server.start F c servers capacity)
    lanes := List.replicate servers (.fresh capacity)
    source
    records := [] }

def lane? (d : Deployment σ) (leader : UInt64) : Option Lane := d.lanes[leader.toNat]?

def setLane (d : Deployment σ) (leader : UInt64) (l : Lane) : Deployment σ :=
  { d with lanes := d.lanes.set leader.toNat l }

def onLane (d : Deployment σ) (leader : UInt64) (f : Lane → Lane) : Deployment σ :=
  { d with lanes := d.lanes.modify leader.toNat f }

/-- Draws from the coordinator's own source. -/
def draw {α : Type} (d : Deployment σ) (random : StateM σ α) : α × Deployment σ :=
  let (a, source) := random.run d.source
  (a, { d with source })

/-- Starts a call to each of some peers, in order. -/
def broadcast (d : Deployment σ) (network : Network) {c : Call}
    (messages : List (Nat × c.Message)) : Deployment σ × List (PeerCall c) :=
  let calls := messages.map fun (peer, message) => PeerCall.start network peer message
  ({ d with records := (calls.map PeerCall.record).reverse ++ d.records }, calls)

/-- Starts the same call to all peers. -/
def broadcastAll (d : Deployment σ) (network : Network) {c : Call} (message : c.Message) :
    Deployment σ × List (PeerCall c) :=
  d.broadcast network ((List.range d.servers.length).map (·, message))

end Deployment

end PrivateSums
