import PrivateSums.Deployment.CheckerPool
import PrivateSums.Deployment.EvaluationPoints

/-!
What one server of a deployment keeps. Requests are kept by leader: each leader has its own
checkers, its own pending requests and its own evaluation points.
-/

namespace PrivateSums

/-- A request under check, at the evaluation point it was admitted under. -/
structure Pending where
  checker : Checker
  point : EvaluationPoint

/-- The requests under check, each under its own identifier. -/
abbrev PendingRequests := List (RequestId × Pending)

namespace PendingRequests

def find? (requests : PendingRequests) (id : RequestId) : Option Pending := requests.lookup id

def erase (requests : PendingRequests) (id : RequestId) : PendingRequests :=
  requests.filter (·.1 != id)

/-- Puts a request under an identifier, in place of any that is there. -/
def insert (requests : PendingRequests) (id : RequestId) (p : Pending) : PendingRequests :=
  (id, p) :: requests.erase id

end PendingRequests

structure LeaderSlot where
  pool : CheckerPool
  pending : PendingRequests
  points : EvaluationPoints

structure Server where
  index : Nat
  field : Field
  domain : CircuitDomain
  /-- One slot per leader. -/
  slots : List LeaderSlot

namespace LeaderSlot

/-- No request, no evaluation point, and this many checkers. -/
def fresh (F : Field) (c : Circuit) (server leader servers capacity : Nat) : LeaderSlot where
  pool := .ofCheckers leader (List.replicate capacity (.new F c server leader servers))
  pending := []
  points := .empty

end LeaderSlot

namespace Server

/-- A server among `servers`, with `capacity` checkers per leader. -/
def start (F : Field) (c : Circuit) (servers capacity index : Nat) : Except ServerError Server := do
  unless index < servers do throw (.leaderOutOfRange index servers)
  let domain ← (CircuitDomain.ofCircuit F c).mapError .checker
  let slots := (List.range servers).map fun leader => .fresh F c index leader servers capacity
  return { index, field := F, domain, slots }

def slot (s : Server) (leader : Nat) : Except ServerError LeaderSlot :=
  match s.slots[leader]? with
  | some slot => .ok slot
  | none => .error (.leaderOutOfRange leader s.slots.length)

/-- The number of checkers that are free for requests under a leader. -/
def available (s : Server) (leader : Nat) : Except ServerError Nat := do
  return (← s.slot leader).pool.available

/-- The number of requests under check under a leader. -/
def pendingCount (s : Server) (leader : Nat) : Except ServerError Nat := do
  return (← s.slot leader).pending.length

end Server

end PrivateSums
