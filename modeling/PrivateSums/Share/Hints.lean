import PrivateSums.Random.ElementStream
import PrivateSums.Share.Error

/-!
Compressed sharing. Each server gets a key, whose stream is its shares; the leader also gets, per
value, the delta between the value and the sum of all streams. `Splitter` is the client's side,
`Replay` a server's.
-/

namespace PrivateSums

/-- One server's shares, compressed. The list is empty for every server but the leader. -/
structure Hints where
  key : Key
  deltas : List Nat
  deriving DecidableEq

/-- One element of each server's stream, turned into shares of `value`: the leader's share takes
up the delta, which is answered first. -/
def splitValue (F : Field) (leader value : Nat) (draws : List Nat) : Nat × List Nat :=
  let delta := F.sub value (F.sum draws)
  (delta, draws.modify leader (F.add · delta))

/-- The client's side of a sharing: a stream per server, and the deltas so far. -/
structure Splitter where
  leader : Nat
  streams : List ElementStream
  deltas : Array Nat

namespace Splitter

variable {σ : Type} [WordSource σ]

/-- `n` keys in order. -/
def keys : Nat → StateM σ (List Key)
  | 0 => return []
  | n + 1 => do
    let first ← Random.key
    let rest ← keys n
    return first :: rest

/-- A sharing of nothing yet, under fresh keys. -/
def start (servers leader : Nat) : ExceptT ShareError (StateM σ) Splitter := do
  if servers = 0 then throw .noServers
  if servers ≤ leader then throw (.serverOutOfRange leader servers)
  let keys ← (keys servers : StateM σ (List Key))
  return { leader, streams := keys.map .ofKey, deltas := #[] }

def servers (s : Splitter) : Nat := s.streams.length

/-- Shares one value, drawing one element from every stream. -/
def share (F : Field) (value : Nat) : StateM Splitter (List Nat) := fun s =>
  let drawn := s.streams.map fun stream => (ElementStream.next F).run stream
  let (delta, shares) := splitValue F s.leader value (drawn.map (·.1))
  (shares, { s with streams := drawn.map (·.2), deltas := s.deltas.push delta })

/-- Shares values in order. -/
def shareAll (F : Field) : (values : List Nat) → StateM Splitter Unit
  | [] => return
  | value :: values => do
    let _ ← share F value
    shareAll F values

/-- What `server` needs to replay its shares. -/
def hints (s : Splitter) (server : Nat) : Except ShareError Hints :=
  match s.streams[server]? with
  | none => .error (.serverOutOfRange server s.servers)
  | some stream =>
    .ok { key := stream.key, deltas := if server = s.leader then s.deltas.toList else [] }

end Splitter

/-- A server's side of a sharing, read up to the stream's position. -/
structure Replay where
  server : Nat
  leader : Nat
  stream : ElementStream
  deltas : Array Nat

namespace Replay

/-- The replay of what a server was sent. Only the leader may hold deltas, and all of them must be
canonical. -/
def ofHints (F : Field) (server leader : Nat) (hints : Hints) : Except ShareError Replay := do
  if server ≠ leader ∧ hints.deltas ≠ [] then
    throw (.unexpectedDeltas server hints.deltas.length)
  if let some index := hints.deltas.findIdx? (!F.contains ·) then
    throw (.nonCanonicalDelta index)
  return { server, leader, stream := .ofKey hints.key, deltas := hints.deltas.toArray }

def isLeader (r : Replay) : Bool := r.server == r.leader

/-- The number of values read so far. -/
def position (r : Replay) : Nat := r.stream.position

/-- The share of the next value. A leader without a delta for it leaves its stream alone. -/
def get (F : Field) : ExceptT ShareError (StateM Replay) Nat := fun r =>
  let draw (correct : Nat → Nat) :=
    let (element, stream) := (ElementStream.next F).run r.stream
    (.ok (correct element), { r with stream })
  if r.isLeader then
    match r.deltas[r.position]? with
    | none => (.error (.exhausted r.position), r)
    | some delta => draw (F.add · delta)
  else draw id

/-- The shares of the next `n` values. -/
def take (F : Field) : (n : Nat) → ExceptT ShareError (StateM Replay) (List Nat)
  | 0 => return []
  | n + 1 => do
    let first ← get F
    let rest ← take F n
    return first :: rest

/-- Confirms that exactly `expected` values were read and, on the leader, that no delta is left. -/
def finish (r : Replay) (expected : Nat) : Except ShareError Unit := do
  unless r.position = expected do throw (.positionMismatch expected r.position)
  if r.isLeader ∧ r.deltas.size ≠ expected then
    throw (.positionMismatch r.deltas.size r.position)

end Replay

end PrivateSums
