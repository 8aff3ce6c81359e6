/-!
What can go wrong when values are shared or shares are replayed.
-/

namespace PrivateSums

inductive ShareError
  | noServers
  | serverOutOfRange (index servers : Nat)
  /-- Only the leader is sent deltas. -/
  | unexpectedDeltas (server count : Nat)
  | nonCanonicalDelta (index : Nat)
  | exhausted (position : Nat)
  | positionMismatch (expected found : Nat)
  deriving DecidableEq, Repr

def ShareError.message : ShareError → String
  | .noServers => "At least one server is required"
  | .serverOutOfRange index servers =>
      s!"Server index {index} is out of range for {servers} servers"
  | .unexpectedDeltas server count =>
      s!"Server {server} is not the leader but received {count} deltas"
  | .nonCanonicalDelta index => s!"Delta {index} is not a canonical field element"
  | .exhausted position => s!"Replay stream exhausted after {position} values"
  | .positionMismatch expected found =>
      s!"Replay stream consumed {found} values, expected {expected}"

end PrivateSums
