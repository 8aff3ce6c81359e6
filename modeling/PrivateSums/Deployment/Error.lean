import PrivateSums.Deployment.Message

/-!
What can go wrong between a coordinator and its servers.
-/

namespace PrivateSums

inductive ServerError
  | unknownRequest (id : RequestId)
  | duplicateRequest (id : RequestId)
  | leaderOutOfRange (leader servers : Nat)
  | unknownEpoch (leader epoch : UInt64)
  | staleEpoch (leader epoch current : UInt64)
  | disagreement (id : RequestId)
  | checker (cause : CheckerError)
  /-- A pool granted a checker and had none. -/
  | poolClosed (leader : Nat)
  /-- A task that was given away did not come back. -/
  | compute (task : String)
  deriving DecidableEq, Repr

def ServerError.message : ServerError → String
  | .unknownRequest id => s!"Request {id} is not pending"
  | .duplicateRequest id => s!"Request {id} is already pending"
  | .leaderOutOfRange leader servers => s!"Leader {leader} is out of range for {servers} servers"
  | .unknownEpoch leader epoch => s!"Leader {leader} has no evaluation point for epoch {epoch}"
  | .staleEpoch leader epoch current =>
      s!"Epoch {epoch} is not newer than the current epoch {current} for leader {leader}"
  | .disagreement id => s!"Servers disagree on the verdict for request {id}"
  | .checker cause => cause.message
  | .poolClosed leader => s!"Checker pool for leader {leader} is closed"
  | .compute task => s!"Compute task '{task}' did not complete"

end PrivateSums
