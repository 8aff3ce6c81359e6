import PrivateSums.Check.Checker

/-!
The messages of a deployment: what a coordinator asks of a server, and what servers answer.
-/

namespace PrivateSums

/-- The public identifier that a client attaches to a submission. Identifiers of different leaders
are unrelated. -/
abbrev RequestId := UInt64

/-- Hands a server its share of a request, to be checked at the point of an epoch. -/
structure NewRequest where
  id : RequestId
  leader : UInt64
  epoch : UInt64
  request : ClientRequest
  deriving DecidableEq

/-- Asks for a server's share of the first round. -/
structure EvalCircuit where
  id : RequestId
  leader : UInt64
  deriving DecidableEq

/-- Asks for a server's share of the second round, given all shares of the first. -/
structure FinalCircuit where
  id : RequestId
  leader : UInt64
  corShares : List CorShare
  key : Key
  deriving DecidableEq

/-- Asks for a server's verdict, given all shares of the second round. -/
structure Accept where
  id : RequestId
  leader : UInt64
  outShares : List OutShare
  deriving DecidableEq

/-- A verdict, with the server's shares of the outputs if it is favourable. -/
structure AcceptReply where
  accepted : Bool
  outputShares : Option (List Nat)
  deriving DecidableEq, Repr

/-- Announces the evaluation point of an epoch. -/
structure ChangePoint where
  leader : UInt64
  epoch : UInt64
  x : Nat
  deriving DecidableEq

/-- Withdraws a request. -/
structure Abort where
  id : RequestId
  leader : UInt64
  deriving DecidableEq

end PrivateSums
