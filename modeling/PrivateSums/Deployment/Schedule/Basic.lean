import PrivateSums.Deployment.Submission

/-!
Submissions that run at the same time, step by step. Their steps may come in any order; what moves
there are, and how much is left after one, is said here.
-/

namespace PrivateSums

/-- The step of a submission that is taken: its own, or that of one of the calls it waits for. -/
inductive Move
  | proceed
  | call (i : Nat)

/-- Whether the next step is a computation, which is done apart while other operations go on. -/
def Stage.computes {c : Call} : Stage c → Bool
  | called => c == .changePoint
  | loading .. => true
  | evaluating _ => true
  | finalising _ => true
  | _ => false

namespace PeerCall

variable {c : Call}

/-- A bound on the steps that are left to some calls. -/
def totalRemaining : List (PeerCall c) → Nat
  | [] => 0
  | call :: calls => call.remaining + totalRemaining calls

/-- Whether the `i`th of some calls waits for a computation. -/
def computesAt (calls : List (PeerCall c)) (i : Nat) : Bool :=
  calls[i]?.any (·.operation.stage.computes)

end PeerCall

namespace Progress

/-- One step of the `i`th call of a broadcast. -/
def stepCall (servers : List Server) (i : Nat) : Progress → Option (List Server × Progress)
  | rotating epoch calls => do
    let (servers, calls) ← PeerCall.stepAt servers calls i
    return (servers, rotating epoch calls)
  | admitting calls => do
    let (servers, calls) ← PeerCall.stepAt servers calls i
    return (servers, admitting calls)
  | evaluating calls => do
    let (servers, calls) ← PeerCall.stepAt servers calls i
    return (servers, evaluating calls)
  | finalising calls => do
    let (servers, calls) ← PeerCall.stepAt servers calls i
    return (servers, finalising calls)
  | accepting calls => do
    let (servers, calls) ← PeerCall.stepAt servers calls i
    return (servers, accepting calls)
  | aborting e calls => do
    let (servers, calls) ← PeerCall.stepAt servers calls i
    return (servers, aborting e calls)
  | _ => none

/-- Whether the `i`th call of a broadcast waits for a computation. -/
def computesAt (i : Nat) : Progress → Bool
  | rotating _ calls => PeerCall.computesAt calls i
  | admitting calls => PeerCall.computesAt calls i
  | evaluating calls => PeerCall.computesAt calls i
  | finalising calls => PeerCall.computesAt calls i
  | _ => false

/-- The number of stages that may still follow. -/
def rank : Progress → Nat
  | arrived => 12
  | queued => 11
  | entered => 10
  | choosing => 9
  | draining _ => 8
  | rotating .. => 7
  | admitting _ => 6
  | evaluating _ => 5
  | finalising _ => 4
  | accepting _ => 3
  | aborting .. => 2
  | leaving _ => 1
  | returned _ => 0

/-- The steps that are left to the calls under way. -/
def pendingSteps : Progress → Nat
  | rotating _ calls => PeerCall.totalRemaining calls
  | admitting calls => PeerCall.totalRemaining calls
  | evaluating calls => PeerCall.totalRemaining calls
  | finalising calls => PeerCall.totalRemaining calls
  | accepting calls => PeerCall.totalRemaining calls
  | aborting _ calls => PeerCall.totalRemaining calls
  | _ => 0

/-- A bound on the steps that are left, given the number of servers. -/
def effort (servers : Nat) (p : Progress) : Nat := p.rank * (8 * servers + 1) + p.pendingSteps

end Progress

namespace Deployment

variable {σ : Type} [WordSource σ]

def step (d : Deployment σ) (s : Submission) : Move → Option (Deployment σ × Submission)
  | .proceed => do
    let (d, progress) ← s.proceed d
    return (d, { s with progress })
  | .call i => do
    let (servers, progress) ← s.progress.stepCall d.servers i
    return ({ d with servers }, { s with progress })

end Deployment

end PrivateSums
