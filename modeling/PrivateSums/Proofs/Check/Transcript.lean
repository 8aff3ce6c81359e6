import PrivateSums.Proofs.Check.Client

/-!
All that a run of the check shows, when the servers' streams draw arbitrary elements. A run on the
requests of a client is the one whose draws come from its keys.
-/

namespace PrivateSums

/-- What every server sees of the client's values, and what all of them send to one another. -/
structure Transcript where
  seen : List Seen
  corShares : List CorShare
  outShares : List OutShare

namespace Tape

section

variable (F : Field) (c : Circuit) (leader : Nat) (point : EvaluationPoint)
  (coefficients : List Nat)

/-- Both rounds, on the servers that see these shares. -/
def check (seen : List Seen) : Except CheckerError Transcript := do
  let ps := seen.map (Seen.party F c leader)
  let (corShares, answers) ← Checker.rounds (ps.map (Party.checker F c leader ps.length)) point
    fun k cor => k.outShareWith cor coefficients
  return { seen, corShares, outShares := answers.map (·.1) }

/-- An honest run on inputs, under the tapes. -/
def run (inputs : List Nat) (randomLeft randomRight : Nat) (tapes : List Tape) :
    Except CheckerError Transcript := do
  let wires ← (c.evaluate F inputs).mapError .circuit
  let shared ← (ClientRequest.values F c wires randomLeft randomRight).mapError .polynomial
  check F c leader point coefficients (seen F leader tapes shared)

end

variable {F : Field} {c : Circuit} {d : CircuitDomain} {k leader : Nat}

/-- A run is never refused. -/
theorem check_eq_ok (hd : d.Valid F k) (size : c.domainSize = 2 ^ k) {seen : List Seen}
    (complete : ∀ v ∈ seen, (v.party F c leader).holding.Complete c) (x : Nat)
    (coefficients : List Nat) :
    check F c leader (.ofPoint F d x) coefficients seen = .ok {
      seen
      corShares := (seen.map (Seen.party F c leader)).map (Party.corShare F c (.ofPoint F d x))
      outShares := (seen.map (Seen.party F c leader)).map (Party.outShare F c leader
        (.ofPoint F d x) (seen.map (Seen.party F c leader)) coefficients) } := by
  have complete : ∀ p ∈ seen.map (Seen.party F c leader), p.holding.Complete c := by
    intro p hp
    obtain ⟨v, hv, rfl⟩ := List.mem_map.1 hp
    exact complete v hv
  rw [check, Party.outShares_eq hd size complete, Answer.ok_bind]
  dsimp only
  rw [List.map_map (g := Prod.fst)]
  rfl

variable [Fact F.modulus.Prime]

/-- The run on an honest client's requests is the one under the draws of its keys. -/
theorem run_of_ofInputs {σ : Type} [WordSource σ] (wf : c.WellFormed) {inputs : List Nat}
    {servers : Nat} {s s' : σ} {requests : List ClientRequest}
    (sent : (ClientRequest.ofInputs F c inputs servers leader).run.run s = (.ok requests, s')) :
    ∃ randomLeft randomRight domain checkers,
      Valid F (requests.map (ClientRequest.tape F)) ∧
        CircuitDomain.ofCircuit F c = .ok domain ∧
        Checker.admitAll F c leader requests = .ok checkers ∧
        ∀ (x : Nat) (coefficients : List Nat),
          run F c leader (.ofPoint F domain x) coefficients inputs randomLeft randomRight
              (requests.map (ClientRequest.tape F)) = do
            let (corShares, answers) ← Checker.rounds checkers (.ofPoint F domain x)
              fun k cor => k.outShareWith cor coefficients
            return {
              seen := ClientRequest.seen F c leader requests
              corShares
              outShares := answers.map (·.1) } := by
  obtain ⟨wires, randomLeft, randomRight, shared, evaluated, ok, length, hl, valid, admissible,
    seen⟩ := ClientRequest.of_ofInputs wf (congrArg Prod.fst sent)
  obtain ⟨domain, k, domainOk, -, -⟩ :=
    CircuitDomain.ofCircuit_eq_ok (ClientRequest.order_of_values ok)
  refine ⟨randomLeft, randomRight, domain, _, valid, domainOk,
    ClientRequest.admitAll_eq_ok_iff.2 ⟨admissible, rfl⟩, fun x coefficients => ?_⟩
  have count := ClientRequest.length_parties F c leader requests
  rw [run, evaluated, Answer.mapError_ok, Answer.ok_bind, ok, Answer.mapError_ok, Answer.ok_bind,
    ← seen, check, ← ClientRequest.parties_eq_map_seen, count]

end Tape

end PrivateSums
