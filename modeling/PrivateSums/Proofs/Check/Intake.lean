import PrivateSums.Proofs.Check.Completeness
import PrivateSums.Proofs.Check.Protocol

/-!
Which requests an idle checker takes in. What is asked of a request is just what its replay needs,
so nothing that a client sends leads to a replay that fails half way.
-/

namespace PrivateSums.Checker

/-- A request that is well formed for a checker: its triple is of field elements, and it has a delta
for every shared value if the checker is the leader's, and none otherwise. -/
def Accepts (k : Checker) (request : ClientRequest) : Prop :=
  (request.triple.a < k.field.modulus ∧ request.triple.b < k.field.modulus ∧
    request.triple.c < k.field.modulus) ∧
  ((k.server = k.leader ∧ request.hints.deltas.length = k.circuit.numSharedValues ∧
      ∀ d ∈ request.hints.deltas, d < k.field.modulus) ∨
    (k.server ≠ k.leader ∧ request.hints.deltas = []))

instance (k : Checker) (request : ClientRequest) : Decidable (k.Accepts request) :=
  inferInstanceAs (Decidable (_ ∧ _))

variable {k : Checker} {request : ClientRequest}

theorem accepts_iff :
    k.Accepts request ↔ request.Admissible k.field k.circuit k.leader k.server := by
  rw [Accepts, ← TripleShare.isCanonical_iff]
  constructor
  · rintro ⟨canonical, ⟨leader, count, lt⟩ | ⟨other, none⟩⟩
    · exact ⟨canonical, fun _ => count, fun ne => absurd leader ne, lt⟩
    · exact ⟨canonical, fun eq => absurd eq other, fun _ => none, by simp [none]⟩
  · rintro ⟨canonical, count, none, lt⟩
    refine ⟨canonical, ?_⟩
    by_cases leader : k.server = k.leader
    · exact .inl ⟨leader, count leader, lt⟩
    · exact .inr ⟨leader, none leader⟩

/-- What a leader's shares are: the draws of its stream, each with the delta of its number. -/
def leaderShares (k : Checker) (request : ClientRequest) : List Nat :=
  List.zipWith k.field.add
    ((ElementStream.take k.field k.circuit.numSharedValues).run (.ofKey request.hints.key)).1
    request.hints.deltas

theorem shares_leader (leader : k.server = k.leader)
    (count : request.hints.deltas.length = k.circuit.numSharedValues) :
    request.shares k.field k.circuit k.leader k.server = k.leaderShares request := by
  rw [ClientRequest.shares, leaderShares, ElementStream.take_run]
  apply List.ext_getElem
  · simp [count]
  intro i hi hi'
  have bound : i < request.hints.deltas.length := by
    rw [count]
    simpa using hi
  rw [List.getElem_map, List.getElem_range, Replay.share_fresh, if_pos leader,
    List.getElem_zipWith, List.getElem_map, List.getElem_range, List.getD_eq_getElem _ _ bound]

/-- An idle checker grants a request that is well formed, and refuses all others as malformed. -/
theorem attempt_setRequest (idle : k.state = .idle) (request : ClientRequest) :
    (∃ k', k.Accepts request ∧ k.attempt (.setRequest request) = .ok (.done, k') ∧
        k'.phase = .holding (request.party k.field k.circuit k.leader k.server).holding) ∨
      ∃ cause, ¬k.Accepts request ∧
        k.attempt (.setRequest request) = .error (.malformedRequest cause) := by
  have phase : k.phase = .idle := by
    cases phase : k.phase with
    | idle => rfl
    | _ => simp [state, phase, Phase.state] at idle
  rw [accepts_iff, attempt]
  cases admitted : k.setRequest request with
  | ok k' =>
    rw [eq_new_of_idle phase] at admitted
    obtain ⟨admissible, rfl⟩ := ClientRequest.setRequest_eq_ok_iff.1 admitted
    exact .inl ⟨_, admissible, rfl, rfl⟩
  | error e =>
    rw [eq_new_of_idle phase] at admitted
    obtain ⟨cause, rfl⟩ := ClientRequest.of_setRequest_eq_error admitted
    refine .inr ⟨cause, fun admissible => ?_, rfl⟩
    rw [ClientRequest.setRequest_eq_ok_iff.2 ⟨admissible, rfl⟩] at admitted
    cases admitted

/-- An idle checker takes in just the well formed requests. Any other is malformed, and changes
nothing. Once the checks are passed the replay is read to its end: the wires, three random values,
a hint for every other point, and the confirmation that nothing is left. The leader so adds each of
its deltas to one draw. -/
theorem setRequest_exact (idle : k.state = .idle) (request : ClientRequest) :
    ((k.registers.perform (.setRequest request)).1 = .ok .done ↔ k.Accepts request) ∧
    (¬k.Accepts request → ∃ cause, k.registers.perform (.setRequest request) =
      (.error (.malformedRequest cause), k.registers)) ∧
    (∀ replay, Replay.ofHints k.field k.server k.leader request.hints = .ok replay →
      (k.server = k.leader → request.hints.deltas.length = k.circuit.numSharedValues) →
      ∃ holding replay', (Holding.read k.field k.circuit request.triple).run.run replay =
          (.ok holding, replay') ∧
        replay'.position = k.circuit.numSharedValues ∧
        (k.server = k.leader → replay'.position = request.hints.deltas.length ∧ holding =
          .ofShares k.field k.circuit true request.triple (k.leaderShares request)) ∧
        (k.Accepts request →
          (k.registers.perform (.setRequest request)).2.request? = some holding)) := by
  rw [perform_registers, perform]
  refine ⟨?_, ?_, ?_⟩
  case refine_1 =>
    obtain ⟨k', accepts, attempted, -⟩ | ⟨cause, refused, attempted⟩ :=
      attempt_setRequest idle request
    · simp [attempted, accepts]
    · simp [attempted, refused]
  case refine_2 =>
    intro refused
    obtain ⟨k', accepts, -⟩ | ⟨cause, -, attempted⟩ := attempt_setRequest idle request
    · exact absurd accepts refused
    · exact ⟨cause, by rw [attempted]⟩
  case refine_3 =>
    intro replay started count
    obtain ⟨-, -, rfl⟩ := Replay.ofHints_eq_ok_iff.1 started
    have position : ((Replay.fresh k.server k.leader request.hints).skip k.field
        k.circuit.numSharedValues).position = k.circuit.numSharedValues := by
      rw [Replay.position_skip]
      exact Nat.zero_add _
    refine ⟨_, _, ClientRequest.read_fresh count, position, fun leader => ⟨?_, ?_⟩,
      fun accepts => ?_⟩
    · rw [position, count leader]
    · rw [ClientRequest.party, shares_leader leader (count leader), leader, beq_self_eq_true]
    · obtain ⟨k', -, attempted, phase⟩ | ⟨_, refused, -⟩ := attempt_setRequest idle request
      · rw [attempted]
        simp [registers, phase]
      · exact absurd accepts refused

/-- A leader with a delta for each of the bit's six shared values takes in a request, and with one
delta too few it takes in none. -/
theorem setRequest_exact_bit :
    let k := new .seventeen bit 0 0 2
    let request (deltas : List Nat) : ClientRequest :=
      ⟨⟨⟨Vector.replicate 32 0⟩, deltas⟩, ⟨1, 2, 3⟩⟩
    (k.registers.perform (.setRequest (request (List.replicate 6 4)))).1 = .ok .done ∧
      (k.registers.perform (.setRequest (request (List.replicate 5 4)))).1 ≠ .ok .done := by
  intro k request
  refine ⟨(setRequest_exact rfl _).1.2 (by decide), fun h => ?_⟩
  have := (setRequest_exact rfl _).1.1 h
  revert this
  decide

end PrivateSums.Checker
