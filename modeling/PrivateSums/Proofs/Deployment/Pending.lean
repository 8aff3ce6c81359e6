import PrivateSums.Proofs.Deployment.Lanes
import PrivateSums.Proofs.Deployment.Stock

/-!
No pending request is forgotten: as long as only announcements of evaluation points fail, each is in
the care of a submission that goes on to finish it or to withdraw it.
-/

namespace PrivateSums

/-- Whether nothing but announcements of evaluation points may fail. -/
def Network.Steady (network : Network) : Prop :=
  ∀ peer c m, c ≠ .changePoint → network peer c m = .intact

theorem PeerCall.stage_start {c : Call} {network : Network} {peer : Nat} {message : c.Message}
    (intact : network peer c message = .intact) :
    (start network peer message).operation.stage = .called := by
  simp only [start, intact]

/-- Whether the request of a call, if it is pending there, is in the care of the submission. -/
def Stage.attends : {c : Call} → Stage c → Bool
  | .newRequest, .answered (.ok _) => true
  | .evalCircuit, _ => true
  | .finalCircuit, _ => true
  | .accept, .called => true
  | .abort, .called => true
  | _, _ => false

/-- Whether a submission cares for its request on a server. -/
def Progress.attends (peer : Nat) (p : Progress) : Bool :=
  p.calls.any fun call => call.2.peer == peer && call.2.operation.stage.attends

theorem Progress.attends_iff {peer : Nat} {p : Progress} : p.attends peer ↔
    ∃ call ∈ p.calls, call.2.peer = peer ∧ call.2.operation.stage.attends := by
  simp [attends]

theorem Progress.isInLane_of_calls {p : Progress} {call : AnyCall} (h : call ∈ p.calls) :
    p.isInLane := by
  cases p <;> first | rfl | cases h

theorem Progress.isInLane_of_attends {peer : Nat} {p : Progress} (h : p.attends peer) :
    p.isInLane := by
  obtain ⟨call, made, -⟩ := attends_iff.1 h
  exact isInLane_of_calls made

theorem Progress.attends_set {peer i : Nat} {c : Call} {await : List (PeerCall c) → Progress}
    {calls : List (PeerCall c)} {call : PeerCall c} (awaits : Awaits c await)
    (present : calls[i]? = some call) (h : (await calls).attends peer)
    (other : peer = call.peer → ¬call.operation.stage.attends) (stage' : Stage c) :
    (await (calls.set i (call.withStage stage'))).attends peer := by
  rw [attends_iff, awaits.calls_eq] at h ⊢
  obtain ⟨call₀, mem₀, rfl, attends⟩ := h
  obtain ⟨made, listed, rfl⟩ := List.mem_map.1 mem₀
  obtain there | rfl := mem_set_or_eq present listed (call.withStage stage')
  · exact ⟨_, List.mem_map_of_mem there, rfl, attends⟩
  · exact absurd attends (other rfl)

namespace LeaderSlot

variable {s s' : LeaderSlot} {c : Call} {id : RequestId}

theorem pending_finish {stage stage' : Stage c} (h : s.finish stage = some (s', stage')) :
    s'.pending = s.pending := by
  cases stage <;> simp only [finish, Option.some.injEq, Prod.mk.injEq, reduceCtorEq] at h
  all_goals
    obtain ⟨rfl, rfl⟩ := h
    rfl

theorem find?_takeOut {next : Pending → Stage c} :
    (s.takeOut id next).1.pending.find? id = none := by
  unfold takeOut
  split
  · assumption
  · exact PendingRequests.find?_erase_self

end LeaderSlot

/-- A step leaves its request in care, if it is pending, or in the care that it was in. -/
theorem Server.attends_stepSlot {server : Server} {slot slot' : LeaderSlot} {c : Call}
    {m : c.Message} {stage stage' : Stage c} {id : RequestId} (about : ∀ i ∈ c.id? m, i = id)
    (h : server.stepSlot slot m stage = some (slot', stage'))
    (present : slot'.pending.find? id ≠ none) :
    stage'.attends ∨ slot.pending.find? id ≠ none ∧ ¬stage.attends := by
  have finish {stage stage' : Stage c} (h : slot.finish stage = some (slot', stage'))
      (idle : ¬stage.attends) : slot.pending.find? id ≠ none ∧ ¬stage.attends :=
    ⟨LeaderSlot.pending_finish h ▸ present, idle⟩
  cases c with
  | evalCircuit | finalCircuit => exact .inl rfl
  | newRequest =>
    cases stage <;> simp only [stepSlot, LeaderSlot.stepNewRequest] at h
    case releasing | leaving => exact .inr (finish h (by simp [Stage.attends]))
    case answered => cases h
    case unused =>
      obtain ⟨pool, -, h⟩ := Option.map_eq_some_iff.1 h
      obtain ⟨rfl, rfl⟩ := Prod.mk.inj h
      exact .inr ⟨present, by simp [Stage.attends]⟩
    case loaded =>
      split at h <;> obtain ⟨rfl, rfl⟩ := Prod.mk.inj (Option.some.inj h)
      · exact .inr ⟨present, by simp [Stage.attends]⟩
      · exact .inl rfl
    all_goals
      split at h <;> obtain ⟨rfl, rfl⟩ := Prod.mk.inj (Option.some.inj h) <;>
        exact .inr ⟨present, by simp [Stage.attends]⟩
  | accept =>
    cases stage <;> simp only [stepSlot, LeaderSlot.stepAccept] at h
    case releasing | leaving | answered => exact .inr (finish h (by simp [Stage.attends]))
    case called =>
      obtain ⟨rfl, rfl⟩ := Prod.mk.inj (Option.some.inj h)
      rw [← about _ rfl] at present
      exact absurd LeaderSlot.find?_takeOut present
    case deciding =>
      obtain ⟨rfl, rfl⟩ := Prod.mk.inj (Option.some.inj h)
      exact .inr ⟨present, by simp [Stage.attends]⟩
  | changePoint =>
    cases stage <;> simp only [stepSlot, LeaderSlot.stepChangePoint] at h
    case releasing | leaving | answered => exact .inr (finish h (by simp [Stage.attends]))
    case called =>
      obtain ⟨rfl, rfl⟩ := Prod.mk.inj (Option.some.inj h)
      exact .inr ⟨present, by simp [Stage.attends]⟩
    case computed =>
      split at h <;> obtain ⟨rfl, rfl⟩ := Prod.mk.inj (Option.some.inj h) <;>
        exact .inr ⟨present, by simp [Stage.attends]⟩
  | abort =>
    cases stage <;> simp only [stepSlot, LeaderSlot.stepAbort] at h
    case releasing | leaving | answered => exact .inr (finish h (by simp [Stage.attends]))
    case called =>
      rw [← about _ rfl] at present
      split at h <;> obtain ⟨rfl, rfl⟩ := Prod.mk.inj (Option.some.inj h)
      · exact absurd ‹_› present
      · exact absurd PendingRequests.find?_erase_self present

namespace Submission

variable {σ : Type} {d d' : Deployment σ} {s : Submission} {f : Lane → Lane} {p' : Progress}
  {peer : Nat}

theorem exists_callThese {c : Call} {peers : List Nat} {message : c.Message} (mem : peer ∈ peers)
    (attends : (PeerCall.start s.network peer message).operation.stage.attends) :
    ∃ call ∈ (s.callThese peers message).map (Sigma.mk c),
      call.2.peer = peer ∧ call.2.operation.stage.attends :=
  ⟨_, List.mem_map_of_mem (List.mem_map_of_mem (List.mem_map_of_mem mem)), rfl, attends⟩

/-- A submission hands its care on to its next calls. -/
theorem Proceeds.attends (h : s.Proceeds d f p') (proper : s.Proper d.servers.length)
    (steady : s.network.Steady) (before : s.progress.attends peer) : p'.attends peer := by
  rw [Progress.attends_iff] at before ⊢
  obtain ⟨call, mem, rfl, attends⟩ := before
  have here := List.mem_range.2 (proper.makes call mem).peer_lt
  obtain ⟨answer, answered⟩ := h.answered call mem
  have sent {c : Call} (ne : c ≠ .changePoint) (m : c.Message)
      (called : (@Stage.called c).attends) :
      (PeerCall.start s.network call.2.peer m).operation.stage.attends := by
    rw [PeerCall.stage_start (steady _ _ _ ne)]
    exact called
  cases h with
  | refuse start | queue start | enter start | choose start | drain start | give start
  | rotate _ start | leave start =>
    rw [start] at mem
    cases mem
  | rotationFails start | rotated start | decided start | verdictFails start | aborted start =>
    rw [start] at mem
    obtain ⟨made, -, rfl⟩ := List.mem_map.1 mem
    rw [answered] at attends
    cases attends
  | @admissionFails calls answers e start answers_eq =>
    have ordered := proper.ordered
    have fates := proper.makes call mem
    rw [start] at mem ordered
    obtain ⟨made, listed, rfl⟩ := List.mem_map.1 mem
    obtain ⟨reply, stage, told⟩ := PeerCall.getElem?_answers? answers_eq ordered listed
    have intact : made.fate = .intact := fates.fate_eq.trans (steady _ _ _ nofun)
    refine exists_callThese (c := .abort) (List.mem_filter.2 ⟨here, ?_⟩) (sent (by decide) _ rfl)
    dsimp only at attends ⊢
    rw [stage] at attends
    rw [told, intact]
    cases reply with
    | ok => rfl
    | error => cases attends
  | admitted => exact exists_callThese (c := .evalCircuit) here rfl
  | evaluated => exact exists_callThese (c := .finalCircuit) here rfl
  | finalised => exact exists_callThese (c := .accept) here (sent (by decide) _ rfl)
  | evaluationFails | finalFails =>
    exact exists_callThese (c := .abort) here (sent (by decide) _ rfl)

end Submission

/-- If every pending request is some submission's, there are no more of them than of those. -/
theorem PendingRequests.Distinct.length_le_countP {requests : PendingRequests}
    (distinct : requests.Distinct) {submissions : List Submission} {owns : Submission → Bool}
    (owned : ∀ id, requests.find? id ≠ none → ∃ s ∈ submissions, s.id = id ∧ owns s) :
    requests.length ≤ submissions.countP owns := by
  have subset : requests.map (·.1) ⊆ (submissions.filter owns).map Submission.id := by
    intro id listed
    obtain ⟨entry, pending, rfl⟩ := List.mem_map.1 listed
    obtain ⟨p, present⟩ := exists_find? pending
    obtain ⟨s, mem, same, owned⟩ := owned entry.1 (by rw [present]; exact Option.some_ne_none p)
    exact List.mem_map.2 ⟨s, List.mem_filter.2 ⟨mem, owned⟩, same⟩
  have le := (distinct.subperm subset).length_le
  rwa [List.length_map, List.length_map, ← List.countP_eq_length_filter] at le

namespace World

variable {σ : Type} {F : Field} {domain : CircuitDomain} {n : Nat}

/-- Every pending request is in the care of a submission. -/
def Attended (w : World σ) : Prop :=
  ∀ peer leader slot id, slotAt? w.deployment.servers peer leader = some slot →
    slot.pending.find? id ≠ none →
      ∃ s ∈ w.submissions, s.id = id ∧ s.leader.toNat = leader ∧ s.progress.attends peer

section Step

variable [WordSource σ] {admits : Submission → Prop} {w w' : World σ}

theorem Attended.of_step (attended : w.Attended) (proper : w.Proper F domain n)
    (steady : ∀ s ∈ w.submissions, s.network.Steady) (h : Step admits w w') : w'.Attended := by
  obtain ⟨-, next⟩ := proper.of_step h
  obtain ⟨d', submissions'⟩ := w'
  obtain ⟨s, -, -, rfl, rfl⟩ | ⟨i, s, s', present, rfl, turn⟩ := next
  · intro peer leader slot id found pending
    obtain ⟨s₀, mem, cares⟩ := attended peer leader slot id found pending
    exact ⟨s₀, List.mem_append_left _ mem, cares⟩
  have mem := List.mem_of_getElem? present
  obtain ⟨here, -⟩ := List.getElem?_eq_some_iff.1 present
  cases turn with
  | @own f p' proceeds leads =>
    intro peer leader slot id found pending
    have servers : d'.servers = w.deployment.servers := leads.servers_eq
    obtain ⟨s₀, mem₀, rfl, rfl, attends⟩ :=
      attended peer leader slot id (servers ▸ found) pending
    obtain there | rfl := mem_set_or_eq present mem₀ { s with progress := p' }
    · exact ⟨s₀, there, rfl, rfl, attends⟩
    · refine ⟨_, List.mem_set here .., rfl, rfl, ?_⟩
      exact proceeds.attends (proper.fits.length_eq.symm ▸ proper.submissions s₀ mem)
        (steady s₀ mem) attends
  | @call c await calls j call server slot slot' stage' moved =>
    have moves := moved.moves
    obtain ⟨awaits, start, present', makes, -, -, found, step, slots, -, -⟩ := moved
    intro peer leader slot₁ id found' pending
    rw [slots] at found'
    -- whoever cared before still does, unless the step took the request out
    have keep {slot₀ : LeaderSlot} (there : slotAt? w.deployment.servers peer leader = some slot₀)
        (before : slot₀.pending.find? id ≠ none)
        (other : id = s.id → leader = s.leader.toNat → peer = call.peer →
          ¬call.operation.stage.attends) :
        ∃ s₀ ∈ w.submissions.set i
            { s with progress := await (calls.set j (call.withStage stage')) },
          s₀.id = id ∧ s₀.leader.toNat = leader ∧ s₀.progress.attends peer := by
      obtain ⟨s₀, mem₀, rfl, rfl, attends⟩ := attended peer leader slot₀ id there before
      obtain still | rfl := mem_set_or_eq present mem₀ _
      · exact ⟨s₀, still, rfl, rfl, attends⟩
      · rw [start] at attends
        exact ⟨_, List.mem_set here .., rfl, rfl,
          Progress.attends_set awaits present' attends (other rfl rfl) stage'⟩
    split at found'
    · rename_i place
      obtain ⟨rfl, rfl⟩ := place
      obtain rfl := Option.some.inj found'
      obtain rfl | ne := eq_or_ne id s.id
      · obtain attends | ⟨before, idle⟩ := Server.attends_stepSlot makes.id_eq step pending
        · refine ⟨_, List.mem_set here .., rfl, rfl, Progress.attends_iff.2 ?_⟩
          obtain ⟨here', -⟩ := List.getElem?_eq_some_iff.1 present'
          rw [awaits.calls_eq]
          exact ⟨_, List.mem_map_of_mem (List.mem_set here' ..), rfl, attends⟩
        · exact keep found before fun _ _ _ => idle
      · exact keep found (moves.find?_ne ne ▸ pending) fun eq => absurd eq ne
    · rename_i elsewhere
      exact keep found' pending fun _ leads at' => absurd ⟨at', leads⟩ elsewhere

/-- Networks stay as they are. -/
theorem network_of_step {P : Network → Prop} (all : ∀ s ∈ w.submissions, P s.network)
    (only : ∀ s, admits s → P s.network) (h : Step admits w w') :
    ∀ s ∈ w'.submissions, P s.network := by
  intro s mem
  cases h with
  | arrive start admitted =>
    obtain mem | mem := List.mem_append.1 mem
    · exact all s mem
    · exact List.mem_singleton.1 mem ▸ only _ admitted
  | @move _ s₀ _ _ _ present step =>
    obtain ⟨p, rfl⟩ := Deployment.step_eq step
    obtain mem | rfl := List.mem_or_eq_of_mem_set mem
    · exact all s mem
    · exact all s₀ (List.mem_of_getElem? present)

end Step

section Sound

variable {c : Circuit} {capacity : Nat}

/-- What holds of all worlds that a deployment comes to. -/
structure Sound (F : Field) (c : Circuit) (domain : CircuitDomain) (n capacity : Nat)
    (w : World σ) : Prop where
  proper : w.Proper F domain n
  stocked : w.Stocked F c n capacity
  counted : w.Counted capacity
  attended : w.Attended
  steady : ∀ s ∈ w.submissions, s.network.Steady

theorem sound_start {rotation : Nat} {source : σ} {d : Deployment σ}
    (domainOk : CircuitDomain.ofCircuit F c = .ok domain)
    (h : Deployment.start F c n capacity rotation source = .ok d) :
    Sound F c domain n capacity ⟨d, []⟩ where
  proper := proper_start domainOk h
  stocked := stocked_start domainOk h
  counted := counted_start domainOk h
  attended := by
    intro peer leader slot id found pending
    obtain rfl := eq_fresh_of_start domainOk h found
    exact absurd rfl pending
  steady _ mem := absurd mem List.not_mem_nil

variable [WordSource σ] {admits : Submission → Prop} {w w' : World σ}

theorem Sound.of_step (sound : w.Sound F c domain n capacity)
    (only : ∀ s, admits s → s.network.Steady) (h : Step admits w w') :
    w'.Sound F c domain n capacity where
  proper := (sound.proper.of_step h).1
  stocked := sound.stocked.of_step sound.proper h
  counted := sound.counted.of_step sound.proper h
  attended := sound.attended.of_step sound.proper sound.steady h
  steady := network_of_step sound.steady only h

theorem Sound.of_reaches (sound : w.Sound F c domain n capacity)
    (only : ∀ s, admits s → s.network.Steady) (h : Reaches admits w w') :
    w'.Sound F c domain n capacity := by
  induction h with
  | refl => exact sound
  | tail _ step ih => exact ih.of_step only step

end Sound

end World

end PrivateSums
