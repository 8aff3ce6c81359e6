import PrivateSums.Proofs.Check.Completeness
import PrivateSums.Proofs.Deployment.Callers
import PrivateSums.Proofs.Deployment.Quiescence

/-!
A submission that runs alone leaves the servers as it found them, whatever others left there and
whichever of its calls are lost: only withdrawals must arrive. So nothing is left of one that fails.
-/

namespace PrivateSums

/-- Whether all that may happen to a call is that it is lost, and to a withdrawal not even that. -/
def Network.Lossy (network : Network) : Prop :=
  ∀ peer c m, network peer c m = .intact ∨ c ≠ .abort ∧ ∃ e, network peer c m = .lost e

theorem Network.Lossy.deliver {network : Network} (lossy : network.Lossy) (peer : Nat) {c : Call}
    (m : c.Message) (answer : Except ServerError c.Reply) :
    (network peer c m).deliver answer = answer := by
  obtain intact | ⟨-, e, lost⟩ := lossy peer c m
  · rw [intact]
    rfl
  · rw [lost]
    rfl

namespace PendingRequests

variable {requests : PendingRequests} {id : RequestId}

theorem erase_insert_self (p : Pending) : (requests.insert id p).erase id = requests.erase id := by
  rw [insert, erase, List.filter_cons_of_neg (by simp)]
  exact erase_of_find?_eq_none find?_erase_self

/-- Nothing but a request under an identifier that was free is pending that was not before. -/
structure Lends (id : RequestId) (before now : PendingRequests) : Prop where
  free : before.find? id = none
  rest : now.erase id = before

variable {before now : PendingRequests} {p : Pending}

theorem lends_self (free : before.find? id = none) : Lends id before before :=
  ⟨free, erase_of_find?_eq_none free⟩

theorem Lends.erase (h : Lends id before now) :
    Lends id before (now.erase id) ∧ now.erase id = before :=
  ⟨h.rest.symm ▸ lends_self h.free, h.rest⟩

theorem Lends.insert (h : Lends id before now) (p : Pending) : Lends id before (now.insert id p) :=
  ⟨h.free, (erase_insert_self p).trans h.rest⟩

end PendingRequests

open PendingRequests

namespace LeaderSlot

variable {s : LeaderSlot} {c : Call} {id : RequestId} {before : PendingRequests}

theorem pending_takeOut {next : Pending → Stage c} :
    (s.takeOut id next).1.pending = s.pending.erase id := by
  unfold takeOut
  split
  · exact (erase_of_find?_eq_none ‹_›).symm
  · rfl

end LeaderSlot

/-- What a call leaves pending at each stage: where it handed in a request, that one beside those
before; where it took it out for good, just those before. -/
def Stage.Leaves (id : RequestId) (before now : PendingRequests) : {c : Call} → Stage c → Prop
  | .newRequest, .answered (.ok _) => Lends id before now
  | .newRequest, .releasing _ (.ok _) => False
  | .newRequest, .leaving (.ok _) => False
  | .evalCircuit, _ => Lends id before now
  | .finalCircuit, _ => Lends id before now
  | .accept, .called => Lends id before now
  | .accept, .answered (.error _) => Lends id before now
  | .accept, _ => Lends id before now ∧ now = before
  | .abort, .called => Lends id before now
  | _, _ => now = before

theorem Stage.Leaves.of_waits {c : Call} {stage : Stage c} {id : RequestId}
    {before now : PendingRequests} (h : stage.Leaves id before now) (waits : stage.waits) :
    now = before := by
  cases stage with
  | unused => exact h
  | called | bound | permitted | loading | loaded | evaluating | evaluated | finalising | finalised
  | deciding | computed | releasing | leaving | answered => cases waits

section Step

variable {slot slot' : LeaderSlot} {id : RequestId} {before : PendingRequests}

theorem LeaderSlot.leaves_stepNewRequest {m : NewRequest} {stage stage' : Stage .newRequest}
    (h : slot.stepNewRequest m stage = some (slot', stage'))
    (leaves : stage.Leaves m.id before slot.pending) :
    stage'.Leaves m.id before slot'.pending := by
  cases stage with
  | answered => cases h
  | releasing k answer | leaving answer =>
    obtain ⟨rfl, rfl⟩ := Prod.mk.inj (Option.some.inj h)
    cases answer with
    | ok => exact leaves.elim
    | error => exact leaves
  | unused =>
    obtain ⟨pool, -, h⟩ := Option.map_eq_some_iff.1 h
    obtain ⟨rfl, rfl⟩ := Prod.mk.inj h
    exact leaves
  | loaded point k =>
    simp only [stepNewRequest] at h
    split at h <;> obtain ⟨rfl, rfl⟩ := Prod.mk.inj (Option.some.inj h)
    · exact leaves
    · rename_i free
      have same : slot.pending = before := leaves
      rw [same] at free ⊢
      exact (lends_self free).insert _
  | called | bound | permitted | loading =>
    simp only [stepNewRequest] at h
    split at h <;> obtain ⟨rfl, rfl⟩ := Prod.mk.inj (Option.some.inj h) <;> exact leaves

/-- A round that takes a request out puts it back, or drops it for good. -/
theorem LeaderSlot.leaves_stepEvalCircuit {m : EvalCircuit} {stage stage' : Stage .evalCircuit}
    (h : slot.stepEvalCircuit m stage = some (slot', stage'))
    (leaves : Lends m.id before slot.pending) : Lends m.id before slot'.pending := by
  cases stage with
  | answered => cases h
  | called =>
    obtain ⟨rfl, rfl⟩ := Prod.ext_iff.1 (Option.some.inj h)
    exact pending_takeOut ▸ leaves.erase.1
  | evaluated p share =>
    obtain ⟨rfl, rfl⟩ := Prod.mk.inj (Option.some.inj h)
    exact leaves.insert p
  | evaluating p =>
    simp only [stepEvalCircuit] at h
    split at h <;> obtain ⟨rfl, rfl⟩ := Prod.mk.inj (Option.some.inj h) <;> exact leaves
  | releasing | leaving =>
    obtain ⟨rfl, rfl⟩ := Prod.mk.inj (Option.some.inj h)
    exact leaves

theorem LeaderSlot.leaves_stepFinalCircuit {m : FinalCircuit} {stage stage' : Stage .finalCircuit}
    (h : slot.stepFinalCircuit m stage = some (slot', stage'))
    (leaves : Lends m.id before slot.pending) : Lends m.id before slot'.pending := by
  cases stage with
  | answered => cases h
  | called =>
    obtain ⟨rfl, rfl⟩ := Prod.ext_iff.1 (Option.some.inj h)
    exact pending_takeOut ▸ leaves.erase.1
  | finalised p share =>
    obtain ⟨rfl, rfl⟩ := Prod.mk.inj (Option.some.inj h)
    exact leaves.insert p
  | finalising p =>
    simp only [stepFinalCircuit] at h
    split at h <;> obtain ⟨rfl, rfl⟩ := Prod.mk.inj (Option.some.inj h) <;> exact leaves
  | releasing | leaving =>
    obtain ⟨rfl, rfl⟩ := Prod.mk.inj (Option.some.inj h)
    exact leaves

theorem LeaderSlot.leaves_stepAccept {m : Accept} {stage stage' : Stage .accept}
    (h : slot.stepAccept m stage = some (slot', stage'))
    (leaves : stage.Leaves m.id before slot.pending) :
    stage'.Leaves m.id before slot'.pending := by
  cases stage with
  | answered => cases h
  | called =>
    obtain ⟨rfl, rfl⟩ := Prod.ext_iff.1 (Option.some.inj h)
    have lent : Lends m.id before slot.pending := leaves
    unfold takeOut
    split
    · exact lent
    · exact lent.erase
  | deciding =>
    obtain ⟨rfl, rfl⟩ := Prod.mk.inj (Option.some.inj h)
    exact leaves
  | releasing =>
    obtain ⟨rfl, rfl⟩ := Prod.mk.inj (Option.some.inj h)
    exact leaves
  | leaving answer =>
    obtain ⟨rfl, rfl⟩ := Prod.mk.inj (Option.some.inj h)
    cases answer with
    | ok => exact leaves
    | error => exact leaves.1

theorem LeaderSlot.leaves_stepAbort {m : Abort} {stage stage' : Stage .abort}
    (h : slot.stepAbort m stage = some (slot', stage'))
    (leaves : stage.Leaves m.id before slot.pending) :
    stage'.Leaves m.id before slot'.pending := by
  cases stage with
  | answered => cases h
  | called =>
    simp only [stepAbort] at h
    split at h <;> obtain ⟨rfl, rfl⟩ := Prod.mk.inj (Option.some.inj h)
    · rename_i none
      exact (erase_of_find?_eq_none none).symm.trans leaves.rest
    · exact leaves.rest
  | releasing | leaving =>
    obtain ⟨rfl, rfl⟩ := Prod.mk.inj (Option.some.inj h)
    exact leaves

theorem Server.leaves_stepSlot {server : Server} {c : Call} {m : c.Message} {stage stage' : Stage c}
    (about : ∀ i ∈ c.id? m, i = id) (h : server.stepSlot slot m stage = some (slot', stage'))
    (leaves : stage.Leaves id before slot.pending) : stage'.Leaves id before slot'.pending := by
  cases c with
  | newRequest =>
    obtain rfl := about _ rfl
    exact LeaderSlot.leaves_stepNewRequest h leaves
  | evalCircuit =>
    obtain rfl := about _ rfl
    exact LeaderSlot.leaves_stepEvalCircuit h leaves
  | finalCircuit =>
    obtain rfl := about _ rfl
    exact LeaderSlot.leaves_stepFinalCircuit h leaves
  | accept =>
    obtain rfl := about _ rfl
    exact LeaderSlot.leaves_stepAccept h leaves
  | changePoint =>
    cases stage with
    | answered => cases h
    | called | releasing | leaving =>
      obtain ⟨rfl, rfl⟩ := Prod.mk.inj (Option.some.inj h)
      exact leaves
    | computed point =>
      simp only [stepSlot, LeaderSlot.stepChangePoint] at h
      split at h <;> obtain ⟨rfl, rfl⟩ := Prod.mk.inj (Option.some.inj h) <;> exact leaves
  | abort =>
    obtain rfl := about _ rfl
    exact LeaderSlot.leaves_stepAbort h leaves

end Step

theorem PeerCall.stage_start_cases {c : Call} (network : Network) (peer : Nat)
    (message : c.Message) :
    (start network peer message).operation.stage = .called ∨
      ∃ e, (start network peer message).operation.stage = .answered (.error e) := by
  cases fate : network peer c message with
  | lost e => exact .inr ⟨e, by simp [start, fate]⟩
  | intact | replyLost | altered => exact .inl (by simp [start, fate])

/-- What a submission leaves pending on one server: what its call there leaves, if it has one. -/
def Progress.Leaves (id : RequestId) (peer : Nat) (before now : PendingRequests) (p : Progress) :
    Prop :=
  (∃ call ∈ p.calls, call.2.peer = peer ∧ call.2.operation.stage.Leaves id before now) ∨
    (∀ call ∈ p.calls, call.2.peer ≠ peer) ∧ now = before

namespace Progress.Leaves

variable {id : RequestId} {peer n : Nat} {before now : PendingRequests} {p : Progress}

theorem of_calls_eq_nil (h : p.Leaves id peer before now) (none : p.calls = []) : now = before := by
  obtain ⟨call, mem, -⟩ | ⟨-, same⟩ := h
  · rw [none] at mem
    cases mem
  · exact same

theorem of_eq (none : p.calls = []) (same : now = before) : p.Leaves id peer before now :=
  .inr ⟨fun _ mem => absurd (none ▸ mem) List.not_mem_nil, same⟩

/-- When all servers have a call and all are answered, the answer tells what is left. -/
theorem of_answered {c : Call} {await : List (PeerCall c) → Progress} {calls : List (PeerCall c)}
    (h : (await calls).Leaves id peer before now) (awaits : Awaits c await)
    (ordered : calls.map (·.peer) = List.range n) (here : peer < n)
    {answers : List (Except ServerError c.Reply)}
    (answered : PeerCall.answers? calls = some answers) :
    ∃ call ∈ calls, ∃ reply, call.peer = peer ∧
      (Stage.answered reply : Stage c).Leaves id before now ∧
      answers[peer]? = some (call.fate.deliver reply) := by
  obtain ⟨call, mem, rfl, leaves⟩ | ⟨none, -⟩ := h
  · rw [awaits.calls_eq] at mem
    obtain ⟨made, listed, rfl⟩ := List.mem_map.1 mem
    obtain ⟨reply, stage, told⟩ := PeerCall.getElem?_answers? answered ordered listed
    exact ⟨made, listed, reply, rfl, stage ▸ leaves, told⟩
  · obtain ⟨call, mem, rfl⟩ := PeerCall.exists_of_ordered ordered here
    exact absurd rfl (none ⟨c, call⟩ (awaits.calls_eq calls ▸ List.mem_map_of_mem mem))

end Progress.Leaves

namespace Submission

variable {σ : Type} {d d' : Deployment σ} {s : Submission} {f : Lane → Lane} {p' : Progress}
  {peer n : Nat} {before now : PendingRequests}

/-- A caller sees what the servers answer. -/
theorem Proper.faithful (proper : s.Proper n) (lossy : s.network.Lossy) {c : Call}
    {await : List (PeerCall c) → Progress} {calls : List (PeerCall c)}
    (awaits : Progress.Awaits c await) (start : s.progress = await calls) :
    ∀ call ∈ calls, ∀ reply, call.fate.deliver reply = reply := by
  intro call mem reply
  rw [(proper.makes _ (awaits.mem_calls start mem)).fate_eq]
  exact lossy.deliver call.peer call.operation.message reply

/-- Calls that leave what was there when they are sent. -/
theorem leaves_callThese {c : Call} {await : List (PeerCall c) → Progress} {peers : List Nat}
    {message : c.Message} (awaits : Progress.Awaits c await) (mem : peer ∈ peers)
    (leaves : (PeerCall.start s.network peer message).operation.stage.Leaves s.id before now) :
    (await (s.callThese peers message)).Leaves s.id peer before now := by
  refine .inl ⟨⟨c, .start s.network peer message⟩, ?_, rfl, leaves⟩
  rw [awaits.calls_eq]
  exact List.mem_map_of_mem (List.mem_map_of_mem (List.mem_map_of_mem mem))

theorem leaves_handing (count : s.requests.length = n) (here : peer < n) (epoch : UInt64)
    (same : now = before) :
    (Progress.admitting (s.handing n epoch)).Leaves s.id peer before now := by
  obtain ⟨call, mem, at_peer⟩ := PeerCall.exists_of_ordered (s.peers_handing count epoch) here
  refine .inl ⟨⟨_, call⟩, List.mem_map_of_mem mem, at_peer, ?_⟩
  obtain ⟨⟨peer', message⟩, -, rfl⟩ := List.mem_map.1 mem
  obtain called | ⟨e, lost⟩ := PeerCall.stage_start_cases s.network peer' message
  · exact called ▸ same
  · exact lost ▸ same

/-- A step of the submission itself goes on from what is left. -/
theorem Proceeds.leaves (h : s.Proceeds d f p') (proper : s.Proper d.servers.length)
    (lossy : s.network.Lossy) (here : peer < d.servers.length)
    (leaves : s.progress.Leaves s.id peer before now) : p'.Leaves s.id peer before now := by
  have among := List.mem_range.2 here
  have ordered := proper.ordered
  -- a withdrawal arrives, and a later round starts with the request still there
  have withdraws {e : ServerError} {peers : List Nat} (mem : peer ∈ peers)
      (lent : Lends s.id before now) :
      (Progress.aborting e (s.callThese peers { id := s.id, leader := s.leader })).Leaves s.id peer
        before now := by
    refine leaves_callThese (.aborting e) mem ?_
    rw [PeerCall.stage_start ((lossy ..).resolve_right fun ne => ne.1 rfl)]
    exact lent
  cases h with
  | refuse start | queue start | enter start | choose start | drain start | leave start =>
    exact .of_eq rfl (leaves.of_calls_eq_nil (by rw [start]; rfl))
  | give start =>
    exact leaves_handing (proper.placed (by rw [start]; rfl)).2 here _
      (leaves.of_calls_eq_nil (by rw [start]; rfl))
  | rotate x start =>
    have same := leaves.of_calls_eq_nil (by rw [start]; rfl)
    refine leaves_callThese (.rotating _) among ?_
    obtain called | ⟨e, lost⟩ := PeerCall.stage_start_cases s.network peer
      (c := .changePoint) { leader := s.leader, epoch := _, x }
    · exact called ▸ same
    · exact lost ▸ same
  | rotationFails start answered =>
    rw [start] at leaves ordered
    obtain ⟨_, _, _, _, same, _⟩ := leaves.of_answered (.rotating _) ordered here answered
    exact .of_eq rfl same
  | rotated start answered =>
    have count := (proper.placed (by rw [start]; rfl)).2
    rw [start] at leaves ordered
    obtain ⟨_, _, _, _, same, _⟩ := leaves.of_answered (.rotating _) ordered here answered
    exact leaves_handing count here _ same
  | @admissionFails calls answers e start answered =>
    have faithful := proper.faithful lossy .admitting start
    rw [start] at leaves ordered
    obtain ⟨call, mem, reply, rfl, left, told⟩ :=
      leaves.of_answered .admitting ordered here answered
    rw [faithful call mem] at told
    cases reply with
    | ok => exact withdraws (List.mem_filter.2 ⟨among, by rw [told]; rfl⟩) left
    | error =>
      refine .inr ⟨fun other sent => ?_, left⟩
      obtain ⟨withdrawal, listed, rfl⟩ := List.mem_map.1 sent
      have took := List.mem_map_of_mem (f := PeerCall.peer) listed
      rw [peers_callThese, List.mem_filter] at took
      intro back
      rw [show withdrawal.peer = call.peer from back, told] at took
      cases took.2
  | admitted start answered replied =>
    have faithful := proper.faithful lossy .admitting start
    rw [start] at leaves ordered
    obtain ⟨call, mem, reply, rfl, left, told⟩ :=
      leaves.of_answered .admitting ordered here answered
    rw [faithful call mem] at told
    obtain ⟨_, rfl⟩ := ok_of_allReplies replied (List.mem_of_getElem? told)
    exact leaves_callThese .evaluating among left
  | evaluationFails start answered =>
    rw [start] at leaves ordered
    obtain ⟨_, _, _, _, lent, _⟩ := leaves.of_answered .evaluating ordered here answered
    exact withdraws among lent
  | evaluated key start answered =>
    rw [start] at leaves ordered
    obtain ⟨_, _, _, _, lent, _⟩ := leaves.of_answered .evaluating ordered here answered
    exact leaves_callThese .finalising among lent
  | finalFails start answered =>
    rw [start] at leaves ordered
    obtain ⟨_, _, _, _, lent, _⟩ := leaves.of_answered .finalising ordered here answered
    exact withdraws among lent
  | finalised start answered =>
    rw [start] at leaves ordered
    obtain ⟨_, _, _, _, lent, _⟩ := leaves.of_answered .finalising ordered here answered
    refine leaves_callThese .accepting among ?_
    obtain called | ⟨e, lost⟩ := PeerCall.stage_start_cases s.network peer
      (c := .accept) { id := s.id, leader := s.leader, outShares := _ }
    · exact called ▸ lent
    · exact lost ▸ lent
  | verdictFails start answered =>
    rw [start] at leaves ordered
    obtain ⟨_, _, reply, _, left, _⟩ := leaves.of_answered .accepting ordered here answered
    refine withdraws among ?_
    cases reply with
    | error => exact left
    | ok => exact left.1
  | decided start answered replied =>
    have faithful := proper.faithful lossy .accepting start
    rw [start] at leaves ordered
    obtain ⟨replies, replied, -⟩ := Answer.bind_eq_ok.1 replied
    obtain ⟨call, mem, reply, rfl, left, told⟩ :=
      leaves.of_answered .accepting ordered here answered
    rw [faithful call mem] at told
    obtain ⟨_, rfl⟩ := ok_of_allReplies replied (List.mem_of_getElem? told)
    exact .of_eq rfl left.2
  | aborted start answered =>
    rw [start] at leaves
    obtain ⟨call, mem, rfl, left⟩ | ⟨-, same⟩ := leaves
    · obtain ⟨made, listed, rfl⟩ := List.mem_map.1 mem
      obtain ⟨reply, stage⟩ := PeerCall.answered_of_answers? answered made listed
      exact .of_eq rfl (by rwa [stage] at left)
    · exact .of_eq rfl same

/-- No server has two calls of a submission at once. -/
def Apart (s : Submission) : Prop := (s.progress.calls.map (·.2.peer)).Nodup

theorem Proceeds.apart (h : s.Proceeds d f p') (proper : s.Proper d.servers.length) :
    { s with progress := p' }.Apart := by
  have here : ((List.range d.servers.length)).Nodup := List.nodup_range
  have each {c : Call} {calls : List (PeerCall c)} {peers : List Nat}
      (eq : calls.map (·.peer) = peers) (nodup : peers.Nodup) :
      ((calls.map (Sigma.mk c)).map (·.2.peer)).Nodup := by
    rw [List.map_map]
    exact eq.symm ▸ nodup
  cases h with
  | give start | rotated start =>
    exact each (peers_handing (proper.placed (by rw [start]; rfl)).2 _) here
  | rotate | admitted | evaluationFails | evaluated | finalFails | finalised | verdictFails =>
    exact each (peers_callThese ..) here
  | admissionFails => exact each (peers_callThese ..) (here.filter _)
  | refuse | queue | enter | choose | drain | rotationFails | decided | aborted | leave =>
    exact List.nodup_nil

section Call

variable {F : Field} {domain : CircuitDomain} {c : Call} {await : List (PeerCall c) → Progress}
  {calls : List (PeerCall c)} {i : Nat} {call : PeerCall c} {server : Server}
  {slot slot' : LeaderSlot} {stage' : Stage c}

theorem CallStep.peers_eq
    (h : CallStep F domain d s d' await calls i call server slot slot' stage') :
    (await (calls.set i (call.withStage stage'))).calls.map (·.2.peer) =
      s.progress.calls.map (·.2.peer) := by
  rw [h.start, h.awaits.calls_eq, h.awaits.calls_eq, List.map_map, List.map_map]
  exact PeerCall.map_peer_set h.present stage'

/-- A step of a call leaves what the call leaves, and does nothing on other servers. -/
theorem CallStep.leaves
    (h : CallStep F domain d s d' await calls i call server slot slot' stage') (apart : s.Apart)
    {slot₀ slot₁ : LeaderSlot} (before₀ : slotAt? d.servers peer s.leader.toNat = some slot₀)
    (after₁ : slotAt? d'.servers peer s.leader.toNat = some slot₁)
    (leaves : s.progress.Leaves s.id peer before slot₀.pending) :
    (await (calls.set i (call.withStage stage'))).Leaves s.id peer before slot₁.pending := by
  have listed : s.progress.calls = calls.map (Sigma.mk c) := by rw [h.start, h.awaits.calls_eq]
  have present : (⟨c, call⟩ : AnyCall) ∈ s.progress.calls :=
    listed ▸ List.mem_map_of_mem (List.mem_of_getElem? h.present)
  have listed' := h.awaits.calls_eq (calls.set i (call.withStage stage'))
  rw [h.slots] at after₁
  by_cases here : peer = call.peer
  · subst here
    rw [if_pos ⟨rfl, rfl⟩] at after₁
    obtain rfl := Option.some.inj after₁
    obtain rfl := Option.some.inj (h.found.symm.trans before₀)
    obtain ⟨other, made, same, left⟩ | ⟨none, -⟩ := leaves
    · obtain rfl := List.inj_on_of_nodup_map apart present made same.symm
      refine .inl ⟨⟨c, call.withStage stage'⟩, ?_, rfl,
        Server.leaves_stepSlot h.makes.id_eq h.step left⟩
      rw [listed']
      exact List.mem_map_of_mem (List.mem_set (List.getElem?_eq_some_iff.1 h.present).1 _)
    · exact absurd rfl (none _ present)
  · rw [if_neg fun place => here place.1] at after₁
    obtain rfl := Option.some.inj (before₀.symm.trans after₁)
    obtain ⟨other, made, rfl, left⟩ | ⟨none, same⟩ := leaves
    · rw [listed] at made
      obtain ⟨made', mem, rfl⟩ := List.mem_map.1 made
      refine .inl ⟨_, ?_, rfl, left⟩
      rw [listed']
      obtain kept | rfl := mem_set_or_eq h.present mem (call.withStage stage')
      · exact List.mem_map_of_mem kept
      · exact absurd rfl here
    · refine .inr ⟨fun other made => ?_, same⟩
      have at_peer := List.mem_map_of_mem (f := (·.2.peer)) made
      rw [h.peers_eq] at at_peer
      obtain ⟨former, made, eq⟩ := List.mem_map.1 at_peer
      exact eq ▸ none former made

end Call

/-- How the servers stand to what they were before the submission: its leader's slots are what they
were, up to what it leaves there and what it keeps of them, and other slots are untouched. -/
structure Borrows (d₀ d : Deployment σ) (s : Submission) : Prop where
  apart : s.Apart
  leaves : ∀ peer slot, slotAt? d.servers peer s.leader.toNat = some slot →
    ∃ slot₀, slotAt? d₀.servers peer s.leader.toNat = some slot₀ ∧
      slot.assets + s.assets peer s.leader.toNat = slot₀.assets ∧
      s.progress.Leaves s.id peer slot₀.pending slot.pending
  elsewhere : ∀ peer leader, leader ≠ s.leader.toNat →
    slotAt? d.servers peer leader = slotAt? d₀.servers peer leader

section Borrows

variable {F : Field} {domain : CircuitDomain} {d₀ : Deployment σ} {s' : Submission}

theorem borrows_arrived (arrived : s.progress = .arrived) : Borrows d₀ d₀ s where
  apart := by
    rw [Apart, arrived]
    exact List.nodup_nil
  leaves := by
    intro peer slot found
    have none : s.progress.calls = [] := by rw [arrived]; rfl
    refine ⟨slot, found, ?_, .of_eq none rfl⟩
    rw [assets_eq_zero (fun call mem => absurd (none ▸ mem) List.not_mem_nil), add_zero]
  elsewhere _ _ _ := rfl

theorem Borrows.of_turn (h : Borrows d₀ d s) (turn : s.Turn F domain d d' s')
    (fits : Fits F domain n d.servers) (proper : s.Proper n) (lossy : s.network.Lossy)
    (tidy : ∀ peer leader slot, slotAt? d.servers peer leader = some slot → slot.Tidy) :
    Borrows d₀ d' s' := by
  obtain rfl := fits.length_eq
  have kept {peer leader : Nat} {slot' : LeaderSlot}
      (found : slotAt? d'.servers peer leader = some slot') := (turn.assets_eq tidy found).2
  cases turn with
  | own proceeds leads =>
    refine ⟨proceeds.apart proper, fun peer slot' found => ?_, ?_⟩
    · obtain ⟨slot, there, same⟩ := kept found
      obtain ⟨slot₀, there₀, assets, left⟩ := h.leaves peer slot there
      obtain rfl : slot' = slot := by
        rw [leads.servers_eq] at found
        exact Option.some.inj (found.symm.trans there)
      exact ⟨slot₀, there₀, same.trans assets,
        proceeds.leaves proper lossy (fits.lt_of_slotAt? there) left⟩
    · rw [leads.servers_eq]
      exact h.elsewhere
  | call moved =>
    refine ⟨?_, fun peer slot' found => ?_, fun peer leader ne => ?_⟩
    · rw [Apart, moved.peers_eq]
      exact h.apart
    · obtain ⟨slot, there, same⟩ := kept found
      obtain ⟨slot₀, there₀, assets, left⟩ := h.leaves peer slot there
      exact ⟨slot₀, there₀, same.trans assets, moved.leaves h.apart there found left⟩
    · rw [moved.slots, if_neg fun place => ne place.2]
      exact h.elsewhere peer leader ne

/-- A slot from which the submission keeps nothing is as it was, once nothing more is pending. -/
theorem Borrows.available_eq (h : Borrows d₀ d s) {slot slot₀ : LeaderSlot}
    (found : slotAt? d.servers peer s.leader.toNat = some slot)
    (found₀ : slotAt? d₀.servers peer s.leader.toNat = some slot₀)
    (none : s.assets peer s.leader.toNat = 0) (same : slot.pending = slot₀.pending) :
    slot.pool.available = slot₀.pool.available := by
  obtain ⟨slot₁, found₁, assets, -⟩ := h.leaves peer slot found
  obtain rfl := Option.some.inj (found₀.symm.trans found₁)
  rw [none, add_zero] at assets
  have permits := congrArg Assets.permits assets
  rw [LeaderSlot.permits_assets, LeaderSlot.permits_assets, same] at permits
  exact Nat.add_right_cancel permits

end Borrows

end Submission

namespace World

open Submission

variable {σ : Type} {F : Field} {c : Circuit} {domain : CircuitDomain} {n capacity rotation : Nat}

/-- A world in which a submission ran alone since it came. -/
structure Alone (F : Field) (domain : CircuitDomain) (n capacity : Nat) (w₀ w : World σ)
    (s : Submission) : Prop where
  orderly : OpenWorld.Orderly F domain n capacity w
  submissions_eq : w.submissions = w₀.submissions ++ [s]
  borrows : Borrows w₀.deployment w.deployment s

variable {w₀ w w' : World σ} {s : Submission}

section Run

variable [WordSource σ]

theorem Alone.of_stepAt (alone : Alone F domain n capacity w₀ w s) (lossy : s.network.Lossy)
    (h : StepAt w₀.submissions.length w w') :
    ∃ p, Alone F domain n capacity w₀ w' { s with progress := p } := by
  have orderly := alone.orderly.of_world (h.step fun _ => True)
  cases h with
  | @move s₁ s' m d present step =>
    obtain rfl : s₁ = s := by simpa [alone.submissions_eq] using present.symm
    have proper := alone.orderly.proper.submissions s₁ (List.mem_of_getElem? present)
    obtain ⟨turn, -⟩ := turn_of_step alone.orderly.proper.fits proper step
    obtain ⟨p, rfl⟩ := Deployment.step_eq step
    refine ⟨p, orderly, ?_, alone.borrows.of_turn turn alone.orderly.proper.fits proper lossy
      alone.orderly.tidy⟩
    simp [alone.submissions_eq]

theorem Alone.of_reachesAt (alone : Alone F domain n capacity w₀ w s) (lossy : s.network.Lossy)
    (h : ReachesAt w₀.submissions.length w w') :
    ∃ p, Alone F domain n capacity w₀ w' { s with progress := p } := by
  induction h with
  | refl => exact ⟨s.progress, alone⟩
  | tail _ step ih =>
    obtain ⟨p, alone⟩ := ih
    exact Alone.of_stepAt (s := { s with progress := p }) alone lossy step

end Run

/-- Once it has returned nothing is left, and all checkers are back. -/
theorem Alone.restores (alone : Alone F domain n capacity w₀ w s)
    {result : Except ServerError Verdict} (returned : s.progress = .returned result)
    {peer leader : Nat} {slot slot₀ : LeaderSlot}
    (found : slotAt? w.deployment.servers peer leader = some slot)
    (found₀ : slotAt? w₀.deployment.servers peer leader = some slot₀) :
    slot.pending = slot₀.pending ∧ slot.pool.available = slot₀.pool.available := by
  obtain rfl | ne := eq_or_ne leader s.leader.toNat
  · have none : s.progress.calls = [] := by rw [returned]; rfl
    obtain ⟨slot₁, found₁, -, left⟩ := alone.borrows.leaves peer slot found
    obtain rfl := Option.some.inj (found₀.symm.trans found₁)
    have same := left.of_calls_eq_nil none
    exact ⟨same, alone.borrows.available_eq found found₀
      (assets_eq_zero (fun call mem => absurd (none ▸ mem) List.not_mem_nil) _ _) same⟩
  · rw [alone.borrows.elsewhere peer leader ne] at found
    obtain rfl := Option.some.inj (found.symm.trans found₀)
    exact ⟨rfl, rfl⟩

/-- When it can take no step its calls are answered: a checker was free when it came. -/
theorem Alone.answered [WordSource σ] (alone : Alone F domain n capacity w₀ w s)
    (stuck : ∀ m, w.deployment.step s m = none)
    (free : ∀ peer slot, slotAt? w₀.deployment.servers peer s.leader.toNat = some slot →
      0 < slot.pool.available) :
    ∀ call ∈ s.progress.calls, ∃ answer, call.2.operation.stage = .answered answer := by
  have proper := alone.orderly.proper.submissions s (by simp [alone.submissions_eq])
  have settled {call : AnyCall} (made : call ∈ s.progress.calls) :=
    answered_or_waits alone.orderly.proper.fits proper stuck made
  intro call made
  obtain answered | ⟨waits, slot, found, empty⟩ := settled made
  · exact answered
  exfalso
  have none : s.assets call.2.peer s.leader.toNat = 0 := by
    refine assets_eq_zero (fun other made => ?_) _ _
    obtain ⟨answer, answered⟩ | ⟨waits, -⟩ := settled made
    · rw [answered, Stage.assets]
    · exact (Stage.eq_unused_of_waits waits).2.1
  obtain ⟨slot₀, found₀, -, left⟩ := alone.borrows.leaves call.2.peer slot found
  have same : slot.pending = slot₀.pending := by
    obtain ⟨other, made', at_peer, left⟩ | ⟨-, same⟩ := left
    · obtain rfl := List.inj_on_of_nodup_map alone.borrows.apart made made' at_peer.symm
      exact left.of_waits waits
    · exact same
  have some := free _ slot₀ found₀
  rw [← alone.borrows.available_eq found found₀ none same, CheckerPool.available, empty] at some
  cases some

/-- When it can take no step it has returned, if nobody else is in its lane. -/
theorem Alone.returned [WordSource σ] (alone : Alone F domain n capacity w₀ w s)
    (stuck : ∀ m, w.deployment.step s m = none) (room : 0 < capacity)
    (free : ∀ peer slot, slotAt? w₀.deployment.servers peer s.leader.toNat = some slot →
      0 < slot.pool.available)
    (empty : ∀ other ∈ w₀.submissions, other.leader = s.leader → ¬other.progress.isInLane) :
    ∃ result, s.progress = .returned result := by
  have mem : s ∈ w.submissions := by simp [alone.submissions_eq]
  have counts (stages : Progress → Bool) (imp : ∀ p, stages p → p.isInLane)
      (out : ¬stages s.progress) : census stages s.leader w.submissions = 0 := by
    refine List.countP_eq_zero.2 fun other among h => ?_
    obtain ⟨leads, stage⟩ := Bool.and_eq_true_iff.1 h
    rw [alone.submissions_eq, List.mem_append, List.mem_singleton] at among
    obtain among | rfl := among
    · exact empty other among (of_decide_eq_true leads) (imp _ stage)
    · exact out stage
  obtain returned | ⟨l, lane, waits⟩ := Submission.returned_or_waits stuck
    (alone.orderly.proper.exists_lane mem) (alone.answered stuck free)
  · exact returned
  exfalso
  obtain ⟨permits, giving, admissions⟩ := alone.orderly.counted _ l lane
  obtain ⟨at', full⟩ | ⟨at', given⟩ | ⟨epoch, at', busy⟩ := waits
  · rw [counts Progress.isInLane (fun _ h => h) (by rw [at']; nofun)] at permits
    omega
  · rw [given, counts Progress.isGiven (fun p h => by cases p <;> trivial)
      (by rw [at']; nofun)] at giving
    cases giving
  · rw [counts Progress.isAdmitted (fun p h => by cases p <;> trivial)
      (by rw [at']; nofun)] at admissions
    exact busy admissions

variable {source : σ} {d : Deployment σ}

theorem exists_orderly_start (h : Deployment.start F c n capacity rotation source = .ok d) :
    ∃ domain, OpenWorld.Orderly F domain n capacity ⟨d, []⟩ := by
  obtain rfl | some := Nat.eq_zero_or_pos n
  · obtain rfl := Except.ok.inj h
    refine ⟨⟨0, 0, ⟨[], .empty, []⟩, ⟨[], .empty, []⟩⟩, ⟨⟨rfl, nofun⟩, rfl, nofun⟩, nofun, nofun⟩
  · obtain ⟨domain, domainOk⟩ := exists_domain some h
    exact ⟨domain, OpenWorld.orderly_start domainOk h⟩

/-- Whatever was done before, and whichever of its calls but withdrawals are lost: once a submission
that runs alone has returned, all that is pending on any server is what was pending before, and as
many checkers are free. It does return, if its leader's lane is empty and a checker was free. -/
theorem restored_of_returned [WordSource σ]
    (started : Deployment.start F c n capacity rotation source = .ok d) {v : OpenWorld σ}
    (earlier : OpenWorld.Reaches ⟨⟨d, []⟩, []⟩ v) (arrived : s.progress = .arrived)
    (lossy : s.network.Lossy)
    (free : ∀ peer slot, slotAt? v.world.deployment.servers peer s.leader.toNat = some slot →
      0 < slot.pool.available)
    (run : ReachesAt v.world.submissions.length
      ⟨v.world.deployment, v.world.submissions ++ [s]⟩ w) :
    (∀ result, w.submissions[v.world.submissions.length]? =
        some { s with progress := .returned result } → ∀ peer leader,
      (slotAt? w.deployment.servers peer leader).map (fun slot =>
          (slot.pending, slot.pool.available)) =
        (slotAt? v.world.deployment.servers peer leader).map fun slot =>
          (slot.pending, slot.pool.available)) ∧
    (0 < capacity → (∀ other ∈ v.world.submissions, other.leader = s.leader →
        ¬other.progress.isInLane) →
      w.StillAt v.world.submissions.length → ∃ result,
        w.submissions[v.world.submissions.length]? =
          some { s with progress := .returned result }) := by
  obtain ⟨domain, orderly⟩ := exists_orderly_start started
  have orderly₀ := orderly.of_reaches earlier
  have arrives : World.Step (fun _ => True) v.world
      ⟨v.world.deployment, v.world.submissions ++ [s]⟩ := .arrive arrived trivial
  obtain ⟨p, alone⟩ := Alone.of_reachesAt
    ⟨orderly₀.of_world arrives, rfl, borrows_arrived arrived⟩ lossy run
  have present : w.submissions[v.world.submissions.length]? = some { s with progress := p } := by
    simp [alone.submissions_eq]
  constructor
  · intro result there peer leader
    have returned : p = .returned result :=
      congrArg Submission.progress (Option.some.inj (present.symm.trans there))
    refine alone.orderly.proper.fits.map_slotAt? orderly₀.proper.fits ?_
    intro slot slot₀ found found₀
    obtain ⟨pending, available⟩ := alone.restores returned found found₀
    exact Prod.ext pending available
  · intro room empty still
    obtain ⟨result, returned⟩ := alone.returned (fun m => still _ m present) room free empty
    exact ⟨result, by rw [present]; exact congrArg some (congrArg _ returned)⟩

/-- An honest submission to a new deployment, whose first round does not reach the second server. -/
theorem restored_bit : ∃ (d : Deployment ChaCha20) (w : World ChaCha20) (s : Submission)
    (result : Except ServerError Verdict),
    Deployment.start .seventeen Checker.bit 3 2 4 (.ofKey ⟨Vector.replicate 32 0⟩) = .ok d ∧
      (∀ m, s.network 1 .evalCircuit m = .lost (.compute "down")) ∧
      ReachesAt 0 ⟨d, [s]⟩ w ∧
      w.submissions[0]? = some { s with progress := .returned result } ∧
      ∀ peer leader slot, slotAt? w.deployment.servers peer leader = some slot →
        slot.pending = [] ∧ slot.pool.available = 2 := by
  have inputs : [1].length = Checker.bit.numInputs := rfl
  have leads : 2 < 3 := by decide
  obtain ⟨requests, seed, run⟩ := ClientRequest.exists_ofInputs (F := .seventeen)
    Checker.wellFormed_bit inputs (by decide) leads (ChaCha20.ofKey ⟨Vector.replicate 32 0⟩)
  obtain ⟨domain, -, domainOk, -⟩ := ClientRequest.sum_outShare_of_ofInputs
    Checker.wellFormed_bit (congrArg Prod.fst run) (Checker.check_bit true)
  obtain ⟨d, started⟩ : ∃ d, Deployment.start .seventeen Checker.bit 3 2 4
    (ChaCha20.ofKey ⟨Vector.replicate 32 0⟩) = .ok d := ⟨_, start_eq domainOk⟩
  have fresh {peer leader : Nat} {slot : LeaderSlot}
      (found : slotAt? d.servers peer leader = some slot) :
      slot.pending = [] ∧ slot.pool.available = 2 := by
    rw [eq_fresh_of_start domainOk started found]
    exact ⟨rfl, rfl⟩
  let network : Network := fun peer c _ =>
    if peer = 1 ∧ c = .evalCircuit then .lost (.compute "down") else .intact
  let s := Submission.start network 7 2 requests
  have lossy : s.network.Lossy := by
    intro peer c m
    by_cases fails : peer = 1 ∧ c = .evalCircuit
    · exact .inr ⟨by simp [fails.2], _, if_pos fails⟩
    · exact .inl (if_neg fails)
  obtain ⟨w, reaches, still⟩ := exists_stillAt ⟨d, [s]⟩ 0
  obtain ⟨restored, returns⟩ := restored_of_returned (v := ⟨⟨d, []⟩, []⟩) started .refl rfl lossy
    (fun peer slot found => by rw [(fresh found).2]; decide) reaches
  obtain ⟨result, returned⟩ := returns (by decide) nofun still
  refine ⟨d, w, s, result, started, fun m => rfl, reaches, returned, ?_⟩
  intro peer leader slot found
  have same := restored result returned peer leader
  rw [found] at same
  obtain ⟨slot₀, found₀, eq⟩ := Option.map_eq_some_iff.1 same.symm
  obtain ⟨pending, available⟩ := Prod.mk.inj eq
  rw [← pending, ← available]
  exact fresh found₀

end World

end PrivateSums
