import PrivateSums.Proofs.Deployment.Pending
import PrivateSums.Proofs.Deployment.Script

/-!
Rounds of calls that go by a script. When all are answered the answers are those of the script, and
the calls of the next round ask for its next part.
-/

namespace PrivateSums

namespace PeerCall

variable {c : Call} {calls : List (PeerCall c)} {answers : List (Except ServerError c.Reply)}
  {n : Nat}

theorem allReplies_of_answered (h : answers? calls = some answers)
    (ordered : calls.map (·.peer) = List.range n) {replies : List c.Reply}
    (length : replies.length = n)
    (each : ∀ call ∈ calls, call.fate = .intact ∧
      ∃ reply, replies[call.peer]? = some reply ∧ call.operation.stage = .answered (.ok reply)) :
    allReplies answers = .ok replies := by
  have count := length_answers? h ordered
  rw [allReplies_eq_ok]
  refine List.ext_getElem? fun peer => ?_
  obtain lt | ge := Nat.lt_or_ge peer n
  · obtain ⟨call, mem, rfl⟩ := exists_of_ordered ordered lt
    obtain ⟨intact, reply, replied, stage⟩ := each call mem
    obtain ⟨answer, stage', told⟩ := getElem?_answers? h ordered mem
    obtain rfl := Stage.answered.inj (stage'.symm.trans stage)
    rw [told, intact, List.getElem?_map, replied]
    rfl
  · rw [List.getElem?_eq_none (count ▸ ge), List.getElem?_eq_none]
    rwa [List.length_map, length]

end PeerCall

namespace Submission

/-- Whether all of some calls go by their scripts. -/
def Directed (s : Submission) (servers : List Server) (ts : List Script) (calls : List AnyCall) :
    Prop :=
  ∀ call ∈ calls, ∀ slot, slotAt? servers call.2.peer s.leader.toNat = some slot →
    Script.Directs ts s.id call slot

variable {s : Submission} {servers : List Server} {ts : List Script} {n : Nat}

section Answers

variable {F : Field} {domain : CircuitDomain} {c : Call} {calls : List (PeerCall c)}
  {answers : List (Except ServerError c.Reply)}

/-- When every call is answered as the script of its server has it, the answers are those of all
scripts, and what else is so on a server is so on each. -/
theorem replies_of_scripts (fits : Fits F domain n servers) (leader_lt : s.leader.toNat < n)
    (length : ts.length = n) (ordered : calls.map (·.peer) = List.range n)
    (intact : ∀ call ∈ calls, call.fate = .intact)
    (answered : PeerCall.answers? calls = some answers) {P : Script → LeaderSlot → Prop}
    (each : ∀ call ∈ calls, ∀ slot, slotAt? servers call.peer s.leader.toNat = some slot →
      ∃ t, ts[call.peer]? = some t ∧ call.operation.stage = .answered (.ok (t.answer c)) ∧
        P t slot) :
    allReplies answers = .ok (ts.map (·.answer c)) ∧
      ∀ peer slot, slotAt? servers peer s.leader.toNat = some slot →
        ∃ t, ts[peer]? = some t ∧ P t slot := by
  have lt : ∀ call ∈ calls, call.peer < n := fun call mem =>
    List.mem_range.1 (ordered ▸ List.mem_map_of_mem mem)
  constructor
  · refine PeerCall.allReplies_of_answered answered ordered (by rw [List.length_map, length])
      fun call mem => ⟨intact call mem, ?_⟩
    obtain ⟨slot, found⟩ := fits.exists_slot (lt call mem) leader_lt
    obtain ⟨t, present, stage, -⟩ := each call mem slot found
    exact ⟨_, by rw [List.getElem?_map, present, Option.map_some], stage⟩
  · intro peer slot found
    obtain ⟨call, mem, rfl⟩ := PeerCall.exists_of_ordered ordered (fits.lt_of_slotAt? found)
    obtain ⟨t, present, -, holds⟩ := each call mem slot found
    exact ⟨t, present, holds⟩

/-- What all answers are, and what is pending then. -/
theorem Directed.replies (directed : s.Directed servers ts (calls.map (Sigma.mk c)))
    (fits : Fits F domain n servers) (leader_lt : s.leader.toNat < n) (length : ts.length = n)
    (ordered : calls.map (·.peer) = List.range n) (intact : ∀ call ∈ calls, call.fate = .intact)
    (answered : PeerCall.answers? calls = some answers) :
    allReplies answers = .ok (ts.map (·.answer c)) ∧
      ∀ peer slot, slotAt? servers peer s.leader.toNat = some slot →
        ∃ t, ts[peer]? = some t ∧ slot.pending.find? s.id = t.kept c := by
  refine replies_of_scripts fits leader_lt length ordered intact answered
    fun call mem slot found => ?_
  obtain ⟨t, present, -, -, follows⟩ := directed _ (List.mem_map_of_mem mem) slot found
  obtain ⟨answer, stage⟩ := PeerCall.answered_of_answers? answered call mem
  dsimp only at follows present
  rw [stage] at follows
  obtain ⟨rfl, kept⟩ := follows.of_answered
  exact ⟨t, present, stage, kept⟩

end Answers

theorem directed_callThese {c : Call} {peers : List Nat} {message : c.Message}
    (other : c ≠ .newRequest) (intact : ∀ peer, s.network peer c message = .intact)
    (asks : ∀ t ∈ ts, t.Asks message)
    (follows : ∀ peer slot, slotAt? servers peer s.leader.toNat = some slot →
      ∃ t, ts[peer]? = some t ∧ t.Follows (.called : Stage c) (slot.pending.find? s.id)) :
    s.Directed servers ts ((s.callThese peers message).map (Sigma.mk c)) := by
  intro call mem slot found
  obtain ⟨_, sent, rfl⟩ := List.mem_map.1 mem
  obtain ⟨peer, -, rfl⟩ := exists_of_mem_callThese sent
  obtain ⟨t, present, follows⟩ := follows peer slot found
  refine ⟨t, present, asks t (List.mem_of_getElem? present), fun eq => absurd eq other, ?_⟩
  dsimp only
  rwa [PeerCall.stage_start (intact peer)]

variable {F : Field} {c : Circuit} {domain : CircuitDomain} {x : Nat} {epoch : UInt64} {key : Key}

theorem directed_handing (reliable : s.network = .reliable)
    (rehearsed : Script.Rehearsed ts F c domain s.leader.toNat s.requests x epoch key)
    (idle : ∀ peer slot, slotAt? servers peer s.leader.toNat = some slot →
      slot.pending.find? s.id = none ∧ slot.points.get? epoch = some (.ofPoint F domain x)) :
    s.Directed servers ts ((s.handing n epoch).map (Sigma.mk .newRequest)) := by
  intro call mem slot found
  obtain ⟨_, sent, rfl⟩ := List.mem_map.1 mem
  obtain ⟨peer, request, -, there, rfl⟩ := exists_of_mem_handing sent
  obtain ⟨absent, known⟩ := idle peer slot found
  have here : peer < ts.length := by
    rw [rehearsed.length_eq]
    exact (List.getElem?_eq_some_iff.1 there).1
  obtain ⟨epoch_eq, point_eq, -, loads⟩ :=
    rehearsed.loads peer ts[peer] request (List.getElem?_eq_getElem here) there
  refine ⟨ts[peer], List.getElem?_eq_getElem here, ⟨epoch_eq.symm, loads⟩, fun _ => ?_, ?_⟩
  · rw [epoch_eq, point_eq, known]
  · rw [absent, PeerCall.stage_start (by rw [reliable]; rfl)]
    exact .offered

end Submission

end PrivateSums
