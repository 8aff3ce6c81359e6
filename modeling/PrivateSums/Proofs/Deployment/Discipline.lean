import PrivateSums.Proofs.Deployment.Allotment
import PrivateSums.Proofs.Deployment.Level
import PrivateSums.Proofs.Deployment.Ownership

/-!
The discipline of evaluation points over a whole run, when nobody but the coordinator announces any.
Servers bind a request to one epoch and one point, few requests share an epoch, and the epochs that
a coordinator commits to ascend. Any call may fail, and others may call the servers as they like.
-/

namespace PrivateSums

/-- Whether all servers took a request in. -/
def Progress.IsIn (p : Progress) : Prop :=
  p.isTaken ∨ p.isAdmitted ∧ ∀ call ∈ p.admission, call.operation.stage = .answered (.ok ())

namespace World

variable {σ : Type}

/-- The call that hands the request of a submission to a server. -/
def handing? (w : World σ) (i peer : Nat) : Option (PeerCall .newRequest) :=
  w.submissions[i]?.bind (·.progress.admission[peer]?)

/-- Whether a server takes the request of a submission in, and has it pending at a point. -/
structure Binds (i peer : Nat) (epoch : UInt64) (point : EvaluationPoint) (before now : World σ) :
    Prop where
  asked : ∃ call, before.handing? i peer = some call ∧ call.operation.stage.answer? = none
  taken : ∃ call slot k, now.handing? i peer = some call ∧ call.operation.message.epoch = epoch ∧
    call.operation.stage = .answered (.ok ()) ∧
    slotAt? now.deployment.servers peer call.operation.leader.toNat = some slot ∧
    slot.pending.find? call.operation.message.id = some ⟨k, point⟩

theorem handing?_eq_some {w : World σ} {i peer : Nat} {call : PeerCall .newRequest} :
    w.handing? i peer = some call ↔
      ∃ s, w.submissions[i]? = some s ∧ s.progress.admission[peer]? = some call :=
  Option.bind_eq_some_iff

section Binds

variable {i peer : Nat} {epoch : UInt64} {point : EvaluationPoint} {before now : World σ}

theorem Binds.admitted_before (h : Binds i peer epoch point before now) :
    ∃ s, before.submissions[i]? = some s ∧ s.progress.isAdmitted := by
  obtain ⟨⟨call, handing, -⟩, -⟩ := h
  obtain ⟨s, there, sent⟩ := handing?_eq_some.1 handing
  exact ⟨s, there, Progress.isAdmitted_of_mem_admission (List.mem_of_getElem? sent)⟩

theorem Binds.admitted_now (h : Binds i peer epoch point before now) :
    ∃ s, now.submissions[i]? = some s ∧ s.progress.isAdmitted := by
  obtain ⟨-, call, -, -, handing, -⟩ := h
  obtain ⟨s, there, sent⟩ := handing?_eq_some.1 handing
  exact ⟨s, there, Progress.isAdmitted_of_mem_admission (List.mem_of_getElem? sent)⟩

theorem Binds.ne (h : Binds i peer epoch point before now) :
    now.submissions[i]? ≠ before.submissions[i]? := by
  obtain ⟨⟨call, asked, idle⟩, call', -, -, taken, -, answered, -⟩ := h
  intro same
  rw [handing?, same, ← handing?, asked] at taken
  obtain rfl := Option.some.inj taken
  rw [answered] at idle
  cases idle

end Binds

end World

namespace Submission

variable {σ : Type} {d : Deployment σ} {s : Submission} {f : Lane → Lane} {p' : Progress}

/-- A submission comes to be admitted under the epoch that its lane has from then on. -/
theorem Proceeds.admission (h : s.Proceeds d f p') {l : Lane} (lane : d.lane? s.leader = some l)
    (admitted : p'.isAdmitted) : ∃ epoch, p' = .admitting (s.handing d.servers.length epoch) ∧
      (f l).epoch = some epoch := by
  cases h with
  | @give l₀ epoch start lane₀ due current =>
    obtain rfl := Option.some.inj (lane₀.symm.trans lane)
    exact ⟨epoch, rfl, current⟩
  | @rotated epoch => exact ⟨epoch, rfl, rfl⟩
  | refuse | queue | enter | choose | drain | rotate | rotationFails | admissionFails | admitted
  | evaluationFails | evaluated | finalFails | finalised | verdictFails | decided | aborted
  | leave => cases admitted

theorem Proceeds.isUnderWay (h : s.Proceeds d f p') (admitted : p'.isAdmitted) :
    s.progress.isUnderWay := by
  cases h with
  | give start | rotated start =>
    rw [start]
    rfl
  | refuse | queue | enter | choose | drain | rotate | rotationFails | admissionFails | admitted
  | evaluationFails | evaluated | finalFails | finalised | verdictFails | decided | aborted
  | leave => cases admitted

theorem Proceeds.not_isPast (h : s.Proceeds d f p') (admitted : p'.isAdmitted) :
    ¬s.progress.isPast := by
  cases h with
  | give start | rotated start =>
    rw [start]
    exact Bool.false_ne_true
  | refuse | queue | enter | choose | drain | rotate | rotationFails | admissionFails | admitted
  | evaluationFails | evaluated | finalFails | finalised | verdictFails | decided | aborted
  | leave => cases admitted

end Submission

namespace OpenWorld

variable {σ : Type} {F : Field} {c : Circuit} {domain : CircuitDomain} {n capacity rotation : Nat}

/-- All that servers bound a submission to in a run: one epoch and one point. -/
structure Bound (n i : Nat) (epoch : UInt64) (point : EvaluationPoint) (w : OpenWorld σ)
    (past : List (OpenWorld σ)) : Prop where
  only : ∀ peer epoch' point', Happened (World.Binds i peer epoch' point') (w :: past) →
    epoch' = epoch ∧ point' = point
  admission : ∀ s calls, w.world.submissions[i]? = some s → s.progress = .admitting calls →
    World.Admission w.world.deployment s.leader epoch point calls ∧
    ∀ call ∈ calls, call.operation.stage = .answered (.ok ()) →
      Happened (World.Binds i call.peer epoch point) (w :: past)
  taken : ∀ s, w.world.submissions[i]? = some s → s.progress.isTaken → ∀ peer < n,
    Happened (World.Binds i peer epoch point) (w :: past)

/-- Nothing is bound before it is handed out. -/
def Unbound (i : Nat) (w : OpenWorld σ) (past : List (OpenWorld σ)) : Prop :=
  (∀ s, w.world.submissions[i]? = some s → ¬s.progress.isPast) →
    ∀ peer epoch point, ¬Happened (World.Binds i peer epoch point) (w :: past)

section Bound

variable {w w' : OpenWorld σ} {past : List (OpenWorld σ)} {i peer : Nat} {epoch : UInt64}
  {point : EvaluationPoint}

/-- What a step has to do with the submission at one place. -/
theorem Orderly.of_step_at [WordSource σ] (orderly : Orderly F domain n capacity w.world)
    (h : Step w w') (i : Nat) :
    w'.world.submissions[i]? = w.world.submissions[i]? ∨
      (w.world.submissions[i]? = none ∧
        ∃ s, w'.world.submissions[i]? = some s ∧ s.progress = .arrived) ∨
      ∃ s s', w.world.submissions[i]? = some s ∧
        w'.world.submissions = w.world.submissions.set i s' ∧
        s.Turn F domain w.world.deployment w'.world.deployment s' := by
  cases h with
  | own step =>
    obtain ⟨-, ⟨s, start, -, -, eq⟩ | ⟨j, s, s', there, eq, turn⟩⟩ := orderly.proper.of_step step
    · dsimp only
      rw [eq, List.getElem?_append]
      split
      · exact .inl rfl
      · rename_i beyond
        by_cases last : i = w.world.submissions.length
        · exact .inr (.inl ⟨List.getElem?_eq_none (by omega), s, by simp [last], start⟩)
        · refine .inl ?_
          rw [List.getElem?_eq_none (by simp; omega), List.getElem?_eq_none (by omega)]
    · by_cases here : j = i
      · subst here
        exact .inr (.inr ⟨s, s', there, eq, turn⟩)
      · dsimp only
        rw [eq, List.getElem?_set_ne here]
        exact .inl rfl
  | call => exact .inl rfl
  | answer => exact .inl rfl

section Call

variable {w : World σ} {s : Submission} {d' : Deployment σ} {calls : List (PeerCall .newRequest)}
  {j : Nat} {call : PeerCall .newRequest} {server : Server} {slot slot' : LeaderSlot}
  {stage' : Stage .newRequest}

/-- A favourable answer binds the request. -/
theorem binds_of_call (admission : World.Admission w.deployment s.leader epoch point calls)
    (ordered : calls.map (·.peer) = List.range n) (present : w.submissions[i]? = some s)
    (moved : s.CallStep F domain w.deployment d' Progress.admitting calls j call server slot slot'
      stage') (answered : stage' = .answered (.ok ())) :
    World.Binds i call.peer epoch point w ⟨d', w.submissions.set i
      { s with progress := .admitting (calls.set j (call.withStage stage')) }⟩ := by
  obtain ⟨here, -⟩ := List.getElem?_eq_some_iff.1 present
  obtain ⟨there, -⟩ := List.getElem?_eq_some_iff.1 moved.present
  obtain rfl := PeerCall.peer_eq_of_ordered ordered moved.present
  subst answered
  refine ⟨⟨call, ?_, Server.answer?_eq_none_of_stepSlot moved.step⟩, ?_⟩
  · rw [World.handing?, present, Option.bind_some, moved.start]
    exact moved.present
  obtain ⟨k, pending⟩ := Server.pending_of_stepSlot moved.step (admission.binds_of_step moved)
  refine ⟨call.withStage (.answered (.ok ())), slot', k, ?_,
    admission.asks call (List.mem_of_getElem? moved.present), rfl, ?_, pending⟩
  · rw [World.handing?, List.getElem?_set_self here, Option.bind_some]
    exact List.getElem?_set_self there
  · have leader : call.operation.leader = s.leader := moved.makes.leader_eq
    change slotAt? d'.servers call.peer call.operation.leader.toNat = some slot'
    rw [moved.slots, leader, if_pos ⟨rfl, rfl⟩]

/-- Nothing else is bound meanwhile. -/
theorem eq_of_binds (admission : World.Admission w.deployment s.leader epoch point calls)
    (ordered : calls.map (·.peer) = List.range n) (present : w.submissions[i]? = some s)
    (moved : s.CallStep F domain w.deployment d' Progress.admitting calls j call server slot slot'
      stage') {epoch' : UInt64} {point' : EvaluationPoint}
    (binds : World.Binds i peer epoch' point' w ⟨d', w.submissions.set i
      { s with progress := .admitting (calls.set j (call.withStage stage')) }⟩) :
    epoch' = epoch ∧ point' = point := by
  obtain ⟨here, -⟩ := List.getElem?_eq_some_iff.1 present
  obtain ⟨there, -⟩ := List.getElem?_eq_some_iff.1 moved.present
  obtain ⟨⟨call₀, asked, idle⟩, call', slot₁, k, taken, asks, answered, found, pending⟩ := binds
  rw [World.handing?, present, Option.bind_some, moved.start] at asked
  rw [World.handing?, List.getElem?_set_self here, Option.bind_some] at taken
  change calls[peer]? = some call₀ at asked
  change (calls.set j (call.withStage stage'))[peer]? = some call' at taken
  by_cases elsewhere : j = peer
  · subst elsewhere
    rw [List.getElem?_set_self there] at taken
    obtain rfl := Option.some.inj taken
    obtain rfl : stage' = .answered (.ok ()) := answered
    have leader : call.operation.leader = s.leader := moved.makes.leader_eq
    change slotAt? d'.servers j call.operation.leader.toNat = some slot₁ at found
    rw [moved.slots, leader,
      if_pos ⟨(PeerCall.peer_eq_of_ordered ordered moved.present).symm, rfl⟩] at found
    obtain rfl := Option.some.inj found
    obtain ⟨k', pending'⟩ := Server.pending_of_stepSlot moved.step (admission.binds_of_step moved)
    refine ⟨asks.symm.trans (admission.asks call (List.mem_of_getElem? moved.present)), ?_⟩
    exact (Pending.mk.inj (Option.some.inj (pending.symm.trans pending'))).2
  · rw [List.getElem?_set_ne elsewhere] at taken
    obtain rfl := Option.some.inj (asked.symm.trans taken)
    rw [answered] at idle
    cases idle

end Call

/-- What a submission was bound to it stays bound to. -/
theorem Bound.of_same (bound : Bound n i epoch point w past)
    (same : w'.world.submissions[i]? = w.world.submissions[i]?)
    (frame : ∀ s ∈ w.world.submissions, s.progress.isAdmitted → ∀ peer slot',
      slotAt? w'.world.deployment.servers peer s.leader.toNat = some slot' →
      ∃ slot, slotAt? w.world.deployment.servers peer s.leader.toNat = some slot ∧
        slot'.points = slot.points) :
    Bound n i epoch point w' (w :: past) := by
  refine ⟨fun peer epoch' point' happened => ?_, fun s calls there start => ?_,
    fun s there taken peer peer_lt => ?_⟩
  · obtain now | before := happened
    · exact absurd same now.ne
    · exact bound.only peer epoch' point' before
  · obtain ⟨admission, answered⟩ := bound.admission s calls (same ▸ there) start
    refine ⟨admission.frame (frame s (List.mem_of_getElem? (same ▸ there)) (by rw [start]; rfl)),
      fun call mem took => .inr (answered call mem took)⟩
  · exact .inr (bound.taken s (same ▸ there) taken peer peer_lt)

section Own

variable {w : World σ} {others others' : List AnyCall} {s : Submission} {d' : Deployment σ}
  {f : Lane → Lane} {p' : Progress}

/-- A submission that is handed out is bound to nothing yet. -/
theorem bound_of_handing (unbound : Unbound i ⟨w, others⟩ past)
    (present : w.submissions[i]? = some s) (early : ¬s.progress.isPast)
    (admission : World.Admission d' s.leader epoch point (s.handing n epoch)) :
    Bound n i epoch point
      ⟨⟨d', w.submissions.set i { s with progress := .admitting (s.handing n epoch) }⟩, others'⟩
      (⟨w, others⟩ :: past) := by
  obtain ⟨here, -⟩ := List.getElem?_eq_some_iff.1 present
  have none (peer : Nat) (epoch' : UInt64) (point' : EvaluationPoint) :
      ¬Happened (World.Binds i peer epoch' point') (⟨w, others⟩ :: past) :=
    unbound (fun s₀ there => Option.some.inj (present.symm.trans there) ▸ early) peer epoch' point'
  refine ⟨fun peer epoch' point' happened => ?_, fun s' calls there start => ?_,
    fun s' there taken => ?_⟩
  · obtain now | before := happened
    · obtain ⟨s₀, there, admitted⟩ := now.admitted_before
      obtain rfl := Option.some.inj (present.symm.trans there)
      cases progress : s.progress <;> rw [progress] at admitted early <;>
        first | exact absurd rfl early | cases admitted
    · exact absurd before (none peer epoch' point')
  · obtain rfl := Option.some.inj ((List.getElem?_set_self here).symm.trans there)
    obtain rfl := Progress.admitting.inj start
    refine ⟨admission, fun call mem took => ?_⟩
    obtain ⟨⟨peer, message⟩, -, rfl⟩ := List.mem_map.1 mem
    dsimp only [PeerCall.start] at took
    split at took <;> cases took
  · obtain rfl := Option.some.inj ((List.getElem?_set_self here).symm.trans there)
    cases taken

/-- What a submission was bound to it stays bound to as it goes on. -/
theorem Bound.of_own (bound : Bound n i epoch point ⟨w, others⟩ past)
    (proper : w.Proper F domain n) (present : w.submissions[i]? = some s)
    (proceeds : s.Proceeds w.deployment f p') (other : ¬p'.isAdmitted) :
    Bound n i epoch point ⟨⟨d', w.submissions.set i { s with progress := p' }⟩, others'⟩
      (⟨w, others⟩ :: past) := by
  obtain ⟨here, -⟩ := List.getElem?_eq_some_iff.1 present
  refine ⟨fun peer epoch' point' happened => ?_, fun s' calls there start => ?_,
    fun s' there taken peer peer_lt => .inr ?_⟩
  · obtain now | before := happened
    · obtain ⟨s', there, admitted⟩ := now.admitted_now
      obtain rfl := Option.some.inj ((List.getElem?_set_self here).symm.trans there)
      exact absurd admitted other
    · exact bound.only peer epoch' point' before
  · obtain rfl := Option.some.inj ((List.getElem?_set_self here).symm.trans there)
    dsimp only at start
    rw [start] at other
    exact absurd rfl other
  · obtain rfl := Option.some.inj ((List.getElem?_set_self here).symm.trans there)
    cases proceeds with
    | admitted start answered replied =>
      have ordered := (proper.submissions s (List.mem_of_getElem? present)).ordered
      rw [start] at ordered
      obtain ⟨call, mem, rfl⟩ := PeerCall.exists_of_ordered ordered peer_lt
      obtain ⟨reply, stage⟩ := PeerCall.stage_of_allReplies answered replied ordered mem
      exact (bound.admission s _ present start).2 call mem stage
    | evaluated _ start | finalised start | decided start =>
      exact bound.taken s present (by rw [start]; rfl) peer peer_lt
    | @leave result start =>
      refine bound.taken s present ?_ peer peer_lt
      rw [start]
      cases result <;> exact taken
    | refuse | queue | enter | choose | drain | give | rotate | rotationFails | rotated
    | admissionFails | evaluationFails | finalFails | verdictFails | aborted => cases taken

/-- A call of a submission that is not being handed out binds nothing. -/
theorem Bound.of_call (bound : Bound n i epoch point ⟨w, others⟩ past)
    (proper : w.Proper F domain n) (present : w.submissions[i]? = some s) {c : Call}
    {await : List (PeerCall c) → Progress} {calls : List (PeerCall c)} {j : Nat}
    {call : PeerCall c} {server : Server} {slot slot' : LeaderSlot} {stage' : Stage c}
    (moved : s.CallStep F domain w.deployment d' await calls j call server slot slot' stage') :
    Bound n i epoch point ⟨⟨d', w.submissions.set i
      { s with progress := await (calls.set j (call.withStage stage')) }⟩, others'⟩
      (⟨w, others⟩ :: past) := by
  obtain ⟨here, -⟩ := List.getElem?_eq_some_iff.1 present
  have self {s' : Submission} {b : Submission} (there : (w.submissions.set i b)[i]? = some s') :
      b = s' := Option.some.inj ((List.getElem?_set_self here).symm.trans there)
  have ordered := (proper.submissions s (List.mem_of_getElem? present)).ordered
  rw [moved.start] at ordered
  cases moved.awaits with
  | admitting =>
    obtain ⟨admission, answered⟩ := bound.admission s calls present moved.start
    refine ⟨fun peer epoch' point' happened => ?_, fun s' calls' there start => ?_,
      fun s' there taken => ?_⟩
    · obtain now | before := happened
      · exact eq_of_binds admission ordered present moved now
      · exact bound.only peer epoch' point' before
    · obtain rfl := self there
      obtain rfl := Progress.admitting.inj start
      refine ⟨admission.of_call moved, fun call' mem took => ?_⟩
      obtain rfl | ⟨_, -, there⟩ := of_mem_set mem
      · have binds := binds_of_call admission ordered present moved took
        exact .inl binds
      · exact .inr (answered call' (List.mem_of_getElem? there) took)
    · obtain rfl := self there
      cases taken
  | rotating | evaluating | finalising | accepting | aborting =>
    refine ⟨fun peer epoch' point' happened => ?_, fun s' calls there start => ?_,
      fun s' there taken peer peer_lt => .inr ?_⟩
    · obtain now | before := happened
      · obtain ⟨s', there, admitted⟩ := now.admitted_now
        obtain rfl := self there
        cases admitted
      · exact bound.only peer epoch' point' before
    · obtain rfl := self there
      cases start
    · obtain rfl := self there
      refine bound.taken s present ?_ peer peer_lt
      rw [moved.start]
      exact taken

end Own

section Step

variable [WordSource σ] (only : ∀ call ∈ w.others, call.1 ≠ .changePoint)

theorem Unbound.step (unbound : Unbound i w past)
    (orderly : Orderly F domain n capacity w.world) (h : Step w w') :
    Unbound i w' (w :: past) := by
  intro early peer epoch point happened
  obtain now | before := happened
  · obtain ⟨s', there, admitted⟩ := now.admitted_now
    refine early s' there ?_
    cases progress : s'.progress <;> rw [progress] at admitted <;> first | rfl | cases admitted
  · refine unbound (fun s there past => ?_) peer epoch point before
    obtain same | ⟨absent, -⟩ | ⟨s₀, s', there', eq, turn⟩ := orderly.of_step_at h i
    · exact early s (same.trans there) past
    · cases absent.symm.trans there
    · obtain rfl := Option.some.inj (there'.symm.trans there)
      obtain ⟨here, -⟩ := List.getElem?_eq_some_iff.1 there
      refine early s' (by rw [eq, List.getElem?_set_self here]) ?_
      cases turn with
      | own proceeds => exact proceeds.isPast (.inr past)
      | call moved =>
        rw [moved.start] at past
        cases moved.awaits <;> first | rfl | cases past

include only in
theorem Bound.step {x : Nat} (bound : Bound n i epoch (.ofPoint F domain x) w past)
    (unbound : Unbound i w past) (pointed : Pointed F domain n capacity w.world) (h : Step w w') :
    ∃ epoch x, Bound n i epoch (.ofPoint F domain x) w' (w :: past) := by
  obtain same | ⟨absent, s', there, start⟩ | ⟨s, s', present, eq, turn⟩ :=
    pointed.orderly.of_step_at h i
  · exact ⟨epoch, x, bound.of_same same fun s mem admitted =>
      pointed.points_of_admitted only h mem admitted⟩
  · refine ⟨epoch, x, fun peer epoch' point' happened => ?_, fun s calls there' admitting => ?_,
      fun s there' taken => ?_⟩
    · obtain now | before := happened
      · obtain ⟨s, there, -⟩ := now.admitted_before
        cases absent.symm.trans there
      · exact bound.only peer epoch' point' before
    · obtain rfl := Option.some.inj (there.symm.trans there')
      cases start.symm.trans admitting
    · obtain rfl := Option.some.inj (there.symm.trans there')
      rw [start] at taken
      cases taken
  · have pointed' := pointed.of_step only h
    obtain ⟨⟨d', submissions'⟩, others'⟩ := w'
    obtain rfl := eq
    cases turn with
    | @own f p' proceeds leads =>
      by_cases admitted : p'.isAdmitted
      · obtain ⟨l, lane⟩ := pointed.orderly.proper.exists_lane (List.mem_of_getElem? present)
          (proceeds.isUnderWay admitted)
        obtain ⟨epoch, sent, current⟩ := proceeds.admission lane admitted
        obtain ⟨x, holds⟩ := pointed'.announced.committed s.leader (f l) epoch
          (by rw [leads.lane?, lane]; simp) current
        obtain rfl := sent
        rw [pointed.orderly.proper.fits.length_eq] at proceeds ⊢
        exact ⟨epoch, x, bound_of_handing unbound present (proceeds.not_isPast rfl)
          (World.admission_handing holds)⟩
      · exact ⟨epoch, x, bound.of_own pointed.orderly.proper present proceeds admitted⟩
    | call moved => exact ⟨epoch, x, bound.of_call pointed.orderly.proper present moved⟩

end Step

end Bound

/-- What holds at every moment of a run. -/
structure Kept (F : Field) (domain : CircuitDomain) (n capacity rotation : Nat) (w : OpenWorld σ)
    (past : List (OpenWorld σ)) : Prop where
  pointed : Pointed F domain n capacity w.world
  rotation_eq : w.world.deployment.rotation = rotation
  unbound : ∀ i, Unbound i w past
  bound : ∀ i, ∃ epoch x, Bound n i epoch (.ofPoint F domain x) w past
  tally : ∀ leader l, w.world.deployment.lane? leader = some l →
    Tally rotation leader l (w :: past)

section Kept

variable {w w' w₀ : OpenWorld σ} {past run : List (OpenWorld σ)}

/-- A submission that is handed out, with the calls that do it. -/
theorem Kept.admission (kept : Kept F domain n capacity rotation w past) {i : Nat} {s : Submission}
    (there : w.world.submissions[i]? = some s) (admitted : s.progress.isAdmitted) :
    ∃ epoch x, s.progress.admission.map (·.peer) = List.range n ∧
      World.Admission w.world.deployment s.leader epoch (.ofPoint F domain x)
        s.progress.admission ∧
      ∀ call ∈ s.progress.admission, call.operation.stage = .answered (.ok ()) →
        Happened (World.Binds i call.peer epoch (.ofPoint F domain x)) (w :: past) := by
  obtain ⟨epoch, x, bound⟩ := kept.bound i
  have ordered :=
    (kept.pointed.orderly.proper.submissions s (List.mem_of_getElem? there)).ordered
  have admission := bound.admission s
  cases start : s.progress <;> rw [start] at admitted <;> try cases admitted
  rename_i calls
  rw [start] at ordered
  exact ⟨epoch, x, ordered, admission calls there start⟩

theorem Kept.binds_of_isIn (kept : Kept F domain n capacity rotation w past) {i peer : Nat}
    {s : Submission} (there : w.world.submissions[i]? = some s) (isIn : s.progress.IsIn)
    (peer_lt : peer < n) :
    ∃ epoch point, Happened (World.Binds i peer epoch point) (w :: past) := by
  obtain taken | ⟨admitted, answered⟩ := isIn
  · obtain ⟨epoch, x, bound⟩ := kept.bound i
    exact ⟨epoch, _, bound.taken s there taken peer peer_lt⟩
  · obtain ⟨epoch, x, ordered, -, binds⟩ := kept.admission there admitted
    obtain ⟨call, mem, rfl⟩ := PeerCall.exists_of_ordered ordered peer_lt
    exact ⟨epoch, _, binds call mem (answered call mem)⟩

theorem Kept.lost_of_unknownEpoch (kept : Kept F domain n capacity rotation w past)
    {s : Submission} (mem : s ∈ w.world.submissions) {call : PeerCall .newRequest}
    (sent : call ∈ s.progress.admission) {leader epoch : UInt64}
    (stage : call.operation.stage = .answered (.error (.unknownEpoch leader epoch))) :
    ∃ e, call.fate = .lost e := by
  obtain ⟨i, there⟩ := List.mem_iff_getElem?.1 mem
  obtain ⟨_, x, -, admission, -⟩ :=
    kept.admission there (Progress.isAdmitted_of_mem_admission sent)
  obtain binds | ⟨e, lost, -⟩ := admission.binds call sent
  · rw [stage] at binds
    cases binds with
    | refused known => exact absurd rfl known
  · exact ⟨e, lost⟩

variable [WordSource σ]

theorem rotation_of_step (pointed : Pointed F domain n capacity w.world) (h : Step w w') :
    w'.world.deployment.rotation = w.world.deployment.rotation := by
  cases h with
  | own step =>
    obtain ⟨-, ⟨_, -, -, same, -⟩ | ⟨_, _, _, -, -, turn⟩⟩ := pointed.orderly.proper.of_step step
    · exact congrArg _ same
    · cases turn with
      | own _ leads => exact leads.rotation_eq
      | call moved => exact moved.rotation_eq
  | call | answer => rfl

theorem Kept.step (kept : Kept F domain n capacity rotation w past) (positive : 0 < rotation)
    (only : ∀ call ∈ w.others, call.1 ≠ .changePoint) (h : Step w w') :
    Kept F domain n capacity rotation w' (w :: past) where
  pointed := kept.pointed.of_step only h
  rotation_eq := (rotation_of_step kept.pointed h).trans kept.rotation_eq
  unbound i := (kept.unbound i).step kept.pointed.orderly h
  bound i := by
    obtain ⟨epoch, x, bound⟩ := kept.bound i
    exact bound.step only (kept.unbound i) kept.pointed h
  tally leader l' lane' := by
    obtain ⟨l, handed, committed, lane, gives, hands, commits⟩ := kept.pointed.laneStep h lane'
    exact (kept.tally leader l lane).step positive (kept.rotation_eq ▸ gives) hands commits

theorem Run.kept (start : Kept F domain n capacity rotation w₀ []) (positive : 0 < rotation)
    (h : Run w₀ run) (only : ∀ w ∈ run, ∀ call ∈ w.others, call.1 ≠ .changePoint) :
    run = w :: past → Kept F domain n capacity rotation w past := by
  induction h generalizing w past with
  | start =>
    intro eq
    obtain ⟨rfl, rfl⟩ := List.cons.inj eq
    exact start
  | @step v v' before _ step ih =>
    intro eq
    obtain ⟨rfl, rfl⟩ := List.cons.inj eq
    have before := ih (fun w mem => only w (List.mem_cons_of_mem _ mem)) rfl
    exact before.step positive (only v (by simp)) step

theorem Run.of_suffix (h : Run w₀ run) (suffix : w :: past <:+ run) : Run w₀ (w :: past) := by
  induction h with
  | start =>
    obtain eq | nil := List.suffix_cons_iff.1 suffix
    · exact eq ▸ .start
    · cases List.suffix_nil.1 nil
  | step run step ih =>
    obtain eq | earlier := List.suffix_cons_iff.1 suffix
    · exact eq ▸ .step run step
    · exact ih earlier

end Kept

section Start

variable {source : σ} {d : Deployment σ}

/-- A deployment starts in order, also one without servers. -/
theorem exists_pointed_start (h : Deployment.start F c n capacity rotation source = .ok d) :
    ∃ domain, (0 < n → CircuitDomain.ofCircuit F c = .ok domain) ∧
      Pointed F domain n capacity ⟨d, []⟩ := by
  obtain rfl | some := Nat.eq_zero_or_pos n
  · obtain ⟨domain, proper⟩ := World.exists_proper_start h
    have noSlot {peer leader : Nat} {slot : LeaderSlot}
        (found : slotAt? d.servers peer leader = .some slot) : False :=
      absurd (proper.fits.lt_of_slotAt? found) (Nat.not_lt_zero _)
    have noLane {leader : UInt64} {l : Lane} (lane : d.lane? leader = .some l) : False := by
      rw [Deployment.lane?, List.eq_nil_of_length_eq_zero proper.lanes_length] at lane
      cases lane
    exact ⟨domain, fun some => absurd some (Nat.lt_irrefl 0),
      ⟨proper, fun _ _ lane => (noLane lane).elim, fun _ _ _ found => (noSlot found).elim⟩,
      ⟨fun _ _ _ lane => (noLane lane).elim, fun _ mem => absurd mem List.not_mem_nil,
        fun _ mem => absurd mem List.not_mem_nil⟩,
      fun _ _ _ found => (noSlot found).elim⟩
  · obtain ⟨domain, domainOk⟩ := World.exists_domain some h
    exact ⟨domain, fun _ => domainOk, pointed_start domainOk h⟩

theorem of_start (h : Deployment.start F c n capacity rotation source = .ok d) :
    d.rotation = max rotation 1 ∧ d.lanes = List.replicate n (.fresh capacity) := by
  obtain rfl | some := Nat.eq_zero_or_pos n
  · obtain rfl := Except.ok.inj h
    exact ⟨rfl, rfl⟩
  · obtain ⟨domain, domainOk⟩ := World.exists_domain some h
    obtain rfl := Except.ok.inj ((World.start_eq domainOk).symm.trans h)
    exact ⟨rfl, rfl⟩

theorem kept_start (h : Deployment.start F c n capacity rotation source = .ok d)
    (pointed : Pointed F domain n capacity ⟨d, []⟩) :
    Kept F domain n capacity (max rotation 1) ⟨⟨d, []⟩, []⟩ [] := by
  obtain ⟨rotation_eq, lanes⟩ := of_start h
  refine ⟨pointed, rotation_eq, fun i _ _ _ _ happened => happened.elim, fun i =>
    ⟨0, 0, fun _ _ _ happened => happened.elim, fun _ _ there => ?_, fun _ there => ?_⟩,
    fun leader l lane => ?_⟩
  · cases there
  · cases there
  have none (epoch : UInt64) (i : Nat) : ¬Handed [⟨⟨d, []⟩, []⟩] leader epoch i := by
    rintro ⟨w, mem, s, there, -⟩
    obtain rfl := List.mem_singleton.1 mem
    cases there
  have empty (epoch : UInt64) (S : Finset Nat)
      (each : ∀ i ∈ S, Handed [⟨⟨d, []⟩, []⟩] leader epoch i) : S.card = 0 :=
    Finset.card_eq_zero.2 (Finset.eq_empty_of_forall_notMem fun i mem => none epoch i (each i mem))
  change d.lanes[leader.toNat]? = some l at lane
  rw [lanes] at lane
  obtain rfl := List.eq_of_mem_replicate (List.mem_of_getElem? lane)
  refine ⟨Nat.zero_le _, fun epoch i handed => absurd handed (none epoch i),
    fun epoch happened => happened.elim, fun epoch S each => ?_, fun epoch S current => ?_⟩
  · rw [empty epoch S each]
    exact Nat.zero_le _
  · cases current

end Start

/-- The discipline of evaluation points in a run among `n` servers. -/
structure Disciplined (F : Field) (c : Circuit) (n rotation : Nat) (run : List (OpenWorld σ)) :
    Prop where
  /-- What all servers took in, each of them bound. -/
  bound : ∀ w past, w :: past <:+ run → ∀ i s, w.world.submissions[i]? = some s →
    s.progress.IsIn → ∀ peer < n, ∃ epoch point,
      Happened (World.Binds i peer epoch point) (w :: past)
  /-- All that a submission is bound to is one epoch and one point. -/
  agree : ∀ i, ∃ epoch x, ∀ peer epoch' point,
    Happened (World.Binds i peer epoch' point) run →
      epoch' = epoch ∧ (CircuitDomain.ofCircuit F c).map (EvaluationPoint.ofPoint F · x) = .ok point
  share : ∀ leader epoch (S : Finset Nat), (∀ i ∈ S, Handed run leader epoch i) →
    S.card ≤ max rotation 1
  ascending : ∀ now before past, now :: before :: past <:+ run → ∀ leader epoch epoch',
    World.Commits leader epoch before.world now.world →
      Happened (World.Commits leader epoch') (before :: past) → epoch' < epoch
  /-- A server that is asked knows the epoch. -/
  known : ∀ w ∈ run, ∀ s ∈ w.world.submissions, ∀ call ∈ s.progress.admission,
    ∀ leader epoch, call.operation.stage = .answered (.error (.unknownEpoch leader epoch)) →
      ∃ e, call.fate = .lost e

section Disciplined

variable [WordSource σ] {source : σ} {d : Deployment σ} {run : List (OpenWorld σ)}

/-- However submissions interleave, whichever calls fail and whatever else the servers are called
for: as long as nobody but the coordinator announces points, they are used with discipline. -/
theorem disciplined_of_start
    (started : Deployment.start F c n capacity rotation source = .ok d)
    (h : Run ⟨⟨d, []⟩, []⟩ run) (only : ∀ w ∈ run, ∀ call ∈ w.others, call.1 ≠ .changePoint) :
    Disciplined F c n rotation run := by
  obtain ⟨domain, domainOk, pointed⟩ := exists_pointed_start started
  have kept {w : OpenWorld σ} {past : List (OpenWorld σ)} (suffix : w :: past <:+ run) :
      Kept F domain n capacity (max rotation 1) w past :=
    (h.of_suffix suffix).kept (kept_start started pointed) (Nat.le_max_right ..)
      (fun w mem => only w (suffix.mem mem)) rfl
  have placed {w : OpenWorld σ} (mem : w ∈ run) {s : Submission}
      (there : s ∈ w.world.submissions) (underWay : s.progress.isUnderWay) :
      s.leader.toNat < n := by
    obtain ⟨before, past, rfl⟩ := List.mem_iff_append.1 mem
    exact (((kept (List.suffix_append ..)).pointed.orderly.proper.submissions s there).placed
      underWay).1
  constructor
  case bound =>
    intro w past suffix i s there isIn peer peer_lt
    exact (kept suffix).binds_of_isIn there isIn peer_lt
  case agree =>
    intro i
    cases run with
    | nil => exact ⟨0, 0, fun _ _ _ happened => happened.elim⟩
    | cons w past =>
      obtain ⟨epoch, x, bound⟩ := (kept (List.suffix_refl _)).bound i
      refine ⟨epoch, x, fun peer epoch' point happened => ?_⟩
      obtain ⟨rfl, rfl⟩ := bound.only peer epoch' point happened
      obtain ⟨before, mem, now, -, binds⟩ := happened.exists_mem
      obtain ⟨s, there, admitted⟩ := binds.admitted_before
      have leader_lt :=
        placed mem (List.mem_of_getElem? there) (Progress.isUnderWay_of_isAdmitted admitted)
      rw [domainOk (Nat.zero_lt_of_lt leader_lt)]
      exact ⟨rfl, rfl⟩
  case share =>
    intro leader epoch S each
    obtain rfl | ⟨i, mem⟩ := S.eq_empty_or_nonempty
    · exact Nat.zero_le _
    obtain ⟨w, among, s, there, rfl, call, sent, -⟩ := each i mem
    have leader_lt := placed among (List.mem_of_getElem? there)
      (Progress.isUnderWay_of_isAdmitted (Progress.isAdmitted_of_mem_admission sent))
    cases run with
    | nil => cases among
    | cons w past =>
      have kept := kept (List.suffix_refl (w :: past))
      obtain ⟨l, lane⟩ := kept.pointed.exists_lane leader_lt
      exact (kept.tally s.leader l lane).share epoch S each
  case ascending =>
    intro now before past suffix leader epoch epoch' commits earlier
    have suffix' := (List.suffix_cons now (before :: past)).trans suffix
    obtain ⟨i, s, s', calls, there, -, rfl, turning, -⟩ := id commits
    have leader_lt := placed (suffix'.mem List.mem_cons_self) (List.mem_of_getElem? there)
      (by rw [turning]; rfl)
    obtain ⟨l', lane'⟩ := (kept suffix).pointed.exists_lane leader_lt
    cases h.of_suffix suffix with
    | step _ step =>
      obtain ⟨l, handed, committed, lane, gives, -, commits'⟩ :=
        (kept suffix').pointed.laneStep step lane'
      have tally := (kept suffix').tally s.leader l lane
      obtain ⟨current, kept', le⟩ := tally.committed_le epoch' earlier
      have eq := commits' epoch commits
      cases gives with
      | anew i newer =>
        obtain rfl := Option.some.inj eq
        exact UInt64.lt_of_le_of_lt le (newer current kept')
      | nothing | again => cases eq
  case known =>
    intro w mem s there call sent leader epoch stage
    obtain ⟨before, past, rfl⟩ := List.mem_iff_append.1 mem
    exact (kept (List.suffix_append ..)).lost_of_unknownEpoch there sent stage

theorem exists_run {admits : Submission → Prop} {w₀ w : World σ}
    (h : World.Reaches admits w₀ w) :
    ∃ past : List (OpenWorld σ), Run ⟨w₀, []⟩ (⟨w, []⟩ :: past) ∧
      ∀ v ∈ (⟨w, []⟩ : OpenWorld σ) :: past, v.others = [] := by
  induction h with
  | refl => exact ⟨[], .start, fun v mem => by rw [List.mem_singleton.1 mem]⟩
  | @tail w w' _ step ih =>
    obtain ⟨past, run, alone⟩ := ih
    have step : World.Step (fun _ => True) w w' := by
      cases step with
      | arrive start => exact .arrive start trivial
      | move present step => exact .move present step
    refine ⟨⟨w, []⟩ :: past, run.step (.own step), fun v mem => ?_⟩
    obtain rfl | mem := List.mem_cons.1 mem
    · rfl
    · exact alone v mem

end Disciplined

/-- A run in which all servers take a submission in, after another failed as it announced the first
evaluation point. -/
theorem disciplined_bit : ∃ (d : Deployment ChaCha20) (w : OpenWorld ChaCha20)
    (past : List (OpenWorld ChaCha20)) (s₀ s : Submission) (e : ServerError),
    Deployment.start .seventeen Checker.bit 3 1 4 (.ofKey ⟨Vector.replicate 32 0⟩) = .ok d ∧
      Run ⟨⟨d, []⟩, []⟩ (w :: past) ∧ w.world.submissions = [s₀, s] ∧
      s₀.progress = .returned (.error e) ∧ s.progress.IsIn ∧
      Disciplined .seventeen Checker.bit 3 4 (w :: past) := by
  obtain ⟨d, w₁, s₀, s, e, seed, started, before, both, failed, unique, choosing, reliable, ready,
    sent⟩ := World.exists_choosing_after_bit false
  obtain ⟨w, v, after, length, present, -⟩ := World.exists_accepted Checker.wellFormed_bit
    Nat.one_pos started (fun _ => id) before (by rw [both]; rfl) choosing reliable unique
    (ready.2 rfl) sent (Checker.check_bit true)
  have first : w.submissions[0]? = some s₀ :=
    after.getElem?_of_returned (by rw [both]; rfl) failed
  rw [both] at length
  obtain ⟨s₁, s₂, eq⟩ := List.length_eq_two.1 length
  rw [eq] at first present
  obtain rfl := Option.some.inj first
  obtain rfl := Option.some.inj present
  obtain ⟨past, run, idle⟩ := exists_run (before.trans after)
  refine ⟨d, _, past, _, _, e, started, run, eq, failed, .inl rfl,
    disciplined_of_start started run fun w mem call other => ?_⟩
  rw [idle w mem] at other
  cases other

end OpenWorld

end PrivateSums
