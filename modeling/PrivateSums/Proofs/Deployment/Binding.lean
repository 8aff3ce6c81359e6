import PrivateSums.Proofs.Deployment.Callers
import PrivateSums.Proofs.Deployment.Epochs

/-!
The point that a server binds a request to, when nobody but the coordinator announces points. None
is announced for a leader while one of its requests is taken in, and so the servers bind it to the
point that they had of its epoch when it was handed out.
-/

namespace PrivateSums

/-- Whether the older of two points is of an earlier epoch. -/
def EvaluationPoints.Ascending (p : EvaluationPoints) : Prop :=
  ∀ previous ∈ p.previous, ∃ current ∈ p.current, previous.1 < current.1

theorem EvaluationPoints.ascending_of_rotate {p p' : EvaluationPoints} {epoch : UInt64}
    {point : EvaluationPoint} (h : p.rotate epoch point = .ok p') : p'.Ascending := by
  obtain ⟨behind, rfl⟩ := rotate_eq_ok_iff.1 h
  intro previous kept
  refine ⟨_, rfl, behind previous.1 ?_⟩
  rw [currentEpoch?, show p.current = some previous from kept]
  rfl

/-- A later point than that of an epoch is of a later epoch. -/
theorem EvaluationPoints.Holds.le_of_ascending {p : EvaluationPoints} {epoch current : UInt64}
    {point point' : EvaluationPoint} (holds : p.Holds epoch point) (ascending : p.Ascending)
    (newest : p.current = some (current, point')) : epoch ≤ current := by
  cases holds with
  | newest here =>
    obtain ⟨rfl, -⟩ := Prod.mk.inj (Option.some.inj (here.symm.trans newest))
    exact UInt64.le_refl _
  | next here kept =>
    obtain ⟨top, mem, lt⟩ := ascending _ kept
    obtain rfl := Option.some.inj (newest.symm.trans mem)
    exact UInt64.le_of_lt lt

/-- Points change in no other way than by a rotation. -/
theorem Server.rotates_stepSlot {server : Server} {slot slot' : LeaderSlot} {c : Call}
    {m : c.Message} {stage stage' : Stage c}
    (h : server.stepSlot slot m stage = some (slot', stage')) : slot'.points = slot.points ∨
      ∃ epoch point, slot.points.rotate epoch point = .ok slot'.points := by
  by_cases kind : c = .changePoint
  · subst kind
    cases stage with
    | called =>
      obtain ⟨rfl, -⟩ := Prod.mk.inj (Option.some.inj h)
      exact .inl rfl
    | computed point =>
      simp only [stepSlot, LeaderSlot.stepChangePoint] at h
      split at h <;> obtain ⟨rfl, -⟩ := Prod.mk.inj (Option.some.inj h)
      · exact .inl rfl
      · exact .inr ⟨_, _, ‹_›⟩
    | releasing | leaving =>
      obtain ⟨rfl, -⟩ := Prod.mk.inj (Option.some.inj h)
      exact .inl rfl
    | answered => cases h
  · exact .inl (points_stepSlot kind h)

/-- What has answered takes no more steps. -/
theorem Server.answer?_eq_none_of_stepSlot {server : Server} {slot slot' : LeaderSlot} {c : Call}
    {m : c.Message} {stage stage' : Stage c}
    (h : server.stepSlot slot m stage = some (slot', stage')) : stage.answer? = none := by
  have less := remaining_stepSlot h
  cases stage with
  | answered => exact absurd less (Nat.not_lt_zero _)
  | _ => rfl

/-- A call that announces nothing leaves all points as they are, whoever makes it. -/
theorem PeerCall.points_of_step {c : Call} {call call' : PeerCall c} {F : Field}
    {domain : CircuitDomain} {n : Nat} {servers servers' : List Server}
    (fits : Fits F domain n servers) (other : c ≠ .changePoint)
    (h : call.step servers = some (servers', call')) (peer leader : Nat) (slot' : LeaderSlot)
    (found : slotAt? servers' peer leader = some slot') :
    ∃ slot, slotAt? servers peer leader = some slot ∧ slot'.points = slot.points := by
  obtain ⟨slot, there, rfl | ⟨server, m, stage, stage', moves⟩⟩ :=
    (slots_of_step fits h).2 peer leader slot' found
  · exact ⟨_, there, rfl⟩
  · exact ⟨slot, there, Server.points_stepSlot other moves⟩

/-- Whether a server refuses a request because it does not know its epoch. -/
def ServerError.isUnknownEpoch : ServerError → Bool
  | .unknownEpoch .. => true
  | _ => false

/-- How far a server is in taking a request in at a point. It does not refuse it for its epoch. -/
inductive Stage.Binds (point : EvaluationPoint) : Stage .newRequest → Prop
  | called : Binds point .called
  | bound : Binds point (.bound point)
  | unused : Binds point (.unused point)
  | permitted : Binds point (.permitted point)
  | loading (k : Checker) : Binds point (.loading point k)
  | loaded (k : Checker) : Binds point (.loaded point k)
  | releasing (k : Checker) {e : ServerError} (known : ¬e.isUnknownEpoch) :
      Binds point (.releasing k (.error e))
  | leaving {e : ServerError} (known : ¬e.isUnknownEpoch) : Binds point (.leaving (.error e))
  | refused {e : ServerError} (known : ¬e.isUnknownEpoch) : Binds point (.answered (.error e))
  | taken : Binds point (.answered (.ok ()))

section StepSlot

variable {server : Server} {slot slot' : LeaderSlot} {m : NewRequest} {point : EvaluationPoint}
  {stage stage' : Stage .newRequest}

theorem Server.binds_stepSlot
    (h : server.stepSlot (c := .newRequest) slot m stage = some (slot', stage'))
    (binds : stage.Binds point) (holds : slot.points.Holds m.epoch point) :
    stage'.Binds point := by
  cases binds with
  | called =>
    simp only [stepSlot, LeaderSlot.stepNewRequest, holds.get?] at h
    obtain ⟨-, rfl⟩ := Prod.mk.inj (Option.some.inj h)
    exact .bound
  | bound =>
    simp only [stepSlot, LeaderSlot.stepNewRequest] at h
    split at h <;> obtain ⟨-, rfl⟩ := Prod.mk.inj (Option.some.inj h)
    · exact .refused Bool.false_ne_true
    · exact .unused
  | unused =>
    obtain ⟨pool, -, h⟩ := Option.map_eq_some_iff.1 h
    obtain ⟨-, rfl⟩ := Prod.mk.inj h
    exact .permitted
  | permitted =>
    simp only [stepSlot, LeaderSlot.stepNewRequest] at h
    split at h <;> obtain ⟨-, rfl⟩ := Prod.mk.inj (Option.some.inj h)
    · rename_i e closed
      refine .leaving ?_
      unfold CheckerPool.takeChecker at closed
      split at closed <;> cases closed
      exact Bool.false_ne_true
    · exact .loading _
  | loading k =>
    simp only [stepSlot, LeaderSlot.stepNewRequest] at h
    split at h <;> obtain ⟨-, rfl⟩ := Prod.mk.inj (Option.some.inj h)
    · exact .releasing _ Bool.false_ne_true
    · exact .loaded _
  | loaded k =>
    simp only [stepSlot, LeaderSlot.stepNewRequest] at h
    split at h <;> obtain ⟨-, rfl⟩ := Prod.mk.inj (Option.some.inj h)
    · exact .releasing _ Bool.false_ne_true
    · exact .taken
  | releasing k known =>
    obtain ⟨-, rfl⟩ := Prod.mk.inj (Option.some.inj h)
    exact .leaving known
  | leaving known =>
    obtain ⟨-, rfl⟩ := Prod.mk.inj (Option.some.inj h)
    exact .refused known
  | refused | taken => cases h

/-- When a server says that it took a request in, the request is pending there at the point. -/
theorem Server.pending_of_stepSlot
    (h : server.stepSlot (c := .newRequest) slot m stage = some (slot', .answered (.ok ())))
    (binds : stage.Binds point) : ∃ k, slot'.pending.find? m.id = some ⟨k, point⟩ := by
  cases binds with
  | loaded k =>
    simp only [stepSlot, LeaderSlot.stepNewRequest] at h
    split at h
    · cases h
    · obtain ⟨rfl, -⟩ := Prod.mk.inj (Option.some.inj h)
      exact ⟨k, PendingRequests.find?_insert_self ..⟩
  | called | bound | permitted | loading =>
    simp only [stepSlot, LeaderSlot.stepNewRequest] at h
    split at h <;> cases h
  | unused =>
    obtain ⟨pool, -, h⟩ := Option.map_eq_some_iff.1 h
    cases h
  | releasing | leaving | refused | taken => cases h

end StepSlot

theorem Submission.epoch_of_mem_handing (s : Submission) {n : Nat} {epoch : UInt64}
    {call : PeerCall .newRequest} (mem : call ∈ s.handing n epoch) :
    call.operation.message.epoch = epoch := by
  obtain ⟨peer, request, -, -, rfl⟩ := exists_of_mem_handing mem
  rfl

namespace World

variable {σ : Type} {F : Field} {domain : CircuitDomain} {n capacity : Nat}

/-- An admission: all servers are asked for the same epoch, and have the point to bind it to. -/
structure Admission (d : Deployment σ) (leader epoch : UInt64) (point : EvaluationPoint)
    (calls : List (PeerCall .newRequest)) : Prop where
  asks : ∀ call ∈ calls, call.operation.message.epoch = epoch
  binds : ∀ call ∈ calls, call.operation.stage.Binds point ∨
    ∃ e, call.fate = .lost e ∧ call.operation.stage = .answered (.error e)
  holds : ∀ peer slot, slotAt? d.servers peer leader.toNat = some slot →
    slot.points.Holds epoch point

section Admission

variable {d d' : Deployment σ} {s : Submission} {leader epoch : UInt64} {point : EvaluationPoint}

theorem admission_handing
    (holds : ∀ peer slot, slotAt? d.servers peer s.leader.toNat = some slot →
      slot.points.Holds epoch point) :
    Admission d s.leader epoch point (s.handing n epoch) := by
  refine ⟨fun call mem => s.epoch_of_mem_handing mem, fun call mem => ?_, holds⟩
  obtain ⟨peer, request, -, -, rfl⟩ := Submission.exists_of_mem_handing mem
  dsimp only [PeerCall.start]
  split
  · exact .inr ⟨_, ‹_›, rfl⟩
  · exact .inl .called

theorem Admission.frame {calls : List (PeerCall .newRequest)}
    (h : Admission d leader epoch point calls)
    (points : ∀ peer slot', slotAt? d'.servers peer leader.toNat = some slot' →
      ∃ slot, slotAt? d.servers peer leader.toNat = some slot ∧ slot'.points = slot.points) :
    Admission d' leader epoch point calls := by
  refine ⟨h.asks, h.binds, fun peer slot' there => ?_⟩
  obtain ⟨slot, there, same⟩ := points peer slot' there
  exact same ▸ h.holds peer slot there

/-- A server that has not answered yet is on its way to bind the request. -/
theorem Admission.binds_of_step {calls : List (PeerCall .newRequest)} {j : Nat}
    {call : PeerCall .newRequest} {server : Server} {slot slot' : LeaderSlot}
    {stage' : Stage .newRequest} (h : Admission d s.leader epoch point calls)
    (moved : s.CallStep F domain d d' Progress.admitting calls j call server slot slot' stage') :
    call.operation.stage.Binds point := by
  obtain binds | ⟨e, -, stage⟩ := h.binds call (List.mem_of_getElem? moved.present)
  · exact binds
  · have step := moved.step
    rw [stage] at step
    cases step

theorem Admission.of_call {calls : List (PeerCall .newRequest)} {j : Nat}
    {call : PeerCall .newRequest} {server : Server} {slot slot' : LeaderSlot}
    {stage' : Stage .newRequest} (h : Admission d s.leader epoch point calls)
    (moved : s.CallStep F domain d d' Progress.admitting calls j call server slot slot' stage') :
    Admission d' s.leader epoch point (calls.set j (call.withStage stage')) := by
  have mem := List.mem_of_getElem? moved.present
  refine ⟨fun other mem' => ?_, fun other mem' => ?_, fun peer slot₁ there => ?_⟩
  · obtain rfl | ⟨_, -, there⟩ := of_mem_set mem'
    · exact h.asks call mem
    · exact h.asks other (List.mem_of_getElem? there)
  · obtain rfl | ⟨_, -, there⟩ := of_mem_set mem'
    · refine .inl (Server.binds_stepSlot moved.step (h.binds_of_step moved) ?_)
      rw [h.asks call mem]
      exact h.holds _ slot moved.found
    · exact h.binds other (List.mem_of_getElem? there)
  · obtain ⟨slot₀, there₀, -, same⟩ := moved.exists_slot there
    exact same (fun _ => Call.noConfusion) ▸ h.holds peer slot₀ there₀

end Admission

/-- Announcements are not disturbed by what changes neither lanes nor points. -/
theorem Announced.of_points {w : World σ} (announced : w.Announced F domain) {d' : Deployment σ}
    (lanes : d'.lanes = w.deployment.lanes) (rotation : d'.rotation = w.deployment.rotation)
    (points : ∀ peer leader slot', slotAt? d'.servers peer leader = some slot' →
      ∃ slot, slotAt? w.deployment.servers peer leader = some slot ∧
        slot'.points = slot.points) :
    World.Announced F domain ⟨d', w.submissions⟩ := by
  have lane (leader : UInt64) : d'.lane? leader = w.deployment.lane? leader := by
    rw [Deployment.lane?, Deployment.lane?, lanes]
  refine ⟨fun leader l epoch found current => ?_, fun s mem epoch start => ?_,
    fun s mem epoch calls start => ?_⟩
  · obtain ⟨x, holds⟩ := announced.committed leader l epoch ((lane leader).symm.trans found) current
    refine ⟨x, fun peer slot' there => ?_⟩
    obtain ⟨slot, there, same⟩ := points peer leader.toNat slot' there
    exact same ▸ holds peer slot there
  · obtain ⟨l, found, due⟩ := announced.drains s mem epoch start
    exact ⟨l, (lane _).trans found, by rw [← due, ← rotation]⟩
  · refine (announced.rotates s mem epoch calls start).frame rotation (fun l found => ?_)
      fun peer slot' there => points peer _ slot' there
    exact ⟨l, (lane _).trans found, rfl, rfl, Nat.le_refl _⟩

end World

namespace OpenWorld

variable {σ : Type} {F : Field} {c : Circuit} {domain : CircuitDomain} {n capacity rotation : Nat}
  {source : σ} {d : Deployment σ}

/-- What stays in order as long as only the coordinator announces points. -/
structure Pointed (F : Field) (domain : CircuitDomain) (n capacity : Nat) (w : World σ) :
    Prop where
  orderly : Orderly F domain n capacity w
  announced : w.Announced F domain
  ascending : ∀ peer leader slot, slotAt? w.deployment.servers peer leader = some slot →
    slot.points.Ascending

theorem pointed_start (domainOk : CircuitDomain.ofCircuit F c = .ok domain)
    (h : Deployment.start F c n capacity rotation source = .ok d) :
    Pointed F domain n capacity ⟨d, []⟩ := by
  refine ⟨orderly_start domainOk h, World.announced_start domainOk h,
    fun peer leader slot found => ?_⟩
  rw [World.eq_fresh_of_start domainOk h found]
  intro previous kept
  cases kept

section Step

variable [WordSource σ] {w w' : OpenWorld σ}

/-- A step of anybody is a step on at most one slot. -/
theorem Orderly.slots_of_step (orderly : Orderly F domain n capacity w.world) (h : Step w w')
    {peer leader : Nat} {slot' : LeaderSlot}
    (found : slotAt? w'.world.deployment.servers peer leader = some slot') :
    ∃ slot, slotAt? w.world.deployment.servers peer leader = some slot ∧ (slot' = slot ∨
      ∃ (c : Call) (server : Server) (m : c.Message) (stage stage' : Stage c),
        server.stepSlot slot m stage = some (slot', stage')) := by
  cases h with
  | own step =>
    obtain ⟨-, ⟨s, -, -, same, -⟩ | ⟨i, s, s', -, -, turn⟩⟩ := orderly.proper.of_step step
    · exact ⟨slot', same ▸ found, .inl rfl⟩
    · cases turn with
      | own _ leads => exact ⟨slot', leads.servers_eq ▸ found, .inl rfl⟩
      | call moved =>
        rw [moved.slots] at found
        split at found
        · rename_i place
          obtain ⟨rfl, rfl⟩ := place
          obtain rfl := Option.some.inj found
          exact ⟨_, moved.found, .inr ⟨_, _, _, _, _, moved.step⟩⟩
        · exact ⟨slot', found, .inl rfl⟩
  | call => exact ⟨slot', found, .inl rfl⟩
  | answer _ step =>
    obtain ⟨slot, there, rfl | ⟨server, m, stage, stage', moves⟩⟩ :=
      (PeerCall.slots_of_step orderly.proper.fits step).2 peer leader slot' found
    · exact ⟨_, there, .inl rfl⟩
    · exact ⟨slot, there, .inr ⟨_, server, m, stage, stage', moves⟩⟩

variable (only : ∀ call ∈ w.others, call.1 ≠ .changePoint)

include only in
theorem Pointed.of_step (pointed : Pointed F domain n capacity w.world) (h : Step w w') :
    Pointed F domain n capacity w'.world := by
  refine ⟨pointed.orderly.of_step h, ?_, fun peer leader slot' found => ?_⟩
  · cases h with
    | own step =>
      exact pointed.announced.of_step pointed.orderly.proper pointed.orderly.counted step
    | call => exact pointed.announced
    | answer present step =>
      exact pointed.announced.of_points rfl rfl (PeerCall.points_of_step
        pointed.orderly.proper.fits (only _ (List.mem_of_getElem? present)) step)
  · obtain ⟨slot, there, rfl | ⟨c, server, m, stage, stage', moves⟩⟩ :=
      pointed.orderly.slots_of_step h found
    · exact pointed.ascending peer leader _ there
    · obtain same | ⟨epoch, point, rotated⟩ := Server.rotates_stepSlot moves
      · exact same ▸ pointed.ascending peer leader slot there
      · exact EvaluationPoints.ascending_of_rotate rotated

include only in
/-- While a request of a leader is taken in, the points of that leader stay. -/
theorem Pointed.points_of_admitted (pointed : Pointed F domain n capacity w.world) (h : Step w w')
    {s : Submission} (mem : s ∈ w.world.submissions) (admitted : s.progress.isAdmitted)
    (peer : Nat) (slot' : LeaderSlot)
    (found : slotAt? w'.world.deployment.servers peer s.leader.toNat = some slot') :
    ∃ slot, slotAt? w.world.deployment.servers peer s.leader.toNat = some slot ∧
      slot'.points = slot.points := by
  cases h with
  | own step =>
    obtain ⟨-, ⟨_, -, -, same, -⟩ | ⟨i, s', s'', present, -, turn⟩⟩ :=
      pointed.orderly.proper.of_step step
    · exact ⟨slot', same ▸ found, rfl⟩
    · cases turn with
      | own _ leads => exact ⟨slot', leads.servers_eq ▸ found, rfl⟩
      | call moved =>
        obtain ⟨slot, there, -, same⟩ := moved.exists_slot found
        refine ⟨slot, there, same fun leads => ?_⟩
        exact pointed.announced.ne_changePoint pointed.orderly.counted mem admitted
          (List.mem_of_getElem? present) leads moved
  | call => exact ⟨slot', found, rfl⟩
  | answer present step =>
    exact PeerCall.points_of_step pointed.orderly.proper.fits
      (only _ (List.mem_of_getElem? present)) step _ _ _ found

end Step

end OpenWorld

end PrivateSums
