import PrivateSums.Proofs.Deployment.EvaluationPoints
import PrivateSums.Proofs.Deployment.Pending

/-!
The epochs of a lane and the evaluation points of the servers. Whatever announcements fail, every
server has the point of the epoch that a lane gives out, and all have the same.
-/

namespace PrivateSums

namespace EvaluationPoints

variable {p p' : EvaluationPoints} {epoch : UInt64} {point point' : EvaluationPoint}

/-- Whether the point of an epoch is the newest one, or the newest but that of the next epoch. -/
inductive Holds (epoch : UInt64) (point : EvaluationPoint) (p : EvaluationPoints) : Prop
  | newest (current : p.current = some (epoch, point))
  | next {point' : EvaluationPoint} (current : p.current = some (epoch + 1, point'))
      (previous : p.previous = some (epoch, point))

theorem succ_ne (epoch : UInt64) : epoch ≠ epoch + 1 := by simp

theorem Holds.get? (h : p.Holds epoch point) : p.get? epoch = some point := by
  cases h with
  | newest current => simp [EvaluationPoints.get?, current]
  | next current previous =>
    simp [EvaluationPoints.get?, current, previous, List.lookup_cons,
      beq_false_of_ne (succ_ne epoch)]

/-- The point of the next epoch leaves that of this one in place. -/
theorem Holds.rotate (h : p.Holds epoch point) (rotated : p.rotate (epoch + 1) point' = .ok p') :
    p'.Holds epoch point := by
  obtain ⟨behind, rfl⟩ := rotate_eq_ok_iff.1 rotated
  cases h with
  | newest current => exact .next rfl current
  | next current =>
    exact absurd (behind (epoch + 1) (by simp [currentEpoch?, current])) (UInt64.lt_irrefl _)

end EvaluationPoints

/-- How far an announcement is on a server, and what the server has when it has taken it. -/
inductive Stage.Announces (epoch : UInt64) (point : EvaluationPoint) (p : EvaluationPoints) :
    Stage .changePoint → Prop
  | called : Announces epoch point p .called
  | computed : Announces epoch point p (.computed point)
  | refused (e : ServerError) : Announces epoch point p (.answered (.error e))
  | taken (current : p.current = some (epoch, point)) : Announces epoch point p (.answered (.ok ()))

theorem Server.announces_stepSlot {server : Server} {slot slot' : LeaderSlot} {m : ChangePoint}
    {stage stage' : Stage .changePoint}
    (h : server.stepSlot (c := .changePoint) slot m stage = some (slot', stage'))
    (announces : stage.Announces m.epoch (.ofPoint server.field server.domain m.x) slot.points) :
    stage'.Announces m.epoch (.ofPoint server.field server.domain m.x) slot'.points ∧
      (slot'.points = slot.points ∨ slot.points.rotate m.epoch
        (.ofPoint server.field server.domain m.x) = .ok slot'.points) := by
  cases announces with
  | called =>
    obtain ⟨rfl, rfl⟩ := Prod.mk.inj (Option.some.inj h)
    exact ⟨.computed, .inl rfl⟩
  | computed =>
    simp only [stepSlot, LeaderSlot.stepChangePoint] at h
    split at h <;> obtain ⟨rfl, rfl⟩ := Prod.mk.inj (Option.some.inj h)
    · exact ⟨.refused _, .inl rfl⟩
    · rename_i points rotated
      obtain ⟨-, rfl⟩ := EvaluationPoints.rotate_eq_ok_iff.1 rotated
      exact ⟨.taken rfl, .inr rotated⟩
  | refused | taken => cases h

/-- Only announcements change evaluation points. -/
theorem Server.points_stepSlot {server : Server} {slot slot' : LeaderSlot} {c : Call}
    {m : c.Message} {stage stage' : Stage c} (other : c ≠ .changePoint)
    (h : server.stepSlot slot m stage = some (slot', stage')) : slot'.points = slot.points := by
  have moves : slot.Moves ((c.id? m).getD 0) stage slot' stage' :=
    moves_stepSlot (fun i mem => by rw [mem]; rfl) h
  cases moves with
  | rotate => exact absurd rfl other
  | _ => rfl

/-- What a lane keeps while others than the submission that is being given its epoch go on. -/
structure Lane.Keeps (l l' : Lane) : Prop where
  epoch_eq : l'.epoch = l.epoch
  given_eq : l'.given = l.given
  admissions_le : l'.admissions ≤ l.admissions

theorem Lane.Keeps.due {l l' : Lane} (h : l.Keeps l') (rotation : Nat) :
    l'.dueEpoch? rotation = l.dueEpoch? rotation := by
  rw [dueEpoch?, dueEpoch?, h.epoch_eq, h.given_eq]

namespace Submission

variable {σ : Type} {d d' : Deployment σ} {s : Submission} {f : Lane → Lane} {p' : Progress}

theorem Proceeds.keeps (h : s.Proceeds d f p') (free : ¬s.progress.isGiven) {l : Lane}
    (lane : d.lane? s.leader = some l) : l.Keeps (f l) := by
  cases h with
  | drain start | give start | rotate _ start | rotationFails start | rotated start =>
    rw [start] at free
    exact absurd rfl free
  | @enter l₀ l' start lane' entered =>
    obtain rfl := Option.some.inj (lane'.symm.trans lane)
    unfold Lane.enter? at entered
    split at entered <;> cases entered
    exact ⟨rfl, rfl, Nat.le_refl _⟩
  | admissionFails | admitted => exact ⟨rfl, rfl, Nat.sub_le ..⟩
  | refuse | queue | choose | evaluationFails | evaluated | finalFails | finalised | verdictFails
  | decided | aborted | leave => exact ⟨rfl, rfl, Nat.le_refl _⟩

/-- What one step of another submission leaves on a slot. -/
theorem CallStep.exists_slot {F : Field} {domain : CircuitDomain} {c : Call}
    {await : List (PeerCall c) → Progress} {calls : List (PeerCall c)} {i : Nat}
    {call : PeerCall c} {server : Server} {slot slot' : LeaderSlot} {stage' : Stage c}
    (h : CallStep F domain d s d' await calls i call server slot slot' stage') {leader : UInt64}
    {peer : Nat} {slot₁ : LeaderSlot} (there : slotAt? d'.servers peer leader.toNat = some slot₁) :
    ∃ slot₀, slotAt? d.servers peer leader.toNat = some slot₀ ∧
      (∀ id, (leader = s.leader → id ≠ s.id) →
        slot₁.pending.find? id = slot₀.pending.find? id) ∧
      ((leader = s.leader → c ≠ .changePoint) → slot₁.points = slot₀.points) := by
  rw [h.slots] at there
  split at there
  · rename_i place
    obtain ⟨rfl, same⟩ := place
    obtain rfl := UInt64.toNat_inj.1 same
    obtain rfl := Option.some.inj there
    exact ⟨slot, h.found, fun id other => h.moves.find?_ne (other rfl),
      fun other => Server.points_stepSlot (other rfl) h.step⟩
  · exact ⟨slot₁, there, fun _ _ => rfl, fun _ => rfl⟩

/-- An epoch is new only after a rotation that all servers took. -/
theorem Proceeds.epoch (h : s.Proceeds d f p') {l : Lane} (lane : d.lane? s.leader = some l) :
    (f l).epoch = l.epoch ∨ ∃ epoch calls answers replies, s.progress = .rotating epoch calls ∧
      PeerCall.answers? calls = some answers ∧ allReplies answers = .ok replies ∧
      (f l).epoch = some epoch := by
  by_cases given : s.progress.isGiven
  · cases h with
    | rotated start answered replied => exact .inr ⟨_, _, _, _, start, answered, replied, rfl⟩
    | drain | give | rotate | rotationFails => exact .inl rfl
    | refuse start | queue start | enter start | choose start | admissionFails start
    | admitted start | evaluationFails start | evaluated _ start | finalFails start
    | finalised start | verdictFails start | decided start | aborted start | leave start =>
      rw [start] at given
      cases given
  · exact .inl (h.keeps given lane).epoch_eq

end Submission

namespace World

variable {σ : Type} {F : Field} {c : Circuit} {domain : CircuitDomain} {n capacity : Nat}

/-- How far a rotation is: it is due, nothing is being admitted meanwhile, and the servers that
took it have its point. -/
structure Rotates (F : Field) (domain : CircuitDomain) (d : Deployment σ) (leader epoch : UInt64)
    (calls : List (PeerCall .changePoint)) : Prop where
  due : ∃ l, d.lane? leader = some l ∧ l.dueEpoch? d.rotation = some epoch ∧ l.admissions = 0
  announces : ∃ x, ∀ call ∈ calls, call.operation.message = { leader, epoch, x } ∧
    ∀ slot, slotAt? d.servers call.peer leader.toNat = some slot →
      call.operation.stage.Announces epoch (.ofPoint F domain x) slot.points

/-- A rotation is not disturbed by what changes neither the epoch nor the points of its leader. -/
theorem Rotates.frame {d d' : Deployment σ} {leader epoch : UInt64}
    {calls : List (PeerCall .changePoint)} (h : Rotates F domain d leader epoch calls)
    (rotation : d'.rotation = d.rotation)
    (lane : ∀ l, d.lane? leader = some l → ∃ l', d'.lane? leader = some l' ∧ l.Keeps l')
    (points : ∀ peer slot', slotAt? d'.servers peer leader.toNat = some slot' →
      ∃ slot, slotAt? d.servers peer leader.toNat = some slot ∧ slot'.points = slot.points) :
    Rotates F domain d' leader epoch calls := by
  obtain ⟨⟨l, found, due, calm⟩, x, announces⟩ := h
  obtain ⟨l', found', keeps⟩ := lane l found
  refine ⟨⟨l', found', by rw [rotation, keeps.due, due], ?_⟩, x, fun call mem => ?_⟩
  · have := keeps.admissions_le
    omega
  · refine ⟨(announces call mem).1, fun slot' there => ?_⟩
    obtain ⟨slot, there, same⟩ := points call.peer slot' there
    exact same ▸ (announces call mem).2 slot there

structure Announced (F : Field) (domain : CircuitDomain) (w : World σ) : Prop where
  committed : ∀ leader l epoch, w.deployment.lane? leader = some l → l.epoch = some epoch →
    ∃ x, ∀ peer slot, slotAt? w.deployment.servers peer leader.toNat = some slot →
      slot.points.Holds epoch (.ofPoint F domain x)
  drains : ∀ s ∈ w.submissions, ∀ epoch, s.progress = .draining epoch →
    ∃ l, w.deployment.lane? s.leader = some l ∧ l.dueEpoch? w.deployment.rotation = some epoch
  rotates : ∀ s ∈ w.submissions, ∀ epoch calls, s.progress = .rotating epoch calls →
    Rotates F domain w.deployment s.leader epoch calls

/-- When all answers to an announcement are favourable, every server has the point. -/
theorem Rotates.holds {d : Deployment σ} {leader epoch : UInt64}
    {calls : List (PeerCall .changePoint)} (h : Rotates F domain d leader epoch calls)
    (fits : Fits F domain n d.servers) (ordered : calls.map (·.peer) = List.range n)
    {answers : List (Except ServerError Unit)} {replies : List Unit}
    (answered : PeerCall.answers? calls = some answers)
    (replied : allReplies answers = .ok replies) :
    ∃ x, (∀ call ∈ calls, call.operation.message.x = x) ∧
      ∀ peer slot, slotAt? d.servers peer leader.toNat = some slot →
        slot.points.current = some (epoch, .ofPoint F domain x) := by
  obtain ⟨-, x, announces⟩ := h
  refine ⟨x, fun call mem => by rw [(announces call mem).1], fun peer slot found => ?_⟩
  obtain ⟨call, mem, rfl⟩ := PeerCall.exists_of_ordered ordered (fits.lt_of_slotAt? found)
  obtain ⟨reply, stage⟩ := PeerCall.stage_of_allReplies answered replied ordered mem
  have announces := (announces call mem).2 slot found
  rw [stage] at announces
  cases announces with
  | taken current => exact current

section Step

variable {w : World σ}

/-- While a submission is being given its epoch, the others of its leader leave the lane's. -/
theorem Counted.keeps (counted : w.Counted capacity) {i j : Nat} {s s₀ : Submission}
    (present : w.submissions[i]? = some s) {d' : Deployment σ} {f : Lane → Lane} {p' : Progress}
    (proceeds : s.Proceeds w.deployment f p') (leads : Submission.Leads w.deployment d' s f)
    (ne : j ≠ i) (there : w.submissions[j]? = some s₀) (given : s₀.progress.isGiven) {l : Lane}
    (lane : w.deployment.lane? s₀.leader = some l) :
    ∃ l', d'.lane? s₀.leader = some l' ∧ l.Keeps l' := by
  refine ⟨_, by rw [leads.lane?, lane, Option.map_some], ?_⟩
  split
  · rename_i same
    refine proceeds.keeps (fun given' => ne ?_) (same ▸ lane)
    exact counted.eq_of_given there present same lane given given'
  · exact ⟨rfl, rfl, Nat.le_refl _⟩

theorem Announced.of_own (announced : w.Announced F domain)
    (proper : w.Proper F domain n) (counted : w.Counted capacity) {i : Nat} {s : Submission}
    (present : w.submissions[i]? = some s) {d' : Deployment σ} {f : Lane → Lane} {p' : Progress}
    (proceeds : s.Proceeds w.deployment f p') (leads : Submission.Leads w.deployment d' s f) :
    World.Announced F domain ⟨d', w.submissions.set i { s with progress := p' }⟩ := by
  have mem := List.mem_of_getElem? present
  have servers : d'.servers = w.deployment.servers := leads.servers_eq
  have frame {j : Nat} {s₀ : Submission} (ne : j ≠ i) (there : w.submissions[j]? = some s₀)
      (given : s₀.progress.isGiven) (l : Lane) (lane : w.deployment.lane? s₀.leader = some l) :=
    counted.keeps present proceeds leads ne there given lane
  refine ⟨fun leader l' epoch lane current => ?_, fun s₀ mem₀ epoch start => ?_,
    fun s₀ mem₀ epoch calls start => ?_⟩
  · change d'.lane? leader = some l' at lane
    rw [leads.lane?] at lane
    obtain ⟨l, lane₀, rfl⟩ := Option.map_eq_some_iff.1 lane
    change ∃ x, ∀ peer slot, slotAt? d'.servers peer leader.toNat = some slot → _
    rw [servers]
    split at current
    · rename_i same
      subst same
      obtain eq | ⟨e, calls, answers, replies, start, answered, replied, eq⟩ := proceeds.epoch lane₀
      · exact announced.committed _ l epoch lane₀ (eq ▸ current)
      · obtain rfl := Option.some.inj (eq.symm.trans current)
        have ordered := (proper.submissions s mem).ordered
        rw [start] at ordered
        obtain ⟨x, -, holds⟩ := (announced.rotates s mem e calls start).holds proper.fits
          ordered answered replied
        exact ⟨x, fun peer slot found => .newest (holds peer slot found)⟩
    · exact announced.committed leader l epoch lane₀ current
  · change ∃ l, d'.lane? s₀.leader = some l ∧ l.dueEpoch? d'.rotation = some epoch
    rw [leads.rotation_eq]
    obtain rfl | ⟨j, ne, there⟩ := of_mem_set mem₀
    · dsimp only at start
      subst start
      cases proceeds with
      | @drain l _ _ lane due => exact ⟨l, by rw [leads.lane?, lane]; simp, due⟩
    · obtain ⟨l, lane, due⟩ := announced.drains s₀ (List.mem_of_getElem? there) epoch start
      obtain ⟨l', lane', keeps⟩ := frame ne there (by rw [start]; rfl) l lane
      exact ⟨l', lane', by rw [keeps.due, due]⟩
  · change Rotates F domain d' s₀.leader epoch calls
    obtain rfl | ⟨j, ne, there⟩ := of_mem_set mem₀
    · dsimp only at start
      subst start
      cases proceeds with
      | @rotate l _ x start lane calm =>
        obtain ⟨l', lane', due⟩ := announced.drains s mem epoch start
        obtain rfl := Option.some.inj (lane'.symm.trans lane)
        refine ⟨⟨l', by rw [leads.lane?, lane']; simp, leads.rotation_eq ▸ due, calm⟩, x,
          fun call sent => ?_⟩
        obtain ⟨peer, -, rfl⟩ := Submission.exists_of_mem_callThese sent
        refine ⟨rfl, fun slot found => ?_⟩
        dsimp only [PeerCall.start]
        split
        · exact .refused _
        · exact .called
    · refine (announced.rotates s₀ (List.mem_of_getElem? there) epoch calls start).frame
        leads.rotation_eq (frame ne there (by rw [start]; rfl)) fun peer slot found => ?_
      exact ⟨slot, servers ▸ found, rfl⟩

/-- A step of an announcement, on the server that it is made to. -/
theorem Rotates.of_call {d d' : Deployment σ} {s : Submission} {epoch : UInt64}
    {await : List (PeerCall .changePoint) → Progress} {calls : List (PeerCall .changePoint)}
    {j : Nat} {call : PeerCall .changePoint} {server : Server} {slot slot' : LeaderSlot}
    {stage' : Stage .changePoint} (h : Rotates F domain d s.leader epoch calls)
    (ordered : calls.map (·.peer) = List.range n)
    (moved : s.CallStep F domain d d' await calls j call server slot slot' stage') :
    Rotates F domain d' s.leader epoch (calls.set j (call.withStage stage')) ∧
      ∃ x, slot'.points = slot.points ∨
        slot.points.rotate epoch (.ofPoint F domain x) = .ok slot'.points := by
  obtain ⟨⟨l, lane, due, calm⟩, x, announces⟩ := h
  obtain ⟨message, announced⟩ := announces call (List.mem_of_getElem? moved.present)
  have step := moved.step
  rw [message] at step
  obtain ⟨rfl, rfl⟩ := And.intro moved.field_eq moved.domain_eq
  obtain ⟨announced', points⟩ := Server.announces_stepSlot step (announced slot moved.found)
  have lane' : d'.lane? s.leader = some l := by
    rw [Deployment.lane?, moved.lanes_eq]
    exact lane
  have each := moved.forall_set ordered (fun call mem => (announces call mem).2) fun _ => announced'
  refine ⟨⟨⟨l, lane', moved.rotation_eq ▸ due, calm⟩, x, fun call₀ mem => ⟨?_, each call₀ mem⟩⟩,
    x, points⟩
  obtain rfl | ⟨_, -, there⟩ := of_mem_set mem
  · exact message
  · exact (announces call₀ (List.mem_of_getElem? there)).1

theorem Announced.of_call (announced : w.Announced F domain)
    (proper : w.Proper F domain n) (counted : w.Counted capacity) {i j : Nat} {s : Submission}
    (present : w.submissions[i]? = some s) {d' : Deployment σ} {c : Call}
    {await : List (PeerCall c) → Progress} {calls : List (PeerCall c)} {call : PeerCall c}
    {server : Server} {slot slot' : LeaderSlot} {stage' : Stage c}
    (moved : s.CallStep F domain w.deployment d' await calls j call server slot slot' stage') :
    World.Announced F domain ⟨d', w.submissions.set i
      { s with progress := await (calls.set j (call.withStage stage')) }⟩ := by
  have mem := List.mem_of_getElem? present
  have lane (leader : UInt64) : d'.lane? leader = w.deployment.lane? leader := by
    rw [Deployment.lane?, Deployment.lane?, moved.lanes_eq]
  have ordered := (proper.submissions s mem).ordered
  have kept (l : Lane) : l.Keeps l := ⟨rfl, rfl, Nat.le_refl _⟩
  -- what an announcement does to the slot that it reaches
  have takes (changes : c = .changePoint) : ∃ l epoch x, w.deployment.lane? s.leader = some l ∧
      l.dueEpoch? w.deployment.rotation = some epoch ∧ (slot'.points = slot.points ∨
        slot.points.rotate epoch (.ofPoint F domain x) = .ok slot'.points) := by
    subst changes
    cases moved.awaits with
    | rotating epoch =>
      have start := moved.start
      have rotates := announced.rotates s mem epoch calls start
      obtain ⟨-, x, points⟩ := rotates.of_call (n := n) (by rwa [start] at ordered) moved
      obtain ⟨l, found, due, -⟩ := rotates.due
      exact ⟨l, epoch, x, found, due, points⟩
  refine ⟨fun leader l epoch found current => ?_, fun s₀ mem₀ epoch start => ?_,
    fun s₀ mem₀ epoch calls₀ start => ?_⟩
  · have found := (lane leader).symm.trans found
    obtain ⟨x, holds⟩ := announced.committed leader l epoch found current
    refine ⟨x, fun peer slot₁ there => ?_⟩
    by_cases changes : leader = s.leader ∧ c = .changePoint
    · obtain ⟨rfl, changes⟩ := changes
      obtain ⟨l', epoch', x', found', due, points⟩ := takes changes
      obtain rfl := Option.some.inj (found'.symm.trans found)
      change slotAt? d'.servers peer s.leader.toNat = some slot₁ at there
      rw [moved.slots] at there
      split at there
      · rename_i place
        obtain rfl := place.1
        obtain rfl := Option.some.inj there
        obtain same | rotated := points
        · exact same ▸ holds _ slot moved.found
        · obtain rfl : epoch + 1 = epoch' := by
            rw [Lane.dueEpoch?, current] at due
            dsimp only at due
            split at due
            · exact Option.some.inj due
            · cases due
          exact (holds _ slot moved.found).rotate rotated
      · exact holds peer slot₁ there
    · obtain ⟨slot₀, there₀, -, same⟩ := moved.exists_slot there
      exact same (fun eq eq' => changes ⟨eq, eq'⟩) ▸ holds peer slot₀ there₀
  · obtain rfl | ⟨k, -, there⟩ := of_mem_set mem₀
    · cases moved.awaits <;> cases start
    · obtain ⟨l, found, due⟩ := announced.drains s₀ (List.mem_of_getElem? there) epoch start
      exact ⟨l, (lane _).trans found, by rw [← due, ← moved.rotation_eq]⟩
  · obtain rfl | ⟨k, ne, there⟩ := of_mem_set mem₀
    · cases moved.awaits with
      | rotating e =>
        obtain ⟨rfl, rfl⟩ := Progress.rotating.inj start
        have start := moved.start
        have rotates := announced.rotates s mem e calls start
        exact (rotates.of_call (n := n) (by rwa [start] at ordered) moved).1
      | admitting | evaluating | finalising | accepting | aborting => cases start
    · have rotates := announced.rotates s₀ (List.mem_of_getElem? there) epoch calls₀ start
      refine rotates.frame moved.rotation_eq (fun l found => ⟨l, (lane _).trans found, kept l⟩)
        fun peer slot₁ there₁ => ?_
      obtain ⟨slot₀, there₀, -, same⟩ := moved.exists_slot there₁
      refine ⟨slot₀, there₀, same fun leads changes => ne ?_⟩
      subst changes
      obtain ⟨l, found, -⟩ := rotates.due
      refine counted.eq_of_given there present leads.symm found (by rw [start]; rfl) ?_
      rw [moved.start]
      cases moved.awaits
      rfl

/-- While a request is taken in, no other point is announced for its leader. -/
theorem Announced.ne_changePoint (announced : w.Announced F domain) (counted : w.Counted capacity)
    {s₀ s : Submission} (mem₀ : s₀ ∈ w.submissions) (admitted : s₀.progress.isAdmitted)
    (mem : s ∈ w.submissions) (leads : s₀.leader = s.leader) {j : Nat} {d' : Deployment σ}
    {c : Call} {await : List (PeerCall c) → Progress} {calls : List (PeerCall c)}
    {call : PeerCall c} {server : Server} {slot slot' : LeaderSlot} {stage' : Stage c}
    (moved : s.CallStep F domain w.deployment d' await calls j call server slot slot' stage') :
    c ≠ .changePoint := by
  rintro rfl
  obtain ⟨epoch, start⟩ : ∃ epoch, s.progress = .rotating epoch calls := by
    have start := moved.start
    cases moved.awaits with
    | rotating epoch => exact ⟨epoch, start⟩
  obtain ⟨⟨l, lane, -, calm⟩, -⟩ := announced.rotates s mem epoch calls start
  have := counted.admitted mem₀ (leads ▸ lane) admitted
  omega

end Step

theorem announced_start {rotation : Nat} {source : σ} {d : Deployment σ}
    (domainOk : CircuitDomain.ofCircuit F c = .ok domain)
    (h : Deployment.start F c n capacity rotation source = .ok d) :
    Announced F domain ⟨d, []⟩ where
  committed := by
    intro leader l epoch lane current
    obtain rfl := Except.ok.inj ((start_eq domainOk).symm.trans h)
    obtain rfl := List.eq_of_mem_replicate (List.mem_of_getElem? lane)
    cases current
  drains := nofun
  rotates := nofun

theorem Announced.of_step [WordSource σ] {admits : Submission → Prop} {w w' : World σ}
    (announced : w.Announced F domain) (proper : w.Proper F domain n)
    (counted : w.Counted capacity) (h : Step admits w w') : w'.Announced F domain := by
  obtain ⟨-, next⟩ := proper.of_step h
  obtain ⟨d', submissions'⟩ := w'
  obtain ⟨s, start, -, rfl, rfl⟩ | ⟨i, s, s', present, rfl, turn⟩ := next
  · refine ⟨announced.committed, fun s₀ mem epoch draining => ?_,
      fun s₀ mem epoch calls rotating => ?_⟩
    · obtain mem | mem := List.mem_append.1 mem
      · exact announced.drains s₀ mem epoch draining
      · obtain rfl := List.mem_singleton.1 mem
        cases start.symm.trans draining
    · obtain mem | mem := List.mem_append.1 mem
      · exact announced.rotates s₀ mem epoch calls rotating
      · obtain rfl := List.mem_singleton.1 mem
        cases start.symm.trans rotating
  · cases turn with
    | own proceeds leads => exact announced.of_own proper counted present proceeds leads
    | call moved => exact announced.of_call proper counted present moved

theorem Announced.of_reaches [WordSource σ] {admits : Submission → Prop} {w w' : World σ}
    (announced : w.Announced F domain) (sound : w.Sound F c domain n capacity)
    (only : ∀ s, admits s → s.network.Steady) (h : Reaches admits w w') :
    w'.Announced F domain := by
  induction h with
  | refl => exact announced
  | tail reached step ih =>
    have sound := sound.of_reaches only reached
    exact ih.of_step sound.proper sound.counted step

end World

end PrivateSums
