import PrivateSums.Proofs.Deployment.Course

/-!
Servers without faults. Whenever no point is being announced for a leader, all servers have the
point that was announced last, under the epoch of the lane, and so they take the next one.
-/

namespace PrivateSums

/-- The argument that a call announces for a leader. -/
def CallRecord.announces? (leader : UInt64) : CallRecord → Option Nat
  | ⟨_, .changePoint, m⟩ => if m.leader = leader then some m.x else none
  | _ => none

/-- The argument that was announced last for a leader. -/
def lastAnnounced? (leader : UInt64) (records : List CallRecord) : Option Nat :=
  records.findSome? (·.announces? leader)

section Announced

variable {leader : UInt64} {records : List CallRecord} {calls : List AnyCall}

theorem lastAnnounced?_of_none (none : ∀ call ∈ calls, call.record.announces? leader = none) :
    lastAnnounced? leader ((calls.map AnyCall.record).reverse ++ records) =
      lastAnnounced? leader records := by
  have nothing : (calls.map AnyCall.record).reverse.findSome? (·.announces? leader) = .none := by
    refine List.findSome?_eq_none_iff.2 fun record mem => ?_
    obtain ⟨call, made, rfl⟩ := List.mem_map.1 (List.mem_reverse.1 mem)
    exact none call made
  rw [lastAnnounced?, List.findSome?_append, nothing, Option.none_or, lastAnnounced?]

theorem lastAnnounced?_of_all {x : Nat}
    (some : ∀ call ∈ calls, call.record.announces? leader = some x)
    (nonempty : calls ≠ []) :
    lastAnnounced? leader ((calls.map AnyCall.record).reverse ++ records) = .some x := by
  have all : ∀ record ∈ (calls.map AnyCall.record).reverse,
      record.announces? leader = .some x := by
    intro record mem
    obtain ⟨call, made, rfl⟩ := List.mem_map.1 (List.mem_reverse.1 mem)
    exact some call made
  have filled : (calls.map AnyCall.record).reverse ≠ [] := by simpa using nonempty
  obtain ⟨first, rest, eq⟩ := List.exists_cons_of_ne_nil filled
  rw [eq] at all ⊢
  rw [lastAnnounced?, List.cons_append, List.findSome?_cons, all first List.mem_cons_self]

end Announced

namespace Progress

def isTurning : Progress → Bool
  | rotating .. => true
  | _ => false

/-- Whether a submission was given its epoch, or is over without. -/
def isPast : Progress → Bool
  | arrived | queued | entered | choosing | draining _ | rotating .. => false
  | _ => true

theorem isGiven_of_isTurning {p : Progress} (h : p.isTurning) : p.isGiven := by
  cases p <;> first | rfl | cases h

theorem isTurning_of_calls {p : Progress} {call : AnyCall} (mem : call ∈ p.calls)
    (kind : call.1 = .changePoint) : p.isTurning := by
  obtain ⟨c, call⟩ := call
  obtain ⟨await, calls, i, awaits, start, -⟩ := exists_awaits mem
  subst kind
  cases awaits
  rw [start]
  rfl

end Progress

/-- A submission announces nothing but what it rotates to, and that for its own leader. -/
theorem CallRecord.announces?_eq_none {leader : UInt64} {call : AnyCall}
    (other : call.1 = .changePoint → call.2.operation.leader ≠ leader) :
    call.record.announces? leader = none := by
  obtain ⟨c, call⟩ := call
  cases c with
  | changePoint => exact if_neg (other rfl)
  | newRequest | evalCircuit | finalCircuit | accept | abort => rfl

/-- Whether the newest point of a server is that of an epoch, if there is one, at an argument. -/
inductive EvaluationPoints.Settled (F : Field) (domain : CircuitDomain) :
    Option UInt64 → Option Nat → EvaluationPoints → Prop
  | blank {x : Option Nat} {p : EvaluationPoints} (current : p.current = none) :
      Settled F domain none x p
  | newest {epoch : UInt64} {x : Nat} {p : EvaluationPoints}
      (current : p.current = some (epoch, .ofPoint F domain x)) :
      Settled F domain (some epoch) (some x) p

/-- A server at the epoch of its lane is behind the next one, as long as epochs can be numbered. -/
theorem EvaluationPoints.Settled.behind {F : Field} {domain : CircuitDomain} {l : Lane}
    {x : Option Nat} {p : EvaluationPoints} {rotation : Nat} {epoch : UInt64}
    (settled : p.Settled F domain l.epoch x) (due : l.dueEpoch? rotation = some epoch)
    (few : ∀ current, l.epoch = some current → current.toNat + 1 < 2 ^ 64) : p.Behind epoch := by
  intro current mem
  generalize eq : l.epoch = newest at settled
  cases settled with
  | blank none => simp [currentEpoch?, none] at mem
  | @newest epoch' x _ here =>
    obtain rfl : epoch' = current := by simpa [currentEpoch?, here] using mem
    rw [Lane.dueEpoch?, eq] at due
    dsimp only at due
    split at due
    · obtain rfl := Option.some.inj due
      have := few epoch' eq
      rw [UInt64.lt_iff_toNat_lt, UInt64.toNat_add]
      simp only [UInt64.reduceToNat]
      omega
    · cases due

namespace Submission

variable {σ : Type} {d : Deployment σ} {s : Submission} {f : Lane → Lane} {p' : Progress}

theorem Proceeds.isPast (h : s.Proceeds d f p')
    (late : s.progress.isTurning ∨ s.progress.isPast) : p'.isPast := by
  cases h with
  | rotationFails | rotated | admissionFails | admitted | evaluationFails | evaluated | finalFails
  | finalised | verdictFails | decided | aborted | leave => rfl
  | refuse start | queue start | enter start | choose start | drain start | give start
  | rotate _ start =>
    rw [start] at late
    obtain late | late := late <;> cases late

theorem Proceeds.isGiven_of_isTurning (h : s.Proceeds d f p') (turning : p'.isTurning) :
    s.progress.isGiven := by
  cases h with
  | rotate _ start =>
    rw [start]
    rfl
  | refuse | queue | enter | choose | drain | give | rotationFails | rotated | admissionFails
  | admitted | evaluationFails | evaluated | finalFails | finalised | verdictFails | decided
  | aborted | leave => cases turning

end Submission

namespace World

variable {σ : Type} {F : Field} {c : Circuit} {domain : CircuitDomain} {n capacity : Nat}

/-- All servers are level with the lanes. Every epoch was announced by a submission of its own. -/
structure Level (F : Field) (domain : CircuitDomain) (w : World σ) : Prop where
  settled : ∀ leader l, w.deployment.lane? leader = some l →
    (∀ s ∈ w.submissions, s.leader = leader → ¬s.progress.isTurning) →
      ∀ peer slot, slotAt? w.deployment.servers peer leader.toNat = some slot →
        slot.points.Settled F domain l.epoch (lastAnnounced? leader w.deployment.records)
  turning : ∀ s ∈ w.submissions, ∀ epoch calls, s.progress = .rotating epoch calls →
    ∀ call ∈ calls,
      lastAnnounced? s.leader w.deployment.records = some call.operation.message.x ∧
        ∀ slot, slotAt? w.deployment.servers call.peer s.leader.toNat = some slot →
          call.operation.stage.Takes s.leader epoch True slot.points
  numbered : ∀ leader l epoch, w.deployment.lane? leader = some l → l.epoch = some epoch →
    epoch.toNat < census Progress.isPast leader w.submissions

section Step

variable {w : World σ} {i : Nat} {s : Submission} {d' : Deployment σ} {f : Lane → Lane}
  {p' : Progress}

/-- There is a number for the next epoch of a leader. -/
theorem Level.succ_lt (level : w.Level F domain) (few : w.submissions.length ≤ 2 ^ 64)
    (mem : s ∈ w.submissions) (early : ¬s.progress.isPast) {l : Lane}
    (lane : w.deployment.lane? s.leader = some l) :
    ∀ current, l.epoch = some current → current.toNat + 1 < 2 ^ 64 := by
  intro current eq
  have lt := level.numbered s.leader l current lane eq
  have fewer : census Progress.isPast s.leader w.submissions < w.submissions.length :=
    List.countP_lt_length_iff.2 ⟨s, mem, by simp [early]⟩
  omega

/-- While one submission is being given its epoch, no other of its leader announces any. -/
theorem Counted.not_turning (counted : w.Counted capacity) (present : w.submissions[i]? = some s)
    (given : s.progress.isGiven) (calm : ¬s.progress.isTurning) {l : Lane}
    (lane : w.deployment.lane? s.leader = some l) :
    ∀ s' ∈ w.submissions, s'.leader = s.leader → ¬s'.progress.isTurning := by
  intro s' mem leads turning
  obtain ⟨j, there⟩ := List.mem_iff_getElem?.1 mem
  obtain rfl := counted.eq_of_given there present leads.symm (leads ▸ lane)
    (Progress.isGiven_of_isTurning turning) given
  obtain rfl := Option.some.inj (there.symm.trans present)
  exact calm turning

/-- What a step of a submission does to the points that are announced for a leader. -/
theorem lastAnnounced?_of_own (proceeds : s.Proceeds w.deployment f p')
    (records : d'.records = (p'.calls.map AnyCall.record).reverse ++ w.deployment.records)
    {leader : UInt64} (calm : p'.isTurning → s.leader ≠ leader) :
    lastAnnounced? leader d'.records = lastAnnounced? leader w.deployment.records := by
  rw [records]
  refine lastAnnounced?_of_none fun call made => CallRecord.announces?_eq_none fun kind => ?_
  rw [(proceeds.makes call made).leader_eq]
  exact calm (Progress.isTurning_of_calls made kind)

/-- No server refuses a point that is announced. -/
theorem Level.allReplies_ne_error (level : w.Level F domain) (sound : w.Sound F c domain n capacity)
    (mem : s ∈ w.submissions) (reliable : s.network = .reliable) {epoch : UInt64}
    {calls : List (PeerCall .changePoint)} {answers : List (Except ServerError Unit)}
    (start : s.progress = .rotating epoch calls)
    (answered : PeerCall.answers? calls = some answers) (e : ServerError) :
    allReplies answers ≠ .error e := by
  intro failed
  have proper := sound.proper.submissions s mem
  obtain ⟨call, made, reply, stage, told⟩ :=
    PeerCall.exists_of_mem_answers answered (allReplies_eq_error failed)
  have makes := proper.makes _ ((Progress.Awaits.rotating epoch).mem_calls start made)
  obtain ⟨slot, found⟩ := sound.proper.fits.exists_slot makes.peer_lt
    (proper.placed (by rw [start]; rfl)).1
  have takes := (level.turning s mem epoch calls start call made).2 slot found
  rw [stage] at takes
  rw [makes.fate_eq, reliable] at told
  cases takes with
  | taken => cases told
  | refused _ lags => exact absurd trivial lags

/-- When a rotation is over, all servers have taken its point. -/
theorem Level.settled_of_turned (level : w.Level F domain) (sound : w.Sound F c domain n capacity)
    (announced : w.Announced F domain) (mem : s ∈ w.submissions)
    (reliable : s.network = .reliable) (turned : s.progress.isTurning)
    (proceeds : s.Proceeds w.deployment f p') (l : Lane) :
    ∀ peer slot, slotAt? w.deployment.servers peer s.leader.toNat = some slot →
      slot.points.Settled F domain (f l).epoch
        (lastAnnounced? s.leader w.deployment.records) := by
  cases proceeds with
  | rotationFails start answered failed =>
    exact absurd failed (level.allReplies_ne_error sound mem reliable start answered _)
  | @rotated epoch calls answers replies start answered replied =>
    have ordered := (sound.proper.submissions s mem).ordered
    rw [start] at ordered
    obtain ⟨x, messages, holds⟩ := (announced.rotates s mem epoch calls start).holds
      sound.proper.fits ordered answered replied
    intro peer slot found
    obtain ⟨call, made, rfl⟩ :=
      PeerCall.exists_of_ordered ordered (sound.proper.fits.lt_of_slotAt? found)
    obtain ⟨last, -⟩ := level.turning s mem epoch calls start call made
    rw [last, messages call made]
    exact .newest (holds call.peer slot found)
  | refuse start | queue start | enter start | choose start | drain start | give start
  | rotate _ start | admissionFails start | admitted start | evaluationFails start
  | evaluated _ start | finalFails start | finalised start | verdictFails start | decided start
  | aborted start | leave start =>
    rw [start] at turned
    cases turned

/-- A submission that announced an epoch is past it, and so is counted. -/
theorem Level.numbered_of_own (level : w.Level F domain) (announced : w.Announced F domain)
    (present : w.submissions[i]? = some s) (proceeds : s.Proceeds w.deployment f p')
    {leader : UInt64} {l : Lane} (lane : w.deployment.lane? leader = some l) {epoch : UInt64}
    (current : (if s.leader = leader then f l else l).epoch = some epoch) :
    epoch.toNat < census Progress.isPast leader
      (w.submissions.set i { s with progress := p' }) := by
  have before {e : UInt64} (eq : l.epoch = some e) := level.numbered leader l e lane eq
  rw [census_eraseIdx present] at before
  rw [census_set present]
  by_cases same : s.leader = leader
  swap
  · simp only [if_neg same] at before current ⊢
    exact before current
  subst same
  simp only [if_pos] at before current ⊢
  obtain eq | ⟨e, calls, answers, replies, start, answered, replied, eq⟩ := proceeds.epoch lane
  · have lt := before (eq ▸ current)
    have le : s.progress.isPast.toNat ≤ p'.isPast.toNat := by
      cases past : s.progress.isPast with
      | false => exact Nat.zero_le _
      | true => rw [proceeds.isPast (.inr past)]
    omega
  · obtain rfl := Option.some.inj (eq.symm.trans current)
    have past : p'.isPast := proceeds.isPast (.inl (by rw [start]; rfl))
    obtain ⟨⟨l', lane', due, -⟩, -⟩ :=
      announced.rotates s (List.mem_of_getElem? present) e calls start
    obtain rfl := Option.some.inj (lane'.symm.trans lane)
    rw [past, Bool.toNat_true]
    rw [start] at before
    unfold Lane.dueEpoch? at due
    split at due
    · obtain rfl := Option.some.inj due
      exact Nat.add_pos_left Nat.one_pos _
    · rename_i current' eq'
      have lt := before eq'
      split at due
      · obtain rfl := Option.some.inj due
        have := Nat.mod_le (current'.toNat + 1) (2 ^ 64)
        rw [UInt64.toNat_add]
        simp only [UInt64.reduceToNat, Progress.isPast, Bool.toNat_false] at lt ⊢
        omega
      · cases due

theorem Level.of_own (level : w.Level F domain) (sound : w.Sound F c domain n capacity)
    (announced : w.Announced F domain) (few : w.submissions.length ≤ 2 ^ 64)
    (present : w.submissions[i]? = some s) (reliable : s.network = .reliable)
    (proceeds : s.Proceeds w.deployment f p') (leads : Submission.Leads w.deployment d' s f)
    (records : d'.records = (p'.calls.map AnyCall.record).reverse ++ w.deployment.records) :
    World.Level F domain ⟨d', w.submissions.set i { s with progress := p' }⟩ := by
  have mem := List.mem_of_getElem? present
  have here := (List.getElem?_eq_some_iff.1 present).1
  have servers : d'.servers = w.deployment.servers := leads.servers_eq
  have announces {leader : UInt64} (calm : p'.isTurning → s.leader ≠ leader) :
      lastAnnounced? leader d'.records = lastAnnounced? leader w.deployment.records :=
    lastAnnounced?_of_own proceeds records calm
  refine ⟨fun leader l' lane' calm => ?_, fun s₀ mem₀ epoch calls start => ?_,
    fun leader l' epoch lane' current => ?_⟩
  · change d'.lane? leader = some l' at lane'
    rw [leads.lane?] at lane'
    obtain ⟨l, lane, rfl⟩ := Option.map_eq_some_iff.1 lane'
    change ∀ peer slot, slotAt? d'.servers peer leader.toNat = some slot →
      slot.points.Settled F domain _ (lastAnnounced? leader d'.records)
    rw [servers, announces fun turning leads => calm _ (List.mem_set here _) leads turning]
    by_cases turned : s.leader = leader ∧ s.progress.isTurning
    · obtain ⟨rfl, turned⟩ := turned
      rw [if_pos rfl]
      exact level.settled_of_turned sound announced mem reliable turned proceeds l
    · have epoch : (if s.leader = leader then f l else l).epoch = l.epoch := by
        split
        · rename_i same
          obtain eq | ⟨_, _, _, _, start, -⟩ := proceeds.epoch (same ▸ lane)
          · exact eq
          · exact absurd ⟨same, by rw [start]; rfl⟩ turned
        · rfl
      rw [epoch]
      refine level.settled leader l lane fun s' mem' same turning => ?_
      obtain there | rfl := mem_set_or_eq present mem' { s with progress := p' }
      · exact calm s' there same turning
      · exact turned ⟨same, turning⟩
  · obtain rfl | ⟨j, ne, there⟩ := of_mem_set mem₀
    · dsimp only at start
      subst start
      cases proceeds with
      | @rotate l _ x start lane =>
        have given : s.progress.isGiven := by rw [start]; rfl
        have calm := sound.counted.not_turning present given (by rw [start]; nofun) lane
        intro call made
        have told : lastAnnounced? s.leader d'.records = some x := by
          rw [records]
          refine lastAnnounced?_of_all (fun call made => ?_) (List.ne_nil_of_mem (a := ⟨_, call⟩)
            (List.mem_map_of_mem made))
          obtain ⟨_, sent, rfl⟩ := List.mem_map.1 made
          obtain ⟨peer, -, rfl⟩ := Submission.exists_of_mem_callThese sent
          exact if_pos rfl
        obtain ⟨peer, -, rfl⟩ := Submission.exists_of_mem_callThese made
        refine ⟨told, fun slot found => ?_⟩
        rw [PeerCall.stage_start (by rw [reliable]; rfl)]
        obtain ⟨l', lane', due⟩ := announced.drains s mem epoch start
        have behind := (level.settled s.leader l' lane' calm peer slot (servers ▸ found)).behind due
          (level.succ_lt few mem (by rw [start]; nofun) lane')
        exact .called (iff_of_true behind trivial)
    · intro call made
      have there₀ := List.mem_of_getElem? there
      have given : s₀.progress.isGiven := by rw [start]; rfl
      obtain ⟨l, lane⟩ := sound.proper.exists_lane there₀ (by rw [start]; rfl)
      obtain ⟨last, takes⟩ := level.turning s₀ there₀ epoch calls start call made
      refine ⟨?_, servers ▸ takes⟩
      rw [← last]
      refine announces fun turning leads => ne ?_
      exact sound.counted.eq_of_given there present leads lane given
        (proceeds.isGiven_of_isTurning turning)
  · change d'.lane? leader = some l' at lane'
    rw [leads.lane?] at lane'
    obtain ⟨l, lane, rfl⟩ := Option.map_eq_some_iff.1 lane'
    exact level.numbered_of_own announced present proceeds lane current

/-- A step of a call moves evaluation points only where a point is being announced. -/
theorem Level.of_call (level : w.Level F domain) (sound : w.Sound F c domain n capacity)
    (announced : w.Announced F domain) (present : w.submissions[i]? = some s)
    {kind : Call} {await : List (PeerCall kind) → Progress}
    {calls : List (PeerCall kind)} {j : Nat} {call : PeerCall kind} {server : Server}
    {slot slot' : LeaderSlot} {stage' : Stage kind}
    (moved : s.CallStep F domain w.deployment d' await calls j call server slot slot' stage') :
    World.Level F domain ⟨d', w.submissions.set i
      { s with progress := await (calls.set j (call.withStage stage')) }⟩ := by
  have mem := List.mem_of_getElem? present
  have here := (List.getElem?_eq_some_iff.1 present).1
  have lane (leader : UInt64) : d'.lane? leader = w.deployment.lane? leader := by
    rw [Deployment.lane?, Deployment.lane?, moved.lanes_eq]
  have turning := moved.stable Progress.isTurning fun _ _ => by cases moved.awaits <;> rfl
  have past := moved.stable Progress.isPast fun _ _ => by cases moved.awaits <;> rfl
  refine ⟨fun leader l found calm => ?_, fun s₀ mem₀ epoch calls₀ start => ?_,
    fun leader l epoch found current => ?_⟩
  · have calm₀ : ∀ s' ∈ w.submissions, s'.leader = leader → ¬s'.progress.isTurning := by
      intro s' mem' leads
      obtain there | rfl := mem_set_or_eq present mem'
        { s with progress := await (calls.set j (call.withStage stage')) }
      · exact calm s' there leads
      · rw [← turning]
        exact calm _ (List.mem_set here _) leads
    intro peer slot₁ there
    obtain ⟨slot₀, there₀, -, same⟩ := moved.exists_slot there
    change slot₁.points.Settled F domain l.epoch (lastAnnounced? leader d'.records)
    rw [moved.records_eq, same fun leads changes => ?_]
    · exact level.settled leader l ((lane leader).symm.trans found) calm₀ peer slot₀ there₀
    · refine calm₀ s mem leads.symm ?_
      subst changes
      rw [moved.start]
      cases moved.awaits
      rfl
  · change ∀ call ∈ calls₀, lastAnnounced? s₀.leader d'.records = _ ∧ _
    rw [moved.records_eq]
    obtain rfl | ⟨k, ne, there⟩ := of_mem_set mem₀
    · cases moved.awaits with
      | rotating e =>
        obtain ⟨rfl, rfl⟩ := Progress.rotating.inj start
        have start := moved.start
        have ordered := (sound.proper.submissions s mem).ordered
        rw [start] at ordered
        have each := level.turning s mem e calls start
        obtain ⟨-, x, announces⟩ := announced.rotates s mem e calls start
        intro call₁ made
        refine ⟨?_, moved.forall_set ordered
          (P := fun call slot => call.operation.stage.Takes s.leader e True slot.points)
          (fun call mem => (each call mem).2) (fun takes => ?_) call₁ made⟩
        · obtain rfl | ⟨_, -, there⟩ := of_mem_set made
          · exact (each call (List.mem_of_getElem? moved.present)).1
          · exact (each call₁ (List.mem_of_getElem? there)).1
        · have step := moved.step
          rw [(announces call (List.mem_of_getElem? moved.present)).1] at step
          exact Server.takes_stepSlot step takes
      | admitting | evaluating | finalising | accepting | aborting => cases start
    · intro call₀ made
      obtain ⟨last, takes⟩ :=
        level.turning s₀ (List.mem_of_getElem? there) epoch calls₀ start call₀ made
      refine ⟨last, fun slot₁ found => ?_⟩
      obtain ⟨slot₀, there₀, -, same⟩ := moved.exists_slot found
      rw [same fun leads changes => ?_]
      · exact takes slot₀ there₀
      · subst changes
        have given : s₀.progress.isGiven := by rw [start]; rfl
        obtain ⟨l, found⟩ := sound.proper.exists_lane (List.mem_of_getElem? there)
          (by rw [start]; rfl)
        refine ne (sound.counted.eq_of_given there present leads.symm found given ?_)
        rw [moved.start]
        cases moved.awaits
        rfl
  · have lt := level.numbered leader l epoch ((lane leader).symm.trans found) current
    rw [census_eraseIdx present, ← past] at lt
    rwa [census_set present]

end Step

theorem level_start {rotation : Nat} {source : σ} {d : Deployment σ}
    (domainOk : CircuitDomain.ofCircuit F c = .ok domain)
    (h : Deployment.start F c n capacity rotation source = .ok d) : Level F domain ⟨d, []⟩ where
  settled := by
    intro leader l lane _ peer slot found
    obtain rfl := eq_fresh_of_start domainOk h found
    obtain rfl := Except.ok.inj ((start_eq domainOk).symm.trans h)
    obtain rfl := List.eq_of_mem_replicate (List.mem_of_getElem? lane)
    exact .blank rfl
  turning := nofun
  numbered := by
    intro leader l epoch lane current
    obtain rfl := Except.ok.inj ((start_eq domainOk).symm.trans h)
    obtain rfl := List.eq_of_mem_replicate (List.mem_of_getElem? lane)
    cases current

section Run

variable [WordSource σ] {admits : Submission → Prop} {w w' : World σ}

theorem Level.of_step (level : w.Level F domain) (sound : w.Sound F c domain n capacity)
    (announced : w.Announced F domain) (reliable : ∀ s ∈ w.submissions, s.network = .reliable)
    (few : w.submissions.length ≤ 2 ^ 64) (h : Step admits w w') : w'.Level F domain := by
  obtain ⟨-, next⟩ := sound.proper.of_step h
  obtain ⟨d', submissions'⟩ := w'
  obtain ⟨s, start, -, rfl, rfl⟩ | ⟨i, s, s', present, rfl, turn⟩ := next
  · refine ⟨fun leader l lane calm => ?_, fun s₀ mem epoch calls rotating => ?_,
      fun leader l epoch lane current => ?_⟩
    · exact level.settled leader l lane fun s' mem => calm s' (List.mem_append_left _ mem)
    · obtain mem | mem := List.mem_append.1 mem
      · exact level.turning s₀ mem epoch calls rotating
      · obtain rfl := List.mem_singleton.1 mem
        cases start.symm.trans rotating
    · have lt := level.numbered leader l epoch lane current
      rw [census] at lt ⊢
      rw [List.countP_append]
      exact Nat.lt_add_right _ lt
  · cases turn with
    | own proceeds leads records =>
      exact level.of_own sound announced few present (reliable s (List.mem_of_getElem? present))
        proceeds leads records
    | call moved => exact level.of_call sound announced present moved

end Run

end World

end PrivateSums
