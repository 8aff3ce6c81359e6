import PrivateSums.Proofs.Deployment.Directed
import PrivateSums.Proofs.Deployment.Epochs

/-!
The course of an honest submission, from when it is to be given its epoch. It depends on one thing
only: whether every server is behind the epoch that is due.
-/

namespace PrivateSums

/-- How far an announcement is that a server takes just when it is behind. -/
inductive Stage.Takes (leader epoch : UInt64) (behind : Prop) (p : EvaluationPoints) :
    Stage .changePoint → Prop
  | called (lags : p.Behind epoch ↔ behind) : Takes leader epoch behind p .called
  | computed (point : EvaluationPoint) (lags : p.Behind epoch ↔ behind) :
      Takes leader epoch behind p (.computed point)
  | taken (lags : behind) : Takes leader epoch behind p (.answered (.ok ()))
  | refused (current : UInt64) (lags : ¬behind) :
      Takes leader epoch behind p (.answered (.error (.staleEpoch leader epoch current)))

theorem Server.takes_stepSlot {server : Server} {slot slot' : LeaderSlot} {m : ChangePoint}
    {stage stage' : Stage .changePoint} {behind : Prop}
    (h : server.stepSlot (c := .changePoint) slot m stage = some (slot', stage'))
    (takes : stage.Takes m.leader m.epoch behind slot.points) :
    stage'.Takes m.leader m.epoch behind slot'.points := by
  cases takes with
  | called lags =>
    obtain ⟨rfl, rfl⟩ := Prod.mk.inj (Option.some.inj h)
    exact .computed _ lags
  | computed point lags =>
    simp only [stepSlot, LeaderSlot.stepChangePoint] at h
    split at h <;> obtain ⟨rfl, rfl⟩ := Prod.mk.inj (Option.some.inj h)
    · rename_i current refused
      obtain ⟨known, old⟩ := EvaluationPoints.rotate_eq_error_iff.1 refused
      exact .refused current fun behind =>
        absurd (lags.2 behind current known) (UInt64.not_lt.2 old)
    · rename_i points rotated
      exact .taken (lags.1 (EvaluationPoints.rotate_eq_ok_iff.1 rotated).1)
  | taken | refused => cases h

/-- Whether the servers are checking the request. -/
def Progress.isChecked : Progress → Bool
  | admitting _ | evaluating _ | finalising _ | accepting _ => true
  | _ => false

theorem Progress.Awaits.ordered {c : Call} {await : List (PeerCall c) → Progress}
    (h : Awaits c await) {calls : List (PeerCall c)} {n : Nat} (ordered : (await calls).Ordered n)
    (checked : (await calls).isChecked) : calls.map (·.peer) = List.range n := by
  cases h <;> first | exact ordered | cases checked

theorem Progress.isAdmitted_of_calls {p : Progress} {call : AnyCall} (mem : call ∈ p.calls)
    (kind : call.1 = .newRequest) : p.isAdmitted := by
  obtain ⟨c, call⟩ := call
  obtain ⟨await, calls, i, awaits, start, -⟩ := exists_awaits mem
  subst kind
  cases awaits
  rw [start]
  rfl

namespace Submission

/-- Where an honest submission can be, when the servers that lag are behind the epoch that was due
as it was to be given its epoch. -/
inductive Course (F : Field) (c : Circuit) (domain : CircuitDomain) (n : Nat) (lag : Nat → Prop)
    {σ : Type} (d : Deployment σ) (s : Submission) : Prop
  | chooses {l : Lane} (start : s.progress = .choosing) (lane : d.lane? s.leader = some l)
      (due : ∀ epoch, l.dueEpoch? d.rotation = some epoch → ∀ peer slot,
        slotAt? d.servers peer s.leader.toNat = some slot →
          (slot.points.Behind epoch ↔ lag peer))
      (current : l.dueEpoch? d.rotation = none → ∀ peer < n, lag peer)
  | drains {epoch : UInt64} (start : s.progress = .draining epoch)
      (due : ∀ peer slot, slotAt? d.servers peer s.leader.toNat = some slot →
        (slot.points.Behind epoch ↔ lag peer))
  | rotates {epoch : UInt64} {calls : List (PeerCall .changePoint)}
      (start : s.progress = .rotating epoch calls)
      (takes : ∀ call ∈ calls, ∀ slot, slotAt? d.servers call.peer s.leader.toNat = some slot →
        call.operation.message.leader = s.leader ∧ call.operation.message.epoch = epoch ∧
          call.operation.stage.Takes s.leader epoch (lag call.peer) slot.points)
  | performs (x : Nat) (epoch : UInt64) (key : Key) (ready : ∀ peer < n, lag peer)
      (checked : s.progress.isChecked)
      (directed : s.Directed d.servers
        (Script.ofRequests F c domain s.leader.toNat s.requests x epoch key) s.progress.calls)
  | accepted {v : Verdict} (ready : ∀ peer < n, lag peer) (favourable : v.accepted)
      (done : s.progress = .leaving (.ok v) ∨ s.progress = .returned (.ok v))
  | refused {epoch current : UInt64} (stale : ¬∀ peer < n, lag peer)
      (done : s.progress = .leaving (.error (.staleEpoch s.leader epoch current)) ∨
        s.progress = .returned (.error (.staleEpoch s.leader epoch current)))

section Frame

variable {F : Field} {c : Circuit} {domain : CircuitDomain} {n : Nat} {lag : Nat → Prop} {σ : Type}
  {d d' : Deployment σ} {s : Submission}

/-- The course is not disturbed by what leaves the request and the epochs of its leader alone. -/
theorem Course.frame (h : s.Course F c domain n lag d) (rotation : d'.rotation = d.rotation)
    (lane : s.progress.isGiven → ∀ l, d.lane? s.leader = some l →
      ∃ l', d'.lane? s.leader = some l' ∧ l.Keeps l')
    (slots : ∀ peer slot', slotAt? d'.servers peer s.leader.toNat = some slot' →
      ∃ slot, slotAt? d.servers peer s.leader.toNat = some slot ∧
        slot'.pending.find? s.id = slot.pending.find? s.id ∧
        (s.progress.isGiven ∨ s.progress.isAdmitted → slot'.points = slot.points)) :
    s.Course F c domain n lag d' := by
  cases h with
  | chooses start found due current =>
    have given : s.progress.isGiven := by
      rw [start]
      rfl
    obtain ⟨l', found', keeps⟩ := lane given _ found
    rw [← keeps.due, ← rotation] at due current
    refine .chooses start found' (fun epoch eq peer slot' there => ?_) current
    obtain ⟨slot, there, -, same⟩ := slots peer slot' there
    exact same (.inl given) ▸ due epoch eq peer slot there
  | drains start due =>
    refine .drains start fun peer slot' there => ?_
    obtain ⟨slot, there, -, same⟩ := slots peer slot' there
    exact same (.inl (by rw [start]; rfl)) ▸ due peer slot there
  | rotates start takes =>
    refine .rotates start fun call mem slot' there => ?_
    obtain ⟨slot, there, -, same⟩ := slots call.peer slot' there
    exact same (.inl (by rw [start]; rfl)) ▸ takes call mem slot there
  | performs x epoch key ready checked directed =>
    refine .performs x epoch key ready checked fun call mem slot' there => ?_
    obtain ⟨slot, there, pending, points⟩ := slots call.2.peer slot' there
    obtain ⟨t, present, asks, known, follows⟩ := directed call mem slot there
    refine ⟨t, present, asks, fun kind => ?_, pending ▸ follows⟩
    exact points (.inr (Progress.isAdmitted_of_calls mem kind)) ▸ known kind
  | accepted ready favourable done => exact .accepted ready favourable done
  | refused stale done => exact .refused stale done

end Frame

section Call

variable {F : Field} {c : Circuit} {domain : CircuitDomain} {n capacity : Nat} {σ : Type}
  {w : World σ} {d' : Deployment σ} {s : Submission} {ts : List Script} {x : Nat} {epoch : UInt64}
  {key : Key} {kind : Call} {await : List (PeerCall kind) → Progress} {calls : List (PeerCall kind)}
  {j : Nat} {call : PeerCall kind} {server : Server} {slot slot' : LeaderSlot} {stage' : Stage kind}

/-- The checker that a call was promised is there. -/
theorem CallStep.takeChecker
    (moved : s.CallStep F domain w.deployment d' await calls j call server slot slot' stage')
    (sound : w.Sound F c domain n capacity) (mem : s ∈ w.submissions)
    (permitted : call.operation.stage.isPermitted) : ∃ pool, slot.pool.takeChecker =
      .ok (.new F c call.peer s.leader.toNat s.requests.length, pool) := by
  rw [((sound.proper.submissions s mem).placed moved.isUnderWay).2]
  refine sound.stocked.takeChecker moved.found mem (checkers_lt_permits moved.made ?_)
  cases eq : call.operation.stage <;> rw [eq] at permitted <;> first | rfl | cases permitted

theorem CallStep.id?_eq
    (moved : s.CallStep F domain w.deployment d' await calls j call server slot slot' stage')
    (other : kind ≠ .changePoint) : kind.id? call.operation.message = some s.id := by
  have same := moved.makes.id_eq
  cases kind with
  | changePoint => exact absurd rfl other
  | newRequest | evalCircuit | finalCircuit | accept | abort =>
    exact congrArg some (same _ rfl)

/-- A call that goes by a script goes on by it: whatever it needs of the server is there. -/
theorem CallStep.directs
    (moved : s.CallStep F domain w.deployment d' await calls j call server slot slot' stage')
    (sound : w.Sound F c domain n capacity) (mem : s ∈ w.submissions)
    (rehearsed : Script.Rehearsed ts F c domain s.leader.toNat s.requests x epoch key)
    (directs : Script.Directs ts s.id ⟨kind, call⟩ slot) :
    Script.Directs ts s.id ⟨kind, call.withStage stage'⟩ slot' := by
  obtain ⟨t, present, asks, known, follows⟩ := directs
  have about : kind.id? call.operation.message = some s.id :=
    moved.id?_eq fun changes => by subst changes; exact asks
  have promised : call.operation.stage.isPermitted →
      ∃ pool, slot.pool.takeChecker = .ok (t.fresh, pool) := by
    intro permitted
    obtain ⟨here, -⟩ := List.getElem?_eq_some_iff.1 present
    rw [rehearsed.length_eq] at here
    obtain ⟨-, -, fresh, -⟩ := rehearsed.loads call.peer t _ present (List.getElem?_eq_getElem here)
    rw [fresh]
    exact moved.takeChecker sound mem permitted
  refine ⟨t, present, asks, fun loads => ?_,
    follows.step rfl asks about known promised moved.step⟩
  rw [Server.points_stepSlot (fun eq => nomatch eq.symm.trans loads) moved.step]
  exact known loads

variable {lag : Nat → Prop}

theorem Course.of_call (course : s.Course F c domain n lag w.deployment)
    (sound : w.Sound F c domain n capacity) (mem : s ∈ w.submissions)
    (rehearsed : ∀ x epoch key, Script.Rehearsed
      (Script.ofRequests F c domain s.leader.toNat s.requests x epoch key) F c domain
      s.leader.toNat s.requests x epoch key)
    (moved : s.CallStep F domain w.deployment d' await calls j call server slot slot' stage') :
    { s with progress := await (calls.set j (call.withStage stage')) }.Course F c domain n lag
      d' := by
  have proper := sound.proper.submissions s mem
  have idle (h : s.progress.calls = []) : False := List.ne_nil_of_mem moved.made h
  cases course with
  | chooses start | drains start => exact (idle (by rw [start]; rfl)).elim
  | accepted _ _ done | refused _ done =>
    obtain start | start := done <;> exact (idle (by rw [start]; rfl)).elim
  | rotates start takes =>
    have ordered := proper.ordered
    have eq := moved.start.symm.trans start
    have awaits := moved.awaits
    cases awaits with
    | rotating e =>
      obtain ⟨rfl, rfl⟩ := Progress.rotating.inj eq
      rw [start] at ordered
      refine .rotates rfl (moved.forall_set ordered takes fun now => ?_)
      obtain ⟨leader, epoch, now⟩ := now
      subst epoch
      rw [← leader] at now ⊢
      exact ⟨rfl, rfl, Server.takes_stepSlot moved.step now⟩
    | admitting | evaluating | finalising | accepting | aborting => cases eq
  | performs x epoch key ready checked directed =>
    have ordered := proper.ordered
    rw [moved.start] at checked ordered
    have ordered := moved.awaits.ordered ordered checked
    rw [moved.start, moved.awaits.calls_eq] at directed
    refine .performs x epoch key ready ?_ ?_
    · have awaits := moved.awaits
      cases awaits <;> exact checked
    · rw [moved.awaits.calls_eq]
      intro call₁ mem₁ slot₁ found
      obtain ⟨made, listed, rfl⟩ := List.mem_map.1 mem₁
      exact moved.forall_set (P := fun call slot => Script.Directs _ s.id ⟨_, call⟩ slot) ordered
        (fun call mem => directed _ (List.mem_map_of_mem mem))
        (moved.directs sound mem (rehearsed x epoch key)) made listed slot₁ found

end Call

end Submission

theorem allReplies_eq_error {α : Type} {answers : List (Except ServerError α)} {e : ServerError}
    (h : allReplies answers = .error e) : .error e ∈ answers := by
  induction answers with
  | nil => cases h
  | cons answer answers ih =>
    cases answer with
    | error e' =>
      obtain rfl := Except.error.inj h
      exact List.mem_cons_self
    | ok a =>
      rw [allReplies, Answer.ok_bind] at h
      cases rest : allReplies answers with
      | error e' =>
        rw [rest] at h
        obtain rfl := Except.error.inj h
        exact List.mem_cons_of_mem _ (ih rest)
      | ok as =>
        rw [rest] at h
        cases h

theorem Verdict.ofReplies_of_accepted (id : RequestId) {replies : List AcceptReply}
    (h : ∀ reply ∈ replies, reply.accepted) :
    ofReplies id replies = .ok ⟨true, replies.filterMap (·.outputShares)⟩ := by
  have all : replies.all (·.accepted) = true := List.all_eq_true.2 h
  rw [ofReplies, all, if_pos]
  exact List.all_eq_true.2 fun reply mem => by rw [h reply mem]; rfl

/-- Whether no other submission of the leader has the identifier. -/
def World.Unique {σ : Type} (w : World σ) (i : Nat) (s : Submission) : Prop :=
  ∀ j s', w.submissions[j]? = some s' → j ≠ i → s'.leader = s.leader → s'.id ≠ s.id

theorem World.Unique.of_reaches {σ : Type} [WordSource σ] {admits : Submission → Prop}
    {w w' : World σ} {i : Nat} {s : Submission} (unique : w'.Unique i s)
    (h : Reaches admits w w') : w.Unique i s := by
  intro j s' there ne leads
  obtain ⟨p, there'⟩ := h.getElem? there
  have other := unique j _ there' ne leads
  exact other

theorem World.Unique.of_length {σ : Type} [WordSource σ] {admits : Submission → Prop}
    {w w' : World σ} {i : Nat} {s : Submission} (unique : w.Unique i s)
    (h : Reaches admits w w') (length : w'.submissions.length = w.submissions.length) :
    w'.Unique i s := by
  intro j s' there ne leads
  obtain ⟨here, -⟩ := List.getElem?_eq_some_iff.1 there
  have present := List.getElem?_eq_getElem (length ▸ here)
  obtain ⟨p, there'⟩ := h.getElem? present
  obtain rfl := Option.some.inj (there.symm.trans there')
  have other := unique j _ present ne leads
  exact other

/-- Whether a submission is through with the servers. -/
def Progress.isOver : Progress → Bool
  | leaving _ | returned _ => true
  | _ => false

theorem Progress.calls_eq_nil_of_isOver {p : Progress} (h : p.isOver) : p.calls = [] := by
  cases p <;> first | rfl | cases h

/-- Whether all others with its identifier are over. -/
def World.Cleared {σ : Type} (w : World σ) (i : Nat) (s : Submission) : Prop :=
  ∀ j s', w.submissions[j]? = some s' → j ≠ i → s'.leader = s.leader → s'.id = s.id →
    s'.progress.isOver

theorem World.Unique.cleared {σ : Type} {w : World σ} {i : Nat} {s : Submission}
    (unique : w.Unique i s) : w.Cleared i s :=
  fun j s' there ne leads same => absurd same (unique j s' there ne leads)

/-- A request that nobody cares for is not pending. -/
theorem World.Attended.find?_eq_none {σ : Type} {w : World σ} (attended : w.Attended) {i : Nat}
    {s : Submission} (present : w.submissions[i]? = some s) (cleared : w.Cleared i s) {peer : Nat}
    {slot : LeaderSlot} (idle : ¬s.progress.attends peer)
    (found : slotAt? w.deployment.servers peer s.leader.toNat = some slot) :
    slot.pending.find? s.id = none := by
  by_contra pending
  obtain ⟨s', mem, same, leads, attends⟩ := attended _ _ slot s.id found pending
  obtain ⟨j, there⟩ := List.mem_iff_getElem?.1 mem
  by_cases here : j = i
  · obtain rfl := here
    obtain rfl := Option.some.inj (there.symm.trans present)
    exact idle attends
  · have ended := cleared j s' there here (UInt64.toNat_inj.1 leads) same
    rw [Progress.attends, Progress.calls_eq_nil_of_isOver ended] at attends
    cases attends

namespace Submission

section Own

variable {F : Field} {c : Circuit} {domain : CircuitDomain} {n capacity : Nat} {σ : Type}
  {w : World σ} {d' : Deployment σ} {i : Nat} {s : Submission} {f : Lane → Lane} {p' : Progress}
  {lag : Nat → Prop}

/-- What is known of an honest submission that is the only one with its identifier. -/
structure Honest (F : Field) (c : Circuit) (domain : CircuitDomain) (w : World σ) (i : Nat)
    (s : Submission) : Prop where
  present : w.submissions[i]? = some s
  reliable : s.network = .reliable
  unique : w.Unique i s
  rehearsed : ∀ x epoch key, Script.Rehearsed
    (Script.ofRequests F c domain s.leader.toNat s.requests x epoch key) F c domain
    s.leader.toNat s.requests x epoch key

theorem Honest.mem (honest : s.Honest F c domain w i) : s ∈ w.submissions :=
  List.mem_of_getElem? honest.present

/-- An honest submission that is handed out at a point that all servers have is checked. -/
theorem Honest.course_handing (honest : s.Honest F c domain w i)
    (sound : w.Sound F c domain n capacity) (servers : d'.servers = w.deployment.servers)
    (ready : ∀ peer < n, lag peer) (idle : ∀ peer, ¬s.progress.attends peer) {x : Nat}
    {epoch : UInt64}
    (known : ∀ peer slot, slotAt? w.deployment.servers peer s.leader.toNat = some slot →
      slot.points.get? epoch = some (.ofPoint F domain x)) :
    { s with progress := .admitting (s.handing w.deployment.servers.length epoch) }.Course F c
      domain n lag d' := by
  -- the key is drawn later, and matters only from then on
  refine .performs x epoch ⟨.replicate 32 0⟩ ready rfl ?_
  rw [servers]
  refine directed_handing (s := s) honest.reliable (honest.rehearsed x epoch _)
    fun peer slot found => ⟨?_, known peer slot found⟩
  exact sound.attended.find?_eq_none honest.present honest.unique.cleared (idle peer) found

theorem Proceeds.of_done {d : Deployment σ} (h : s.Proceeds d f p')
    {result : Except ServerError Verdict}
    (done : s.progress = .leaving result ∨ s.progress = .returned result) :
    p' = .returned result := by
  cases h with
  | leave start =>
    rw [start] at done
    obtain eq | eq := done
    · rw [Progress.leaving.inj eq]
    · cases eq
  | refuse start | queue start | enter start | choose start | drain start | give start
  | rotate _ start | rotationFails start | rotated start | admissionFails start | admitted start
  | evaluationFails start | evaluated _ start | finalFails start | finalised start
  | verdictFails start | decided start | aborted start =>
    rw [start] at done
    obtain eq | eq := done <;> cases eq

theorem Course.of_chooses (honest : s.Honest F c domain w i)
    (sound : w.Sound F c domain n capacity) (announced : w.Announced F domain) {l : Lane}
    (start : s.progress = .choosing) (lane : w.deployment.lane? s.leader = some l)
    (due : ∀ epoch, l.dueEpoch? w.deployment.rotation = some epoch → ∀ peer slot,
      slotAt? w.deployment.servers peer s.leader.toNat = some slot →
        (slot.points.Behind epoch ↔ lag peer))
    (current : l.dueEpoch? w.deployment.rotation = none → ∀ peer < n, lag peer)
    (proceeds : s.Proceeds w.deployment f p') (leads : Leads w.deployment d' s f) :
    { s with progress := p' }.Course F c domain n lag d' := by
  cases proceeds with
  | @drain l' epoch start lane' now =>
    obtain rfl := Option.some.inj (lane'.symm.trans lane)
    exact .drains rfl (leads.servers_eq ▸ due epoch now)
  | @give l' epoch start lane' now known =>
    obtain rfl := Option.some.inj (lane'.symm.trans lane)
    obtain ⟨x, holds⟩ := announced.committed s.leader l' epoch lane known
    refine honest.course_handing sound leads.servers_eq (current now) (fun peer attends => ?_)
      fun peer slot found => (holds peer slot found).get?
    rw [Progress.attends, start] at attends
    cases attends
  | refuse start' | queue start' | enter start' | choose start' | rotate _ start'
  | rotationFails start' | rotated start' | admissionFails start' | admitted start'
  | evaluationFails start' | evaluated _ start' | finalFails start' | finalised start'
  | verdictFails start' | decided start' | aborted start' | leave start' =>
    cases start.symm.trans start'

theorem Course.of_drains (honest : s.Honest F c domain w i) {epoch : UInt64}
    (start : s.progress = .draining epoch)
    (due : ∀ peer slot, slotAt? w.deployment.servers peer s.leader.toNat = some slot →
      (slot.points.Behind epoch ↔ lag peer))
    (proceeds : s.Proceeds w.deployment f p') (leads : Leads w.deployment d' s f) :
    { s with progress := p' }.Course F c domain n lag d' := by
  cases proceeds with
  | rotate x start' =>
    obtain rfl := Progress.draining.inj (start.symm.trans start')
    refine .rotates rfl fun call mem slot found => ?_
    obtain ⟨peer, -, rfl⟩ := exists_of_mem_callThese mem
    refine ⟨rfl, rfl, ?_⟩
    rw [PeerCall.stage_start (by rw [honest.reliable]; rfl)]
    exact .called (due peer slot (leads.servers_eq ▸ found))
  | refuse start' | queue start' | enter start' | choose start' | drain start' | give start'
  | rotationFails start' | rotated start' | admissionFails start' | admitted start'
  | evaluationFails start' | evaluated _ start' | finalFails start' | finalised start'
  | verdictFails start' | decided start' | aborted start' | leave start' =>
    cases start.symm.trans start'

theorem Course.of_rotates (honest : s.Honest F c domain w i)
    (sound : w.Sound F c domain n capacity) (announced : w.Announced F domain) {epoch : UInt64}
    {calls : List (PeerCall .changePoint)} (start : s.progress = .rotating epoch calls)
    (takes : ∀ call ∈ calls, ∀ slot,
      slotAt? w.deployment.servers call.peer s.leader.toNat = some slot →
        call.operation.message.leader = s.leader ∧ call.operation.message.epoch = epoch ∧
          call.operation.stage.Takes s.leader epoch (lag call.peer) slot.points)
    (proceeds : s.Proceeds w.deployment f p') (leads : Leads w.deployment d' s f) :
    { s with progress := p' }.Course F c domain n lag d' := by
  have proper := sound.proper.submissions s honest.mem
  have placed := proper.placed (by rw [start]; rfl)
  have ordered := proper.ordered
  rw [start] at ordered
  have made : ∀ call ∈ calls, ⟨.changePoint, call⟩ ∈ s.progress.calls :=
    fun _ => (Progress.Awaits.rotating epoch).mem_calls start
  -- every server answers by whether it is behind
  have answer {answers : List (Except ServerError Unit)}
      (answered : PeerCall.answers? calls = some answers) (peer : Nat) (peer_lt : peer < n) :
      (lag peer ∧ answers[peer]? = some (.ok ())) ∨
        (¬lag peer ∧
          ∃ current, answers[peer]? = some (.error (.staleEpoch s.leader epoch current))) := by
    obtain ⟨call, mem, rfl⟩ := PeerCall.exists_of_ordered ordered peer_lt
    obtain ⟨reply, stage, told⟩ := PeerCall.getElem?_answers? answered ordered mem
    obtain ⟨slot, found⟩ := sound.proper.fits.exists_slot peer_lt placed.1
    obtain ⟨-, -, takes⟩ := takes call mem slot found
    have intact : call.fate = .intact := by
      rw [(proper.makes _ (made call mem)).fate_eq, honest.reliable]
      rfl
    rw [told, intact]
    rw [stage] at takes
    cases takes with
    | taken lags => exact .inl ⟨lags, rfl⟩
    | refused current lags => exact .inr ⟨lags, current, rfl⟩
  cases proceeds with
  | @rotationFails epoch' calls' answers e start' answered failed =>
    obtain ⟨rfl, rfl⟩ := Progress.rotating.inj (start.symm.trans start')
    obtain ⟨peer, told⟩ := List.mem_iff_getElem?.1 (allReplies_eq_error failed)
    have peer_lt : peer < n :=
      PeerCall.length_answers? answered ordered ▸ (List.getElem?_eq_some_iff.1 told).1
    obtain ⟨-, taken⟩ | ⟨lags, current, refused⟩ := answer answered peer peer_lt
    · cases told.symm.trans taken
    · obtain rfl := Except.error.inj (Option.some.inj (told.symm.trans refused))
      exact .refused (fun ready => lags (ready peer peer_lt)) (.inl rfl)
  | @rotated epoch' calls' answers replies start' answered replied =>
    obtain ⟨rfl, rfl⟩ := Progress.rotating.inj (start.symm.trans start')
    obtain ⟨x, -, holds⟩ :=
      (announced.rotates s honest.mem epoch calls start).holds sound.proper.fits
      ordered answered replied
    refine honest.course_handing sound leads.servers_eq (fun peer peer_lt => ?_)
      (fun peer attends => ?_)
      fun peer slot found => (EvaluationPoints.Holds.newest (holds peer slot found)).get?
    · obtain ⟨lags, -⟩ | ⟨-, current, refused⟩ := answer answered peer peer_lt
      · exact lags
      · obtain ⟨_, ⟨⟩⟩ := ok_of_allReplies replied (List.mem_of_getElem? refused)
    · obtain ⟨call, mem, -, attends⟩ := Progress.attends_iff.1 attends
      rw [start] at mem
      obtain ⟨call, -, rfl⟩ := List.mem_map.1 mem
      cases attends
  | refuse start' | queue start' | enter start' | choose start' | drain start' | give start'
  | rotate _ start' | admissionFails start' | admitted start'
  | evaluationFails start' | evaluated _ start' | finalFails start' | finalised start'
  | verdictFails start' | decided start' | aborted start' | leave start' =>
    cases start.symm.trans start'

theorem Course.of_performs (honest : s.Honest F c domain w i)
    (sound : w.Sound F c domain n capacity) {x : Nat} {epoch : UInt64} {key : Key}
    (ready : ∀ peer < n, lag peer) (checked : s.progress.isChecked)
    (directed : s.Directed w.deployment.servers
      (Script.ofRequests F c domain s.leader.toNat s.requests x epoch key) s.progress.calls)
    (proceeds : s.Proceeds w.deployment f p') (leads : Leads w.deployment d' s f) :
    { s with progress := p' }.Course F c domain n lag d' := by
  have proper := sound.proper.submissions s honest.mem
  have rehearsed := honest.rehearsed x epoch key
  have intact {kind : Call} {message : kind.Message} (peer : Nat) :
      s.network peer kind message = .intact := by
    rw [honest.reliable]
    rfl
  -- every round ends with the answers of the script
  have round {kind : Call} {await : List (PeerCall kind) → Progress}
      {calls : List (PeerCall kind)} {answers : List (Except ServerError kind.Reply)}
      (awaits : Progress.Awaits kind await) (start : s.progress = await calls)
      (answered : PeerCall.answers? calls = some answers) := by
    have placed := proper.placed (by rw [start]; cases awaits <;> rfl)
    have ordered := proper.ordered
    have fates := proper.makes
    rw [start] at checked ordered
    rw [start, awaits.calls_eq] at directed fates
    exact directed.replies sound.proper.fits placed.1 (rehearsed.length_eq.trans placed.2)
      (awaits.ordered ordered checked)
      (fun call mem => (fates _ (List.mem_map_of_mem mem)).fate_eq.trans (intact _))
      answered
  have verdict {calls : List (PeerCall .accept)} {answers : List (Except ServerError AcceptReply)}
      (start : s.progress = .accepting calls)
      (answered : PeerCall.answers? calls = some answers) := by
    have favourable : ∀ reply ∈ (Script.ofRequests F c domain s.leader.toNat s.requests x epoch
        key).map (·.answer .accept), reply.accepted := by
      intro reply mem
      obtain ⟨t, listed, rfl⟩ := List.mem_map.1 mem
      exact rehearsed.accepts t listed
    have := Verdict.ofReplies_of_accepted s.id favourable
    rwa [← Answer.ok_bind (f := Verdict.ofReplies s.id),
      ← (round .accepting start answered).1] at this
  cases proceeds with
  | admissionFails start answered failed =>
    cases (round .admitting start answered).1.symm.trans failed
  | evaluationFails start answered failed =>
    cases (round .evaluating start answered).1.symm.trans failed
  | finalFails start answered failed => cases (round .finalising start answered).1.symm.trans failed
  | admitted start answered replied =>
    refine .performs x epoch key ready rfl ?_
    rw [leads.servers_eq]
    refine directed_callThese (s := s) (by decide) intact rehearsed.evaluates
      fun peer slot found => ?_
    obtain ⟨t, present, kept⟩ := (round .admitting start answered).2 peer slot found
    exact ⟨t, present, kept ▸ .toEvaluate⟩
  | evaluated key' start answered replied =>
    obtain ⟨told, kept⟩ := round .evaluating start answered
    obtain rfl := Except.ok.inj (told.symm.trans replied)
    refine .performs x epoch key' ready rfl ?_
    rw [leads.servers_eq]
    refine directed_callThese (s := s) (by decide) intact (fun t mem => ?_)
      fun peer slot found => ?_
    · have := (honest.rehearsed x epoch key').finishes t mem
      rwa [Script.map_corShare_ofRequests _ _ _ _ _ _ _ key' key] at this
    · obtain ⟨t, present, kept⟩ := kept peer slot found
      obtain ⟨t', present', same⟩ := Script.exists_ofRequests present key'
      exact ⟨t', present', kept ▸ same ▸ .toFinish⟩
  | finalised start answered replied =>
    obtain ⟨told, kept⟩ := round .finalising start answered
    obtain rfl := Except.ok.inj (told.symm.trans replied)
    refine .performs x epoch key ready rfl ?_
    rw [leads.servers_eq]
    refine directed_callThese (s := s) (by decide) intact rehearsed.decides
      fun peer slot found => ?_
    obtain ⟨t, present, kept⟩ := kept peer slot found
    exact ⟨t, present, kept ▸ .toDecide⟩
  | verdictFails start answered failed =>
    rw [verdict start answered] at failed
    cases failed
  | decided start answered replied =>
    obtain rfl := Except.ok.inj ((verdict start answered).symm.trans replied)
    exact .accepted ready rfl (.inl rfl)
  | refuse start' | queue start' | enter start' | choose start' | drain start' | give start'
  | rotate _ start' | rotationFails start' | rotated start' | aborted start' | leave start' =>
    rw [start'] at checked
    cases checked

theorem Course.of_own (course : s.Course F c domain n lag w.deployment)
    (honest : s.Honest F c domain w i) (sound : w.Sound F c domain n capacity)
    (announced : w.Announced F domain) (proceeds : s.Proceeds w.deployment f p')
    (leads : Leads w.deployment d' s f) : { s with progress := p' }.Course F c domain n lag d' := by
  cases course with
  | chooses start lane due current =>
    exact .of_chooses honest sound announced start lane due current proceeds leads
  | drains start due => exact .of_drains honest start due proceeds leads
  | rotates start takes => exact .of_rotates honest sound announced start takes proceeds leads
  | performs x epoch key ready checked directed =>
    exact .of_performs honest sound ready checked directed proceeds leads
  | accepted ready favourable done =>
    exact .accepted ready favourable (.inr (proceeds.of_done done))
  | refused stale done => exact .refused stale (.inr (proceeds.of_done done))

end Own

section Step

variable {F : Field} {c : Circuit} {domain : CircuitDomain} {n capacity : Nat} {σ : Type}
  {w : World σ} {d' : Deployment σ} {i j : Nat} {s s' : Submission} {lag : Nat → Prop}

/-- The others go their own ways. -/
theorem Course.of_other (course : s.Course F c domain n lag w.deployment)
    (honest : s.Honest F c domain w i) (sound : w.Sound F c domain n capacity)
    (announced : w.Announced F domain) (ne : j ≠ i) (there : w.submissions[j]? = some s')
    {s'' : Submission} (turn : s'.Turn F domain w.deployment d' s'') :
    s.Course F c domain n lag d' := by
  cases turn with
  | own proceeds leads =>
    refine course.frame leads.rotation_eq (fun given l lane => ?_) fun peer slot' found => ?_
    · exact sound.counted.keeps there proceeds leads ne.symm honest.present given lane
    · exact ⟨slot', leads.servers_eq ▸ found, rfl, fun _ => rfl⟩
  | @call kind await calls k call server slot slot' stage' moved =>
    refine course.frame moved.rotation_eq (fun given l lane => ?_) fun peer slot₁ found => ?_
    · refine ⟨l, ?_, rfl, rfl, Nat.le_refl _⟩
      rw [Deployment.lane?, moved.lanes_eq]
      exact lane
    obtain ⟨slot₀, found₀, pending, points⟩ := moved.exists_slot found
    refine ⟨slot₀, found₀, pending _ fun leads => (honest.unique j s' there ne leads.symm).symm,
      fun busy => points fun leads changes => ?_⟩
    have mem := List.mem_of_getElem? there
    obtain given | admitted := busy
    · -- an announcement is made by a submission that is being given its epoch
      have given' : s'.progress.isGiven := by
        subst changes
        rw [moved.start]
        cases moved.awaits
        rfl
      obtain ⟨l, lane⟩ := sound.proper.exists_lane mem moved.isUnderWay
      exact ne (sound.counted.eq_of_given there honest.present leads lane given' given)
    · exact announced.ne_changePoint sound.counted honest.mem admitted mem leads moved changes

variable [WordSource σ] {admits : Submission → Prop} {w' : World σ}

theorem Course.of_step (course : s.Course F c domain n lag w.deployment)
    (honest : s.Honest F c domain w i) (sound : w.Sound F c domain n capacity)
    (announced : w.Announced F domain) (h : World.Step admits w w') :
    ∃ p', w'.submissions[i]? = some { s with progress := p' } ∧
      { s with progress := p' }.Course F c domain n lag w'.deployment := by
  obtain ⟨-, next⟩ := sound.proper.of_step h
  obtain ⟨d', submissions'⟩ := w'
  obtain ⟨here, -⟩ := List.getElem?_eq_some_iff.1 honest.present
  obtain ⟨s₀, -, -, rfl, rfl⟩ | ⟨j, s₀, s', there, rfl, turn⟩ := next
  · exact ⟨s.progress, by rw [List.getElem?_append_left here, honest.present], course⟩
  obtain rfl | ne := eq_or_ne j i
  · obtain rfl := Option.some.inj (there.symm.trans honest.present)
    rw [List.getElem?_set_self here]
    cases turn with
    | own proceeds leads =>
      exact ⟨_, rfl, course.of_own honest sound announced proceeds leads⟩
    | call moved => exact ⟨_, rfl, course.of_call sound honest.mem honest.rehearsed moved⟩
  · exact ⟨s.progress, by rw [List.getElem?_set_ne ne, honest.present],
      course.of_other honest sound announced ne there turn⟩

end Step

end Submission

end PrivateSums
