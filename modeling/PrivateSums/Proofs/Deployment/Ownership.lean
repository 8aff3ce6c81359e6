import PrivateSums.Deployment.Schedule.Run
import PrivateSums.Proofs.Deployment.Recovery
import PrivateSums.Proofs.Deployment.Service

/-!
Requests under the same identifier. The one that came first owns the identifier on a server until it
is over there, as long as no other comes in while the server has taken it out.
-/

namespace PrivateSums

/-- Whether an operation has taken its request out, to put it back later. -/
def Stage.isOut {c : Call} : Stage c → Bool
  | .evaluating _ | .evaluated .. | .finalising _ | .finalised .. => true
  | _ => false

/-- Whether all servers took the request in, and none of them withdrew it. -/
def Progress.isTaken : Progress → Bool
  | evaluating _ | finalising _ | accepting _ | leaving (.ok _) | returned (.ok _) => true
  | _ => false

/-- The kind of call that is next to find a request that an operation cares for. -/
def Stage.next : {c : Call} → Stage c → Call
  | .evalCircuit, .called => .evalCircuit
  | .evalCircuit, _ => .finalCircuit
  | .finalCircuit, .called => .finalCircuit
  | .finalCircuit, _ => .accept
  | .accept, _ => .accept
  | _, _ => .evalCircuit

/-- The checker that took a request in, as calls of one kind are to find it. -/
inductive Checker.Ready (fresh : Checker) (request : ClientRequest) (point : EvaluationPoint) :
    Call → Checker → Prop
  | loaded {k : Checker} (loads : fresh.setRequest request = .ok k) :
      Ready fresh request point .evalCircuit k
  | evaluated {k k' : Checker} {share : CorShare} (ready : Ready fresh request point .evalCircuit k)
      (evaluates : k.corShare point = .ok (share, k')) : Ready fresh request point .finalCircuit k'
  | finished {k k' : Checker} {corShares : List CorShare} {key : Key} {share : OutShare}
      (ready : Ready fresh request point .finalCircuit k)
      (finishes : k.finalShare corShares key = .ok (share, k')) :
      Ready fresh request point .accept k'

/-- What is pending of a request that an operation cares for: that request with its own checker, or
nothing as long as the operation has taken it out. -/
def Stage.Finds {c : Call} (stage : Stage c) (fresh : Checker) (request : ClientRequest)
    (pending : Option Pending) : Prop :=
  if stage.isOut then pending = none
  else ∃ k point, pending = some ⟨k, point⟩ ∧ fresh.Ready request point stage.next k

/-- Whether a submission has taken its request out on a server. -/
def Progress.isOut (peer : Nat) (p : Progress) : Bool :=
  p.calls.any fun call => call.2.peer == peer && call.2.operation.stage.isOut

theorem Progress.isUnderWay_of_calls {p : Progress} {call : AnyCall} (mem : call ∈ p.calls) :
    p.isUnderWay := by
  cases p <;> first | rfl | cases mem

theorem Progress.isOut_iff {peer : Nat} {p : Progress} : p.isOut peer ↔
    ∃ call ∈ p.calls, call.2.peer = peer ∧ call.2.operation.stage.isOut := by
  simp [isOut]

theorem Progress.attends_of_isOut {peer : Nat} {p : Progress} (h : p.isOut peer) :
    p.attends peer := by
  obtain ⟨⟨kind, call⟩, made, same, out⟩ := isOut_iff.1 h
  refine attends_iff.2 ⟨⟨kind, call⟩, made, same, ?_⟩
  dsimp only at out ⊢
  cases eq : call.operation.stage <;> rw [eq] at out <;> first | rfl | cases out

theorem Progress.isServed_of_isAdmitted {p : Progress} (h : p.isAdmitted) : p.isServed := by
  cases p <;> first | rfl | cases h

theorem Progress.of_attends_set {peer i : Nat} {c : Call} {await : List (PeerCall c) → Progress}
    {calls : List (PeerCall c)} {call : PeerCall c} {stage' : Stage c} (awaits : Awaits c await)
    (h : (await (calls.set i (call.withStage stage'))).attends peer) :
    (await calls).attends peer ∨ call.peer = peer ∧ stage'.attends := by
  rw [attends_iff, awaits.calls_eq] at h
  obtain ⟨_, made, rfl, attends⟩ := h
  obtain ⟨made, listed, rfl⟩ := List.mem_map.1 made
  obtain rfl | ⟨_, -, there⟩ := of_mem_set listed
  · exact .inr ⟨rfl, attends⟩
  · refine .inl (attends_iff.2 ⟨_, ?_, rfl, attends⟩)
    rw [awaits.calls_eq]
    exact List.mem_map_of_mem (List.mem_of_getElem? there)

theorem Progress.isServed_of_attends {peer : Nat} {p : Progress} (h : p.attends peer) :
    p.isServed := by
  obtain ⟨call, mem, -, attends⟩ := attends_iff.1 h
  cases p with
  | rotating epoch calls =>
    obtain ⟨call, -, rfl⟩ := List.mem_map.1 mem
    cases attends
  | arrived | queued | entered | choosing | draining | leaving | returned => cases mem
  | admitting | evaluating | finalising | accepting | aborting => rfl

/-- An operation that does not care for its request leaves what is pending alone, unless it takes
its own in where there is none. -/
theorem Server.find?_stepSlot {server : Server} {slot slot' : LeaderSlot} {c : Call}
    {m : c.Message} {stage stage' : Stage c} {id : RequestId} (about : ∀ i ∈ c.id? m, i = id)
    (h : server.stepSlot slot m stage = some (slot', stage')) (idle : ¬stage.attends)
    (refuses : c = .newRequest → ∀ a, stage ≠ .leaving (.ok a)) :
    slot'.pending.find? id = slot.pending.find? id ∧ ¬stage'.attends ∨
      slot.pending.find? id = none ∧ stage'.attends := by
  cases c with
  | evalCircuit | finalCircuit => exact absurd rfl idle
  | newRequest =>
    cases stage <;> simp only [stepSlot, LeaderSlot.stepNewRequest] at h
    case answered => cases h
    case releasing =>
      obtain ⟨rfl, rfl⟩ := Prod.mk.inj (Option.some.inj h)
      exact .inl ⟨rfl, Bool.false_ne_true⟩
    case leaving answer =>
      obtain ⟨rfl, rfl⟩ := Prod.mk.inj (Option.some.inj h)
      cases answer with
      | ok a => exact absurd rfl (refuses rfl a)
      | error e => exact .inl ⟨rfl, Bool.false_ne_true⟩
    case unused =>
      obtain ⟨pool, -, h⟩ := Option.map_eq_some_iff.1 h
      obtain ⟨rfl, rfl⟩ := Prod.mk.inj h
      exact .inl ⟨rfl, Bool.false_ne_true⟩
    case loaded =>
      rw [about _ rfl] at h
      split at h <;> obtain ⟨rfl, rfl⟩ := Prod.mk.inj (Option.some.inj h)
      · exact .inl ⟨rfl, Bool.false_ne_true⟩
      · exact .inr ⟨‹_›, rfl⟩
    all_goals
      split at h <;> obtain ⟨rfl, rfl⟩ := Prod.mk.inj (Option.some.inj h) <;>
        exact .inl ⟨rfl, Bool.false_ne_true⟩
  | accept =>
    cases stage <;> simp only [stepSlot, LeaderSlot.stepAccept] at h
    case called => exact absurd rfl idle
    case answered => cases h
    all_goals
      obtain ⟨rfl, rfl⟩ := Prod.mk.inj (Option.some.inj h)
      exact .inl ⟨rfl, Bool.false_ne_true⟩
  | changePoint =>
    cases stage <;> simp only [stepSlot, LeaderSlot.stepChangePoint] at h
    case answered => cases h
    case computed =>
      split at h <;> obtain ⟨rfl, rfl⟩ := Prod.mk.inj (Option.some.inj h) <;>
        exact .inl ⟨rfl, Bool.false_ne_true⟩
    all_goals
      obtain ⟨rfl, rfl⟩ := Prod.mk.inj (Option.some.inj h)
      exact .inl ⟨rfl, Bool.false_ne_true⟩
  | abort =>
    cases stage <;> simp only [stepSlot, LeaderSlot.stepAbort] at h
    case called => exact absurd rfl idle
    case answered => cases h
    all_goals
      obtain ⟨rfl, rfl⟩ := Prod.mk.inj (Option.some.inj h)
      exact .inl ⟨rfl, Bool.false_ne_true⟩

namespace Submission

variable {F : Field} {c : Circuit} {domain : CircuitDomain} {k n capacity : Nat} {σ : Type}
  {w : World σ} {d d' : Deployment σ} {s : Submission} {twice : Prop} {drawn : Key → Prop} {x : Nat}
  {epoch : UInt64} {f : Lane → Lane} {p' : Progress} {peer : Nat} {slot : LeaderSlot}

theorem Served.admits_of_calls (served : s.Served F c domain twice drawn x epoch d)
    {call : PeerCall .newRequest} (made : ⟨.newRequest, call⟩ ∈ s.progress.calls)
    (found : slotAt? d.servers call.peer s.leader.toNat = some slot) :
    call.operation.stage.Admits twice (.new F c call.peer s.leader.toNat s.requests.length)
      (.ofPoint F domain x) call.operation.message.request s.id (slot.pending.find? s.id) := by
  obtain ⟨await, calls, i, awaits, start', present⟩ := Progress.exists_awaits made
  cases awaits
  cases served with
  | admits start _ _ each =>
    obtain rfl := Progress.admitting.inj (start'.symm.trans start)
    exact each call (List.mem_of_getElem? present) slot found
  | performs _ _ rounds =>
    rw [start'] at rounds
    cases rounds
  | withdraws start => cases start'.symm.trans start

/-- A request that is served is pending wherever it is in care and not taken out. -/
theorem Served.finds (served : s.Served F c domain twice drawn x epoch w.deployment)
    (sound : w.Sound F c domain n capacity) (mem : s ∈ w.submissions) (hd : domain.Valid F k)
    (size : c.domainSize = 2 ^ k) {call : AnyCall} (made : call ∈ s.progress.calls)
    (attends : call.2.operation.stage.attends) :
    ∃ request slot, s.requests[call.2.peer]? = some request ∧
      slotAt? w.deployment.servers call.2.peer s.leader.toNat = some slot ∧
      call.2.operation.stage.Finds (.new F c call.2.peer s.leader.toNat n) request
        (slot.pending.find? s.id) := by
  have proper := sound.proper.submissions s mem
  have peer_lt := (proper.makes call made).peer_lt
  have placed := proper.placed (Progress.isUnderWay_of_calls made)
  obtain ⟨request, there⟩ : ∃ request, s.requests[call.2.peer]? = some request :=
    ⟨_, List.getElem?_eq_getElem (placed.2.symm ▸ peer_lt)⟩
  obtain ⟨slot, found⟩ := sound.proper.fits.exists_slot peer_lt placed.1
  refine ⟨request, slot, there, found, ?_⟩
  rw [← placed.2]
  cases served with
  | admits start _ handed each =>
    rw [start] at made
    obtain ⟨call, listed, rfl⟩ := List.mem_map.1 made
    obtain rfl := Option.some.inj ((handed call listed).2.symm.trans there)
    have admits := each call listed slot found
    dsimp only at attends ⊢
    generalize call.operation.stage = stage at admits attends
    generalize slot.pending.find? s.id = pending at admits
    cases admits <;> cases attends
    rename_i k ok
    exact ⟨k, _, rfl, .loaded ok⟩
  | performs key admissible _ _ each =>
    have performed := Script.performed_ofRequests hd size admissible x epoch key
    obtain ⟨t, present, -, serves⟩ := each call made slot found
    have listed := List.mem_of_getElem? present
    obtain ⟨-, point, fresh, loads⟩ := performed.loads _ t _ present there
    rw [Script.Serves, if_pos attends] at serves
    obtain ⟨kind, call⟩ := call
    dsimp only at *
    rw [← fresh]
    have loaded : t.fresh.Ready _ t.point .evalCircuit t.loaded := .loaded loads
    have evaluated := loaded.evaluated (performed.evaluates t listed)
    have finished := evaluated.finished (performed.finishes t listed)
    generalize call.operation.stage = stage at serves attends
    generalize slot.pending.find? s.id = pending at serves
    cases serves with
    | admitted | toEvaluate => exact ⟨_, _, rfl, loaded⟩
    | shared | toFinish => exact ⟨_, _, rfl, evaluated⟩
    | combined | toDecide => exact ⟨_, _, rfl, finished⟩
    | evaluating | evaluated | finalising | finalised => exact rfl
    | offered | bound | unused | permitted | loading | loaded | deciding | releasing | leaving
    | decided => cases attends
  | withdraws start _ _ each =>
    rw [start] at made
    obtain ⟨call, listed, rfl⟩ := List.mem_map.1 made
    obtain ⟨request, k, there', ok, holds⟩ := each call listed slot found attends
    obtain rfl := Option.some.inj (there'.symm.trans there)
    dsimp only at attends ⊢
    cases eq : call.operation.stage with
    | called => exact ⟨k, _, holds, .loaded ok⟩
    | releasing | leaving | answered =>
      rw [eq] at attends
      cases attends

/-- A submission whose request is not pending where it is in care has taken it out. -/
theorem Served.isOut_of_absent (served : s.Served F c domain twice drawn x epoch w.deployment)
    (sound : w.Sound F c domain n capacity) (mem : s ∈ w.submissions) (hd : domain.Valid F k)
    (size : c.domainSize = 2 ^ k) (attends : s.progress.attends peer)
    (found : slotAt? w.deployment.servers peer s.leader.toNat = some slot)
    (absent : slot.pending.find? s.id = none) : s.progress.isOut peer := by
  obtain ⟨call, made, rfl, cares⟩ := Progress.attends_iff.1 attends
  obtain ⟨request, slot', -, found', finds⟩ := served.finds sound mem hd size made cares
  obtain rfl := Option.some.inj (found.symm.trans found')
  refine Progress.isOut_iff.2 ⟨call, made, rfl, ?_⟩
  by_contra idle
  rw [Stage.Finds, if_neg idle, absent] at finds
  obtain ⟨_, _, eq, -⟩ := finds
  cases eq

/-- A submission cares for its request where that was taken in. -/
theorem Proper.attends_of_ok (proper : s.Proper n) {calls : List (PeerCall .newRequest)}
    {answers : List (Except ServerError Unit)} (start : s.progress = .admitting calls)
    (answered : PeerCall.answers? calls = some answers) {a : Unit}
    (told : answers[peer]? = some (.ok a)) : s.progress.attends peer := by
  have ordered := proper.ordered
  rw [start] at ordered
  have peer_lt := (List.getElem?_eq_some_iff.1 told).1
  rw [PeerCall.length_answers? answered ordered] at peer_lt
  obtain ⟨call, listed, rfl⟩ := PeerCall.exists_of_ordered ordered peer_lt
  obtain ⟨reply, stage, told'⟩ := PeerCall.getElem?_answers? answered ordered listed
  obtain ⟨b, rfl⟩ := Fate.of_deliver (Option.some.inj (told'.symm.trans told))
  exact Progress.attends_iff.2 ⟨_, Progress.Awaits.admitting.mem_calls start listed, rfl,
    by dsimp only; rw [stage]; rfl⟩

theorem Proper.attends_of_admitted (proper : s.Proper n) {calls : List (PeerCall .newRequest)}
    {answers : List (Except ServerError Unit)} {replies : List Unit}
    (start : s.progress = .admitting calls) (answered : PeerCall.answers? calls = some answers)
    (replied : allReplies answers = .ok replies) (peer_lt : peer < n) :
    s.progress.attends peer := by
  have ordered := proper.ordered
  rw [start] at ordered
  rw [← PeerCall.length_answers? answered ordered] at peer_lt
  obtain ⟨answer, told⟩ : ∃ answer, answers[peer]? = some answer :=
    ⟨_, List.getElem?_eq_getElem peer_lt⟩
  obtain ⟨a, rfl⟩ := ok_of_allReplies replied (List.mem_of_getElem? told)
  exact proper.attends_of_ok start answered told

/-- In both rounds a submission cares for its request on every server. -/
theorem Proper.attends_of_round (proper : s.Proper n) {kind : Call}
    {await : List (PeerCall kind) → Progress} {calls : List (PeerCall kind)}
    (awaits : Progress.Awaits kind await) (start : s.progress = await calls)
    (checked : (await calls).isChecked) (all : ∀ stage : Stage kind, stage.attends)
    (peer_lt : peer < n) : s.progress.attends peer := by
  have ordered := proper.ordered
  rw [start] at ordered
  obtain ⟨call, listed, rfl⟩ := PeerCall.exists_of_ordered (awaits.ordered ordered checked) peer_lt
  exact Progress.attends_iff.2 ⟨_, awaits.mem_calls start listed, rfl, all _⟩

/-- A submission cares for its request only where it did before. -/
theorem Proceeds.attends_of_attends (proceeds : s.Proceeds w.deployment f p')
    (served : s.progress.isServed →
      ∃ x epoch, s.Served F c domain twice drawn x epoch w.deployment)
    (sound : w.Sound F c domain n capacity) (mem : s ∈ w.submissions) (hd : domain.Valid F k)
    (size : c.domainSize = 2 ^ k) (attends : p'.attends peer) : s.progress.attends peer := by
  have proper := sound.proper.submissions s mem
  obtain ⟨call, made, rfl, cares⟩ := Progress.attends_iff.1 attends
  have peer_lt := (proceeds.makes call made).peer_lt
  rw [sound.proper.fits.length_eq] at peer_lt
  cases proceeds with
  | evaluated _ start | evaluationFails start =>
    exact proper.attends_of_round .evaluating start rfl (fun _ => rfl) peer_lt
  | finalised start | finalFails start =>
    exact proper.attends_of_round .finalising start rfl (fun _ => rfl) peer_lt
  | verdictFails start answered failed =>
    obtain ⟨x, epoch, served⟩ := served (by rw [start]; rfl)
    cases served with
    | admits start' | withdraws start' => cases start.symm.trans start'
    | performs key admissible _ _ guided =>
      obtain ⟨v, -, decided⟩ := verdict_of_guides sound mem hd size admissible guided start answered
      cases decided.symm.trans failed
  | admitted start answered replied =>
    exact proper.attends_of_admitted start answered replied peer_lt
  | @admissionFails calls answers e start answered failed =>
    obtain ⟨_, sent, rfl⟩ := List.mem_map.1 made
    obtain ⟨peer, among, rfl⟩ := exists_of_mem_callThese sent
    obtain ⟨-, told⟩ := List.mem_filter.1 among
    obtain ⟨answer, eq, ok⟩ := (Option.any_eq_true _ _).1 told
    cases answer with
    | ok => exact proper.attends_of_ok start answered eq
    | error => cases ok
  | give | rotated | rotate =>
    obtain ⟨_, sent, rfl⟩ := List.mem_map.1 made
    obtain ⟨_, -, rfl⟩ := List.mem_map.1 sent
    dsimp only [PeerCall.start] at cares
    split at cares <;> cases cares
  | refuse | queue | enter | choose | drain | rotationFails | decided | aborted | leave =>
    cases made

/-- A request comes to be served when it is handed out, at a point that all servers have. -/
theorem Proceeds.exists_handing (h : s.Proceeds w.deployment f p')
    (sound : w.Sound F c domain n capacity) (announced : w.Announced F domain)
    (mem : s ∈ w.submissions) (before : ¬s.progress.isServed) (after : p'.isServed) :
    ∃ x epoch, p' = .admitting (s.handing w.deployment.servers.length epoch) ∧
      ∀ peer slot, slotAt? w.deployment.servers peer s.leader.toNat = some slot →
        slot.points.get? epoch = some (.ofPoint F domain x) := by
  cases h with
  | @give l epoch start lane due current =>
    obtain ⟨x, holds⟩ := announced.committed s.leader l epoch lane current
    exact ⟨x, epoch, rfl, fun peer slot found => (holds peer slot found).get?⟩
  | @rotated epoch calls answers replies start answered replied =>
    have ordered := (sound.proper.submissions s mem).ordered
    rw [start] at ordered
    obtain ⟨x, -, holds⟩ := (announced.rotates s mem epoch calls start).holds sound.proper.fits
      ordered answered replied
    exact ⟨x, epoch, rfl, fun peer slot found =>
      (EvaluationPoints.Holds.newest (holds peer slot found)).get?⟩
  | admissionFails start | admitted start | evaluationFails start | evaluated _ start
  | finalFails start | finalised start | verdictFails start =>
    rw [start] at before
    exact absurd rfl before
  | refuse | queue | enter | choose | drain | rotate | rotationFails | decided | aborted | leave =>
    cases after

end Submission

namespace World

variable {σ : Type} {F : Field} {c : Circuit} {domain : CircuitDomain} {k n capacity : Nat}

/-- Whether a submission has a request of this leader, with this identifier, on a server. -/
def Owns (w : World σ) (i peer : Nat) (leader : UInt64) (id : RequestId) : Prop :=
  ∃ s, w.submissions[i]? = some s ∧ s.leader = leader ∧ s.id = id ∧ s.progress.attends peer

/-- Whether it has taken that request out. -/
def TakesOut (w : World σ) (i peer : Nat) (leader : UInt64) (id : RequestId) : Prop :=
  ∃ s, w.submissions[i]? = some s ∧ s.leader = leader ∧ s.id = id ∧ s.progress.isOut peer

/-- Whether a step takes in a request under the identifier of one that is taken out there. -/
def Slips (w w' : World σ) : Prop :=
  ∃ i j peer leader id, w.TakesOut i peer leader id ∧ ¬w.Owns j peer leader id ∧
    w'.Owns j peer leader id

/-- What holds as long as no step slips: requests go through the rounds as they should, and none
has the identifier of another on a server that has that. -/
structure Apart (F : Field) (c : Circuit) (domain : CircuitDomain) (w : World σ) : Prop where
  served : ∀ s ∈ w.submissions, s.progress.isServed →
    ∃ x epoch, s.Served F c domain True (fun _ => True) x epoch w.deployment
  alone : ∀ i j peer leader id, w.Owns i peer leader id → w.Owns j peer leader id → j = i

section Step

variable {w : World σ} {i : Nat} {s : Submission} {d' : Deployment σ} {peer : Nat}
  {leader : UInt64} {id : RequestId}

/-- Who has just come has nothing yet. -/
theorem Owns.of_append {j : Nat} (start : s.progress = .arrived)
    (owns : Owns ⟨d', w.submissions ++ [s]⟩ j peer leader id) : w.Owns j peer leader id := by
  obtain ⟨s₀, there, leads, same, attends⟩ := owns
  rw [List.getElem?_append] at there
  split at there
  · exact ⟨s₀, there, leads, same, attends⟩
  · obtain rfl := List.mem_singleton.1 (List.mem_of_getElem? there)
    rw [Progress.attends, start] at attends
    cases attends

/-- A step of one submission leaves the others what they have. -/
theorem Owns.of_set {p' : Progress} {j : Nat} (present : w.submissions[i]? = some s)
    (owns : Owns ⟨d', w.submissions.set i { s with progress := p' }⟩ j peer leader id) :
    w.Owns j peer leader id ∨
      j = i ∧ s.leader = leader ∧ s.id = id ∧ p'.attends peer := by
  obtain ⟨s', there, leads, same, attends⟩ := owns
  obtain rfl | ne := eq_or_ne i j
  · rw [List.getElem?_set_self (List.getElem?_eq_some_iff.1 present).1] at there
    obtain rfl := Option.some.inj there
    exact .inr ⟨rfl, leads, same, attends⟩
  · rw [List.getElem?_set_ne ne] at there
    exact .inl ⟨s', there, leads, same, attends⟩

section Call

variable {kind : Call} {await : List (PeerCall kind) → Progress} {calls : List (PeerCall kind)}
  {j : Nat} {call : PeerCall kind} {server : Server} {slot slot' : LeaderSlot} {stage' : Stage kind}

/-- A step of another submission leaves a request in care alone, and takes none in under its
identifier. -/
theorem Apart.spares (apart : w.Apart F c domain) (sound : w.Sound F c domain n capacity)
    (hd : domain.Valid F k) (size : c.domainSize = 2 ^ k) (present : w.submissions[i]? = some s)
    (moved : s.CallStep F domain w.deployment d' await calls j call server slot slot' stage')
    (clean : ¬Slips w ⟨d', w.submissions.set i
      { s with progress := await (calls.set j (call.withStage stage')) }⟩)
    {l : Nat} (owns : w.Owns l call.peer s.leader s.id) (ne : i ≠ l) :
    slot'.pending.find? s.id = slot.pending.find? s.id ∧ ¬stage'.attends := by
  obtain ⟨here, -⟩ := List.getElem?_eq_some_iff.1 present
  have foreign : ¬w.Owns i call.peer s.leader s.id :=
    fun own => ne (apart.alone l i _ _ _ owns own)
  have idle : ¬call.operation.stage.attends := fun attends =>
    foreign ⟨s, present, rfl, rfl, Progress.attends_iff.2 ⟨_, moved.made, rfl, attends⟩⟩
  have refuses : kind = .newRequest → ∀ a, call.operation.stage ≠ .leaving (.ok a) := by
    rintro rfl a eq
    obtain ⟨x, epoch, served⟩ := apart.served s (List.mem_of_getElem? present)
      (Progress.isServed_of_isAdmitted (Progress.isAdmitted_of_calls moved.made rfl))
    have admits := served.admits_of_calls moved.made moved.found
    rw [eq] at admits
    cases admits
  obtain kept | ⟨absent, taken⟩ :=
    Server.find?_stepSlot moved.makes.id_eq moved.step idle refuses
  · exact kept
  · -- the owner has taken its request out, or it would be there
    refine absurd ⟨l, i, call.peer, s.leader, s.id, ?_, foreign,
      { s with progress := _ }, List.getElem?_set_self here, rfl, rfl, ?_⟩ clean
    · obtain ⟨owner, there, leads, same, attends⟩ := owns
      have mem := List.mem_of_getElem? there
      obtain ⟨x, epoch, served⟩ := apart.served owner mem (Progress.isServed_of_attends attends)
      exact ⟨owner, there, leads, same, served.isOut_of_absent sound mem hd size attends
        (leads ▸ moved.found) (same ▸ absent)⟩
    · obtain ⟨here', -⟩ := List.getElem?_eq_some_iff.1 moved.present
      refine Progress.attends_iff.2 ⟨⟨kind, call.withStage stage'⟩, ?_, rfl, taken⟩
      rw [moved.awaits.calls_eq]
      exact List.mem_map_of_mem (List.mem_set here' _)

/-- So it keeps what is pending of every request in care but its own. -/
theorem Apart.find?_eq (apart : w.Apart F c domain) (sound : w.Sound F c domain n capacity)
    (hd : domain.Valid F k) (size : c.domainSize = 2 ^ k) (present : w.submissions[i]? = some s)
    (moved : s.CallStep F domain w.deployment d' await calls j call server slot slot' stage')
    (clean : ¬Slips w ⟨d', w.submissions.set i
      { s with progress := await (calls.set j (call.withStage stage')) }⟩)
    {l : Nat} {s₀ : Submission} {slot₀ slot₁ : LeaderSlot} (there : w.submissions[l]? = some s₀)
    (ne : i ≠ l) (attends : s₀.progress.attends peer)
    (found : slotAt? w.deployment.servers peer s₀.leader.toNat = some slot₀)
    (found' : slotAt? d'.servers peer s₀.leader.toNat = some slot₁) :
    slot₁.pending.find? s₀.id = slot₀.pending.find? s₀.id := by
  rw [moved.slots] at found'
  split at found'
  · rename_i place
    obtain ⟨rfl, leads⟩ := place
    have leads := UInt64.toNat_inj.1 leads
    obtain rfl := Option.some.inj found'
    obtain rfl := Option.some.inj (moved.found.symm.trans (leads ▸ found))
    by_cases same : s₀.id = s.id
    · rw [same]
      exact (apart.spares sound hd size present moved clean
        ⟨s₀, there, leads, same, attends⟩ ne).1
    · exact moved.moves.find?_ne same
  · rw [Option.some.inj (found'.symm.trans found)]

theorem Apart.of_call (apart : w.Apart F c domain) (sound : w.Sound F c domain n capacity)
    (announced : w.Announced F domain) (hd : domain.Valid F k) (size : c.domainSize = 2 ^ k)
    (present : w.submissions[i]? = some s)
    (moved : s.CallStep F domain w.deployment d' await calls j call server slot slot' stage')
    (clean : ¬Slips w ⟨d', w.submissions.set i
      { s with progress := await (calls.set j (call.withStage stage')) }⟩) :
    Apart F c domain ⟨d', w.submissions.set i
      { s with progress := await (calls.set j (call.withStage stage')) }⟩ := by
  have mem := List.mem_of_getElem? present
  refine ⟨fun s₀ mem₀ busy => ?_, fun a b peer leader id owns owns' => ?_⟩
  · obtain rfl | ⟨l, ne, there⟩ := of_mem_set mem₀
    · have served : s.progress.isServed := by
        rw [moved.start]
        cases moved.awaits <;> first | rfl | cases busy
      obtain ⟨x, epoch, served⟩ := apart.served s mem served
      exact ⟨x, epoch, served.of_call sound mem moved fun _ _ _ => trivial⟩
    · have mem₀ := List.mem_of_getElem? there
      obtain ⟨x, epoch, served⟩ := apart.served s₀ mem₀ busy
      refine ⟨x, epoch, served.frame fun peer slot₁ found => ?_⟩
      obtain ⟨slot₀, found₀, -, points⟩ := moved.exists_slot found
      refine ⟨slot₀, found₀, fun attends => ?_, fun admitted => points fun leads =>
        announced.ne_changePoint sound.counted mem₀ admitted mem leads moved⟩
      exact apart.find?_eq sound hd size present moved clean there ne.symm attends found₀ found
  · -- a submission has a request where it did before, or where its call took that in
    have before {a : Nat} (owns : Owns ⟨d', w.submissions.set i
          { s with progress := await (calls.set j (call.withStage stage')) }⟩ a peer leader id) :
        w.Owns a peer leader id ∨
          a = i ∧ s.leader = leader ∧ s.id = id ∧ call.peer = peer ∧ stage'.attends := by
      obtain owns | ⟨rfl, leads, same, attends⟩ := owns.of_set present
      · exact .inl owns
      obtain old | new := Progress.of_attends_set moved.awaits attends
      · exact .inl ⟨s, present, leads, same, moved.start ▸ old⟩
      · exact .inr ⟨rfl, leads, same, new⟩
    obtain old | ⟨rfl, rfl, rfl, rfl, new⟩ := before owns
    · obtain old' | ⟨rfl, rfl, rfl, rfl, new⟩ := before owns'
      · exact apart.alone a b peer leader id old old'
      · by_contra ne
        exact (apart.spares sound hd size present moved clean old ne).2 new
    · obtain old' | ⟨rfl, -⟩ := before owns'
      · by_contra ne
        exact (apart.spares sound hd size present moved clean old' (Ne.symm ne)).2 new
      · rfl

end Call

theorem Apart.of_own (apart : w.Apart F c domain) (sound : w.Sound F c domain n capacity)
    (announced : w.Announced F domain) (hd : domain.Valid F k) (size : c.domainSize = 2 ^ k)
    (present : w.submissions[i]? = some s) {f : Lane → Lane} {p' : Progress}
    (proceeds : s.Proceeds w.deployment f p') (leads : Submission.Leads w.deployment d' s f) :
    Apart F c domain ⟨d', w.submissions.set i { s with progress := p' }⟩ := by
  have mem := List.mem_of_getElem? present
  refine ⟨fun s₀ mem₀ busy => ?_, fun a b peer leader id owns owns' => ?_⟩
  · obtain rfl | ⟨l, ne, there⟩ := of_mem_set mem₀
    · by_cases served : s.progress.isServed
      · obtain ⟨x, epoch, served⟩ := apart.served s mem served
        obtain next | ⟨result, rfl, -⟩ := served.of_own sound mem hd size
          (fun _ _ _ => trivial) proceeds leads
        · exact ⟨x, epoch, next⟩
        · cases busy
      · obtain ⟨x, epoch, rfl, known⟩ := proceeds.exists_handing sound announced mem served busy
        exact ⟨x, epoch, Submission.served_handing (s := s) (sound.steady s mem)
          (leads.servers_eq ▸ known)⟩
    · have mem₀ := List.mem_of_getElem? there
      obtain ⟨x, epoch, served⟩ := apart.served s₀ mem₀ busy
      refine ⟨x, epoch, served.frame fun peer slot₁ found => ?_⟩
      exact ⟨slot₁, leads.servers_eq ▸ found, fun _ => rfl, fun _ => rfl⟩
  · have before {a : Nat}
        (owns : Owns ⟨d', w.submissions.set i { s with progress := p' }⟩ a peer leader id) :
        w.Owns a peer leader id := by
      obtain owns | ⟨rfl, leads, same, attends⟩ := owns.of_set present
      · exact owns
      · exact ⟨s, present, leads, same,
          proceeds.attends_of_attends (apart.served s mem) sound mem hd size attends⟩
    exact apart.alone a b peer leader id (before owns) (before owns')

end Step

section Run

variable [WordSource σ] {w w' : World σ}

/-- A step that does not slip, when nothing but announcements of evaluation points may fail. -/
structure StepApart (w w' : World σ) : Prop where
  step : Step (fun s => s.network.Steady) w w'
  clean : ¬Slips w w'

abbrev ReachesApart : World σ → World σ → Prop := Relation.ReflTransGen StepApart

theorem ReachesApart.reaches (h : ReachesApart w w') :
    Reaches (fun s => s.network.Steady) w w' := by
  induction h with
  | refl => exact .refl
  | tail _ step ih => exact ih.tail step.step

theorem Apart.of_step (apart : w.Apart F c domain) (sound : w.Sound F c domain n capacity)
    (announced : w.Announced F domain) (hd : domain.Valid F k) (size : c.domainSize = 2 ^ k)
    (h : StepApart w w') : w'.Apart F c domain := by
  obtain ⟨step, clean⟩ := h
  obtain ⟨-, next⟩ := sound.proper.of_step step
  obtain ⟨d', submissions'⟩ := w'
  obtain ⟨s, start, -, rfl, rfl⟩ | ⟨i, s, s', present, rfl, turn⟩ := next
  · refine ⟨fun s₀ mem busy => ?_, fun a b peer leader id owns owns' =>
      apart.alone a b peer leader id (owns.of_append start) (owns'.of_append start)⟩
    obtain mem | mem := List.mem_append.1 mem
    · exact apart.served s₀ mem busy
    · obtain rfl := List.mem_singleton.1 mem
      rw [start] at busy
      cases busy
  · cases turn with
    | own proceeds leads => exact apart.of_own sound announced hd size present proceeds leads
    | call moved => exact apart.of_call sound announced hd size present moved clean

/-- No identifier is disturbed that a request owns on a server. Only one request has it there, which
finds its own checker. All others are refused as duplicates, unless their own checkers refused them
before, and whatever they do leaves what is pending alone. -/
structure Undisturbed (F : Field) (c : Circuit) (n : Nat) (w : World σ) : Prop where
  alone : ∀ i j peer leader id, w.Owns i peer leader id → w.Owns j peer leader id → j = i
  finds : ∀ s ∈ w.submissions, ∀ call ∈ s.progress.calls, call.2.operation.stage.attends →
    ∃ request slot, s.requests[call.2.peer]? = some request ∧
      slotAt? w.deployment.servers call.2.peer s.leader.toNat = some slot ∧
      call.2.operation.stage.Finds (.new F c call.2.peer s.leader.toNat n) request
        (slot.pending.find? s.id)
  refuses : ∀ (i peer : Nat) (leader : UInt64) (slot : LeaderSlot) (server : Server)
    (m : NewRequest), w.Owns i peer leader m.id → ¬w.TakesOut i peer leader m.id →
      slotAt? w.deployment.servers peer leader.toNat = some slot → ∀ point k,
        server.stepSlot (c := .newRequest) slot m (.bound point) =
            some (slot, .answered (.error (.duplicateRequest m.id))) ∧
          server.stepSlot (c := .newRequest) slot m (.loaded point k) =
            some (slot, .releasing k (.error (.duplicateRequest m.id)))
  refused : ∀ (i j peer : Nat) (s : Submission), w.Owns i peer s.leader s.id → j ≠ i →
    w.submissions[j]? = some s → ∀ call : PeerCall .newRequest,
      ⟨.newRequest, call⟩ ∈ s.progress.calls → call.peer = peer → ∀ answer,
        call.operation.stage = .answered answer → ∃ e, answer = .error e ∧
          Refuses True (.new F c peer s.leader.toNat n) call.operation.message.request s.id e
  kept : ∀ (w' : World σ) (i peer : Nat) (s : Submission) (slot slot' : LeaderSlot),
    StepApart w w' → w.submissions[i]? = some s → w'.submissions[i]? = some s →
      s.progress.attends peer →
        slotAt? w.deployment.servers peer s.leader.toNat = some slot →
          slotAt? w'.deployment.servers peer s.leader.toNat = some slot' →
            slot'.pending.find? s.id = slot.pending.find? s.id

/-- What another submission does leaves a request in care alone. -/
theorem Apart.kept (apart : w.Apart F c domain) (sound : w.Sound F c domain n capacity)
    (hd : domain.Valid F k) (size : c.domainSize = 2 ^ k) (h : StepApart w w') {i peer : Nat}
    {s : Submission} {slot slot' : LeaderSlot} (before : w.submissions[i]? = some s)
    (after : w'.submissions[i]? = some s) (attends : s.progress.attends peer)
    (found : slotAt? w.deployment.servers peer s.leader.toNat = some slot)
    (found' : slotAt? w'.deployment.servers peer s.leader.toNat = some slot') :
    slot'.pending.find? s.id = slot.pending.find? s.id := by
  obtain ⟨step, clean⟩ := h
  cases step with
  | arrive => rw [Option.some.inj (found'.symm.trans found)]
  | @move j s₀ s₁ m d' present step =>
    have ne : j ≠ i := by
      rintro rfl
      obtain rfl := Option.some.inj (present.symm.trans before)
      rw [List.getElem?_set_self (List.getElem?_eq_some_iff.1 present).1] at after
      obtain rfl := Option.some.inj after
      exact absurd (Deployment.effort_step step).2 (Nat.lt_irrefl _)
    obtain ⟨turn, -⟩ := Submission.turn_of_step sound.proper.fits
      (sound.proper.submissions s₀ (List.mem_of_getElem? present)) step
    cases turn with
    | own _ leads =>
      rw [show d'.servers = _ from leads.servers_eq] at found'
      rw [Option.some.inj (found'.symm.trans found)]
    | call moved =>
      exact apart.find?_eq sound hd size present moved clean before ne attends found found'

theorem Apart.undisturbed (apart : w.Apart F c domain) (sound : w.Sound F c domain n capacity)
    (hd : domain.Valid F k) (size : c.domainSize = 2 ^ k) : w.Undisturbed F c n where
  alone := apart.alone
  finds := by
    intro s mem call made attends
    obtain ⟨x, epoch, served⟩ := apart.served s mem
      (Progress.isServed_of_attends (Progress.attends_iff.2 ⟨call, made, rfl, attends⟩))
    exact served.finds sound mem hd size made attends
  refuses := by
    rintro i peer leader slot server m ⟨s, there, rfl, same, attends⟩ kept found point k'
    have mem := List.mem_of_getElem? there
    obtain ⟨x, epoch, served⟩ := apart.served s mem (Progress.isServed_of_attends attends)
    have present : slot.pending.find? m.id ≠ none := fun absent => kept ⟨s, there, rfl, same,
      served.isOut_of_absent sound mem hd size attends found (same ▸ absent)⟩
    obtain ⟨p, present⟩ := Option.ne_none_iff_exists'.1 present
    simp [Server.stepSlot, LeaderSlot.stepNewRequest, present]
  refused := by
    rintro i j peer s owns ne there call made rfl answer stage
    have mem := List.mem_of_getElem? there
    have proper := sound.proper.submissions s mem
    have placed := proper.placed (Progress.isUnderWay_of_calls made)
    obtain ⟨slot, found⟩ := sound.proper.fits.exists_slot (proper.makes _ made).peer_lt placed.1
    have admitted := Progress.isAdmitted_of_calls made rfl
    obtain ⟨x, epoch, served⟩ := apart.served s mem (Progress.isServed_of_isAdmitted admitted)
    have admits := served.admits_of_calls made found
    rw [stage, placed.2] at admits
    generalize slot.pending.find? s.id = pending at admits
    cases admits with
    | admitted =>
      refine absurd (apart.alone i j _ _ _ owns ⟨s, there, rfl, rfl, ?_⟩) ne
      exact Progress.attends_iff.2 ⟨_, made, rfl, by dsimp only; rw [stage]; rfl⟩
    | refused refuses => exact ⟨_, rfl, refuses⟩
  kept := fun w' i peer s slot slot' step before after attends found found' =>
    apart.kept sound hd size step before after attends found found'

/-- Without servers there is nothing to disturb. -/
theorem Proper.undisturbed (proper : w.Proper F domain 0) : w.Undisturbed F c 0 := by
  have made {s : Submission} (mem : s ∈ w.submissions) {call : AnyCall}
      (made : call ∈ s.progress.calls) : False :=
    Nat.not_lt_zero _ ((proper.submissions s mem).makes call made).peer_lt
  have owns {i peer : Nat} {leader : UInt64} {id : RequestId} (h : w.Owns i peer leader id) :
      False := by
    obtain ⟨s, there, -, -, attends⟩ := h
    obtain ⟨call, listed, -⟩ := Progress.attends_iff.1 attends
    exact made (List.mem_of_getElem? there) listed
  exact ⟨fun _ _ _ _ _ h => (owns h).elim, fun s mem call listed => (made mem listed).elim,
    fun _ _ _ _ _ _ h => (owns h).elim, fun _ _ _ _ h => (owns h).elim,
    fun _ _ _ _ _ _ _ _ _ _ found =>
      absurd (proper.fits.lt_of_slotAt? found) (Nat.not_lt_zero _)⟩

/-- As long as no server takes in a request under the identifier of one that is taken out there,
no identifier is disturbed that a request owns, however many submissions run and in whichever order
they take their steps. The submissions are those of one coordinator, whose network loses no call but
announcements; what others could send the servers is not among the steps. -/
theorem undisturbed_of_reaches [Fact F.modulus.Prime] {rotation : Nat} {source : σ}
    {d : Deployment σ} (started : Deployment.start F c n capacity rotation source = .ok d)
    (run : ReachesApart ⟨d, []⟩ w) : w.Undisturbed F c n := by
  obtain rfl | some := Nat.eq_zero_or_pos n
  · obtain ⟨domain, proper⟩ := exists_proper_start started
    exact (proper.of_reaches run.reaches).undisturbed
  obtain ⟨domain, domainOk⟩ := exists_domain some started
  obtain ⟨k, size, hd⟩ := CircuitDomain.valid_of_ofCircuit domainOk
  have only (s : Submission) (steady : s.network.Steady) : s.network.Steady := steady
  have sound : Sound F c domain n capacity ⟨d, []⟩ := sound_start domainOk started
  have announced : Announced F domain ⟨d, []⟩ := announced_start domainOk started
  have apart : w.Apart F c domain := by
    induction run with
    | refl => exact ⟨nofun, fun _ _ _ _ _ ⟨_, there, _⟩ => nomatch there⟩
    | tail reached step ih =>
      have reached := ReachesApart.reaches reached
      exact ih.of_step (sound.of_reaches only reached) (announced.of_reaches sound only reached) hd
        size step
  exact apart.undisturbed (sound.of_reaches only run.reaches) hd size

/-- A request that is decided was once pending on every server. -/
theorem exists_owns {admits : Submission → Prop} {w₀ : World σ} (proper : w₀.Proper F domain n)
    (empty : w₀.submissions = []) (h : Reaches admits w₀ w) {i peer : Nat} {s : Submission}
    (present : w.submissions[i]? = some s) (taken : s.progress.isTaken) (peer_lt : peer < n) :
    ∃ w₁, Reaches admits w₀ w₁ ∧ Reaches admits w₁ w ∧ w₁.Owns i peer s.leader s.id := by
  induction h generalizing s with
  | refl =>
    rw [empty] at present
    cases present
  | @tail w w' reached step ih =>
    have proper := proper.of_reaches reached
    have later {s₀ : Submission} (there : w.submissions[i]? = some s₀)
        (taken₀ : s₀.progress.isTaken) (leads : s₀.leader = s.leader) (same : s₀.id = s.id) :
        ∃ w₁, Reaches admits w₀ w₁ ∧ Reaches admits w₁ w' ∧ w₁.Owns i peer s.leader s.id := by
      obtain ⟨w₁, before, after, owns⟩ := ih there taken₀
      exact ⟨w₁, before, after.tail step, leads ▸ same ▸ owns⟩
    obtain same | ⟨start, -⟩ | ⟨s₀, there, turn⟩ := proper.of_step_at step present
    · exact later same taken rfl rfl
    · rw [start] at taken
      cases taken
    cases turn with
    | call moved =>
      refine later there ?_ rfl rfl
      rw [moved.start]
      cases moved.awaits <;> first | rfl | cases taken
    | own proceeds =>
      cases proceeds with
      | admitted start answered replied =>
        have proper := proper.submissions s₀ (List.mem_of_getElem? there)
        exact ⟨w, reached, .single step, s₀, there, rfl, rfl,
          proper.attends_of_admitted start answered replied peer_lt⟩
      | evaluated _ start | finalised start | decided start =>
        exact later there (by rw [start]; rfl) rfl rfl
      | @leave result start =>
        refine later there ?_ rfl rfl
        rw [start]
        cases result <;> exact taken
      | refuse | queue | enter | choose | drain | give | rotate | rotationFails | rotated
      | admissionFails | evaluationFails | finalFails | verdictFails | aborted => cases taken

/-- A submission that is alone does not slip. -/
theorem ReachesApart.of_single {w₀ : World σ}
    (h : Reaches (fun s => s.network.Steady) w₀ w) (single : w.submissions.length ≤ 1) :
    ReachesApart w₀ w := by
  induction h with
  | refl => exact .refl
  | @tail w w' reached step ih =>
    refine .tail (ih (Nat.le_trans (length_le_of_step step) single)) ⟨step, ?_⟩
    rintro ⟨i, j, peer, leader, id, ⟨s, there, leads, same, out⟩, idle, s', there', -⟩
    have lt := (List.getElem?_eq_some_iff.1 there).1
    have lt' := (List.getElem?_eq_some_iff.1 there').1
    have := length_le_of_step step
    obtain rfl : i = j := by omega
    exact idle ⟨s, there, leads, same, Progress.attends_of_isOut out⟩

/-- An honest submission that is alone is taken in by all servers. -/
theorem exists_taken_bit {capacity : Nat} (room : 0 < capacity) :
    ∃ (d : Deployment ChaCha20) (w : World ChaCha20) (s : Submission),
      Deployment.start .seventeen Checker.bit 3 capacity 4 (.ofKey ⟨Vector.replicate 32 0⟩) =
        .ok d ∧
      Reaches (fun s => s.network = .reliable) ⟨d, []⟩ w ∧ w.submissions = [s] ∧
      s.progress.isTaken := by
  obtain ⟨d, w₁, s, seed, started, before, alone, choosing, reliable, ready, sent⟩ :=
    exists_choosing_bit room
  have unique : w₁.Unique 0 s := by
    intro j s' there ne
    rw [alone, List.getElem?_singleton, if_neg ne] at there
    cases there
  obtain ⟨w, v, after, length, present, -⟩ := exists_accepted Checker.wellFormed_bit room started
    (fun _ => steady_of_reliable) before (by rw [alone]; rfl) choosing reliable unique ready sent
    (Checker.check_bit true)
  rw [alone] at length
  obtain ⟨s', eq⟩ := List.length_eq_one_iff.1 length
  rw [eq] at present
  obtain rfl := Option.some.inj present
  exact ⟨d, w, _, started, before.trans after, eq, rfl⟩

/-- A second submission under an identifier that is in use. -/
theorem undisturbed_bit : ∃ (d : Deployment ChaCha20) (w : World ChaCha20) (s s' : Submission),
    Deployment.start .seventeen Checker.bit 3 2 4 (.ofKey ⟨Vector.replicate 32 0⟩) = .ok d ∧
      ReachesApart ⟨d, []⟩ w ∧ w.submissions = [s, s'] ∧ s'.leader = s.leader ∧ s'.id = s.id ∧
      w.Owns 0 1 s.leader s.id ∧ w.Undisturbed .seventeen Checker.bit 3 := by
  obtain ⟨d, w, s, started, reaches, alone, taken⟩ := exists_taken_bit Nat.two_pos
  obtain ⟨domain, proper⟩ := exists_proper_start started
  have length : w.submissions.length = 1 := by rw [alone]; rfl
  obtain ⟨w₂, before₂, after₂, owns⟩ := exists_owns proper rfl reaches
    (by rw [alone]; rfl : w.submissions[0]? = some s) taken (show 1 < 3 by decide)
  have single : w₂.submissions.length ≤ 1 := after₂.length_le.trans_eq length
  have apart := ReachesApart.of_single (before₂.mono fun _ => steady_of_reliable) single
  obtain ⟨s₂, there, leads₂, same₂, attends⟩ := owns
  let s' := Submission.start .reliable s.id s.leader []
  have clean : ¬Slips w₂ ⟨w₂.deployment, w₂.submissions ++ [s']⟩ := by
    rintro ⟨i, j, peer, leader, id, -, idle, owns⟩
    exact idle (owns.of_append rfl)
  have run := apart.tail ⟨.arrive rfl (steady_of_reliable rfl), clean⟩
  have eq : w₂.submissions = [s₂] := by
    obtain ⟨here, rfl⟩ := List.getElem?_eq_some_iff.1 there
    obtain ⟨s₃, eq⟩ := List.length_eq_one_iff.1 (Nat.le_antisymm single here)
    simp [eq]
  refine ⟨d, _, s₂, s', started, run, by rw [eq]; rfl, leads₂.symm, same₂.symm,
    ⟨s₂, by rw [eq]; rfl, rfl, rfl, attends⟩, undisturbed_of_reaches started run⟩

end Run

end World

end PrivateSums
