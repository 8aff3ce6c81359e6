import PrivateSums.Proofs.Deployment.Course

/-!
What a server has of a request from when it is handed one, for requests of any making. Others may
use the same identifier, as long as none of them comes in while the request is taken out.
-/

namespace PrivateSums

/-- Why a server refuses a request. It may have one under the identifier already, if any was handed
in twice. -/
inductive Refuses (twice : Prop) (fresh : Checker) (request : ClientRequest) (id : RequestId) :
    ServerError → Prop
  | duplicate (again : twice) : Refuses twice fresh request id (.duplicateRequest id)
  | checker {e : CheckerError} (fails : fresh.setRequest request = .error e) :
      Refuses twice fresh request id (.checker e)

/-- How far a server is in taking a request in, and what is pending when it has. -/
inductive Stage.Admits (twice : Prop) (fresh : Checker) (point : EvaluationPoint)
    (request : ClientRequest) (id : RequestId) : Stage .newRequest → Option Pending → Prop
  | called {p : Option Pending} : Admits twice fresh point request id .called p
  | bound {p : Option Pending} : Admits twice fresh point request id (.bound point) p
  | unused {p : Option Pending} : Admits twice fresh point request id (.unused point) p
  | permitted {p : Option Pending} : Admits twice fresh point request id (.permitted point) p
  | loading {p : Option Pending} : Admits twice fresh point request id (.loading point fresh) p
  | loaded {p : Option Pending} {k : Checker} (ok : fresh.setRequest request = .ok k) :
      Admits twice fresh point request id (.loaded point k) p
  | admitted {k : Checker} (ok : fresh.setRequest request = .ok k) :
      Admits twice fresh point request id (.answered (.ok ())) (some ⟨k, point⟩)
  | releasing {p : Option Pending} {k : Checker} {e : ServerError}
      (refuses : Refuses twice fresh request id e) :
      Admits twice fresh point request id (.releasing k (.error e)) p
  | leaving {p : Option Pending} {e : ServerError} (refuses : Refuses twice fresh request id e) :
      Admits twice fresh point request id (.leaving (.error e)) p
  | refused {p : Option Pending} {e : ServerError} (refuses : Refuses twice fresh request id e) :
      Admits twice fresh point request id (.answered (.error e)) p

section Admits

variable {twice : Prop} {fresh : Checker} {point : EvaluationPoint} {request : ClientRequest}
  {id : RequestId} {stage : Stage .newRequest} {p p' : Option Pending}

/-- Before and after its request is in the care of the operation, others may do as they like. -/
theorem Stage.Admits.frame (h : stage.Admits twice fresh point request id p)
    (same : stage.attends → p' = p) : stage.Admits twice fresh point request id p' := by
  cases h with
  | admitted ok => exact same rfl ▸ .admitted ok
  | called => exact .called
  | bound => exact .bound
  | unused => exact .unused
  | permitted => exact .permitted
  | loading => exact .loading
  | loaded ok => exact .loaded ok
  | releasing refuses => exact .releasing refuses
  | leaving refuses => exact .leaving refuses
  | refused refuses => exact .refused refuses

theorem Server.admits_stepSlot {server : Server} {slot slot' : LeaderSlot} {m : NewRequest}
    {stage' : Stage .newRequest}
    (h : server.stepSlot (c := .newRequest) slot m stage = some (slot', stage'))
    (admits : stage.Admits twice fresh point m.request m.id (slot.pending.find? m.id))
    (known : slot.points.get? m.epoch = some point)
    (promised : stage.isPermitted → ∃ pool, slot.pool.takeChecker = .ok (fresh, pool))
    (other : ¬stage.attends → slot.pending.find? m.id ≠ none → twice) :
    stage'.Admits twice fresh point m.request m.id (slot'.pending.find? m.id) := by
  generalize eq : slot.pending.find? m.id = pending at admits other
  cases admits with
  | admitted | refused => cases h
  | called =>
    simp only [stepSlot, LeaderSlot.stepNewRequest, known] at h
    obtain ⟨rfl, rfl⟩ := Prod.mk.inj (Option.some.inj h)
    exact .bound
  | bound =>
    simp only [stepSlot, LeaderSlot.stepNewRequest, eq] at h
    split at h <;> obtain ⟨rfl, rfl⟩ := Prod.mk.inj (Option.some.inj h)
    · exact .refused (.duplicate (other Bool.false_ne_true (Option.some_ne_none _)))
    · exact .unused
  | unused =>
    obtain ⟨pool, -, h⟩ := Option.map_eq_some_iff.1 h
    obtain ⟨rfl, rfl⟩ := Prod.mk.inj h
    exact .permitted
  | permitted =>
    obtain ⟨pool, taken⟩ := promised rfl
    simp only [stepSlot, LeaderSlot.stepNewRequest, taken] at h
    obtain ⟨rfl, rfl⟩ := Prod.mk.inj (Option.some.inj h)
    exact .loading
  | loading =>
    simp only [stepSlot, LeaderSlot.stepNewRequest] at h
    split at h <;> obtain ⟨rfl, rfl⟩ := Prod.mk.inj (Option.some.inj h)
    · exact .releasing (.checker ‹_›)
    · exact .loaded ‹_›
  | loaded ok =>
    simp only [stepSlot, LeaderSlot.stepNewRequest, eq] at h
    split at h <;> obtain ⟨rfl, rfl⟩ := Prod.mk.inj (Option.some.inj h)
    · exact .releasing (.duplicate (other Bool.false_ne_true (Option.some_ne_none _)))
    · exact PendingRequests.find?_insert_self ▸ .admitted ok
  | releasing refuses =>
    obtain ⟨rfl, rfl⟩ := Prod.mk.inj (Option.some.inj h)
    exact .leaving refuses
  | leaving refuses =>
    obtain ⟨rfl, rfl⟩ := Prod.mk.inj (Option.some.inj h)
    exact .refused refuses

end Admits

namespace Script

variable {t : Script} {server : Server} {slot slot' : LeaderSlot} {c : Call} {m : c.Message}
  {stage stage' : Stage c} {id : RequestId}

/-- Where an operation is by the script, whatever is pending once it no longer cares. -/
def Serves (t : Script) (id : RequestId) (stage : Stage c) (slot : LeaderSlot) : Prop :=
  t.Follows stage (if stage.attends then slot.pending.find? id else none)

theorem Follows.eq_none {pending : Option Pending} (h : t.Follows stage pending)
    (idle : ¬stage.attends) : pending = none := by
  cases h <;> first | rfl | exact absurd rfl idle

theorem Serves.frame (h : t.Serves id stage slot)
    (same : stage.attends → slot'.pending.find? id = slot.pending.find? id) :
    t.Serves id stage slot' := by
  unfold Serves at h ⊢
  split
  · rename_i cares
    rwa [if_pos cares, ← same cares] at h
  · rename_i idle
    rwa [if_neg idle] at h

/-- A round that goes by the script goes on by it. -/
theorem Serves.step (serves : t.Serves id stage slot) (round : c ≠ .newRequest) (asks : t.Asks m)
    (about : c.id? m = some id) (h : server.stepSlot slot m stage = some (slot', stage')) :
    t.Serves id stage' slot' := by
  unfold Serves at serves ⊢
  by_cases cares : stage.attends
  · rw [if_pos cares] at serves
    have promised (permitted : stage.isPermitted) : c = .newRequest := by
      cases stage <;> first | rfl | cases permitted
    have next := serves.step rfl asks about (fun kind => absurd kind round)
      (fun permitted => absurd (promised permitted) round) h
    split
    · exact next
    · exact next.eq_none ‹_› ▸ next
  · rw [if_neg cares] at serves
    cases serves with
    | offered | bound | unused | permitted | loading | loaded => exact absurd rfl round
    | deciding =>
      simp only [Asks] at asks
      simp only [Server.stepSlot, LeaderSlot.stepAccept, asks, Answer.mapError_ok] at h
      obtain ⟨rfl, rfl⟩ := Prod.mk.inj (Option.some.inj h)
      exact .releasing
    | releasing =>
      obtain ⟨rfl, rfl⟩ := Prod.mk.inj (Option.some.inj h)
      exact .leaving
    | leaving =>
      obtain ⟨rfl, rfl⟩ := Prod.mk.inj (Option.some.inj h)
      exact .decided
    | decided => cases h
    | evaluating | evaluated | finalising | finalised => exact absurd rfl cares

theorem Follows.serves (h : t.Follows stage (slot.pending.find? id)) : t.Serves id stage slot := by
  unfold Serves
  split
  · exact h
  · exact h.eq_none ‹_› ▸ h

/-- When a round is answered, what is pending is what the script keeps. -/
theorem Serves.of_answered {answer : Except ServerError c.Reply}
    (serves : t.Serves id (.answered answer) slot) :
    answer = .ok (t.answer c) ∧
      ((Stage.answered answer).attends → slot.pending.find? id = t.kept c) := by
  obtain ⟨told, kept⟩ := Follows.of_answered serves
  exact ⟨told, fun cares => (if_pos cares).symm.trans kept⟩

end Script

/-- The verdict of checkers that took in no request before: each takes in its own, both rounds
follow, and then all must find the shares of the second valid. -/
def Verdict.ofFresh (F : Field) (c : Circuit) (domain : CircuitDomain) (leader : Nat)
    (requests : List ClientRequest) (x : Nat) (key : Key) : Except CheckerError Verdict := do
  let checkers ← Checker.admitAll F c leader requests
  let (_, answers) ← Checker.rounds checkers (.ofPoint F domain x) fun k cor => k.outShare cor key
  let findings ← answers.mapM (·.2.outputIsValid (answers.map (·.1)))
  if findings.all id then
    return { accepted := true, outputShares := ← answers.mapM (·.2.outputShares) }
  else return { accepted := false, outputShares := [] }

section Fresh

variable {F : Field} {c : Circuit} {domain : CircuitDomain} {k leader : Nat}
  {requests : List ClientRequest}

theorem Verdict.ofFresh_eq_error {cause : CheckerError}
    (refused : Checker.admitAll F c leader requests = .error cause) (x : Nat) (key : Key) :
    ofFresh F c domain leader requests x key = .error cause := by
  rw [ofFresh, refused, Answer.error_bind]

/-- The verdict of servers whose shares of the second round have a sum. -/
def Verdict.ofSum (c : Circuit) (ps : List Party) (sum : Nat) : Verdict where
  accepted := sum == 0
  outputShares := if sum = 0 then ps.map fun p => c.outputValues p.holding.wires else []

theorem Verdict.outputShares_ofSum {c : Circuit} {ps : List Party} {sum : Nat}
    (favourable : (ofSum c ps sum).accepted) :
    (ofSum c ps sum).outputShares = ps.map fun p => c.outputValues p.holding.wires :=
  if_pos (beq_iff_eq.1 favourable)

theorem Verdict.ofFresh_eq (hd : domain.Valid F k) (size : c.domainSize = 2 ^ k)
    (admissible : ∀ r ∈ requests.zipIdx, r.1.Admissible F c leader r.2) (some : requests ≠ [])
    (x : Nat) (key : Key) : ofFresh F c domain leader requests x key =
      let ps := ClientRequest.parties F c leader requests
      .ok (ofSum c ps (F.sum (ps.map fun p => (p.outShare F c leader (.ofPoint F domain x) ps
        (Holding.coefficients F c key)).check))) := by
  have count := ClientRequest.length_parties F c leader requests
  have complete := ClientRequest.complete_parties F c leader requests
  have admitted := ClientRequest.admitAll_eq_ok_iff.2 ⟨admissible, rfl⟩
  rw [ofFresh, admitted, Answer.ok_bind, ← count]
  have filled : ClientRequest.parties F c leader requests ≠ [] := by
    rwa [← List.length_pos_iff, count, List.length_pos_iff]
  dsimp only
  generalize ClientRequest.parties F c leader requests = ps at *
  rw [Party.keyedOutShares_eq hd size complete x key, Answer.ok_bind]
  generalize eq : Party.outShare F c leader (.ofPoint F domain x) ps
    (Holding.coefficients F c key) = share
  simp only [List.mapM_map, List.map_map, Function.comp_def, Party.outputIsValid_finished,
    Party.outputShares_finished]
  generalize F.sum (ps.map fun p => (share p).check) = sum
  rw [Answer.mapM_eq_map fun p _ => rfl, Answer.ok_bind, Answer.mapM_eq_map fun p _ => rfl]
  obtain ⟨first, rest, rfl⟩ := List.exists_cons_of_ne_nil filled
  by_cases zero : sum = 0 <;> simp [ofSum, zero]

/-- The replies that the scripts tell make up the verdict of fresh checkers. -/
theorem Verdict.ofFresh_eq_ok (hd : domain.Valid F k) (size : c.domainSize = 2 ^ k)
    (admissible : ∀ r ∈ requests.zipIdx, r.1.Admissible F c leader r.2) (some : requests ≠ [])
    (id : RequestId) (x : Nat) (epoch : UInt64) (key : Key) :
    ∃ v, ofFresh F c domain leader requests x key = .ok v ∧
      ofReplies id ((Script.ofRequests F c domain leader requests x epoch key).map (·.reply)) =
        .ok v := by
  have filled : ClientRequest.parties F c leader requests ≠ [] := by
    rwa [← List.length_pos_iff, ClientRequest.length_parties, List.length_pos_iff]
  refine ⟨_, ofFresh_eq hd size admissible some x key, ?_⟩
  simp only [Script.ofRequests, List.map_map, Function.comp_def, ofSum]
  generalize ClientRequest.parties F c leader requests = ps at *
  generalize F.sum _ = sum
  obtain ⟨first, rest, rfl⟩ := List.exists_cons_of_ne_nil filled
  by_cases zero : sum = 0 <;>
    simp [ofReplies, zero, List.filterMap_map, Function.comp_def]

/-- The first refusal, in server order, is that of the checkers. -/
theorem allReplies_map {α β : Type} (f : α → Except CheckerError β) (l : List α) :
    allReplies (l.map fun a => ((f a).map fun _ => ()).mapError ServerError.checker) =
      ((l.mapM f).map fun bs => bs.map fun _ => ()).mapError .checker := by
  induction l with
  | nil => rfl
  | cons a l ih =>
    rw [List.map_cons, allReplies, ih, List.mapM_cons]
    cases f a with
    | error => rfl
    | ok b =>
      cases l.mapM f with
      | error => rfl
      | ok => rfl

/-- When all servers answer as their checkers, the first refusal is that of the first checker that
refuses. -/
theorem Checker.admitAll_of_allReplies {answers : List (Except ServerError Unit)} {e : ServerError}
    (length : answers.length = requests.length)
    (each : ∀ peer request, requests[peer]? = some request → answers[peer]? =
      some ((((new F c peer leader requests.length).setRequest request).map fun _ => ()).mapError
        .checker))
    (failed : allReplies answers = .error e) :
    ∃ cause, admitAll F c leader requests = .error cause ∧ e = .checker cause := by
  have told : answers = requests.zipIdx.map fun r =>
      (((new F c r.2 leader requests.length).setRequest r.1).map fun _ => ()).mapError
        .checker := by
    refine List.ext_getElem? fun peer => ?_
    rw [List.getElem?_map, List.getElem?_zipIdx, Nat.zero_add]
    cases there : requests[peer]? with
    | none =>
      rw [List.getElem?_eq_none_iff] at there
      exact List.getElem?_eq_none (length ▸ there)
    | some request => exact each peer request there
  rw [told, allReplies_map] at failed
  change ((admitAll F c leader requests).map _).mapError _ = _ at failed
  cases all : admitAll F c leader requests with
  | error cause =>
    rw [all] at failed
    exact ⟨cause, rfl, (Except.error.inj failed).symm⟩
  | ok =>
    rw [all] at failed
    cases failed

end Fresh

namespace Progress

/-- Whether all servers have the request, and go through the rounds. -/
def isInRounds : Progress → Bool
  | evaluating _ | finalising _ | accepting _ => true
  | _ => false

/-- Whether a request is with the servers, or is being handed to them. -/
def isServed : Progress → Bool
  | admitting _ | evaluating _ | finalising _ | accepting _ | aborting .. => true
  | _ => false

def isEvaluating : Progress → Bool
  | evaluating _ => true
  | _ => false

theorem isChecked_of_isInRounds {p : Progress} (h : p.isInRounds) : p.isChecked := by
  cases p <;> first | rfl | cases h

end Progress

/-- Once it has looked for the request, a withdrawal is through with it. -/
theorem Server.not_attends_of_abort {server : Server} {slot slot' : LeaderSlot} {m : Abort}
    {stage stage' : Stage .abort}
    (h : server.stepSlot (c := .abort) slot m stage = some (slot', stage')) : ¬stage'.attends := by
  have less : stage'.remaining < stage.remaining := LeaderSlot.remaining_stepAbort h
  intro attends
  cases stage' with
  | called => cases stage <;> simp [Stage.remaining] at less
  | releasing | leaving | answered => cases attends

/-- Whether a call of a round goes by the script of its server. -/
def Script.Guides (ts : List Script) (id : RequestId) (call : AnyCall) (slot : LeaderSlot) : Prop :=
  ∃ t, ts[call.2.peer]? = some t ∧ t.Asks call.2.operation.message ∧
    t.Serves id call.2.operation.stage slot

theorem Script.Directs.guides {ts : List Script} {id : RequestId} {call : AnyCall}
    {slot : LeaderSlot} (h : Directs ts id call slot) : Guides ts id call slot := by
  obtain ⟨t, present, asks, -, follows⟩ := h
  exact ⟨t, present, asks, follows.serves⟩

namespace Submission

/-- Where the servers are with a request. Either they are taking it in, or all of them have and go
through the rounds, or it is withdrawn from those that have. -/
inductive Served (F : Field) (c : Circuit) (domain : CircuitDomain) (twice : Prop)
    (drawn : Key → Prop) (x : Nat) (epoch : UInt64) {σ : Type} (d : Deployment σ)
    (s : Submission) : Prop
  | admits {calls : List (PeerCall .newRequest)} (start : s.progress = .admitting calls)
      (known : ∀ peer slot, slotAt? d.servers peer s.leader.toNat = some slot →
        slot.points.get? epoch = some (.ofPoint F domain x))
      (handed : ∀ call ∈ calls, call.operation.message.epoch = epoch ∧
        s.requests[call.peer]? = some call.operation.message.request)
      (each : ∀ call ∈ calls, ∀ slot, slotAt? d.servers call.peer s.leader.toNat = some slot →
        call.operation.stage.Admits twice (.new F c call.peer s.leader.toNat s.requests.length)
          (.ofPoint F domain x) call.operation.message.request s.id (slot.pending.find? s.id))
  | performs (key : Key)
      (admissible : ∀ r ∈ s.requests.zipIdx, r.1.Admissible F c s.leader.toNat r.2)
      (rounds : s.progress.isInRounds) (keyed : ¬s.progress.isEvaluating → drawn key)
      (each : ∀ call ∈ s.progress.calls, ∀ slot,
        slotAt? d.servers call.2.peer s.leader.toNat = some slot → Script.Guides
          (Script.ofRequests F c domain s.leader.toNat s.requests x epoch key) s.id call slot)
  | withdraws {e : ServerError} {calls : List (PeerCall .abort)}
      (start : s.progress = .aborting e calls)
      (refused : twice ∨ ∃ cause, Checker.admitAll F c s.leader.toNat s.requests = .error cause ∧
        e = .checker cause)
      (apart : (calls.map (·.peer)).Nodup)
      (each : ∀ call ∈ calls, ∀ slot, slotAt? d.servers call.peer s.leader.toNat = some slot →
        call.operation.stage.attends → ∃ request k, s.requests[call.peer]? = some request ∧
          (Checker.new F c call.peer s.leader.toNat s.requests.length).setRequest request = .ok k ∧
          slot.pending.find? s.id = some ⟨k, .ofPoint F domain x⟩)

/-- What a request that was served comes to. -/
inductive Outcome (F : Field) (c : Circuit) (domain : CircuitDomain) (twice : Prop)
    (drawn : Key → Prop) (x : Nat) (s : Submission) : Except ServerError Verdict → Prop
  | refused {e : ServerError}
      (refused : twice ∨ ∃ cause, Checker.admitAll F c s.leader.toNat s.requests = .error cause ∧
        e = .checker cause) : Outcome F c domain twice drawn x s (.error e)
  | decided {key : Key} {v : Verdict} (keyed : drawn key)
      (fresh : Verdict.ofFresh F c domain s.leader.toNat s.requests x key = .ok v) :
      Outcome F c domain twice drawn x s (.ok v)

section Frame

variable {F : Field} {c : Circuit} {domain : CircuitDomain} {n : Nat} {σ : Type}
  {d d' : Deployment σ} {s : Submission} {twice : Prop} {drawn : Key → Prop} {x : Nat}
  {epoch : UInt64}

theorem Outcome.withProgress {result : Except ServerError Verdict}
    (h : s.Outcome F c domain twice drawn x result) {p : Progress} :
    { s with progress := p }.Outcome F c domain twice drawn x result := by
  cases h with
  | refused refused => exact .refused refused
  | decided keyed fresh => exact .decided keyed fresh

/-- A request stays served as long as others leave alone what is in its care, and the points while
it is taken in. -/
theorem Served.frame (served : s.Served F c domain twice drawn x epoch d)
    (slots : ∀ peer slot', slotAt? d'.servers peer s.leader.toNat = some slot' →
      ∃ slot, slotAt? d.servers peer s.leader.toNat = some slot ∧
        (s.progress.attends peer → slot'.pending.find? s.id = slot.pending.find? s.id) ∧
        (s.progress.isAdmitted → slot'.points = slot.points)) :
    s.Served F c domain twice drawn x epoch d' := by
  have same {kind : Call} {call : PeerCall kind} (made : ⟨kind, call⟩ ∈ s.progress.calls)
      {slot' : LeaderSlot} (found' : slotAt? d'.servers call.peer s.leader.toNat = some slot') :
      ∃ slot, slotAt? d.servers call.peer s.leader.toNat = some slot ∧
        (call.operation.stage.attends →
          slot'.pending.find? s.id = slot.pending.find? s.id) := by
    obtain ⟨slot, found, pending, -⟩ := slots call.peer slot' found'
    exact ⟨slot, found, fun attends => pending (Progress.attends_iff.2 ⟨_, made, rfl, attends⟩)⟩
  cases served with
  | @admits calls start known handed each =>
    refine .admits start (fun peer slot' found' => ?_) handed fun call made slot' found' => ?_
    · obtain ⟨slot, found, -, points⟩ := slots peer slot' found'
      rw [points (by rw [start]; rfl)]
      exact known peer slot found
    · obtain ⟨slot, found, pending⟩ := same (Progress.Awaits.admitting.mem_calls start made) found'
      exact (each call made slot found).frame pending
  | performs key admissible rounds keyed each =>
    refine .performs key admissible rounds keyed fun call made slot' found' => ?_
    obtain ⟨slot, found, pending⟩ := same made found'
    obtain ⟨t, present, asks, serves⟩ := each call made slot found
    exact ⟨t, present, asks, serves.frame pending⟩
  | @withdraws e calls start refused apart each =>
    refine .withdraws start refused apart fun call made slot' found' attends => ?_
    obtain ⟨slot, found, pending⟩ :=
      same ((Progress.Awaits.aborting e).mem_calls start made) found'
    rw [pending attends]
    exact each call made slot found attends

/-- A request that is handed out at a point that all servers have is served. -/
theorem served_handing (steady : s.network.Steady)
    (known : ∀ peer slot, slotAt? d.servers peer s.leader.toNat = some slot →
      slot.points.get? epoch = some (.ofPoint F domain x)) :
    { s with progress := .admitting (s.handing n epoch) }.Served F c domain twice drawn x epoch
      d := by
  refine .admits rfl known (fun call made => ?_) fun call made slot found => ?_
  · obtain ⟨peer, request, -, there, rfl⟩ := exists_of_mem_handing made
    exact ⟨rfl, there⟩
  · obtain ⟨peer, request, -, -, rfl⟩ := exists_of_mem_handing made
    rw [PeerCall.stage_start (steady _ _ _ (by decide))]
    exact .called

end Frame

section Call

variable {F : Field} {c : Circuit} {domain : CircuitDomain} {n capacity : Nat} {σ : Type}
  {w : World σ} {d' : Deployment σ} {s : Submission} {twice : Prop} {drawn : Key → Prop} {x : Nat}
  {epoch : UInt64} {kind : Call} {await : List (PeerCall kind) → Progress}
  {calls : List (PeerCall kind)} {j : Nat} {call : PeerCall kind} {server : Server}
  {slot slot' : LeaderSlot} {stage' : Stage kind}

/-- A step of one of its calls keeps the request served. -/
theorem Served.of_call (served : s.Served F c domain twice drawn x epoch w.deployment)
    (sound : w.Sound F c domain n capacity) (mem : s ∈ w.submissions)
    (moved : s.CallStep F domain w.deployment d' await calls j call server slot slot' stage')
    (other : kind = .newRequest → ¬call.operation.stage.attends →
      slot.pending.find? s.id ≠ none → twice) :
    { s with progress := await (calls.set j (call.withStage stage')) }.Served F c domain twice drawn
      x epoch d' := by
  have ordered := (sound.proper.submissions s mem).ordered
  have listed := List.mem_of_getElem? moved.present
  have awaits := moved.awaits
  cases served with
  | admits start known handed each =>
    have eq := moved.start.symm.trans start
    cases awaits with
    | admitting =>
      obtain rfl := Progress.admitting.inj eq
      rw [start] at ordered
      refine .admits rfl (fun peer slot₁ found => ?_) (fun call₁ made => ?_)
        (moved.forall_set (P := fun call slot => call.operation.stage.Admits twice
          (.new F c call.peer s.leader.toNat s.requests.length) (.ofPoint F domain x)
          call.operation.message.request s.id (slot.pending.find? s.id)) ordered each ?_)
      · obtain ⟨slot₀, found₀, -, same⟩ := moved.exists_slot found
        rw [same fun _ => nofun]
        exact known peer slot₀ found₀
      · obtain rfl | ⟨_, -, there⟩ := of_mem_set made
        · exact handed call listed
        · exact handed call₁ (List.mem_of_getElem? there)
      · intro admits
        have same : call.operation.message.id = s.id := moved.makes.id_eq _ rfl
        rw [← same] at admits other ⊢
        refine Server.admits_stepSlot moved.step admits ?_ (moved.takeChecker sound mem) (other rfl)
        exact (handed call listed).1 ▸ known _ slot moved.found
    | rotating | evaluating | finalising | accepting | aborting => cases eq
  | performs key admissible rounds keyed each =>
    have evaluates := moved.stable Progress.isEvaluating fun _ _ => by cases awaits <;> rfl
    have checks := Progress.isChecked_of_isInRounds rounds
    have kinds : kind ≠ .newRequest ∧ kind ≠ .changePoint := by
      rw [moved.start] at rounds
      cases awaits <;> first | exact ⟨by decide, by decide⟩ | cases rounds
    rw [moved.start] at ordered checks
    rw [moved.start, moved.awaits.calls_eq] at each
    refine .performs key admissible ?_ ?_ ?_
    · exact (moved.stable Progress.isInRounds fun _ _ => by cases awaits <;> rfl).trans rounds
    · exact fun later => keyed (evaluates ▸ later)
    · rw [awaits.calls_eq]
      intro call₁ made slot₁ found
      obtain ⟨made', listed', rfl⟩ := List.mem_map.1 made
      refine moved.forall_set (P := fun call slot => Script.Guides _ s.id ⟨_, call⟩ slot)
        (awaits.ordered ordered checks) (fun call mem => each _ (List.mem_map_of_mem mem)) ?_
        made' listed' slot₁ found
      rintro ⟨t, present, asks, serves⟩
      exact ⟨t, present, asks, serves.step kinds.1 asks (moved.id?_eq kinds.2) moved.step⟩
  | withdraws start refused apart each =>
    have eq := moved.start.symm.trans start
    cases awaits with
    | aborting e =>
      obtain ⟨rfl, rfl⟩ := Progress.aborting.inj eq
      refine .withdraws rfl refused ?_ (moved.forall_set_of_nodup (P := fun call slot =>
        call.operation.stage.attends → ∃ request k, s.requests[call.peer]? = some request ∧
          (Checker.new F c call.peer s.leader.toNat s.requests.length).setRequest request = .ok k ∧
          slot.pending.find? s.id = some ⟨k, .ofPoint F domain x⟩) apart each ?_)
      · rw [PeerCall.map_peer_set moved.present]
        exact apart
      · exact fun _ attends => absurd attends (Server.not_attends_of_abort moved.step)
    | rotating | admitting | evaluating | finalising | accepting => cases eq

end Call

section Own

variable {F : Field} {c : Circuit} {domain : CircuitDomain} {k n capacity : Nat} {σ : Type}
  {w : World σ} {d' : Deployment σ} {s : Submission} {twice : Prop} {drawn : Key → Prop}
  {x : Nat} {epoch : UInt64} {f : Lane → Lane} {p' : Progress}

/-- Every server has answered whether it takes the request in. -/
theorem answer_of_admits (sound : w.Sound F c domain n capacity) (mem : s ∈ w.submissions)
    {calls : List (PeerCall .newRequest)} (start : s.progress = .admitting calls)
    (handed : ∀ call ∈ calls, call.operation.message.epoch = epoch ∧
      s.requests[call.peer]? = some call.operation.message.request)
    (each : ∀ call ∈ calls, ∀ slot,
      slotAt? w.deployment.servers call.peer s.leader.toNat = some slot →
        call.operation.stage.Admits twice (.new F c call.peer s.leader.toNat s.requests.length)
          (.ofPoint F domain x) call.operation.message.request s.id (slot.pending.find? s.id))
    {answers : List (Except ServerError Unit)} (answered : PeerCall.answers? calls = some answers)
    {peer : Nat} {request : ClientRequest} (there : s.requests[peer]? = some request) :
    (∃ k, (Checker.new F c peer s.leader.toNat s.requests.length).setRequest request = .ok k ∧
      answers[peer]? = some (.ok ()) ∧
      ∀ slot, slotAt? w.deployment.servers peer s.leader.toNat = some slot →
        slot.pending.find? s.id = some ⟨k, .ofPoint F domain x⟩) ∨
    ∃ e, Refuses twice (.new F c peer s.leader.toNat s.requests.length) request s.id e ∧
      answers[peer]? = some (.error e) := by
  have proper := sound.proper.submissions s mem
  have placed := proper.placed (by rw [start]; rfl)
  have ordered := proper.ordered
  rw [start] at ordered
  have peer_lt : peer < n := placed.2 ▸ (List.getElem?_eq_some_iff.1 there).1
  obtain ⟨call, made, rfl⟩ := PeerCall.exists_of_ordered ordered peer_lt
  obtain ⟨reply, stage, told⟩ := PeerCall.getElem?_answers? answered ordered made
  have intact : call.fate = .intact := by
    rw [(proper.makes _ (Progress.Awaits.admitting.mem_calls start made)).fate_eq]
    exact sound.steady s mem _ _ _ nofun
  obtain rfl := Option.some.inj ((handed call made).2.symm.trans there)
  rw [told, intact]
  obtain ⟨slot, found⟩ := sound.proper.fits.exists_slot peer_lt placed.1
  have admits := each call made slot found
  rw [stage] at admits
  generalize eq : slot.pending.find? s.id = pending at admits
  cases admits with
  | @admitted k ok =>
    refine .inl ⟨k, ok, rfl, fun slot' found' => ?_⟩
    obtain rfl := Option.some.inj (found.symm.trans found')
    exact eq
  | refused refuses => exact .inr ⟨_, refuses, rfl⟩

/-- Once the servers have answered whether they take the request in, either all go through the
rounds with it, or those that did withdraw it. -/
theorem Served.of_admits (sound : w.Sound F c domain n capacity) (mem : s ∈ w.submissions)
    (hd : domain.Valid F k) (size : c.domainSize = 2 ^ k) {calls : List (PeerCall .newRequest)}
    (start : s.progress = .admitting calls)
    (handed : ∀ call ∈ calls, call.operation.message.epoch = epoch ∧
      s.requests[call.peer]? = some call.operation.message.request)
    (each : ∀ call ∈ calls, ∀ slot,
      slotAt? w.deployment.servers call.peer s.leader.toNat = some slot →
        call.operation.stage.Admits twice (.new F c call.peer s.leader.toNat s.requests.length)
          (.ofPoint F domain x) call.operation.message.request s.id (slot.pending.find? s.id))
    (proceeds : s.Proceeds w.deployment f p') (leads : Leads w.deployment d' s f) :
    { s with progress := p' }.Served F c domain twice drawn x epoch d' := by
  have steady := sound.steady s mem
  have answer {answers : List (Except ServerError Unit)}
      (answered : PeerCall.answers? calls = some answers) {peer : Nat} {request : ClientRequest}
      (there : s.requests[peer]? = some request) :=
    answer_of_admits sound mem start handed each answered there
  have placed := (sound.proper.submissions s mem).placed (by rw [start]; rfl)
  have ordered := (sound.proper.submissions s mem).ordered
  rw [start] at ordered
  have present {peer : Nat} (lt : peer < n) : s.requests[peer]? = some s.requests[peer] :=
    List.getElem?_eq_getElem (placed.2.symm ▸ lt)
  have servers := leads.servers_eq
  cases proceeds with
  | @admitted _ answers replies start' answered replied =>
    obtain rfl := Progress.admitting.inj (start.symm.trans start')
    -- a server that refused would have answered with an error
    have loads {peer : Nat} {request : ClientRequest} (there : s.requests[peer]? = some request) :
        ∃ k, (Checker.new F c peer s.leader.toNat s.requests.length).setRequest request = .ok k ∧
          ∀ slot, slotAt? w.deployment.servers peer s.leader.toNat = some slot →
            slot.pending.find? s.id = some ⟨k, .ofPoint F domain x⟩ := by
      obtain ⟨k, ok, -, holds⟩ | ⟨e, -, told⟩ := answer answered there
      · exact ⟨k, ok, holds⟩
      · obtain ⟨_, ⟨⟩⟩ := ok_of_allReplies replied (List.mem_of_getElem? told)
    have admissible : ∀ r ∈ s.requests.zipIdx, r.1.Admissible F c s.leader.toNat r.2 := by
      rintro ⟨request, peer⟩ listed
      obtain ⟨k, ok, -⟩ := loads (List.mem_zipIdx_iff_getElem?.1 listed)
      exact (ClientRequest.setRequest_eq_ok_iff.1 ok).1
    -- the key is drawn later, and matters only from then on
    have performed := Script.performed_ofRequests hd size admissible x epoch ⟨.replicate 32 0⟩
    refine .performs ⟨.replicate 32 0⟩ admissible rfl (fun later => absurd rfl later) ?_
    rw [servers]
    refine fun call made slot found => Script.Directs.guides (directed_callThese (s := s)
      (by decide) (fun _ => steady _ _ _ (by decide)) performed.evaluates ?_ call made slot found)
    intro peer slot found
    have peer_lt := sound.proper.fits.lt_of_slotAt? found
    obtain ⟨k, ok, holds⟩ := loads (present peer_lt)
    have listed := List.getElem?_eq_getElem (performed.length_eq.trans placed.2 ▸ peer_lt)
    obtain ⟨-, point, fresh, loaded⟩ := performed.loads peer _ _ listed (present peer_lt)
    refine ⟨_, listed, ?_⟩
    rw [fresh] at loaded
    obtain rfl := Except.ok.inj (ok.symm.trans loaded)
    rw [holds slot found, ← point]
    exact .toEvaluate
  | @admissionFails _ answers e start' answered failed =>
    obtain rfl := Progress.admitting.inj (start.symm.trans start')
    refine .withdraws rfl ?_ ?_ fun call made slot found _ => ?_
    · by_cases again : twice
      · exact .inl again
      refine .inr (Checker.admitAll_of_allReplies ?_ (fun peer request there => ?_) failed)
      · rw [PeerCall.length_answers? answered ordered, placed.2]
      obtain ⟨k, ok, told, -⟩ | ⟨e, refuses, told⟩ := answer answered there
      · rw [told, ok]
        rfl
      · cases refuses with
        | duplicate yes => exact absurd yes again
        | checker fails =>
          rw [told, fails]
          rfl
    · rw [peers_callThese]
      exact List.nodup_range.filter _
    · obtain ⟨peer, took, rfl⟩ := exists_of_mem_callThese made
      obtain ⟨here, told⟩ := List.mem_filter.1 took
      rw [List.mem_range, sound.proper.fits.length_eq] at here
      obtain ⟨k, ok, -, holds⟩ | ⟨e, -, told'⟩ := answer answered (present here)
      · exact ⟨_, k, present here, ok, holds slot (servers ▸ found)⟩
      · rw [told'] at told
        cases told
  | refuse start' | queue start' | enter start' | choose start' | drain start' | give start'
  | rotate _ start' | rotationFails start' | rotated start' | evaluationFails start'
  | evaluated _ start' | finalFails start' | finalised start' | verdictFails start'
  | decided start' | aborted start' | leave start' => cases start.symm.trans start'

/-- A round of a request that all servers have ends as its scripts do. -/
theorem replies_of_guides (sound : w.Sound F c domain n capacity) (mem : s ∈ w.submissions)
    {ts : List Script} (length : ts.length = s.requests.length)
    (guided : ∀ call ∈ s.progress.calls, ∀ slot,
      slotAt? w.deployment.servers call.2.peer s.leader.toNat = some slot →
        Script.Guides ts s.id call slot) {kind : Call} {await : List (PeerCall kind) → Progress}
    {calls : List (PeerCall kind)} (awaits : Progress.Awaits kind await)
    (start : s.progress = await calls) (checked : s.progress.isChecked)
    {answers : List (Except ServerError kind.Reply)}
    (answered : PeerCall.answers? calls = some answers) :
    allReplies answers = .ok (ts.map (·.answer kind)) ∧
      ∀ peer slot, slotAt? w.deployment.servers peer s.leader.toNat = some slot →
        ∃ t, ts[peer]? = some t ∧
          ((∀ stage : Stage kind, stage.attends) → slot.pending.find? s.id = t.kept kind) := by
  have proper := sound.proper.submissions s mem
  have placed := proper.placed (by rw [start]; cases awaits <;> rfl)
  have ordered := proper.ordered
  have fates := proper.makes
  rw [start] at ordered checked
  rw [start, awaits.calls_eq] at guided fates
  refine replies_of_scripts sound.proper.fits placed.1 (length.trans placed.2)
    (awaits.ordered ordered checked) (fun call made => ?_) answered
    (P := fun t slot => (∀ stage : Stage kind, stage.attends) →
      slot.pending.find? s.id = t.kept kind) fun call made slot found => ?_
  · rw [(fates _ (List.mem_map_of_mem made)).fate_eq]
    refine sound.steady s mem _ _ _ ?_
    cases awaits <;> first | exact Call.noConfusion | cases checked
  · obtain ⟨t, present, -, serves⟩ := guided _ (List.mem_map_of_mem made) slot found
    obtain ⟨answer, stage⟩ := PeerCall.answered_of_answers? answered call made
    dsimp only at present serves
    rw [stage] at serves
    obtain ⟨rfl, kept⟩ := serves.of_answered
    exact ⟨t, present, stage, fun cares => kept (cares _)⟩

/-- A request that all servers have comes to the verdict of fresh checkers. -/
theorem verdict_of_guides (sound : w.Sound F c domain n capacity) (mem : s ∈ w.submissions)
    (hd : domain.Valid F k) (size : c.domainSize = 2 ^ k) {key : Key}
    (admissible : ∀ r ∈ s.requests.zipIdx, r.1.Admissible F c s.leader.toNat r.2)
    (guided : ∀ call ∈ s.progress.calls, ∀ slot,
      slotAt? w.deployment.servers call.2.peer s.leader.toNat = some slot → Script.Guides
        (Script.ofRequests F c domain s.leader.toNat s.requests x epoch key) s.id call slot)
    {calls : List (PeerCall .accept)} {answers : List (Except ServerError AcceptReply)}
    (start : s.progress = .accepting calls) (answered : PeerCall.answers? calls = some answers) :
    ∃ v, Verdict.ofFresh F c domain s.leader.toNat s.requests x key = .ok v ∧
      allReplies answers >>= Verdict.ofReplies s.id = .ok v := by
  have placed := (sound.proper.submissions s mem).placed (by rw [start]; rfl)
  have some : s.requests ≠ [] := by
    intro none
    rw [none, List.length_nil] at placed
    omega
  have performed := Script.performed_ofRequests hd size admissible x epoch key
  obtain ⟨told, -⟩ := replies_of_guides sound mem performed.length_eq guided .accepting start
    (by rw [start]; rfl) answered
  rw [told, Answer.ok_bind]
  exact Verdict.ofFresh_eq_ok hd size admissible some s.id x epoch key

/-- A request that all servers have goes from round to round, and to the verdict of fresh
checkers. -/
theorem Served.of_performs (sound : w.Sound F c domain n capacity) (mem : s ∈ w.submissions)
    (hd : domain.Valid F k) (size : c.domainSize = 2 ^ k) {key : Key}
    (admissible : ∀ r ∈ s.requests.zipIdx, r.1.Admissible F c s.leader.toNat r.2)
    (rounds : s.progress.isInRounds) (keyed : ¬s.progress.isEvaluating → drawn key)
    (guided : ∀ call ∈ s.progress.calls, ∀ slot,
      slotAt? w.deployment.servers call.2.peer s.leader.toNat = some slot → Script.Guides
        (Script.ofRequests F c domain s.leader.toNat s.requests x epoch key) s.id call slot)
    (draws : ∀ key corShares, p' = .finalising
      (s.callThese (List.range w.deployment.servers.length)
        { id := s.id, leader := s.leader, corShares, key }) → drawn key)
    (proceeds : s.Proceeds w.deployment f p') (leads : Leads w.deployment d' s f) :
    { s with progress := p' }.Served F c domain twice drawn x epoch d' ∨
      ∃ result, p' = .leaving result ∧ s.Outcome F c domain twice drawn x result := by
  have steady := sound.steady s mem
  have servers := leads.servers_eq
  have performed := Script.performed_ofRequests hd size admissible x epoch key
  have round {kind : Call} {await : List (PeerCall kind) → Progress}
      {calls : List (PeerCall kind)} (awaits : Progress.Awaits kind await)
      (start : s.progress = await calls) {answers : List (Except ServerError kind.Reply)}
      (answered : PeerCall.answers? calls = some answers) :=
    replies_of_guides sound mem performed.length_eq guided awaits start
      (Progress.isChecked_of_isInRounds rounds) answered
  have intact {kind : Call} {message : kind.Message} (other : kind ≠ .changePoint) (peer : Nat) :
      s.network peer kind message = .intact := steady _ _ _ other
  cases proceeds with
  | evaluated key' start answered replied =>
    obtain ⟨told, kept⟩ := round .evaluating start answered
    obtain rfl := Except.ok.inj (told.symm.trans replied)
    have performed' := Script.performed_ofRequests hd size admissible x epoch key'
    refine .inl (.performs key' admissible rfl (fun _ => draws key' _ rfl) ?_)
    rw [servers]
    refine fun call made slot found => Script.Directs.guides (directed_callThese (s := s)
      (by decide) (intact (by decide)) (fun t listed => ?_) ?_ call made slot found)
    · have := performed'.finishes t listed
      rwa [Script.map_corShare_ofRequests _ _ _ _ _ _ _ key' key] at this
    · intro peer slot found
      obtain ⟨t, present, kept⟩ := kept peer slot found
      obtain ⟨t', present', same⟩ := Script.exists_ofRequests present key'
      exact ⟨t', present', kept (fun _ => rfl) ▸ same ▸ .toFinish⟩
  | finalised start answered replied =>
    obtain ⟨told, kept⟩ := round .finalising start answered
    obtain rfl := Except.ok.inj (told.symm.trans replied)
    have known := keyed (by rw [start]; nofun)
    refine .inl (.performs key admissible rfl (fun _ => known) ?_)
    rw [servers]
    refine fun call made slot found => Script.Directs.guides (directed_callThese (s := s)
      (by decide) (intact (by decide)) performed.decides ?_ call made slot found)
    intro peer slot found
    obtain ⟨t, present, kept⟩ := kept peer slot found
    exact ⟨t, present, kept (fun _ => rfl) ▸ .toDecide⟩
  | evaluationFails start answered failed =>
    cases (round .evaluating start answered).1.symm.trans failed
  | finalFails start answered failed =>
    cases (round .finalising start answered).1.symm.trans failed
  | verdictFails start answered failed =>
    obtain ⟨v, -, told⟩ := verdict_of_guides sound mem hd size admissible guided start answered
    cases told.symm.trans failed
  | @decided calls answers v start answered replied =>
    obtain ⟨v', fresh, told⟩ :=
      verdict_of_guides sound mem hd size admissible guided start answered
    obtain rfl := Except.ok.inj (told.symm.trans replied)
    exact .inr ⟨_, rfl, .decided (keyed (by rw [start]; nofun)) fresh⟩
  | refuse start | queue start | enter start | choose start | drain start | give start
  | rotate _ start | rotationFails start | rotated start | admissionFails start | admitted start
  | aborted start | leave start =>
    rw [start] at rounds
    cases rounds

theorem Served.of_own (served : s.Served F c domain twice drawn x epoch w.deployment)
    (sound : w.Sound F c domain n capacity) (mem : s ∈ w.submissions)
    (hd : domain.Valid F k) (size : c.domainSize = 2 ^ k)
    (draws : ∀ key corShares, p' = .finalising
      (s.callThese (List.range w.deployment.servers.length)
        { id := s.id, leader := s.leader, corShares, key }) → drawn key)
    (proceeds : s.Proceeds w.deployment f p') (leads : Leads w.deployment d' s f) :
    { s with progress := p' }.Served F c domain twice drawn x epoch d' ∨
      ∃ result, p' = .leaving result ∧ s.Outcome F c domain twice drawn x result := by
  cases served with
  | admits start _ handed each =>
    exact .inl (.of_admits sound mem hd size start handed each proceeds leads)
  | performs key admissible rounds keyed each =>
    exact Served.of_performs sound mem hd size admissible rounds keyed each draws proceeds leads
  | withdraws start refused =>
    cases proceeds with
    | aborted start' =>
      obtain ⟨rfl, rfl⟩ := Progress.aborting.inj (start.symm.trans start')
      exact .inr ⟨_, rfl, .refused refused⟩
    | refuse start' | queue start' | enter start' | choose start' | drain start' | give start'
    | rotate _ start' | rotationFails start' | rotated start' | admissionFails start'
    | admitted start' | evaluationFails start' | evaluated _ start' | finalFails start'
    | finalised start' | verdictFails start' | decided start' | leave start' =>
      cases start.symm.trans start'

end Own

end Submission

end PrivateSums
