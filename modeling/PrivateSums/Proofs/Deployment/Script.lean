import PrivateSums.Proofs.Check.Completeness
import PrivateSums.Proofs.Deployment.Epochs

/-!
What one server does, call by call, with a request that nothing disturbs.
-/

namespace PrivateSums

/-- Whether the next step takes the checker that a permit promises. -/
def Stage.isPermitted {c : Call} : Stage c → Bool
  | .permitted _ => true
  | _ => false

/-- The checker of a server after each step of a request, and what the server answers. -/
structure Script where
  epoch : UInt64
  point : EvaluationPoint
  fresh : Checker
  loaded : Checker
  corShare : CorShare
  evaluated : Checker
  outShare : OutShare
  finished : Checker
  reply : AcceptReply

namespace Script

/-- Whether a message asks for the next part of the script. -/
def Asks (t : Script) : {c : Call} → c.Message → Prop
  | .newRequest, m => m.epoch = t.epoch ∧ t.fresh.setRequest m.request = .ok t.loaded
  | .evalCircuit, _ => t.loaded.corShare t.point = .ok (t.corShare, t.evaluated)
  | .finalCircuit, m => t.evaluated.finalShare m.corShares m.key = .ok (t.outShare, t.finished)
  | .accept, m => t.finished.verdict m.outShares = .ok t.reply
  | .changePoint, _ => False
  | .abort, _ => False

/-- Where an operation is by the script, and what is pending meanwhile. -/
inductive Follows (t : Script) : {c : Call} → Stage c → Option Pending → Prop
  | offered : Follows t (.called : Stage .newRequest) none
  | bound : Follows t (.bound t.point) none
  | unused : Follows t (.unused t.point) none
  | permitted : Follows t (.permitted t.point) none
  | loading : Follows t (.loading t.point t.fresh) none
  | loaded : Follows t (.loaded t.point t.loaded) none
  | admitted : Follows t (.answered (.ok ()) : Stage .newRequest) (some ⟨t.loaded, t.point⟩)
  | toEvaluate : Follows t (.called : Stage .evalCircuit) (some ⟨t.loaded, t.point⟩)
  | evaluating : Follows t (.evaluating ⟨t.loaded, t.point⟩) none
  | evaluated : Follows t (.evaluated ⟨t.evaluated, t.point⟩ t.corShare) none
  | shared : Follows t (.answered (.ok t.corShare) : Stage .evalCircuit)
      (some ⟨t.evaluated, t.point⟩)
  | toFinish : Follows t (.called : Stage .finalCircuit) (some ⟨t.evaluated, t.point⟩)
  | finalising : Follows t (.finalising ⟨t.evaluated, t.point⟩) none
  | finalised : Follows t (.finalised ⟨t.finished, t.point⟩ t.outShare) none
  | combined : Follows t (.answered (.ok t.outShare) : Stage .finalCircuit)
      (some ⟨t.finished, t.point⟩)
  | toDecide : Follows t (.called : Stage .accept) (some ⟨t.finished, t.point⟩)
  | deciding : Follows t (.deciding ⟨t.finished, t.point⟩) none
  | releasing : Follows t (.releasing t.finished (.ok t.reply) : Stage .accept) none
  | leaving : Follows t (.leaving (.ok t.reply) : Stage .accept) none
  | decided : Follows t (.answered (.ok t.reply) : Stage .accept) none

variable {t : Script} {server : Server} {slot slot' : LeaderSlot} {c : Call} {m : c.Message}
  {stage stage' : Stage c} {id : RequestId} {pending : Option Pending}

/-- A server that is asked for a part of the script goes on as it says. -/
theorem Follows.step (follows : t.Follows stage pending)
    (eq : slot.pending.find? id = pending) (asks : t.Asks m) (about : c.id? m = some id)
    (known : c = .newRequest → slot.points.get? t.epoch = some t.point)
    (promised : stage.isPermitted → ∃ pool, slot.pool.takeChecker = .ok (t.fresh, pool))
    (h : server.stepSlot slot m stage = some (slot', stage')) :
    t.Follows stage' (slot'.pending.find? id) := by
  cases follows with
  | offered =>
    simp only [Server.stepSlot, LeaderSlot.stepNewRequest, asks.1, known rfl] at h
    obtain ⟨rfl, rfl⟩ := Prod.mk.inj (Option.some.inj h)
    exact eq ▸ .bound
  | bound =>
    obtain rfl := Option.some.inj about
    simp only [Server.stepSlot, LeaderSlot.stepNewRequest, eq] at h
    obtain ⟨rfl, rfl⟩ := Prod.mk.inj (Option.some.inj h)
    exact eq ▸ .unused
  | unused =>
    obtain ⟨pool, -, h⟩ := Option.map_eq_some_iff.1 h
    obtain ⟨rfl, rfl⟩ := Prod.mk.inj h
    exact eq ▸ .permitted
  | permitted =>
    obtain ⟨pool, taken⟩ := promised rfl
    simp only [Server.stepSlot, LeaderSlot.stepNewRequest, taken] at h
    obtain ⟨rfl, rfl⟩ := Prod.mk.inj (Option.some.inj h)
    exact eq ▸ .loading
  | loading =>
    simp only [Server.stepSlot, LeaderSlot.stepNewRequest, asks.2] at h
    obtain ⟨rfl, rfl⟩ := Prod.mk.inj (Option.some.inj h)
    exact eq ▸ .loaded
  | loaded =>
    obtain rfl := Option.some.inj about
    simp only [Server.stepSlot, LeaderSlot.stepNewRequest, eq] at h
    obtain ⟨rfl, rfl⟩ := Prod.mk.inj (Option.some.inj h)
    exact PendingRequests.find?_insert_self ▸ .admitted
  | toEvaluate =>
    obtain rfl := Option.some.inj about
    simp only [Server.stepSlot, LeaderSlot.stepEvalCircuit, LeaderSlot.takeOut, eq] at h
    obtain ⟨rfl, rfl⟩ := Prod.mk.inj (Option.some.inj h)
    exact PendingRequests.find?_erase_self ▸ .evaluating
  | evaluating =>
    simp only [Asks] at asks
    simp only [Server.stepSlot, LeaderSlot.stepEvalCircuit, asks] at h
    obtain ⟨rfl, rfl⟩ := Prod.mk.inj (Option.some.inj h)
    exact eq ▸ .evaluated
  | evaluated =>
    obtain rfl := Option.some.inj about
    simp only [Server.stepSlot, LeaderSlot.stepEvalCircuit, LeaderSlot.putBack, eq] at h
    obtain ⟨rfl, rfl⟩ := Prod.mk.inj (Option.some.inj h)
    exact PendingRequests.find?_insert_self ▸ .shared
  | toFinish =>
    obtain rfl := Option.some.inj about
    simp only [Server.stepSlot, LeaderSlot.stepFinalCircuit, LeaderSlot.takeOut, eq] at h
    obtain ⟨rfl, rfl⟩ := Prod.mk.inj (Option.some.inj h)
    exact PendingRequests.find?_erase_self ▸ .finalising
  | finalising =>
    simp only [Asks] at asks
    simp only [Server.stepSlot, LeaderSlot.stepFinalCircuit, asks] at h
    obtain ⟨rfl, rfl⟩ := Prod.mk.inj (Option.some.inj h)
    exact eq ▸ .finalised
  | finalised =>
    obtain rfl := Option.some.inj about
    simp only [Server.stepSlot, LeaderSlot.stepFinalCircuit, LeaderSlot.putBack, eq] at h
    obtain ⟨rfl, rfl⟩ := Prod.mk.inj (Option.some.inj h)
    exact PendingRequests.find?_insert_self ▸ .combined
  | toDecide =>
    obtain rfl := Option.some.inj about
    simp only [Server.stepSlot, LeaderSlot.stepAccept, LeaderSlot.takeOut, eq] at h
    obtain ⟨rfl, rfl⟩ := Prod.mk.inj (Option.some.inj h)
    exact PendingRequests.find?_erase_self ▸ .deciding
  | deciding =>
    simp only [Asks] at asks
    simp only [Server.stepSlot, LeaderSlot.stepAccept, asks, Answer.mapError_ok] at h
    obtain ⟨rfl, rfl⟩ := Prod.mk.inj (Option.some.inj h)
    exact eq ▸ .releasing
  | releasing =>
    obtain ⟨rfl, rfl⟩ := Prod.mk.inj (Option.some.inj h)
    exact eq ▸ .leaving
  | leaving =>
    obtain ⟨rfl, rfl⟩ := Prod.mk.inj (Option.some.inj h)
    exact eq ▸ .decided
  | admitted | shared | combined | decided => cases h

/-- What the server answers to a call that asks for its part of the script. -/
def answer (t : Script) : (c : Call) → c.Reply
  | .newRequest | .changePoint | .abort => ()
  | .evalCircuit => t.corShare
  | .finalCircuit => t.outShare
  | .accept => t.reply

/-- What is pending once a call is answered. -/
def kept (t : Script) : Call → Option Pending
  | .newRequest => some ⟨t.loaded, t.point⟩
  | .evalCircuit => some ⟨t.evaluated, t.point⟩
  | .finalCircuit => some ⟨t.finished, t.point⟩
  | _ => none

theorem Follows.of_answered {answer : Except ServerError c.Reply}
    (follows : t.Follows (.answered answer) pending) :
    answer = .ok (t.answer c) ∧ pending = t.kept c := by
  cases follows <;> exact ⟨rfl, rfl⟩

/-- Whether a call goes by the script of the server that it is made to. -/
def Directs (ts : List Script) (id : RequestId) (call : AnyCall) (slot : LeaderSlot) : Prop :=
  ∃ t, ts[call.2.peer]? = some t ∧ t.Asks call.2.operation.message ∧
    (call.1 = .newRequest → slot.points.get? t.epoch = some t.point) ∧
    t.Follows call.2.operation.stage (slot.pending.find? id)

/-- The scripts of all servers, in server order, for the requests of a submission. -/
def ofRequests (F : Field) (c : Circuit) (domain : CircuitDomain) (leader : Nat)
    (requests : List ClientRequest) (x : Nat) (epoch : UInt64) (key : Key) : List Script :=
  let ps := ClientRequest.parties F c leader requests
  let point := EvaluationPoint.ofPoint F domain x
  let outShare := Party.outShare F c leader point ps (Holding.coefficients F c key)
  let valid := F.sum (ps.map fun p => (outShare p).check) == 0
  ps.map fun p => {
    epoch
    point
    fresh := .new F c p.server leader requests.length
    loaded := p.checker F c leader requests.length
    corShare := p.corShare F c point
    evaluated := p.evaluated F c leader point requests.length
    outShare := outShare p
    finished := p.finished F c leader point requests.length
    reply := {
      accepted := valid
      outputShares := if valid then some (c.outputValues p.holding.wires) else none } }

theorem map_corShare_ofRequests (F : Field) (c : Circuit) (domain : CircuitDomain) (leader : Nat)
    (requests : List ClientRequest) (x : Nat) (epoch : UInt64) (key key' : Key) :
    (ofRequests F c domain leader requests x epoch key).map corShare =
      (ofRequests F c domain leader requests x epoch key').map corShare := by
  simp [ofRequests]

/-- Up to the second round, nothing depends on its key. -/
theorem exists_ofRequests {F : Field} {c : Circuit} {domain : CircuitDomain} {leader peer : Nat}
    {requests : List ClientRequest} {x : Nat} {epoch : UInt64} {key : Key}
    (present : (ofRequests F c domain leader requests x epoch key)[peer]? = some t) (key' : Key) :
    ∃ t', (ofRequests F c domain leader requests x epoch key')[peer]? = some t' ∧
      t'.kept .evalCircuit = t.kept .evalCircuit := by
  rw [ofRequests, List.getElem?_map] at present
  obtain ⟨p, there, rfl⟩ := Option.map_eq_some_iff.1 present
  rw [ofRequests, List.getElem?_map, there]
  refine ⟨_, rfl, ?_⟩
  simp only [kept]

/-- Scripts that all servers can keep to, each other's answers given. -/
structure Performed (ts : List Script) (F : Field) (c : Circuit) (domain : CircuitDomain)
    (leader : Nat) (requests : List ClientRequest) (x : Nat) (epoch : UInt64) (key : Key) :
    Prop where
  length_eq : ts.length = requests.length
  loads : ∀ (peer : Nat) (t : Script) (request : ClientRequest), ts[peer]? = some t →
    requests[peer]? = some request →
    t.epoch = epoch ∧ t.point = .ofPoint F domain x ∧
      t.fresh = .new F c peer leader requests.length ∧
      t.fresh.setRequest request = .ok t.loaded
  evaluates : ∀ t ∈ ts, t.loaded.corShare t.point = .ok (t.corShare, t.evaluated)
  finishes : ∀ t ∈ ts, t.evaluated.finalShare (ts.map corShare) key = .ok (t.outShare, t.finished)
  decides : ∀ t ∈ ts, t.finished.verdict (ts.map outShare) = .ok t.reply

structure Rehearsed (ts : List Script) (F : Field) (c : Circuit) (domain : CircuitDomain)
    (leader : Nat) (requests : List ClientRequest) (x : Nat) (epoch : UInt64) (key : Key) : Prop
    extends Performed ts F c domain leader requests x epoch key where
  accepts : ∀ t ∈ ts, t.reply.accepted

/-- Requests of any making have scripts, once all servers take them in. -/
theorem performed_ofRequests {F : Field} {c : Circuit} {domain : CircuitDomain} {k leader : Nat}
    {requests : List ClientRequest} (hd : domain.Valid F k) (size : c.domainSize = 2 ^ k)
    (admissible : ∀ r ∈ requests.zipIdx, r.1.Admissible F c leader r.2) (x : Nat) (epoch : UInt64)
    (key : Key) :
    Performed (ofRequests F c domain leader requests x epoch key) F c domain leader requests x
      epoch key := by
  set ps := ClientRequest.parties F c leader requests
  have count : ps.length = requests.length := ClientRequest.length_parties F c leader requests
  have complete := ClientRequest.complete_parties F c leader requests
  refine ⟨by simp [ofRequests], fun peer t request present there => ?_, fun t mem => ?_,
    fun t mem => ?_, fun t mem => ?_⟩
  · have listed : requests.zipIdx[peer]? = some (request, peer) := by
      simp [List.getElem?_zipIdx, there]
    have admitted : (Checker.new F c peer leader requests.length).setRequest request = .ok _ :=
      ClientRequest.setRequest_eq_ok_iff.2 ⟨admissible _ (List.mem_of_getElem? listed), rfl⟩
    simp only [ofRequests, ClientRequest.parties, List.getElem?_map, listed, Option.map_some,
      Option.some.injEq] at present
    subst present
    exact ⟨rfl, rfl, rfl, admitted⟩
  all_goals
    obtain ⟨p, listed, rfl⟩ := List.mem_map.1 mem
  · exact Party.corShare_checker hd size (complete p listed) requests.length x
  · have cor : (p.evaluated F c leader (.ofPoint F domain x) requests.length).cor
        (ps.map fun p => p.corShare F c (.ofPoint F domain x)) =
          .ok (Party.cor F c (.ofPoint F domain x) ps) := by
      rw [← count]
      exact Party.cor_evaluated _ p
    simp only [ofRequests, List.map_map, Function.comp_def]
    rw [Checker.finalShare, cor, Answer.ok_bind]
    rfl
  · let share := Party.outShare F c leader (.ofPoint F domain x) ps (Holding.coefficients F c key)
    have verdict : (p.finished F c leader (.ofPoint F domain x) requests.length).outputIsValid
        (ps.map share) = .ok (F.sum (ps.map fun p => (share p).check) == 0) := by
      rw [← count]
      exact Party.outputIsValid_finished _ p share
    have shares : (ofRequests F c domain leader requests x epoch key).map outShare =
        ps.map share := by
      rw [ofRequests, List.map_map]
      rfl
    rw [shares, Checker.verdict, verdict, Answer.ok_bind]
    dsimp only
    split <;> rename_i valid
    · rw [valid]
      rfl
    · rw [Bool.not_eq_true] at valid
      rw [valid]
      rfl

/-- The scripts of valid requests end with their acceptance. -/
theorem rehearsed_ofRequests {F : Field} {c : Circuit} {domain : CircuitDomain} {k leader : Nat}
    {requests : List ClientRequest} (hd : domain.Valid F k) (size : c.domainSize = 2 ^ k)
    (admissible : ∀ r ∈ requests.zipIdx, r.1.Admissible F c leader r.2) (x : Nat) (epoch : UInt64)
    (key : Key)
    (zero : F.sum ((ClientRequest.parties F c leader requests).map fun p => (p.outShare F c leader
      (.ofPoint F domain x) (ClientRequest.parties F c leader requests)
        (Holding.coefficients F c key)).check) = 0) :
    Rehearsed (ofRequests F c domain leader requests x epoch key) F c domain leader requests x
      epoch key where
  toPerformed := performed_ofRequests hd size admissible x epoch key
  accepts := by
    intro t mem
    obtain ⟨p, -, rfl⟩ := List.mem_map.1 mem
    exact beq_iff_eq.2 zero

end Script

end PrivateSums
