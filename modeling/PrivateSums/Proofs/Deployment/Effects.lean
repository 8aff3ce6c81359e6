import PrivateSums.Proofs.Check.Completeness
import PrivateSums.Proofs.Deployment.Loans

/-!
What a call does to a server when it is answered while no other operation takes a step. It works on
the one request that it is about and on its leader's pool, or on its leader's evaluation points, and
leaves all else as it is; when it fails, it either changed nothing or gave its request up. So a
request is evaluated at the point it was taken in under, whatever else was asked of the server
meanwhile.
-/

namespace PrivateSums

theorem PendingRequests.insert_erase {requests : PendingRequests} {id : RequestId} {p : Pending} :
    (requests.erase id).insert id p = requests.insert id p := by
  simp [insert, erase]

/-- What was just lent fits in where it came from. -/
theorem CheckerPool.release_of_acquire? {p p' : CheckerPool} {k : Checker}
    (h : p.acquire? = some (.ok (k, p'))) (rested : k.reset = k) : p'.release k = p := by
  obtain ⟨leader, idle, permits⟩ := p
  cases permits with
  | zero => cases h
  | succ permits =>
    cases idle with
    | nil => cases h
    | cons first idle =>
      obtain ⟨rfl, rfl⟩ : first = k ∧ CheckerPool.mk leader idle permits = p' :=
        Prod.mk.inj (Except.ok.inj (Option.some.inj h))
      rw [release, giveChecker, givePermit, rested]

namespace Checker

variable {k k' : Checker}

theorem state_setRequest {request : ClientRequest} (h : k.setRequest request = .ok k') :
    k.state = .idle ∧ k'.state = .hasRequest := by
  obtain ⟨idle, holding, rfl⟩ := of_setRequest h
  exact ⟨congrArg Phase.state idle, rfl⟩

theorem state_corShare {point : EvaluationPoint} {share : CorShare}
    (h : k.corShare point = .ok (share, k')) : k.state = .hasRequest ∧ k'.state = .layer1Done := by
  obtain ⟨holding, evaluations, held, rfl⟩ := of_corShare h
  exact ⟨congrArg Phase.state held, rfl⟩

theorem state_finalShare {shares : List CorShare} {key : Key} {share : OutShare}
    (h : k.finalShare shares key = .ok (share, k')) :
    k.state = .layer1Done ∧ k'.state = .finished := by
  obtain ⟨holding, evaluations, kept, rfl⟩ := of_finalShare h
  exact ⟨congrArg Phase.state kept, rfl⟩

end Checker

namespace Call

/-- Whether a call carries a pending request on. -/
def isRound : Call → Bool
  | evalCircuit | finalCircuit | accept => true
  | newRequest | changePoint | abort => false

/-- What a round makes of its request. -/
def compute : (c : Call) → c.Message → Pending → Except CheckerError c.Reply
  | evalCircuit, _, p => (p.checker.corShare p.point).map (·.1)
  | finalCircuit, m, p => (p.checker.finalShare m.corShares m.key).map (·.1)
  | accept, m, p => p.checker.verdict m.outShares
  | newRequest, _, _ | changePoint, _, _ | abort, _, _ => .ok ()

end Call

theorem Stage.eq_answered {c : Call} {stage : Stage c} {answer : Except ServerError c.Reply}
    (h : stage.answer? = some answer) : stage = .answered answer := by
  cases stage <;> simp_all [Stage.answer?]

namespace LeaderSlot

/-- Gives a request up, and its checker back. -/
def drop (s : LeaderSlot) (id : RequestId) (p : Pending) : LeaderSlot :=
  { s with pending := s.pending.erase id, pool := s.pool.release p.checker }

/-- What a call does to the slot of its leader, by its answer. -/
inductive Effect (pointAt : Nat → EvaluationPoint) (fresh : Checker) (s : LeaderSlot) :
    (c : Call) → c.Message → Except ServerError c.Reply → LeaderSlot → Prop
  | takeIn {m : NewRequest} {point : EvaluationPoint} {k : Checker} {pool : CheckerPool}
      (known : s.points.get? m.epoch = some point) (absent : s.pending.find? m.id = none)
      (lent : s.pool.acquire? = some (.ok (fresh, pool)))
      (taken : fresh.setRequest m.request = .ok k) (state : k.state = .hasRequest) :
      Effect pointAt fresh s .newRequest m (.ok ())
        { s with pool, pending := s.pending.insert m.id ⟨k, point⟩ }
  | refuse {m : NewRequest} (e : ServerError) : Effect pointAt fresh s .newRequest m (.error e) s
  | evaluate {m : EvalCircuit} {p : Pending} {share : CorShare} {k : Checker}
      (present : s.pending.find? m.id = some p) (before : p.checker.state = .hasRequest)
      (computed : p.checker.corShare p.point = .ok (share, k)) (after : k.state = .layer1Done) :
      Effect pointAt fresh s .evalCircuit m (.ok share)
        { s with pending := s.pending.insert m.id { p with checker := k } }
  | finalise {m : FinalCircuit} {p : Pending} {share : OutShare} {k : Checker}
      (present : s.pending.find? m.id = some p) (before : p.checker.state = .layer1Done)
      (computed : p.checker.finalShare m.corShares m.key = .ok (share, k))
      (after : k.state = .finished) :
      Effect pointAt fresh s .finalCircuit m (.ok share)
        { s with pending := s.pending.insert m.id { p with checker := k } }
  | decide {m : Accept} {p : Pending} {reply : AcceptReply}
      (present : s.pending.find? m.id = some p)
      (decided : p.checker.verdict m.outShares = .ok reply) :
      Effect pointAt fresh s .accept m (.ok reply) (s.drop m.id p)
  /-- A round that fails gives its request up. -/
  | fail {c : Call} {m : c.Message} {id : RequestId} {p : Pending} {e : CheckerError}
      (round : c.isRound) (about : c.id? m = some id) (present : s.pending.find? id = some p)
      (failed : c.compute m p = .error e) :
      Effect pointAt fresh s c m (.error (.checker e)) (s.drop id p)
  | unknown {c : Call} {m : c.Message} {id : RequestId} (round : c.isRound)
      (about : c.id? m = some id) (absent : s.pending.find? id = none) :
      Effect pointAt fresh s c m (.error (.unknownRequest id)) s
  | abort {m : Abort} {p : Pending} (present : s.pending.find? m.id = some p) :
      Effect pointAt fresh s .abort m (.ok ()) (s.drop m.id p)
  | absent {m : Abort} (absent : s.pending.find? m.id = none) :
      Effect pointAt fresh s .abort m (.ok ()) s
  | rotate {m : ChangePoint} {points : EvaluationPoints}
      (rotated : s.points.rotate m.epoch (pointAt m.x) = .ok points) :
      Effect pointAt fresh s .changePoint m (.ok ()) { s with points }
  | stale {m : ChangePoint} {current : UInt64}
      (refused : s.points.rotate m.epoch (pointAt m.x) = .error current) :
      Effect pointAt fresh s .changePoint m (.error (.staleEpoch m.leader m.epoch current)) s

section Frame

variable {pointAt : Nat → EvaluationPoint} {fresh : Checker} {s s' : LeaderSlot} {c : Call}
  {m : c.Message} {answer : Except ServerError c.Reply}

theorem Effect.find?_ne (h : s.Effect pointAt fresh c m answer s') {id : RequestId}
    (other : c.id? m ≠ some id) : s'.pending.find? id = s.pending.find? id := by
  have ne {i : RequestId} (about : c.id? m = some i) : id ≠ i := fun eq => other (eq ▸ about)
  cases h with
  | takeIn | evaluate | finalise => exact PendingRequests.find?_insert_ne (ne rfl)
  | decide | abort => exact PendingRequests.find?_erase_ne (ne rfl)
  | fail round about => exact PendingRequests.find?_erase_ne (ne about)
  | refuse | unknown | absent | rotate | stale => rfl

theorem Effect.points_eq (h : s.Effect pointAt fresh c m answer s') (fixed : c ≠ .changePoint) :
    s'.points = s.points := by
  cases h with
  | rotate | stale => exact absurd rfl fixed
  | _ => rfl

end Frame

end LeaderSlot

namespace Server

/-- The server with another slot for a leader. -/
def withSlot (s : Server) (leader : Nat) (slot : LeaderSlot) : Server :=
  { s with slots := s.slots.set leader slot }

variable {s s' : Server} {c : Call} {m : c.Message} {slot slot' : LeaderSlot}
  {stage stage' : Stage c}

/-- The steps that an operation takes alone, in the slot of its leader. -/
abbrev Runs (s : Server) (m : c.Message) : LeaderSlot × Stage c → LeaderSlot × Stage c → Prop :=
  Relation.ReflTransGen fun a b => s.stepSlot a.1 m a.2 = some b

theorem run_of_step {op op' : Operation c} (h : s.step op = some (s', op')) :
    s.run op = s'.run op' := by
  rw [run]
  split
  · simp_all
  · simp_all

theorem run_of_step_eq_none {op : Operation c} (h : s.step op = none) : s.run op = (s, op) := by
  rw [run]
  split
  · rfl
  · simp_all

theorem withSlot_self {leader : Nat} (found : s.slots[leader]? = some slot) :
    s.withSlot leader slot = s := by
  obtain ⟨here, rfl⟩ := List.getElem?_eq_some_iff.1 found
  rw [withSlot, List.set_getElem_self]

theorem withSlot_withSlot {leader : Nat} :
    (s.withSlot leader slot).withSlot leader slot' = s.withSlot leader slot' := by
  simp only [withSlot, List.set_set]

theorem getElem?_withSlot_self {leader : Nat} (found : s.slots[leader]? = some slot) :
    (s.withSlot leader slot').slots[leader]? = some slot' :=
  List.getElem?_set_self (List.getElem?_eq_some_iff.1 found).1

/-- The slots of a server play no part in what it does to one of them. -/
theorem stepSlot_withSlot {leader : Nat} {other : LeaderSlot} :
    (s.withSlot leader other).stepSlot slot m stage = s.stepSlot slot m stage := by
  cases c <;> rfl

theorem message_run (op : Operation c) : (s.run op).2.message = op.message := by
  fun_induction Server.run s op with
  | case1 => rfl
  | case2 s op s' op' step ih => rw [ih, (of_step step).1]

theorem run_withSlot (found : s.slots[(c.leader m).toNat]? = some slot)
    {before after : LeaderSlot × Stage c} (runs : s.Runs m before after)
    (ended : s.stepSlot after.1 m after.2 = none) :
    (s.withSlot (c.leader m).toNat before.1).run ⟨m, before.2⟩ =
      (s.withSlot (c.leader m).toNat after.1, ⟨m, after.2⟩) := by
  induction runs using Relation.ReflTransGen.head_induction_on with
  | refl =>
    apply run_of_step_eq_none
    rw [step, Operation.leader, getElem?_withSlot_self found]
    simp [stepSlot_withSlot, ended]
  | @head before next step rest ih =>
    rw [← ih]
    apply run_of_step
    have there : (s.withSlot (c.leader m).toNat before.1).slots[(c.leader m).toNat]? =
        some before.1 := getElem?_withSlot_self found
    rw [step_of_stepSlot there ((stepSlot_withSlot ..).trans step)]
    exact congrArg (fun s => some (s, _)) withSlot_withSlot

/-- What a call comes to, from the steps that it takes in the slot of its leader. -/
theorem answer?_of_runs (found : s.slots[(c.leader m).toNat]? = some slot)
    (runs : s.Runs m (slot, .called) (slot', stage)) (ended : s.stepSlot slot' m stage = none) :
    s.answer? m = stage.answer?.map (·, s.withSlot (c.leader m).toNat slot') := by
  have ran := run_withSlot found runs ended
  rw [withSlot_self found] at ran
  rw [answer?, Operation.start, ran]

theorem Runs.release {start : LeaderSlot × Stage c} {k : Checker}
    {answer : Except ServerError c.Reply} (runs : s.Runs m start (slot, .releasing k answer)) :
    s.Runs m start ({ slot with pool := slot.pool.release k }, .answered answer) := by
  have given : s.stepSlot slot m (.releasing k answer) =
      some ({ slot with pool := slot.pool.giveChecker k }, .leaving answer) := by
    cases c <;> rfl
  have left : s.stepSlot { slot with pool := slot.pool.giveChecker k } m (.leaving answer) =
      some ({ slot with pool := slot.pool.release k }, .answered answer) := by
    cases c <;> rfl
  exact (runs.tail given).tail left

theorem stepSlot_answered {answer : Except ServerError c.Reply} :
    s.stepSlot slot m (.answered answer) = none := by
  cases c <;> rfl

section Effect

variable {pointAt : Nat → EvaluationPoint} {fresh k : Checker} {id : RequestId} {p : Pending}

/-- A round that its request's checker refuses. -/
theorem Runs.fail {next : Pending → Stage c} {e : CheckerError} (round : c.isRound)
    (about : c.id? m = some id) (present : slot.pending.find? id = some p)
    (failed : c.compute m p = .error e)
    (taken : s.Runs m (slot, .called) ({ slot with pending := slot.pending.erase id }, next p))
    (refused : s.stepSlot { slot with pending := slot.pending.erase id } m (next p) =
      some ({ slot with pending := slot.pending.erase id },
        .releasing p.checker (.error (.checker e)))) :
    ∃ answer slot', s.Runs m (slot, .called) (slot', .answered answer) ∧
      slot.Effect pointAt fresh c m answer slot' :=
  ⟨_, _, Runs.release (taken.tail refused), .fail round about present failed⟩

theorem effect_evalCircuit (s : Server) (slot : LeaderSlot) (m : EvalCircuit) :
    ∃ answer slot', s.Runs (c := .evalCircuit) m (slot, .called) (slot', .answered answer) ∧
      slot.Effect pointAt fresh .evalCircuit m answer slot' := by
  cases present : slot.pending.find? m.id with
  | none =>
    refine ⟨_, _, .single ?_, .unknown rfl rfl present⟩
    simp only [stepSlot, LeaderSlot.stepEvalCircuit, LeaderSlot.takeOut, present]
  | some p =>
    have taken : s.stepSlot slot (c := .evalCircuit) m .called =
        some ({ slot with pending := slot.pending.erase m.id }, .evaluating p) := by
      simp only [stepSlot, LeaderSlot.stepEvalCircuit, LeaderSlot.takeOut, present]
    cases computed : p.checker.corShare p.point with
    | error e =>
      apply Runs.fail rfl rfl present (e := e) (by rw [Call.compute, computed]; rfl) (.single taken)
      simp only [stepSlot, LeaderSlot.stepEvalCircuit, computed]
    | ok value =>
      obtain ⟨share, k⟩ := value
      have states := Checker.state_corShare computed
      have evaluated : s.stepSlot { slot with pending := slot.pending.erase m.id }
          (c := .evalCircuit) m (.evaluating p) =
            some ({ slot with pending := slot.pending.erase m.id },
              .evaluated { p with checker := k } share) := by
        simp only [stepSlot, LeaderSlot.stepEvalCircuit, computed]
      refine ⟨_, _, .head taken (.head evaluated (.single ?_)),
        .evaluate present states.1 computed states.2⟩
      simp only [stepSlot, LeaderSlot.stepEvalCircuit, LeaderSlot.putBack,
        PendingRequests.find?_erase_self, PendingRequests.insert_erase]

theorem effect_finalCircuit (s : Server) (slot : LeaderSlot) (m : FinalCircuit) :
    ∃ answer slot', s.Runs (c := .finalCircuit) m (slot, .called) (slot', .answered answer) ∧
      slot.Effect pointAt fresh .finalCircuit m answer slot' := by
  cases present : slot.pending.find? m.id with
  | none =>
    refine ⟨_, _, .single ?_, .unknown rfl rfl present⟩
    simp only [stepSlot, LeaderSlot.stepFinalCircuit, LeaderSlot.takeOut, present]
  | some p =>
    have taken : s.stepSlot slot (c := .finalCircuit) m .called =
        some ({ slot with pending := slot.pending.erase m.id }, .finalising p) := by
      simp only [stepSlot, LeaderSlot.stepFinalCircuit, LeaderSlot.takeOut, present]
    cases computed : p.checker.finalShare m.corShares m.key with
    | error e =>
      apply Runs.fail rfl rfl present (e := e) (by rw [Call.compute, computed]; rfl) (.single taken)
      simp only [stepSlot, LeaderSlot.stepFinalCircuit, computed]
    | ok value =>
      obtain ⟨share, k⟩ := value
      have states := Checker.state_finalShare computed
      have finalised : s.stepSlot { slot with pending := slot.pending.erase m.id }
          (c := .finalCircuit) m (.finalising p) =
            some ({ slot with pending := slot.pending.erase m.id },
              .finalised { p with checker := k } share) := by
        simp only [stepSlot, LeaderSlot.stepFinalCircuit, computed]
      refine ⟨_, _, .head taken (.head finalised (.single ?_)),
        .finalise present states.1 computed states.2⟩
      simp only [stepSlot, LeaderSlot.stepFinalCircuit, LeaderSlot.putBack,
        PendingRequests.find?_erase_self, PendingRequests.insert_erase]

theorem effect_accept (s : Server) (slot : LeaderSlot) (m : Accept) :
    ∃ answer slot', s.Runs (c := .accept) m (slot, .called) (slot', .answered answer) ∧
      slot.Effect pointAt fresh .accept m answer slot' := by
  cases present : slot.pending.find? m.id with
  | none =>
    refine ⟨_, _, .single ?_, .unknown rfl rfl present⟩
    simp only [stepSlot, LeaderSlot.stepAccept, LeaderSlot.takeOut, present]
  | some p =>
    have taken : s.stepSlot slot (c := .accept) m .called =
        some ({ slot with pending := slot.pending.erase m.id }, .deciding p) := by
      simp only [stepSlot, LeaderSlot.stepAccept, LeaderSlot.takeOut, present]
    cases decided : p.checker.verdict m.outShares with
    | error e =>
      apply Runs.fail (c := .accept) rfl rfl present (e := e) decided (.single taken)
      simp only [stepSlot, LeaderSlot.stepAccept, decided]
      rfl
    | ok reply =>
      have released : s.stepSlot { slot with pending := slot.pending.erase m.id }
          (c := .accept) m (.deciding p) =
            some ({ slot with pending := slot.pending.erase m.id },
              .releasing p.checker (.ok reply)) := by
        simp only [stepSlot, LeaderSlot.stepAccept, decided]
        rfl
      exact ⟨_, _, Runs.release (.head taken (.single released)), .decide present decided⟩

theorem effect_abort (s : Server) (slot : LeaderSlot) (m : Abort) :
    ∃ answer slot', s.Runs (c := .abort) m (slot, .called) (slot', .answered answer) ∧
      slot.Effect pointAt fresh .abort m answer slot' := by
  cases present : slot.pending.find? m.id with
  | none =>
    refine ⟨_, _, .single ?_, .absent present⟩
    simp only [stepSlot, LeaderSlot.stepAbort, present]
  | some p =>
    have taken : s.stepSlot slot (c := .abort) m .called =
        some ({ slot with pending := slot.pending.erase m.id },
          .releasing p.checker (.ok ())) := by
      simp only [stepSlot, LeaderSlot.stepAbort, present]
    exact ⟨_, _, Runs.release (.single taken), .abort present⟩

theorem effect_changePoint (s : Server) (slot : LeaderSlot) (m : ChangePoint) :
    ∃ answer slot', s.Runs (c := .changePoint) m (slot, .called) (slot', .answered answer) ∧
      slot.Effect (.ofPoint s.field s.domain) fresh .changePoint m answer slot' := by
  have computed : s.stepSlot slot (c := .changePoint) m .called =
      some (slot, .computed (.ofPoint s.field s.domain m.x)) := rfl
  cases rotated : slot.points.rotate m.epoch (.ofPoint s.field s.domain m.x) with
  | error current =>
    refine ⟨_, _, .head computed (.single ?_), .stale rotated⟩
    simp only [stepSlot, LeaderSlot.stepChangePoint, rotated]
  | ok points =>
    refine ⟨_, _, .head computed (.single ?_), .rotate rotated⟩
    simp only [stepSlot, LeaderSlot.stepChangePoint, rotated]

/-- A new request is taken in or refused, unless it comes to wait for a permit. -/
theorem effect_newRequest (s : Server) (slot : LeaderSlot) (m : NewRequest)
    (rested : fresh.reset = fresh)
    (promised : ∀ answer, slot.pool.acquire? = some answer → ∃ pool, answer = .ok (fresh, pool)) :
    (∃ answer slot', s.Runs (c := .newRequest) m (slot, .called) (slot', .answered answer) ∧
        slot.Effect pointAt fresh .newRequest m answer slot') ∨
      slot.pool.permits = 0 ∧
        ∃ point, s.Runs (c := .newRequest) m (slot, .called) (slot, .unused point) := by
  cases known : slot.points.get? m.epoch with
  | none =>
    refine .inl ⟨_, _, .single ?_, .refuse (.unknownEpoch m.leader m.epoch)⟩
    simp only [stepSlot, LeaderSlot.stepNewRequest, known]
  | some point =>
  have bound : s.stepSlot slot (c := .newRequest) m .called = some (slot, .bound point) := by
    simp only [stepSlot, LeaderSlot.stepNewRequest, known]
  cases absent : slot.pending.find? m.id with
  | some p =>
    refine .inl ⟨_, _, .head bound (.single ?_), .refuse (.duplicateRequest m.id)⟩
    simp only [stepSlot, LeaderSlot.stepNewRequest, absent]
  | none =>
  have unused : s.stepSlot slot (c := .newRequest) m (.bound point) =
      some (slot, .unused point) := by
    simp only [stepSlot, LeaderSlot.stepNewRequest, absent]
  have admissible : s.Runs (c := .newRequest) m (slot, .called) (slot, .unused point) :=
    .head bound (.single unused)
  cases permitted : slot.pool.takePermit? with
  | none =>
    refine .inr ⟨?_, point, admissible⟩
    unfold CheckerPool.takePermit? at permitted
    split at permitted
    · assumption
    · cases permitted
  | some rest =>
  have acquired : slot.pool.acquire? = some rest.takeChecker := by
    rw [CheckerPool.acquire?, permitted, Option.map_some]
  obtain ⟨pool, taken⟩ := promised _ acquired
  have lent := acquired.trans (congrArg some taken)
  have loading : s.Runs (c := .newRequest) m (slot, .called)
      ({ slot with pool }, .loading point fresh) := by
    refine (admissible.tail (c := ({ slot with pool := rest }, .permitted point)) ?_).tail ?_
    · simp only [stepSlot, LeaderSlot.stepNewRequest, permitted, Option.map_some]
    · simp only [stepSlot, LeaderSlot.stepNewRequest, taken]
  cases loaded : fresh.setRequest m.request with
  | error e =>
    have released := Runs.release (loading.tail
      (c := ({ slot with pool }, .releasing fresh (.error (.checker e)))) (by
        simp only [stepSlot, LeaderSlot.stepNewRequest, loaded]))
    rw [CheckerPool.release_of_acquire? lent rested] at released
    exact .inl ⟨_, _, released, .refuse (.checker e)⟩
  | ok k =>
    have takesIn : s.stepSlot { slot with pool } (c := .newRequest) m (.loading point fresh) =
        some ({ slot with pool }, .loaded point k) := by
      simp only [stepSlot, LeaderSlot.stepNewRequest, loaded]
    refine .inl ⟨_, _, (loading.tail takesIn).tail ?_,
      .takeIn known absent lent loaded (Checker.state_setRequest loaded).2⟩
    simp only [stepSlot, LeaderSlot.stepNewRequest, absent]

end Effect

/-- What a call did to the slot of its leader is all that it did, once it is answered. -/
theorem effect_of_answer? (fresh : Checker) {answer : Except ServerError c.Reply}
    (found : s.slots[(c.leader m).toNat]? = some slot) (rested : fresh.reset = fresh)
    (promised : ∀ answer, slot.pool.acquire? = some answer → ∃ pool, answer = .ok (fresh, pool))
    (h : s.answer? m = some (answer, s')) :
    ∃ slot', slot.Effect (.ofPoint s.field s.domain) fresh c m answer slot' ∧
      s' = s.withSlot (c.leader m).toNat slot' := by
  have conclude {answer' : Except ServerError c.Reply} {slot' : LeaderSlot}
      (runs : s.Runs m (slot, .called) (slot', .answered answer'))
      (effect : slot.Effect (.ofPoint s.field s.domain) fresh c m answer' slot') :
      ∃ slot', slot.Effect (.ofPoint s.field s.domain) fresh c m answer slot' ∧
        s' = s.withSlot (c.leader m).toNat slot' := by
    rw [answer?_of_runs found runs stepSlot_answered] at h
    obtain ⟨rfl, rfl⟩ := Prod.mk.inj (Option.some.inj h)
    exact ⟨slot', effect, rfl⟩
  cases c with
  | newRequest =>
    obtain ⟨answer', slot', runs, effect⟩ | ⟨empty, point, runs⟩ :=
      effect_newRequest s slot m rested promised
    · exact conclude runs effect
    · have waits : s.stepSlot slot (c := .newRequest) m (.unused point) = none := by
        simp only [stepSlot, LeaderSlot.stepNewRequest, CheckerPool.takePermit?, empty,
          Option.map_none]
      rw [answer?_of_runs found runs waits] at h
      cases h
  | evalCircuit =>
    obtain ⟨answer', slot', runs, effect⟩ := effect_evalCircuit s slot m
    exact conclude runs effect
  | finalCircuit =>
    obtain ⟨answer', slot', runs, effect⟩ := effect_finalCircuit s slot m
    exact conclude runs effect
  | accept =>
    obtain ⟨answer', slot', runs, effect⟩ := effect_accept s slot m
    exact conclude runs effect
  | changePoint =>
    obtain ⟨answer', slot', runs, effect⟩ := effect_changePoint s slot m
    exact conclude runs effect
  | abort =>
    obtain ⟨answer', slot', runs, effect⟩ := effect_abort s slot m
    exact conclude runs effect

theorem answer?_of_out_of_range (missing : s.slots[(c.leader m).toNat]? = none) :
    s.answer? m =
      some (.error (.leaderOutOfRange (c.leader m).toNat s.slots.length), s) := by
  have refused : s.step (.start m) = some (s, ⟨m, .answered
      (.error (.leaderOutOfRange (c.leader m).toNat s.slots.length))⟩) := by
    simp only [step, Operation.start, Operation.leader, missing]
    rfl
  have ended : s.step (c := c) ⟨m, .answered
      (.error (.leaderOutOfRange (c.leader m).toNat s.slots.length))⟩ = none := by
    simp only [step, Operation.leader, missing]
  rw [answer?, run_of_step refused, run_of_step_eq_none ended]
  rfl

/-- The request that a leader has under an identifier. -/
def pending? (s : Server) (leader : Nat) (id : RequestId) : Option Pending :=
  s.slots[leader]?.bind (·.pending.find? id)

/-- What a call leaves as it is. -/
structure Frame (s s' : Server) (m : c.Message) : Prop where
  index_eq : s'.index = s.index
  field_eq : s'.field = s.field
  domain_eq : s'.domain = s.domain
  slots_eq : ∀ leader, leader ≠ (c.leader m).toNat → s'.slots[leader]? = s.slots[leader]?
  pending_eq : ∀ leader id, (leader = (c.leader m).toNat → c.id? m ≠ some id) →
    s'.pending? leader id = s.pending? leader id
  points_eq : c ≠ .changePoint →
    ∀ leader : Nat, (s'.slots[leader]?).map (·.points) = (s.slots[leader]?).map (·.points)

theorem frame_withSlot {pointAt : Nat → EvaluationPoint} {fresh : Checker}
    {answer : Except ServerError c.Reply} (found : s.slots[(c.leader m).toNat]? = some slot)
    (effect : slot.Effect pointAt fresh c m answer slot') :
    Frame s (s.withSlot (c.leader m).toNat slot') m where
  index_eq := rfl
  field_eq := rfl
  domain_eq := rfl
  slots_eq _ ne := List.getElem?_set_ne ne.symm
  pending_eq leader id other := by
    by_cases eq : leader = (c.leader m).toNat
    · subst eq
      rw [pending?, pending?, getElem?_withSlot_self found, found, Option.bind_some,
        Option.bind_some]
      exact effect.find?_ne (other rfl)
    · rw [pending?, pending?, withSlot, List.getElem?_set_ne (Ne.symm eq)]
  points_eq fixed leader := by
    by_cases eq : leader = (c.leader m).toNat
    · subst eq
      rw [getElem?_withSlot_self found, found, Option.map_some, Option.map_some,
        effect.points_eq fixed]
    · rw [withSlot, List.getElem?_set_ne (Ne.symm eq)]

theorem Frame.refl : Frame s s m :=
  ⟨rfl, rfl, rfl, fun _ _ => rfl, fun _ _ _ => rfl, fun _ _ => rfl⟩

/-- What a call did, by its answer. -/
structure Settles (fresh : Nat → Checker) (s : Server) (m : c.Message)
    (answer : Except ServerError c.Reply) (s' : Server) : Prop where
  effect : ∀ slot, s.slots[(c.leader m).toNat]? = some slot → ∃ slot',
    slot.Effect (.ofPoint s.field s.domain) (fresh (c.leader m).toNat) c m answer slot' ∧
      s' = s.withSlot (c.leader m).toNat slot'
  missing : s.slots[(c.leader m).toNat]? = none →
    answer = .error (.leaderOutOfRange (c.leader m).toNat s.slots.length) ∧ s' = s
  frame : Frame s s' m

/-- A step of an operation that is not about a request leaves it as it is. -/
theorem pending?_of_step {op op' : Operation c} (h : s.step op = some (s', op')) {leader : Nat}
    {id : RequestId} (apart : op.leader.toNat = leader → c.id? op.message ≠ some id) :
    s'.pending? leader id = s.pending? leader id := by
  obtain ⟨-, ⟨slot, slot', found, moved, rfl⟩ | ⟨rfl, -⟩⟩ := of_step h
  · by_cases eq : op.leader.toNat = leader
    · subst eq
      have kept : slot'.pending.find? id = slot.pending.find? id := by
        cases about : c.id? op.message with
        | some id' =>
          have ne : id ≠ id' := fun eq => apart rfl (eq ▸ about)
          exact (moves_stepSlot (by simp [about]) moved).find?_ne ne
        | none =>
          -- A step that is about no request is one about any other.
          have ne : id ≠ id + 1 := by simp
          exact (moves_stepSlot (by simp [about]) moved).find?_ne ne
      have there := List.getElem?_eq_some_iff.1 found
      rw [pending?, pending?, List.getElem?_set_self there.1, found, Option.bind_some,
        Option.bind_some, kept]
    · rw [pending?, pending?, List.getElem?_set_ne eq]
  · rfl

/-- A pending request is evaluated by its checker at its point. -/
theorem answer?_evalCircuit {m : EvalCircuit} {p : Pending}
    (present : s.pending? m.leader.toNat m.id = some p) : ∃ s', s.answer? (c := .evalCircuit) m =
      some (((p.checker.corShare p.point).map (·.1)).mapError .checker, s') := by
  obtain ⟨slot, found, present⟩ := Option.bind_eq_some_iff.1 present
  obtain ⟨answer, slot', runs, effect⟩ : ∃ answer slot',
      s.Runs (c := .evalCircuit) m (slot, .called) (slot', .answered answer) ∧
        slot.Effect (.ofPoint s.field s.domain) p.checker .evalCircuit m answer slot' :=
    effect_evalCircuit s slot m
  have told : answer = ((p.checker.corShare p.point).map (·.1)).mapError .checker := by
    cases effect with
    | evaluate there _ computed =>
      obtain rfl := Option.some.inj (there.symm.trans present)
      rw [computed]
      rfl
    | fail _ about there failed =>
      obtain rfl := Option.some.inj about
      obtain rfl := Option.some.inj (there.symm.trans present)
      rw [Call.compute] at failed
      rw [failed]
      rfl
    | unknown _ about absent =>
      obtain rfl := Option.some.inj about
      rw [absent] at present
      cases present
  rw [answer?_of_runs found runs stepSlot_answered, told]
  exact ⟨_, rfl⟩

end Server

namespace BusyServer

/-- What may happen next that is not about the given request. -/
inductive StepApart (leader : Nat) (id : RequestId) (w : BusyServer) : BusyServer → Prop
  | call {c : Call} (message : c.Message) :
      StepApart leader id w { w with operations := w.operations ++ [⟨c, .start message⟩] }
  | answer {i : Nat} {c : Call} {op op' : Operation c} {server : Server}
      (present : w.operations[i]? = some ⟨c, op⟩) (step : w.server.step op = some (server, op'))
      (apart : op.leader.toNat = leader → c.id? op.message ≠ some id) :
      StepApart leader id w ⟨server, w.operations.set i ⟨c, op'⟩⟩

abbrev ReachesApart (leader : Nat) (id : RequestId) : BusyServer → BusyServer → Prop :=
  Relation.ReflTransGen (StepApart leader id)

variable {w w' : BusyServer} {leader : Nat} {id : RequestId}

theorem StepApart.step (h : StepApart leader id w w') : Step w w' := by
  cases h with
  | call message => exact .call message
  | answer present step => exact .answer present step

theorem pending?_of_reachesApart (h : ReachesApart leader id w w') :
    w'.server.pending? leader id = w.server.pending? leader id := by
  induction h with
  | refl => rfl
  | tail _ step ih =>
    rw [← ih]
    cases step with
    | call => rfl
    | answer present step apart => exact Server.pending?_of_step step apart

theorem reachesApart_run {s : Server} {c : Call} {op : Operation c}
    {operations : List AnyOperation}
    (apart : op.leader.toNat = leader → c.id? op.message ≠ some id) :
    ReachesApart leader id ⟨s, operations ++ [⟨c, op⟩]⟩
      ⟨(s.run op).1, operations ++ [⟨c, (s.run op).2⟩]⟩ := by
  fun_induction Server.run s op with
  | case1 => exact .refl
  | case2 s op s' op' step ih =>
    have message := (Server.of_step step).1
    have leads : op'.leader = op.leader := congrArg c.leader message
    have first := StepApart.answer (w := ⟨s, operations ++ [⟨c, op⟩]⟩) (i := operations.length)
      (by simp) step apart
    rw [List.set_append_right _ _ (Nat.le_refl _), Nat.sub_self] at first
    exact .head first (ih (by rwa [leads, message]))

/-- A call that is answered alone takes the server on like any other. -/
theorem reachesApart_answer? {c : Call} {m : c.Message} {answer : Except ServerError c.Reply}
    {s' : Server} (h : w.server.answer? m = some (answer, s'))
    (apart : (c.leader m).toNat = leader → c.id? m ≠ some id) :
    ReachesApart leader id w ⟨s', w.operations ++ [⟨c, ⟨m, .answered answer⟩⟩]⟩ := by
  obtain ⟨a, answered, h⟩ := Option.map_eq_some_iff.1 h
  obtain ⟨rfl, rfl⟩ := Prod.mk.inj h
  have ended : (w.server.run (.start m)).2 = ⟨m, .answered a⟩ :=
    congrArg₂ Operation.mk (Server.message_run _) (Stage.eq_answered answered)
  have run : ReachesApart leader id ⟨w.server, w.operations ++ [⟨c, .start m⟩]⟩ _ :=
    reachesApart_run apart
  rw [ended] at run
  exact .head (.call m) run

theorem reaches_answer? {c : Call} {m : c.Message} {answer : Except ServerError c.Reply}
    {s' : Server} (h : w.server.answer? m = some (answer, s')) :
    Reaches w ⟨s', w.operations ++ [⟨c, ⟨m, .answered answer⟩⟩]⟩ := by
  have other : (c.leader m).toNat = (c.leader m).toNat + 1 → c.id? m ≠ some 0 := by omega
  exact Relation.ReflTransGen.mono (fun _ _ => StepApart.step) _ _ (reachesApart_answer? h other)

variable {F : Field} {circuit : Circuit} {index n capacity : Nat}

theorem Stocked.settles (stocked : w.Stocked F circuit index n capacity) {c : Call} {m : c.Message}
    {answer : Except ServerError c.Reply} {s : Server}
    (h : w.server.answer? m = some (answer, s)) :
    w.server.Settles (fun leader => .new F circuit index leader n) m answer s := by
  cases found : w.server.slots[(c.leader m).toNat]? with
  | some slot =>
    obtain ⟨slot', effect, rfl⟩ := Server.effect_of_answer?
      (.new F circuit index (c.leader m).toNat n) found rfl (fun _ => stocked.acquire? found) h
    refine ⟨fun slot₁ found₁ => ?_, fun missing => ?_, Server.frame_withSlot found effect⟩
    · obtain rfl := Option.some.inj (found.symm.trans found₁)
      exact ⟨slot', effect, rfl⟩
    · rw [missing] at found
      cases found
  | none =>
    rw [Server.answer?_of_out_of_range found] at h
    obtain ⟨rfl, rfl⟩ := Prod.mk.inj (Option.some.inj h)
    refine ⟨fun slot found' => ?_, fun _ => ⟨rfl, rfl⟩, .refl⟩
    rw [found] at found'
    cases found'

/-- What a call does to a server in any state, when it is answered before another operation takes a
step: it carries out one of the effects on its own request, and all else is as it was. A request
that is taken in is evaluated at the point that its epoch has then, whatever is asked of the server
about other requests, and however often the points are rotated, before it is. -/
theorem effects_of_reaches {s : Server}
    (started : Server.start F circuit n capacity index = .ok s) (run : Reaches ⟨s, []⟩ w) :
    (∀ (c : Call) (m : c.Message) answer s', w.server.answer? m = some (answer, s') →
      w.server.Settles (fun leader => .new F circuit index leader n) m answer s' ∧
        Reaches w ⟨s', w.operations ++ [⟨c, ⟨m, .answered answer⟩⟩]⟩) ∧
    ∀ (m : NewRequest) s', w.server.answer? (c := .newRequest) m = some (.ok (), s') →
      ∃ slot point k, w.server.slots[m.leader.toNat]? = some slot ∧
        slot.points.get? m.epoch = some point ∧
        (Checker.new F circuit index m.leader.toNat n).setRequest m.request = .ok k ∧
        ∀ w', ReachesApart m.leader.toNat m.id
            ⟨s', w.operations ++ [⟨.newRequest, ⟨m, .answered (.ok ())⟩⟩]⟩ w' →
          ∃ s'', w'.server.answer? (c := .evalCircuit) ⟨m.id, m.leader⟩ =
            some (((k.corShare point).map (·.1)).mapError .checker, s'') := by
  have free : Open ⟨s, []⟩ := fun op mem => absurd mem List.not_mem_nil
  have stocked := ((stocked_start started).of_reaches free run).1
  constructor
  · intro c m answer s' answered
    exact ⟨stocked.settles answered, reaches_answer? answered⟩
  · intro m s' admitted
    have settles := stocked.settles (c := .newRequest) admitted
    cases found : w.server.slots[m.leader.toNat]? with
    | none =>
      have refused := (settles.missing found).1
      cases refused
    | some slot =>
    obtain ⟨slot', effect, rfl⟩ := settles.effect slot found
    cases effect with
    | @takeIn _ point k pool known absent lent taken =>
    refine ⟨slot, point, k, rfl, known, taken, fun w' apart => ?_⟩
    have kept := (pending?_of_reachesApart apart).trans <|
      (congrArg (·.bind (·.pending.find? m.id)) (Server.getElem?_withSlot_self found)).trans
        PendingRequests.find?_insert_self
    exact Server.answer?_evalCircuit (m := ⟨m.id, m.leader⟩) kept

/-- A request of epoch 7, evaluated when the points have twice been rotated. -/
theorem effects_bit : ∃ (s : Server) (w w' : BusyServer) (domain : CircuitDomain) (k : Checker)
    (s' : Server), Server.start .seventeen Checker.bit 3 2 0 = .ok s ∧ Reaches ⟨s, []⟩ w ∧
      Reaches w w' ∧ w'.server.slots[1]?.bind (·.points.currentEpoch?) = some 9 ∧
      k.state = .hasRequest ∧ w'.server.answer? (c := .evalCircuit) ⟨4, 1⟩ =
        some (((k.corShare (.ofPoint .seventeen domain 5)).map (·.1)).mapError .checker, s') := by
  obtain ⟨domain, -, domainOk, -⟩ :=
    CircuitDomain.ofCircuit_eq_ok (F := .seventeen) (c := Checker.bit) (by decide)
  let fresh (leader : Nat) : LeaderSlot := .fresh .seventeen Checker.bit 0 leader 3 2
  let server (slot : LeaderSlot) : Server :=
    { index := 0, field := .seventeen, domain, slots := [fresh 0, slot, fresh 2] }
  have started : Server.start .seventeen Checker.bit 3 2 0 = .ok (server (fresh 1)) := by
    rw [Server.start, domainOk]
    rfl
  let new : NewRequest :=
    { id := 4, leader := 1, epoch := 7, request := ⟨⟨⟨.replicate 32 0⟩, []⟩, ⟨1, 2, 3⟩⟩ }
  let point (x : Nat) : EvaluationPoint := .ofPoint .seventeen domain x
  let k : Checker :=
    (new.request.party .seventeen Checker.bit 1 0).checker .seventeen Checker.bit 1 3
  have taken : (Checker.new .seventeen Checker.bit 0 1 3).setRequest new.request = .ok k :=
    ClientRequest.setRequest_eq_ok_iff.2
      ⟨⟨by decide, by decide, fun _ => rfl, fun _ mem => absurd mem List.not_mem_nil⟩, rfl⟩
  -- The point of the request's epoch is announced, and two more when the request is there.
  have announce (slot slot' : LeaderSlot) (m : ChangePoint)
      (runs : Server.Runs (c := .changePoint) (server slot) m (slot, .called)
        (slot', .answered (.ok ()))) (about : m.leader = 1) :
      (server slot).answer? (c := .changePoint) m = some (.ok (), server slot') := by
    obtain ⟨leader, epoch, x⟩ := m
    obtain rfl : leader = 1 := about
    exact Server.answer?_of_runs rfl runs rfl
  let known : LeaderSlot := { fresh 1 with points := ⟨some (7, point 5), none⟩ }
  have announced := announce (fresh 1) known ⟨1, 7, 5⟩ (.head rfl (.single rfl)) rfl
  let lent : LeaderSlot := { known with pool := ⟨1, [.new .seventeen Checker.bit 0 1 3], 1⟩ }
  let holding : LeaderSlot := { lent with pending := [(4, ⟨k, point 5⟩)] }
  have loading : Server.Runs (c := .newRequest) (server known) new (known, .called)
      (lent, .loading (point 5) (.new .seventeen Checker.bit 0 1 3)) :=
    .head rfl (.head rfl (.head rfl (.single rfl)))
  have loaded : (server known).stepSlot lent (c := .newRequest) new
      (.loading (point 5) (.new .seventeen Checker.bit 0 1 3)) =
        some (lent, .loaded (point 5) k) := by
    simp only [Server.stepSlot, LeaderSlot.stepNewRequest, taken]
  have admitting : Server.Runs (c := .newRequest) (server known) new (known, .called)
      (holding, .answered (.ok ())) := (loading.tail loaded).tail rfl
  have admitted : (server known).answer? (c := .newRequest) new = some (.ok (), server holding) :=
    Server.answer?_of_runs rfl admitting rfl
  let next : LeaderSlot := { holding with points := ⟨some (8, point 6), some (7, point 5)⟩ }
  let last : LeaderSlot := { holding with points := ⟨some (9, point 3), some (8, point 6)⟩ }
  have rotated := announce holding next ⟨1, 8, 6⟩ (.head rfl (.single rfl)) rfl
  have rotated' := announce next last ⟨1, 9, 3⟩ (.head rfl (.single rfl)) rfl
  let before : List AnyOperation := [⟨.changePoint, ⟨⟨1, 7, 5⟩, .answered (.ok ())⟩⟩]
  let during : List AnyOperation := before ++ [⟨.newRequest, ⟨new, .answered (.ok ())⟩⟩]
  have run : Reaches ⟨server (fresh 1), []⟩ ⟨server known, before⟩ := reaches_answer? announced
  have admission : Reaches ⟨server known, before⟩ ⟨server holding, during⟩ :=
    reaches_answer? admitted
  obtain ⟨-, evaluates⟩ := effects_of_reaches started run
  obtain ⟨slot, point', k', found, current, loaded', evaluated⟩ := evaluates new _ admitted
  obtain rfl : known = slot := Option.some.inj found
  obtain rfl : point 5 = point' := Option.some.inj current
  obtain rfl : k = k' := Except.ok.inj (taken.symm.trans loaded')
  have other (epoch : UInt64) (x : Nat) : Call.id? .changePoint ⟨1, epoch, x⟩ ≠ some 4 :=
    (Option.some_ne_none _).symm
  have apart : ReachesApart 1 4 ⟨server holding, during⟩ ⟨server last, _⟩ :=
    (reachesApart_answer? (w := ⟨server holding, during⟩) rotated fun _ => other _ _).trans
      (reachesApart_answer? (w := ⟨server next, _⟩) rotated' fun _ => other _ _)
  obtain ⟨s', answered⟩ := evaluated _ apart
  have onward := Relation.ReflTransGen.mono (fun _ _ => StepApart.step) _ _ apart
  exact ⟨_, _, _, domain, k, s', started, run, admission.trans onward, rfl, rfl, answered⟩

end BusyServer

end PrivateSums
