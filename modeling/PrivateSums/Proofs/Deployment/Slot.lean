import Mathlib.Algebra.BigOperators.Group.List.Basic
import Mathlib.Algebra.Group.Prod
import Mathlib.Algebra.Order.Group.Multiset
import Mathlib.Data.List.Nodup
import Mathlib.Tactic.Abel
import PrivateSums.Deployment.Operation.Basic
import PrivateSums.Proofs.Answer

/-!
What one step of an operation can do to the slot of its leader. Whoever borrows from the pool holds
it or leaves it with a pending request, so that nothing is lost; and a request is touched under its
own identifier only.
-/

namespace PrivateSums

namespace PendingRequests

variable {requests : PendingRequests} {id id' : RequestId} {p : Pending}

theorem find?_erase_self : (requests.erase id).find? id = none := by
  rw [find?, List.lookup_eq_none_iff]
  intro entry mem
  simpa [bne, Bool.beq_comm] using (List.mem_filter.1 mem).2

theorem find?_erase_ne (h : id' ≠ id) : (requests.erase id).find? id' = requests.find? id' := by
  rw [find?, find?, erase]
  induction requests with
  | nil => rfl
  | cons entry requests ih =>
    obtain eq | ne := eq_or_ne entry.1 id
    · rw [List.filter_cons_of_neg (by simp [eq]), List.lookup_cons, ih, eq,
        beq_false_of_ne h]
    · rw [List.filter_cons_of_pos (by simpa using ne), List.lookup_cons, List.lookup_cons, ih]

theorem erase_of_find?_eq_none (h : requests.find? id = none) : requests.erase id = requests := by
  rw [find?, List.lookup_eq_none_iff] at h
  refine List.filter_eq_self.2 fun entry mem => ?_
  rw [bne, Bool.beq_comm]
  exact h entry mem

theorem find?_insert_self : (requests.insert id p).find? id = some p := by
  simp [find?, insert]

theorem find?_insert_ne (h : id' ≠ id) : (requests.insert id p).find? id' = requests.find? id' := by
  rw [← @find?_erase_ne requests _ _ h, find?, insert, List.lookup_cons, beq_false_of_ne h]
  rfl

theorem exists_find? {entry : RequestId × Pending} (h : entry ∈ requests) :
    ∃ q, requests.find? entry.1 = some q := by
  rw [← Option.ne_none_iff_exists']
  intro none
  rw [find?, List.lookup_eq_none_iff] at none
  simpa using none entry h

/-- Whether no identifier occurs twice. -/
def Distinct (requests : PendingRequests) : Prop := (requests.map (·.1)).Nodup

theorem Distinct.erase (h : requests.Distinct) (id : RequestId) : (requests.erase id).Distinct :=
  h.sublist (List.filter_sublist.map _)

theorem Distinct.insert (h : requests.Distinct) (id : RequestId) (p : Pending) :
    (requests.insert id p).Distinct := by
  refine List.nodup_cons.2 ⟨fun mem => ?_, h.erase id⟩
  obtain ⟨entry, mem, eq⟩ := List.mem_map.1 mem
  have := (List.mem_filter.1 mem).2
  simp [eq] at this

/-- A request that is found is one of them, beside those that are left without it. -/
theorem Distinct.perm_erase (h : requests.Distinct) (found : requests.find? id = some p) :
    requests.Perm ((id, p) :: requests.erase id) := by
  induction requests with
  | nil => cases found
  | cons entry requests ih =>
    obtain ⟨fresh, rest⟩ := List.nodup_cons.1 (h : (entry.1 :: requests.map (·.1)).Nodup)
    obtain rfl | ne := eq_or_ne entry.1 id
    · obtain rfl : entry.2 = p := by
        rw [find?, List.lookup_cons, BEq.rfl] at found
        exact Option.some.inj found
      have absent : find? requests entry.1 = none := by
        rw [find?, List.lookup_eq_none_iff]
        intro other mem
        have ne : entry.1 ≠ other.1 := fun eq => fresh (List.mem_map.2 ⟨other, mem, eq.symm⟩)
        simpa using ne
      have rest := erase_of_find?_eq_none absent
      rw [PendingRequests.erase] at rest ⊢
      rw [List.filter_cons_of_neg (by simp), rest]
    · have later : find? requests id = some p := by
        rwa [find?, List.lookup_cons, beq_false_of_ne ne.symm] at found
      have step := (ih rest later).cons entry
      rw [PendingRequests.erase] at step ⊢
      rw [List.filter_cons_of_pos (by simpa using ne)]
      exact step.trans (List.Perm.swap ..)

end PendingRequests

namespace CheckerPool

variable {p p' : CheckerPool} {k : Checker}

theorem of_takePermit? (h : p.takePermit? = some p') :
    p.permits = p'.permits + 1 ∧ p'.idle = p.idle := by
  unfold takePermit? at h
  split at h
  · cases h
  · cases h
    exact ⟨‹_›, rfl⟩

theorem of_takeChecker (h : p.takeChecker = .ok (k, p')) :
    p.idle = k :: p'.idle ∧ p'.permits = p.permits := by
  unfold takeChecker at h
  split at h
  · cases h
  · cases h
    exact ⟨‹_›, rfl⟩

end CheckerPool

namespace Checker

variable {k k' : Checker}

/-- A request is taken in by a checker that has none, which holds its shares from then on. -/
theorem of_setRequest {request : ClientRequest} (h : k.setRequest request = .ok k') :
    k.phase = .idle ∧ ∃ holding, k' = { k with phase := .holding holding } := by
  unfold setRequest at h
  split at h
  · rename_i idle
    dsimp only at h
    split at h <;> [split at h; cases h]
    · cases h
    · obtain ⟨replay, -, h⟩ := Answer.bind_eq_ok.1 h
      obtain ⟨holding, -, h⟩ := Answer.bind_eq_ok.1 h
      exact ⟨idle, holding, (Except.ok.inj h).symm⟩
  · cases h

/-- The first round is of a checker that holds shares, which keeps their evaluations. -/
theorem of_corShare {point : EvaluationPoint} {share : CorShare}
    (h : k.corShare point = .ok (share, k')) : ∃ holding evaluations,
      k.phase = .holding holding ∧ k' = { k with phase := .evaluated holding evaluations } := by
  unfold corShare at h
  split at h
  · rename_i holding held
    dsimp only at h
    split at h
    · obtain ⟨evaluations, -, h⟩ := Answer.bind_eq_ok.1 h
      obtain ⟨-, rfl⟩ := Prod.mk.inj (Except.ok.inj h)
      exact ⟨holding, evaluations, held, rfl⟩
    · cases h
  · cases h

/-- The second round is of a checker that keeps evaluations, and leaves it these. -/
theorem of_finalShare {shares : List CorShare} {key : Key} {share : OutShare}
    (h : k.finalShare shares key = .ok (share, k')) : ∃ holding evaluations,
      k.phase = .evaluated holding evaluations ∧
        k' = { k with phase := .finished holding evaluations } := by
  obtain ⟨cor, -, h⟩ := Answer.bind_eq_ok.1 h
  unfold outShare outShareWith at h
  split at h
  · rename_i holding evaluations kept
    obtain ⟨check, -, h⟩ := Answer.bind_eq_ok.1 h
    obtain ⟨-, rfl⟩ := Prod.mk.inj (Except.ok.inj h)
    exact ⟨holding, evaluations, kept, rfl⟩
  · cases h

theorem reset_setRequest {request : ClientRequest} (h : k.setRequest request = .ok k') :
    k'.reset = k.reset := by
  obtain ⟨-, holding, rfl⟩ := of_setRequest h
  rfl

theorem reset_corShare {point : EvaluationPoint} {share : CorShare}
    (h : k.corShare point = .ok (share, k')) : k'.reset = k.reset := by
  obtain ⟨holding, evaluations, -, rfl⟩ := of_corShare h
  rfl

theorem reset_finalShare {shares : List CorShare} {key : Key} {share : OutShare}
    (h : k.finalShare shares key = .ok (share, k')) : k'.reset = k.reset := by
  obtain ⟨holding, evaluations, -, rfl⟩ := of_finalShare h
  rfl

end Checker

/-- Permits, and checkers as they are once reset. -/
abbrev Assets := Nat × Multiset Checker

namespace Assets

def permit : Assets := (1, 0)

def checker (k : Checker) : Assets := (0, {k.reset})

end Assets

/-- What a pending request keeps from the pool. -/
def Pending.assets (p : Pending) : Assets := .permit + .checker p.checker

/-- What an operation keeps from the pool. -/
def Stage.assets {c : Call} : Stage c → Assets
  | .called | .bound _ | .unused _ | .computed _ | .answered _ => 0
  | .permitted _ | .leaving _ => .permit
  | .loading _ k | .loaded _ k | .releasing k _ => .permit + .checker k
  | .evaluating p | .evaluated p _ | .finalising p | .finalised p _ | .deciding p => p.assets

namespace LeaderSlot

/-- What the slot has of its pool. -/
def assets (s : LeaderSlot) : Assets :=
  s.pool.permits • Assets.permit + (s.pool.idle.map Assets.checker).sum +
    (s.pending.map (·.2.assets)).sum

/-- No identifier is pending twice, and no checker at rest has a request. -/
structure Tidy (s : LeaderSlot) : Prop where
  distinct : s.pending.Distinct
  rested : ∀ k ∈ s.pool.idle, k.reset = k

/-- The steps of an operation on a request, by what they do to the pool, to the pending requests and
to the evaluation points. -/
inductive Moves (id : RequestId) : {c : Call} → LeaderSlot → Stage c → LeaderSlot → Stage c → Prop
  | stay {c : Call} {s : LeaderSlot} {stage stage' : Stage c}
      (assets : stage'.assets = stage.assets) : Moves id s stage s stage'
  | takePermit {c : Call} {s : LeaderSlot} {stage stage' : Stage c} {pool : CheckerPool}
      (taken : s.pool.takePermit? = some pool)
      (assets : stage'.assets = stage.assets + .permit) :
      Moves id s stage { s with pool } stage'
  | takeChecker {c : Call} {s : LeaderSlot} {stage stage' : Stage c} {k : Checker}
      {pool : CheckerPool} (taken : s.pool.takeChecker = .ok (k, pool))
      (assets : stage'.assets = stage.assets + .checker k) :
      Moves id s stage { s with pool } stage'
  | insert {c : Call} {s : LeaderSlot} {stage stage' : Stage c} {p : Pending}
      (absent : s.pending.find? id = none) (assets : stage.assets = stage'.assets + p.assets) :
      Moves id s stage { s with pending := s.pending.insert id p } stage'
  | displace {c : Call} {s : LeaderSlot} {stage stage' : Stage c} {p q : Pending}
      (present : s.pending.find? id = some q)
      (assets : stage.assets + q.assets = stage'.assets + p.assets) :
      Moves id s stage { s with pending := s.pending.insert id p } stage'
  | takeOut {c : Call} {s : LeaderSlot} {stage stage' : Stage c} {p : Pending}
      (present : s.pending.find? id = some p)
      (assets : stage'.assets = stage.assets + p.assets) :
      Moves id s stage { s with pending := s.pending.erase id } stage'
  | giveChecker {c : Call} {s : LeaderSlot} {stage stage' : Stage c} {k : Checker}
      (assets : stage.assets = stage'.assets + .checker k) :
      Moves id s stage { s with pool := s.pool.giveChecker k } stage'
  | givePermit {c : Call} {s : LeaderSlot} {stage stage' : Stage c}
      (assets : stage.assets = stage'.assets + .permit) :
      Moves id s stage { s with pool := s.pool.givePermit } stage'
  | rotate {s : LeaderSlot} {point : EvaluationPoint} {points : EvaluationPoints}
      {answer : Except ServerError Unit} :
      Moves id s (.computed point) { s with points } (.answered answer)

section Inversion

variable {s s' : LeaderSlot} {c : Call} {id : RequestId}

theorem moves_finish {stage stage' : Stage c} (h : s.finish stage = some (s', stage')) :
    Moves id s stage s' stage' := by
  cases stage <;> simp only [finish, Option.some.injEq, Prod.mk.injEq, reduceCtorEq] at h
  case releasing =>
    obtain ⟨rfl, rfl⟩ := h
    exact .giveChecker rfl
  case leaving =>
    obtain ⟨rfl, rfl⟩ := h
    exact .givePermit (zero_add _).symm

theorem moves_takeOut {next : Pending → Stage c} (assets : ∀ p, (next p).assets = p.assets) :
    Moves id s .called (s.takeOut id next).1 (s.takeOut id next).2 := by
  unfold takeOut
  split
  · exact .stay rfl
  · rename_i p present
    exact .takeOut present (by rw [assets, Stage.assets, zero_add])

theorem moves_putBack {stage : Stage c} {p : Pending} (assets : stage.assets = p.assets)
    (reply : c.Reply) :
    Moves id s stage (s.putBack id p reply).1 (s.putBack id p reply).2 := by
  unfold putBack
  dsimp only
  split
  · rename_i absent
    exact .insert absent (by rw [assets, Stage.assets, zero_add])
  · rename_i q present
    exact .displace present (by rw [assets, add_comm, Stage.assets, Pending.assets])

theorem moves_stepNewRequest {m : NewRequest} {stage stage' : Stage .newRequest}
    (h : s.stepNewRequest m stage = some (s', stage')) : Moves m.id s stage s' stage' := by
  cases stage <;> simp only [stepNewRequest] at h
  case releasing | leaving | answered => exact moves_finish h
  case unused =>
    obtain ⟨pool, taken, h⟩ := Option.map_eq_some_iff.1 h
    obtain ⟨rfl, rfl⟩ := Prod.mk.inj h
    exact .takePermit taken (zero_add _).symm
  case permitted =>
    split at h <;> obtain ⟨rfl, rfl⟩ := Prod.mk.inj (Option.some.inj h)
    · exact .stay rfl
    · exact .takeChecker ‹_› rfl
  case loading =>
    split at h <;> obtain ⟨rfl, rfl⟩ := Prod.mk.inj (Option.some.inj h)
    · exact .stay rfl
    · rename_i k' loaded
      exact .stay (by rw [Stage.assets, Stage.assets, Assets.checker, Assets.checker,
        Checker.reset_setRequest loaded])
  case loaded =>
    split at h <;> obtain ⟨rfl, rfl⟩ := Prod.mk.inj (Option.some.inj h)
    · exact .stay rfl
    · exact .insert ‹_› (zero_add _).symm
  all_goals
    split at h <;> obtain ⟨rfl, rfl⟩ := Prod.mk.inj (Option.some.inj h) <;> exact .stay rfl

theorem moves_stepEvalCircuit {m : EvalCircuit} {stage stage' : Stage .evalCircuit}
    (h : s.stepEvalCircuit m stage = some (s', stage')) : Moves m.id s stage s' stage' := by
  cases stage <;> simp only [stepEvalCircuit] at h
  case releasing | leaving | answered => exact moves_finish h
  case called =>
    obtain ⟨rfl, rfl⟩ := Prod.mk.inj (Option.some.inj h)
    exact moves_takeOut fun _ => rfl
  case evaluating =>
    split at h <;> obtain ⟨rfl, rfl⟩ := Prod.mk.inj (Option.some.inj h)
    · exact .stay rfl
    · rename_i share k' evaluated
      exact .stay (by rw [Stage.assets, Stage.assets, Pending.assets, Pending.assets,
        Assets.checker, Assets.checker, Checker.reset_corShare evaluated])
  case evaluated p share =>
    obtain ⟨rfl, rfl⟩ := Prod.mk.inj (Option.some.inj h)
    exact moves_putBack rfl _

theorem moves_stepFinalCircuit {m : FinalCircuit} {stage stage' : Stage .finalCircuit}
    (h : s.stepFinalCircuit m stage = some (s', stage')) : Moves m.id s stage s' stage' := by
  cases stage <;> simp only [stepFinalCircuit] at h
  case releasing | leaving | answered => exact moves_finish h
  case called =>
    obtain ⟨rfl, rfl⟩ := Prod.mk.inj (Option.some.inj h)
    exact moves_takeOut fun _ => rfl
  case finalising =>
    split at h <;> obtain ⟨rfl, rfl⟩ := Prod.mk.inj (Option.some.inj h)
    · exact .stay rfl
    · rename_i share k' finalised
      exact .stay (by rw [Stage.assets, Stage.assets, Pending.assets, Pending.assets,
        Assets.checker, Assets.checker, Checker.reset_finalShare finalised])
  case finalised p share =>
    obtain ⟨rfl, rfl⟩ := Prod.mk.inj (Option.some.inj h)
    exact moves_putBack rfl _

theorem moves_stepAccept {m : Accept} {stage stage' : Stage .accept}
    (h : s.stepAccept m stage = some (s', stage')) : Moves m.id s stage s' stage' := by
  cases stage <;> simp only [stepAccept] at h
  case releasing | leaving | answered => exact moves_finish h
  case called =>
    obtain ⟨rfl, rfl⟩ := Prod.mk.inj (Option.some.inj h)
    exact moves_takeOut fun _ => rfl
  case deciding =>
    obtain ⟨rfl, rfl⟩ := Prod.mk.inj (Option.some.inj h)
    exact .stay rfl

theorem moves_stepChangePoint {pointAt : Nat → EvaluationPoint} {m : ChangePoint}
    {stage stage' : Stage .changePoint}
    (h : s.stepChangePoint pointAt m stage = some (s', stage')) : Moves id s stage s' stage' := by
  cases stage <;> simp only [stepChangePoint] at h
  case releasing | leaving | answered => exact moves_finish h
  case called =>
    obtain ⟨rfl, rfl⟩ := Prod.mk.inj (Option.some.inj h)
    exact .stay rfl
  case computed =>
    split at h <;> obtain ⟨rfl, rfl⟩ := Prod.mk.inj (Option.some.inj h) <;> exact .rotate

theorem moves_stepAbort {m : Abort} {stage stage' : Stage .abort}
    (h : s.stepAbort m stage = some (s', stage')) : Moves m.id s stage s' stage' := by
  cases stage <;> simp only [stepAbort] at h
  case releasing | leaving | answered => exact moves_finish h
  case called =>
    split at h <;> obtain ⟨rfl, rfl⟩ := Prod.mk.inj (Option.some.inj h)
    · exact .stay rfl
    · exact .takeOut ‹_› (zero_add _).symm

end Inversion

end LeaderSlot

theorem Server.moves_stepSlot {s : Server} {slot slot' : LeaderSlot} {c : Call} {m : c.Message}
    {id : RequestId} {stage stage' : Stage c} (about : ∀ i ∈ c.id? m, i = id)
    (h : s.stepSlot slot m stage = some (slot', stage')) :
    slot.Moves id stage slot' stage' := by
  cases c with
  | newRequest => exact about _ rfl ▸ LeaderSlot.moves_stepNewRequest h
  | evalCircuit => exact about _ rfl ▸ LeaderSlot.moves_stepEvalCircuit h
  | finalCircuit => exact about _ rfl ▸ LeaderSlot.moves_stepFinalCircuit h
  | accept => exact about _ rfl ▸ LeaderSlot.moves_stepAccept h
  | changePoint => exact LeaderSlot.moves_stepChangePoint h
  | abort => exact about _ rfl ▸ LeaderSlot.moves_stepAbort h

namespace LeaderSlot

section Moves

variable {s s' : LeaderSlot} {c : Call} {id id' : RequestId} {stage stage' : Stage c}

/-- What an operation takes from a slot it keeps, and what it no longer keeps the slot has again. -/
theorem Moves.assets_eq (h : s.Moves id stage s' stage') (tidy : s.Tidy) :
    s'.assets + stage'.assets = s.assets + stage.assets := by
  cases h with
  | stay eq => rw [eq]
  | takePermit taken eq =>
    obtain ⟨permits, idle⟩ := CheckerPool.of_takePermit? taken
    simp only [assets, eq, permits, idle, succ_nsmul]
    abel
  | takeChecker taken eq =>
    obtain ⟨idle, permits⟩ := CheckerPool.of_takeChecker taken
    simp only [assets, eq, permits, idle, List.map_cons, List.sum_cons]
    abel
  | @insert _ _ _ _ p absent eq =>
    simp only [assets, eq, PendingRequests.insert, List.map_cons, List.sum_cons,
      PendingRequests.erase_of_find?_eq_none absent]
    abel
  | @displace _ _ _ _ p q present eq =>
    have perm := ((tidy.distinct.perm_erase present).map (·.2.assets)).sum_eq
    simp only [assets, perm, PendingRequests.insert, List.map_cons, List.sum_cons]
    set rest := ((s.pending.erase id).map (·.2.assets)).sum
    set pool := s.pool.permits • Assets.permit + (s.pool.idle.map Assets.checker).sum
    calc pool + (p.assets + rest) + stage'.assets
      _ = pool + rest + (stage'.assets + p.assets) := by abel
      _ = pool + rest + (stage.assets + q.assets) := by rw [eq]
      _ = pool + (q.assets + rest) + stage.assets := by abel
  | @takeOut _ _ _ _ p present eq =>
    have perm := ((tidy.distinct.perm_erase present).map (·.2.assets)).sum_eq
    simp only [assets, eq, perm, List.map_cons, List.sum_cons]
    abel
  | @giveChecker _ _ _ _ k eq =>
    have reset : Assets.checker k.reset = .checker k := rfl
    simp only [assets, eq, CheckerPool.giveChecker, List.map_cons, List.sum_cons, reset]
    abel
  | givePermit eq =>
    simp only [assets, eq, CheckerPool.givePermit, succ_nsmul]
    abel
  | rotate => rfl

theorem Moves.tidy (h : s.Moves id stage s' stage') (tidy : s.Tidy) : s'.Tidy := by
  obtain ⟨distinct, rested⟩ := tidy
  cases h with
  | stay | rotate | givePermit => exact ⟨distinct, rested⟩
  | takePermit taken =>
    refine ⟨distinct, fun k mem => rested k ?_⟩
    rwa [← (CheckerPool.of_takePermit? taken).2]
  | takeChecker taken =>
    refine ⟨distinct, fun k mem => rested k ?_⟩
    rw [(CheckerPool.of_takeChecker taken).1]
    exact List.mem_cons_of_mem _ mem
  | insert | displace => exact ⟨distinct.insert .., rested⟩
  | takeOut => exact ⟨distinct.erase _, rested⟩
  | giveChecker =>
    refine ⟨distinct, fun k mem => ?_⟩
    obtain rfl | mem := List.mem_cons.1 mem
    · rfl
    · exact rested k mem

/-- An operation does not touch other requests. -/
theorem Moves.find?_ne (h : s.Moves id stage s' stage') (ne : id' ≠ id) :
    s'.pending.find? id' = s.pending.find? id' := by
  cases h with
  | stay | takePermit | takeChecker | giveChecker | givePermit | rotate => rfl
  | insert | displace => exact PendingRequests.find?_insert_ne ne
  | takeOut => exact PendingRequests.find?_erase_ne ne

end Moves

end LeaderSlot

/-- Whether the next step takes a permit. -/
def Stage.waits {c : Call} : Stage c → Bool
  | .unused _ => true
  | _ => false

/-- A step on the slot of its leader is a step of the operation. -/
theorem Server.step_of_stepSlot {s : Server} {c : Call} {op : Operation c}
    {slot slot' : LeaderSlot} {stage' : Stage c}
    (found : s.slots[op.leader.toNat]? = some slot)
    (moved : s.stepSlot slot op.message op.stage = some (slot', stage')) :
    s.step op = some ({ s with slots := s.slots.set op.leader.toNat slot' },
      { op with stage := stage' }) := by
  rw [step, found]
  simp only [moved]
  rfl

/-- An operation that has not answered waits for a permit only. -/
theorem Server.of_stepSlot_eq_none {s : Server} {slot : LeaderSlot} {c : Call} {m : c.Message}
    {stage : Stage c} (h : s.stepSlot slot m stage = none) :
    (∃ answer, stage = .answered answer) ∨ stage.waits ∧ slot.pool.permits = 0 := by
  cases c <;> cases stage <;> simp only [stepSlot, LeaderSlot.stepNewRequest,
    LeaderSlot.stepEvalCircuit, LeaderSlot.stepFinalCircuit, LeaderSlot.stepAccept,
    LeaderSlot.stepChangePoint, LeaderSlot.stepAbort, LeaderSlot.finish, Option.map_eq_none_iff,
    reduceCtorEq] at h
  case newRequest.unused =>
    unfold CheckerPool.takePermit? at h
    split at h
    · exact .inr ⟨rfl, ‹_›⟩
    · cases h
  all_goals exact .inl ⟨_, rfl⟩

end PrivateSums
