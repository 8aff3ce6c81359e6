import Mathlib.Logic.Equiv.Basic
import PrivateSums.Proofs.Check.Completeness
import PrivateSums.Proofs.Deployment.Loans

/-!
Where the checkers of a leader are. A step of an operation works on the checker that it holds, or
exchanges what it holds with what is at one other place; followed along a run, every checker is at
one place at any time, and no place has one that was not there at first.
-/

namespace PrivateSums

/-- A place for a checker of one leader. -/
inductive Place
  /-- At rest, counted from the one that is lent last. -/
  | idle (depth : Nat)
  | pending (id : RequestId)
  | held (operation : Nat)
  deriving DecidableEq

/-- What a step does to the checkers, when it belongs to the place `own`. -/
inductive Exchange (before after : Place → Option Checker) (own : Place) : Place → Prop
  | work (same : (after own).map Checker.reset = (before own).map Checker.reset)
      (rest : ∀ place, place ≠ own → after place = before place) : Exchange before after own own
  /-- A checker that goes to rest is reset; any other is handed over as it is. -/
  | swap {other : Place} (ne : other ≠ own) (comes : after own = before other)
      (goes : after other = before own ∨
        (∃ depth, other = .idle depth) ∧ after other = (before own).map Checker.reset)
      (rest : ∀ place, place ≠ own → place ≠ other → after place = before place) :
      Exchange before after own other

theorem Exchange.map_reset {before after : Place → Option Checker} {own other : Place}
    (h : Exchange before after own other) (place : Place) :
    (after place).map Checker.reset =
      (before (Equiv.swap own other place)).map Checker.reset := by
  cases h with
  | work same rest =>
    rw [Equiv.swap_self, Equiv.refl_apply]
    obtain rfl | ne := eq_or_ne place own
    · exact same
    · rw [rest place ne]
  | swap ne comes goes rest =>
    obtain rfl | not_own := eq_or_ne place own
    · rw [Equiv.swap_apply_left, comes]
    obtain rfl | not_other := eq_or_ne place other
    · rw [Equiv.swap_apply_right]
      obtain goes | ⟨-, goes⟩ := goes
      · rw [goes]
      · rw [goes, Option.map_map]
        rfl
    · rw [Equiv.swap_apply_of_ne_of_ne not_own not_other, rest place not_own not_other]

/-- The checker that an operation holds. -/
def Stage.checker? {c : Call} : Stage c → Option Checker
  | .loading _ k | .loaded _ k | .releasing k _ => some k
  | .evaluating p | .evaluated p _ | .finalising p | .finalised p _ | .deciding p => some p.checker
  | _ => none

namespace LeaderSlot

/-- What a step does to the checkers of a slot and to the one that the operation holds. -/
inductive Hands (id : RequestId) :
    LeaderSlot → Option Checker → LeaderSlot → Option Checker → Prop
  | work {s s' : LeaderSlot} {held held' : Option Checker} (idle : s'.pool.idle = s.pool.idle)
      (pending : s'.pending = s.pending)
      (same : held'.map Checker.reset = held.map Checker.reset) : Hands id s held s' held'
  | take {s : LeaderSlot} {k : Checker} {pool : CheckerPool}
      (taken : s.pool.takeChecker = .ok (k, pool)) : Hands id s none { s with pool } (some k)
  | give {s : LeaderSlot} {k : Checker} :
      Hands id s (some k) { s with pool := s.pool.giveChecker k } none
  | insert {s : LeaderSlot} {p : Pending} :
      Hands id s (some p.checker) { s with pending := s.pending.insert id p }
        ((s.pending.find? id).map (·.checker))
  | takeOut {s : LeaderSlot} {p : Pending} (present : s.pending.find? id = some p) :
      Hands id s none { s with pending := s.pending.erase id } (some p.checker)

variable {s s' : LeaderSlot} {c : Call} {id : RequestId}

theorem hands_finish {stage stage' : Stage c} (h : s.finish stage = some (s', stage')) :
    Hands id s stage.checker? s' stage'.checker? := by
  cases stage <;> simp only [finish, Option.some.injEq, Prod.mk.injEq, reduceCtorEq] at h
  case releasing =>
    obtain ⟨rfl, rfl⟩ := h
    exact .give
  case leaving =>
    obtain ⟨rfl, rfl⟩ := h
    exact .work rfl rfl rfl

theorem hands_takeOut {next : Pending → Stage c} (holds : ∀ p, (next p).checker? = some p.checker) :
    Hands id s none (s.takeOut id next).1 (s.takeOut id next).2.checker? := by
  unfold takeOut
  split
  · exact .work rfl rfl rfl
  · rename_i p present
    dsimp only
    rw [holds]
    exact .takeOut present

theorem hands_putBack {p : Pending} {reply : c.Reply} :
    Hands id s (some p.checker) (s.putBack id p reply).1
      (s.putBack id p reply : _ × Stage c).2.checker? := by
  have held : (s.putBack id p reply : _ × Stage c).2.checker? =
      (s.pending.find? id).map (·.checker) := by
    unfold putBack
    dsimp only
    cases s.pending.find? id <;> rfl
  rw [held]
  exact .insert

theorem hands_stepNewRequest {m : NewRequest} {stage stage' : Stage .newRequest}
    (h : s.stepNewRequest m stage = some (s', stage')) :
    Hands m.id s stage.checker? s' stage'.checker? := by
  cases stage <;> simp only [stepNewRequest] at h
  case releasing | leaving | answered => exact hands_finish h
  case unused =>
    obtain ⟨pool, taken, h⟩ := Option.map_eq_some_iff.1 h
    obtain ⟨rfl, rfl⟩ := Prod.mk.inj h
    exact .work (CheckerPool.of_takePermit? taken).2 rfl rfl
  case permitted =>
    split at h <;> obtain ⟨rfl, rfl⟩ := Prod.mk.inj (Option.some.inj h)
    · exact .work rfl rfl rfl
    · exact .take ‹_›
  case loading =>
    split at h <;> obtain ⟨rfl, rfl⟩ := Prod.mk.inj (Option.some.inj h)
    · exact .work rfl rfl rfl
    · exact .work rfl rfl (congrArg some (Checker.reset_setRequest ‹_›))
  case loaded point k =>
    split at h <;> obtain ⟨rfl, rfl⟩ := Prod.mk.inj (Option.some.inj h)
    · exact .work rfl rfl rfl
    · have inserted : Hands m.id s (some k) { s with pending := s.pending.insert m.id ⟨k, point⟩ }
          ((s.pending.find? m.id).map (·.checker)) := .insert (p := ⟨k, point⟩)
      rwa [‹s.pending.find? m.id = none›] at inserted
  all_goals
    split at h <;> obtain ⟨rfl, rfl⟩ := Prod.mk.inj (Option.some.inj h) <;> exact .work rfl rfl rfl

theorem hands_stepEvalCircuit {m : EvalCircuit} {stage stage' : Stage .evalCircuit}
    (h : s.stepEvalCircuit m stage = some (s', stage')) :
    Hands m.id s stage.checker? s' stage'.checker? := by
  cases stage <;> simp only [stepEvalCircuit] at h
  case releasing | leaving | answered => exact hands_finish h
  case called =>
    obtain ⟨rfl, rfl⟩ := Prod.mk.inj (Option.some.inj h)
    exact hands_takeOut fun _ => rfl
  case evaluating =>
    split at h <;> obtain ⟨rfl, rfl⟩ := Prod.mk.inj (Option.some.inj h)
    · exact .work rfl rfl rfl
    · exact .work rfl rfl (congrArg some (Checker.reset_corShare ‹_›))
  case evaluated =>
    obtain ⟨rfl, rfl⟩ := Prod.mk.inj (Option.some.inj h)
    exact hands_putBack

theorem hands_stepFinalCircuit {m : FinalCircuit} {stage stage' : Stage .finalCircuit}
    (h : s.stepFinalCircuit m stage = some (s', stage')) :
    Hands m.id s stage.checker? s' stage'.checker? := by
  cases stage <;> simp only [stepFinalCircuit] at h
  case releasing | leaving | answered => exact hands_finish h
  case called =>
    obtain ⟨rfl, rfl⟩ := Prod.mk.inj (Option.some.inj h)
    exact hands_takeOut fun _ => rfl
  case finalising =>
    split at h <;> obtain ⟨rfl, rfl⟩ := Prod.mk.inj (Option.some.inj h)
    · exact .work rfl rfl rfl
    · exact .work rfl rfl (congrArg some (Checker.reset_finalShare ‹_›))
  case finalised =>
    obtain ⟨rfl, rfl⟩ := Prod.mk.inj (Option.some.inj h)
    exact hands_putBack

theorem hands_stepAccept {m : Accept} {stage stage' : Stage .accept}
    (h : s.stepAccept m stage = some (s', stage')) :
    Hands m.id s stage.checker? s' stage'.checker? := by
  cases stage <;> simp only [stepAccept] at h
  case releasing | leaving | answered => exact hands_finish h
  case called =>
    obtain ⟨rfl, rfl⟩ := Prod.mk.inj (Option.some.inj h)
    exact hands_takeOut fun _ => rfl
  case deciding =>
    obtain ⟨rfl, rfl⟩ := Prod.mk.inj (Option.some.inj h)
    exact .work rfl rfl rfl

theorem hands_stepChangePoint {pointAt : Nat → EvaluationPoint} {m : ChangePoint}
    {stage stage' : Stage .changePoint}
    (h : s.stepChangePoint pointAt m stage = some (s', stage')) :
    Hands id s stage.checker? s' stage'.checker? := by
  cases stage <;> simp only [stepChangePoint] at h
  case releasing | leaving | answered => exact hands_finish h
  case called =>
    obtain ⟨rfl, rfl⟩ := Prod.mk.inj (Option.some.inj h)
    exact .work rfl rfl rfl
  case computed =>
    split at h <;> obtain ⟨rfl, rfl⟩ := Prod.mk.inj (Option.some.inj h) <;> exact .work rfl rfl rfl

theorem hands_stepAbort {m : Abort} {stage stage' : Stage .abort}
    (h : s.stepAbort m stage = some (s', stage')) :
    Hands m.id s stage.checker? s' stage'.checker? := by
  cases stage <;> simp only [stepAbort] at h
  case releasing | leaving | answered => exact hands_finish h
  case called =>
    split at h <;> obtain ⟨rfl, rfl⟩ := Prod.mk.inj (Option.some.inj h)
    · exact .work rfl rfl rfl
    · exact .takeOut ‹_›

end LeaderSlot

theorem Server.hands_stepSlot {s : Server} {slot slot' : LeaderSlot} {id : RequestId} {c : Call}
    {m : c.Message} {stage stage' : Stage c} (about : ∀ i ∈ c.id? m, i = id)
    (h : s.stepSlot slot m stage = some (slot', stage')) :
    slot.Hands id stage.checker? slot' stage'.checker? := by
  cases c with
  | newRequest => exact about _ rfl ▸ LeaderSlot.hands_stepNewRequest h
  | evalCircuit => exact about _ rfl ▸ LeaderSlot.hands_stepEvalCircuit h
  | finalCircuit => exact about _ rfl ▸ LeaderSlot.hands_stepFinalCircuit h
  | accept => exact about _ rfl ▸ LeaderSlot.hands_stepAccept h
  | changePoint => exact LeaderSlot.hands_stepChangePoint h
  | abort => exact about _ rfl ▸ LeaderSlot.hands_stepAbort h

/-- The checker of a leader that an operation holds. -/
def AnyOperation.checker? (leader : Nat) (op : AnyOperation) : Option Checker :=
  if op.2.leader.toNat = leader then op.2.stage.checker? else none

theorem getElem?_concat_of_ne {α : Type} {l : List α} {a : α} {i : Nat} (ne : i ≠ l.length) :
    (l ++ [a])[i]? = l[i]? := by
  obtain lt | gt := Nat.lt_or_gt_of_ne ne
  · rw [List.getElem?_append_left lt]
  · rw [List.getElem?_eq_none (by simpa using gt), List.getElem?_eq_none (Nat.le_of_lt gt)]

/-- The checker at a place of a slot. -/
def LeaderSlot.checkerAt? (s : LeaderSlot) : Place → Option Checker
  | .idle depth => s.pool.idle.reverse[depth]?
  | .pending id => (s.pending.find? id).map (·.checker)
  | .held _ => none

/-- What passes between an operation and a slot passes between the places of both. -/
theorem LeaderSlot.Hands.exchange {id : RequestId} {s s' : LeaderSlot} {held held' : Option Checker}
    (h : s.Hands id held s' held') {before after : Place → Option Checker} {i : Nat}
    (own : before (.held i) = held) (own' : after (.held i) = held')
    (others : ∀ j, j ≠ i → after (.held j) = before (.held j))
    (here : ∀ place ∉ Set.range Place.held,
      before place = s.checkerAt? place ∧ after place = s'.checkerAt? place) :
    ∃ other, Exchange before after (.held i) other := by
  have idle (depth : Nat) := here (.idle depth) (by simp)
  have pending (id : RequestId) := here (.pending id) (by simp)
  have rest {place : Place} (ne : place ≠ .held i)
      (same : s'.checkerAt? place = s.checkerAt? place) : after place = before place := by
    cases place with
    | held j => exact others j fun eq => ne (eq ▸ rfl)
    | idle depth => rw [(idle depth).1, (idle depth).2, same]
    | pending id => rw [(pending id).1, (pending id).2, same]
  cases h with
  | work sameIdle samePending same =>
    refine ⟨_, .work (by rw [own, own', same]) fun place ne => rest ne ?_⟩
    cases place <;> simp only [checkerAt?, sameIdle, samePending]
  | @take k pool taken =>
    obtain ⟨eq, -⟩ := CheckerPool.of_takeChecker taken
    refine ⟨.idle pool.idle.length, .swap (by simp) ?_ (.inl ?_) fun place ne apart => rest ne ?_⟩
    · simp [own', (idle _).1, checkerAt?, eq]
    · simp [own, (idle _).2, checkerAt?]
    · cases place with
      | idle depth =>
        have ne : depth ≠ pool.idle.reverse.length := fun same => apart (by simp [same])
        simp only [checkerAt?, eq, List.reverse_cons, getElem?_concat_of_ne ne]
      | pending | held => rfl
  | @give k =>
    refine ⟨.idle s.pool.idle.length, .swap (by simp) ?_ (.inr ⟨⟨_, rfl⟩, ?_⟩)
      fun place ne apart => rest ne ?_⟩
    · simp [own', (idle _).1, checkerAt?]
    · simp [own, (idle _).2, checkerAt?, CheckerPool.giveChecker]
    · cases place with
      | idle depth =>
        have ne : depth ≠ s.pool.idle.reverse.length := fun same => apart (by simp [same])
        simp only [checkerAt?, CheckerPool.giveChecker, List.reverse_cons, getElem?_concat_of_ne ne]
      | pending | held => rfl
  | @insert p =>
    refine ⟨.pending id, .swap (by simp) ?_ (.inl ?_) fun place ne apart => rest ne ?_⟩
    · simp [own', (pending id).1, checkerAt?]
    · simp [own, (pending id).2, checkerAt?, PendingRequests.find?_insert_self]
    · cases place with
      | pending id' =>
        have ne : id' ≠ id := fun same => apart (by rw [same])
        simp only [checkerAt?, PendingRequests.find?_insert_ne ne]
      | idle | held => rfl
  | @takeOut p present =>
    refine ⟨.pending id, .swap (by simp) ?_ (.inl ?_) fun place ne apart => rest ne ?_⟩
    · simp [own', (pending id).1, checkerAt?, present]
    · simp [own, (pending id).2, checkerAt?, PendingRequests.find?_erase_self]
    · cases place with
      | pending id' =>
        have ne : id' ≠ id := fun same => apart (by rw [same])
        simp only [checkerAt?, PendingRequests.find?_erase_ne ne]
      | idle | held => rfl

namespace BusyServer

/-- The checker at a place of a leader. -/
def checkerAt? (w : BusyServer) (leader : Nat) : Place → Option Checker
  | .held i => w.operations[i]?.bind (AnyOperation.checker? leader)
  | place => w.server.slots[leader]?.bind (·.checkerAt? place)

variable {w w' : BusyServer} {leader i : Nat}

theorem checkerAt?_of_found {slot : LeaderSlot} (found : w.server.slots[leader]? = some slot)
    {place : Place} (elsewhere : place ∉ Set.range Place.held) :
    w.checkerAt? leader place = slot.checkerAt? place := by
  cases place with
  | held i => exact absurd ⟨i, rfl⟩ elsewhere
  | idle | pending => simp only [checkerAt?, found, Option.bind_some]

theorem checkerAt?_call {c : Call} (message : c.Message) :
    checkerAt? { w with operations := w.operations ++ [⟨c, .start message⟩] } leader =
      w.checkerAt? leader := by
  funext place
  cases place with
  | idle | pending => rfl
  | held i =>
    have none : AnyOperation.checker? leader ⟨c, .start message⟩ = none := ite_self none
    simp only [checkerAt?]
    obtain rfl | ne := eq_or_ne i w.operations.length
    · simp [none]
    · rw [getElem?_concat_of_ne ne]

/-- A step exchanges what its operation holds with what is at one other place. -/
theorem exists_exchange (leader : Nat) {c : Call} {op op' : Operation c} {server : Server}
    (present : w.operations[i]? = some ⟨c, op⟩) (step : w.server.step op = some (server, op')) :
    ∃ other, Exchange (w.checkerAt? leader)
      (checkerAt? ⟨server, w.operations.set i ⟨c, op'⟩⟩ leader) (.held i) other := by
  have here : i < w.operations.length := (List.getElem?_eq_some_iff.1 present).1
  have own : w.checkerAt? leader (.held i) = AnyOperation.checker? leader ⟨c, op⟩ := by
    rw [checkerAt?, present, Option.bind_some]
  have own' : checkerAt? ⟨server, w.operations.set i ⟨c, op'⟩⟩ leader (.held i) =
      AnyOperation.checker? leader ⟨c, op'⟩ := by
    rw [checkerAt?, List.getElem?_set_self here, Option.bind_some]
  have others (j : Nat) (ne : j ≠ i) :
      checkerAt? ⟨server, w.operations.set i ⟨c, op'⟩⟩ leader (.held j) =
        w.checkerAt? leader (.held j) := by
    rw [checkerAt?, checkerAt?, List.getElem?_set_ne ne.symm]
  obtain ⟨message, ⟨slot, slot', there, moved, rfl⟩ | ⟨rfl, -, called, refused⟩⟩ :=
    Server.of_step step
  · have leads : op'.leader = op.leader := congrArg c.leader message
    obtain rfl | elsewhere := eq_or_ne op.leader.toNat leader
    · have hands : slot.Hands ((c.id? op.message).getD 0) op.stage.checker? slot'
          op'.stage.checker? := Server.hands_stepSlot (fun i mem => by rw [mem]; rfl) moved
      have there' : (w.server.slots.set op.leader.toNat slot')[op.leader.toNat]? = some slot' :=
        List.getElem?_set_self (List.getElem?_eq_some_iff.1 there).1
      refine hands.exchange ?_ ?_ others fun place elsewhere =>
        ⟨checkerAt?_of_found there elsewhere, checkerAt?_of_found there' elsewhere⟩
      · rw [own, AnyOperation.checker?, if_pos rfl]
      · rw [own', AnyOperation.checker?, if_pos (congrArg _ leads)]
    · refine ⟨.held i, .work ?_ fun place ne => ?_⟩
      · rw [own, own', AnyOperation.checker?, AnyOperation.checker?, if_neg elsewhere,
          if_neg (leads ▸ elsewhere)]
      · cases place with
        | held j => exact others j fun eq => ne (eq ▸ rfl)
        | idle | pending => simp only [checkerAt?, List.getElem?_set_ne elsewhere]
  · refine ⟨.held i, .work ?_ fun place ne => ?_⟩
    · rw [own, own', AnyOperation.checker?, AnyOperation.checker?]
      simp only [called, refused, Stage.checker?, ite_self]
    · cases place with
      | held j => exact others j fun eq => ne (eq ▸ rfl)
      | idle | pending => rfl

/-- Where each checker of a leader has come to, along a run from a server of its own. -/
inductive Traces (leader capacity : Nat) (s : Server) :
    BusyServer → (Fin capacity → Place) → Prop
  | start : Traces leader capacity s ⟨s, []⟩ fun k => .idle k
  | call {w : BusyServer} {place : Fin capacity → Place} (before : Traces leader capacity s w place)
      {c : Call} (message : c.Message) :
      Traces leader capacity s { w with operations := w.operations ++ [⟨c, .start message⟩] } place
  | answer {w : BusyServer} {place : Fin capacity → Place}
      (before : Traces leader capacity s w place) {i : Nat} {c : Call} {op op' : Operation c}
      {server : Server} (present : w.operations[i]? = some ⟨c, op⟩)
      (step : w.server.step op = some (server, op')) {other : Place}
      (exchange : Exchange (w.checkerAt? leader)
        (checkerAt? ⟨server, w.operations.set i ⟨c, op'⟩⟩ leader) (.held i) other) :
      Traces leader capacity s ⟨server, w.operations.set i ⟨c, op'⟩⟩
        (Equiv.swap (.held i) other ∘ place)

theorem exists_traces {s : Server} (h : Reaches ⟨s, []⟩ w) (leader capacity : Nat) :
    ∃ place, Traces leader capacity s w place := by
  induction h with
  | refl => exact ⟨_, .start⟩
  | tail _ step ih =>
    obtain ⟨place, traces⟩ := ih
    cases step with
    | call message => exact ⟨_, traces.call message⟩
    | answer present step =>
      obtain ⟨other, exchange⟩ := exists_exchange leader present step
      exact ⟨_, traces.answer present step exchange⟩

variable {F : Field} {c : Circuit} {index n capacity : Nat}

/-- Every checker is at a place of its own, no other place has one, and all are as they were made,
apart from the requests that they have. -/
structure Custody (F : Field) (c : Circuit) (index leader n : Nat) (w : BusyServer)
    (place : Fin capacity → Place) : Prop where
  injective : place.Injective
  occupied : ∀ p, (w.checkerAt? leader p).isSome ↔ p ∈ Set.range place
  reset_eq : ∀ p, ∀ k ∈ w.checkerAt? leader p, k.reset = .new F c index leader n

theorem custody_start {s : Server} (started : Server.start F c n capacity index = .ok s)
    (lt : leader < n) :
    Custody F c index leader n ⟨s, []⟩ fun k : Fin capacity => .idle k := by
  have fresh : s.slots[leader]? = some (.fresh F c index leader n capacity) := by
    rw [Server.slots_start started, List.getElem?_map, List.getElem?_range lt, Option.map_some]
  have idle (depth : Nat) : checkerAt? ⟨s, []⟩ leader (.idle depth) =
      (List.replicate capacity (Checker.new F c index leader n))[depth]? := by
    rw [checkerAt?_of_found fresh (by simp), LeaderSlot.checkerAt?, LeaderSlot.fresh,
      CheckerPool.ofCheckers, List.reverse_reverse]
  have pending (id : RequestId) : checkerAt? ⟨s, []⟩ leader (.pending id) = none := by
    rw [checkerAt?_of_found fresh (by simp)]
    rfl
  refine ⟨fun k k' eq => Fin.ext (Place.idle.inj eq), fun p => ?_, fun p k mem => ?_⟩
  · cases p with
    | idle depth =>
      rw [idle, isSome_getElem?]
      simp [Fin.exists_iff]
    | pending id => simp [pending]
    | held i => simp [checkerAt?]
  · cases p with
    | idle depth =>
      rw [idle] at mem
      obtain rfl := List.eq_of_mem_replicate (List.mem_of_getElem? mem)
      rfl
    | pending id =>
      rw [pending] at mem
      cases mem
    | held i => cases mem

/-- What an exchange does to the checkers, it does to the places. -/
theorem Custody.swap {place : Fin capacity → Place} (custody : Custody F c index leader n w place)
    {own other : Place}
    (exchange : Exchange (w.checkerAt? leader) (w'.checkerAt? leader) own other) :
    Custody F c index leader n w' (Equiv.swap own other ∘ place) := by
  have moved := exchange.map_reset
  refine ⟨(Equiv.swap own other).injective.comp custody.injective, fun p => ?_, fun p k mem => ?_⟩
  · rw [← Option.isSome_map, moved, Option.isSome_map, custody.occupied, Set.range_comp]
    exact ⟨fun mem => ⟨_, mem, Equiv.swap_apply_self own other p⟩, fun ⟨q, mem, eq⟩ => by
      rwa [← eq, Equiv.swap_apply_self]⟩
  · have mem : k.reset ∈ (w'.checkerAt? leader p).map Checker.reset := Option.mem_map_of_mem _ mem
    rw [moved] at mem
    obtain ⟨k', mem, eq⟩ := Option.mem_map.1 mem
    rw [← eq, custody.reset_eq _ k' mem]

theorem Traces.custody {s : Server} (started : Server.start F c n capacity index = .ok s)
    (lt : leader < n) {place : Fin capacity → Place} (h : Traces leader capacity s w place) :
    Custody F c index leader n w place := by
  induction h with
  | start => exact custody_start started lt
  | call before message ih =>
    refine ⟨ih.injective, ?_, ?_⟩ <;> rw [checkerAt?_call]
    · exact ih.occupied
    · exact ih.reset_eq
  | answer before present step exchange ih => exact ih.swap exchange

/-- How the slot of a leader lends its checkers. -/
structure Lends (F : Field) (c : Circuit) (index leader n capacity : Nat) (w : BusyServer)
    (slot : LeaderSlot) : Prop where
  permits_le : slot.pool.permits ≤ slot.pool.idle.length
  acquire? : ∀ answer, slot.pool.acquire? = some answer →
    ∃ pool, answer = .ok (.new F c index leader n, pool)
  /-- Whoever has its permit is handed a new checker next. -/
  hands : ∀ (op : Operation .newRequest) (point : EvaluationPoint),
    ⟨.newRequest, op⟩ ∈ w.operations → op.leader.toNat = leader → op.stage = .permitted point →
    ∃ server, w.server.step op =
      some (server, { op with stage := .loading point (.new F c index leader n) })
  not_closed : ∀ op ∈ w.operations, op.2.stage.outcome? ≠ some (.error (.poolClosed leader))
  returned : (∀ op ∈ w.operations, ∃ answer, op.2.stage = .answered answer) →
    ∃ available pending, w.server.available leader = .ok available ∧
      w.server.pendingCount leader = .ok pending ∧ available + pending = capacity

theorem Stocked.lends (stocked : w.Stocked F c index n capacity) (free : w.Open)
    {slot : LeaderSlot} (found : w.server.slots[leader]? = some slot) :
    Lends F c index leader n capacity w slot where
  permits_le := stocked.permits_le found
  acquire? _ := stocked.acquire? found
  hands op point mem about permitted := by
    obtain ⟨pool, taken⟩ := stocked.takeChecker found ⟨_, op⟩ mem about (by rw [permitted]; rfl)
    have moved : w.server.stepSlot slot op.message op.stage =
        some ({ slot with pool }, .loading point (.new F c index leader n)) := by
      rw [permitted]
      simp only [Server.stepSlot, LeaderSlot.stepNewRequest, taken]
    exact ⟨_, Server.step_of_stepSlot (about ▸ found) moved⟩
  not_closed op mem := free op mem leader
  returned settled := by
    have slot_eq : w.server.slot leader = .ok slot := by rw [Server.slot, found]
    refine ⟨slot.pool.permits, slot.pending.length, ?_, ?_, stocked.permits_add found settled⟩
    · rw [Server.available, slot_eq]
      rfl
    · rw [Server.pendingCount, slot_eq]
      rfl

/-- Whatever is asked of a server, and in whatever order its operations take their steps, every
checker of a leader is at one place, and the leader's slot lends new checkers only, one for every
permit. -/
theorem custody_of_start {s : Server} (started : Server.start F c n capacity index = .ok s)
    (run : Reaches ⟨s, []⟩ w) (lt : leader < n) :
    (∃ place : Fin capacity → Place, Traces leader capacity s w place ∧
        Custody F c index leader n w place) ∧
      ∃ slot, w.server.slots[leader]? = some slot ∧ Lends F c index leader n capacity w slot := by
  obtain ⟨place, traces⟩ := exists_traces run leader capacity
  have free : Open ⟨s, []⟩ := fun op mem => absurd mem List.not_mem_nil
  obtain ⟨stocked, free⟩ := (stocked_start started).of_reaches free run
  refine ⟨⟨place, traces, traces.custody started lt⟩, ?_⟩
  have here : leader < w.server.slots.length := stocked.width ▸ lt
  exact ⟨_, List.getElem?_eq_getElem here, stocked.lends free (List.getElem?_eq_getElem here)⟩

/-- One of two checkers, as a request under a new epoch was handed it. -/
theorem custody_bit : ∃ (s : Server) (w : BusyServer) (place : Fin 2 → Place),
    Server.start .seventeen Checker.bit 3 2 0 = .ok s ∧ Reaches ⟨s, []⟩ w ∧
      w.checkerAt? 1 (.held 1) = some (.new .seventeen Checker.bit 0 1 3) ∧
      Traces 1 2 s w place ∧ Custody .seventeen Checker.bit 0 1 3 w place ∧
      ∃ i, place i = .held 1 := by
  obtain ⟨domain, -, domainOk, -⟩ :=
    CircuitDomain.ofCircuit_eq_ok (F := .seventeen) (c := Checker.bit) (by decide)
  let fresh (leader : Nat) : LeaderSlot := .fresh .seventeen Checker.bit 0 leader 3 2
  let server (slot : LeaderSlot) : Server :=
    { index := 0, field := .seventeen, domain, slots := [fresh 0, slot, fresh 2] }
  have started : Server.start .seventeen Checker.bit 3 2 0 = .ok (server (fresh 1)) := by
    rw [Server.start, domainOk]
    rfl
  let k : Checker := .new .seventeen Checker.bit 0 1 3
  let change : ChangePoint := { leader := 1, epoch := 7, x := 5 }
  let new : NewRequest :=
    { id := 4, leader := 1, epoch := 7, request := ⟨⟨⟨.replicate 32 0⟩, []⟩, ⟨1, 2, 3⟩⟩ }
  let point : EvaluationPoint := .ofPoint .seventeen domain 5
  let known : LeaderSlot := { fresh 1 with points := ⟨some (7, point), none⟩ }
  let announced : Operation .changePoint := ⟨change, .answered (.ok ())⟩
  have announcing : Reaches ⟨server (fresh 1), []⟩ ⟨server known, [⟨_, announced⟩]⟩ := by
    have computed : (server (fresh 1)).step (.start (c := .changePoint) change) =
        some (server (fresh 1), ⟨change, .computed point⟩) := rfl
    have rotated : (server (fresh 1)).step (c := .changePoint) ⟨change, .computed point⟩ =
        some (server known, announced) := rfl
    exact .head (.call change) (.head (.answer (i := 0) rfl computed)
      (.single (.answer (i := 0) rfl rotated)))
  let lent (permits : Nat) (idle : List Checker) : LeaderSlot :=
    { known with pool := { leader := 1, idle, permits } }
  let loading : Operation .newRequest := ⟨new, .loading point k⟩
  have lending : Reaches ⟨server known, [⟨_, announced⟩]⟩
      ⟨server (lent 1 [k]), [⟨_, announced⟩, ⟨_, loading⟩]⟩ := by
    have bound : (server known).step (.start (c := .newRequest) new) =
        some (server known, ⟨new, .bound point⟩) := rfl
    have unused : (server known).step (c := .newRequest) ⟨new, .bound point⟩ =
        some (server known, ⟨new, .unused point⟩) := rfl
    have permitted : (server known).step (c := .newRequest) ⟨new, .unused point⟩ =
        some (server (lent 1 [k, k]), ⟨new, .permitted point⟩) := rfl
    have taken : (server (lent 1 [k, k])).step (c := .newRequest) ⟨new, .permitted point⟩ =
        some (server (lent 1 [k]), loading) := rfl
    exact .head (.call new) (.head (.answer (i := 1) rfl bound)
      (.head (.answer (i := 1) rfl unused) (.head (.answer (i := 1) rfl permitted)
        (.single (.answer (i := 1) rfl taken)))))
  have run := announcing.trans lending
  have leads : 1 < 3 := by decide
  obtain ⟨⟨place, traces, custody⟩, -⟩ := custody_of_start started run leads
  exact ⟨_, _, place, started, run, rfl, traces, custody, (custody.occupied (.held 1)).1 rfl⟩

end BusyServer

end PrivateSums
