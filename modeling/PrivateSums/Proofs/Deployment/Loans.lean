import PrivateSums.Proofs.Deployment.Callers

/-!
One server under the calls of anyone, with any arguments and in any interleaving. Whatever its
operations hold comes out of the pools and goes back there, so that a permit always finds a checker.
-/

namespace PrivateSums

/-- How an operation that is about to end was decided. -/
def Stage.outcome? {c : Call} : Stage c → Option (Except ServerError c.Reply)
  | .releasing _ answer | .leaving answer | .answered answer => some answer
  | _ => none

namespace Server

variable {s s' : Server} {c : Call}

theorem slots_start {F : Field} {circuit : Circuit} {n capacity index : Nat}
    (h : start F circuit n capacity index = .ok s) :
    s.slots = (List.range n).map fun leader => .fresh F circuit index leader n capacity := by
  unfold start at h
  split at h
  · obtain ⟨domain, -, h⟩ := Answer.bind_eq_ok.1 h
    obtain rfl := Except.ok.inj h
    rfl
  · cases h

/-- Only an operation that has its permit and finds no checker reports that a pool is closed. -/
theorem outcome?_stepSlot {slot slot' : LeaderSlot} {m : c.Message} {stage stage' : Stage c}
    (h : s.stepSlot slot m stage = some (slot', stage')) {leader : Nat}
    (closed : stage'.outcome? = some (.error (.poolClosed leader))) :
    stage.outcome? = some (.error (.poolClosed leader)) ∨
      stage.assets = .permit ∧ ∃ e, slot.pool.takeChecker = .error e := by
  have answers : (s.stepSlot slot m stage).map (·.2.outcome?) =
      some (some (.error (.poolClosed leader))) := by
    rw [h, Option.map_some, closed]
  clear h closed
  cases c <;> cases stage <;>
    simp only [stepSlot, LeaderSlot.stepNewRequest, LeaderSlot.stepEvalCircuit,
      LeaderSlot.stepFinalCircuit, LeaderSlot.stepAccept, LeaderSlot.stepChangePoint,
      LeaderSlot.stepAbort, LeaderSlot.finish, LeaderSlot.takeOut, LeaderSlot.putBack] at answers
  case newRequest.permitted =>
    cases taken : slot.pool.takeChecker with
    | error e => exact .inr ⟨rfl, e, rfl⟩
    | ok => simp [taken, Stage.outcome?] at answers
  case accept.deciding p =>
    cases decided : p.checker.verdict m.outShares <;> simp [Stage.outcome?, decided] at answers
  -- Elsewhere the answer is known already, or it is another one.
  all_goals first
    | exact .inl (Option.some.inj answers)
    | split at answers <;> simp [Stage.outcome?] at answers
    | simp [Stage.outcome?] at answers

/-- A step of an operation is a step on the slot of its leader, or it is refused at once. -/
theorem of_step {op op' : Operation c} (h : s.step op = some (s', op')) :
    op'.message = op.message ∧
      ((∃ slot slot', s.slots[op.leader.toNat]? = some slot ∧
          s.stepSlot slot op.message op.stage = some (slot', op'.stage) ∧
          s' = { s with slots := s.slots.set op.leader.toNat slot' }) ∨
        s' = s ∧ s.slots[op.leader.toNat]? = none ∧ op.stage = .called ∧
          op'.stage = .answered (.error (.leaderOutOfRange op.leader.toNat s.slots.length))) := by
  obtain ⟨m, stage⟩ := op
  simp only [step] at h
  split at h
  · obtain ⟨⟨slot', stage'⟩, moves, h⟩ := Option.bind_eq_some_iff.1 h
    obtain ⟨rfl, rfl⟩ := Prod.mk.inj (Option.some.inj h)
    exact ⟨rfl, .inl ⟨_, slot', ‹_›, moves, rfl⟩⟩
  · obtain ⟨rfl, rfl⟩ := Prod.mk.inj (Option.some.inj h)
    exact ⟨rfl, .inr ⟨rfl, ‹_›, rfl, rfl⟩⟩
  · cases h

end Server

/-- An operation on any kind of call. -/
abbrev AnyOperation := (c : Call) × Operation c

/-- What an operation keeps from the pool of a leader. -/
def AnyOperation.assets (leader : Nat) (op : AnyOperation) : Assets :=
  if op.2.leader.toNat = leader then op.2.stage.assets else 0

theorem Assets.backed_operation (leader : Nat) (op : AnyOperation) :
    (op.assets leader).Backed := by
  unfold AnyOperation.assets
  split
  · exact backed_stage _
  · exact Nat.le_refl 0

/-- A step moves assets between the operation and the slot of its leader. -/
theorem Server.assets_step {s s' : Server} {c : Call} {op op' : Operation c}
    (h : s.step op = some (s', op'))
    (tidy : ∀ (leader : Nat) (slot : LeaderSlot), s.slots[leader]? = some slot → slot.Tidy) :
    s'.slots.length = s.slots.length ∧
      ∀ (leader : Nat) (slot' : LeaderSlot), s'.slots[leader]? = some slot' → slot'.Tidy ∧
        ∃ slot, s.slots[leader]? = some slot ∧
          slot'.assets + AnyOperation.assets leader ⟨c, op'⟩ =
            slot.assets + AnyOperation.assets leader ⟨c, op⟩ := by
  obtain ⟨message, ⟨slot, slot₁, there, moved, rfl⟩ | ⟨rfl, -, called, refused⟩⟩ := of_step h
  · have moves : slot.Moves ((c.id? op.message).getD 0) op.stage slot₁ op'.stage :=
      moves_stepSlot (fun i mem => by rw [mem]; rfl) moved
    have leads : op'.leader = op.leader := congrArg c.leader message
    refine ⟨List.length_set .., fun leader slot' found => ?_⟩
    simp only [AnyOperation.assets, leads]
    rw [List.getElem?_set] at found
    split at found
    · rename_i eq
      subst eq
      split at found
      · obtain rfl := Option.some.inj found
        have before := tidy _ slot there
        refine ⟨moves.tidy before, slot, there, ?_⟩
        rw [if_pos rfl, if_pos rfl]
        exact moves.assets_eq before
      · cases found
    · rename_i ne
      refine ⟨tidy _ _ found, slot', found, ?_⟩
      rw [if_neg ne, if_neg ne]
  · refine ⟨rfl, fun leader slot found => ⟨tidy _ _ found, slot, found, ?_⟩⟩
    simp [AnyOperation.assets, called, refused, Stage.assets]

/-- A server and the operations that were begun on it, in the order of the calls. -/
structure BusyServer where
  server : Server
  operations : List AnyOperation

namespace BusyServer

/-- What may happen next: a call of anyone, or a step of an operation. -/
inductive Step (w : BusyServer) : BusyServer → Prop
  | call {c : Call} (message : c.Message) :
      Step w { w with operations := w.operations ++ [⟨c, .start message⟩] }
  | answer {i : Nat} {c : Call} {op op' : Operation c} {server : Server}
      (present : w.operations[i]? = some ⟨c, op⟩) (step : w.server.step op = some (server, op')) :
      Step w ⟨server, w.operations.set i ⟨c, op'⟩⟩

abbrev Reaches : BusyServer → BusyServer → Prop := Relation.ReflTransGen Step

variable {F : Field} {c : Circuit} {index n capacity : Nat} {w w' : BusyServer}

/-- Every pool has all it had at first, counting what pending requests and operations keep. -/
structure Stocked (F : Field) (c : Circuit) (index n capacity : Nat) (w : BusyServer) : Prop where
  width : w.server.slots.length = n
  tidy : ∀ (leader : Nat) (slot : LeaderSlot), w.server.slots[leader]? = some slot → slot.Tidy
  total : ∀ (leader : Nat) (slot : LeaderSlot), w.server.slots[leader]? = some slot →
    slot.assets + (w.operations.map (AnyOperation.assets leader)).sum =
      capacity • (.permit + .checker (.new F c index leader n))

/-- No operation has found a pool closed. -/
def Open (w : BusyServer) : Prop :=
  ∀ op ∈ w.operations, ∀ leader, op.2.stage.outcome? ≠ some (.error (.poolClosed leader))

theorem backed_operations (leader : Nat) :
    ∀ a ∈ w.operations.map (AnyOperation.assets leader), a.Backed := by
  intro a mem
  obtain ⟨op, -, rfl⟩ := List.mem_map.1 mem
  exact Assets.backed_operation leader op

section Use

variable {leader : Nat} {slot : LeaderSlot} (stocked : w.Stocked F c index n capacity)
  (found : w.server.slots[leader]? = some slot)

include stocked found

theorem Stocked.permits_le : slot.pool.permits ≤ slot.pool.idle.length :=
  LeaderSlot.permits_le (stocked.total leader slot found)
    (Assets.Backed.sum (w.backed_operations leader))

/-- Whoever has its permit finds a new checker. -/
theorem Stocked.takeChecker (op : AnyOperation) (mem : op ∈ w.operations)
    (about : op.2.leader.toNat = leader) (permitted : op.2.stage.assets = .permit) :
    ∃ pool, slot.pool.takeChecker = .ok (.new F c index leader n, pool) := by
  refine LeaderSlot.takeChecker_of_lt (stocked.total leader slot found)
    (stocked.tidy leader slot found)
    (Assets.checkers_lt_of_mem (w.backed_operations leader) (List.mem_map_of_mem mem) ?_)
  rw [AnyOperation.assets, if_pos about, permitted]
  exact Nat.zero_lt_one

/-- So does whoever takes both at once. -/
theorem Stocked.acquire? {answer : Except ServerError (Checker × CheckerPool)}
    (acquired : slot.pool.acquire? = some answer) :
    ∃ pool, answer = .ok (.new F c index leader n, pool) :=
  LeaderSlot.of_acquire? (stocked.total leader slot found) (stocked.tidy leader slot found)
    (Assets.Backed.sum (w.backed_operations leader)) acquired

/-- While no operation is under way, all that is not free is pending. -/
theorem Stocked.permits_add
    (settled : ∀ op ∈ w.operations, ∃ answer, op.2.stage = .answered answer) :
    slot.pool.permits + slot.pending.length = capacity := by
  have total := LeaderSlot.permits_add_permits (stocked.total leader slot found)
  rw [List.sum_eq_zero, map_zero, add_zero] at total
  · exact total
  · intro a mem
    obtain ⟨op, among, rfl⟩ := List.mem_map.1 mem
    obtain ⟨answer, answered⟩ := settled op among
    rw [AnyOperation.assets, answered, Stage.assets, ite_self]

end Use

theorem stocked_start {s : Server} (started : Server.start F c n capacity index = .ok s) :
    Stocked F c index n capacity ⟨s, []⟩ := by
  have eq_fresh {leader : Nat} {slot : LeaderSlot} (found : s.slots[leader]? = some slot) :
      slot = .fresh F c index leader n capacity := by
    rw [Server.slots_start started] at found
    obtain ⟨here, rfl⟩ := List.getElem?_eq_some_iff.1 found
    simp
  refine ⟨by simp [Server.slots_start started], fun leader slot found => ?_,
    fun leader slot found => ?_⟩
  · obtain rfl := eq_fresh found
    exact LeaderSlot.tidy_fresh
  · obtain rfl := eq_fresh found
    simp [LeaderSlot.assets_fresh]

theorem Stocked.of_step (stocked : w.Stocked F c index n capacity) (h : Step w w') :
    w'.Stocked F c index n capacity := by
  cases h with
  | @call call message =>
    refine ⟨stocked.width, stocked.tidy, fun leader slot found => ?_⟩
    have empty : AnyOperation.assets leader ⟨call, .start message⟩ = 0 := ite_self 0
    rw [List.map_append, List.sum_append, List.map_singleton, List.sum_singleton, empty, add_zero,
      stocked.total leader slot found]
  | @answer i call op op' server present step =>
    obtain ⟨width, moved⟩ := Server.assets_step step stocked.tidy
    refine ⟨width.trans stocked.width, fun leader slot' found => (moved leader slot' found).1,
      fun leader slot' found => ?_⟩
    obtain ⟨-, slot, there, kept⟩ := moved leader slot' found
    obtain ⟨others, before, after⟩ := sum_map_set (AnyOperation.assets leader) present
    rw [after, ← stocked.total leader slot there, before, ← add_assoc, kept, add_assoc]

theorem Open.of_step (free : w.Open) (stocked : w.Stocked F c index n capacity) (h : Step w w') :
    w'.Open := by
  cases h with
  | call message =>
    intro op mem
    obtain mem | mem := List.mem_append.1 mem
    · exact free op mem
    · obtain rfl := List.mem_singleton.1 mem
      exact fun leader => nofun
  | @answer i call op op' server present step =>
    have listed := List.mem_of_getElem? present
    intro op₁ mem leader closed
    obtain mem | rfl := List.mem_or_eq_of_mem_set mem
    · exact free op₁ mem leader closed
    obtain ⟨-, ⟨slot, slot', there, moved, rfl⟩ | ⟨-, -, -, refused⟩⟩ := Server.of_step step
    · obtain before | ⟨permitted, e, none⟩ := Server.outcome?_stepSlot moved closed
      · exact free ⟨call, op⟩ listed leader before
      · obtain ⟨pool, some⟩ := stocked.takeChecker there ⟨call, op⟩ listed rfl permitted
        rw [none] at some
        cases some
    · rw [refused] at closed
      cases closed

theorem Stocked.of_reaches (stocked : w.Stocked F c index n capacity) (free : w.Open)
    (h : Reaches w w') : w'.Stocked F c index n capacity ∧ w'.Open := by
  induction h with
  | refl => exact ⟨stocked, free⟩
  | tail _ step ih => exact ⟨ih.1.of_step step, ih.2.of_step ih.1 step⟩

end BusyServer

end PrivateSums
