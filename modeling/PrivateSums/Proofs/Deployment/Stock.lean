import Mathlib.Algebra.Group.Action.Defs
import Mathlib.Algebra.Order.BigOperators.Group.List
import Mathlib.Algebra.Order.Ring.Nat
import PrivateSums.Proofs.Deployment.World

/-!
Where the checkers of a pool are: at rest, with a pending request, or held by one operation. Their
number never changes, and whichever is taken next has no request.
-/

namespace PrivateSums

/-- A sum over a list, split at one element. -/
theorem sum_map_set {α M : Type} [AddCommMonoid M] (f : α → M) {l : List α} {i : Nat} {a : α}
    (present : l[i]? = some a) :
    ∃ rest, (l.map f).sum = f a + rest ∧ ∀ b, ((l.set i b).map f).sum = f b + rest := by
  obtain ⟨here, rfl⟩ := List.getElem?_eq_some_iff.1 present
  have before := ((List.getElem_cons_eraseIdx_perm here).map f).sum_eq
  have after (b : α) := ((List.set_perm_cons_eraseIdx here b).map f).sum_eq
  exact ⟨((l.eraseIdx i).map f).sum, before.symm, after⟩

/-- What a call keeps from the pools of one server. -/
def AnyCall.assets (peer : Nat) (call : AnyCall) : Assets :=
  if call.2.peer = peer then call.2.operation.stage.assets else 0

/-- What a submission keeps from the pool of a leader on one server. -/
def Submission.assets (peer leader : Nat) (s : Submission) : Assets :=
  if s.leader.toNat = leader then (s.progress.calls.map (AnyCall.assets peer)).sum else 0

namespace Assets

def permits : Assets →+ Nat := AddMonoidHom.fst Nat (Multiset Checker)

def checkers : Assets →+ Nat := Multiset.cardHom.comp (AddMonoidHom.snd Nat (Multiset Checker))

@[simp] theorem permits_permit : permits permit = 1 := rfl

@[simp] theorem permits_checker (k : Checker) : permits (checker k) = 0 := rfl

@[simp] theorem checkers_permit : checkers permit = 0 := rfl

@[simp] theorem checkers_checker (k : Checker) : checkers (checker k) = 1 := rfl

theorem sum_map_eq {α : Type} {f : α → Assets} (count : Assets →+ Nat) {m : Nat}
    (h : ∀ a, count (f a) = m) (l : List α) : count (l.map f).sum = l.length * m := by
  have each : count ∘ f = fun _ => m := funext h
  rw [map_list_sum, List.map_map, each, List.map_const', List.sum_replicate, smul_eq_mul]

/-- Whether there is a permit for every checker. -/
def Backed (a : Assets) : Prop := checkers a ≤ permits a

theorem Backed.sum {l : List Assets} (h : ∀ a ∈ l, a.Backed) : l.sum.Backed := by
  rw [Backed, map_list_sum, map_list_sum]
  exact List.sum_le_sum h

/-- A permit without a checker is one in the sum. -/
theorem checkers_lt_of_mem {l : List Assets} (h : ∀ a ∈ l, a.Backed) {a : Assets} (mem : a ∈ l)
    (lt : checkers a < permits a) : checkers l.sum < permits l.sum := by
  rw [map_list_sum, map_list_sum]
  exact List.sum_lt_sum _ _ h ⟨a, mem, lt⟩

theorem mem_sum_snd {l : List Assets} {a : Assets} (mem : a ∈ l) {k : Checker} (hk : k ∈ a.2) :
    k ∈ l.sum.2 := by
  induction l with
  | nil => cases mem
  | cons b l ih =>
    rw [List.sum_cons, Prod.snd_add, Multiset.mem_add]
    obtain rfl | mem := List.mem_cons.1 mem
    · exact .inl hk
    · exact .inr (ih mem)

theorem backed_stage {c : Call} (stage : Stage c) : stage.assets.Backed := by
  cases stage <;> simp [Stage.assets, Pending.assets, Backed]

theorem backed_call (peer : Nat) (call : AnyCall) : (call.assets peer).Backed := by
  unfold AnyCall.assets
  split
  · exact backed_stage _
  · exact Nat.le_refl 0

theorem backed_submission (peer leader : Nat) (s : Submission) :
    (s.assets peer leader).Backed := by
  unfold Submission.assets
  split
  · refine Backed.sum fun a mem => ?_
    obtain ⟨call, -, rfl⟩ := List.mem_map.1 mem
    exact backed_call peer call
  · exact Nat.le_refl 0

end Assets

theorem Submission.assets_eq_zero {s : Submission}
    (h : ∀ call ∈ s.progress.calls, call.2.operation.stage.assets = 0) (peer leader : Nat) :
    s.assets peer leader = 0 := by
  have none : (s.progress.calls.map (AnyCall.assets peer)).sum = 0 := by
    refine List.sum_eq_zero fun a mem => ?_
    obtain ⟨call, among, rfl⟩ := List.mem_map.1 mem
    rw [AnyCall.assets, h call among, ite_self]
  rw [assets, none, ite_self]

theorem Submission.assets_call {s : Submission} {c : Call} {await : List (PeerCall c) → Progress}
    {calls : List (PeerCall c)} {i : Nat} {call : PeerCall c} (awaits : Progress.Awaits c await)
    (start : s.progress = await calls) (present : calls[i]? = some call) (peer leader : Nat) :
    ∃ rest, s.assets peer leader =
        (if peer = call.peer ∧ leader = s.leader.toNat then call.operation.stage.assets else 0) +
          rest ∧
      ∀ stage', { s with progress := await (calls.set i (call.withStage stage')) }.assets peer
          leader = (if peer = call.peer ∧ leader = s.leader.toNat then stage'.assets else 0) +
            rest := by
  have listed : (calls.map (Sigma.mk c))[i]? = some ⟨c, call⟩ := by
    rw [List.getElem?_map, present]
    rfl
  obtain ⟨rest, before, after⟩ := sum_map_set (AnyCall.assets peer) listed
  obtain rfl | ne := eq_or_ne s.leader.toNat leader
  · refine ⟨rest, ?_, fun stage' => ?_⟩
    · rw [assets, if_pos rfl, start, awaits.calls_eq, before]
      simp [AnyCall.assets, eq_comm]
    · rw [assets, if_pos rfl, awaits.calls_eq, List.map_set, after]
      simp [AnyCall.assets, PeerCall.withStage, eq_comm]
  · refine ⟨0, ?_, fun stage' => ?_⟩ <;> simp [assets, ne, ne.symm]

/-- A submission with a call that has its permit only holds more permits than checkers. -/
theorem Submission.checkers_lt_permits {s : Submission} {call : AnyCall}
    (mem : call ∈ s.progress.calls) (permitted : call.2.operation.stage.assets = .permit) :
    Assets.checkers (s.assets call.2.peer s.leader.toNat) <
      Assets.permits (s.assets call.2.peer s.leader.toNat) := by
  rw [assets, if_pos rfl]
  refine Assets.checkers_lt_of_mem (fun a among => ?_) (List.mem_map_of_mem mem) ?_
  · obtain ⟨call, -, rfl⟩ := List.mem_map.1 among
    exact Assets.backed_call _ call
  · rw [AnyCall.assets, if_pos rfl, permitted]
    exact Nat.zero_lt_one

namespace LeaderSlot

variable (s : LeaderSlot)

theorem permits_assets : Assets.permits s.assets = s.pool.permits + s.pending.length := by
  have idle := Assets.sum_map_eq Assets.permits Assets.permits_checker s.pool.idle
  have pending := Assets.sum_map_eq (f := fun entry : RequestId × Pending => entry.2.assets)
    Assets.permits (m := 1) (fun entry => by simp [Pending.assets]) s.pending
  rw [assets, map_add, map_add, map_nsmul, idle, pending]
  simp

theorem checkers_assets : Assets.checkers s.assets = s.pool.idle.length + s.pending.length := by
  have idle := Assets.sum_map_eq Assets.checkers Assets.checkers_checker s.pool.idle
  have pending := Assets.sum_map_eq (f := fun entry : RequestId × Pending => entry.2.assets)
    Assets.checkers (m := 1) (fun entry => by simp [Pending.assets]) s.pending
  rw [assets, map_add, map_add, map_nsmul, idle, pending]
  simp

section Fresh

variable {F : Field} {c : Circuit} {server leader n capacity : Nat}

theorem tidy_fresh : (fresh F c server leader n capacity).Tidy := by
  refine ⟨List.nodup_nil, fun k mem => ?_⟩
  rw [fresh, CheckerPool.ofCheckers, List.mem_reverse] at mem
  obtain rfl := List.eq_of_mem_replicate mem
  rfl

theorem assets_fresh : (fresh F c server leader n capacity).assets =
    capacity • (.permit + .checker (.new F c server leader n)) := by
  rw [nsmul_add]
  simp [assets, fresh, CheckerPool.ofCheckers]

end Fresh

section Total

variable {s} {lent : Assets} {capacity : Nat} {k : Checker}
  (total : s.assets + lent = capacity • (.permit + .checker k))

include total

theorem permits_add_permits :
    s.pool.permits + s.pending.length + Assets.permits lent = capacity := by
  have permits := congrArg Assets.permits total
  rw [map_add, permits_assets] at permits
  simpa using permits

theorem idle_add_checkers :
    s.pool.idle.length + s.pending.length + Assets.checkers lent = capacity := by
  have checkers := congrArg Assets.checkers total
  rw [map_add, checkers_assets] at checkers
  simpa using checkers

/-- A checker at rest is like one of those that there were at first. -/
theorem eq_reset_of_mem (tidy : s.Tidy) {k' : Checker} (mem : k' ∈ s.pool.idle) :
    k' = k.reset := by
  have here : k'.reset ∈ s.assets.2 := by
    have := Assets.mem_sum_snd (List.mem_map_of_mem (f := Assets.checker) mem)
      (Multiset.mem_singleton_self k'.reset)
    rw [assets, Prod.snd_add, Prod.snd_add]
    exact Multiset.mem_add.2 (.inl (Multiset.mem_add.2 (.inr this)))
  have among : k'.reset ∈ capacity • ({k.reset} : Multiset Checker) := by
    have here : k'.reset ∈ (s.assets + lent).2 := Multiset.mem_add.2 (.inl here)
    rw [total] at here
    simpa [Assets.permit, Assets.checker] using here
  rw [← tidy.rested k' mem]
  exact Multiset.mem_singleton.1 (Multiset.mem_of_mem_nsmul among)

theorem permits_le (backed : lent.Backed) : s.pool.permits ≤ s.pool.idle.length := by
  have permits := permits_add_permits total
  have checkers := idle_add_checkers total
  rw [Assets.Backed] at backed
  omega

/-- Whoever takes a permit and a checker at once finds one. -/
theorem of_acquire? (tidy : s.Tidy) (backed : lent.Backed)
    {answer : Except ServerError (Checker × CheckerPool)}
    (acquired : s.pool.acquire? = some answer) :
    ∃ pool, answer = .ok (k.reset, pool) := by
  obtain ⟨pool, taken, rfl⟩ := Option.map_eq_some_iff.1 acquired
  obtain ⟨permits, idle⟩ := CheckerPool.of_takePermit? taken
  have some : 0 < s.pool.idle.length := by
    have := permits_le total backed
    omega
  obtain ⟨k', rest, eq⟩ := List.exists_cons_of_length_pos some
  have new := eq_reset_of_mem total tidy (eq ▸ List.mem_cons_self : k' ∈ s.pool.idle)
  exact ⟨{ pool with idle := rest }, by rw [CheckerPool.takeChecker, idle, eq, new]⟩

/-- Whoever holds a permit and no checker finds one. -/
theorem takeChecker_of_lt (tidy : s.Tidy)
    (ahead : Assets.checkers lent < Assets.permits lent) :
    ∃ pool, s.pool.takeChecker = .ok (k.reset, pool) := by
  have permits := permits_add_permits total
  have checkers := idle_add_checkers total
  have some : s.pool.idle ≠ [] := by
    intro none
    rw [none, List.length_nil] at checkers
    omega
  obtain ⟨k', idle, eq⟩ := List.exists_cons_of_ne_nil some
  have new := eq_reset_of_mem total tidy (eq ▸ List.mem_cons_self : k' ∈ s.pool.idle)
  exact ⟨{ s.pool with idle }, by rw [CheckerPool.takeChecker, eq, new]⟩

end Total

end LeaderSlot

/-- A step moves assets between the submission and the slots of its leader. -/
theorem Submission.Turn.assets_eq {F : Field} {domain : CircuitDomain} {σ : Type}
    {d d' : Deployment σ} {s s' : Submission} (h : s.Turn F domain d d' s')
    (tidy : ∀ peer leader slot, slotAt? d.servers peer leader = some slot → slot.Tidy)
    {peer leader : Nat} {slot' : LeaderSlot}
    (found : slotAt? d'.servers peer leader = some slot') :
    slot'.Tidy ∧ ∃ slot, slotAt? d.servers peer leader = some slot ∧
      slot'.assets + s'.assets peer leader = slot.assets + s.assets peer leader := by
  cases h with
  | own proceeds leads =>
    rw [leads.servers_eq] at found
    refine ⟨tidy _ _ _ found, slot', found, ?_⟩
    rw [assets_eq_zero fun call mem => ?_, assets_eq_zero fun call mem => ?_]
    · obtain ⟨answer, answered⟩ := proceeds.answered call mem
      rw [answered, Stage.assets]
    · obtain ⟨_, message, fresh⟩ := proceeds.fresh call mem
      rw [fresh, PeerCall.assets_start]
  | @call c await calls i call server slot slot₁ stage' moved =>
    obtain ⟨rest, held, holds⟩ := assets_call moved.awaits moved.start moved.present peer leader
    rw [moved.slots] at found
    rw [held, holds]
    split at found
    · rename_i here
      obtain ⟨rfl, rfl⟩ := here
      obtain rfl := Option.some.inj found
      have before := tidy _ _ _ moved.found
      have kept := moved.moves.assets_eq before
      refine ⟨moved.moves.tidy before, slot, moved.found, ?_⟩
      rw [if_pos ⟨rfl, rfl⟩, if_pos ⟨rfl, rfl⟩, ← add_assoc, kept, add_assoc]
    · rename_i elsewhere
      rw [if_neg elsewhere, if_neg elsewhere]
      exact ⟨tidy _ _ _ found, slot', found, rfl⟩

namespace World

variable {σ : Type} {F : Field} {c : Circuit} {domain : CircuitDomain} {n capacity : Nat}

/-- Every pool has all it had at first, counting what pending requests and operations keep. -/
structure Stocked (F : Field) (c : Circuit) (n capacity : Nat) (w : World σ) : Prop where
  tidy : ∀ peer leader slot, slotAt? w.deployment.servers peer leader = some slot → slot.Tidy
  total : ∀ peer leader slot, slotAt? w.deployment.servers peer leader = some slot →
    slot.assets + (w.submissions.map (Submission.assets peer leader)).sum =
      capacity • (.permit + .checker (.new F c peer leader n))

section Step

variable [WordSource σ] {admits : Submission → Prop} {w w' : World σ}

theorem Stocked.of_step (stocked : w.Stocked F c n capacity) (proper : w.Proper F domain n)
    (h : Step admits w w') : w'.Stocked F c n capacity := by
  obtain ⟨-, next⟩ := proper.of_step h
  obtain ⟨d', submissions'⟩ := w'
  obtain ⟨s, start, -, rfl, rfl⟩ | ⟨i, s, s', present, rfl, turn⟩ := next
  · refine ⟨stocked.tidy, fun peer leader slot found => ?_⟩
    have empty : s.assets peer leader = 0 :=
      s.assets_eq_zero (fun call mem => by rw [start] at mem; cases mem) peer leader
    rw [List.map_append, List.sum_append, List.map_singleton, List.sum_singleton, empty, add_zero,
      stocked.total peer leader slot found]
  refine ⟨fun peer leader slot found => (turn.assets_eq stocked.tidy found).1,
    fun peer leader slot' found => ?_⟩
  obtain ⟨-, slot, there, kept⟩ := turn.assets_eq stocked.tidy found
  obtain ⟨others, before, after⟩ := sum_map_set (Submission.assets peer leader) present
  rw [after, ← stocked.total peer leader slot there, before, ← add_assoc, kept, add_assoc]

end Step

theorem stocked_start {rotation : Nat} {source : σ} {d : Deployment σ}
    (domainOk : CircuitDomain.ofCircuit F c = .ok domain)
    (h : Deployment.start F c n capacity rotation source = .ok d) :
    Stocked F c n capacity ⟨d, []⟩ := by
  refine ⟨fun peer leader slot found => ?_, fun peer leader slot found => ?_⟩
  · obtain rfl := eq_fresh_of_start domainOk h found
    exact LeaderSlot.tidy_fresh
  · obtain rfl := eq_fresh_of_start domainOk h found
    simp [LeaderSlot.assets_fresh]

section Use

variable {w : World σ} {peer leader : Nat} {slot : LeaderSlot}

theorem backed_submissions (w : World σ) (peer leader : Nat) :
    ∀ a ∈ w.submissions.map (Submission.assets peer leader), a.Backed := by
  intro a mem
  obtain ⟨s, -, rfl⟩ := List.mem_map.1 mem
  exact Assets.backed_submission peer leader s

/-- A permit promises a checker. -/
theorem Stocked.takeChecker (stocked : w.Stocked F c n capacity)
    (found : slotAt? w.deployment.servers peer leader = some slot) {s : Submission}
    (mem : s ∈ w.submissions)
    (ahead : Assets.checkers (s.assets peer leader) < Assets.permits (s.assets peer leader)) :
    ∃ pool, slot.pool.takeChecker = .ok (.new F c peer leader n, pool) :=
  LeaderSlot.takeChecker_of_lt (stocked.total peer leader slot found)
    (stocked.tidy peer leader slot found)
    (Assets.checkers_lt_of_mem (w.backed_submissions peer leader) (List.mem_map_of_mem mem) ahead)

/-- Whoever takes a permit and a checker at once is given a new one. -/
theorem Stocked.acquire? (stocked : w.Stocked F c n capacity)
    (found : slotAt? w.deployment.servers peer leader = some slot)
    {answer : Except ServerError (Checker × CheckerPool)}
    (acquired : slot.pool.acquire? = some answer) :
    ∃ pool, answer = .ok (.new F c peer leader n, pool) :=
  LeaderSlot.of_acquire? (stocked.total peer leader slot found)
    (stocked.tidy peer leader slot found)
    (Assets.Backed.sum (w.backed_submissions peer leader)) acquired

/-- While nothing is held, all that is not free is pending. -/
theorem Stocked.permits_add (stocked : w.Stocked F c n capacity)
    (found : slotAt? w.deployment.servers peer leader = some slot)
    (none : ∀ s ∈ w.submissions, s.assets peer leader = 0) :
    slot.pool.permits + slot.pending.length = capacity := by
  have total := LeaderSlot.permits_add_permits (stocked.total peer leader slot found)
  rw [List.sum_eq_zero, map_zero, add_zero] at total
  · exact total
  · intro a mem
    obtain ⟨s, among, rfl⟩ := List.mem_map.1 mem
    exact none s among

end Use

end World

end PrivateSums
