import PrivateSums.Circuit.Basic
import PrivateSums.Proofs.Answer

/-!
Circuits whose references point backwards. Builder operations put together no others.
-/

namespace PrivateSums

/-- Parents precede their gates, and outputs and zero checks name gates that are there. -/
structure Circuit.WellFormed (c : Circuit) : Prop where
  parents_lt : ∀ (i : Nat) (gate : Gate), c.gates[i]? = some gate → ∀ p ∈ gate.parents, p < i
  outputs_lt : ∀ o ∈ c.outputs, o.gate < c.size
  zeroChecks_lt : ∀ z ∈ c.zeroChecks, z < c.size

namespace Circuit.WellFormed

theorem empty : Circuit.empty.WellFormed := by
  constructor <;> simp [Circuit.empty]

variable {c d : Circuit}

theorem factors_lt (h : c.WellFormed) {i left right : Nat}
    (found : c.gates[i]? = some (.mul left right)) : left < c.size ∧ right < c.size := by
  obtain ⟨here, -⟩ := Array.getElem?_eq_some_iff.1 found
  have parents := h.parents_lt i _ found
  constructor
  · exact Nat.lt_trans (parents left (by simp [Gate.parents])) here
  · exact Nat.lt_trans (parents right (by simp [Gate.parents])) here

theorem push (h : c.WellFormed) (gate : Gate) (parents : ∀ p ∈ gate.parents, p < c.size) :
    { c with gates := c.gates.push gate : Circuit }.WellFormed where
  parents_lt i g hg p hp := by
    rw [Array.getElem?_push] at hg
    split at hg
    · rename_i last
      rw [Option.some.inj hg] at parents
      exact last ▸ parents p hp
    · exact h.parents_lt i g hg p hp
  outputs_lt o ho := by
    have := h.outputs_lt o ho
    simp only [Circuit.size, Array.size_push] at this ⊢
    omega
  zeroChecks_lt z hz := by
    have := h.zeroChecks_lt z hz
    simp only [Circuit.size, Array.size_push] at this ⊢
    omega

theorem assertZero (h : c.WellFormed) {gate : Nat} (lt : gate < c.size) :
    { c with zeroChecks := c.zeroChecks.push gate : Circuit }.WellFormed where
  parents_lt := h.parents_lt
  outputs_lt := h.outputs_lt
  zeroChecks_lt z hz := by
    obtain hz | rfl := Array.mem_push.1 hz
    · exact h.zeroChecks_lt z hz
    · exact lt

theorem output (h : c.WellFormed) {o : Output} (lt : o.gate < c.size) :
    { c with outputs := c.outputs.push o : Circuit }.WellFormed where
  parents_lt := h.parents_lt
  outputs_lt o' ho := by
    obtain ho | rfl := Array.mem_push.1 ho
    · exact h.outputs_lt o' ho
    · exact lt
  zeroChecks_lt := h.zeroChecks_lt

theorem mem_parents_shift {offset p : Nat} {gate : Gate} (h : p ∈ (gate.shift offset).parents) :
    ∃ q ∈ gate.parents, p = q + offset := by
  cases gate <;> simp_all [Gate.shift, Gate.parents]

theorem and (hc : c.WellFormed) (hd : d.WellFormed) : (c.and d).WellFormed where
  parents_lt i gate hg p hp := by
    rw [Circuit.and, Array.getElem?_append] at hg
    split at hg
    · exact hc.parents_lt i gate hg p hp
    · rename_i ge
      rw [Array.getElem?_map, Option.map_eq_some_iff] at hg
      obtain ⟨g, hg, rfl⟩ := hg
      obtain ⟨q, hq, rfl⟩ := mem_parents_shift hp
      have := hd.parents_lt _ g hg q hq
      simp only [Circuit.size]
      omega
  outputs_lt o ho := by
    simp only [Circuit.and, Circuit.size, Array.mem_append, Array.mem_map, Array.size_append,
      Array.size_map] at ho ⊢
    obtain ho | ⟨o, ho, rfl⟩ := ho
    · have := hc.outputs_lt o ho
      simp only [Circuit.size] at this
      omega
    · have := hd.outputs_lt o ho
      simp only [Circuit.size] at this ⊢
      omega
  zeroChecks_lt z hz := by
    simp only [Circuit.and, Circuit.size, Array.mem_append, Array.mem_map, Array.size_append,
      Array.size_map] at hz ⊢
    obtain hz | ⟨z, hz, rfl⟩ := hz
    · have := hc.zeroChecks_lt z hz
      simp only [Circuit.size] at this
      omega
    · have := hd.zeroChecks_lt z hz
      simp only [Circuit.size] at this ⊢
      omega

theorem andAll {circuits : List Circuit} (h : ∀ c ∈ circuits, c.WellFormed) :
    (Circuit.andAll circuits).WellFormed :=
  List.foldlRecOn circuits Circuit.and empty fun _ hc d hd => hc.and (h d hd)

end Circuit.WellFormed

namespace Builder

/-- An operation that leaves well-formed circuits well formed, also when it fails. -/
def Keeps {α : Type} (b : Builder α) : Prop :=
  ∀ c : Circuit, c.WellFormed → ((b.run.run c).2 : Circuit).WellFormed

variable {α β : Type}

theorem keeps_pure (a : α) : Keeps (pure a) := fun _ h => h

theorem keeps_throw (e : CircuitError) : Keeps (throw e : Builder α) := fun _ h => h

theorem keeps_bind {b : Builder α} {f : α → Builder β} (hb : Keeps b) (hf : ∀ a, Keeps (f a)) :
    Keeps (b >>= f) := by
  intro c h
  have first := hb c h
  rw [Answer.bind_run]
  split
  · rename_i a next answer
    rw [answer] at first
    exact hf a next first
  · rename_i answer
    rwa [answer] at first

theorem push_run (gate : Gate) (c : Circuit) : (push gate).run.run c =
    match gate.parents.find? (c.size ≤ ·) with
    | some parent => (.error (.unknownParent c.size parent), c)
    | none => (.ok c.size, { c with gates := c.gates.push gate }) := by
  rw [push, Answer.bind_run, Answer.get_run]
  dsimp only
  cases gate.parents.find? (c.size ≤ ·) <;> rfl

theorem keeps_push (gate : Gate) : Keeps (push gate) := by
  intro c h
  rw [push_run]
  split
  · exact h
  · rename_i found
    have parents := List.find?_eq_none.1 found
    exact h.push gate fun p hp => by simpa using parents p hp

theorem requireGate_run (gate : Nat) (c : Circuit) : (requireGate gate).run.run c =
    (if c.size ≤ gate then .error (.unknownParent c.size gate) else .ok (), c) := by
  rw [requireGate, Answer.bind_run, Answer.get_run]
  dsimp only
  split <;> rfl

/-- After a gate is required, it is there. -/
theorem keeps_requireGate_bind {gate : Nat} {f : Unit → Builder α}
    (hf : ∀ c : Circuit, c.WellFormed → gate < c.size →
      (((f ()).run.run c).2 : Circuit).WellFormed) : Keeps (requireGate gate >>= f) := by
  intro c h
  rw [Answer.bind_run, requireGate_run]
  by_cases outside : c.size ≤ gate
  · rw [if_pos outside]
    exact h
  · rw [if_neg outside]
    exact hf c h (by omega)

theorem keeps_assertZero (gate : Nat) : Keeps (assertZero gate) :=
  keeps_requireGate_bind fun _ h lt => h.assertZero lt

theorem keeps_output (gate : Nat) (name : String) : Keeps (output gate name) :=
  keeps_requireGate_bind fun _ h lt => h.output lt

end Builder

end PrivateSums
