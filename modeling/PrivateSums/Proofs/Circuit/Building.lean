import PrivateSums.Proofs.Circuit.Reading

/-!
What builder operations add to a circuit, as what wires show of it. An operation is specified from
any circuit that has the gates it names, and a chain of operations shows what they do in turn.
-/

namespace PrivateSums

namespace Circuit

variable {F : Field} {c d e : Circuit}

/-- The gates and outputs of `d` are those of `c` and perhaps more. -/
structure Grows (c d : Circuit) : Prop where
  gates : ∃ more, d.gates = c.gates ++ more
  outputs : ∃ more, d.outputs = c.outputs ++ more

theorem Grows.refl (c : Circuit) : c.Grows c := ⟨⟨#[], by simp⟩, ⟨#[], by simp⟩⟩

theorem Grows.trans (h : c.Grows d) (h' : d.Grows e) : c.Grows e := by
  obtain ⟨gates, eq⟩ := h.gates
  obtain ⟨gates', eq'⟩ := h'.gates
  obtain ⟨outputs, out⟩ := h.outputs
  obtain ⟨outputs', out'⟩ := h'.outputs
  exact ⟨⟨gates ++ gates', by rw [eq', eq, Array.append_assoc]⟩,
    ⟨outputs ++ outputs', by rw [out', out, Array.append_assoc]⟩⟩

theorem Grows.size_le (h : c.Grows d) : c.size ≤ d.size := by
  obtain ⟨more, eq⟩ := h.gates
  simp [size, eq]

theorem Grows.satisfied (h : c.Grows d) {W : Nat → F.Residue} (satisfied : d.Satisfied F W) :
    c.Satisfied F W := by
  obtain ⟨more, eq⟩ := h.gates
  intro i gate found
  apply satisfied i gate
  rw [eq, Array.getElem?_append_left (Array.getElem?_eq_some_iff.1 found).1, found]

theorem grows_push (c : Circuit) (gate : Gate) :
    c.Grows { c with gates := c.gates.push gate } := ⟨⟨#[gate], by simp⟩, ⟨#[], by simp⟩⟩

/-- An input is read after those before it, and no other gate is read. -/
theorem reading_push (c : Circuit) (gate : Gate) (W : Nat → F.Residue) :
    { c with gates := c.gates.push gate : Circuit }.reading F W =
      c.reading F W ++ if gate.isInput then ⟨[W c.size], [], True⟩ else ∅ := by
  cases input : gate.isInput <;>
    simp [reading, inputGates, positions, List.zipIdx_append, input, size, Reading.append_def,
      Reading.empty_def]

end Circuit

namespace Builder

/-- The gates that an answer names. -/
class Naming (α : Type) where
  named : α → List Nat

export Naming (named)

instance : Naming Nat := ⟨fun gate => [gate]⟩

instance : Naming Unit := ⟨fun _ => []⟩

instance {α : Type} [Naming α] : Naming (List α) := ⟨fun as => as.flatMap named⟩

@[simp] theorem forall_named {gate n : Nat} : (∀ g ∈ named gate, g < n) ↔ gate < n := by
  simp [named]

@[simp] theorem forall_named_unit {n : Nat} : ∀ g ∈ named (), g < n := by
  simp [named]

@[simp] theorem forall_named_list {gates : List Nat} {n : Nat} :
    (∀ g ∈ named gates, g < n) ↔ ∀ g ∈ gates, g < n := by
  simp [named]

variable {F : Field} {c : Circuit} {α β : Type}

theorem forall_named_cons [Naming α] {a : α} {as : List α} {n : Nat} :
    (∀ g ∈ named (a :: as), g < n) ↔ (∀ g ∈ named a, g < n) ∧ ∀ g ∈ named as, g < n := by
  simp [named, or_imp, forall_and]

section Rules

variable [Naming α] [Naming β]

/-- A circuit that came of `c` with the answer `a`, and what wires show in addition. -/
structure Outcome (F : Field) (c : Circuit) (R : α → (Nat → F.Residue) → Reading F → Prop) (a : α)
    (d : Circuit) : Prop where
  wellFormed : d.WellFormed
  grows : c.Grows d
  named_lt : ∀ g ∈ named a, g < d.size
  reads : ∀ W, d.Satisfied F W → ∃ r, d.reading F W = c.reading F W ++ r ∧ R a W r

/-- The operation succeeds on `c`, and whatever wires satisfy the new circuit show `r` in addition
with `R`. -/
def Yields (F : Field) (c : Circuit) (b : Builder α)
    (R : α → (Nat → F.Residue) → Reading F → Prop) : Prop :=
  c.WellFormed → ∃ (a : α) (d : Circuit), b.run.run c = (.ok a, d) ∧ Outcome F c R a d

variable {R : α → (Nat → F.Residue) → Reading F → Prop}

theorem yields_pure {a : α} (lt : ∀ g ∈ named a, g < c.size) (h : ∀ W, R a W ∅) :
    Yields F c (pure a) R := by
  intro wf
  refine ⟨a, c, rfl, wf, .refl c, lt, ?_⟩
  intro W _
  exact ⟨∅, (Reading.append_empty _).symm, h W⟩

theorem Yields.mono {b : Builder α} {S : α → (Nat → F.Residue) → Reading F → Prop}
    (h : Yields F c b R) (weaken : ∀ a W r, R a W r → S a W r) : Yields F c b S := by
  intro wf
  obtain ⟨a, d, run, outcome⟩ := h wf
  refine ⟨a, d, run, outcome.wellFormed, outcome.grows, outcome.named_lt, fun W satisfied => ?_⟩
  obtain ⟨r, eq, reads⟩ := outcome.reads W satisfied
  exact ⟨r, eq, weaken a W r reads⟩

/-- What an operation that succeeds came to. -/
theorem Yields.outcome {b : Builder α} (h : Yields F c b R) (wf : c.WellFormed) {a : α}
    {d : Circuit} (run : b.run.run c = (.ok a, d)) : Outcome F c R a d := by
  obtain ⟨a', d', run', outcome⟩ := h wf
  rw [run] at run'
  cases run'
  exact outcome

/-- The second operation may name the gates of the first answer, and rely on what is known of this
answer whatever the wires. -/
theorem Yields.bind {b : Builder α} {f : α → Builder β}
    {S : β → (Nat → F.Residue) → Reading F → Prop} (h : Yields F c b R)
    (next : ∀ (a : α) (d : Circuit), c.size ≤ d.size → (∀ g ∈ named a, g < d.size) →
      (∃ W s, R a W s) → Yields F d (f a) fun z W r => ∀ s, R a W s → S z W (s ++ r)) :
    Yields F c (b >>= f) S := by
  intro wf
  obtain ⟨a, d, run, first⟩ := h wf
  -- Some wires satisfy the circuit, and what `R` says of the answer alone holds for all.
  have known : ∃ W s, R a W s := by
    obtain ⟨W, satisfied⟩ := Circuit.exists_satisfied F first.wellFormed
    obtain ⟨s, -, reads⟩ := first.reads W satisfied
    exact ⟨W, s, reads⟩
  obtain ⟨z, e, run', second⟩ :=
    next a d first.grows.size_le first.named_lt known first.wellFormed
  refine ⟨z, e, ?_, second.wellFormed, first.grows.trans second.grows, second.named_lt,
    fun W satisfied => ?_⟩
  · rw [Answer.bind_run, run]
    exact run'
  · obtain ⟨s, eq, reads⟩ := first.reads W (second.grows.satisfied satisfied)
    obtain ⟨r, eq', reads'⟩ := second.reads W satisfied
    exact ⟨s ++ r, by rw [eq', eq, Reading.append_assoc], reads' s reads⟩

end Rules

theorem push_run_of_lt {gate : Gate} (parents : ∀ p ∈ gate.parents, p < c.size) :
    (push gate).run.run c = (.ok c.size, { c with gates := c.gates.push gate }) := by
  have preceding : gate.parents.find? (c.size ≤ ·) = none :=
    List.find?_eq_none.2 fun p hp => by simpa using parents p hp
  rw [push_run, preceding]

theorem push_run_eq_ok {gate : Gate} {id : Nat} {d : Circuit}
    (h : (push gate).run.run c = (.ok id, d)) :
    (∀ p ∈ gate.parents, p < c.size) ∧ d.size = c.size + 1 := by
  rw [push_run] at h
  cases found : gate.parents.find? (c.size ≤ ·) with
  | some parent =>
    rw [found] at h
    cases h
  | none =>
    rw [found] at h
    cases h
    exact ⟨fun p hp => by simpa using List.find?_eq_none.1 found p hp, by simp [Circuit.size]⟩

theorem yields_push {gate : Gate} (parents : ∀ p ∈ gate.parents, p < c.size) :
    Yields F c (push gate) fun id W r => id = c.size ∧
      gate.Holds F W id ∧ r = if gate.isInput then ⟨[W id], [], True⟩ else ∅ := by
  intro wf
  refine ⟨c.size, _, push_run_of_lt parents, wf.push gate parents, c.grows_push gate, ?_, ?_⟩
  · rw [forall_named, Circuit.size, Circuit.size, Array.size_push]
    omega
  · intro W satisfied
    refine ⟨_, c.reading_push gate W, rfl, satisfied c.size gate ?_, rfl⟩
    simp [Circuit.size]

theorem yields_input : Yields F c input fun id W r => r = ⟨[W id], [], True⟩ :=
  (yields_push (by simp [Gate.parents])).mono fun _ _ _ h => h.2.2

theorem yields_derived_at {gate : Gate} (parents : ∀ p ∈ gate.parents, p < c.size)
    (derived : gate.isInput = false) :
    Yields F c (push gate) fun id W r => id = c.size ∧ gate.Holds F W id ∧ r = ∅ :=
  (yields_push parents).mono fun id W r h => by rwa [derived] at h

theorem yields_derived {gate : Gate} (parents : ∀ p ∈ gate.parents, p < c.size)
    (derived : gate.isInput = false) :
    Yields F c (push gate) fun id W r => gate.Holds F W id ∧ r = ∅ :=
  (yields_derived_at parents derived).mono fun _ _ _ h => h.2

theorem requireGate_bind_run {gate : Nat} (lt : gate < c.size) (f : Unit → Builder α) :
    (requireGate gate >>= f).run.run c = (f ()).run.run c := by
  rw [Answer.bind_run, requireGate_run, if_neg (by omega)]

theorem yields_assertZero {gate : Nat} (lt : gate < c.size) :
    Yields F c (assertZero gate) fun _ W r => r = ⟨[], [], W gate = 0⟩ := by
  intro wf
  have grows : c.Grows { c with zeroChecks := c.zeroChecks.push gate } :=
    ⟨⟨#[], by simp⟩, ⟨#[], by simp⟩⟩
  refine ⟨(), _, requireGate_bind_run lt _, wf.assertZero lt, grows, forall_named_unit, ?_⟩
  intro W _
  refine ⟨_, ?_, rfl⟩
  simp [Circuit.reading, Circuit.inputGates, Circuit.positions, Reading.append_def, or_imp,
    forall_and]

theorem yields_output {gate : Nat} (lt : gate < c.size) (name : String) :
    Yields F c (output gate name) fun _ W r => r = ⟨[], [(name, W gate)], True⟩ := by
  intro wf
  have grows : c.Grows { c with outputs := c.outputs.push ⟨gate, name⟩ } :=
    ⟨⟨#[], by simp⟩, ⟨#[_], rfl⟩⟩
  refine ⟨(), _, requireGate_bind_run lt _, wf.output lt, grows, forall_named_unit, ?_⟩
  intro W _
  refine ⟨_, ?_, rfl⟩
  simp [Circuit.reading, Circuit.inputGates, Circuit.positions, Reading.append_def]

/-- An operation for each element shows what each shows. -/
theorem yields_mapM [Naming β] {f : α → Builder β} {as : List α}
    {R : α → β → (Nat → F.Residue) → Reading F → Prop}
    (each : ∀ a ∈ as, ∀ d : Circuit, c.size ≤ d.size → Yields F d (f a) (R a)) :
    Yields F c (as.mapM f) fun bs W r => ∃ steps : List (β × Reading F),
      List.Forall₂ (fun a step => R a step.1 W step.2) as steps ∧
        bs = steps.map (·.1) ∧ r = .all (steps.map (·.2)) := by
  induction as generalizing c with
  | nil => exact yields_pure (by simp [named]) fun W => ⟨[], .nil, rfl, rfl⟩
  | cons a as ih =>
    rw [List.mapM_cons]
    refine (each a List.mem_cons_self c le_rfl).bind fun b d le lt _ => ?_
    have rest := ih fun a' mem e le' => each a' (List.mem_cons_of_mem a mem) e (le.trans le')
    refine rest.bind fun bs e le' lt' _ => yields_pure ?_ fun W s shown t first => ?_
    · exact forall_named_cons.2 ⟨fun g mem => (lt g mem).trans_le le', lt'⟩
    · obtain ⟨steps, reads, rfl, rfl⟩ := shown
      exact ⟨(b, t) :: steps, .cons first reads, rfl, by simp⟩

theorem yields_forM {f : α → Builder Unit} {as : List α}
    {R : α → (Nat → F.Residue) → Reading F → Prop}
    (each : ∀ a ∈ as, ∀ d : Circuit, c.size ≤ d.size → Yields F d (f a) fun _ => R a) :
    Yields F c (as.forM f) fun _ W r => ∃ rs, List.Forall₂ (R · W ·) as rs ∧ r = .all rs := by
  induction as generalizing c with
  | nil => exact yields_pure forall_named_unit fun W => ⟨[], .nil, rfl⟩
  | cons a as ih =>
    refine (each a List.mem_cons_self c le_rfl).bind fun _ d le _ _ => ?_
    have rest := ih fun a' mem e le' => each a' (List.mem_cons_of_mem a mem) e (le.trans le')
    refine rest.mono fun _ W r shown s first => ?_
    obtain ⟨rs, reads, rfl⟩ := shown
    exact ⟨s :: rs, .cons first reads, rfl⟩

/-- What is built from nothing means what wires show of it. -/
theorem Yields.build [Naming α] {b : Builder α} {P : Reading F → Prop}
    (h : Yields F .empty b fun _ _ r => P r) : ∃ c, b.build = .ok c ∧ c.Means F P := by
  obtain ⟨a, c, run, outcome⟩ := h .empty
  refine ⟨c, by rw [Builder.build, run]; rfl, outcome.wellFormed, fun W satisfied => ?_⟩
  obtain ⟨r, eq, reads⟩ := outcome.reads W satisfied
  rwa [eq, Circuit.reading_empty, Reading.empty_append]

theorem Yields.discard [Naming α] {b : Builder α} {P : Reading F → Prop}
    (h : Yields F c b fun _ _ r => P r) : Yields F c (discard b) fun _ _ r => P r := by
  change Yields F c ((fun _ => ()) <$> b) _
  rw [← bind_pure_comp]
  refine h.bind fun _ _ _ _ _ => yields_pure forall_named_unit fun _ s shown => ?_
  rwa [Reading.append_empty]

end Builder

end PrivateSums
