import PrivateSums.Proofs.Circuit.Evaluation

/-!
What wires show at the inputs, the outputs and the zero checks of a circuit. A circuit means what
all wires show that satisfy its equations, and a conjunction shows what its circuits do, one after
the other.
-/

namespace PrivateSums

/-- Values at inputs, values at named outputs, and whether all that must be zero is. -/
structure Reading (F : Field) where
  inputs : List F.Residue
  outputs : List (String × F.Residue)
  valid : Prop

namespace Reading

variable {F : Field}

instance : EmptyCollection (Reading F) := ⟨⟨[], [], True⟩⟩

instance : Append (Reading F) :=
  ⟨fun r s => ⟨r.inputs ++ s.inputs, r.outputs ++ s.outputs, r.valid ∧ s.valid⟩⟩

theorem empty_def : (∅ : Reading F) = ⟨[], [], True⟩ := rfl

theorem append_def (r s : Reading F) :
    r ++ s = ⟨r.inputs ++ s.inputs, r.outputs ++ s.outputs, r.valid ∧ s.valid⟩ := rfl

@[simp] theorem empty_append (r : Reading F) : ∅ ++ r = r := by simp [append_def, empty_def]

@[simp] theorem append_empty (r : Reading F) : r ++ ∅ = r := by simp [append_def, empty_def]

theorem append_assoc (r s t : Reading F) : r ++ s ++ t = r ++ (s ++ t) := by
  simp [append_def, and_assoc]

/-- One reading after the other. -/
def all (rs : List (Reading F)) : Reading F := rs.foldr (· ++ ·) ∅

@[simp] theorem all_nil : all ([] : List (Reading F)) = ∅ := rfl

@[simp] theorem all_cons (r : Reading F) (rs : List (Reading F)) :
    all (r :: rs) = r ++ all rs := rfl

end Reading

namespace Gate

theorem shift_zero : shift 0 = id := by
  funext gate
  cases gate <;> rfl

theorem shift_shift (gate : Gate) (m n : Nat) : (gate.shift m).shift n = gate.shift (m + n) := by
  cases gate <;> simp [shift, Nat.add_assoc]

theorem isInput_shift (gate : Gate) (n : Nat) : (gate.shift n).isInput = gate.isInput := by
  cases gate <;> rfl

/-- The equation of any gate but an input. -/
def Holds (F : Field) (W : Nat → F.Residue) (id : Nat) : Gate → Prop
  | mul left right => W id = W left * W right
  | gate => gate.Derives F 1 W id

theorem holds_shift {F : Field} {W : Nat → F.Residue} {gate : Gate} {id n : Nat} :
    (gate.shift n).Holds F W (id + n) ↔ gate.Holds F (fun i => W (i + n)) id := by
  cases gate <;> exact Iff.rfl

end Gate

namespace Circuit

variable {F : Field} {c d e : Circuit}

section Monoid

theorem and_assoc : (c.and d).and e = c.and (d.and e) := by
  simp [Circuit.and, size, Function.comp_def, Gate.shift_shift, Nat.add_comm, Nat.add_left_comm]

theorem empty_and : empty.and c = c := by
  simp [Circuit.and, empty, size, Gate.shift_zero]

theorem and_empty : c.and empty = c := by simp [Circuit.and, empty]

theorem andAll_cons (c : Circuit) (cs : List Circuit) :
    andAll (c :: cs) = c.and (andAll cs) := by
  have after (cs : List Circuit) (d : Circuit) : cs.foldl Circuit.and d = d.and (andAll cs) := by
    induction cs generalizing d with
    | nil => exact and_empty.symm
    | cons e cs ih =>
      change cs.foldl Circuit.and (d.and e) = d.and (cs.foldl Circuit.and (empty.and e))
      rw [empty_and, ih, ih e, and_assoc]
  rw [andAll, List.foldl_cons, empty_and, after]

end Monoid

/-- Wires that satisfy all equations of a circuit. -/
def Satisfied (F : Field) (c : Circuit) (W : Nat → F.Residue) : Prop :=
  ∀ (i : Nat) (gate : Gate), c.gates[i]? = some gate → gate.Holds F W i

theorem satisfied_of_evaluate {inputs : List Nat} {wires : Wires}
    (h : c.Evaluated F inputs wires) : c.Satisfied F (wires.residue F) := by
  intro i gate found
  cases gate with
  | mul left right => exact h.products i left right found
  | _ => exact h.linear i _ found

theorem exists_satisfied (F : Field) (wf : c.WellFormed) : ∃ W, c.Satisfied F W := by
  have length : (List.replicate c.numInputs 0).length = c.numInputs := List.length_replicate
  exact ⟨_, satisfied_of_evaluate (of_evaluate wf (evaluate_eq_ok_iff.2 ⟨length, rfl⟩))⟩

theorem satisfied_and {W : Nat → F.Residue} (h : (c.and d).Satisfied F W) :
    c.Satisfied F W ∧ d.Satisfied F fun i => W (i + c.size) := by
  refine ⟨fun i gate found => h i gate ?_, fun i gate found => Gate.holds_shift.1 (h _ _ ?_)⟩
  · rw [Circuit.and, Array.getElem?_append_left (Array.getElem?_eq_some_iff.1 found).1, found]
  · simp [Circuit.and, size, Array.getElem?_append, found]

theorem inputGates_and : (c.and d).inputGates = c.inputGates ++ d.inputGates.map (· + c.size) := by
  have shifted (gates : List Gate) (k : Nat) :
      (((gates.map (Gate.shift c.size)).zipIdx (k + c.size)).filter (Gate.isInput ·.1)).map (·.2) =
        ((gates.zipIdx k).filter (Gate.isInput ·.1)).map (·.2 + c.size) := by
    induction gates generalizing k with
    | nil => rfl
    | cons gate gates ih =>
      have next := ih (k + 1)
      rw [Nat.add_right_comm] at next
      simp only [List.map_cons, List.zipIdx_cons, List.filter_cons, Gate.isInput_shift]
      split <;> simp [next]
  have := shifted d.gates.toList 0
  simp only [Nat.zero_add, size] at this
  simp [inputGates, positions, Circuit.and, List.zipIdx_append, this, size, Function.comp_def]

def reading (F : Field) (c : Circuit) (W : Nat → F.Residue) : Reading F where
  inputs := c.inputGates.map W
  outputs := c.outputs.toList.map fun o => (o.name, W o.gate)
  valid := ∀ z ∈ c.zeroChecks, W z = 0

theorem reading_empty (W : Nat → F.Residue) : empty.reading F W = ∅ := by
  simp [reading, empty, inputGates, positions, Reading.empty_def]

theorem reading_and (W : Nat → F.Residue) :
    (c.and d).reading F W = c.reading F W ++ d.reading F fun i => W (i + c.size) := by
  rw [Reading.append_def, reading, inputGates_and, List.map_append, List.map_map]
  simp [reading, Circuit.and, or_imp, forall_and, Function.comp_def]

/-- A circuit of which all wires that satisfy it show what `P` says. -/
structure Means (F : Field) (c : Circuit) (P : Reading F → Prop) : Prop where
  wellFormed : c.WellFormed
  reads : ∀ W, c.Satisfied F W → P (c.reading F W)

theorem means_andAll {α : Type} {P : α → Reading F → Prop} {cs : List Circuit} {as : List α}
    (h : List.Forall₂ (fun c a => c.Means F (P a)) cs as) :
    (andAll cs).Means F fun r => ∃ rs, List.Forall₂ P as rs ∧ r = .all rs := by
  induction h with
  | nil => exact ⟨.empty, fun W _ => ⟨[], .nil, reading_empty W⟩⟩
  | cons first _ ih =>
    rw [andAll_cons]
    refine ⟨first.wellFormed.and ih.wellFormed, fun W satisfied => ?_⟩
    obtain ⟨left, right⟩ := satisfied_and satisfied
    obtain ⟨rs, reads, eq⟩ := ih.reads _ right
    exact ⟨_ :: rs, .cons (first.reads W left) reads, by rw [reading_and, eq, Reading.all_cons]⟩

/-- What evaluation puts on the wires is a reading with the inputs that were given. -/
theorem Evaluated.reading_eq {inputs : List Nat} {wires : Wires} (h : c.Evaluated F inputs wires) :
    (c.reading F (wires.residue F)).inputs = inputs.map Nat.cast ∧
      (c.accepts wires ↔ (c.reading F (wires.residue F)).valid) ∧
      c.namedOutputs wires =
        (c.reading F (wires.residue F)).outputs.map fun o => (o.1, o.2.val) := by
  refine ⟨?_, ?_, ?_⟩
  · have eq := congrArg (List.map (Nat.cast : Nat → F.Residue)) h.inputs_eq
    rw [List.map_map, List.map_map] at eq
    exact eq.trans (List.map_congr_left fun v _ => F.cast_reduce v)
  · rw [accepts, Array.all_eq_true_iff_forall_mem]
    refine forall₂_congr fun z _ => ?_
    rw [beq_iff_eq]
    exact (F.cast_eq_zero (h.lt z)).symm
  · rw [namedOutputs, reading, List.map_map]
    refine List.map_congr_left fun o _ => ?_
    exact congrArg (Prod.mk o.name) (F.val_cast (h.lt o.gate)).symm

/-- A circuit that is given as many inputs as it takes shows one of its readings, with these
inputs. -/
theorem Means.evaluate {P : Reading F → Prop} (h : c.Means F P) {inputs : List Nat}
    (length : inputs.length = c.numInputs) :
    ∃ (wires : Wires) (r : Reading F), c.evaluate F inputs = .ok wires ∧ P r ∧
      r.inputs = inputs.map Nat.cast ∧ (c.accepts wires ↔ r.valid) ∧
      c.namedOutputs wires = r.outputs.map fun o => (o.1, o.2.val) := by
  obtain ⟨wires, ok⟩ : ∃ wires, c.evaluate F inputs = .ok wires :=
    ⟨_, evaluate_eq_ok_iff.2 ⟨length, rfl⟩⟩
  have evaluated := of_evaluate h.wellFormed ok
  exact ⟨wires, c.reading F (wires.residue F), ok, h.reads _ (satisfied_of_evaluate evaluated),
    evaluated.reading_eq⟩

/-- The number of inputs of a circuit is that of all its readings. -/
theorem Means.numInputs_eq {P : Reading F → Prop} (h : c.Means F P) {n : Nat}
    (length : ∀ r, P r → r.inputs.length = n) : c.numInputs = n := by
  obtain ⟨W, satisfied⟩ := exists_satisfied F h.wellFormed
  rw [← length _ (h.reads W satisfied), ← length_inputGates]
  exact (List.length_map W).symm

end Circuit

end PrivateSums
