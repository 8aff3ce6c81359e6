import Mathlib.Data.List.GetD
import PrivateSums.Proofs.Answer
import PrivateSums.Proofs.Circuit.Wires

/-!
What evaluation and derivation put on the wires. The true wires satisfy all equations of a circuit,
and those derived from shares satisfy the linear ones with the shares in their places.
-/

namespace PrivateSums.Circuit

variable {F : Field} {k : Bool}

/-- The value that derivation puts on the wire of its next gate. -/
def taken (F : Field) (k : Bool) (inputs products : List Nat) (wires : Wires) : Gate → Nat
  | .input => inputs.headD 0
  | .mul .. => products.headD 0
  | gate => (gate.derive? F k wires).getD 0

theorem deriveGates_cons (gate : Gate) (gates : List Gate) (inputs products : List Nat)
    (wires : Wires) : deriveGates F k (gate :: gates) inputs products wires =
      deriveGates F k gates (if gate.isInput then inputs.tail else inputs)
        (if gate.isMul then products.tail else products)
        (wires.push (taken F k inputs products wires gate)) := by
  cases gate <;> rfl

theorem size_deriveGates (gates : List Gate) (inputs products : List Nat) (wires : Wires) :
    (deriveGates F k gates inputs products wires).size = wires.size + gates.length := by
  induction gates generalizing inputs products wires with
  | nil => rfl
  | cons gate gates ih =>
    rw [deriveGates_cons, ih, Array.size_push, List.length_cons]
    omega

theorem at_deriveGates_of_lt (gates : List Gate) (inputs products : List Nat) {wires : Wires}
    {i : Nat} (h : i < wires.size) :
    (deriveGates F k gates inputs products wires).at i = wires.at i := by
  induction gates generalizing inputs products wires with
  | nil => rfl
  | cons gate gates ih =>
    rw [deriveGates_cons, ih _ _ (by rw [Array.size_push]; omega), Wires.at_push_of_lt h]

/-- The next gate's wire keeps the value that it is given. -/
theorem at_deriveGates_size (gate : Gate) (gates : List Gate) (inputs products : List Nat)
    (wires : Wires) : (deriveGates F k (gate :: gates) inputs products wires).at wires.size =
      taken F k inputs products wires gate := by
  rw [deriveGates_cons, at_deriveGates_of_lt _ _ _ (by rw [Array.size_push]; omega),
    Wires.at_push_size]

/-- The constant one, on the one server that adds constants. -/
def one (F : Field) (addsConstants : Bool) : F.Residue := if addsConstants then 1 else 0

/-- One server of all adds constants. -/
theorem sum_one {n leader : Nat} (lt : leader < n) :
    ((List.range n).map fun server => one F (server == leader)).sum = 1 := by
  change ∑ server ∈ Finset.range n, one F (server == leader) = 1
  rw [Finset.sum_eq_single_of_mem leader (Finset.mem_range.2 lt)]
  · simp [one]
  · intro server _ ne
    simp [one, ne]

theorem derives_deriveGates (gates : List Gate) (inputs products : List Nat) (wires : Wires)
    {j : Nat} {gate : Gate} (found : gates[j]? = some gate)
    (parents : ∀ p ∈ gate.parents, p < wires.size + j) :
    gate.Derives F (one F k) ((deriveGates F k gates inputs products wires).residue F)
      (wires.size + j) := by
  induction gates generalizing inputs products wires j with
  | nil => simp at found
  | cons first gates ih =>
    cases j with
    | succ j =>
      rw [deriveGates_cons]
      have next : wires.size + (j + 1) =
          (wires.push (taken F k inputs products wires first)).size + j := by
        rw [Array.size_push]
        omega
      rw [next] at parents ⊢
      exact ih _ _ _ (by simpa using found) parents
    | zero =>
      obtain rfl : first = gate := by simpa using found
      have value := at_deriveGates_size (F := F) (k := k) first gates inputs products wires
      have before (p : Nat) (hp : p ∈ first.parents) := at_deriveGates_of_lt (F := F) (k := k)
        (first :: gates) inputs products (parents p hp)
      cases first with
      | input => trivial
      | mul => trivial
      | add left right =>
        simp only [Gate.Derives, Wires.residue, Nat.add_zero, value, taken, Gate.derive?,
          Option.getD_some, F.cast_add, before left (by simp [Gate.parents]),
          before right (by simp [Gate.parents])]
      | addConst parent constant =>
        simp only [Gate.Derives, Wires.residue, Nat.add_zero, value, taken, Gate.derive?,
          Option.getD_some, before parent (by simp [Gate.parents]), one]
        cases k <;> simp
      | mulConst parent constant =>
        simp only [Gate.Derives, Wires.residue, Nat.add_zero, value, taken, Gate.derive?,
          Option.getD_some, F.cast_mul, before parent (by simp [Gate.parents])]

/-- Inputs and products keep the values that they are given, in gate order. -/
theorem positions_deriveGates {gates : List Gate} {inputs products : List Nat}
    (lengthI : inputs.length = gates.countP Gate.isInput)
    (lengthP : products.length = gates.countP Gate.isMul) (wires : Wires) :
    ((gates.zipIdx wires.size).filter (Gate.isInput ·.1)).map
        (fun gate => (deriveGates F k gates inputs products wires).at gate.2) = inputs ∧
      ((gates.zipIdx wires.size).filter (Gate.isMul ·.1)).map
        (fun gate => (deriveGates F k gates inputs products wires).at gate.2) = products := by
  induction gates generalizing inputs products wires with
  | nil => simp_all
  | cons gate gates ih =>
    have value := at_deriveGates_size (F := F) (k := k) gate gates inputs products wires
    have next : wires.size + 1 = (wires.push (taken F k inputs products wires gate)).size :=
      Array.size_push .. |>.symm
    rw [List.countP_cons] at lengthI lengthP
    rw [List.zipIdx_cons, List.filter_cons, List.filter_cons, deriveGates_cons, next]
    rw [deriveGates_cons] at value
    cases gate with
    | input =>
      obtain ⟨v, inputs, rfl⟩ := List.exists_cons_of_length_eq_add_one lengthI
      obtain ⟨restI, restP⟩ := ih (Nat.succ.inj lengthI) lengthP _
      exact ⟨congrArg₂ _ value restI, restP⟩
    | mul =>
      obtain ⟨v, products, rfl⟩ := List.exists_cons_of_length_eq_add_one lengthP
      obtain ⟨restI, restP⟩ := ih lengthI (Nat.succ.inj lengthP) _
      exact ⟨restI, congrArg₂ _ value restP⟩
    | _ => exact ih lengthI lengthP _

variable {c : Circuit}

theorem size_wiresOfShares (shares : List Nat) :
    (c.wiresOfShares F k shares).size = c.size := by
  rw [wiresOfShares, size_deriveGates]
  simp [size]

theorem linear_wiresOfShares (wf : c.WellFormed) (shares : List Nat) :
    c.Linear F (one F k) ((c.wiresOfShares F k shares).residue F) := by
  intro i gate found
  have derives := derives_deriveGates (F := F) (k := k) c.gates.toList (shares.take c.numInputs)
    (shares.drop c.numInputs) #[] (j := i) (by rwa [Array.getElem?_toList])
    (by simpa using wf.parents_lt i gate found)
  simpa [wiresOfShares] using derives

theorem numShared_eq (c : Circuit) : c.numShared = c.numInputs + c.numMuls := by
  rw [numShared, numInputs, numMuls, ← Array.countP_toList, ← Array.countP_toList,
    ← Array.countP_toList]
  induction c.gates.toList with
  | nil => rfl
  | cons gate gates ih =>
    simp only [List.countP_cons, ih]
    cases gate <;> simp [Gate.isShared, Gate.isInput, Gate.isMul, Gate.operands?] <;> omega

theorem length_inputGates (c : Circuit) : c.inputGates.length = c.numInputs := by
  rw [inputGates, Circuit.positions, List.length_map, ← List.countP_eq_length_filter, numInputs,
    ← Array.countP_toList]
  change List.countP (Gate.isInput ∘ Prod.fst) _ = _
  rw [← List.countP_map, List.zipIdx_map_fst]

theorem length_sharedGates (c : Circuit) : c.sharedGates.length = c.numShared := by
  rw [sharedGates, List.length_append, c.length_inputGates, c.length_mulGates, numShared_eq]

/-- Shares are on the wires that they are the shares of. -/
theorem shared_wiresOfShares {shares : List Nat} (length : shares.length = c.numShared) :
    c.sharedGates.map (c.wiresOfShares F k shares).at = shares := by
  rw [numShared_eq] at length
  have lengthI : (shares.take c.numInputs).length = c.gates.toList.countP Gate.isInput := by
    rw [Array.countP_toList, List.length_take, ← numInputs]
    omega
  have lengthP : (shares.drop c.numInputs).length = c.gates.toList.countP Gate.isMul := by
    rw [Array.countP_toList, List.length_drop, ← numMuls]
    omega
  obtain ⟨inputs, products⟩ := positions_deriveGates (F := F) (k := k) lengthI lengthP #[]
  rw [sharedGates, inputGates, mulGates, positions, positions, List.map_append, List.map_map,
    List.map_map]
  exact (congrArg₂ _ inputs products).trans (List.take_append_drop ..)

/-- Evaluation is the derivation that is given the true products. -/
theorem exists_products (gates : List Gate) (inputs : List Nat) (wires : Wires) :
    ∃ products : List Nat, products.length = gates.countP Gate.isMul ∧
      evaluateGates F gates inputs wires =
        deriveGates F true gates (inputs.map F.reduce) products wires := by
  induction gates generalizing inputs wires with
  | nil => exact ⟨[], rfl, rfl⟩
  | cons gate gates ih =>
    cases gate with
    | input =>
      obtain ⟨products, length, eq⟩ := ih inputs.tail (wires.push (F.reduce (inputs.headD 0)))
      refine ⟨products, length, ?_⟩
      rw [evaluateGates, eq, deriveGates]
      cases inputs <;> simp [Field.reduce]
    | mul left right =>
      obtain ⟨products, length, eq⟩ :=
        ih inputs (wires.push (F.mul (wires.at left) (wires.at right)))
      refine ⟨F.mul (wires.at left) (wires.at right) :: products, ?_, eq⟩
      rw [List.length_cons, length, List.countP_cons]
      rfl
    | _ => exact ih inputs _

theorem size_evaluateGates (gates : List Gate) (inputs : List Nat) (wires : Wires) :
    (evaluateGates F gates inputs wires).size = wires.size + gates.length := by
  obtain ⟨products, -, eq⟩ := exists_products (F := F) gates inputs wires
  rw [eq, size_deriveGates]

theorem at_evaluateGates_of_lt (gates : List Gate) (inputs : List Nat) {wires : Wires} {i : Nat}
    (h : i < wires.size) : (evaluateGates F gates inputs wires).at i = wires.at i := by
  obtain ⟨products, -, eq⟩ := exists_products (F := F) gates inputs wires
  rw [eq, at_deriveGates_of_lt _ _ _ h]

/-- Evaluation gives its next gate a canonical value. -/
theorem evaluateGates_cons (gate : Gate) (gates : List Gate) (inputs : List Nat) (wires : Wires) :
    ∃ rest value, value < F.modulus ∧
      evaluateGates F (gate :: gates) inputs wires =
        evaluateGates F gates rest (wires.push value) := by
  cases gate with
  | input => exact ⟨_, _, F.reduce_lt _, rfl⟩
  | add left right => exact ⟨_, _, F.add_lt _ _, rfl⟩
  | addConst parent constant => exact ⟨_, _, F.add_lt _ _, rfl⟩
  | mul left right => exact ⟨_, _, F.mul_lt _ _, rfl⟩
  | mulConst parent constant => exact ⟨_, _, F.mul_lt _ _, rfl⟩

theorem evaluateGates_lt (gates : List Gate) (inputs : List Nat) {wires : Wires}
    (h : ∀ i, wires.at i < F.modulus) (i : Nat) :
    (evaluateGates F gates inputs wires).at i < F.modulus := by
  induction gates generalizing inputs wires with
  | nil => exact h i
  | cons gate gates ih =>
    obtain ⟨rest, value, lt, eq⟩ := evaluateGates_cons (F := F) gate gates inputs wires
    rw [eq]
    exact ih rest (Wires.push_lt h lt)

theorem products_evaluateGates (gates : List Gate) (inputs : List Nat) (wires : Wires)
    {j left right : Nat} (found : gates[j]? = some (.mul left right))
    (hl : left < wires.size + j) (hr : right < wires.size + j) :
    (evaluateGates F gates inputs wires).at (wires.size + j) =
      F.mul ((evaluateGates F gates inputs wires).at left)
        ((evaluateGates F gates inputs wires).at right) := by
  induction gates generalizing inputs wires j with
  | nil => simp at found
  | cons gate gates ih =>
    cases j with
    | zero =>
      obtain rfl : gate = .mul left right := by simpa using found
      rw [at_evaluateGates_of_lt _ _ hl, at_evaluateGates_of_lt _ _ hr, evaluateGates,
        at_evaluateGates_of_lt _ _ (by rw [Array.size_push]; omega)]
      exact Wires.at_push_size _ _
    | succ j =>
      obtain ⟨rest, value, -, eq⟩ := evaluateGates_cons (F := F) gate gates inputs wires
      have next : wires.size + (j + 1) = (wires.push value).size + j := by
        rw [Array.size_push]
        omega
      rw [eq, next]
      exact ih rest _ (by simpa using found) (next ▸ hl) (next ▸ hr)

/-- The true wires of a circuit. -/
structure Evaluated (F : Field) (c : Circuit) (inputs : List Nat) (wires : Wires) : Prop where
  size_eq : wires.size = c.size
  lt : ∀ i, wires.at i < F.modulus
  linear : c.Linear F 1 (wires.residue F)
  products : c.Products F (wires.residue F)
  inputs_eq : c.inputGates.map wires.at = inputs.map F.reduce

/-- A product's wire is the product of its factors, and zero where there is no product. -/
theorem Evaluated.getD_mulGates {inputs : List Nat} {wires : Wires}
    (h : c.Evaluated F inputs wires) (j : Nat) :
    (((c.mulGates.map wires.at).getD j 0 : Nat) : F.Residue) =
      ((c.mulOperands.map (wires.at ·.1)).getD j 0 : Nat) *
        ((c.mulOperands.map (wires.at ·.2)).getD j 0 : Nat) := by
  have length : c.mulGates.length = c.mulOperands.length := by
    rw [c.length_mulGates, c.length_mulOperands]
  obtain hj | hj := Nat.lt_or_ge j c.mulGates.length
  · have product := h.products _ _ _ (getElem_mulGates hj (length ▸ hj))
    simpa [hj, length ▸ hj, Wires.residue] using product
  · rw [List.getD_eq_default _ _ (by rwa [List.length_map]),
      List.getD_eq_default _ _ (by rwa [List.length_map, ← length])]
    simp

theorem evaluate_eq_ok_iff {inputs : List Nat} {wires : Wires} :
    c.evaluate F inputs = .ok wires ↔
      inputs.length = c.numInputs ∧ evaluateGates F c.gates.toList inputs #[] = wires := by
  by_cases h : inputs.length = c.numInputs <;> simp [evaluate, h]

theorem size_of_evaluate {inputs : List Nat} {wires : Wires}
    (h : c.evaluate F inputs = .ok wires) : wires.size = c.size := by
  obtain ⟨-, rfl⟩ := evaluate_eq_ok_iff.1 h
  rw [size_evaluateGates, Array.length_toList]
  exact Nat.zero_add _

theorem of_evaluate (wf : c.WellFormed) {inputs : List Nat} {wires : Wires}
    (h : c.evaluate F inputs = .ok wires) : c.Evaluated F inputs wires := by
  have size := size_of_evaluate h
  obtain ⟨length, rfl⟩ := evaluate_eq_ok_iff.1 h
  obtain ⟨products, lengthP, eq⟩ := exists_products (F := F) c.gates.toList inputs #[]
  have lengthI : (inputs.map F.reduce).length = c.gates.toList.countP Gate.isInput := by
    rw [List.length_map, length, Array.countP_toList, numInputs]
  refine ⟨size, evaluateGates_lt _ _ fun i => by simp [Wires.at, F.modulus_pos], ?_, ?_, ?_⟩
  · intro i gate found
    have derives := derives_deriveGates (F := F) (k := true) c.gates.toList (inputs.map F.reduce)
      products #[] (j := i) (by rwa [Array.getElem?_toList])
      (by simpa using wf.parents_lt i gate found)
    rw [← eq] at derives
    simpa [one] using derives
  · intro i left right found
    have parents := wf.parents_lt i _ found
    have product := products_evaluateGates (F := F) c.gates.toList inputs #[] (j := i)
      (by rwa [Array.getElem?_toList]) (by simpa using parents left (by simp [Gate.parents]))
      (by simpa using parents right (by simp [Gate.parents]))
    simpa [Wires.residue] using congrArg (Nat.cast : Nat → F.Residue) product
  · rw [eq, inputGates, Circuit.positions, List.map_map]
    exact (positions_deriveGates (F := F) (k := true) lengthI lengthP #[]).1

end PrivateSums.Circuit
