import PrivateSums.Circuit.Evaluation
import PrivateSums.Proofs.Circuit.WellFormed
import PrivateSums.Proofs.Field.Residue

/-!
The equations between the wires of a circuit. The derived gates impose linear ones, which shares of
wires satisfy as their sums do, and products impose the rest. Together with the inputs they
determine all wires.
-/

namespace PrivateSums

namespace Wires

theorem at_push_of_lt {wires : Wires} {i : Nat} (h : i < wires.size) (v : Nat) :
    Wires.at (wires.push v) i = wires.at i := by
  simp [Wires.at, Array.getD_eq_getD_getElem?, Array.getElem?_push, h.ne]

theorem at_push_size (wires : Wires) (v : Nat) : Wires.at (wires.push v) wires.size = v := by
  simp [Wires.at, Array.getD_eq_getD_getElem?]

/-- Canonical wires stay so when a canonical value is added. -/
theorem push_lt {F : Field} {wires : Wires} (h : ∀ i, wires.at i < F.modulus) {v : Nat}
    (lt : v < F.modulus) (i : Nat) : Wires.at (wires.push v) i < F.modulus := by
  obtain before | rfl | after := Nat.lt_trichotomy i wires.size
  · rw [at_push_of_lt before]
    exact h i
  · rwa [at_push_size]
  · rw [Wires.at, Array.getD_eq_getD_getElem?, Array.getElem?_eq_none]
    · exact F.modulus_pos
    · rw [Array.size_push]
      omega

/-- The residue on a gate's wire. -/
def residue (F : Field) (wires : Wires) (gate : Nat) : F.Residue := (wires.at gate : Nat)

end Wires

variable (F : Field)

/-- The equation of a derived gate, linear in the wires and the constant `one`. -/
def Gate.Derives (one : F.Residue) (W : Nat → F.Residue) (id : Nat) : Gate → Prop
  | input | mul .. => True
  | add left right => W id = W left + W right
  | addConst parent constant => W id = W parent + constant * one
  | mulConst parent constant => W id = W parent * constant

namespace Circuit

/-- Wires that satisfy the equations of all derived gates. -/
def Linear (c : Circuit) (one : F.Residue) (W : Nat → F.Residue) : Prop :=
  ∀ (i : Nat) (gate : Gate), c.gates[i]? = some gate → gate.Derives F one W i

/-- Wires that satisfy the equations of all products. -/
def Products (c : Circuit) (W : Nat → F.Residue) : Prop :=
  ∀ i left right : Nat, c.gates[i]? = some (.mul left right) → W i = W left * W right

variable {F} {c : Circuit}

theorem Linear.zero : c.Linear F 0 fun _ => 0 := by
  intro i gate _
  cases gate <;> simp [Gate.Derives]

theorem Linear.add {one one' : F.Residue} {W W' : Nat → F.Residue} (h : c.Linear F one W)
    (h' : c.Linear F one' W') : c.Linear F (one + one') fun i => W i + W' i := by
  intro i gate found
  have eq := h i gate found
  have eq' := h' i gate found
  cases gate <;> simp only [Gate.Derives] at eq eq' ⊢ <;> rw [eq, eq'] <;> ring

/-- The equations of derived gates hold of a sum when they do of every summand. -/
theorem Linear.sum {α : Type} {one : α → F.Residue} {W : α → Nat → F.Residue} {as : List α}
    (h : ∀ a ∈ as, c.Linear F (one a) (W a)) :
    c.Linear F (as.map one).sum fun i => (as.map (W · i)).sum := by
  induction as with
  | nil => exact .zero
  | cons a as ih =>
    have rest := ih fun b hb => h b (List.mem_cons_of_mem _ hb)
    simpa only [List.map_cons, List.sum_cons] using (h a List.mem_cons_self).add rest

theorem mem_inputGates {i : Nat} (h : c.gates[i]? = some .input) : i ∈ c.inputGates := by
  simp only [inputGates, positions, List.mem_map, List.mem_filter, Prod.exists, exists_eq_right]
  refine ⟨.input, List.mk_mem_zipIdx_iff_getElem?.2 ?_, rfl⟩
  rwa [Array.getElem?_toList]

theorem forall₂_mul (gates : List Gate) (n : Nat) :
    List.Forall₂ (fun (gate : Gate × Nat) (o : Nat × Nat) => gate.1 = .mul o.1 o.2)
      ((gates.zipIdx n).filter (Gate.isMul ·.1)) (gates.filterMap Gate.operands?) := by
  induction gates generalizing n with
  | nil => exact .nil
  | cons gate gates ih =>
    rw [List.zipIdx_cons, List.filter_cons]
    cases gate with
    | mul left right => exact .cons rfl (ih (n + 1))
    | _ => exact ih (n + 1)

/-- The positions of the products and their factors are listed in one order. -/
theorem forall₂_mulGates (c : Circuit) : List.Forall₂
    (fun i (o : Nat × Nat) => c.gates[i]? = some (.mul o.1 o.2)) c.mulGates c.mulOperands := by
  rw [mulGates, positions, List.forall₂_map_left_iff]
  have listed := forall₂_mul c.gates.toList 0
  have members : ∀ gate ∈ c.gates.toList.zipIdx.filter (Gate.isMul ·.1),
      c.gates[gate.2]? = some gate.1 := by
    rintro ⟨gate, i⟩ mem
    rw [← Array.getElem?_toList]
    exact List.mk_mem_zipIdx_iff_getElem?.1 (List.mem_of_mem_filter mem)
  rw [List.forall₂_iff_get] at listed ⊢
  refine ⟨listed.1, fun i hi hi' => ?_⟩
  rw [members _ (List.get_mem ..), listed.2 i hi hi']
  rfl

theorem length_mulOperands (c : Circuit) : c.mulOperands.length = c.numMuls := by
  rw [mulOperands, List.length_filterMap_eq_countP, numMuls, ← Array.countP_toList]
  rfl

theorem length_mulGates (c : Circuit) : c.mulGates.length = c.numMuls := by
  rw [c.forall₂_mulGates.length_eq, c.length_mulOperands]

theorem mem_mulGates {i left right : Nat} (h : c.gates[i]? = some (.mul left right)) :
    i ∈ c.mulGates := by
  simp only [mulGates, positions, List.mem_map, List.mem_filter, Prod.exists, exists_eq_right]
  refine ⟨.mul left right, List.mk_mem_zipIdx_iff_getElem?.2 ?_, rfl⟩
  rwa [Array.getElem?_toList]

/-- The product with a number, and its factors. -/
theorem getElem_mulGates {j : Nat} (hj : j < c.mulGates.length) (hj' : j < c.mulOperands.length) :
    c.gates[c.mulGates[j]]? = some (.mul c.mulOperands[j].1 c.mulOperands[j].2) :=
  (List.forall₂_iff_get.1 c.forall₂_mulGates).2 j hj hj'

/-- Wires that satisfy the same linear equations agree when they do on inputs and, once their
factors agree, on products. -/
theorem wires_agree (wf : c.WellFormed) {one : F.Residue} {W W' : Nat → F.Residue}
    (linear : c.Linear F one W) (linear' : c.Linear F one W')
    (inputs : ∀ i ∈ c.inputGates, W i = W' i)
    (products : ∀ i left right : Nat, c.gates[i]? = some (.mul left right) →
      W left = W' left → W right = W' right → W i = W' i)
    (i : Nat) (hi : i < c.size) : W i = W' i := by
  induction i using Nat.strong_induction_on with
  | _ i ih =>
    have found : c.gates[i]? = some c.gates[i] := Array.getElem?_eq_getElem hi
    have eq := linear i _ found
    have eq' := linear' i _ found
    have parents (p : Nat) (hp : p ∈ c.gates[i].parents) : W p = W' p := by
      have lt := wf.parents_lt i _ found p hp
      exact ih p lt (lt.trans hi)
    cases gate : c.gates[i] with
    | input => exact inputs i (mem_inputGates (found.trans (congrArg some gate)))
    | add left right =>
      rw [gate] at eq eq' parents
      rw [eq, eq', parents left (by simp [Gate.parents]), parents right (by simp [Gate.parents])]
    | addConst parent constant =>
      rw [gate] at eq eq' parents
      rw [eq, eq', parents parent (by simp [Gate.parents])]
    | mul left right =>
      rw [gate] at found parents
      exact products i left right found (parents left (by simp [Gate.parents]))
        (parents right (by simp [Gate.parents]))
    | mulConst parent constant =>
      rw [gate] at eq eq' parents
      rw [eq, eq', parents parent (by simp [Gate.parents])]

/-- The inputs determine all wires that satisfy a circuit. -/
theorem wires_unique (wf : c.WellFormed) {one : F.Residue} {W W' : Nat → F.Residue}
    (linear : c.Linear F one W) (linear' : c.Linear F one W') (products : c.Products F W)
    (products' : c.Products F W') (inputs : ∀ i ∈ c.inputGates, W i = W' i) (i : Nat)
    (hi : i < c.size) : W i = W' i :=
  wires_agree wf linear linear' inputs
    (fun i l r found left right => by rw [products i l r found, products' i l r found, left, right])
    i hi

/-- The shared wires determine all others. -/
theorem wires_eq_of_shared (wf : c.WellFormed) {one : F.Residue} {W W' : Nat → F.Residue}
    (linear : c.Linear F one W) (linear' : c.Linear F one W')
    (shared : ∀ i ∈ c.sharedGates, W i = W' i) (i : Nat) (hi : i < c.size) : W i = W' i :=
  wires_agree wf linear linear' (fun i hi => shared i (List.mem_append_left _ hi))
    (fun i _ _ found _ _ => shared i (List.mem_append_right _ (mem_mulGates found))) i hi

end Circuit

end PrivateSums
