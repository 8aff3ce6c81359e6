import PrivateSums.Proofs.Circuit.Bounds
import PrivateSums.Proofs.Circuit.Reading

/-!
A conjunction evaluates its circuits one after the other, each on its own inputs, and accepts when
they all do.
-/

namespace PrivateSums

theorem Wires.at_append_left {wires : Wires} {i : Nat} (h : i < wires.size) (after : Wires) :
    Wires.at (wires ++ after) i = wires.at i := by
  simp [Wires.at, Array.getD_eq_getD_getElem?, Array.getElem?_append, h]

theorem Wires.at_append_right (before wires : Wires) (i : Nat) :
    Wires.at (before ++ wires) (i + before.size) = wires.at i := by
  simp [Wires.at, Array.getD_eq_getD_getElem?, Array.getElem?_append]

namespace Circuit

variable {F : Field} {c d : Circuit}

section Gates

/-- The gates that come first take the inputs that come first, and no others. -/
theorem evaluateGates_append {gates : List Gate} (after : List Gate) {inputs : List Nat}
    (others : List Nat) (wires : Wires) (length : inputs.length = gates.countP Gate.isInput) :
    evaluateGates F (gates ++ after) (inputs ++ others) wires =
      evaluateGates F after others (evaluateGates F gates inputs wires) := by
  induction gates generalizing inputs wires with
  | nil =>
    rw [List.eq_nil_of_length_eq_zero length]
    rfl
  | cons gate gates ih =>
    rw [List.countP_cons] at length
    cases gate with
    | input =>
      obtain ⟨input, inputs, rfl⟩ := List.exists_cons_of_length_eq_add_one length
      exact ih _ (Nat.succ.inj length)
    | _ => exact ih _ length

/-- Gates that are moved up read the same values, behind the wires that they were moved over. -/
theorem evaluateGates_shift (gates : List Gate) (inputs : List Nat) (before wires : Wires) :
    evaluateGates F (gates.map (Gate.shift before.size)) inputs (before ++ wires) =
      before ++ evaluateGates F gates inputs wires := by
  induction gates generalizing inputs wires with
  | nil => rfl
  | cons gate gates ih =>
    -- Where there is no wire to read, both sides read zero, so the gates may name any.
    have moved := Wires.at_append_right before wires
    cases gate <;>
      simp only [List.map_cons, Gate.shift, evaluateGates, Gate.derive?, moved,
        ← Array.append_push, ih]

end Gates

section Pair

theorem numInputs_and : (c.and d).numInputs = c.numInputs + d.numInputs := by
  have same : Gate.isInput ∘ Gate.shift c.size = Gate.isInput :=
    funext fun gate => gate.isInput_shift c.size
  rw [numInputs, Circuit.and, Array.countP_append, Array.countP_map, same]
  rfl

theorem evaluate_of_length {inputs : List Nat} (length : inputs.length = c.numInputs) :
    ∃ wires, c.evaluate F inputs = .ok wires :=
  ⟨_, evaluate_eq_ok_iff.2 ⟨length, rfl⟩⟩

theorem evaluate_of_ne {inputs : List Nat} (length : inputs.length ≠ c.numInputs) :
    c.evaluate F inputs = .error (.inputCountMismatch c.numInputs inputs.length) := by
  rw [evaluate, if_neg length]
  rfl

theorem evaluate_and {left right : List Nat} {x y : Wires} (hx : c.evaluate F left = .ok x)
    (hy : d.evaluate F right = .ok y) : (c.and d).evaluate F (left ++ right) = .ok (x ++ y) := by
  have size := size_of_evaluate hx
  obtain ⟨lengthX, rfl⟩ := evaluate_eq_ok_iff.1 hx
  obtain ⟨lengthY, rfl⟩ := evaluate_eq_ok_iff.1 hy
  refine evaluate_eq_ok_iff.2 ⟨by rw [List.length_append, numInputs_and, lengthX, lengthY], ?_⟩
  have gates : (c.and d).gates.toList = c.gates.toList ++ d.gates.toList.map (.shift c.size) := by
    rw [Circuit.and, Array.toList_append, Array.toList_map]
  rw [gates, evaluateGates_append _ _ _ (by rw [lengthX, Array.countP_toList, numInputs]), ← size]
  simpa using evaluateGates_shift (F := F) d.gates.toList right
    (evaluateGates F c.gates.toList left #[]) #[]

theorem accepts_and (wf : c.WellFormed) {x : Wires} (size : x.size = c.size) (y : Wires) :
    (c.and d).accepts (x ++ y) = (c.accepts x && d.accepts y) := by
  have left : ∀ z ∈ c.zeroChecks, Wires.at (x ++ y) z = x.at z := by
    intro z mem
    exact Wires.at_append_left (size ▸ wf.zeroChecks_lt z mem) y
  have right (z : Nat) : Wires.at (x ++ y) (z + c.size) = y.at z := size ▸ x.at_append_right y z
  rw [Bool.eq_iff_iff, Bool.and_eq_true, accepts, accepts, accepts]
  simp only [Circuit.and, Array.all_append, Array.all_map, Bool.and_eq_true,
    Array.all_eq_true_iff_forall_mem, Function.comp_apply, right]
  refine and_congr_left fun _ => forall₂_congr fun z mem => ?_
  rw [left z mem]

theorem namedOutputs_and (wf : c.WellFormed) {x : Wires} (size : x.size = c.size) (y : Wires) :
    (c.and d).namedOutputs (x ++ y) = c.namedOutputs x ++ d.namedOutputs y := by
  have right (gate : Nat) : Wires.at (x ++ y) (gate + c.size) = y.at gate :=
    size ▸ x.at_append_right y gate
  simp only [namedOutputs, Circuit.and, Array.toList_append, Array.toList_map, List.map_append,
    List.map_map, Function.comp_def, right]
  congr 1
  apply List.map_congr_left
  intro o mem
  rw [Wires.at_append_left (size ▸ wf.outputs_lt o (Array.mem_toList_iff.1 mem))]

/-- A conjunction, and what its circuits make of the inputs that are theirs. -/
structure Conjoins (F : Field) (c d : Circuit) : Prop where
  evaluates : ∀ left right : List Nat, left.length = c.numInputs → right.length = d.numInputs →
    ∃ x y : Wires, c.evaluate F left = .ok x ∧ d.evaluate F right = .ok y ∧
      (c.and d).evaluate F (left ++ right) = .ok (x ++ y) ∧
      (c.and d).accepts (x ++ y) = (c.accepts x && d.accepts y) ∧
      (c.and d).namedOutputs (x ++ y) = c.namedOutputs x ++ d.namedOutputs y
  refuses : ∀ inputs : List Nat, inputs.length ≠ c.numInputs + d.numInputs →
    (c.and d).evaluate F inputs =
      .error (.inputCountMismatch (c.numInputs + d.numInputs) inputs.length)

theorem WellFormed.conjoins (wf : c.WellFormed) : c.Conjoins F d where
  evaluates left right lengthX lengthY := by
    obtain ⟨x, hx⟩ := evaluate_of_length (F := F) lengthX
    obtain ⟨y, hy⟩ := evaluate_of_length (F := F) lengthY
    have size := size_of_evaluate hx
    exact ⟨x, y, hx, hy, evaluate_and hx hy, accepts_and wf size y, namedOutputs_and wf size y⟩
  refuses inputs length := by
    rw [← numInputs_and] at length ⊢
    exact evaluate_of_ne length

end Pair

section All

/-- The inputs of each circuit, one circuit after the other. -/
def slices : (circuits : List Circuit) → (inputs : List Nat) → List (List Nat)
  | [], _ => []
  | c :: circuits, inputs =>
    inputs.take c.numInputs :: slices circuits (inputs.drop c.numInputs)

theorem numInputs_andAll (circuits : List Circuit) :
    (andAll circuits).numInputs = (circuits.map numInputs).sum := by
  induction circuits with
  | nil => rfl
  | cons c circuits ih => rw [andAll_cons, numInputs_and, ih, List.map_cons, List.sum_cons]

/-- Circuits in conjunction, and what each makes of its slice of the inputs. -/
structure AllConjoin (F : Field) (circuits : List Circuit) : Prop where
  decides : ∀ inputs : List Nat, inputs.length = (circuits.map numInputs).sum →
    ∃ verdict : Bool, (andAll circuits).check F inputs = .ok verdict ∧
      (verdict ↔ List.Forall₂ (fun c slice => c.check F slice = .ok true) circuits
        (slices circuits inputs))
  refuses : ∀ inputs : List Nat, inputs.length ≠ (circuits.map numInputs).sum →
    (andAll circuits).check F inputs =
      .error (.inputCountMismatch (circuits.map numInputs).sum inputs.length)

theorem Conjoins.check (h : c.Conjoins F d) {left right : List Nat}
    (lengthX : left.length = c.numInputs) (lengthY : right.length = d.numInputs) :
    ∃ a b : Bool, c.check F left = .ok a ∧ d.check F right = .ok b ∧
      (c.and d).check F (left ++ right) = .ok (a && b) := by
  obtain ⟨x, y, hx, hy, both, accepts, -⟩ := h.evaluates left right lengthX lengthY
  refine ⟨c.accepts x, d.accepts y, ?_, ?_, ?_⟩
  · rw [Circuit.check, hx]
    rfl
  · rw [Circuit.check, hy]
    rfl
  · rw [Circuit.check, both, ← accepts]
    rfl

theorem allConjoin {circuits : List Circuit} (wf : ∀ c ∈ circuits, c.WellFormed) :
    AllConjoin F circuits where
  decides inputs length := by
    induction circuits generalizing inputs with
    | nil =>
      rw [List.eq_nil_of_length_eq_zero length]
      have evaluated : (andAll []).evaluate F [] = .ok #[] := evaluate_eq_ok_iff.2 ⟨rfl, rfl⟩
      refine ⟨true, ?_, iff_of_true rfl .nil⟩
      rw [Circuit.check, evaluated]
      simp [accepts, andAll, Circuit.empty]
    | cons c circuits ih =>
      rw [List.map_cons, List.sum_cons] at length
      have first : (inputs.take c.numInputs).length = c.numInputs := by
        rw [List.length_take]
        omega
      have rest : (inputs.drop c.numInputs).length = (circuits.map numInputs).sum := by
        rw [List.length_drop]
        omega
      obtain ⟨verdict, others, verdict_iff⟩ :=
        ih (fun d mem => wf d (List.mem_cons_of_mem c mem)) _ rest
      obtain ⟨a, b, ha, hb, both⟩ := ((wf c List.mem_cons_self).conjoins (F := F)).check first
        (rest.trans (numInputs_andAll circuits).symm)
      obtain rfl : b = verdict := Except.ok.inj (hb.symm.trans others)
      rw [List.take_append_drop] at both
      refine ⟨a && b, by rw [andAll_cons, both], ?_⟩
      rw [slices, List.forall₂_cons, ← verdict_iff, ha, Except.ok.injEq, Bool.and_eq_true]
  refuses inputs length := by
    rw [← numInputs_andAll] at length ⊢
    rw [Circuit.check, evaluate_of_ne length]
    rfl

end All

/-- Circuits form a monoid under conjunction, and what they evaluate to, accept and put out follows
it, for two circuits and for any list of them. -/
theorem Reachable.conjunction (F : Field) {c d : Circuit} (hc : c.Reachable) (e : Circuit)
    {circuits : List Circuit} (all : ∀ c ∈ circuits, c.Reachable) :
    c.Conjoins F d ∧ (c.and d).and e = c.and (d.and e) ∧ Circuit.empty.and c = c ∧
      c.and Circuit.empty = c ∧ AllConjoin F circuits :=
  ⟨hc.wellFormed.conjoins, and_assoc, empty_and, and_empty,
    allConjoin fun c mem => (all c mem).wellFormed⟩

/-- A bit, the remnant of a regression, and the bit again, given no bit. -/
theorem conjunction_remnant :
    let bit := ((Gadget.Call.oneBit .seventeen "flag").builder.run.run .empty).2
    slices [bit, remnant, bit] [1, 0, 1, 2] = [[1], [0, 1], [2]] ∧
      bit.Conjoins .seventeen remnant ∧
      (andAll [bit, remnant, bit]).check .seventeen [1, 0, 1, 2] = .ok false ∧
      ¬ bit.check .seventeen [2] = .ok true := by
  intro bit
  have reachable : ∀ c ∈ [bit, remnant, bit], c.Reachable := by
    have first : bit.Reachable := .gadget _ .empty
    simpa [first] using reachable_remnant
  obtain ⟨pair, -, -, -, all⟩ := Reachable.conjunction .seventeen (d := remnant)
    (reachable bit List.mem_cons_self) .empty reachable
  obtain ⟨verdict, checked, verdict_iff⟩ := all.decides [1, 0, 1, 2] (by decide +kernel)
  have rejects : ¬ bit.check .seventeen [2] = .ok true := by decide +kernel
  have parts : slices [bit, remnant, bit] [1, 0, 1, 2] = [[1], [0, 1], [2]] := by decide +kernel
  refine ⟨parts, pair, ?_, rejects⟩
  cases verdict with
  | false => exact checked
  | true =>
    have accepted := verdict_iff.1 rfl
    rw [parts] at accepted
    cases accepted with
    | cons _ rest => cases rest with
      | cons _ rest => cases rest with
        | cons last _ => exact absurd last rejects

end Circuit

end PrivateSums
