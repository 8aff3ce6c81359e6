import PrivateSums.Proofs.Circuit.Gadget
import PrivateSums.Proofs.Circuit.Products

/-!
What gadgets add to circuits that are there already. A gadget that succeeds leaves the wires and
the outputs as they were, takes inputs of its own after the others, and requires its predicate of
these in addition.
-/

namespace PrivateSums

namespace Circuit

/-- A circuit `d` that begins as `c` does and takes `more` inputs. Whatever the inputs are, it
requires `requires` in addition to what `c` does, and `carries` holds of its wires, both of the
residues of all wires and of the further inputs. -/
structure Extends (F : Field) (c d : Circuit) (more : Nat)
    (requires carries : (Nat → F.Residue) → List F.Residue → Prop) : Prop where
  grows : c.Grows d
  numInputs_eq : d.numInputs = c.numInputs + more
  evaluates : ∀ inputs new : List Nat, inputs.length = c.numInputs → new.length = more →
    ∃ wires wires' : Wires, c.evaluate F inputs = .ok wires ∧
      d.evaluate F (inputs ++ new) = .ok wires' ∧
      (∀ i < c.size, wires'.at i = wires.at i) ∧
      (∃ named, d.namedOutputs wires' = c.namedOutputs wires ++ named) ∧
      (d.accepts wires' ↔ c.accepts wires ∧ requires (wires'.residue F) (new.map Nat.cast)) ∧
      carries (wires'.residue F) (new.map Nat.cast)

variable {F : Field} {c d : Circuit}

/-- Wires of a longer circuit are those of the circuit that it begins as. -/
theorem Evaluated.at_eq (wf : c.WellFormed) (grows : c.Grows d) {inputs all : List Nat}
    {wires wires' : Wires} (h : c.Evaluated F inputs wires) (h' : d.Evaluated F all wires')
    (same : (c.reading F (wires'.residue F)).inputs = inputs.map Nat.cast) {i : Nat}
    (hi : i < c.size) : wires'.at i = wires.at i := by
  have satisfied := grows.satisfied (satisfied_of_evaluate h')
  have linear : c.Linear F 1 (wires'.residue F) := by
    intro i gate found
    have holds := satisfied i gate found
    cases gate with
    | mul => trivial
    | _ => exact holds
  have inputs_eq : ∀ g ∈ c.inputGates, wires'.residue F g = wires.residue F g :=
    List.map_inj_left.1 (same.trans h.reading_eq.1.symm)
  have residue := wires_unique wf linear h.linear (fun i l r found => satisfied i _ found)
    h.products inputs_eq i hi
  exact (F.cast_inj (h'.lt i) (h.lt i)).1 residue

/-- A reading is of the circuit's wires only. -/
theorem reading_congr (wf : c.WellFormed) {W W' : Nat → F.Residue}
    (eq : ∀ i < c.size, W i = W' i) (inputs : (c.reading F W).inputs = (c.reading F W').inputs) :
    c.reading F W = c.reading F W' := by
  rw [reading, reading, Reading.mk.injEq]
  refine ⟨inputs, List.map_congr_left fun o mem => ?_, propext (forall₂_congr fun z mem => ?_)⟩
  · rw [eq o.gate (wf.outputs_lt o (Array.mem_toList_iff.1 mem))]
  · rw [eq z (wf.zeroChecks_lt z mem)]

end Circuit

namespace Builder

variable {F : Field} {c d : Circuit} {α : Type} [Naming α] {a : α}
  {R : α → (Nat → F.Residue) → Reading F → Prop}

/-- What an operation shows in addition is what the circuit requires in addition. -/
theorem Outcome.extends (wf : c.WellFormed) (h : Outcome F c R a d) {more : Nat}
    {requires carries : (Nat → F.Residue) → List F.Residue → Prop}
    (shows : ∀ W r, R a W r → r.inputs.length = more ∧ (r.valid ↔ requires W r.inputs) ∧
      carries W r.inputs) : c.Extends F d more requires carries := by
  have count : d.numInputs = c.numInputs + more := by
    obtain ⟨W, satisfied⟩ := Circuit.exists_satisfied F h.wellFormed
    obtain ⟨r, eq, reads⟩ := h.reads W satisfied
    have lengths := congrArg (fun s : Reading F => s.inputs.length) eq
    simpa [Reading.append_def, Circuit.reading, Circuit.length_inputGates, (shows W r reads).1]
      using lengths
  refine ⟨h.grows, count, fun inputs new lengthI lengthN => ?_⟩
  obtain ⟨wires, ok⟩ : ∃ wires, c.evaluate F inputs = .ok wires :=
    ⟨_, Circuit.evaluate_eq_ok_iff.2 ⟨lengthI, rfl⟩⟩
  obtain ⟨wires', ok'⟩ : ∃ wires', d.evaluate F (inputs ++ new) = .ok wires' :=
    ⟨_, Circuit.evaluate_eq_ok_iff.2 ⟨by rw [List.length_append, lengthI, lengthN, count], rfl⟩⟩
  have first := Circuit.of_evaluate wf ok
  have whole := Circuit.of_evaluate h.wellFormed ok'
  obtain ⟨r, eq, reads⟩ := h.reads _ (Circuit.satisfied_of_evaluate whole)
  obtain ⟨-, valid, carried⟩ := shows _ r reads
  obtain ⟨inputs_eq, accepts, named⟩ := whole.reading_eq
  rw [eq, Reading.append_def] at inputs_eq accepts named
  have lengths : (c.reading F (wires'.residue F)).inputs.length =
      (inputs.map (Nat.cast : Nat → F.Residue)).length := by
    rw [Circuit.reading, List.length_map, Circuit.length_inputGates, List.length_map, lengthI]
  obtain ⟨old, added⟩ := List.append_inj (inputs_eq.trans List.map_append) lengths
  have kept (i : Nat) (hi : i < c.size) : wires'.at i = wires.at i :=
    first.at_eq wf h.grows whole old hi
  obtain ⟨inputs_first, accepts_first, named_first⟩ := first.reading_eq
  have same : c.reading F (wires'.residue F) = c.reading F (wires.residue F) :=
    Circuit.reading_congr wf (fun i hi => by rw [Wires.residue, Wires.residue, kept i hi])
      (old.trans inputs_first.symm)
  refine ⟨wires, wires', ok, ok', kept, ⟨r.outputs.map fun o => (o.1, o.2.val), ?_⟩, ?_, ?_⟩
  · rw [named, named_first, same, List.map_append]
  · rw [accepts, accepts_first, same, valid, added]
  · rwa [← added]

end Builder

namespace Gadget

open Builder

section Inputs

/-! The predicates of the gadgets, of their own inputs in order. -/

variable {R : Type} [CommSemiring R] (xs : List R)

/-- Bits of an integer, and after them its powers with the exponents `2`, `4` and so on. -/
def ArePowers (width steps : Nat) : Prop :=
  (∀ x ∈ xs.take width, IsBit x) ∧
    ∀ k < steps, xs.getD (width + k) 0 = weigh (xs.take width) ^ 2 ^ (k + 1)

/-- Rows of bits, in each of which the number of ones is one in the ring. -/
def AreRows [DecidableEq R] (hashes buckets : Nat) : Prop :=
  (∀ x ∈ xs, IsBit x) ∧
    ∀ row < hashes, ((((xs.drop (row * buckets)).take buckets).count 1 : Nat) : R) = 1

/-- The integer of these widths with the number `i`. -/
def termAt (widths : List Nat) (i : Nat) : R :=
  weigh ((xs.take (widths.take (i + 1)).sum).drop (widths.take i).sum)

/-- The place of a pair among all whose second entry is not above the first. -/
def pairIndex (i j : Nat) : Nat := i * (i + 1) / 2 + j

/-- Bits of integers of these widths, and after them their products by pairs. -/
def AreProducts (widths : List Nat) : Prop :=
  (∀ x ∈ xs.take widths.sum, IsBit x) ∧ ∀ i j, j ≤ i → i < widths.length →
    xs.getD (widths.sum + pairIndex i j) 0 = termAt xs widths i * termAt xs widths j

variable {xs}

theorem sum_eq_count_one [DecidableEq R] [Nontrivial R] (bits : ∀ x ∈ xs, IsBit x) :
    xs.sum = (xs.count 1 : Nat) := by
  induction xs with
  | nil => simp
  | cons x xs ih =>
    obtain ⟨first, rest⟩ := List.forall_mem_cons.1 bits
    rw [List.sum_cons, ih rest, List.count_cons]
    obtain rfl | rfl := first
    · simp
    · simp [add_comm]

theorem eq_repeatedSquares_iff {v : R} {steps : Nat} (length : xs.length = steps) :
    xs = repeatedSquares v steps ↔ ∀ k < steps, xs.getD k 0 = v ^ 2 ^ (k + 1) := by
  have squares : (repeatedSquares v steps).length = steps := by simp [repeatedSquares]
  constructor
  · rintro rfl k hk
    rw [List.getD_eq_getElem _ _ (by omega)]
    simp [repeatedSquares]
  · intro each
    refine List.ext_getElem (by omega) fun k hk hk' => ?_
    rw [← List.getD_eq_getElem xs 0 hk, each k (by omega)]
    simp [repeatedSquares]

theorem eq_pairIndex {n k : Nat} {p : Nat × Nat} (found : (lowerPairs n)[k]? = some p) :
    k = pairIndex p.1 p.2 := by
  induction n with
  | zero => simp [lowerPairs] at found
  | succ n ih =>
    have row : lowerPairs (n + 1) = lowerPairs n ++ (List.range (n + 1)).map (n, ·) := by
      simp [lowerPairs, List.range_succ]
    rw [row, List.getElem?_append] at found
    split at found
    · exact ih found
    · rw [List.getElem?_map, Option.map_eq_some_iff] at found
      obtain ⟨j, there, rfl⟩ := found
      obtain ⟨hk, rfl⟩ := List.getElem?_eq_some_iff.1 there
      dsimp only
      rw [List.getElem_range, pairIndex, ← length_lowerPairs]
      omega

/-- Products are all those of a list's entries when each is where its pair is. -/
theorem eq_pairProducts_iff {ys : List R} (length : xs.length = (lowerPairs ys.length).length) :
    xs = pairProducts ys ↔ ∀ i j, j ≤ i → i < ys.length →
      xs.getD (pairIndex i j) 0 = ys.getD i 0 * ys.getD j 0 := by
  have place {k : Nat} (hk : k < (lowerPairs ys.length).length) :
      k = pairIndex (lowerPairs ys.length)[k].1 (lowerPairs ys.length)[k].2 :=
    eq_pairIndex (List.getElem?_eq_getElem hk)
  constructor
  · rintro rfl i j le lt
    obtain ⟨k, hk, found⟩ := List.mem_iff_getElem.1 (mem_lowerPairs.2 ⟨le, lt⟩ : (i, j) ∈ _)
    have at_k := place hk
    rw [found] at at_k
    rw [← at_k, List.getD_eq_getElem _ _ (by omega)]
    simp [pairProducts, found]
  · intro each
    refine List.ext_getElem (by simp [pairProducts, length]) fun k hk hk' => ?_
    have hp : k < (lowerPairs ys.length).length := length ▸ hk
    obtain ⟨le, lt⟩ := mem_lowerPairs.1 (List.getElem_mem hp)
    have product := each _ _ le lt
    rw [← place hp, List.getD_eq_getElem _ _ hk] at product
    rw [product]
    simp [pairProducts]

/-- The integers of blocks of bits. -/
theorem termAt_flatten (blocks : List (List R)) (products : List R) {i : Nat}
    (hi : i < blocks.length) :
    termAt (blocks.flatten ++ products) (blocks.map List.length) i =
      (blocks.map weigh).getD i 0 := by
  have inside : ((blocks.map List.length).take (i + 1)).sum ≤ blocks.flatten.length := by
    have whole := List.sum_take_add_sum_drop (blocks.map List.length) (i + 1)
    rw [List.length_flatten]
    omega
  rw [termAt, List.take_append_of_le_length inside,
    List.drop_take_succ_flatten_eq_getElem blocks i hi,
    List.getD_eq_getElem _ _ (by simpa using hi), List.getElem_map]

end Inputs

section Success

/-! What the parameters of gadgets that succeed are. -/

variable {F : Field} {c d : Circuit} {id : Nat} {name : String}

theorem width_of_run {width : Nat} (run : (int F width name).run.run c = (.ok id, d)) :
    0 < width ∧ width ≤ maxIntBits := by
  by_cases outside : width = 0 ∨ maxIntBits < width
  · rw [int, if_pos outside] at run
    cases run
  · omega

theorem operands_of_run {left right product : Nat}
    (run : (checkMul F left right product).run.run c = (.ok id, d)) :
    left < c.size ∧ right < c.size ∧ product < c.size + 2 := by
  obtain ⟨mul, e, first, run⟩ := Answer.bind_run_eq_ok.1 run
  obtain ⟨negated, f, second, run⟩ := Answer.bind_run_eq_ok.1 run
  obtain ⟨difference, g, third, -⟩ := Answer.bind_run_eq_ok.1 run
  obtain ⟨factors, size⟩ := push_run_eq_ok first
  obtain ⟨-, size'⟩ := push_run_eq_ok second
  obtain ⟨terms, -⟩ := push_run_eq_ok third
  have product_lt := terms product (by simp [Gate.parents])
  exact ⟨factors left (by simp [Gate.parents]), factors right (by simp [Gate.parents]), by omega⟩

theorem steps_of_run {width exponent : Nat}
    (run : (intPow F width exponent name).run.run c = (.ok id, d)) :
    ∃ steps, squarings exponent = .ok steps ∧ exponent = 2 ^ steps ∧
      0 < width ∧ width ≤ maxIntBits := by
  obtain ⟨steps, e, first, run⟩ := Answer.bind_run_eq_ok.1 run
  rw [Answer.lift_run] at first
  obtain ⟨value, f, second, -⟩ := Answer.bind_run_eq_ok.1 run
  have squared : squarings exponent = .ok steps := congrArg Prod.fst first
  refine ⟨steps, squared, ?_, width_of_run second⟩
  unfold squarings at squared
  split at squared <;> cases squared <;> rfl

theorem sizes_of_run {hashes buckets : Nat}
    (run : (countMin F hashes buckets name).run.run c = (.ok (), d)) :
    hashes ≠ 0 ∧ buckets ≠ 0 := by
  by_cases none : hashes = 0 ∨ buckets = 0
  · rw [countMin, if_pos none] at run
    cases run
  · omega

theorem widths_of_run {widths : List Nat}
    (run : (linReg F widths name).run.run c = (.ok (), d)) :
    2 ≤ widths.length ∧ ∀ width ∈ widths, 0 < width ∧ width ≤ maxIntBits := by
  by_cases few : widths.length < 2
  · rw [linReg, if_pos few] at run
    cases run
  · rw [linReg, if_neg few] at run
    obtain ⟨terms, e, ints, -⟩ := Answer.bind_run_eq_ok.1 run
    refine ⟨by omega, fun width mem => ?_⟩
    obtain ⟨i, hi, rfl⟩ := List.mem_iff_getElem.1 mem
    have numbered : (widths[i], i) ∈ widths.zipIdx := List.mk_mem_zipIdx_iff_getElem?.2 (by simp)
    obtain ⟨f, term, g, one⟩ := Answer.of_mapM_run_eq_ok ints _ numbered
    exact width_of_run one

end Success

variable {F : Field} {c d : Circuit} {id : Nat} {name : String}

theorem extends_free (wf : c.WellFormed) (run : (free name).run.run c = (.ok id, d)) :
    c.Extends F d 1 (fun _ _ => True) fun W new => new = [W id] := by
  refine ((yields_free name).outcome wf run).extends wf ?_
  intro W r shown
  simp [shown]

variable [Fact F.modulus.Prime]

/-- In a prime field the equations of bits have no solutions but bits. -/
theorem areBits_iff {xs : List F.Residue} :
    (∀ x ∈ xs, IsIdempotentElem x) ↔ ∀ x ∈ xs, IsBit x :=
  forall₂_congr fun _ _ => isIdempotentElem_iff_isBit

theorem arePowers_iff {width steps : Nat} {value : F.Residue} {digits powers : Reading F}
    (shown : IsIntPow width steps name value digits powers) :
    (digits ++ powers).valid ↔ ArePowers (digits ++ powers).inputs width steps := by
  have digits_eq : (digits ++ powers).inputs.take width = digits.inputs :=
    List.take_left' shown.int.length
  have powers_eq (k : Nat) :
      (digits ++ powers).inputs.getD (width + k) 0 = powers.inputs.getD k 0 := by
    rw [Reading.append_def, List.getD_append_right _ _ _ _ (by rw [shown.int.length]; omega),
      shown.int.length, Nat.add_sub_cancel_left]
  simp only [ArePowers, digits_eq, powers_eq, ← shown.int.value_eq]
  rw [← eq_repeatedSquares_iff shown.length, ← areBits_iff, ← shown.int.valid, ← shown.valid]
  exact Iff.rfl

theorem areRows_iff {hashes buckets : Nat} {r : Reading F}
    (shown : IsSketch hashes buckets name r) : r.valid ↔ AreRows r.inputs hashes buckets := by
  rw [shown.valid, areBits_iff, AreRows]
  refine and_congr_right fun bits => forall₂_congr fun row _ => ?_
  rw [sum_eq_count_one]
  exact fun x mem => bits x (List.mem_of_mem_drop (List.mem_of_mem_take mem))

theorem areProducts_iff {widths : List Nat} {blocks : List (List F.Residue)}
    {products : List F.Residue} {r : Reading F}
    (shown : IsRegression widths name blocks products r) :
    r.valid ↔ AreProducts r.inputs widths := by
  obtain ⟨rfl, length, inputs, -, valid⟩ := shown
  have terms : products.length = (lowerPairs (blocks.map weigh).length).length := by
    simpa using length
  have bits : r.inputs.take (blocks.map List.length).sum = blocks.flatten := by
    rw [inputs]
    exact List.take_left' List.length_flatten
  have product_eq (k : Nat) :
      r.inputs.getD ((blocks.map List.length).sum + k) 0 = products.getD k 0 := by
    rw [inputs, ← List.length_flatten, List.getD_append_right _ _ _ _ (Nat.le_add_right ..),
      Nat.add_sub_cancel_left]
  rw [valid, AreProducts, bits, ← areBits_iff, List.forall_mem_flatten, eq_pairProducts_iff terms,
    List.length_map, List.length_map]
  refine and_congr_right fun _ => forall₂_congr fun i j => ?_
  refine forall₂_congr fun le lt => ?_
  rw [product_eq, inputs, termAt_flatten blocks products lt,
    termAt_flatten blocks products (by omega)]

section Each

variable (wf : c.WellFormed)
include wf

theorem extends_oneBit (run : (oneBit F name).run.run c = (.ok id, d)) :
    c.Extends F d 1 (fun _ new => ∀ x ∈ new, IsBit x) fun W new => new = [W id] := by
  refine ((yields_oneBit name).outcome wf run).extends wf ?_
  intro W r shown
  simp [shown, IsBit]

theorem extends_int {width : Nat} (run : (int F width name).run.run c = (.ok id, d)) :
    c.Extends F d width (fun _ new => ∀ x ∈ new, IsBit x) fun W new => W id = weigh new := by
  obtain ⟨pos, le⟩ := width_of_run run
  refine ((yields_int pos le name).outcome wf run).extends wf ?_
  intro W r shown
  exact ⟨shown.length, shown.valid.trans areBits_iff, shown.value_eq⟩

theorem extends_checkMul {left right product : Nat}
    (run : (checkMul F left right product).run.run c = (.ok id, d)) :
    c.Extends F d 0 (fun W _ => W left * W right = W product) fun _ _ => True := by
  obtain ⟨hl, hr, hp⟩ := operands_of_run run
  refine ((yields_checkMul hl hr hp).outcome wf run).extends wf ?_
  intro W r shown
  simp [shown, eq_comm]

theorem extends_intPow {width exponent : Nat}
    (run : (intPow F width exponent name).run.run c = (.ok id, d)) :
    ∃ steps, exponent = 2 ^ steps ∧
      c.Extends F d (width + steps) (fun _ new => ArePowers new width steps)
        fun W new => W id = weigh (new.take width) := by
  obtain ⟨steps, squared, power, pos, le⟩ := steps_of_run run
  refine ⟨steps, power, ((yields_intPow pos le squared name).outcome wf run).extends wf ?_⟩
  rintro W _ ⟨digits, powers, shown, rfl⟩
  refine ⟨?_, arePowers_iff shown, ?_⟩
  · rw [Reading.append_def, List.length_append, shown.int.length, shown.length]
  · rw [shown.int.value_eq, Reading.append_def, List.take_left' shown.int.length]

theorem extends_countMin {hashes buckets : Nat}
    (run : (countMin F hashes buckets name).run.run c = (.ok (), d)) :
    c.Extends F d (hashes * buckets) (fun _ new => AreRows new hashes buckets)
      fun _ _ => True := by
  obtain ⟨rows, columns⟩ := sizes_of_run run
  refine ((yields_countMin rows columns name).outcome wf run).extends wf ?_
  intro W r shown
  exact ⟨shown.length, areRows_iff shown, trivial⟩

theorem extends_linReg {widths : List Nat}
    (run : (linReg F widths name).run.run c = (.ok (), d)) :
    c.Extends F d (widths.sum + widths.length * (widths.length + 1) / 2)
      (fun _ new => AreProducts new widths) fun _ _ => True := by
  obtain ⟨two, fits⟩ := widths_of_run run
  refine ((yields_linReg two fits name).outcome wf run).extends wf ?_
  rintro W r ⟨blocks, products, shown⟩
  refine ⟨?_, areProducts_iff shown, trivial⟩
  rw [shown.inputs, List.length_append, List.length_flatten, shown.lengths, shown.length,
    length_lowerPairs]

end Each

/-- What gadgets add to a circuit that they succeed on, in a prime field. Their own inputs may be
any numbers: those of a bit are zero or one as residues, and the gate that an integer or its powers
answer with has the value of its bits. -/
theorem extends_of_run (wf : c.WellFormed) :
    (∀ name id, (free name).run.run c = (.ok id, d) →
      c.Extends F d 1 (fun _ _ => True) fun W new => new = [W id]) ∧
    (∀ name id, (oneBit F name).run.run c = (.ok id, d) →
      c.Extends F d 1 (fun _ new => ∀ x ∈ new, IsBit x) fun W new => new = [W id]) ∧
    (∀ width name id, (int F width name).run.run c = (.ok id, d) →
      c.Extends F d width (fun _ new => ∀ x ∈ new, IsBit x) fun W new => W id = weigh new) ∧
    (∀ left right product id, (checkMul F left right product).run.run c = (.ok id, d) →
      c.Extends F d 0 (fun W _ => W left * W right = W product) fun _ _ => True) ∧
    (∀ width exponent name id, (intPow F width exponent name).run.run c = (.ok id, d) →
      ∃ steps, exponent = 2 ^ steps ∧
        c.Extends F d (width + steps) (fun _ new => ArePowers new width steps)
          fun W new => W id = weigh (new.take width)) ∧
    (∀ hashes buckets name, (countMin F hashes buckets name).run.run c = (.ok (), d) →
      c.Extends F d (hashes * buckets) (fun _ new => AreRows new hashes buckets)
        fun _ _ => True) ∧
    (∀ widths name, (linReg F widths name).run.run c = (.ok (), d) →
      c.Extends F d (widths.sum + widths.length * (widths.length + 1) / 2)
        (fun _ new => AreProducts new widths) fun _ _ => True) :=
  ⟨fun _ _ => extends_free wf, fun _ _ => extends_oneBit wf, fun _ _ _ => extends_int wf,
    fun _ _ _ _ => extends_checkMul wf, fun _ _ _ _ => extends_intPow wf,
    fun _ _ _ => extends_countMin wf, fun _ _ => extends_linReg wf⟩

/-- An input and its square. -/
def squared : Circuit := ⟨#[.input, .mul 0 0], #[⟨1, "square"⟩], #[]⟩

theorem wellFormed_squared : squared.WellFormed :=
  ((Circuit.WellFormed.empty.push .input (by decide)).push (.mul 0 0) (by decide)).output
    (o := ⟨1, "square"⟩) (by decide)

/-- An integer of two bits and its square, beside another square, for inputs beyond the modulus. -/
theorem extends_squared : ∃ id d, (intPow .seventeen 2 2 "n").run.run squared = (.ok id, d) ∧
    ∃ wires wires' : Wires, squared.evaluate .seventeen [3] = .ok wires ∧
      d.evaluate .seventeen [3, 17, 18, 21] = .ok wires' ∧ d.accepts wires' ∧
      wires'.residue .seventeen id = 2 := by
  have run : (intPow .seventeen 2 2 "n").run.run squared = (.ok _, _) := rfl
  obtain ⟨-, -, -, -, powers, -⟩ := extends_of_run (F := .seventeen) wellFormed_squared
  obtain ⟨steps, power, extended⟩ := powers _ _ _ _ run
  obtain rfl : steps = 1 := (Nat.pow_right_injective le_rfl power).symm
  obtain ⟨wires, wires', ok, ok', -, -, accepts, value⟩ :=
    extended.evaluates [3] [17, 18, 21] rfl rfl
  have accepted : squared.accepts wires := by simp [Circuit.accepts, squared]
  have bits : ∀ x ∈ [(17 : Field.seventeen.Residue), 18], IsBit x := by
    rw [List.forall_mem_cons, List.forall_mem_singleton]
    exact ⟨.inl rfl, .inr rfl⟩
  have squares : ∀ k < 1, ([17, 18, 21] : List Field.seventeen.Residue).getD (2 + k) 0 =
      weigh [17, 18] ^ 2 ^ (k + 1) := by
    intro k hk
    obtain rfl : k = 0 := by omega
    rfl
  exact ⟨_, _, run, wires, wires', ok, ok', accepts.2 ⟨accepted, bits, squares⟩, value.trans rfl⟩

end Gadget

end PrivateSums
