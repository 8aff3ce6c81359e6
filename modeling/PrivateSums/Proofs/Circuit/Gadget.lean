import PrivateSums.Circuit.Gadget
import PrivateSums.Proofs.Circuit.Building

/-!
What each gadget takes as inputs, puts out and requires. The equation of a bit asks for an
idempotent. In a prime field a product is zero only where a factor is, so that there are no
idempotents but zero and one.
-/

namespace PrivateSums

def IsBit {R : Type} [Zero R] [One R] (x : R) : Prop := x = 0 ∨ x = 1

theorem IsBit.isIdempotentElem {R : Type} [MulZeroOneClass R] {x : R} (h : IsBit x) :
    IsIdempotentElem x := by
  obtain rfl | rfl := h
  · exact .zero
  · exact .one

/-- In a prime field the equation of a bit has no solutions but zero and one. -/
theorem isIdempotentElem_iff_isBit {F : Field} [Fact F.modulus.Prime] {x : F.Residue} :
    IsIdempotentElem x ↔ IsBit x := IsIdempotentElem.iff_eq_zero_or_one

/-- The value of binary digits, the least significant first. -/
def weigh {R : Type} [Semiring R] : List R → R
  | [] => 0
  | x :: xs => x + 2 * weigh xs

theorem sum_scaled {R : Type} [CommSemiring R] (xs : List R) (k : Nat) :
    ((xs.zipIdx k).map fun p => p.1 * 2 ^ p.2).sum = 2 ^ k * weigh xs := by
  induction xs generalizing k with
  | nil => simp [weigh]
  | cons x xs ih =>
    rw [List.zipIdx_cons, List.map_cons, List.sum_cons, ih, weigh]
    ring

/-- `x²`, `x⁴` and so on, `n` of them. -/
def repeatedSquares {R : Type} [Monoid R] (x : R) (n : Nat) : List R :=
  (List.range n).map fun k => x ^ 2 ^ (k + 1)

theorem repeatedSquares_succ {R : Type} [Monoid R] (x : R) (n : Nat) :
    repeatedSquares x (n + 1) = x * x :: repeatedSquares (x * x) n := by
  simp only [repeatedSquares, List.range_succ_eq_map, List.map_cons, List.map_map]
  refine congrArg₂ _ (by simp [pow_two]) (List.map_congr_left fun k _ => ?_)
  rw [Function.comp_apply, ← pow_two, ← pow_mul, ← pow_succ']

/-- The products of an entry and one that is not after it, by rows. -/
def pairProducts {R : Type} [Semiring R] (xs : List R) : List R :=
  (Gadget.lowerPairs xs.length).map fun p => xs.getD p.1 0 * xs.getD p.2 0

namespace Field

theorem cast_ofInt_neg_one (F : Field) : (F.ofInt (-1) : F.Residue) = -1 := by
  rw [F.cast_ofInt, Int.cast_neg, Int.cast_one]

end Field

namespace Gadget

open Builder

theorem mem_lowerPairs {n : Nat} {p : Nat × Nat} : p ∈ lowerPairs n ↔ p.2 ≤ p.1 ∧ p.1 < n := by
  obtain ⟨i, j⟩ := p
  simp only [lowerPairs, List.mem_flatMap, List.mem_map, List.mem_range, Prod.mk.injEq]
  constructor
  · rintro ⟨i, hi, j, hj, rfl, rfl⟩
    omega
  · intro h
    exact ⟨i, h.2, j, by omega, rfl, rfl⟩

variable {F : Field} {c : Circuit} {α : Type}

section Families

/-- An input for each element, checked by itself. -/
theorem yields_inputs {f : α → Builder Nat} {as : List α}
    {o : α → F.Residue → List (String × F.Residue)} {p : F.Residue → Prop}
    (each : ∀ a ∈ as, ∀ d, Yields F d (f a) fun id W r => r = ⟨[W id], o a (W id), p (W id)⟩) :
    Yields F c (as.mapM f) fun ids W r => ids.length = as.length ∧
      r = ⟨ids.map W, (as.zip (ids.map W)).flatMap fun q => o q.1 q.2, ∀ x ∈ ids.map W, p x⟩ := by
  refine (yields_mapM fun a mem d _ => each a mem d).mono fun ids W r shown => ?_
  obtain ⟨steps, reads, rfl, rfl⟩ := shown
  clear each
  induction reads with
  | nil => simp [Reading.empty_def]
  | cons first _ ih => simp [ih.1, ih.2, first, Reading.append_def]

/-- An output for each of these inputs. -/
theorem yields_named {f : α → Builder Nat} {as : List α} {g : α → String} {p : F.Residue → Prop}
    (each : ∀ a ∈ as, ∀ d,
      Yields F d (f a) fun id W r => r = ⟨[W id], [(g a, W id)], p (W id)⟩) :
    Yields F c (as.mapM f) fun ids W r => ids.length = as.length ∧
      r = ⟨ids.map W, (as.zip (ids.map W)).map fun q => (g q.1, q.2), ∀ x ∈ ids.map W, p x⟩ := by
  refine (yields_inputs (o := fun a x => [(g a, x)]) each).mono fun ids W r shown => ?_
  simpa only [← List.map_eq_flatMap] using shown

/-- A check for each element. -/
theorem yields_checks {f : α → Builder Unit} {as : List α} {p : α → (Nat → F.Residue) → Prop}
    (each : ∀ a ∈ as, ∀ d : Circuit, c.size ≤ d.size →
      Yields F d (f a) fun _ W r => r = ⟨[], [], p a W⟩) :
    Yields F c (as.forM f) fun _ W r => r = ⟨[], [], ∀ a ∈ as, p a W⟩ := by
  refine (yields_forM each).mono fun _ W r shown => ?_
  obtain ⟨rs, reads, rfl⟩ := shown
  clear each
  induction reads with
  | nil => simp [Reading.empty_def]
  | cons first _ ih => simp [ih, first, Reading.append_def]

/-- A derived gate for each element. -/
theorem yields_gates {f : α → Builder Nat} {as : List α} {v : α → (Nat → F.Residue) → F.Residue}
    (each : ∀ a ∈ as, ∀ d : Circuit, c.size ≤ d.size →
      Yields F d (f a) fun id W r => W id = v a W ∧ r = ∅) :
    Yields F c (as.mapM f) fun ids W r => ids.map W = as.map (v · W) ∧ r = ∅ := by
  refine (yields_mapM each).mono fun ids W r shown => ?_
  obtain ⟨steps, reads, rfl, rfl⟩ := shown
  clear each
  induction reads with
  | nil => simp
  | cons first _ ih => simp [ih.1, ih.2, first]

end Families

theorem yields_free (name : String) :
    Yields F c (free name) fun id W r => r = ⟨[W id], [(name, W id)], True⟩ := by
  refine yields_input.bind fun id d _ lt _ => ?_
  refine (yields_output (forall_named.1 lt) name).bind fun _ e le _ _ => ?_
  refine yields_pure (fun g mem => (lt g mem).trans_le le) fun W s named t input => ?_
  rw [input, named, Reading.append_empty, Reading.append_def]
  simp

theorem yields_addAll {sum : Nat} {terms : List Nat} (lt : sum < c.size)
    (terms_lt : ∀ t ∈ terms, t < c.size) :
    Yields F c (addAll sum terms) fun id W r => W id = W sum + (terms.map W).sum ∧ r = ∅ := by
  induction terms generalizing c sum with
  | nil => exact yields_pure (forall_named.2 lt) fun W => by simp
  | cons term terms ih =>
    obtain ⟨first_lt, rest_lt⟩ := List.forall_mem_cons.1 terms_lt
    have parents : ∀ p ∈ (Gate.add term sum).parents, p < c.size := by
      simp [Gate.parents, lt, first_lt]
    refine (yields_derived parents rfl).bind fun id d le id_lt _ => ?_
    have rest := ih (forall_named.1 id_lt) fun t mem => (rest_lt t mem).trans_le le
    refine rest.mono fun _ W r shown s first => ?_
    obtain ⟨value, rfl⟩ := shown
    obtain ⟨added, rfl⟩ := first
    have added : W id = W term + W sum := added
    refine ⟨?_, Reading.append_empty _⟩
    rw [value, added, List.map_cons, List.sum_cons]
    ring

/-- Adds the terms, with a constant, to the first of them. -/
theorem yields_sum {constant : Nat} {terms : List Nat} (nonempty : terms ≠ [])
    (terms_lt : ∀ t ∈ terms, t < c.size) :
    Yields F c (do addAll (← addConst (terms.headD 0) constant) terms.tail) fun id W r =>
      W id = (terms.map W).sum + constant ∧ r = ∅ := by
  cases terms with
  | nil => exact absurd rfl nonempty
  | cons term terms =>
    obtain ⟨first_lt, rest_lt⟩ := List.forall_mem_cons.1 terms_lt
    have parents : ∀ p ∈ (Gate.addConst term constant).parents, p < c.size := by
      simp [Gate.parents, first_lt]
    refine (yields_derived parents rfl).bind fun id d le id_lt _ => ?_
    have rest := yields_addAll (F := F) (forall_named.1 id_lt) fun t mem =>
      (rest_lt t mem).trans_le le
    refine rest.mono fun _ W r shown s first => ?_
    obtain ⟨value, rfl⟩ := shown
    obtain ⟨added, rfl⟩ := first
    have added : W id = W term + constant * 1 := added
    refine ⟨?_, Reading.append_empty _⟩
    rw [value, added, List.map_cons, List.sum_cons]
    ring

/-- Requires a product, which may be a gate that the check itself puts before the last. -/
theorem yields_checkMul {left right product : Nat} (hl : left < c.size) (hr : right < c.size)
    (hp : product < c.size + 2) : Yields F c (checkMul F left right product) fun _ W r =>
      r = ⟨[], [], W product = W left * W right⟩ := by
  have parents : ∀ p ∈ (Gate.mul left right).parents, p < c.size := by
    simp [Gate.parents, hl, hr]
  refine (yields_derived_at parents rfl).bind fun mul d _ lt known => ?_
  have negation : ∀ p ∈ (Gate.mulConst mul (F.ofInt (-1))).parents, p < d.size := by
    simpa [Gate.parents] using lt
  refine (yields_derived_at negation rfl).bind fun negated e _ lt' known' => ?_
  -- Each of both gates has the next place, so that both are there when the product is used.
  obtain ⟨-, -, first, -⟩ := known
  obtain ⟨-, -, second, -⟩ := known'
  have mul_lt := forall_named.1 lt
  have negated_lt := forall_named.1 lt'
  have parents' : ∀ p ∈ (Gate.add negated product).parents, p < e.size := by
    intro p mem
    obtain rfl | rfl : p = negated ∨ p = product := by simpa [Gate.parents] using mem
    · exact negated_lt
    · omega
  refine (yields_derived parents' rfl).bind fun difference f _ lt'' _ => ?_
  refine (yields_assertZero (forall_named.1 lt'')).bind fun _ g le''' _ _ => ?_
  refine yields_pure (fun g mem => (lt'' g mem).trans_le le''') ?_
  intro W t₄ zero t₃ h₃ t₂ h₂ t₁ h₁
  have eq₁ : W mul = W left * W right := h₁.2.1
  have eq₂ : W negated = W mul * (F.ofInt (-1) : Nat) := h₂.2.1
  have eq₃ : W difference = W negated + W product := h₃.1
  rw [h₁.2.2, h₂.2.2, h₃.2, zero, eq₃, eq₂, eq₁, F.cast_ofInt_neg_one]
  simp [neg_add_eq_zero, eq_comm]

theorem yields_checkSquares {base : Nat} {powers : List Nat} (hb : base < c.size)
    (hp : ∀ p ∈ powers, p < c.size) : Yields F c (checkSquares F base powers) fun _ W r =>
      r = ⟨[], [], powers.map W = repeatedSquares (W base) powers.length⟩ := by
  induction powers generalizing c base with
  | nil => exact yields_pure forall_named_unit fun W => by simp [Reading.empty_def, repeatedSquares]
  | cons power powers ih =>
    obtain ⟨first_lt, rest_lt⟩ := List.forall_mem_cons.1 hp
    refine (yields_checkMul hb hb (Nat.lt_add_right 2 first_lt)).bind fun _ d le _ _ => ?_
    have rest := ih (first_lt.trans_le le) fun p mem => (rest_lt p mem).trans_le le
    refine rest.mono fun _ W r shown s first => ?_
    rw [shown, first, Reading.append_def, List.map_cons, List.length_cons, repeatedSquares_succ,
      List.cons.injEq]
    simp +contextual

theorem yields_checkRow {row : List Nat} (nonempty : row ≠ []) (lt : ∀ cell ∈ row, cell < c.size) :
    Yields F c (checkRow F row) fun _ W r => r = ⟨[], [], (row.map W).sum = 1⟩ := by
  have split : checkRow F row =
      (do addAll (← addConst (row.headD 0) (F.ofInt (-1))) row.tail) >>= assertZero :=
    (bind_assoc ..).symm
  rw [split]
  refine (yields_sum nonempty lt).bind fun sum d _ sum_lt _ => ?_
  refine (yields_assertZero (forall_named.1 sum_lt)).mono fun _ W r zero s shown => ?_
  rw [zero, shown.2, shown.1, F.cast_ofInt_neg_one, Reading.empty_append]
  simp [add_neg_eq_zero]

/-- The wires of an integer: its digits are the inputs, each an idempotent, and its value is the
output. -/
structure IsInt (width : Nat) (name : String) (value : F.Residue) (r : Reading F) : Prop where
  length : r.inputs.length = width
  value_eq : value = weigh r.inputs
  outputs : r.outputs = [(name, value)]
  valid : r.valid ↔ ∀ x ∈ r.inputs, IsIdempotentElem x

/-- The wires of an integer, and the inputs after it for its repeated squares. -/
structure IsIntPow (width steps : Nat) (name : String) (value : F.Residue)
    (digits powers : Reading F) : Prop where
  int : IsInt width name value digits
  length : powers.inputs.length = steps
  outputs : powers.outputs = powers.inputs.map (s!"{name}-pow", ·)
  valid : powers.valid ↔ powers.inputs = repeatedSquares value steps

/-- The wires of a sketch: its cells are the inputs, each an idempotent, and every row sums to
one. -/
structure IsSketch (hashes buckets : Nat) (name : String) (r : Reading F) : Prop where
  length : r.inputs.length = hashes * buckets
  outputs : r.outputs = r.inputs.zipIdx.map fun x => (s!"{name}[{x.2}]", x.1)
  valid : r.valid ↔ (∀ x ∈ r.inputs, IsIdempotentElem x) ∧
    ∀ row < hashes, ((r.inputs.drop (row * buckets)).take buckets).sum = 1

/-- The wires of a regression: the digits of each term, then the inputs for their products. -/
structure IsRegression (widths : List Nat) (name : String) (blocks : List (List F.Residue))
    (products : List F.Residue) (r : Reading F) : Prop where
  lengths : blocks.map List.length = widths
  length : products.length = (lowerPairs widths.length).length
  inputs : r.inputs = blocks.flatten ++ products
  outputs : r.outputs =
    ((blocks.map weigh).zipIdx.map fun x => (s!"{name}-bits[{x.2}]", x.1)) ++
      ((lowerPairs widths.length).zip products).map fun x =>
        (s!"{name}-prod[{x.1.1}*{x.1.2}]", x.2)
  valid : r.valid ↔ (∀ block ∈ blocks, ∀ x ∈ block, IsIdempotentElem x) ∧
    products = pairProducts (blocks.map weigh)

theorem mul_add_neg_one_eq_zero {x : F.Residue} : x * (x + -1) = 0 ↔ IsIdempotentElem x := by
  rw [mul_add, mul_neg_one, add_neg_eq_zero, IsIdempotentElem]

theorem yields_bit : Yields F c (bit F) fun id W r =>
    r = ⟨[W id], [], IsIdempotentElem (W id)⟩ := by
  refine yields_input.bind fun id d _ lt _ => ?_
  have parents : ∀ p ∈ (Gate.addConst id (F.ofInt (-1))).parents, p < d.size := by
    simpa [Gate.parents] using lt
  refine (yields_derived parents rfl).bind fun less e le less_lt _ => ?_
  have id_lt : id < e.size := (forall_named.1 lt).trans_le le
  have parents' : ∀ p ∈ (Gate.mul id less).parents, p < e.size := by
    simp [Gate.parents, id_lt, forall_named.1 less_lt]
  refine (yields_derived parents' rfl).bind fun product f le' lt' _ => ?_
  refine (yields_assertZero (forall_named.1 lt')).bind fun _ g le'' _ _ => ?_
  have id_lt' : id < g.size := id_lt.trans_le (le'.trans le'')
  refine yields_pure (forall_named.2 id_lt') fun W t₄ zero t₃ h₃ t₂ h₂ t₁ h₁ => ?_
  have eq₂ : W less = W id + (F.ofInt (-1) : Nat) * 1 := h₂.1
  have eq₃ : W product = W id * W less := h₃.1
  rw [h₁, h₂.2, h₃.2, zero, eq₃, eq₂, mul_one, F.cast_ofInt_neg_one, mul_add_neg_one_eq_zero]
  simp [Reading.append_def, Reading.empty_def]

theorem yields_oneBit (name : String) : Yields F c (oneBit F name) fun id W r =>
    r = ⟨[W id], [(name, W id)], IsIdempotentElem (W id)⟩ := by
  refine yields_bit.bind fun id d _ lt _ => ?_
  refine (yields_output (forall_named.1 lt) name).bind fun _ e le _ _ => ?_
  refine yields_pure (fun g mem => (lt g mem).trans_le le) fun W s named t input => ?_
  rw [input, named, Reading.append_empty, Reading.append_def]
  simp

theorem yields_int {width : Nat} (pos : 0 < width) (le : width ≤ maxIntBits) (name : String) :
    Yields F c (int F width name) fun id W r => IsInt width name (W id) r := by
  have bounded : ¬(width = 0 ∨ maxIntBits < width) := by omega
  rw [int, if_neg bounded]
  change Yields F c ((List.range width).mapM _ >>= _) _
  refine (yields_inputs (o := fun _ _ => []) fun _ _ d => yields_bit).bind ?_
  intro ids d _ lt known
  have scaling : ∀ p ∈ ids.zipIdx, ∀ e : Circuit, d.size ≤ e.size →
      Yields F e (mulConst p.1 (2 ^ p.2)) fun id W r => W id = W p.1 * 2 ^ p.2 ∧ r = ∅ := by
    intro p mem e le
    have id_lt : p.1 < e.size :=
      (forall_named_list.1 lt _ (List.fst_mem_of_mem_zipIdx mem)).trans_le le
    refine (yields_derived (by simpa [Gate.parents] using id_lt) rfl).mono fun id W r h => ?_
    refine ⟨?_, h.2⟩
    have eq : W id = W p.1 * (2 ^ p.2 : Nat) := h.1
    rw [eq, Nat.cast_pow, Nat.cast_ofNat]
  refine (yields_gates scaling).bind fun scaled e le lt' known' => ?_
  rw [← bind_assoc]
  -- There are as many scaled digits as digits, whatever the wires.
  have nonempty : scaled ≠ [] := by
    rintro rfl
    obtain ⟨-, -, length, -⟩ := known
    obtain ⟨W, -, values, -⟩ := known'
    have := congrArg List.length values
    simp at this length
    omega
  refine (yields_sum nonempty (forall_named_list.1 lt')).bind fun sum f _ sum_lt _ => ?_
  refine (yields_output (forall_named.1 sum_lt) name).bind fun _ g le' _ _ => ?_
  refine yields_pure (fun g mem => (sum_lt g mem).trans_le le') ?_
  rintro W o rfl s ⟨total, rfl⟩ t ⟨values, rfl⟩ u ⟨length, rfl⟩
  have weighed : W sum = weigh (ids.map W) := by
    have sum_eq := sum_scaled (ids.map W) 0
    rw [List.zipIdx_map, List.map_map] at sum_eq
    rw [total, values]
    simpa [Function.comp_def] using sum_eq
  rw [Reading.empty_append, Reading.empty_append, Reading.append_empty]
  refine ⟨?_, ?_, ?_, ?_⟩
  · simpa [Reading.append_def] using length
  · simpa [Reading.append_def] using weighed
  · simp [Reading.append_def]
  · simp [Reading.append_def]

theorem yields_intPow {width exponent steps : Nat} (pos : 0 < width) (le : width ≤ maxIntBits)
    (steps_eq : squarings exponent = .ok steps) (name : String) :
    Yields F c (intPow F width exponent name) fun id W r => ∃ digits powers : Reading F,
      IsIntPow width steps name (W id) digits powers ∧ r = digits ++ powers := by
  have start : intPow F width exponent name = (do
      let value ← int F width name
      let powers ← (List.range steps).mapM fun _ => free s!"{name}-pow"
      checkSquares F value powers
      return value) := by
    rw [intPow, steps_eq]
    rfl
  rw [start]
  refine (yields_int pos le name).bind fun value d _ lt _ => ?_
  have each (step : Nat) (_ : step ∈ List.range steps) (e : Circuit) :
      Yields F e (free s!"{name}-pow") fun id W r =>
        r = ⟨[W id], [(s!"{name}-pow", W id)], True⟩ := yields_free _
  refine (yields_named (p := fun _ => True) each).bind fun powers e le lt' _ => ?_
  have value_lt : value < e.size := (forall_named.1 lt).trans_le le
  refine (yields_checkSquares value_lt (forall_named_list.1 lt')).bind fun _ f le' _ _ => ?_
  refine yields_pure (forall_named.2 (value_lt.trans_le le')) ?_
  rintro W s rfl t ⟨length, rfl⟩ digits isInt
  rw [List.length_range] at length
  rw [Reading.append_empty]
  refine ⟨digits, _, ⟨isInt, ?_, ?_, ?_⟩, rfl⟩
  · simpa [Reading.append_def] using length
  · have values : ((List.range steps).zip (powers.map W)).map Prod.snd = powers.map W :=
      List.map_snd_zip (by simp [length])
    have named := congrArg (List.map (s!"{name}-pow", ·)) values
    simpa [Reading.append_def, Function.comp_def] using named
  · simp [Reading.append_def, length]

theorem yields_countMin {hashes buckets : Nat} (hh : hashes ≠ 0) (hb : buckets ≠ 0)
    (name : String) : Yields F c (countMin F hashes buckets name) fun _ _ r =>
      IsSketch hashes buckets name r := by
  have bounded : ¬(hashes = 0 ∨ buckets = 0) := by omega
  rw [countMin, if_neg bounded]
  change Yields F c ((List.range (hashes * buckets)).mapM _ >>= _) _
  have each (i : Nat) (_ : i ∈ List.range (hashes * buckets)) (d : Circuit) :
      Yields F d (oneBit F s!"{name}[{i}]") fun id W r =>
        r = ⟨[W id], [(s!"{name}[{i}]", W id)], IsIdempotentElem (W id)⟩ := yields_oneBit _
  refine (yields_named each).bind fun cells d _ lt known => ?_
  obtain ⟨-, -, length, -⟩ := known
  rw [List.length_range] at length
  have rows : ∀ row ∈ List.range hashes, ∀ e : Circuit, d.size ≤ e.size →
      Yields F e (checkRow F ((cells.drop (row * buckets)).take buckets)) fun _ W r =>
        r = ⟨[], [], (((cells.drop (row * buckets)).take buckets).map W).sum = 1⟩ := by
    intro row mem e le
    refine yields_checkRow ?_ fun cell mem' => ?_
    · have inside : row * buckets < hashes * buckets :=
        Nat.mul_lt_mul_of_pos_right (List.mem_range.1 mem) (by omega)
      refine List.ne_nil_of_length_pos ?_
      rw [List.length_take, List.length_drop]
      omega
    · have cell_mem : cell ∈ cells := List.mem_of_mem_drop (List.mem_of_mem_take mem')
      exact (forall_named_list.1 lt cell cell_mem).trans_le le
  refine (yields_checks rows).mono ?_
  rintro _ W r rfl s ⟨-, rfl⟩
  refine ⟨by simpa [Reading.append_def] using length, ?_, ?_⟩
  · have numbered : ((List.range (cells.map W).length).zip (cells.map W)).map
          (fun x => (s!"{name}[{x.1}]", x.2)) =
        (cells.map W).zipIdx.map (fun x => (s!"{name}[{x.2}]", x.1)) := by
      apply List.ext_getElem <;> simp
    rw [List.length_map, length] at numbered
    simpa [Reading.append_def] using numbered
  · simp [Reading.append_def]

/-- Integers one after the other. -/
theorem isInts_all {name : String} {W : Nat → F.Residue} {widths : List Nat} {k : Nat}
    {steps : List (Nat × Reading F)}
    (h : List.Forall₂ (fun a s => IsInt a.1 s!"{name}-bits[{a.2}]" (W s.1) s.2)
      (widths.zipIdx k) steps) :
    ∃ blocks : List (List F.Residue), blocks.map List.length = widths ∧
      (steps.map (·.1)).map W = blocks.map weigh ∧
      Reading.all (steps.map (·.2)) = ⟨blocks.flatten,
        ((blocks.map weigh).zipIdx k).map fun x => (s!"{name}-bits[{x.2}]", x.1),
        ∀ block ∈ blocks, ∀ x ∈ block, IsIdempotentElem x⟩ := by
  induction widths generalizing k steps with
  | nil =>
    obtain rfl := List.forall₂_nil_left_iff.1 h
    exact ⟨[], rfl, rfl, by simp [Reading.empty_def]⟩
  | cons width widths ih =>
    obtain ⟨step, rest, first, others, rfl⟩ := List.forall₂_cons_left_iff.1 h
    obtain ⟨blocks, lengths, values, eq⟩ := ih others
    refine ⟨step.2.inputs :: blocks, ?_, ?_, ?_⟩
    · rw [List.map_cons, lengths, first.length]
    · rw [List.map_cons, List.map_cons, values, first.value_eq, List.map_cons]
    · rw [List.map_cons, Reading.all_cons, eq, Reading.append_def, first.outputs,
        first.value_eq, first.valid]
      simp

theorem forall_zip_iff {β γ : Type} {v : β → γ} {f : α → γ} {as : List α} {bs : List β}
    (length : bs.length = as.length) :
    (∀ q ∈ as.zip bs, v q.2 = f q.1) ↔ bs.map v = as.map f := by
  induction as generalizing bs with
  | nil => simp [List.length_eq_zero_iff.1 length]
  | cons a as ih =>
    obtain ⟨b, bs, rfl⟩ := List.exists_cons_of_length_eq_add_one length
    rw [List.zip_cons_cons, List.forall_mem_cons, ih (Nat.succ.inj length), List.map_cons,
      List.map_cons, List.cons.injEq]

theorem yields_checkProducts {terms products : List Nat} (ht : ∀ t ∈ terms, t < c.size)
    (hp : ∀ p ∈ products, p < c.size)
    (length : products.length = (lowerPairs terms.length).length) :
    Yields F c (((lowerPairs terms.length).zip products).forM fun q => do
      let _ ← checkMul F (terms.getD q.1.1 0) (terms.getD q.1.2 0) q.2) fun _ W r =>
        r = ⟨[], [], products.map W = pairProducts (terms.map W)⟩ := by
  have checks : ∀ q ∈ (lowerPairs terms.length).zip products, ∀ d : Circuit, c.size ≤ d.size →
      Yields F d (do let _ ← checkMul F (terms.getD q.1.1 0) (terms.getD q.1.2 0) q.2)
        fun _ W r => r = ⟨[], [], W q.2 = W (terms.getD q.1.1 0) * W (terms.getD q.1.2 0)⟩ := by
    intro q mem d le
    obtain ⟨pair_mem, product_mem⟩ := List.of_mem_zip mem
    obtain ⟨order, inside⟩ := mem_lowerPairs.1 pair_mem
    have term_lt (i : Nat) (hi : i < terms.length) : terms.getD i 0 < d.size := by
      rw [List.getD_eq_getElem _ _ hi]
      exact (ht _ (List.getElem_mem hi)).trans_le le
    refine (yields_checkMul (term_lt q.1.1 inside) (term_lt q.1.2 (by omega))
      (Nat.lt_add_right 2 ((hp q.2 product_mem).trans_le le))).bind fun _ e _ _ _ =>
        yields_pure forall_named_unit fun W r shown => ?_
    rw [shown, Reading.append_empty]
  refine (yields_checks checks).mono fun _ W r shown => ?_
  have term (i : Nat) (hi : i < terms.length) : W (terms.getD i 0) = (terms.map W).getD i 0 := by
    rw [List.getD_eq_getElem _ _ hi, List.getD_eq_getElem _ _ (by rwa [List.length_map]),
      List.getElem_map]
  have products_eq : pairProducts (terms.map W) = (lowerPairs terms.length).map fun p =>
      W (terms.getD p.1 0) * W (terms.getD p.2 0) := by
    rw [pairProducts, List.length_map]
    refine List.map_congr_left fun p mem => ?_
    obtain ⟨order, inside⟩ := mem_lowerPairs.1 mem
    rw [term p.1 inside, term p.2 (by omega)]
  rw [shown, products_eq, ← forall_zip_iff length]

theorem yields_linReg {widths : List Nat} (two : 2 ≤ widths.length)
    (fits : ∀ width ∈ widths, 0 < width ∧ width ≤ maxIntBits) (name : String) :
    Yields F c (linReg F widths name) fun _ _ r =>
      ∃ (blocks : List (List F.Residue)) (products : List F.Residue),
        IsRegression widths name blocks products r := by
  have bounded : ¬widths.length < 2 := by omega
  rw [linReg, if_neg bounded]
  have int (a : Nat × Nat) (mem : a ∈ widths.zipIdx) (d : Circuit) (_ : c.size ≤ d.size) :
      Yields F d (int F a.1 s!"{name}-bits[{a.2}]") fun id W r =>
        IsInt a.1 s!"{name}-bits[{a.2}]" (W id) r := by
    have width_fits := fits _ (List.fst_mem_of_mem_zipIdx mem)
    exact yields_int width_fits.1 width_fits.2 _
  refine (yields_mapM int).bind fun terms d _ lt known => ?_
  have length : terms.length = widths.length := by
    obtain ⟨W, r, steps, reads, rfl, -⟩ := known
    simpa using reads.length_eq.symm
  have free (p : Nat × Nat) (_ : p ∈ lowerPairs terms.length) (e : Circuit) :
      Yields F e (free s!"{name}-prod[{p.1}*{p.2}]") fun id W r =>
        r = ⟨[W id], [(s!"{name}-prod[{p.1}*{p.2}]", W id)], True⟩ := yields_free _
  refine (yields_named (p := fun _ => True) free).bind fun products e le lt' known' => ?_
  obtain ⟨-, -, lengthP, -⟩ := known'
  have terms_lt (t : Nat) (mem : t ∈ terms) : t < e.size :=
    (forall_named_list.1 lt t mem).trans_le le
  refine (yields_checkProducts terms_lt (forall_named_list.1 lt') lengthP).mono ?_
  rintro _ W r rfl s ⟨-, rfl⟩ t ⟨steps, reads, rfl, rfl⟩
  obtain ⟨blocks, lengths, values, eq⟩ := isInts_all reads
  rw [eq, values]
  refine ⟨blocks, products.map W, lengths, ?_, ?_, ?_, ?_⟩
  · rw [List.length_map, lengthP, length]
  · simp [Reading.append_def]
  · simp [Reading.append_def, length]
  · simp [Reading.append_def]

end Gadget

end PrivateSums
