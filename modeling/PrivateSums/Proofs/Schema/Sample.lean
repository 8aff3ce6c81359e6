import PrivateSums.Proofs.Schema.Exactness
import PrivateSums.Random.ChaCha20
import PrivateSums.Schema.Sample

/-!
Random values are valid, whatever the source: each is one that its measure takes, with one set cell
in every row of a sketch. So the circuit accepts their encodings.
-/

namespace PrivateSums

namespace Random

variable {σ : Type} [WordSource σ]

theorem index_lt {bound : Nat} (pos : 0 < bound) (g : σ) : ((index bound).run g).1 < bound := by
  have word_lt (w : UInt64) : w.toNat * bound / UInt64.size < bound := by
    rw [Nat.div_lt_iff_lt_mul (by decide), Nat.mul_comm bound]
    exact Nat.mul_lt_mul_of_pos_right w.toNat_lt pos
  exact word_lt _

end Random

namespace Schema

open PrivateSums.Measure

variable {σ : Type} [WordSource σ]

theorem randomBits_lt (bits : Nat) (g : σ) : ((randomBits bits).run g).1.toNat < 2 ^ bits := by
  change (if 64 ≤ bits then (Random.word64.run g).1
    else ((Random.word64.run g).1.toNat % 2 ^ bits).toUInt64).toNat < 2 ^ bits
  generalize (Random.word64.run g).1 = word
  split
  · exact Nat.lt_of_lt_of_le word.toNat_lt (Nat.pow_le_pow_right (by decide) ‹64 ≤ bits›)
  · have below : word.toNat % 2 ^ bits < 2 ^ bits := Nat.mod_lt _ (Nat.two_pow_pos bits)
    have le : word.toNat % 2 ^ bits ≤ word.toNat := Nat.mod_le ..
    rw [Nat.toUInt64_eq, UInt64.toNat_ofNat_of_lt' (Nat.lt_of_le_of_lt le word.toNat_lt)]
    exact below

theorem randomTerms_fit (bits : List Nat) (g : σ) :
    List.Forall₂ (fun term width => term.toNat < 2 ^ width) ((randomTerms bits).run g).1 bits := by
  induction bits generalizing g with
  | nil => exact .nil
  | cons width bits ih => exact .cons (randomBits_lt width g) (ih _)

/-- A row has one set cell. -/
theorem count_row {buckets set : Nat} (lt : set < buckets) :
    ((List.range buckets).map (· == set)).count true = 1 := by
  have here : (List.range buckets).count set = 1 :=
    List.count_eq_one_of_mem List.nodup_range (List.mem_range.2 lt)
  rw [List.count_eq_countP, List.countP_map, ← here, List.count_eq_countP]
  apply List.countP_congr
  simp

theorem randomSketch_run {buckets : Nat} (pos : 0 < buckets) (rows : Nat) (g : σ) :
    ((randomSketch buckets rows).run g).1.length = rows * buckets ∧ ∀ row < rows,
      ((((randomSketch buckets rows).run g).1.drop (row * buckets)).take buckets).count true =
        1 := by
  induction rows generalizing g with
  | zero => exact ⟨(Nat.zero_mul buckets).symm, fun _ lt => absurd lt (Nat.not_lt_zero _)⟩
  | succ rows ih =>
    obtain ⟨length, later⟩ := ih ((Random.index buckets).run g).2
    have first := count_row (Random.index_lt pos g)
    have eq : ((randomSketch buckets (rows + 1)).run g).1 =
        (List.range buckets).map (· == ((Random.index buckets).run g).1) ++
          ((randomSketch buckets rows).run ((Random.index buckets).run g).2).1 := rfl
    rw [eq]
    generalize ((randomSketch buckets rows).run ((Random.index buckets).run g).2).1 = rest at *
    generalize eq' : (List.range buckets).map (· == ((Random.index buckets).run g).1) = cells at *
    have width : cells.length = buckets := by simp [← eq']
    constructor
    · rw [List.length_append, width, length, Nat.succ_mul, Nat.add_comm]
    · intro row lt
      cases row with
      | zero => rwa [Nat.zero_mul, List.drop_zero, ← width, List.take_left]
      | succ row =>
        rw [Nat.succ_mul, Nat.add_comm, ← List.drop_drop, ← width, List.drop_left, width]
        exact later row (by omega)

/-- A random value is one of the measure, and valid. -/
theorem randomValue_valid {m : Measure} (valid : m.validate = .ok ()) (g : σ) :
    m.Takes ((randomValue m).run g).1 ∧ m.IsOneHot ((randomValue m).run g).1 := by
  cases m with
  | int name bits => exact ⟨.int (randomBits_lt bits g), trivial⟩
  | intPow name bits exponent => exact ⟨.intPow (randomBits_lt bits g), trivial⟩
  | intUnsafe name bits => exact ⟨.intUnsafe (randomBits_lt bits g), trivial⟩
  | boolOr name => exact ⟨.boolOr, trivial⟩
  | boolAnd name => exact ⟨.boolAnd, trivial⟩
  | countMin name hashes buckets =>
    obtain ⟨-, columns, -⟩ := sizes_of_countMin valid
    obtain ⟨length, rows⟩ := randomSketch_run columns hashes g
    exact ⟨.countMin length, rows⟩
  | linReg name bits => exact ⟨.linReg (randomTerms_fit bits g), trivial⟩

theorem randomValues_valid {measures : List Measure} (valid : ∀ m ∈ measures, m.validate = .ok ())
    (g : σ) : List.Forall₂ Takes measures ((randomValues measures).run g).1 ∧
      List.Forall₂ IsOneHot measures ((randomValues measures).run g).1 := by
  induction measures generalizing g with
  | nil => exact ⟨.nil, .nil⟩
  | cons m measures ih =>
    have first := randomValue_valid (valid m List.mem_cons_self) g
    have rest := ih (fun m' mem => valid m' (List.mem_cons_of_mem _ mem)) ((randomValue m).run g).2
    exact ⟨.cons first.1 rest.1, .cons first.2 rest.2⟩

/-- The encodings of random values are accepted. -/
theorem exists_encode_random {F : Field} [Fact F.modulus.Prime] {s : Schema} {ms : List Measure}
    (built : ofMeasures F ms = .ok s) (fits : ∀ m ∈ ms, m.rowLength ≤ F.modulus) (g : σ) :
    ∃ inputs, s.encode F ((randomValues s.measures).run g).1 = .ok inputs ∧
      inputs.length = s.circuit.numInputs ∧ s.circuit.check F inputs = .ok true := by
  obtain ⟨rfl, valid, means⟩ := means_of_ofMeasures F built
  obtain ⟨takes, oneHot⟩ := randomValues_valid valid g
  have encoded := (encode_eq_ok (F := F)).2 ⟨takes, rfl⟩
  obtain ⟨wires, evaluated, accepts, -⟩ := evaluate_of_encode means valid fits encoded
  refine ⟨_, encoded, length_of_encode means encoded, ?_⟩
  rw [check_eq_ok evaluated, accepts.2 oneHot]

/-- Valid measures have a schema over any field, prime or not, and random values are valid for it,
whatever the source: as many as there are measures, each of its measure's kind and within its
widths, with one set cell in every row of a sketch. They are encoded, and the circuit accepts
that. -/
theorem check_randomValues (F : Field) {ms : List Measure} (valid : ∀ m ∈ ms, m.validate = .ok ())
    (g : σ) : ∃ s inputs, ofMeasures F ms = .ok s ∧ s.measures = ms ∧
      let values := ((randomValues s.measures).run g).1
      values.length = ms.length ∧ List.Forall₂ Takes ms values ∧
        List.Forall₂ IsOneHot ms values ∧ s.encode F values = .ok inputs ∧
        s.circuit.check F inputs = .ok true := by
  obtain ⟨s, built⟩ := exists_ofMeasures F valid
  obtain ⟨rfl, -, means⟩ := means_of_ofMeasures F built
  obtain ⟨takes, oneHot⟩ := randomValues_valid valid g
  have encoded := (encode_eq_ok (F := F)).2 ⟨takes, rfl⟩
  obtain ⟨wires, evaluated, accepts, -⟩ := evaluation_of_encode means valid encoded
  refine ⟨s, _, built, rfl, takes.length_eq.symm, takes, oneHot, encoded, ?_⟩
  rw [check_eq_ok evaluated, accepts oneHot]

/-- Words of full width, and rows of more cells than the field has elements. -/
theorem check_randomValues_seventeen :
    let ms := [.int "word" 64, .linReg "line" [64, 3], .countMin "words" 2 40]
    (∀ m ∈ ms, m.validate = .ok ()) ∧ ∃ s inputs, ofMeasures .seventeen ms = .ok s ∧
      s.encode .seventeen
        ((randomValues ms).run (ChaCha20.ofKey ⟨Vector.replicate 32 0⟩)).1 = .ok inputs ∧
      s.circuit.check .seventeen inputs = .ok true := by
  intro ms
  have valid : ∀ m ∈ ms, m.validate = .ok () := by decide
  obtain ⟨s, inputs, built, measures, -, -, -, encoded, accepted⟩ :=
    check_randomValues .seventeen valid (ChaCha20.ofKey ⟨Vector.replicate 32 0⟩)
  rw [measures] at encoded
  exact ⟨valid, s, inputs, built, encoded, accepted⟩

end Schema

end PrivateSums
