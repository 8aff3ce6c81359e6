import PrivateSums.Proofs.Schema.Measure

/-!
The circuit of a schema accepts exactly the encodings of valid values. Measure by measure the
encoder writes the inputs that the circuit reads, so that the inputs of all measures split the same
way for both.
-/

namespace PrivateSums.Schema

open PrivateSums.Measure

variable {F : Field} {ms : List Measure} {s : Schema} {values : List Value}

theorem ofMeasures_eq_ok : ofMeasures F ms = .ok s ↔ ∃ circuits : List Circuit,
    List.Forall₂ (fun m c => Measure.circuit F m = .ok c) ms circuits ∧
      ⟨ms, Circuit.andAll circuits⟩ = s := by
  rw [ofMeasures, Answer.bind_eq_ok]
  simp only [Answer.mapM_eq_ok, Answer.pure_eq, Except.ok.injEq]

theorem encodeValues_eq_ok (length : values.length = ms.length) {blocks : List (List Nat)} :
    (ms.zip values).mapM (fun (m, v) =>
        (encodeValue F m v).mapError (CheckerError.invalidValue m.name)) = .ok blocks ↔
      List.Forall₂ Takes ms values ∧ List.zipWith (encoding F) ms values = blocks := by
  rw [Answer.mapM_eq_ok]
  simp only [Answer.mapError_eq_ok, encodeValue_eq_ok]
  induction ms generalizing values blocks with
  | nil =>
    obtain rfl := List.length_eq_zero_iff.1 length
    simp [eq_comm]
  | cons m ms ih =>
    obtain ⟨v, values, rfl⟩ := List.exists_cons_of_length_eq_add_one length
    rw [List.zip_cons_cons, List.forall₂_cons_left_iff, List.forall₂_cons, List.zipWith_cons_cons]
    simp only [ih (Nat.succ.inj length)]
    constructor
    · rintro ⟨_, _, ⟨first, rfl⟩, ⟨rest, rfl⟩, rfl⟩
      exact ⟨⟨first, rest⟩, rfl⟩
    · rintro ⟨⟨first, rest⟩, rfl⟩
      exact ⟨_, _, ⟨first, rfl⟩, ⟨rest, rfl⟩, rfl⟩

/-- The encoder takes the values that the measures do, one each, and answers all their inputs. -/
theorem encode_eq_ok {inputs : List Nat} : s.encode F values = .ok inputs ↔
    List.Forall₂ Takes s.measures values ∧
      (List.zipWith (encoding F) s.measures values).flatten = inputs := by
  by_cases length : values.length = s.measures.length
  · rw [encode, if_pos length]
    change _ >>= _ = _ ↔ _
    rw [Answer.bind_eq_ok]
    simp only [encodeValues_eq_ok length, Answer.pure_eq, Except.ok.injEq]
    constructor
    · rintro ⟨_, ⟨takes, rfl⟩, eq⟩
      exact ⟨takes, eq⟩
    · rintro ⟨takes, eq⟩
      exact ⟨_, ⟨takes, rfl⟩, eq⟩
  · rw [encode, if_neg length]
    constructor
    · intro h
      cases h
    · rintro ⟨takes, -⟩
      exact absurd takes.length_eq.symm length

section Readings

variable {rs : List (Reading F)} (reads : List.Forall₂ (Reads F) ms rs)

include reads

theorem length_encodings (takes : List.Forall₂ Takes ms values) :
    (List.zipWith (encoding F) ms values).flatten.length = (Reading.all rs).inputs.length := by
  induction reads generalizing values with
  | nil =>
    obtain rfl := List.forall₂_nil_left_iff.1 takes
    rfl
  | cons first _ ih =>
    obtain ⟨v, values, take, rest, rfl⟩ := List.forall₂_cons_left_iff.1 takes
    rw [List.zipWith_cons_cons, List.flatten_cons, List.length_append, ih rest,
      length_encoding take first, Reading.all_cons, Reading.append_def, List.length_append]

/-- What the circuit shows of an encoding is about the encoded values. -/
theorem reading_encodings (takes : List.Forall₂ Takes ms values)
    (valid : ∀ m ∈ ms, m.validate = .ok ())
    (eq : (Reading.all rs).inputs =
      (List.zipWith (encoding F) ms values).flatten.map Nat.cast) :
    (List.Forall₂ IsOneHot ms values → (Reading.all rs).valid) ∧
      ((∀ m ∈ ms, m.rowLength ≤ F.modulus) → (Reading.all rs).valid →
        List.Forall₂ IsOneHot ms values) ∧
      (Reading.all rs).outputs.map (fun o => (o.1, o.2.val)) =
        (List.zipWith (outputs F) ms values).flatten := by
  induction reads generalizing values with
  | nil =>
    obtain rfl := List.forall₂_nil_left_iff.1 takes
    simp [Reading.empty_def]
  | @cons m r ms rs first _ ih =>
    obtain ⟨v, values, take, rest, rfl⟩ := List.forall₂_cons_left_iff.1 takes
    obtain ⟨valid_first, valid⟩ := List.forall_mem_cons.1 valid
    rw [Reading.all_cons, Reading.append_def, List.zipWith_cons_cons, List.flatten_cons,
      List.map_append] at eq
    -- The first measure's inputs are as many in the circuit as in the encoding.
    have length : r.inputs.length = ((m.encoding F v).map (Nat.cast : Nat → F.Residue)).length := by
      rw [List.length_map, length_encoding take first]
    obtain ⟨left, right⟩ := List.append_inj eq length
    obtain ⟨accepts, refuses, outputs⟩ := ih rest valid right
    rw [Reading.all_cons, Reading.append_def, List.forall₂_cons]
    refine ⟨fun oneHot => ?_, fun fits accepted => ?_, ?_⟩
    · exact ⟨valid_of_isOneHot take first left oneHot.1, accepts oneHot.2⟩
    · obtain ⟨fit, fits⟩ := List.forall_mem_cons.1 fits
      exact ⟨isOneHot_of_valid take first left fit accepted.1, refuses fits accepted.2⟩
    · rw [List.zipWith_cons_cons, List.flatten_cons, List.map_append, outputs,
        outputs_eq valid_first take first left]

/-- In a prime field checked measures accept nothing but encodings. -/
theorem exists_values [Fact F.modulus.Prime] (checked : ∀ m ∈ ms, m.isChecked)
    (valid : ∀ m ∈ ms, m.validate = .ok ()) (accepted : (Reading.all rs).valid) :
    ∃ values, List.Forall₂ Takes ms values ∧ (Reading.all rs).inputs =
      (List.zipWith (encoding F) ms values).flatten.map Nat.cast := by
  induction reads with
  | nil => exact ⟨[], .nil, rfl⟩
  | @cons m r ms rs first _ ih =>
    obtain ⟨checked_first, checked⟩ := List.forall_mem_cons.1 checked
    obtain ⟨valid_first, valid⟩ := List.forall_mem_cons.1 valid
    obtain ⟨v, take, left⟩ := exists_takes_of_valid checked_first valid_first first accepted.1
    obtain ⟨values, takes, right⟩ := ih checked valid accepted.2
    refine ⟨v :: values, .cons take takes, ?_⟩
    rw [Reading.all_cons, Reading.append_def, List.zipWith_cons_cons, List.flatten_cons,
      List.map_append, left, right]

theorem encodings_inj (checked : ∀ m ∈ ms, m.isChecked) {values' : List Value}
    (takes : List.Forall₂ Takes ms values) (takes' : List.Forall₂ Takes ms values')
    (eq : (List.zipWith (encoding F) ms values).flatten =
      (List.zipWith (encoding F) ms values').flatten) : values = values' := by
  induction reads generalizing values values' with
  | nil =>
    obtain rfl := List.forall₂_nil_left_iff.1 takes
    exact (List.forall₂_nil_left_iff.1 takes').symm
  | @cons m r ms rs first _ ih =>
    obtain ⟨v, values, take, rest, rfl⟩ := List.forall₂_cons_left_iff.1 takes
    obtain ⟨v', values', take', rest', rfl⟩ := List.forall₂_cons_left_iff.1 takes'
    obtain ⟨checked_first, checked⟩ := List.forall_mem_cons.1 checked
    have length := (length_encoding take first).trans (length_encoding take' first).symm
    obtain ⟨left, right⟩ := List.append_inj eq length
    rw [encoding_inj checked_first take take' left, ih checked rest rest' right]

end Readings

theorem encodings_lt (takes : List.Forall₂ Takes ms values) :
    ∀ x ∈ (List.zipWith (encoding F) ms values).flatten, x < F.modulus := by
  induction takes with
  | nil => simp
  | cons first _ ih =>
    intro x mem
    rw [List.zipWith_cons_cons, List.flatten_cons] at mem
    cases List.mem_append.1 mem with
    | inl mem => exact encoding_lt first x mem
    | inr mem => exact ih x mem

/-- The circuit of a schema and its encoder agree. -/
structure Exact (F : Field) (ms : List Measure) (s : Schema) : Prop where
  /-- Values are encoded when their number, kinds, lengths and widths match. -/
  encodes_iff : ∀ values, (∃ inputs, s.encode F values = .ok inputs) ↔ List.Forall₂ Takes ms values
  inputs_of_encode : ∀ values inputs, s.encode F values = .ok inputs →
    inputs.length = s.circuit.numInputs ∧ ∀ x ∈ inputs, x < F.modulus
  /-- An encoding is accepted when every row of every sketch has one set cell. -/
  check_of_encode : ∀ values inputs, s.encode F values = .ok inputs →
    ∃ accepted, s.circuit.check F inputs = .ok accepted ∧
      (accepted = true ↔ List.Forall₂ IsOneHot ms values)
  /-- The outputs are in measure order, and also there for encodings that are not accepted. -/
  outputs_of_encode : ∀ values inputs, s.encode F values = .ok inputs →
    ∃ wires, s.circuit.evaluate F inputs = .ok wires ∧
      s.circuit.namedOutputs wires = (List.zipWith (outputs F) ms values).flatten
  check_iff : (∀ m ∈ ms, m.isChecked) → ∀ inputs, inputs.length = s.circuit.numInputs →
    (∀ x ∈ inputs, x < F.modulus) → (s.circuit.check F inputs = .ok true ↔
      ∃ values, s.encode F values = .ok inputs ∧ List.Forall₂ IsOneHot ms values)
  encode_inj : (∀ m ∈ ms, m.isChecked) → ∀ values values' inputs,
    s.encode F values = .ok inputs → s.encode F values' = .ok inputs → values = values'

theorem check_eq_ok {c : Circuit} {inputs : List Nat} {wires : Wires}
    (h : c.evaluate F inputs = .ok wires) : c.check F inputs = .ok (c.accepts wires) := by
  rw [Circuit.check, h]
  rfl

section Circuit

variable (means : s.circuit.Means F fun r =>
  ∃ rs, List.Forall₂ (Reads F) s.measures rs ∧ r = .all rs) {inputs : List Nat}

include means

theorem length_of_encode (encoded : s.encode F values = .ok inputs) :
    inputs.length = s.circuit.numInputs := by
  obtain ⟨takes, rfl⟩ := encode_eq_ok.1 encoded
  symm
  apply means.numInputs_eq
  rintro r ⟨rs, reads, rfl⟩
  exact (length_encodings reads takes).symm

theorem evaluation_of_encode (valid : ∀ m ∈ s.measures, m.validate = .ok ())
    (encoded : s.encode F values = .ok inputs) :
    ∃ wires, s.circuit.evaluate F inputs = .ok wires ∧
      (List.Forall₂ IsOneHot s.measures values → s.circuit.accepts wires) ∧
      ((∀ m ∈ s.measures, m.rowLength ≤ F.modulus) → s.circuit.accepts wires →
        List.Forall₂ IsOneHot s.measures values) ∧
      s.circuit.namedOutputs wires = (List.zipWith (outputs F) s.measures values).flatten := by
  obtain ⟨wires, r, ok, ⟨rs, reads, rfl⟩, eq, accepts, named⟩ :=
    means.evaluate (length_of_encode means encoded)
  obtain ⟨takes, rfl⟩ := encode_eq_ok.1 encoded
  obtain ⟨accepted, refused, outputs⟩ := reading_encodings reads takes valid eq
  exact ⟨wires, ok, fun oneHot => accepts.2 (accepted oneHot),
    fun fits h => refused fits (accepts.1 h), named.trans outputs⟩

theorem evaluate_of_encode (valid : ∀ m ∈ s.measures, m.validate = .ok ())
    (fits : ∀ m ∈ s.measures, m.rowLength ≤ F.modulus)
    (encoded : s.encode F values = .ok inputs) :
    ∃ wires, s.circuit.evaluate F inputs = .ok wires ∧
      (s.circuit.accepts wires ↔ List.Forall₂ IsOneHot s.measures values) ∧
      s.circuit.namedOutputs wires = (List.zipWith (outputs F) s.measures values).flatten := by
  obtain ⟨wires, ok, accepted, refused, named⟩ := evaluation_of_encode means valid encoded
  exact ⟨wires, ok, ⟨refused fits, accepted⟩, named⟩

theorem exists_encode_of_check [Fact F.modulus.Prime] (checked : ∀ m ∈ s.measures, m.isChecked)
    (valid : ∀ m ∈ s.measures, m.validate = .ok ()) (length : inputs.length = s.circuit.numInputs)
    (canonical : ∀ x ∈ inputs, x < F.modulus) (accepted : s.circuit.check F inputs = .ok true) :
    ∃ values, s.encode F values = .ok inputs := by
  obtain ⟨wires, r, ok, ⟨rs, reads, rfl⟩, eq, accepts, -⟩ := means.evaluate length
  rw [check_eq_ok ok, Except.ok.injEq] at accepted
  obtain ⟨values, takes, inputs_eq⟩ := exists_values reads checked valid (accepts.1 accepted)
  exact ⟨values, encode_eq_ok.2
    ⟨takes, (map_cast_inj canonical (encodings_lt takes) (eq.symm.trans inputs_eq)).symm⟩⟩

theorem eq_of_encode (checked : ∀ m ∈ s.measures, m.isChecked) {values' : List Value}
    (encoded : s.encode F values = .ok inputs) (encoded' : s.encode F values' = .ok inputs) :
    values = values' := by
  -- Any wires that satisfy the circuit tell how its inputs split.
  obtain ⟨W, satisfied⟩ := Circuit.exists_satisfied F means.wellFormed
  obtain ⟨rs, reads, -⟩ := means.reads W satisfied
  obtain ⟨takes, eq⟩ := encode_eq_ok.1 encoded
  obtain ⟨takes', eq'⟩ := encode_eq_ok.1 encoded'
  exact encodings_inj reads checked takes takes' (eq.trans eq'.symm)

end Circuit

variable (F)

/-- Valid measures have a schema, over any field. -/
theorem exists_ofMeasures (valid : ∀ m ∈ ms, m.validate = .ok ()) :
    ∃ s, ofMeasures F ms = .ok s := by
  have each : ∀ m ∈ ms, ∃ c, Measure.circuit F m = .ok c := by
    intro m mem
    obtain ⟨c, ok, -⟩ := circuit_of_validate F (valid m mem)
    exact ⟨c, ok⟩
  obtain ⟨circuits, ok⟩ := Answer.exists_mapM_eq_ok each
  exact ⟨_, ofMeasures_eq_ok.2 ⟨circuits, Answer.mapM_eq_ok.1 ok, rfl⟩⟩

/-- A schema has the circuits of its measures, all of which are valid. -/
theorem means_of_ofMeasures (h : ofMeasures F ms = .ok s) : s.measures = ms ∧
    (∀ m ∈ ms, m.validate = .ok ()) ∧
    s.circuit.Means F fun r => ∃ rs, List.Forall₂ (Reads F) ms rs ∧ r = .all rs := by
  obtain ⟨circuits, built, rfl⟩ := ofMeasures_eq_ok.1 h
  refine ⟨rfl, fun m mem => ?_, Circuit.means_andAll ?_⟩
  · obtain ⟨i, rfl⟩ := List.mem_iff_get.1 mem
    obtain ⟨length, each⟩ := List.forall₂_iff_get.1 built
    exact validate_of_circuit F (each i i.isLt (length ▸ i.isLt))
  · exact (built.imp fun m c ok => means_circuit F ok).flip

variable [Fact F.modulus.Prime]

/-- The validity circuit is exact, in any prime field with at least as many elements as a row of a
sketch has cells. -/
theorem exact_ofMeasures (ms : List Measure) (fits : ∀ m ∈ ms, m.rowLength ≤ F.modulus) :
    ((∃ s, ofMeasures F ms = .ok s) ↔ ∀ m ∈ ms, m.validate = .ok ()) ∧
      ∀ s, ofMeasures F ms = .ok s → s.Exact F ms := by
  constructor
  · constructor
    · rintro ⟨s, ok⟩
      exact (means_of_ofMeasures F ok).2.1
    · exact exists_ofMeasures F
  · intro s ok
    obtain ⟨rfl, valid, means⟩ := means_of_ofMeasures F ok
    have check_of_encode (values : List Value) (inputs : List Nat)
        (encoded : s.encode F values = .ok inputs) :
        ∃ accepted, s.circuit.check F inputs = .ok accepted ∧
          (accepted = true ↔ List.Forall₂ IsOneHot s.measures values) := by
      obtain ⟨wires, evaluated, accepts, -⟩ := evaluate_of_encode means valid fits encoded
      exact ⟨_, check_eq_ok evaluated, accepts⟩
    constructor
    case encodes_iff =>
      intro values
      simp only [encode_eq_ok, exists_and_left, exists_eq', and_true]
    case inputs_of_encode =>
      intro values inputs encoded
      refine ⟨length_of_encode means encoded, ?_⟩
      obtain ⟨takes, rfl⟩ := encode_eq_ok.1 encoded
      exact encodings_lt takes
    case check_of_encode => exact check_of_encode
    case outputs_of_encode =>
      intro values inputs encoded
      obtain ⟨wires, evaluated, -, named⟩ := evaluate_of_encode means valid fits encoded
      exact ⟨wires, evaluated, named⟩
    case check_iff =>
      intro checked inputs length canonical
      constructor
      · intro accepted
        obtain ⟨values, encoded⟩ :=
          exists_encode_of_check means checked valid length canonical accepted
        obtain ⟨answer, eq, oneHot⟩ := check_of_encode values inputs encoded
        exact ⟨values, encoded, oneHot.1 (Except.ok.inj (eq.symm.trans accepted))⟩
      · rintro ⟨values, encoded, oneHot⟩
        obtain ⟨answer, eq, iff⟩ := check_of_encode values inputs encoded
        rw [eq, iff.2 oneHot]
    case encode_inj =>
      intro checked values values' inputs encoded encoded'
      exact eq_of_encode means checked encoded encoded'

theorem exact_seventeen :
    (∀ m ∈ [Measure.int "age" 3, .countMin "words" 1 3], m.rowLength ≤ Field.seventeen.modulus) ∧
      ∃ s : Schema, ofMeasures .seventeen [.int "age" 3, .countMin "words" 1 3] = .ok s ∧
        s.Exact .seventeen [.int "age" 3, .countMin "words" 1 3] ∧
        s.circuit.check .seventeen [1, 0, 1, 0, 1, 0] = .ok true := by
  have fits : ∀ m ∈ [Measure.int "age" 3, .countMin "words" 1 3],
      m.rowLength ≤ Field.seventeen.modulus := by decide
  have all := exact_ofMeasures .seventeen [.int "age" 3, .countMin "words" 1 3] fits
  obtain ⟨s, ok⟩ := all.1.2 (by decide)
  obtain ⟨accepted, eq, iff⟩ := (all.2 s ok).check_of_encode
    [.int 5, .sketch [false, true, false]] [1, 0, 1, 0, 1, 0] (by
      rw [encode_eq_ok, (means_of_ofMeasures .seventeen ok).1]
      exact ⟨.cons (.int (by decide)) (.cons (.countMin rfl) .nil), by decide⟩)
  have oneHot : IsOneHot (.countMin "words" 1 3) (.sketch [false, true, false]) := by
    intro row hrow
    obtain rfl : row = 0 := by omega
    rfl
  refine ⟨fits, s, ok, all.2 s ok, ?_⟩
  rw [eq, iff.2 (.cons trivial (.cons oneHot .nil))]

end PrivateSums.Schema
