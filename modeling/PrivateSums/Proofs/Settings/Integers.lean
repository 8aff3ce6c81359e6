import PrivateSums.Proofs.Settings.Validation

/-!
The integers of clients among the outputs of a schema. Each has a place of its own and stands there
modulo the modulus. A width may be that of a machine word, which is more than the smallest of the
built-in fields holds; every other valid width fits the field.
-/

namespace PrivateSums

namespace Measure

/-- The width of an integer that is summed as it is. -/
def width? : Measure → Option Nat
  | int _ bits | intUnsafe _ bits => some bits
  | _ => none

def numOutputs : Measure → Nat
  | int .. | intUnsafe .. | boolOr _ | boolAnd _ => 1
  | intPow _ _ exponent => ([2, 4, 8].filter (· ≤ exponent)).length + 1
  | countMin _ hashes buckets => hashes * buckets
  | linReg _ bits => bits.length + (Gadget.lowerPairs bits.length).length

/-- How many outputs the measures before this position have. -/
def outputsBefore (ms : List Measure) (i : Nat) : Nat := ((ms.take i).map numOutputs).sum

variable {F : Field} {m : Measure} {v : Value} {ms : List Measure} {values : List Value} {i : Nat}

theorem length_outputs (takes : m.Takes v) : (m.outputs F v).length = m.numOutputs := by
  cases takes with
  | int | intUnsafe | boolOr | boolAnd => rfl
  | intPow => rw [outputs, List.length_cons, List.length_map, numOutputs]
  | countMin length => rw [outputs, List.length_map, List.length_zipIdx, length, numOutputs]
  | linReg fit =>
    rw [outputs, List.length_append, List.length_map, List.length_map, List.length_zipIdx,
      List.length_map, fit.length_eq, numOutputs]

/-- The outputs of a measure stand behind those of the measures before it. -/
theorem getElem?_outputs (takes : List.Forall₂ Takes ms values) (hm : ms[i]? = some m) :
    ∃ v, values[i]? = some v ∧ m.Takes v ∧ ∀ j < m.numOutputs,
      (List.zipWith (outputs F) ms values).flatten[outputsBefore ms i + j]? =
        (m.outputs F v)[j]? := by
  induction takes generalizing i with
  | nil => simp at hm
  | @cons m' v' ms values first _ ih =>
    cases i with
    | zero =>
      obtain rfl : m' = m := by simpa using hm
      refine ⟨v', rfl, first, fun j hj => ?_⟩
      rw [outputsBefore, List.take_zero, List.map_nil, List.sum_nil, Nat.zero_add,
        List.zipWith_cons_cons, List.flatten_cons,
        List.getElem?_append_left ((length_outputs first).symm ▸ hj)]
    | succ i =>
      obtain ⟨v, hv, take, places⟩ := ih (by simpa using hm)
      refine ⟨v, by simpa using hv, take, fun j hj => ?_⟩
      have before : outputsBefore (m' :: ms) (i + 1) + j =
          (m'.outputs F v').length + (outputsBefore ms i + j) := by
        rw [outputsBefore, List.take_succ_cons, List.map_cons, List.sum_cons, length_outputs first,
          outputsBefore]
        omega
      rw [before, List.zipWith_cons_cons, List.flatten_cons, List.getElem?_append_right (by omega),
        Nat.add_sub_cancel_left, places j hj]

theorem of_width? {bits : Nat} (width : m.width? = some bits) (takes : m.Takes v) :
    ∃ n : UInt64, v = .int n ∧ n.toNat < 2 ^ bits ∧
      m.outputs F v = [(m.name, n.toNat % F.modulus)] ∧ m.numOutputs = 1 := by
  cases takes with
  | int fits | intUnsafe fits =>
    obtain rfl := Option.some.inj width
    exact ⟨_, rfl, fits, rfl, rfl⟩
  | _ => cases width

theorem width?_le {bits : Nat} (width : m.width? = some bits) (valid : m.validate = .ok ()) :
    bits ≤ 64 := by
  cases m with
  | int | intUnsafe =>
    obtain rfl := Option.some.inj width
    exact (checkBits_eq_ok.1 valid).2
  | _ => cases width

end Measure

namespace Schema

open PrivateSums.Measure

/-- What the outputs of a schema tell of the integers that clients give for the measure at a
position. -/
structure Tells (F : Field) (s : Schema) (i : Nat) (name : String) : Prop where
  /-- The integer stands modulo the modulus at a place that is the same for all clients. -/
  output : ∀ values inputs, s.encode F values = .ok inputs →
    ∃ (v : UInt64) (wires : Wires), values[i]? = some (.int v) ∧
      s.circuit.evaluate F inputs = .ok wires ∧
      (s.circuit.namedOutputs wires)[outputsBefore s.measures i]? =
        some (name, v.toNat % F.modulus)
  output_iff : ∀ (values : List Value) (inputs : List Nat) (wires : Wires) (v : UInt64),
    s.encode F values = .ok inputs → s.circuit.evaluate F inputs = .ok wires →
    values[i]? = some (.int v) →
    ((s.circuit.namedOutputs wires)[outputsBefore s.measures i]? = some (name, v.toNat) ↔
      v.toNat < F.modulus)
  /-- Integers below the modulus are told apart. -/
  outputs_ne : ∀ (values values' : List Value) (inputs inputs' : List Nat) (wires wires' : Wires)
    (v v' : UInt64), s.encode F values = .ok inputs → s.encode F values' = .ok inputs' →
    s.circuit.evaluate F inputs = .ok wires → s.circuit.evaluate F inputs' = .ok wires' →
    values[i]? = some (.int v) → values'[i]? = some (.int v') → v ≠ v' →
    v.toNat < F.modulus → v'.toNat < F.modulus →
    s.circuit.namedOutputs wires ≠ s.circuit.namedOutputs wires'

variable {F : Field} {s : Schema} {m : Measure} {i bits : Nat} {values : List Value}
  {inputs : List Nat}

/-- The integer that an accepted list of values holds for an integer measure. -/
theorem exists_int_of_encode (hm : s.measures[i]? = some m) (width : m.width? = some bits)
    (encoded : s.encode F values = .ok inputs) :
    ∃ v : UInt64, values[i]? = some (.int v) ∧ v.toNat < 2 ^ bits ∧
      (List.zipWith (outputs F) s.measures values).flatten[outputsBefore s.measures i]? =
        some (m.name, v.toNat % F.modulus) := by
  obtain ⟨v, hv, take, places⟩ := getElem?_outputs (F := F) (encode_eq_ok.1 encoded).1 hm
  obtain ⟨n, rfl, fits, outputs, one⟩ := of_width? (F := F) width take
  exact ⟨n, hv, fits, by simpa [outputs] using places 0 (by omega)⟩

theorem tells_of_output {name : String} (output : ∀ values inputs, s.encode F values = .ok inputs →
    ∃ (v : UInt64) (wires : Wires), values[i]? = some (.int v) ∧
      s.circuit.evaluate F inputs = .ok wires ∧
      (s.circuit.namedOutputs wires)[outputsBefore s.measures i]? =
        some (name, v.toNat % F.modulus)) : s.Tells F i name := by
  have place (values : List Value) (inputs : List Nat) (wires : Wires) (v : UInt64)
      (encoded : s.encode F values = .ok inputs)
      (evaluated : s.circuit.evaluate F inputs = .ok wires) (hv : values[i]? = some (.int v)) :
      (s.circuit.namedOutputs wires)[outputsBefore s.measures i]? =
        some (name, v.toNat % F.modulus) := by
    obtain ⟨w, _, hw, ok, out⟩ := output values inputs encoded
    obtain rfl := Except.ok.inj (ok.symm.trans evaluated)
    obtain rfl : w = v := by simpa [hv] using hw.symm
    exact out
  constructor
  case output => exact output
  case output_iff =>
    intro values inputs wires v encoded evaluated hv
    rw [place values inputs wires v encoded evaluated hv, Option.some.injEq, Prod.mk.injEq,
      Nat.mod_eq_iff_lt F.modulus_pos.ne']
    exact and_iff_right rfl
  case outputs_ne =>
    intro values values' inputs inputs' wires wires' v v' encoded encoded' evaluated evaluated'
      hv hv' ne lt lt' eq
    have out := place values inputs wires v encoded evaluated hv
    rw [eq, place values' inputs' wires' v' encoded' evaluated' hv', Option.some.injEq,
      Prod.mk.injEq, Nat.mod_eq_of_lt lt, Nat.mod_eq_of_lt lt'] at out
    exact ne (UInt64.toNat_inj.1 out.2.symm)

end Schema

/-- Valid widths fit a built-in field, but for that of a machine word in the smallest. -/
theorem FieldPreset.two_pow_le_modulus (preset : FieldPreset) {bits : Nat} (le : bits ≤ 64)
    (narrow : preset = .p63 → bits ≠ 64) : 2 ^ bits ≤ preset.field.modulus := by
  cases preset with
  | p63 =>
    calc 2 ^ bits ≤ 2 ^ 63 := Nat.pow_le_pow_right two_pos (by have := narrow rfl; omega)
      _ ≤ _ := by decide
  | p87 | p102 => exact (Nat.pow_le_pow_right two_pos le).trans (by decide)

namespace Settings

/-- The outputs of valid settings are the integers of the clients, except that a machine word beyond
the modulus of the smallest field is reduced. -/
theorem tells_of_validate (settings : Settings) (valid : settings.validate = .ok ()) :
    ∃ s, Schema.ofMeasures settings.preset.field settings.measures = .ok s ∧
      ∀ (i : Nat) (m : Measure) (bits : Nat), settings.measures[i]? = some m →
        m.width? = some bits → s.Tells settings.preset.field i m.name ∧
          ((settings.preset = .p63 → bits ≠ 64) → ∀ values inputs (v : UInt64),
            s.encode settings.preset.field values = .ok inputs → values[i]? = some (.int v) →
            v.toNat < settings.preset.field.modulus) := by
  obtain ⟨-, -, -, each, -⟩ := validate_eq_ok.1 valid
  obtain ⟨s, ok⟩ := Schema.exists_ofMeasures settings.preset.field each
  obtain ⟨measures, -, means⟩ := Schema.means_of_ofMeasures settings.preset.field ok
  rw [← measures] at means each
  refine ⟨s, ok, fun i m bits hm width => ?_⟩
  rw [← measures] at hm
  constructor
  · refine Schema.tells_of_output fun values inputs encoded => ?_
    obtain ⟨wires, evaluated, -, named⟩ := Schema.evaluate_of_encode means each
      (fun m mem => Measure.rowLength_le_modulus (each m mem) _) encoded
    obtain ⟨v, hv, -, out⟩ := Schema.exists_int_of_encode hm width encoded
    exact ⟨v, wires, hv, evaluated, named ▸ out⟩
  · intro narrow values inputs v encoded hv
    obtain ⟨w, hw, fits, -⟩ := Schema.exists_int_of_encode hm width encoded
    obtain rfl : w = v := by simpa [hv] using hw.symm
    have le := Measure.width?_le width (each m (List.mem_of_getElem? hm))
    exact fits.trans_le (settings.preset.two_pow_le_modulus le narrow)

/-- The least machine word that is reduced, to zero. -/
theorem tells_machineWord :
    let settings : Settings := ⟨.p63, 1, 1, 1, [.intUnsafe "x" 64]⟩
    settings.validate = .ok () ∧ ∃ s, Schema.ofMeasures FieldPreset.p63.field settings.measures =
      .ok s ∧ s.Tells FieldPreset.p63.field 0 "x" ∧
      s.encode FieldPreset.p63.field [.int 9223372036855300097] = .ok [0] ∧
      ∃ wires, s.circuit.evaluate FieldPreset.p63.field [0] = .ok wires ∧
        (s.circuit.namedOutputs wires)[0]? = some ("x", 0) := by
  intro settings
  have valid : settings.validate = .ok () := by decide
  obtain ⟨s, ok, all⟩ := tells_of_validate settings valid
  obtain ⟨tells, -⟩ := all 0 (.intUnsafe "x" 64) 64 rfl rfl
  have encoded : s.encode FieldPreset.p63.field [.int 9223372036855300097] = .ok [0] := by
    rw [Schema.encode_eq_ok, (Schema.means_of_ofMeasures _ ok).1]
    exact ⟨.cons (.intUnsafe (by decide)) .nil, by decide⟩
  obtain ⟨v, wires, hv, evaluated, out⟩ := tells.output _ _ encoded
  obtain rfl : 9223372036855300097 = v := by simpa using hv
  rw [(Schema.means_of_ofMeasures _ ok).1] at out
  exact ⟨valid, s, ok, tells, encoded, wires, evaluated, out.trans (by decide)⟩

end Settings

end PrivateSums
