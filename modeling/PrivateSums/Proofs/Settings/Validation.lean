import PrivateSums.Proofs.Field.Preset
import PrivateSums.Proofs.Schema.Exactness
import PrivateSums.Settings.Basic

/-!
What valid settings come to: positive numbers, measures that are valid each by itself, and names
that differ.
-/

namespace PrivateSums

namespace Settings

theorem requirePositive_eq_ok {setting : PositiveSetting} {value : Nat} :
    requirePositive setting value = .ok () ↔ 0 < value := by
  unfold requirePositive
  split
  · simp [*]
  · exact ⟨fun _ => Nat.pos_of_ne_zero ‹_›, fun _ => rfl⟩

theorem requirePositive_bind {setting : PositiveSetting} {value : Nat}
    {f : Unit → Except SettingsError Unit} :
    requirePositive setting value >>= f = .ok () ↔ 0 < value ∧ f () = .ok () := by
  rw [Answer.bind_eq_ok]
  constructor
  · rintro ⟨_, positive, rest⟩
    exact ⟨requirePositive_eq_ok.1 positive, rest⟩
  · rintro ⟨positive, rest⟩
    exact ⟨(), requirePositive_eq_ok.2 positive, rest⟩

theorem validateMeasures_eq_ok {seen : List String} {ms : List Measure} :
    validateMeasures seen ms = .ok () ↔ (∀ m ∈ ms, m.validate = .ok ()) ∧
      (ms.map Measure.name).Nodup ∧ ∀ m ∈ ms, m.name ∉ seen := by
  induction ms generalizing seen with
  | nil => simp [validateMeasures]
  | cons m ms ih =>
    rw [validateMeasures, Answer.bind_eq_ok, List.forall_mem_cons, List.forall_mem_cons,
      List.map_cons, List.nodup_cons]
    simp only [Answer.mapError_eq_ok]
    by_cases known : m.name ∈ seen
    · simp [known]
    · simp only [if_neg known, ih, List.mem_cons, not_or, List.mem_map]
      constructor
      · rintro ⟨⟨⟩, first, valid, names, fresh⟩
        exact ⟨⟨first, valid⟩, ⟨fun ⟨m', mem, eq⟩ => (fresh m' mem).1 eq, names⟩, known,
          fun m' mem => (fresh m' mem).2⟩
      · rintro ⟨⟨first, valid⟩, ⟨unique, names⟩, -, fresh⟩
        exact ⟨(), first, valid, names,
          fun m' mem => ⟨fun eq => unique ⟨m', mem, eq⟩, fresh m' mem⟩⟩

/-- No setting is looked at together with another, but for the names. -/
theorem validate_eq_ok {settings : Settings} : settings.validate = .ok () ↔
    0 < settings.servers ∧ 0 < settings.maxPending ∧ 0 < settings.rotation ∧
      (∀ m ∈ settings.measures, m.validate = .ok ()) ∧
      (settings.measures.map Measure.name).Nodup := by
  rw [validate, requirePositive_bind, requirePositive_bind, requirePositive_bind,
    validateMeasures_eq_ok]
  simp

end Settings

/-- A row of a valid sketch has fewer cells than a built-in field has elements. -/
theorem Measure.rowLength_le_modulus {m : Measure} (valid : m.validate = .ok ())
    (preset : FieldPreset) : m.rowLength ≤ preset.field.modulus := by
  have large : bucketLimit ≤ preset.field.modulus := by cases preset <;> decide
  cases m with
  | countMin name hashes buckets =>
    obtain ⟨-, -, columns⟩ := sizes_of_countMin valid
    rw [rowLength]
    omega
  | _ => exact Nat.zero_le _

end PrivateSums
