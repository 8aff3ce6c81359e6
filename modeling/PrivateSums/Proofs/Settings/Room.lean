import PrivateSums.Deployment.Server
import PrivateSums.Proofs.Check.Room
import PrivateSums.Proofs.Circuit.Products
import PrivateSums.Proofs.Settings.Validation

/-!
Whether valid settings can be deployed. Their measures always have a schema. Servers start and
clients can send when the products of all measures together are fewer than half the roots of unity
of the field; otherwise both are refused, since a measure is validated by itself.
-/

namespace PrivateSums

namespace Measure

variable (F : Field)

/-- The number of products in the circuit of a measure. -/
def products : Measure → Nat
  | int _ bits => bits
  | intPow _ bits exponent => bits + exponent.log2
  | intUnsafe .. | boolOr _ | boolAnd _ => 0
  | countMin _ hashes buckets => hashes * buckets
  | linReg _ bits => bits.sum + bits.length * (bits.length + 1) / 2

theorem adds_gadget (m : Measure) : Builder.Adds (m.gadget F) m.products fun _ => True := by
  cases m with
  | int name bits => exact (Gadget.adds_int F bits name).discard
  | intPow name bits exponent => exact (Gadget.adds_intPow F bits exponent name).discard
  | intUnsafe name | boolOr name | boolAnd name => exact (Gadget.adds_free name).discard
  | countMin name hashes buckets => exact Gadget.adds_countMin F hashes buckets name
  | linReg name bits => exact Gadget.adds_linReg F bits name

theorem numMuls_circuit {m : Measure} {c : Circuit} (h : m.circuit F = .ok c) :
    c.numMuls = m.products := by
  obtain ⟨_, -, built⟩ := Answer.bind_eq_ok.1 h
  exact (m.adds_gadget F).numMuls_eq (Answer.mapError_eq_ok.1 built)

end Measure

theorem Schema.numMuls_ofMeasures {F : Field} {ms : List Measure} {s : Schema}
    (h : ofMeasures F ms = .ok s) : s.circuit.numMuls = (ms.map Measure.products).sum := by
  obtain ⟨circuits, built, rfl⟩ := ofMeasures_eq_ok.1 h
  have counts : circuits.map Circuit.numMuls = ms.map Measure.products := by
    clear h
    induction built with
    | nil => rfl
    | cons first _ ih =>
      rw [List.map_cons, List.map_cons, Measure.numMuls_circuit F first, ih]
  rw [Circuit.numMuls_andAll, counts]

namespace Settings

/-- The number of products that the circuit of all measures has. -/
def products (settings : Settings) : Nat := (settings.measures.map Measure.products).sum

/-- Every server starts, and every client sends the values that the schema encodes. -/
structure Deploys (settings : Settings) (s : Schema) : Prop where
  starts : ∀ index < settings.servers, ∃ server, Server.start settings.preset.field s.circuit
    settings.servers settings.maxPending index = .ok server
  sends : ∀ (σ : Type) [WordSource σ] (g : σ) (values : List Value) (inputs : List Nat),
    s.encode settings.preset.field values = .ok inputs → ∀ leader < settings.servers,
      ∃ requests g', (ClientRequest.ofValues settings.preset.field s values settings.servers
        leader).run.run g = (.ok requests, g')

/-- No server starts and no client sends, for want of roots of unity. -/
structure LacksRoots (settings : Settings) (s : Schema) (order : Nat) : Prop where
  starts : ∀ index < settings.servers, Server.start settings.preset.field s.circuit
    settings.servers settings.maxPending index = .error (.checker (.polynomial
      (.field (.unsupportedRootOrder order settings.preset.field.twoOrder))))
  sends : ∀ (σ : Type) [WordSource σ] (g : σ) (values : List Value) (inputs : List Nat),
    s.encode settings.preset.field values = .ok inputs → ∀ leader < settings.servers,
      ((ClientRequest.ofValues settings.preset.field s values settings.servers
        leader).run.run g).1 = .error (.polynomial
          (.field (.unsupportedRootOrder order settings.preset.field.twoOrder)))

variable {settings : Settings} {s : Schema}

theorem ofValues_run {F : Field} {σ : Type} [WordSource σ] {values : List Value}
    {inputs : List Nat} (encoded : s.encode F values = .ok inputs) (servers leader : Nat) (g : σ) :
    (ClientRequest.ofValues F s values servers leader).run.run g =
      (ClientRequest.ofInputs F s.circuit inputs servers leader).run.run g := by
  rw [ClientRequest.ofValues, encoded, Answer.bind_run, Answer.lift_run]

theorem fits_iff (ok : Schema.ofMeasures settings.preset.field settings.measures = .ok s) :
    2 * s.circuit.domainSize ≤ 2 ^ settings.preset.field.twoOrder ↔
      settings.products < 2 ^ 18 := by
  rw [Circuit.fits_iff, Schema.numMuls_ofMeasures ok]
  rfl

theorem deploys_of_products_lt
    (ok : Schema.ofMeasures settings.preset.field settings.measures = .ok s)
    (room : settings.products < 2 ^ 18) : settings.Deploys s := by
  obtain ⟨measures, -, means⟩ := Schema.means_of_ofMeasures settings.preset.field ok
  rw [← measures] at means
  have fits := (fits_iff ok).2 room
  constructor
  · intro index hi
    obtain ⟨domain, -, made, -⟩ := CircuitDomain.ofCircuit_eq_ok (F := settings.preset.field) fits
    rw [Server.start, if_pos hi, made]
    exact ⟨_, rfl⟩
  · intro σ _ g values inputs encoded leader hl
    rw [ofValues_run encoded]
    exact ClientRequest.exists_ofInputs means.wellFormed (Schema.length_of_encode means encoded)
      fits hl g

theorem lacksRoots_of_le_products
    (ok : Schema.ofMeasures settings.preset.field settings.measures = .ok s)
    (large : 2 ^ 18 ≤ settings.products) :
    settings.LacksRoots s (s.circuit.lackingOrder settings.preset.field) := by
  obtain ⟨measures, -, means⟩ := Schema.means_of_ofMeasures settings.preset.field ok
  rw [← measures] at means
  have unfit := mt (fits_iff ok).1 large.not_gt
  constructor
  · intro index hi
    rw [Server.start, if_pos hi, CircuitDomain.ofCircuit_eq_error unfit]
    rfl
  · intro σ _ g values inputs encoded leader hl
    rw [ofValues_run encoded]
    exact ClientRequest.ofInputs_eq_error means.wellFormed (Schema.length_of_encode means encoded)
      unfit hl g

theorem deployment_of_validate (settings : Settings) (valid : settings.validate = .ok ()) :
    ∃ s, Schema.ofMeasures settings.preset.field settings.measures = .ok s ∧
      (settings.products < 2 ^ 18 → settings.Deploys s) ∧
      (2 ^ 18 ≤ settings.products →
        settings.LacksRoots s (s.circuit.lackingOrder settings.preset.field)) := by
  obtain ⟨-, -, -, each, -⟩ := validate_eq_ok.1 valid
  obtain ⟨s, ok⟩ := Schema.exists_ofMeasures settings.preset.field each
  exact ⟨s, ok, deploys_of_products_lt ok, lacksRoots_of_le_products ok⟩

theorem deployment_standard : standard.validate = .ok () ∧
    ∃ s, Schema.ofMeasures standard.preset.field standard.measures = .ok s ∧
      standard.Deploys s := by
  have valid : standard.validate = .ok () := by decide
  obtain ⟨s, ok, deploys, -⟩ := deployment_of_validate standard valid
  exact ⟨valid, s, ok, deploys (by decide)⟩

/-- A sketch with as many cells as there are roots of unity is valid, but no server starts. -/
theorem not_deploys_of_validate :
    ¬ ∀ settings : Settings, settings.validate = .ok () →
      ∃ s, Schema.ofMeasures settings.preset.field settings.measures = .ok s ∧
        settings.Deploys s := by
  intro all
  obtain ⟨s, ok, deploys⟩ := all ⟨.p87, 1, 1, 1, [.countMin "sketch" 8 65536]⟩ (by decide)
  obtain ⟨server, started⟩ := deploys.starts 0 (by decide)
  rw [(lacksRoots_of_le_products ok (by decide)).starts 0 (by decide)] at started
  cases started

end Settings

end PrivateSums
