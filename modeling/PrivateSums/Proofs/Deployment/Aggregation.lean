import PrivateSums.Deployment.Simulation
import PrivateSums.Proofs.Deployment.Refinement
import PrivateSums.Proofs.Deployment.Turns
import PrivateSums.Proofs.Schema.Sample
import PrivateSums.Proofs.Settings.Room

/-!
What a simulation comes to. Every submission returns a verdict, whatever the order of the steps, and
the totals are the sums of what the circuit computes from the inputs of those that were accepted.
-/

namespace PrivateSums

/-- The sum of every column of a table. -/
def Field.columns (F : Field) (n : Nat) (rows : List (List Nat)) : List Nat :=
  (List.range n).map fun i => F.sum (rows.map (·.getD i 0))

namespace Field

variable (F : Field) {n : Nat}

theorem zipWith_columns (rows : List (List Nat)) {row : List Nat} (length : row.length = n) :
    List.zipWith F.add (F.columns n rows) row = F.columns n (rows ++ [row]) := by
  refine List.ext_getElem (by simp [columns, length]) fun i hi hi' => ?_
  have lt : i < row.length := by simpa [columns, length] using hi'
  simp [columns, sum, lt]

theorem foldl_columns (rows : List (List Nat)) {more : List (List Nat)}
    (lengths : ∀ row ∈ more, row.length = n) :
    more.foldl (List.zipWith F.add) (F.columns n rows) = F.columns n (rows ++ more) := by
  induction more generalizing rows with
  | nil => rw [List.append_nil, List.foldl_nil]
  | cons row more ih =>
    obtain ⟨length, lengths⟩ := List.forall_mem_cons.1 lengths
    rw [List.foldl_cons, F.zipWith_columns rows length, ih _ lengths, List.append_assoc,
      List.singleton_append]

/-- Some rows may be summed up first. -/
theorem columns_append (rows more : List (List Nat)) :
    F.columns n (rows ++ more) = F.columns n (rows ++ [F.columns n more]) := by
  refine List.map_congr_left fun i mem => ?_
  rw [← F.cast_inj (F.sum_lt _) (F.sum_lt _)]
  simp [columns, List.mem_range.1 mem]

end Field

namespace Submission

def isAccepted (s : Submission) : Bool :=
  match s.result? with
  | some (.ok v) => v.accepted
  | _ => false

theorem isAccepted_of_result? {s : Submission} {v : Verdict} (h : s.result? = some (.ok v)) :
    s.isAccepted = v.accepted := by
  rw [isAccepted, h]

end Submission

namespace Simulation

/-- The trials whose submissions were accepted. -/
def accepted (trials : List Trial) (submissions : List Submission) : List Trial :=
  ((trials.zip submissions).filter (·.2.isAccepted)).map (·.1)

/-- What a simulation tells of its trials. -/
def reportOn (F : Field) (c : Circuit) (trials : List Trial) (submissions : List Submission) :
    Report :=
  report F c (List.zipWith (fun trial s => (trial.honest, Submission.result? s)) trials submissions)

/-- What the submission of a trial comes to. The output shares of one that is accepted sum to what
the circuit computes from the inputs. -/
inductive Settles (F : Field) (c : Circuit) (t : Trial) (s : Submission) : Prop
  | accepted {v : Verdict} {wires : Wires} (returned : s.result? = some (.ok v))
      (favourable : v.accepted) (evaluated : c.evaluate F t.inputs = .ok wires)
      (lengths : ∀ row ∈ v.outputShares, row.length = c.outputs.size)
      (sums : F.columns c.outputs.size v.outputShares = c.outputValues wires)
  | rejected {v : Verdict} (returned : s.result? = some (.ok v)) (unfavourable : ¬v.accepted)
      (invalid : ¬t.honest)

section Report

variable {F : Field} {c : Circuit} {t : Trial} {s : Submission} {trials : List Trial}
  {submissions : List Submission}

theorem Settles.exists_verdict (h : Settles F c t s) : ∃ v, s.result? = some (.ok v) := by
  cases h with
  | accepted returned | rejected returned => exact ⟨_, returned⟩

theorem Settles.isAccepted (h : Settles F c t s) (honest : t.honest) : s.isAccepted := by
  cases h with
  | accepted returned favourable => rwa [Submission.isAccepted_of_result? returned]
  | rejected _ _ invalid => exact absurd honest invalid

theorem accepted_cons (t : Trial) (s : Submission) (trials : List Trial)
    (submissions : List Submission) : accepted (t :: trials) (s :: submissions) =
      if s.isAccepted then t :: accepted trials submissions else accepted trials submissions := by
  cases h : s.isAccepted <;> simp [accepted, h]

/-- Every trial is counted as accepted or as a rejected one that was not honest. -/
theorem tally_of_settles (settled : List.Forall₂ (Settles F c) trials submissions) (tally : Tally) :
    ∃ rejected, (accepted trials submissions).length + rejected = trials.length ∧
      (List.zipWith (fun trial s => (trial.honest, Submission.result? s)) trials
        submissions).foldl (fun t (honest, outcome) => t.count honest outcome) tally =
        { tally with
          accepted := tally.accepted + (accepted trials submissions).length
          rejected := tally.rejected + rejected } := by
  induction settled generalizing tally with
  | nil => exact ⟨0, rfl, rfl⟩
  | @cons t s trials submissions first _ ih =>
    rw [accepted_cons, List.zipWith_cons_cons, List.foldl_cons]
    cases first with
    | accepted returned favourable =>
      obtain ⟨rejected, count, eq⟩ := ih { tally with accepted := tally.accepted + 1 }
      rw [Submission.isAccepted_of_result? returned, if_pos favourable, List.length_cons]
      refine ⟨rejected, by rw [List.length_cons]; omega, ?_⟩
      dsimp only
      rw [returned, Tally.count, if_pos favourable, eq]
      simp only [Nat.add_assoc, Nat.add_comm 1]
    | rejected returned unfavourable invalid =>
      obtain ⟨rejected, count, eq⟩ := ih { tally with rejected := tally.rejected + 1 }
      rw [Submission.isAccepted_of_result? returned, if_neg unfavourable]
      refine ⟨rejected + 1, by rw [List.length_cons]; omega, ?_⟩
      dsimp only
      rw [returned, Tally.count, if_neg unfavourable, if_neg invalid]
      refine eq.trans ?_
      simp only [Nat.add_assoc, Nat.add_comm 1]

/-- The totals are the column sums of what the circuit computes in the accepted trials. -/
theorem totals_of_settles (settled : List.Forall₂ (Settles F c) trials submissions)
    (rows : List (List Nat)) :
    ∃ wires, List.Forall₂ (fun t w => c.evaluate F t.inputs = .ok w) (accepted trials submissions)
        wires ∧
      ((List.zipWith (fun trial s => (trial.honest, Submission.result? s)) trials
        submissions).map (·.2)).foldl (addOutcome F) (F.columns c.outputs.size rows) =
          F.columns c.outputs.size (rows ++ wires.map c.outputValues) := by
  induction settled generalizing rows with
  | nil => exact ⟨[], .nil, by simp⟩
  | @cons t s trials submissions first _ ih =>
    rw [accepted_cons, List.zipWith_cons_cons, List.map_cons, List.foldl_cons]
    cases first with
    | @accepted v wires returned favourable evaluated lengths sums =>
      obtain ⟨others, each, eq⟩ := ih (rows ++ [c.outputValues wires])
      rw [Submission.isAccepted_of_result? returned, if_pos favourable]
      refine ⟨wires :: others, .cons evaluated each, ?_⟩
      rw [returned, addOutcome, if_pos favourable, Verdict.addTo, F.foldl_columns rows lengths,
        F.columns_append, sums, eq, List.map_cons, List.append_assoc, List.singleton_append]
    | rejected returned unfavourable invalid =>
      obtain ⟨others, each, eq⟩ := ih rows
      rw [Submission.isAccepted_of_result? returned, if_neg unfavourable]
      refine ⟨others, each, ?_⟩
      rw [returned, addOutcome, if_neg unfavourable, eq]

/-- A simulation in which nothing goes wrong. -/
structure Exact (F : Field) (c : Circuit) (trials : List Trial) (submissions : List Submission) :
    Prop where
  same : List.Forall₂ (fun t s => { s with progress := .arrived } = t.submission) trials submissions
  returned : ∀ s ∈ submissions, ∃ v, s.result? = some (.ok v)
  honest : ∀ r ∈ trials.zip submissions, r.1.honest → r.2.isAccepted
  clean : (reportOn F c trials submissions).isClean
  accepted_eq : (reportOn F c trials submissions).tally.accepted =
    (accepted trials submissions).length
  count_eq : (reportOn F c trials submissions).tally.accepted +
    (reportOn F c trials submissions).tally.rejected = trials.length
  /-- Every output is told by its name, with the sum over the accepted trials. -/
  totals_eq : ∃ wires,
    List.Forall₂ (fun t w => c.evaluate F t.inputs = .ok w) (accepted trials submissions) wires ∧
      (reportOn F c trials submissions).totals =
        c.outputs.toList.map fun o => (o.name, (wires.map (·.at o.gate)).sum % F.modulus)

theorem exact_of_settles
    (same : List.Forall₂ (fun t s => { s with progress := .arrived } = t.submission) trials
      submissions)
    (settled : List.Forall₂ (Settles F c) trials submissions) :
    Exact F c trials submissions := by
  obtain ⟨length, each⟩ := List.forall₂_iff_zip.1 settled
  obtain ⟨rejected, count, tally⟩ := tally_of_settles settled .empty
  obtain ⟨wires, evaluated, totals⟩ := totals_of_settles settled []
  have tally : (reportOn F c trials submissions).tally =
      ⟨(accepted trials submissions).length, rejected, 0, 0⟩ := by
    refine tally.trans ?_
    simp [Tally.empty]
  refine ⟨same, fun s mem => ?_, fun r mem => (each mem).isAccepted, ?_, ?_, ?_, wires, evaluated,
    ?_⟩
  · obtain ⟨i, here, rfl⟩ := List.mem_iff_getElem.1 mem
    have paired : (trials[i], submissions[i]) ∈ trials.zip submissions := by
      rw [List.mem_iff_getElem]
      exact ⟨i, by simp [length, here], by simp⟩
    exact (each paired).exists_verdict
  · rw [Report.isClean, tally]
    rfl
  · rw [tally]
  · rw [tally]
    exact count
  · have none : (c.outputs.toList.map (·.name)).map (fun _ => 0) =
        F.columns c.outputs.size [] := by
      simp [Field.columns, Field.sum, Function.comp_def]
    have told : (reportOn F c trials submissions).totals = (c.outputs.toList.map (·.name)).zip
        (F.columns c.outputs.size (wires.map c.outputValues)) := by
      rw [reportOn, report, none, totals, List.nil_append]
    rw [told]
    refine List.ext_getElem (by simp [Field.columns]) fun i hi hi' => ?_
    have lt : i < c.outputs.size := by simpa using hi'
    simp [Field.columns, F.sum_eq_mod, Circuit.outputValues, lt, Function.comp_def]

end Report

section Trial

variable {σ : Type} [WordSource σ] {F : Field} {schema : Schema} {servers requests number : Nat}

/-- What is known of the trial of a number. -/
structure Made (σ : Type) [WordSource σ] (F : Field) (schema : Schema)
    (servers requests number : Nat) (t : Trial) : Prop where
  honest_eq : t.honest = decide (number < requests)
  valid : t.honest → schema.circuit.check F t.inputs = .ok true
  sent : ∃ (g : σ) (shares : List ClientRequest),
    ((ClientRequest.ofInputs F schema.circuit t.inputs servers (number % servers)).run.run g).1 =
        .ok shares ∧
      t.submission = .start .reliable number.toUInt64 (number % servers).toUInt64 shares

theorem length_randomInputs (n : Nat) (g : σ) : ((randomInputs F n).run g).1.length = n := by
  induction n generalizing g with
  | zero => rfl
  | succ n ih => exact congrArg Nat.succ (ih _)

/-- No trial fails, whatever is drawn for it. -/
theorem exists_trial [Fact F.modulus.Prime] {ms : List Measure}
    (built : Schema.ofMeasures F ms = .ok schema) (rows : ∀ m ∈ ms, m.rowLength ≤ F.modulus)
    (fits : 2 * schema.circuit.domainSize ≤ 2 ^ F.twoOrder) (some : 0 < servers)
    (requests number : Nat) (g : σ) :
    ∃ t g', (trial F schema servers requests number).run.run g = (.ok t, g') ∧
      Made σ F schema servers requests number t := by
  have wf := (Schema.means_of_ofMeasures F built).2.2.wellFormed
  have sends (inputs : List Nat) (length : inputs.length = schema.circuit.numInputs) (g : σ) :=
    ClientRequest.exists_ofInputs wf length fits (Nat.mod_lt number some) g
  by_cases honest : number < requests
  · obtain ⟨inputs, encoded, length, valid⟩ := Schema.exists_encode_random built rows g
    obtain ⟨shares, g', sent⟩ := sends inputs length ((Schema.randomValues schema.measures).run g).2
    refine ⟨⟨true, inputs, .start .reliable number.toUInt64 (number % servers).toUInt64 shares⟩, g',
      ?_, (decide_eq_true honest).symm, fun _ => valid, _, shares, congrArg Prod.fst sent, rfl⟩
    simp only [trial, decide_eq_true honest, if_true, Answer.bind_run, Answer.state_run,
      Answer.lift_run, encoded, sent, Answer.pure_run]
  · obtain ⟨shares, g', sent⟩ := sends _ (length_randomInputs (F := F) _ g)
      ((randomInputs F schema.circuit.numInputs).run g).2
    refine ⟨⟨false, _, .start .reliable number.toUInt64 (number % servers).toUInt64 shares⟩, g',
      ?_, (decide_eq_false honest).symm, nofun, _, shares, congrArg Prod.fst sent, rfl⟩
    simp only [trial, decide_eq_false honest, Bool.false_eq_true, if_false, Answer.bind_run,
      Answer.state_run, sent, Answer.pure_run]

end Trial

section Run

open World

variable {σ : Type} [WordSource σ] {F : Field} [Fact F.modulus.Prime] {schema : Schema}
  {domain : CircuitDomain} {k servers requests number x : Nat} {t : Trial}
  {drawn : Key → Prop} {result : Except ServerError Verdict}

theorem toNat_leader (few : number < 2 ^ 64) :
    (number % servers).toUInt64.toNat = number % servers :=
  UInt64.toNat_ofNat_of_lt' (Nat.lt_of_le_of_lt (Nat.mod_le ..) few)

/-- The requests of a trial are refused by no server, and the servers' verdict settles it. -/
theorem Made.settles (made : Made σ F schema servers requests number t)
    (wf : schema.circuit.WellFormed) (few : number < 2 ^ 64)
    (domainOk : CircuitDomain.ofCircuit F schema.circuit = .ok domain)
    (outcome : t.submission.Outcome F schema.circuit domain False drawn x result) :
    Settles F schema.circuit t { t.submission with progress := .returned result } := by
  obtain ⟨g, shares, sent, start⟩ := made.sent
  obtain ⟨k, size, hd⟩ := CircuitDomain.valid_of_ofCircuit domainOk
  obtain ⟨wires, evaluated, sums⟩ := ClientRequest.sum_outputValues_of_ofInputs wf sent
  obtain ⟨-, -, -, -, -, -, length, lt, -, admissible, -⟩ := ClientRequest.of_ofInputs wf sent
  have some : shares ≠ [] := by
    rw [← List.length_pos_iff, length]
    exact Nat.zero_lt_of_lt lt
  have leader : t.submission.leader.toNat = number % servers := by
    rw [start]
    exact toNat_leader few
  have requests_eq : t.submission.requests = shares := by rw [start, Submission.start]
  cases outcome with
  | refused refused =>
    obtain again | ⟨cause, refused, -⟩ := refused
    · exact again.elim
    rw [leader, requests_eq, ClientRequest.admitAll_eq_ok_iff.2 ⟨admissible, rfl⟩] at refused
    cases refused
  | @decided key v _ fresh =>
    rw [leader, requests_eq, Verdict.ofFresh_eq hd size admissible some] at fresh
    have told := Except.ok.inj fresh
    by_cases favourable : v.accepted
    · have rows : v.outputShares =
          (ClientRequest.parties F schema.circuit (number % servers) shares).map fun p =>
            schema.circuit.outputValues p.holding.wires := by
        rw [← told] at favourable ⊢
        exact Verdict.outputShares_ofSum favourable
      refine .accepted rfl favourable evaluated (fun row mem => ?_) (rows ▸ sums)
      rw [rows] at mem
      obtain ⟨p, -, rfl⟩ := List.mem_map.1 mem
      simp [Circuit.outputValues]
    · refine .rejected rfl favourable fun honest => ?_
      obtain ⟨domain', k', domainOk', -, -, -, -, -, zeros⟩ :=
        ClientRequest.sum_outShare_of_ofInputs wf sent (made.valid honest)
      obtain rfl := Except.ok.inj (domainOk.symm.trans domainOk')
      exact favourable (told ▸ beq_iff_eq.2 (zeros x _))

omit [Fact F.modulus.Prime] in
theorem Made.toNat_id (made : Made σ F schema servers requests number t) (few : number < 2 ^ 64) :
    t.submission.id.toNat = number := by
  obtain ⟨-, shares, -, start⟩ := made.sent
  rw [start]
  exact UInt64.toNat_ofNat_of_lt' few

theorem Made.examine_eq (made : Made σ F schema servers requests number t)
    (wf : schema.circuit.WellFormed) (few : number < 2 ^ 64) :
    t.submission.examine servers = .ok () := by
  obtain ⟨g, shares, sent, start⟩ := made.sent
  obtain ⟨-, -, -, -, -, -, length, lt, -⟩ := ClientRequest.of_ofInputs wf sent
  simp [start, Submission.start, Submission.examine, toNat_leader few, lt, length]

omit [Fact F.modulus.Prime] in
theorem made_getElem {trials : List Trial}
    (made : List.Forall₂ (Made σ F schema servers requests) (List.range trials.length) trials)
    (i : Nat) (here : i < trials.length) : Made σ F schema servers requests i trials[i] := by
  simpa using (List.forall₂_iff_get.1 made).2 i (by simpa using here) here

omit [Fact F.modulus.Prime] in
theorem arrives_of_made {numbers : List Nat} {trials : List Trial}
    (made : List.Forall₂ (Made σ F schema servers requests) numbers trials) :
    ∀ s ∈ trials.map (·.submission), s.progress = .arrived ∧ s.network = .reliable := by
  induction made with
  | nil => exact fun _ mem => nomatch mem
  | cons first _ ih =>
    obtain ⟨-, shares, -, start⟩ := first.sent
    rw [List.map_cons, List.forall_mem_cons]
    exact ⟨⟨congrArg Submission.progress start, congrArg Submission.network start⟩, ih⟩

omit [Fact F.modulus.Prime] in
/-- No two submissions have the same identifier. -/
theorem cleared_of_made {trials : List Trial}
    (made : List.Forall₂ (Made σ F schema servers requests) (List.range trials.length) trials)
    (few : trials.length ≤ 2 ^ 64) (d : Deployment σ) {i : Nat} (here : i < trials.length) :
    Cleared ⟨d, trials.map (·.submission)⟩ i trials[i].submission := by
  intro j s' there ne _ same
  rw [List.getElem?_map] at there
  obtain ⟨t', listed, rfl⟩ := Option.map_eq_some_iff.1 there
  obtain ⟨here', rfl⟩ := List.getElem?_eq_some_iff.1 listed
  have id := (made_getElem made j here').toNat_id (Nat.lt_of_lt_of_le here' few)
  rw [same, (made_getElem made i here).toNat_id (Nat.lt_of_lt_of_le here few)] at id
  exact absurd id.symm ne

variable (wf : schema.circuit.WellFormed)
  (domainOk : CircuitDomain.ofCircuit F schema.circuit = .ok domain) {capacity rotation : Nat}
  {source : σ} {d : Deployment σ}
  (started : Deployment.start F schema.circuit servers capacity rotation source = .ok d)
  (room : 0 < capacity) {trials : List Trial}
  (made : List.Forall₂ (Made σ F schema servers requests) (List.range trials.length) trials)
  (few : trials.length ≤ 2 ^ 64) {w : World σ}
  (run : Reaches (fun _ => False) ⟨d, trials.map (·.submission)⟩ w) (still : w.Still)

include wf domainOk started room made few run still

/-- The submission of a trial has returned a verdict that settles it when no step is left. -/
theorem settles_of_reaches {i : Nat} (here : i < trials.length) : ∃ result,
    w.submissions[i]? = some { trials[i].submission with progress := .returned result } ∧
      Settles F schema.circuit trials[i]
        { trials[i].submission with progress := .returned result } := by
  obtain ⟨k, size, hd⟩ := CircuitDomain.valid_of_ofCircuit domainOk
  have come := arrives_of_made made
  have faultless : Faultless F schema.circuit domain servers capacity
      ⟨d, trials.map (·.submission)⟩ :=
    (faultless_start domainOk started).of_reaches (fun _ h => h) (reaches_arrive [] come)
      (by simpa using few)
  have few' : w.submissions.length ≤ 2 ^ 64 := by simpa [run.length_eq] using few
  have sound := (faultless.of_reaches (fun _ => False.elim) run few').sound
  have made' := made_getElem made i here
  have small := Nat.lt_of_lt_of_le here few
  have present : (trials.map (·.submission))[i]? = some trials[i].submission := by
    simp [here]
  have start := (come _ (List.mem_of_getElem? present)).1
  obtain ⟨p, there, attempt⟩ := attempt_of_reaches faultless hd size (made'.examine_eq wf small)
    (fun _ => False.elim) (fun _ => False.elim) .refl run few' (cleared_of_made made few d here)
    (p := trials[i].submission.progress) present
    (.early (by rw [start]; exact Bool.false_ne_true))
  obtain ⟨result, returned⟩ := sound.returned room still _ (List.mem_of_getElem? there)
  dsimp only at returned
  subst returned
  obtain ⟨x, -, outcome⟩ := attempt.of_returned
  exact ⟨result, there, made'.settles wf small domainOk outcome⟩

/-- In whatever order the submissions of some trials take their steps: when none can take another
one, nothing went wrong. -/
theorem exact_of_reaches : Exact F schema.circuit trials w.submissions := by
  have length : w.submissions.length = trials.length := by simpa using run.length_eq
  have each (i : Nat) (here : i < trials.length) (here' : i < w.submissions.length) :
      { w.submissions[i] with progress := .arrived } = trials[i].submission ∧
        Settles F schema.circuit trials[i] w.submissions[i] := by
    obtain ⟨result, there, settled⟩ :=
      settles_of_reaches wf domainOk started room made few run still here
    have eq := Option.some.inj ((List.getElem?_eq_getElem here').symm.trans there)
    rw [eq]
    refine ⟨?_, settled⟩
    obtain ⟨-, shares, -, start⟩ := (made_getElem made i here).sent
    rw [start, Submission.start]
  exact exact_of_settles
    (List.forall₂_iff_get.2 ⟨length.symm, fun i here here' => (each i here here').1⟩)
    (List.forall₂_iff_get.2 ⟨length.symm, fun i here here' => (each i here here').2⟩)

end Run

/-- What is known of a simulation, for what is drawn for its trials: the report is exact, and would
be in whatever order the submissions took their steps and whatever the coordinator drew. -/
structure Aggregates (settings : Settings) (schema : Schema) (requests invalid : Nat) {σ : Type}
    [WordSource σ] (source : σ) (trials : List Trial) : Prop where
  drawn : ∃ source', ((List.range (requests + invalid)).mapM (trial settings.preset.field schema
    settings.servers requests)).run.run source = (.ok trials, source')
  length_eq : trials.length = requests + invalid
  honest_iff : ∀ i t, trials[i]? = some t → (t.honest ↔ i < requests)
  always : ∀ source' : σ, ∃ d, Deployment.start settings.preset.field schema.circuit
      settings.servers settings.maxPending settings.rotation source' = .ok d ∧
    ∀ w, World.Reaches (fun _ => False) ⟨d, trials.map (·.submission)⟩ w →
      Acc (fun w₂ w₁ => World.Step (fun _ => False) w₁ w₂) w ∧
        (w.Still → Exact settings.preset.field schema.circuit trials w.submissions)
  reported : ∃ submissions, run settings requests invalid source =
      .ok (reportOn settings.preset.field schema.circuit trials submissions) ∧
    Exact settings.preset.field schema.circuit trials submissions

/-- Valid settings have a schema, and if the field has the roots of unity for its circuit, every
simulation of any numbers of honest and of invalid submissions is exact. Identifiers are 64-bit
numbers. -/
theorem aggregates_of_validate (settings : Settings) (valid : settings.validate = .ok ()) :
    ∃ schema, Schema.ofMeasures settings.preset.field settings.measures = .ok schema ∧
      (2 * schema.circuit.domainSize ≤ 2 ^ settings.preset.field.twoOrder →
        ∀ requests invalid, requests + invalid ≤ 2 ^ 64 → ∀ {σ : Type} [WordSource σ] (source : σ),
          ∃ trials, Aggregates settings schema requests invalid source trials) := by
  obtain ⟨some, room, -, each, -⟩ := Settings.validate_eq_ok.1 valid
  obtain ⟨schema, built⟩ := Schema.exists_ofMeasures settings.preset.field each
  refine ⟨schema, built, fun fits requests invalid few σ _ source => ?_⟩
  have wf := (Schema.means_of_ofMeasures _ built).2.2.wellFormed
  have rows : ∀ m ∈ settings.measures, m.rowLength ≤ settings.preset.field.modulus :=
    fun m mem => Measure.rowLength_le_modulus (each m mem) settings.preset
  obtain ⟨domain, k, domainOk, -⟩ := CircuitDomain.ofCircuit_eq_ok fits
  obtain ⟨trials, source', drawn, made⟩ : ∃ trials source',
      ((List.range (requests + invalid)).mapM (trial settings.preset.field schema settings.servers
        requests)).run.run source = (.ok trials, source') ∧
      List.Forall₂ (Made σ settings.preset.field schema settings.servers requests)
        (List.range (requests + invalid)) trials :=
    Answer.exists_mapM_run (fun number _ g =>
      exists_trial built rows fits some requests number g) source
  have length : trials.length = requests + invalid := by simpa using made.length_eq.symm
  rw [← length] at made few
  have exact {g : σ} {d : Deployment σ} (started : Deployment.start settings.preset.field
      schema.circuit settings.servers settings.maxPending settings.rotation g = .ok d)
      {w : World σ} := exact_of_reaches wf domainOk started room made few (w := w)
  have starts (g : σ) : ∃ d, Deployment.start settings.preset.field schema.circuit settings.servers
      settings.maxPending settings.rotation g = .ok d := ⟨_, World.start_eq domainOk⟩
  refine ⟨trials, ⟨source', drawn⟩, length, fun i t there => ?_, fun g => ?_, ?_⟩
  · obtain ⟨here, rfl⟩ := List.getElem?_eq_some_iff.1 there
    rw [(made_getElem made i here).honest_eq, decide_eq_true_iff]
  · obtain ⟨d, started⟩ := starts g
    exact ⟨d, started, fun w run => ⟨World.wellFounded_step.apply w, exact started run⟩⟩
  · obtain ⟨d, started⟩ := starts source'
    refine ⟨_, ?_, exact started (Deployment.reaches_run _ _ _)
      (World.still_run fun s mem => (arrives_of_made made s mem).1)⟩
    simp only [run, built, Answer.mapError_ok, Answer.ok_bind, drawn, started]
    rfl

/-- Three honest submissions and two invalid ones to two servers. -/
theorem aggregates_three_two : ∃ schema trials,
    Aggregates ⟨.p63, 2, 2, 3, [.int "count" 3]⟩ schema 3 2
      (ChaCha20.ofKey ⟨Vector.replicate 32 0⟩) trials := by
  obtain ⟨schema, built, sums⟩ :=
    aggregates_of_validate ⟨.p63, 2, 2, 3, [.int "count" 3]⟩ (by decide)
  exact ⟨schema, sums ((Settings.fits_iff built).2 (by decide)) 3 2 (by decide) _⟩

end Simulation

end PrivateSums
