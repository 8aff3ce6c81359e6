import PrivateSums.Proofs.Check.Client

/-!
Completeness: the requests of an honest client go through every round on all servers, which find
out just what its zero checks are.
-/

open scoped Polynomial

namespace PrivateSums

theorem Holding.coefficients_eq (F : Field) (c : Circuit) (key : Key) :
    coefficients F c key = (ElementStream.ofKey key).nth F 0 ::
      List.ofFn fun i : Fin c.zeroChecks.size => (ElementStream.ofKey key).nth F (i + 1) := by
  rw [coefficients, ElementStream.take_run, List.range_succ_eq_map, List.map_cons, List.map_map,
    List.ofFn_eq_map, ← List.map_coe_finRange_eq_range, List.map_map]
  rfl

theorem Holding.zeroSum_congr {F : Field} {c : Circuit} (wf : c.WellFormed) {V W : Nat → F.Residue}
    (h : ∀ i < c.size, V i = W i) (rest : List Nat) : zeroSum F c V rest = zeroSum F c W rest := by
  refine congrArg List.sum (List.map_congr_left fun ⟨z, r⟩ mem => ?_)
  have check : z ∈ c.zeroChecks := Array.mem_toList_iff.1 (List.of_mem_zip mem).1
  dsimp only
  rw [h z (wf.zeroChecks_lt z check)]

/-- What is accepted is zero at every zero check. -/
theorem Circuit.zeroCheck_eq_zero {F : Field} {c : Circuit} {inputs : List Nat} {wires : Wires}
    (evaluated : c.evaluate F inputs = .ok wires) (accepted : c.check F inputs = .ok true) :
    ∀ z ∈ c.zeroChecks, wires.at z = 0 := by
  rw [check, evaluated, Answer.ok_bind, Answer.pure_eq, Except.ok.injEq, accepts,
    Array.all_eq_true'] at accepted
  exact fun z hz => beq_iff_eq.1 (accepted z hz)

theorem Circuit.sum_zeroChecks_eq_zero {F : Field} {c : Circuit} {inputs : List Nat} {wires : Wires}
    (evaluated : c.evaluate F inputs = .ok wires) (accepted : c.check F inputs = .ok true)
    (r : Fin c.zeroChecks.size → Nat) :
    F.sum (List.ofFn fun i => F.mul (r i) (wires.at c.zeroChecks[i])) = 0 := by
  rw [← F.cast_eq_zero (F.sum_lt _), F.cast_sum, List.map_ofFn]
  refine List.sum_eq_zero fun v hv => ?_
  obtain ⟨i, rfl⟩ := List.mem_ofFn.1 hv
  rw [Function.comp, Fin.getElem_fin,
    zeroCheck_eq_zero evaluated accepted _ (Array.getElem_mem i.2), F.cast_mul, Nat.cast_zero,
    mul_zero]

namespace Tape

variable {F : Field} [Fact F.modulus.Prime] {c : Circuit} {leader : Nat} {tapes : List Tape}

theorem offset_parties (valid : TripleShare.isValid F (tapes.map (·.triple))) (values : List Nat) :
    Party.offset F (parties F c leader tapes values) = 0 := by
  have column (f : TripleShare → Nat) :
      (Party.total (parties F c leader tapes values) fun p => (f p.holding.triple : F.Residue)) =
        ((tapes.map (·.triple)).map fun t => (f t : F.Residue)).sum := by
    have tapes_eq := List.zipIdx_map_fst 0 tapes
    conv_rhs => rw [← tapes_eq]
    rw [Party.total, parties, List.map_map, List.map_map, List.map_map]
    rfl
  rw [Party.offset, column (·.a), column (·.b), column (·.c), TripleShare.isValid_iff.1 valid,
    sub_self]

variable {d : CircuitDomain} {k : Nat} {inputs shared : List Nat} {wires : Wires}
  {randomLeft randomRight : Nat} (wf : c.WellFormed) (hd : d.Valid F k)
  (size : c.domainSize = 2 ^ k) (evaluated : c.Evaluated F inputs wires)
  (ok : ClientRequest.values F c wires randomLeft randomRight = .ok shared)
  (hl : leader < tapes.length)

include wf hd size evaluated ok hl

/-- The shares of the second round sum to the combination of the true zero checks. -/
theorem total_outShare (valid : TripleShare.isValid F (tapes.map (·.triple))) (x first : Nat)
    (rest : List Nat) :
    (Party.total (parties F c leader tapes shared) fun p => (((p.outShare F c leader
      (.ofPoint F d x) (parties F c leader tapes shared) (first :: rest)).check : Nat)
        : F.Residue)) = Holding.zeroSum F c (wires.residue F) rest := by
  rw [Party.total_outShare hd size
      (complete_parties (ClientRequest.length_values hd size ok))
      (Party.oneLeader_of_servers servers_parties hl) x first rest,
    checked_eq wf hd size evaluated ok hl, offset_parties valid, Polynomial.eval_C, zero_mul,
    zero_add]
  exact Holding.zeroSum_congr wf (fun i hi => wires_eq wf hd size evaluated ok hl hi) rest

/-- The servers' shares of a wire sum to its true value. -/
theorem sum_wires {i : Nat} (hi : i < c.size) :
    F.sum ((parties F c leader tapes shared).map (·.holding.wires.at i)) = wires.at i := by
  rw [← F.cast_inj (F.sum_lt _) (evaluated.lt i), F.cast_sum, List.map_map]
  exact wires_eq wf hd size evaluated ok hl hi

/-- With coefficients from a key, that is the sum of the zero checks weighted with its draws. -/
theorem sum_outShare (valid : TripleShare.isValid F (tapes.map (·.triple))) (x : Nat) (key : Key) :
    F.sum ((parties F c leader tapes shared).map fun p => (p.outShare F c leader (.ofPoint F d x)
        (parties F c leader tapes shared) (Holding.coefficients F c key)).check) =
      F.sum (List.ofFn fun i : Fin c.zeroChecks.size =>
        F.mul ((ElementStream.ofKey key).nth F (i + 1)) (wires.at c.zeroChecks[i])) := by
  rw [← F.cast_inj (F.sum_lt _) (F.sum_lt _), F.cast_sum, F.cast_sum, List.map_map,
    Holding.coefficients_eq, List.map_ofFn, List.sum_ofFn]
  refine (total_outShare wf hd size evaluated ok hl valid x _ _).trans ?_
  rw [Holding.zeroSum_ofFn]
  refine Finset.sum_congr rfl fun i _ => ?_
  have gate : c.zeroChecks.getD i 0 = c.zeroChecks[i] := by simp
  rw [Function.comp, F.cast_mul, mul_comm, gate]
  rfl

/-- The shares of every output sum to its true value. -/
theorem sum_output {i : Nat} (hi : i < c.outputs.size) :
    F.sum (((parties F c leader tapes shared).map fun p => c.outputValues p.holding.wires).map
      (·.getD i 0)) = wires.at c.outputs[i].gate := by
  have gate := wf.outputs_lt _ (Array.getElem_mem hi)
  have sum := sum_wires wf hd size evaluated ok hl gate
  simpa [Circuit.outputValues, hi, Function.comp_def] using sum

theorem sum_outputValues : (List.range c.outputs.size).map (fun i => F.sum
      (((parties F c leader tapes shared).map fun p => c.outputValues p.holding.wires).map
        (·.getD i 0))) = c.outputValues wires := by
  apply List.ext_getElem (by simp [Circuit.outputValues])
  intro i hi hi'
  have lt : i < c.outputs.size := by simpa using hi
  rw [List.getElem_map, List.getElem_range, sum_output wf hd size evaluated ok hl lt]
  simp [Circuit.outputValues]

end Tape

/-- On accepted inputs the shares of the second round sum to zero. -/
theorem Tape.sum_outShare_eq_zero {F : Field} [Fact F.modulus.Prime] {c : Circuit} {leader k : Nat}
    {d : CircuitDomain} {inputs values : List Nat} {wires : Wires} {randomLeft randomRight : Nat}
    (wf : c.WellFormed) (hd : d.Valid F k) (size : c.domainSize = 2 ^ k)
    {tapes : List Tape} (hl : leader < tapes.length)
    (valid : TripleShare.isValid F (tapes.map (·.triple)))
    (evaluated : c.evaluate F inputs = .ok wires) (accepted : c.check F inputs = .ok true)
    (ok : ClientRequest.values F c wires randomLeft randomRight = .ok values) (x : Nat)
    (coefficients : List Nat) :
    ((F.sum ((Tape.parties F c leader tapes values).map fun p => (p.outShare F c leader
      (.ofPoint F d x) (Tape.parties F c leader tapes values) coefficients).check) : Nat) :
        F.Residue) = 0 := by
  rw [F.cast_sum, List.map_map]
  cases coefficients with
  | nil => exact List.sum_eq_zero (by simp [Party.outShare, Holding.combine])
  | cons first rest =>
    refine (Tape.total_outShare wf hd size (Circuit.of_evaluate wf evaluated) ok hl valid x first
      rest).trans (List.sum_eq_zero fun v hv => ?_)
    obtain ⟨⟨z, r⟩, mem, rfl⟩ := List.mem_map.1 hv
    have zero := Circuit.zeroCheck_eq_zero evaluated accepted z
      (Array.mem_toList_iff.1 (List.of_mem_zip mem).1)
    change ((wires.at z : Nat) : F.Residue) * r = 0
    rw [zero, Nat.cast_zero, zero_mul]

/-- What the servers compute from the requests of an honest client whose inputs are accepted. -/
theorem ClientRequest.sum_outShare_of_ofInputs {F : Field} [Fact F.modulus.Prime] {c : Circuit}
    (wf : c.WellFormed) {σ : Type} [WordSource σ] {inputs : List Nat} {servers leader : Nat} {s : σ}
    {requests : List ClientRequest}
    (sent : ((ofInputs F c inputs servers leader).run.run s).1 = .ok requests)
    (accepted : c.check F inputs = .ok true) :
    ∃ domain k, CircuitDomain.ofCircuit F c = .ok domain ∧ domain.Valid F k ∧
      c.domainSize = 2 ^ k ∧ requests.length = servers ∧ leader < servers ∧
      (∀ r ∈ requests.zipIdx, r.1.Admissible F c leader r.2) ∧
      ∀ (x : Nat) (coefficients : List Nat),
        F.sum ((parties F c leader requests).map fun p => (p.outShare F c leader
          (.ofPoint F domain x) (parties F c leader requests) coefficients).check) = 0 := by
  obtain ⟨wires, randomLeft, randomRight, shared, evaluated, ok, length, hl, valid, admissible,
    seen⟩ := of_ofInputs wf sent
  obtain ⟨domain, k, domainOk, size, hd⟩ := CircuitDomain.ofCircuit_eq_ok (order_of_values ok)
  refine ⟨domain, k, domainOk, hd, size, length, hl, admissible, fun x coefficients => ?_⟩
  rw [← length, ← List.length_map (f := tape F)] at hl
  have zero := Tape.sum_outShare_eq_zero wf hd size hl valid.valid evaluated accepted ok x
    coefficients
  rw [Tape.parties_eq_map_seen, ← seen, ← parties_eq_map_seen] at zero
  rw [← F.cast_inj (F.sum_lt _) F.modulus_pos, zero, Nat.cast_zero]

/-- Whatever the inputs of an honest client are, the shares of its outputs sum to what the circuit
computes from them. -/
theorem ClientRequest.sum_outputValues_of_ofInputs {F : Field} [Fact F.modulus.Prime] {c : Circuit}
    (wf : c.WellFormed) {σ : Type} [WordSource σ] {inputs : List Nat} {servers leader : Nat} {s : σ}
    {requests : List ClientRequest}
    (sent : ((ofInputs F c inputs servers leader).run.run s).1 = .ok requests) :
    ∃ wires, c.evaluate F inputs = .ok wires ∧
      (List.range c.outputs.size).map (fun i => F.sum
        (((parties F c leader requests).map fun p => c.outputValues p.holding.wires).map
          (·.getD i 0))) = c.outputValues wires := by
  obtain ⟨wires, randomLeft, randomRight, shared, evaluated, ok, length, hl, -, -, seen⟩ :=
    of_ofInputs wf sent
  obtain ⟨domain, k, -, size, hd⟩ := CircuitDomain.ofCircuit_eq_ok (order_of_values ok)
  rw [← length, ← List.length_map (f := tape F)] at hl
  have sums := Tape.sum_outputValues wf hd size (Circuit.of_evaluate wf evaluated) ok hl
  rw [Tape.parties_eq_map_seen, ← seen, ← parties_eq_map_seen] at sums
  exact ⟨wires, evaluated, sums⟩

namespace Checker

variable {F : Field} [Fact F.modulus.Prime]

/-- The requests of an honest client, whether or not its inputs satisfy the circuit, are taken in
by all servers and go through both rounds at every point and for every key. The shares of the second
round sum to the zero checks of the true wires, each weighted with its draw from the key, so valid
inputs are found valid by every server. Every server has a share of each output, and these sum to
the true wire of the output's gate. -/
theorem rounds_of_ofInputs {c : Circuit} (wf : c.WellFormed) {σ : Type} [WordSource σ]
    {inputs : List Nat} {servers leader : Nat} {s s' : σ} {requests : List ClientRequest}
    (sent : (ClientRequest.ofInputs F c inputs servers leader).run.run s = (.ok requests, s')) :
    requests.length = servers ∧ ∃ wires domain checkers,
      c.evaluate F inputs = .ok wires ∧ CircuitDomain.ofCircuit F c = .ok domain ∧
      admitAll F c leader requests = .ok checkers ∧
      ∀ (x : Nat) (key : Key), ∃ corShares answers outputs,
        rounds checkers (.ofPoint F domain x) (fun k cor => k.outShare cor key) =
          .ok (corShares, answers) ∧
        answers.length = servers ∧
        F.sum (answers.map (·.1.check)) = F.sum (List.ofFn fun i : Fin c.zeroChecks.size =>
          F.mul ((ElementStream.ofKey key).nth F (i + 1)) (wires.at c.zeroChecks[i])) ∧
        (∀ k ∈ answers.map (·.2), k.outputIsValid (answers.map (·.1)) =
          .ok (F.sum (answers.map (·.1.check)) == 0)) ∧
        (c.check F inputs = .ok true →
          ∀ k ∈ answers.map (·.2), k.outputIsValid (answers.map (·.1)) = .ok true) ∧
        answers.mapM (·.2.outputShares) = .ok outputs ∧
        (∀ shares ∈ outputs, shares.length = c.outputs.size) ∧
        ∀ i : Fin c.outputs.size,
          F.sum (outputs.map (·.getD i 0)) = wires.at c.outputs[i].gate := by
  obtain ⟨wires, randomLeft, randomRight, shared, evaluated, ok, length, hl, valid, admissible,
    seen⟩ := ClientRequest.of_ofInputs wf (congrArg Prod.fst sent)
  obtain ⟨domain, k, domainOk, size, hd⟩ :=
    CircuitDomain.ofCircuit_eq_ok (ClientRequest.order_of_values ok)
  have wiresOk := Circuit.of_evaluate wf evaluated
  have count := ClientRequest.length_parties F c leader requests
  have parties : ClientRequest.parties F c leader requests =
      Tape.parties F c leader (requests.map (ClientRequest.tape F)) shared := by
    rw [ClientRequest.parties_eq_map_seen, seen, Tape.parties_eq_map_seen]
  have complete := ClientRequest.complete_parties F c leader requests
  rw [← length, ← List.length_map (f := ClientRequest.tape F)] at hl
  have outputs (i : Fin c.outputs.size) := Tape.sum_output wf hd size wiresOk ok hl i.2
  refine ⟨length, wires, domain, _, evaluated, domainOk,
    ClientRequest.admitAll_eq_ok_iff.2 ⟨admissible, rfl⟩, fun x key => ?_⟩
  have sum := Tape.sum_outShare wf hd size wiresOk ok hl valid.valid x key
  rw [← parties] at outputs sum
  rw [← length, ← count]
  set ps := ClientRequest.parties F c leader requests
  let finished (p : Party) := (p.outShare F c leader (.ofPoint F domain x) ps
    (Holding.coefficients F c key), p.finished F c leader (.ofPoint F domain x) ps.length)
  have verdict : ∀ k ∈ (ps.map finished).map (·.2),
      k.outputIsValid ((ps.map finished).map (·.1)) =
        .ok (F.sum ((ps.map finished).map (·.1.check)) == 0) := by
    intro k hk
    obtain ⟨p, -, rfl⟩ : ∃ p ∈ ps, (finished p).2 = k := by simpa using hk
    rw [List.map_map, List.map_map]
    exact Party.outputIsValid_finished _ p _
  have combined : F.sum ((ps.map finished).map (·.1.check)) = F.sum (List.ofFn
      fun i : Fin c.zeroChecks.size =>
        F.mul ((ElementStream.ofKey key).nth F (i + 1)) (wires.at c.zeroChecks[i])) := by
    rwa [List.map_map]
  refine ⟨_, _, ps.map fun p => c.outputValues p.holding.wires,
    Party.keyedOutShares_eq hd size complete x key, List.length_map .., combined, verdict, ?_, ?_,
    ?_, outputs⟩
  · intro accepted k hk
    rw [verdict k hk, combined, Circuit.sum_zeroChecks_eq_zero evaluated accepted,
      beq_self_eq_true]
  · rw [List.mapM_map]
    exact Answer.mapM_eq_map fun p _ => Party.outputShares_finished _ _ p
  · intro shares mem
    obtain ⟨p, -, rfl⟩ := List.mem_map.1 mem
    simp [Circuit.outputValues]

/-- A circuit for one bit. -/
def bit : Circuit :=
  ⟨#[.input, .mul 0 0, .mulConst 0 16, .add 1 2], #[⟨0, "ones"⟩], #[3]⟩

theorem wellFormed_bit : bit.WellFormed :=
  (((((Circuit.WellFormed.empty.push .input (by decide)).push (.mul 0 0) (by decide)).push
    (.mulConst 0 16) (by decide)).push (.add 1 2) (by decide)).output (o := ⟨0, "ones"⟩)
      (by decide)).assertZero (by decide)

theorem evaluate_bit (b : Bool) : bit.evaluate .seventeen [b.toNat] =
    .ok (if b then #[1, 1, 16, 0] else #[0, 0, 0, 0]) := by
  cases b <;> exact Circuit.evaluate_eq_ok_iff.2 ⟨rfl, rfl⟩

theorem check_bit (b : Bool) : bit.check .seventeen [b.toNat] = .ok true := by
  rw [Circuit.check, evaluate_bit, Answer.ok_bind]
  cases b <;> simp [Circuit.accepts, bit, Wires.at]

/-- A bit that is set is found valid, and the shares of its one output sum to one. -/
theorem rounds_of_bit : ∃ (requests : List ClientRequest) (s : ChaCha20),
    (ClientRequest.ofInputs .seventeen bit [1] 3 2).run.run (.ofKey ⟨Vector.replicate 32 0⟩) =
      (.ok requests, s) ∧
    ∃ domain checkers, CircuitDomain.ofCircuit .seventeen bit = .ok domain ∧
      admitAll .seventeen bit 2 requests = .ok checkers ∧ ∀ x key, ∃ corShares answers outputs,
        rounds checkers (.ofPoint .seventeen domain x) (fun k cor => k.outShare cor key) =
          .ok (corShares, answers) ∧
        (∀ k ∈ answers.map (·.2), k.outputIsValid (answers.map (·.1)) = .ok true) ∧
        answers.mapM (·.2.outputShares) = .ok outputs ∧
        Field.seventeen.sum (outputs.map (·.getD 0 0)) = 1 := by
  have count : [1].length = bit.numInputs := rfl
  have leads : 2 < 3 := by decide
  obtain ⟨requests, s, sent⟩ := ClientRequest.exists_ofInputs (F := .seventeen) wellFormed_bit
    count (by decide) leads (ChaCha20.ofKey ⟨Vector.replicate 32 0⟩)
  obtain ⟨-, wires, domain, checkers, evaluated, ok, admitted, runs⟩ :=
    rounds_of_ofInputs wellFormed_bit sent
  have value : wires = #[1, 1, 16, 0] :=
    Except.ok.inj (evaluated.symm.trans (evaluate_bit true))
  refine ⟨requests, s, sent, domain, checkers, ok, admitted, fun x key => ?_⟩
  obtain ⟨corShares, answers, outputs, run, -, -, -, verdict, shares, -, sums⟩ := runs x key
  refine ⟨corShares, answers, outputs, run, verdict (check_bit true), shares, ?_⟩
  rw [sums ⟨0, by decide⟩, value]
  rfl

end Checker

end PrivateSums
