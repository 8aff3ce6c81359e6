import PrivateSums.Proofs.Check.Honest
import PrivateSums.Proofs.Share.Triple

/-!
The requests of an honest client. They are taken in by every server, which then holds the shares of
the values for the draws of its key.
-/

namespace PrivateSums

namespace Splitter

variable {σ : Type} [WordSource σ]

theorem length_keys (n : Nat) (s : σ) : ((keys n).run s).1.length = n := by
  induction n generalizing s with
  | zero => rfl
  | succ n ih => exact congrArg (· + 1) (ih _)

theorem start_run {servers leader : Nat} (h : leader < servers) (s : σ) :
    ∃ (keys : List Key) (s' : σ), keys.length = servers ∧ (start servers leader).run.run s =
      (.ok { leader, streams := keys.map .ofKey, deltas := #[] }, s') := by
  refine ⟨((keys servers).run s).1, ((keys servers).run s).2, length_keys servers s, ?_⟩
  rw [start, if_neg (by omega), if_neg (by omega)]
  rfl

theorem start_refused {servers leader : Nat} (h : servers ≤ leader) (s : σ) :
    ∃ e, (start servers leader).run.run s = (.error e, s) := by
  obtain none | some := eq_or_ne servers 0
  · rw [start, if_pos none]
    exact ⟨_, rfl⟩
  · rw [start, if_neg some, if_pos h]
    exact ⟨_, rfl⟩

end Splitter

namespace ClientRequest

/-- The streams of the servers, drawn from their keys. -/
def draws (F : Field) (keys : List Key) : List (Nat → Nat) :=
  keys.map fun key => (ElementStream.ofKey key).nth F

/-- One request per key: the key, the deltas for the leader, and a share of the triple. -/
def assemble (F : Field) (leader : Nat) (keys : List Key) (triples : List TripleShare)
    (shared : List Nat) : List ClientRequest :=
  (List.zip keys triples).zipIdx.map fun ((key, triple), server) => {
    hints := {
      key
      deltas := if server = leader then Sharing.deltas F leader (draws F keys) shared else [] }
    triple }

/-- What is random about the server that takes in a request. -/
def tape (F : Field) (request : ClientRequest) : Tape where
  draws := (ElementStream.ofKey request.hints.key).nth F
  triple := request.triple

variable {F : Field} {leader : Nat} {keys : List Key} {triples : List TripleShare}
  {shared : List Nat}

theorem pair_eq_ok {splitter : Splitter} (hl : splitter.leader = leader)
    (streams : splitter.streams.map (·.key) = keys)
    (deltas : splitter.deltas.toList = Sharing.deltas F leader (draws F keys) shared)
    (length : triples.length = keys.length) :
    pair splitter triples = .ok (assemble F leader keys triples shared) := by
  refine Answer.mapM_eq_ok.2 (List.forall₂_iff_get.2 ⟨?_, fun i hi hi' => ?_⟩)
  · simp [assemble, length]
  · have lt : i < splitter.streams.length := by
      rw [← List.length_map (f := (·.key)), streams, ← length]
      simpa using hi
    have key : keys[i]? = some splitter.streams[i].key := by
      rw [← streams, List.getElem?_map, List.getElem?_eq_getElem lt, Option.map_some]
    obtain ⟨lt', key⟩ := List.getElem?_eq_some_iff.1 key
    simp [assemble, Splitter.hints, lt, hl, deltas, key]

/-- Sharing the wires and then the proof is sharing all values. -/
theorem shareWires_run {c : Circuit} {wires : Wires} (size : wires.size = c.size) :
    ∃ splitter : Splitter, (c.shareWires F wires).run.run
        { leader, streams := keys.map .ofKey, deltas := #[] } = (.ok (), splitter) ∧
      ∀ proof, ((Splitter.shareAll F proof).run splitter).2.leader = leader ∧
        ((Splitter.shareAll F proof).run splitter).2.streams.map (·.key) = keys ∧
        ((Splitter.shareAll F proof).run splitter).2.deltas.toList =
          Sharing.deltas F leader (draws F keys) (c.sharedGates.map wires.at ++ proof) := by
  refine ⟨((Splitter.shareAll F (c.sharedGates.map wires.at)).run
    { leader, streams := keys.map .ofKey, deltas := #[] }).2, ?_, fun proof => ?_⟩
  · rw [Circuit.shareWires, Circuit.checkWires, if_pos size]
    rfl
  · simp only [Splitter.shareAll_run]
    refine ⟨trivial, ?_, ?_⟩
    · simp [Function.comp_def, ElementStream.ofKey]
    · simp [Splitter.draws, draws, Sharing.deltas, List.mapIdx_append, Function.comp_def,
        ElementStream.nth_after, Nat.add_comm]

/-- What a client draws does not depend on its inputs. When it can evaluate its circuit for servers
with a leader, it sends requests for what it shares, unless the values of the proof cannot be
computed. -/
theorem ofInputs_run {σ : Type} [WordSource σ] (F : Field) (c : Circuit) {servers leader : Nat}
    (hl : leader < servers) (s : σ) : ∃ keys triples randomLeft randomRight, ∃ early late : σ,
      keys.length = servers ∧ triples.length = servers ∧ (∀ t ∈ triples, t.isCanonical F) ∧
        TripleShare.isValid F triples ∧ randomLeft < F.modulus ∧ randomRight < F.modulus ∧
        ∀ {inputs : List Nat} {wires : Wires}, c.evaluate F inputs = .ok wires →
          wires.size = c.size → (ofInputs F c inputs servers leader).run.run s =
            match values F c wires randomLeft randomRight with
            | .ok shared => (.ok (assemble F leader keys triples shared), late)
            | .error e => (.error (.polynomial e), early) := by
  obtain ⟨keys, s₁, lengthK, start⟩ := Splitter.start_run hl s
  let left := (F.random : StateM σ Nat).run s₁
  let right := (F.random : StateM σ Nat).run left.2
  obtain ⟨triples, s₂, deal, lengthT, canonical, valid⟩ :=
    TripleShare.deal_run (F := F) (by omega : servers ≠ 0) right.2
  refine ⟨keys, triples, left.1, right.1, right.2, s₂, lengthK, lengthT, canonical, valid,
    F.random_lt _, F.random_lt _, fun {inputs wires} evaluated size => ?_⟩
  rw [ofInputs, evaluated, Answer.mapError_ok, Answer.bind_run, Answer.lift_run]
  dsimp only
  rw [Answer.bind_run, Answer.adapt_run, start]
  dsimp only [Answer.mapError_ok]
  obtain ⟨splitter, shared, after⟩ := shareWires_run (F := F) size
  rw [shared]
  dsimp only [Answer.mapError_ok]
  rw [Answer.bind_run, Answer.lift_run]
  dsimp only
  rw [Answer.bind_run, Answer.state_run]
  dsimp only
  rw [Answer.bind_run, Answer.state_run]
  dsimp only
  rw [Answer.bind_run, Answer.lift_run]
  cases proved : proofValues F c wires left.1 right.1 with
  | error e =>
    rw [values, proved]
    rfl
  | ok proof =>
    obtain ⟨leader, streams, deltas⟩ := after proof
    dsimp only [Answer.mapError_ok]
    generalize (Splitter.shareAll F proof).run splitter = sharing at leader streams deltas ⊢
    obtain ⟨⟨⟩, splitter⟩ := sharing
    dsimp only at *
    rw [Answer.bind_run, Answer.adapt_run, deal]
    dsimp only [Answer.mapError_ok]
    rw [Answer.lift_run, pair_eq_ok leader streams deltas (lengthT.trans lengthK.symm), values,
      proved]
    rfl

/-- Without a server to lead, a client fails before it draws anything. -/
theorem ofInputs_refused {σ : Type} [WordSource σ] (F : Field) (c : Circuit) {servers leader : Nat}
    (few : servers ≤ leader) (s : σ) : ∃ e, ∀ {inputs : List Nat} {wires : Wires},
      c.evaluate F inputs = .ok wires →
        (ofInputs F c inputs servers leader).run.run s = (.error e, s) := by
  obtain ⟨e, start⟩ := Splitter.start_refused few s
  refine ⟨.share e, fun {inputs wires} evaluated => ?_⟩
  rw [ofInputs, evaluated, Answer.mapError_ok, Answer.bind_run, Answer.lift_run]
  dsimp only
  rw [Answer.bind_run, Answer.adapt_run, start]
  rfl

/-- What is known of requests that a client sends. -/
theorem of_ofInputs_run {σ : Type} [WordSource σ] {c : Circuit} {inputs : List Nat}
    {servers : Nat} {s : σ} {requests : List ClientRequest} (wf : c.WellFormed)
    (h : ((ofInputs F c inputs servers leader).run.run s).1 = .ok requests) :
    ∃ wires keys triples randomLeft randomRight shared,
      c.evaluate F inputs = .ok wires ∧ leader < servers ∧
        keys.length = servers ∧ triples.length = servers ∧ (∀ t ∈ triples, t.isCanonical F) ∧
        TripleShare.isValid F triples ∧ randomLeft < F.modulus ∧ randomRight < F.modulus ∧
        values F c wires randomLeft randomRight = .ok shared ∧
        assemble F leader keys triples shared = requests := by
  cases evaluated : c.evaluate F inputs with
  | error e =>
    rw [ofInputs, evaluated, Answer.mapError_error, Answer.bind_run, Answer.lift_run] at h
    cases h
  | ok wires =>
    obtain hl | few := Nat.lt_or_ge leader servers
    · obtain ⟨keys, triples, randomLeft, randomRight, early, late, lengthK, lengthT, canonical,
        valid, ltL, ltR, run⟩ := ofInputs_run F c hl s
      rw [run evaluated (Circuit.of_evaluate wf evaluated).size_eq] at h
      cases shared : values F c wires randomLeft randomRight with
      | error e =>
        rw [shared] at h
        cases h
      | ok values =>
        rw [shared] at h
        exact ⟨wires, keys, triples, randomLeft, randomRight, values, rfl, hl, lengthK, lengthT,
          canonical, valid, ltL, ltR, shared, Except.ok.inj h⟩
    · obtain ⟨e, refused⟩ := ofInputs_refused F c few s
      rw [refused evaluated] at h
      cases h

theorem draws_assemble (length : triples.length = keys.length) :
    ((assemble F leader keys triples shared).map (tape F)).map (·.draws) = draws F keys := by
  apply List.ext_getElem
  · simp [assemble, draws, length]
  · intro i hi hi'
    simp [assemble, draws, tape]

theorem triples_assemble (length : triples.length = keys.length) :
    ((assemble F leader keys triples shared).map (tape F)).map (·.triple) = triples := by
  apply List.ext_getElem
  · simp [assemble, length]
  · intro i hi hi'
    simp [assemble, tape]

/-- A server replays from its request what the client split. -/
theorem seen_assemble {c : Circuit} (length : triples.length = keys.length)
    (lengthS : shared.length = c.numSharedValues) :
    seen F c leader (assemble F leader keys triples shared) =
      Tape.seen F leader ((assemble F leader keys triples shared).map (tape F)) shared := by
  have draws_eq := @draws_assemble F leader keys triples shared length
  apply List.ext_getElem
  · simp [seen, Tape.seen]
  · intro i hi hi'
    have lt : i < keys.length := by
      simpa [seen, assemble, length] using hi
    have splits : (List.range c.numSharedValues).map ((Replay.fresh i leader {
        key := keys[i]
        deltas := if i = leader then Sharing.deltas F leader (draws F keys) shared else []
        }).share F) = Sharing.shares F leader (draws F keys) shared i := by
      apply List.ext_getElem
      · simp [lengthS]
      · intro n hn hn'
        have ltS : n < shared.length := by simpa using hn'
        have ltD : i < (draws F keys).length := by simpa [draws] using lt
        have draw : (draws F keys)[i] = (ElementStream.ofKey keys[i]).nth F := by simp [draws]
        rw [← List.getD_eq_getElem _ 0 hn', Sharing.getD_shares ltS ltD, draw, List.getElem_map,
          List.getElem_range, Replay.share_fresh]
        split <;> rfl
    simp only [seen, Tape.seen, Tape.shares, draws_eq]
    simp [assemble, ClientRequest.shares, splits, tape]

/-- Every server takes in its request. -/
theorem admissible_assemble {c : Circuit} (canonical : ∀ t ∈ triples, t.isCanonical F)
    (lengthS : shared.length = c.numSharedValues) :
    ∀ r ∈ (assemble F leader keys triples shared).zipIdx, r.1.Admissible F c leader r.2 := by
  rintro ⟨request, i⟩ hr
  obtain ⟨lt, found⟩ := List.mem_zipIdx' hr
  have triple : request.triple ∈ triples := by
    simp [found, assemble]
  have deltas : request.hints.deltas =
      if i = leader then Sharing.deltas F leader (draws F keys) shared else [] := by
    simp [found, assemble]
  refine ⟨canonical _ triple, fun eq => ?_, fun ne => ?_, fun d hd => ?_⟩
  · rw [deltas, if_pos eq, Sharing.length_deltas, lengthS]
  · rw [deltas, if_neg ne]
  · rw [deltas] at hd
    split at hd
    · exact Sharing.deltas_lt _ _ _ _ d hd
    · exact absurd hd List.not_mem_nil

/-- The requests of an honest client, as the servers take them in: each sees its share of the true
values, for the draws of its key. -/
theorem of_ofInputs [Fact F.modulus.Prime] {σ : Type} [WordSource σ] {c : Circuit}
    {inputs : List Nat} {servers : Nat} {s : σ} {requests : List ClientRequest} (wf : c.WellFormed)
    (sent : ((ofInputs F c inputs servers leader).run.run s).1 = .ok requests) :
    ∃ (wires : Wires) (randomLeft randomRight : Nat) (shared : List Nat),
      c.evaluate F inputs = .ok wires ∧
        values F c wires randomLeft randomRight = .ok shared ∧
        requests.length = servers ∧ leader < servers ∧ Tape.Valid F (requests.map (tape F)) ∧
        (∀ r ∈ requests.zipIdx, r.1.Admissible F c leader r.2) ∧
        seen F c leader requests = Tape.seen F leader (requests.map (tape F)) shared := by
  obtain ⟨wires, keys, triples, randomLeft, randomRight, shared, evaluated, hl, lengthK, lengthT,
    canonical, valid, -, -, ok, rfl⟩ := of_ofInputs_run wf sent
  obtain ⟨domain, k, -, size, hd⟩ := CircuitDomain.ofCircuit_eq_ok (order_of_values ok)
  have lengthS := length_values hd size ok
  have length := lengthT.trans lengthK.symm
  have triples_eq := @triples_assemble F leader keys triples shared length
  refine ⟨wires, randomLeft, randomRight, shared, evaluated, ok, ?_, hl, ⟨?_, ?_, ?_⟩,
    admissible_assemble canonical lengthS, seen_assemble length lengthS⟩
  · simp [assemble, lengthK, lengthT]
  · intro t ht i
    obtain ⟨request, -, rfl⟩ := List.mem_map.1 ht
    exact ElementStream.nth_lt F _ i
  · intro t ht
    exact canonical _ (triples_eq ▸ List.mem_map_of_mem ht)
  · rwa [triples_eq]

/-- An honest client with as many inputs as its circuit has is never refused by a field that has
the roots of unity for the circuit. -/
theorem exists_ofInputs [Fact F.modulus.Prime] {σ : Type} [WordSource σ] {c : Circuit}
    {inputs : List Nat} {servers : Nat} (wf : c.WellFormed) (count : inputs.length = c.numInputs)
    (fits : 2 * c.domainSize ≤ 2 ^ F.twoOrder) (hl : leader < servers) (s : σ) :
    ∃ requests s', (ofInputs F c inputs servers leader).run.run s = (.ok requests, s') := by
  have evaluated := Circuit.evaluate_eq_ok_iff (F := F).2 ⟨count, rfl⟩
  obtain ⟨keys, triples, randomLeft, randomRight, early, late, -, -, -, -, -, -, run⟩ :=
    ofInputs_run F c hl s
  obtain ⟨domain, k, -, size, hd⟩ := CircuitDomain.ofCircuit_eq_ok (F := F) fits
  obtain ⟨shared, ok⟩ := exists_values hd size
    (Circuit.evaluateGates F c.gates.toList inputs #[]) randomLeft randomRight
  refine ⟨assemble F leader keys triples shared, late, ?_⟩
  rw [run evaluated (Circuit.of_evaluate wf evaluated).size_eq, ok]

end ClientRequest

end PrivateSums
