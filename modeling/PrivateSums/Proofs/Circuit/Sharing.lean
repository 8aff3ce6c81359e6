import PrivateSums.Circuit.Sharing
import PrivateSums.Proofs.Circuit.Evaluation
import PrivateSums.Proofs.Share.Lockstep

/-!
The wires of a circuit, shared and taken in again. The servers' shares of every wire sum to what the
shared wires make of it.
-/

namespace PrivateSums.Circuit

variable {F : Field} {c : Circuit}

theorem mem_positions {kind : Gate → Bool} {i : Nat} :
    i ∈ c.positions kind ↔ ∃ gate, c.gates[i]? = some gate ∧ kind gate := by
  simp [Circuit.positions, List.mem_zipIdx_iff_getElem?, and_comm]

theorem mem_sharedGates {i : Nat} :
    i ∈ c.sharedGates ↔ ∃ gate, c.gates[i]? = some gate ∧ gate.isShared := by
  simp only [sharedGates, inputGates, mulGates, List.mem_append, mem_positions, Gate.isShared,
    Bool.or_eq_true]
  constructor
  · rintro (⟨gate, found, kind⟩ | ⟨gate, found, kind⟩)
    · exact ⟨gate, found, .inl kind⟩
    · exact ⟨gate, found, .inr kind⟩
  · rintro ⟨gate, found, kind | kind⟩
    · exact .inl ⟨gate, found, kind⟩
    · exact .inr ⟨gate, found, kind⟩

/-- The wires with those of inputs and products made canonical, and all others as they are. -/
def reduceShared (F : Field) (c : Circuit) (wires : Wires) : Wires :=
  wires.mapIdx fun i value => if c.gates[i]?.any Gate.isShared then F.reduce value else value

theorem size_reduceShared (wires : Wires) : (c.reduceShared F wires).size = wires.size := by
  rw [reduceShared, Array.size_mapIdx]

theorem at_reduceShared {wires : Wires} {i : Nat} (shared : i ∈ c.sharedGates) :
    (c.reduceShared F wires).at i = F.reduce (wires.at i) := by
  obtain ⟨gate, found, kind⟩ := mem_sharedGates.1 shared
  by_cases here : i < wires.size
  · simp [reduceShared, Wires.at, here, found, kind]
  · simp [reduceShared, Wires.at, here, Field.reduce]

theorem map_at_reduceShared (wires : Wires) :
    c.sharedGates.map (c.reduceShared F wires).at = (c.sharedGates.map wires.at).map F.reduce := by
  rw [List.map_map]
  apply List.map_congr_left
  intro i shared
  exact at_reduceShared shared

/-- What is derived from canonical shares is canonical. -/
theorem deriveGates_lt {k : Bool} (gates : List Gate) {inputs products : List Nat} {wires : Wires}
    (inputs_lt : ∀ v ∈ inputs, v < F.modulus) (products_lt : ∀ v ∈ products, v < F.modulus)
    (h : ∀ i, wires.at i < F.modulus) (i : Nat) :
    (deriveGates F k gates inputs products wires).at i < F.modulus := by
  induction gates generalizing inputs products wires with
  | nil => exact h i
  | cons gate gates ih =>
    have head {l : List Nat} (l_lt : ∀ v ∈ l, v < F.modulus) : l.headD 0 < F.modulus := by
      cases l with
      | nil => exact F.modulus_pos
      | cons v l => exact l_lt v List.mem_cons_self
    have taken_lt : taken F k inputs products wires gate < F.modulus := by
      cases gate with
      | input => exact head inputs_lt
      | mul left right => exact head products_lt
      | add left right => exact F.add_lt _ _
      | mulConst parent constant => exact F.mul_lt _ _
      | addConst parent constant =>
        by_cases adds : k
        · simpa [taken, Gate.derive?, adds] using F.add_lt _ _
        · simpa [taken, Gate.derive?, adds] using h parent
    rw [deriveGates_cons]
    apply ih
    · intro v mem
      split at mem
      · exact inputs_lt v (List.mem_of_mem_tail mem)
      · exact inputs_lt v mem
    · intro v mem
      split at mem
      · exact products_lt v (List.mem_of_mem_tail mem)
      · exact products_lt v mem
    · exact Wires.push_lt h taken_lt

theorem wiresOfShares_lt {k : Bool} {shares : List Nat} (h : ∀ v ∈ shares, v < F.modulus)
    (i : Nat) : (c.wiresOfShares F k shares).at i < F.modulus := by
  apply deriveGates_lt
  · exact fun v mem => h v (List.mem_of_mem_take mem)
  · exact fun v mem => h v (List.mem_of_mem_drop mem)
  · intro j
    simpa [Wires.at] using F.modulus_pos

/-- A server that is in step with the sharing of a circuit's wires takes in its own shares. -/
theorem importWires_run {values : List Nat} {shared : List (List Nat)} {s : Splitter} {server : Nat}
    {hints : Hints} {r : Replay} (inStep : InStep F values shared s server hints r)
    (count : values.length = c.numShared) (length : shared.length = values.length) :
    (c.importWires F).run.run r =
      (.ok (c.wiresOfShares F (server == s.leader) (shared.map (·.getD server 0))),
        r.skip F c.numShared) := by
  obtain ⟨-, -, rfl⟩ := Replay.ofHints_eq_ok_iff.1 inStep.replay_eq
  have reads := inStep.reads values.length le_rfl
  rw [← length, List.take_length, length, count] at reads
  rw [importWires, Answer.bind_run, Answer.adapt_run, reads]
  rfl

/-- The shares that servers hold of a circuit's wires sum to the derivation from what the shared
ones sum to, with every constant added once. -/
theorem sum_wiresOfShares (wf : c.WellFormed) {n leader : Nat} (lt : leader < n)
    (shares : Nat → List Nat) {total : List Nat} (canonical : ∀ v ∈ total, v < F.modulus)
    (length : ∀ server < n, (shares server).length = c.numShared)
    (count : total.length = c.numShared)
    (sums : ∀ j < c.numShared,
      F.sum ((List.range n).map fun server => (shares server).getD j 0) = total.getD j 0)
    {gate : Nat} (here : gate < c.size) :
    F.sum ((List.range n).map fun server =>
        (c.wiresOfShares F (server == leader) (shares server)).at gate) =
      (c.wiresOfShares F true total).at gate := by
  let W (server : Nat) : Nat → F.Residue :=
    (c.wiresOfShares F (server == leader) (shares server)).residue F
  have once := sum_one (F := F) lt
  have linear : c.Linear F 1 fun i => ((List.range n).map (W · i)).sum := by
    rw [← once]
    apply Linear.sum
    intro server _
    exact linear_wiresOfShares wf _
  have linear' : c.Linear F 1 ((c.wiresOfShares F true total).residue F) :=
    linear_wiresOfShares wf total
  -- On the `j`th shared gate both sides are the `j`th total.
  have shared : ∀ i ∈ c.sharedGates, ((List.range n).map (W · i)).sum =
      (c.wiresOfShares F true total).residue F i := by
    intro i mem
    obtain ⟨j, hj, rfl⟩ := List.mem_iff_getElem.1 mem
    have at_eq {k : Bool} {l : List Nat} (lengthL : l.length = c.numShared) :
        (c.wiresOfShares F k l).at c.sharedGates[j] = l.getD j 0 := by
      have eq := congrArg (·.getD j 0) (shared_wiresOfShares (F := F) (k := k) lengthL)
      simpa [hj] using eq
    have shares_eq : (List.range n).map (W · c.sharedGates[j]) =
        ((List.range n).map fun server => (shares server).getD j 0).map Nat.cast := by
      rw [List.map_map]
      apply List.map_congr_left
      intro server mem
      exact congrArg Nat.cast (at_eq (length server (List.mem_range.1 mem)))
    rw [shares_eq, ← F.cast_sum, sums j (by rwa [← length_sharedGates]), Wires.residue,
      at_eq count]
  have agree := wires_eq_of_shared wf linear linear' shared gate here
  rw [← F.cast_inj (F.sum_lt _) (wiresOfShares_lt canonical gate), F.cast_sum, List.map_map]
  exact agree

/-- Sharing wires leaves what sharing the values on the shared ones leaves. -/
theorem shareWires_run {wires : Wires} (size : wires.size = c.size) (s : Splitter) :
    (c.shareWires F wires).run.run s =
      (.ok (), (((c.sharedGates.map wires.at).mapM (Splitter.share F)).run s).2) := by
  rw [shareWires, checkWires, if_pos size, Splitter.mapM_share_run]
  rfl

/-- On true wires the derivation from the shared ones makes no difference. -/
theorem wiresOfShares_of_evaluate (wf : c.WellFormed) {inputs : List Nat} {wires : Wires}
    (evaluated : c.evaluate F inputs = .ok wires) :
    c.wiresOfShares F true ((c.sharedGates.map wires.at).map F.reduce) = wires := by
  have true_wires := of_evaluate wf evaluated
  have canonical : (c.sharedGates.map wires.at).map F.reduce = c.sharedGates.map wires.at := by
    rw [List.map_map]
    apply List.map_congr_left
    intro i _
    exact F.reduce_of_lt (true_wires.lt i)
  rw [canonical]
  have shares_lt : ∀ v ∈ c.sharedGates.map wires.at, v < F.modulus := by
    intro v mem
    obtain ⟨i, -, rfl⟩ := List.mem_map.1 mem
    exact true_wires.lt i
  have length : (c.sharedGates.map wires.at).length = c.numShared := by
    rw [List.length_map, length_sharedGates]
  have shared := shared_wiresOfShares (F := F) (k := true) length
  have agree := wires_eq_of_shared wf (linear_wiresOfShares (k := true) wf _) true_wires.linear
    fun i mem => congrArg Nat.cast (List.map_inj_left.1 shared i mem)
  apply Array.ext
  · rw [size_wiresOfShares, true_wires.size_eq]
  · intro i hi hi'
    have eq := (F.cast_inj (wiresOfShares_lt shares_lt i) (true_wires.lt i)).1
      (agree i (by rwa [← true_wires.size_eq]))
    simpa [Wires.at, hi, hi'] using eq

/-- Whatever is on the wires of a circuit that are shared, under any keys and with any leader: every
server takes in its shares and reads all that it was sent, and the shares of every wire sum to the
derivation from the shared wires, with all constants added. True wires are what their shares sum
to. -/
theorem importWires_of_shareWires (wf : c.WellFormed) {wires : Wires} (size : wires.size = c.size)
    {keys : List Key} {leader : Nat} (lt : leader < keys.length) :
    ∃ (s : Splitter) (expected : Wires) (imported : List Wires),
      (c.shareWires F wires).run.run (.fresh leader keys) = (.ok (), s) ∧
      c.deriveWires F true (c.reduceShared F wires) = .ok expected ∧
      imported.length = keys.length ∧
      (∀ server (hs : server < imported.length), ∃ hints r r', s.hints server = .ok hints ∧
        Replay.ofHints F server leader hints = .ok r ∧
        (c.importWires F).run.run r = (.ok imported[server], r') ∧
        r'.position = c.numShared ∧ r'.finish c.numShared = .ok ()) ∧
      (∀ gate < c.size, F.sum (imported.map (·.at gate)) = expected.at gate) ∧
      ∀ inputs, c.evaluate F inputs = .ok wires → expected = wires := by
  let values := c.sharedGates.map wires.at
  let shared := ((values.mapM (Splitter.share F)).run (.fresh leader keys)).1
  let own (server : Nat) : List Nat := shared.map (·.getD server 0)
  have count : values.length = c.numShared := by
    rw [List.length_map, length_sharedGates]
  have length : shared.length = values.length := by
    simp only [shared, Splitter.mapM_share_run, List.length_mapIdx]
  have leads : ((values.mapM (Splitter.share F)).run (.fresh leader keys)).2.leader = leader := by
    rw [Splitter.mapM_share_run, Splitter.shareAll_run]
    rfl
  refine ⟨_, c.wiresOfShares F true (values.map F.reduce),
    (List.range keys.length).map fun server => c.wiresOfShares F (server == leader) (own server),
    shareWires_run size _, ?_, ?_, ?_, ?_, ?_⟩
  · rw [deriveWires, checkWires, if_pos ((size_reduceShared _).trans size), map_at_reduceShared]
    rfl
  · simp
  · intro server hs
    have hs : server < keys.length := by simpa using hs
    obtain ⟨hints, r, -, inStep⟩ := Splitter.exists_inStep (F := F) leader values hs
    have imports := importWires_run (c := c) inStep count length
    rw [leads] at imports
    refine ⟨hints, r, r.skip F c.numShared, inStep.hints_eq, leads ▸ inStep.replay_eq, ?_, ?_, ?_⟩
    · rw [imports]
      simp [own, shared]
    · obtain ⟨-, -, rfl⟩ := Replay.ofHints_eq_ok_iff.1 inStep.replay_eq
      rw [Replay.position_skip]
      exact Nat.zero_add _
    · have reads := inStep.reads values.length le_rfl
      rw [← count]
      exact (inStep.finish_iff _ _ _ reads).2 rfl
  · intro gate here
    rw [List.map_map]
    apply sum_wiresOfShares wf lt own
    · intro v mem
      obtain ⟨w, -, rfl⟩ := List.mem_map.1 mem
      exact F.reduce_lt w
    · intro server _
      rw [List.length_map, length, count]
    · rw [List.length_map, count]
    · intro j hj
      rw [← count] at hj
      obtain ⟨width, sum⟩ := Splitter.sum_shared (F := F) lt hj
      have column : (List.range keys.length).map (fun server => (own server).getD j 0) =
          shared.getD j [] := by
        apply List.ext_getElem
        · rw [List.length_map, List.length_range, ← width]
        · intro server _ hs
          have listed : (own server).getD j 0 = (shared.getD j []).getD server 0 := by
            simp [own, length ▸ hj]
          rw [List.getElem_map, List.getElem_range, listed, List.getD_eq_getElem _ _ hs]
      rw [column, sum]
      simp [hj]
    · exact here
  · intro inputs evaluated
    exact wiresOfShares_of_evaluate wf evaluated

/-- Gates of every kind, with a constant beyond the modulus. -/
def mixed : Circuit :=
  ⟨#[.input, .addConst 0 40, .mul 1 0, .mulConst 2 3, .input, .add 3 4], #[], #[]⟩

theorem wellFormed_mixed : mixed.WellFormed :=
  (((((WellFormed.empty.push .input (by decide)).push (.addConst 0 40) (by decide)).push
    (.mul 1 0) (by decide)).push (.mulConst 2 3) (by decide)).push .input (by decide)).push
      (.add 3 4) (by decide)

/-- Wires that are no evaluation, under a leader in the middle. -/
theorem importWires_mixed : ∃ (keys : List Key) (s : Splitter) (imported : List Wires),
    keys.length = 3 ∧
    (mixed.shareWires .seventeen #[20, 1, 5, 1, 16, 1]).run.run (.fresh 1 keys) = (.ok (), s) ∧
    imported.length = 3 ∧ Field.seventeen.sum (imported.map (·.at 1)) = 9 ∧
    Field.seventeen.sum (imported.map (·.at 5)) = 14 := by
  let keys : List Key :=
    [⟨Vector.replicate 32 0⟩, ⟨Vector.replicate 32 1⟩, ⟨Vector.replicate 32 2⟩]
  have lt : 1 < keys.length := by decide
  have size : Array.size #[20, 1, 5, 1, 16, 1] = mixed.size := rfl
  obtain ⟨s, expected, imported, shared, derived, length, -, sums, -⟩ :=
    importWires_of_shareWires (F := .seventeen) wellFormed_mixed size lt
  have value : expected = #[3, 9, 5, 15, 16, 14] := Except.ok.inj (derived.symm.trans (by decide))
  refine ⟨keys, s, imported, rfl, shared, length, ?_, ?_⟩
  · rw [sums 1 (by decide), value]
    rfl
  · rw [sums 5 (by decide), value]
    rfl

end PrivateSums.Circuit
