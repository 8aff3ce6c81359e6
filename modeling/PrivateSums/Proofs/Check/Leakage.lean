import PrivateSums.Proofs.Check.Completeness

/-!
What a client sends depends on its inputs only in the leader's deltas, and not in their number. Two
runs from one state draw the same keys and triples, whatever the inputs are, and go wrong alike.
-/

namespace PrivateSums

namespace Answer

variable {ε α β : Type}

/-- The same error, or lists of one length. -/
def SameLength (x y : Except ε (List α)) : Prop := x.map List.length = y.map List.length

theorem sameLength_ok {as bs : List α} (h : as.length = bs.length) :
    SameLength (.ok as : Except ε (List α)) (.ok bs) :=
  congrArg Except.ok h

theorem SameLength.cases {x y : Except ε (List α)} (h : SameLength x y) :
    (∃ e, x = .error e ∧ y = .error e) ∨
      ∃ as bs, x = .ok as ∧ y = .ok bs ∧ as.length = bs.length := by
  cases x with
  | error e => cases y with
    | error e' => exact .inl ⟨e, rfl, congrArg Except.error (Except.error.inj h).symm⟩
    | ok bs => cases h
  | ok as => cases y with
    | error e' => cases h
    | ok bs => exact .inr ⟨as, bs, rfl, rfl, Except.ok.inj h⟩

/-- Answers that differ in their elements only can be followed by steps that tell no more. -/
theorem SameLength.bind {x y : Except ε (List α)} {f g : List α → Except ε (List β)}
    (h : SameLength x y) (next : ∀ as bs, as.length = bs.length → SameLength (f as) (g bs)) :
    SameLength (x >>= f) (y >>= g) := by
  obtain ⟨e, rfl, rfl⟩ | ⟨as, bs, rfl, rfl, length⟩ := h.cases
  · rfl
  · exact next as bs length

/-- The same step first, which may fail. -/
theorem sameLength_after (x : Except ε α) {f g : α → Except ε (List β)}
    (next : ∀ a, x = .ok a → SameLength (f a) (g a)) : SameLength (x >>= f) (x >>= g) := by
  cases x with
  | error e => rfl
  | ok a => exact next a rfl

end Answer

open Answer

namespace Transform

variable (F : Field)

theorem length_run_of_checkDomain {values roots : List Nat}
    (h : checkDomain values.length roots.length = .ok ()) :
    (run F values roots).length = values.length := by
  by_cases two : isTwoPower values.length
  · by_cases same : roots.length = values.length
    · obtain ⟨k, length⟩ := isTwoPower_iff.1 two
      rw [length_run F length (same.trans length), length]
    · simp [checkDomain, two, same] at h
  · simp [checkDomain, two] at h

variable {values values' : List Nat} (length : values.length = values'.length)

include length

theorem sameLength_forward (roots : List Nat) :
    SameLength (forward F values roots) (forward F values' roots) := by
  rw [forward, forward, ← length]
  refine sameLength_after _ fun _ domain => sameLength_ok ?_
  rw [length_run_of_checkDomain F domain, length_run_of_checkDomain F (length ▸ domain), length]

theorem sameLength_inverse (rootsInv : List Nat) :
    SameLength (inverse F values rootsInv) (inverse F values' rootsInv) := by
  rw [inverse, inverse, ← length]
  refine sameLength_after _ fun _ domain => sameLength_after _ fun scale _ => sameLength_ok ?_
  rw [List.length_map, List.length_map, length_run_of_checkDomain F domain,
    length_run_of_checkDomain F (length ▸ domain), length]

theorem sameLength_interpolateOnRoots :
    SameLength (interpolateOnRoots F values) (interpolateOnRoots F values') := by
  rw [interpolateOnRoots, interpolateOnRoots, ← length]
  exact sameLength_after _ fun rootsInv _ => sameLength_inverse F length rootsInv

theorem sameLength_evaluateOnRoots (n : Nat) :
    SameLength (evaluateOnRoots F values n) (evaluateOnRoots F values' n) := by
  have padded_length : (padded n values).length = (padded n values').length := by
    simp only [padded, List.length_append, List.length_replicate, length]
  rw [evaluateOnRoots, evaluateOnRoots, ← length]
  by_cases le : values.length ≤ n
  · rw [if_pos le, if_pos le]
    exact sameLength_after _ fun roots _ => sameLength_forward F padded_length roots
  · rw [if_neg le, if_neg le]
    rfl

end Transform

namespace ClientRequest

variable (F : Field) (c : Circuit)

theorem sameLength_extend {values values' : List Nat} (length : values.length = values'.length) :
    SameLength (extend F values) (extend F values') := by
  rw [extend, extend, ← length]
  exact (Transform.sameLength_interpolateOnRoots F length).bind fun _ _ same =>
    Transform.sameLength_evaluateOnRoots F same _

theorem sameLength_proofValues (wires wires' : Wires) (randomLeft randomRight : Nat) :
    SameLength (proofValues F c wires randomLeft randomRight)
      (proofValues F c wires' randomLeft randomRight) := by
  have factors (random : Nat) (operand : Nat × Nat → Nat) :
      (factorValues c.domainSize random (c.mulOperands.map (wires.at <| operand ·))).length =
        (factorValues c.domainSize random (c.mulOperands.map (wires'.at <| operand ·))).length := by
    rw [Holding.length_factorValues, Holding.length_factorValues]
  refine (sameLength_extend F (factors _ Prod.fst)).bind fun left left' lengthL => ?_
  refine (sameLength_extend F (factors _ Prod.snd)).bind fun right right' lengthR => ?_
  apply sameLength_ok
  simp only [List.length_cons, List.length_take, Transform.length_odds, List.length_zipWith,
    lengthL, lengthR]

theorem sameLength_values (wires wires' : Wires) (randomLeft randomRight : Nat) :
    SameLength (values F c wires randomLeft randomRight)
      (values F c wires' randomLeft randomRight) := by
  refine (sameLength_proofValues F c wires wires' _ _).bind fun proof proof' length => ?_
  apply sameLength_ok
  rw [List.length_append, List.length_append, List.length_map, List.length_map, length]

/-- Requests of two clients that agree in all but the leader's deltas, which are as many. -/
structure Alike (servers leader : Nat) (requests requests' : List ClientRequest) : Prop where
  length : requests.length = servers
  length' : requests'.length = servers
  keys : requests.map (·.hints.key) = requests'.map (·.hints.key)
  triples : requests.map (·.triple) = requests'.map (·.triple)
  others : ∀ server ≠ leader, requests[server]? = requests'[server]?
  deltas : requests.map (·.hints.deltas.length) = requests'.map (·.hints.deltas.length)

theorem alike_assemble {leader : Nat} {keys : List Key} {triples : List TripleShare}
    {shared shared' : List Nat} (count : triples.length = keys.length)
    (length : shared.length = shared'.length) :
    Alike keys.length leader (assemble F leader keys triples shared)
      (assemble F leader keys triples shared') where
  length := by simp [assemble, count]
  length' := by simp [assemble, count]
  keys := by simp [assemble, Function.comp_def]
  triples := by simp [assemble, Function.comp_def]
  others server ne := by
    simp only [assemble, List.getElem?_map, List.getElem?_zipIdx, Nat.zero_add]
    cases (keys.zip triples)[server]? <;> simp [ne]
  deltas := by
    simp only [assemble, List.map_map, Function.comp_def]
    apply List.map_congr_left
    intro entry _
    split
    · rw [Sharing.length_deltas, Sharing.length_deltas, length]
    · rfl

/-- Two clients of one circuit that start from one state, whatever their inputs and however well
formed the circuit: both fail, with one error, or both send requests that only the leader could tell
apart. They leave one state behind. -/
theorem alike_of_ofInputs {σ : Type} [WordSource σ] {inputs inputs' : List Nat}
    (count : inputs.length = c.numInputs) (count' : inputs'.length = c.numInputs)
    (servers leader : Nat) (s : σ) :
    (∃ e t, (ofInputs F c inputs servers leader).run.run s = (.error e, t) ∧
      (ofInputs F c inputs' servers leader).run.run s = (.error e, t)) ∨
    ∃ requests requests' t,
      (ofInputs F c inputs servers leader).run.run s = (.ok requests, t) ∧
      (ofInputs F c inputs' servers leader).run.run s = (.ok requests', t) ∧
      Alike servers leader requests requests' := by
  have evaluated := Circuit.evaluate_eq_ok_iff (F := F).2 ⟨count, rfl⟩
  have evaluated' := Circuit.evaluate_eq_ok_iff (F := F).2 ⟨count', rfl⟩
  obtain hl | few := Nat.lt_or_ge leader servers
  · obtain ⟨keys, triples, randomLeft, randomRight, early, late, lengthK, lengthT, -, -, -, -,
      run⟩ := ofInputs_run F c hl s
    have same := sameLength_values F c (Circuit.evaluateGates F c.gates.toList inputs #[])
      (Circuit.evaluateGates F c.gates.toList inputs' #[]) randomLeft randomRight
    rw [run evaluated (Circuit.size_of_evaluate evaluated),
      run evaluated' (Circuit.size_of_evaluate evaluated')]
    obtain ⟨e, left, right⟩ | ⟨shared, shared', left, right, length⟩ := same.cases
    · rw [left, right]
      exact .inl ⟨_, early, rfl, rfl⟩
    · rw [left, right]
      refine .inr ⟨_, _, late, rfl, rfl, ?_⟩
      exact lengthK ▸ alike_assemble F (lengthT.trans lengthK.symm) length
  · obtain ⟨e, refused⟩ := ofInputs_refused F c few s
    exact .inl ⟨e, s, refused evaluated, refused evaluated'⟩

/-- A set bit and an unset one, under the third of three servers. -/
theorem alike_bit : ∃ (requests requests' : List ClientRequest) (t : ChaCha20),
    (ofInputs .seventeen Checker.bit [0] 3 2).run.run (.ofKey ⟨Vector.replicate 32 0⟩) =
      (.ok requests, t) ∧
    (ofInputs .seventeen Checker.bit [1] 3 2).run.run (.ofKey ⟨Vector.replicate 32 0⟩) =
      (.ok requests', t) ∧
    Alike 3 2 requests requests' := by
  have count : [0].length = Checker.bit.numInputs := rfl
  have leads : 2 < 3 := by decide
  have count' : [1].length = Checker.bit.numInputs := rfl
  obtain ⟨e, t, fails, -⟩ | sent := alike_of_ofInputs .seventeen Checker.bit count count' 3 2
    (ChaCha20.ofKey ⟨Vector.replicate 32 0⟩)
  · obtain ⟨requests, t', sent⟩ := exists_ofInputs (F := .seventeen) Checker.wellFormed_bit count
      (by decide) leads (ChaCha20.ofKey ⟨Vector.replicate 32 0⟩)
    rw [sent] at fails
    cases fails
  · exact sent

end ClientRequest

end PrivateSums
