import PrivateSums.Proofs.Circuit.Construction
import PrivateSums.Proofs.Circuit.Sharing

/-!
No circuit that can be put together is read or written out of bounds. The passes over its gates are
written here with every index checked, and with wires that are overwritten in place; they come to
what evaluation, derivation and import do.
-/

namespace PrivateSums

namespace Wires

theorem getElem?_eq_at {wires : Wires} {gate : Nat} (h : gate < wires.size) :
    wires[gate]? = some (wires.at gate) := by
  simp [Wires.at, h]

/-- The wires with one overwritten, where it is there. -/
def write? (wires : Wires) (gate value : Nat) : Option Wires :=
  if gate < wires.size then some (wires.setIfInBounds gate value) else none

theorem write?_append (before : Wires) (old : Nat) (after : List Nat) (value : Nat) :
    write? (before ++ (old :: after).toArray) before.size value =
      some (before.push value ++ after.toArray) := by
  rw [write?, if_pos (by simp)]
  congr 1
  apply Array.toList_inj.1
  simp

end Wires

namespace Gate

variable (F : Field) (addsConstants multiplies : Bool)

/-- The value of a gate, given those before it: none of an input, and of a product only where it is
to be multiplied out. -/
def value? (wires : Wires) : Gate → Option Nat
  | mul left right => if multiplies then some (F.mul (wires.at left) (wires.at right)) else none
  | gate => gate.derive? F addsConstants wires

/-- The value of a gate with bounds checked. -/
def checkedValue? (wires : Wires) : Gate → Option (Option Nat)
  | input => return none
  | add left right => do return some (F.add (← wires[left]?) (← wires[right]?))
  | addConst parent constant => do
    let value ← wires[parent]?
    return some (if addsConstants then F.add value constant else value)
  | mul left right => do
    if multiplies then return some (F.mul (← wires[left]?) (← wires[right]?)) else return none
  | mulConst parent constant => do return some (F.mul (← wires[parent]?) constant)

variable {F addsConstants multiplies}

theorem checkedValue?_eq {gate : Gate} {wires before : Wires}
    (reads : ∀ p ∈ gate.parents, wires[p]? = some (before.at p)) :
    gate.checkedValue? F addsConstants multiplies wires =
      some (gate.value? F addsConstants multiplies before) := by
  cases gate with
  | mul left right =>
    cases multiplies
    · rfl
    · simp [checkedValue?, value?, reads left (by simp [parents]), reads right (by simp [parents])]
  | input => rfl
  | add left right =>
    simp [checkedValue?, value?, derive?, reads left (by simp [parents]),
      reads right (by simp [parents])]
  | _ parent => simp [checkedValue?, value?, derive?, reads parent (by simp [parents])]

end Gate

namespace Circuit

variable {F : Field} {k : Bool} {c : Circuit}

/-- Gates that name no wires but those before them, after `n` others. -/
def Backward (n : Nat) (gates : List Gate) : Prop :=
  ∀ (j : Nat) (gate : Gate), gates[j]? = some gate → ∀ p ∈ gate.parents, p < n + j

theorem Backward.head {n : Nat} {gate : Gate} {gates : List Gate}
    (h : Backward n (gate :: gates)) : ∀ p ∈ gate.parents, p < n :=
  h 0 gate rfl

theorem Backward.tail {n : Nat} {gate : Gate} {gates : List Gate}
    (h : Backward n (gate :: gates)) : Backward (n + 1) gates := by
  intro j later found p mem
  have := h (j + 1) later found p mem
  omega

theorem WellFormed.backward (wf : c.WellFormed) : Backward 0 c.gates.toList := by
  intro j gate found p mem
  rw [Nat.zero_add]
  exact wf.parents_lt j gate (by rwa [← Array.getElem?_toList]) p mem

section Evaluate

/-- Evaluation with bounds checked, and the inputs that are left over. An input gate that finds none
is out of bounds too. -/
def evaluateInBounds (F : Field) :
    (gates : List Gate) → (inputs : List Nat) → (wires : Wires) → Option (Wires × List Nat)
  | [], inputs, wires => some (wires, inputs)
  | gate :: gates, inputs, wires => do
    match ← gate.checkedValue? F true true wires, inputs with
    | some value, inputs => evaluateInBounds F gates inputs (wires.push value)
    | none, input :: inputs => evaluateInBounds F gates inputs (wires.push (F.reduce input))
    | none, [] => none

/-- As many inputs as input gates are all consumed, each by one gate. -/
theorem evaluateInBounds_eq {gates : List Gate} {inputs : List Nat} {wires : Wires}
    (backward : Backward wires.size gates) (length : inputs.length = gates.countP Gate.isInput) :
    evaluateInBounds F gates inputs wires = some (evaluateGates F gates inputs wires, []) := by
  induction gates generalizing inputs wires with
  | nil =>
    rw [List.eq_nil_of_length_eq_zero length]
    rfl
  | cons gate gates ih =>
    have value : gate.checkedValue? F true true wires = some (gate.value? F true true wires) :=
      Gate.checkedValue?_eq fun p mem => Wires.getElem?_eq_at (backward.head p mem)
    have rest (v : Nat) : Backward (wires.push v).size gates := by
      rw [Array.size_push]
      exact backward.tail
    rw [List.countP_cons] at length
    rw [evaluateInBounds, value]
    cases gate with
    | input =>
      obtain ⟨input, inputs, rfl⟩ := List.exists_cons_of_length_eq_add_one length
      exact ih (rest _) (Nat.succ.inj length)
    | _ => exact ih (rest _) length

end Evaluate

section Derive

/-- Overwrites the wires of all derived gates in place, from number `id` on, with bounds checked. -/
def deriveInPlace (F : Field) (addsConstants : Bool) :
    (gates : List Gate) → (id : Nat) → (wires : Wires) → Option Wires
  | [], _, wires => some wires
  | gate :: gates, id, wires => do
    match ← gate.checkedValue? F addsConstants false wires with
    | none => deriveInPlace F addsConstants gates (id + 1) wires
    | some value => deriveInPlace F addsConstants gates (id + 1) (← wires.write? id value)

/-- The values of the gates of one kind. -/
def valuesOf (kind : Gate → Bool) (gates : List Gate) (values : List Nat) : List Nat :=
  ((gates.zip values).filter (kind ·.1)).map (·.2)

/-- Wires that follow `before` give inputs and products their values, and make room for all others
to be derived. -/
theorem deriveInPlace_append {gates : List Gate} {before : Wires} {values : List Nat}
    (backward : Backward before.size gates) (length : values.length = gates.length) :
    deriveInPlace F k gates before.size (before ++ values.toArray) =
      some (deriveGates F k gates (valuesOf Gate.isInput gates values)
        (valuesOf Gate.isMul gates values) before) := by
  induction gates generalizing before values with
  | nil =>
    rw [List.eq_nil_of_length_eq_zero length]
    simp [deriveInPlace, deriveGates]
  | cons gate gates ih =>
    obtain ⟨old, after, rfl⟩ := List.exists_cons_of_length_eq_add_one length
    have value : gate.checkedValue? F k false (before ++ (old :: after).toArray) =
        some (gate.value? F k false before) := by
      refine Gate.checkedValue?_eq fun p mem => ?_
      rw [Array.getElem?_append_left (backward.head p mem)]
      exact Wires.getElem?_eq_at (backward.head p mem)
    have rest (v : Nat) := @ih (before.push v) after
      (by rw [Array.size_push]; exact backward.tail) (Nat.succ.inj length)
    -- A gate that is not derived moves its own value over to the wires that are final.
    have kept : before ++ (old :: after).toArray = before.push old ++ after.toArray := by simp
    simp only [Array.size_push] at rest
    rw [deriveInPlace, value]
    cases gate with
    | input =>
      rw [kept]
      exact rest old
    | mul left right =>
      rw [kept]
      exact rest old
    | _ =>
      simp only [Gate.value?, Gate.derive?, Option.bind_eq_bind, Option.bind_some,
        Wires.write?_append]
      exact rest _

theorem valuesOf_drop (kind : Gate → Bool) {gates : List Gate} {wires : Wires} {n : Nat}
    (size : wires.size = n + gates.length) :
    valuesOf kind gates (wires.toList.drop n) =
      ((gates.zipIdx n).filter (kind ·.1)).map (wires.at ·.2) := by
  induction gates generalizing n with
  | nil => simp [valuesOf]
  | cons gate gates ih =>
    have here : n < wires.toList.length := by
      rw [Array.length_toList, size, List.length_cons]
      omega
    have rest := ih (n := n + 1) (by rw [size, List.length_cons]; omega)
    have value : wires.toList[n] = wires.at n := by simp_all [Wires.at]
    rw [List.drop_eq_getElem_cons here, value, List.zipIdx_cons, List.filter_cons]
    unfold valuesOf at rest ⊢
    rw [List.zip_cons_cons, List.filter_cons]
    split
    · rw [List.map_cons, List.map_cons, rest]
    · exact rest

theorem valuesOf_positions (kind : Gate → Bool) {wires : Wires} (size : wires.size = c.size) :
    valuesOf kind c.gates.toList wires.toList = (c.positions kind).map wires.at := by
  have all : wires.size = 0 + c.gates.toList.length := by
    rw [size, Nat.zero_add, Array.length_toList]
    rfl
  rw [positions, List.map_map]
  exact valuesOf_drop kind all

/-- What overwriting comes to is the derivation from the wires that it keeps. -/
theorem deriveInPlace_eq (wf : c.WellFormed) {wires : Wires} (size : wires.size = c.size) :
    deriveInPlace F k c.gates.toList 0 wires =
      some (c.wiresOfShares F k (c.sharedGates.map wires.at)) := by
  have length : wires.toList.length = c.gates.toList.length := by
    rw [Array.length_toList, Array.length_toList]
    exact size
  have derived := @deriveInPlace_append F k c.gates.toList #[] wires.toList wf.backward length
  have inputs : c.inputGates.map wires.at = (c.sharedGates.map wires.at).take c.numInputs := by
    rw [sharedGates, List.map_append, List.take_left']
    rw [List.length_map, length_inputGates]
  have products : c.mulGates.map wires.at = (c.sharedGates.map wires.at).drop c.numInputs := by
    rw [sharedGates, List.map_append, List.drop_left']
    rw [List.length_map, length_inputGates]
  rw [valuesOf_positions _ size, valuesOf_positions _ size] at derived
  rw [wiresOfShares, ← inputs, ← products]
  simpa [inputGates, mulGates] using derived

end Derive

section Import

/-- Reads one share after the other, each onto the wire of its gate. -/
def placeShares (F : Field) : (gates : List Nat) → (wires : Wires) →
    ExceptT CircuitError (StateM Replay) (Option Wires)
  | [], wires => return some wires
  | gate :: gates, wires => do
    let share ← (Replay.get F).adapt .share
    match wires.write? gate share with
    | none => return none
    | some wires => placeShares F gates wires

/-- Import onto wires that are zero at first. -/
def importInPlace (F : Field) (c : Circuit) :
    ExceptT CircuitError (StateM Replay) (Option Wires) := do
  match ← placeShares F c.sharedGates (Array.replicate c.size 0) with
  | none => return none
  | some wires => do
    c.checkWires wires
    return deriveInPlace F (← get).isLeader c.gates.toList 0 wires

theorem at_write {wires : Wires} {gate : Nat} (value : Nat) (h : gate < wires.size) (i : Nat) :
    Wires.at (wires.setIfInBounds gate value) i = if gate = i then value else wires.at i := by
  rw [Wires.at, Array.getD_eq_getD_getElem?, Array.getElem?_setIfInBounds, if_pos h]
  split
  · rfl
  · simp [Wires.at]

/-- Placing shares reads as many as there are gates, and puts each where it belongs. -/
theorem placeShares_run {gates : List Nat} {wires : Wires} (nodup : gates.Nodup)
    (inside : ∀ gate ∈ gates, gate < wires.size) (r : Replay) :
    match (Replay.take F gates.length).run.run r with
    | (.error e, s) => (placeShares F gates wires).run.run r = (.error (.share e), s)
    | (.ok shares, s) => ∃ placed : Wires,
      (placeShares F gates wires).run.run r = (.ok (some placed), s) ∧
        placed.size = wires.size ∧ gates.map placed.at = shares ∧
        ∀ i ∉ gates, placed.at i = wires.at i := by
  induction gates generalizing wires r with
  | nil => exact ⟨wires, rfl, rfl, rfl, fun _ _ => rfl⟩
  | cons gate gates ih =>
    have here := inside gate List.mem_cons_self
    obtain ⟨fresh, nodup⟩ := List.nodup_cons.1 nodup
    rw [List.length_cons, Replay.take, placeShares, Answer.bind_run, Answer.bind_run,
      Answer.adapt_run]
    obtain ⟨e | share, s⟩ := (Replay.get F).run.run r
    · rfl
    · let next : Wires := wires.setIfInBounds gate share
      have written : wires.write? gate share = some next := if_pos here
      have size : next.size = wires.size := Array.size_setIfInBounds
      have inside : ∀ i ∈ gates, i < next.size :=
        fun i mem => size ▸ inside i (List.mem_cons_of_mem gate mem)
      have rest := ih nodup inside s
      dsimp only [Answer.mapError_ok]
      rw [Answer.bind_run, written]
      dsimp only
      generalize (Replay.take F gates.length).run.run s = answer at rest ⊢
      obtain ⟨e | shares, s'⟩ := answer
      · exact rest
      · obtain ⟨placed, run, size', placed_eq, others⟩ := rest
        refine ⟨placed, run, size'.trans size, ?_, fun i out => ?_⟩
        · rw [List.map_cons, placed_eq, others gate fresh, at_write share here, if_pos rfl]
        · obtain ⟨ne, out⟩ := not_or.1 (List.mem_cons.not.1 out)
          rw [others i out, at_write share here, if_neg (Ne.symm ne)]

theorem nodup_positions (kind : Gate → Bool) : (c.positions kind).Nodup := by
  have sub : (c.positions kind).Sublist (c.gates.toList.zipIdx.map (·.2)) :=
    List.filter_sublist.map _
  rw [List.zipIdx_map_snd] at sub
  exact sub.nodup List.nodup_range'

theorem nodup_sharedGates : c.sharedGates.Nodup := by
  refine List.nodup_append.2 ⟨nodup_positions _, nodup_positions _, fun i input j mul => ?_⟩
  rintro rfl
  obtain ⟨gate, found, kind⟩ := mem_positions.1 input
  obtain ⟨gate', found', kind'⟩ := mem_positions.1 mul
  obtain rfl := Option.some.inj (found.symm.trans found')
  cases gate <;> simp_all [Gate.isInput, Gate.isMul, Gate.operands?]

theorem lt_of_mem_sharedGates {i : Nat} (h : i ∈ c.sharedGates) : i < c.size := by
  obtain ⟨gate, found, -⟩ := mem_sharedGates.1 h
  exact (Array.getElem?_eq_some_iff.1 found).1

/-- Whatever a server was sent, import in place is import. -/
theorem importInPlace_eq (wf : c.WellFormed) :
    c.importInPlace F = some <$> c.importWires F := by
  have run (r : Replay) : (c.importInPlace F).run.run r = (some <$> c.importWires F).run.run r := by
    have inside : ∀ i ∈ c.sharedGates, i < (Array.replicate c.size 0).size := by
      intro i mem
      rw [Array.size_replicate]
      exact lt_of_mem_sharedGates mem
    have placed := placeShares_run (F := F) c.nodup_sharedGates inside r
    rw [← bind_pure_comp, Answer.bind_run, importInPlace, importWires, Answer.bind_run,
      Answer.bind_run, Answer.adapt_run, ← length_sharedGates]
    generalize (Replay.take F c.sharedGates.length).run.run r = answer at placed ⊢
    obtain ⟨e | shares, s⟩ := answer
    · rw [placed]
      rfl
    · obtain ⟨wires, run, size, rfl, -⟩ := placed
      rw [Array.size_replicate] at size
      have fits : c.checkWires wires = .ok () := if_pos size
      rw [run]
      dsimp only [Answer.mapError_ok]
      rw [Answer.bind_run, Answer.lift_run, fits, Answer.bind_run, Answer.get_run]
      dsimp only
      rw [Answer.bind_run, Answer.get_run]
      dsimp only
      rw [deriveInPlace_eq wf size]
      rfl
  funext r
  exact run r

end Import

section Read

/-- The gates of the outputs, as a list of their own. -/
def outputGates (c : Circuit) : List Nat := c.outputs.toList.map (·.gate)

/-- The names of the outputs, as a list of their own. -/
def outputNames (c : Circuit) : List String := c.outputs.toList.map (·.name)

/-- The zero checks up to the first that fails, with bounds checked. -/
def acceptsInBounds (c : Circuit) (wires : Wires) : Option Bool :=
  c.zeroChecks.toList.allM fun z => do return (← wires[z]?) == 0

/-- The outputs under their names, with bounds checked. -/
def outputsInBounds (c : Circuit) (wires : Wires) : Option (List (String × Nat)) :=
  (c.outputNames.zip c.outputGates).mapM fun (name, gate) => do return (name, ← wires[gate]?)

theorem acceptsInBounds_eq (wf : c.WellFormed) {wires : Wires} (size : wires.size = c.size) :
    c.acceptsInBounds wires = some (c.accepts wires) := by
  have inside : ∀ z ∈ c.zeroChecks.toList, z < wires.size := by
    intro z mem
    rw [size]
    exact wf.zeroChecks_lt z (Array.mem_toList_iff.1 mem)
  rw [acceptsInBounds, accepts, ← Array.all_toList]
  generalize c.zeroChecks.toList = checks at inside ⊢
  induction checks with
  | nil => rfl
  | cons z zs ih =>
    have rest := ih fun z' mem => inside z' (List.mem_cons_of_mem z mem)
    rw [List.allM, Wires.getElem?_eq_at (inside z List.mem_cons_self), List.all_cons]
    cases zero : wires.at z == 0
    · simp [zero]
    · simpa [zero] using rest

theorem outputsInBounds_eq (wf : c.WellFormed) {wires : Wires} (size : wires.size = c.size) :
    c.outputsInBounds wires = some (c.namedOutputs wires) := by
  have inside : ∀ o ∈ c.outputs.toList, o.gate < wires.size := by
    intro o mem
    rw [size]
    exact wf.outputs_lt o (Array.mem_toList_iff.1 mem)
  rw [outputsInBounds, namedOutputs, outputNames, outputGates]
  generalize c.outputs.toList = outputs at inside ⊢
  induction outputs with
  | nil => rfl
  | cons o os ih =>
    have rest := ih fun o' mem => inside o' (List.mem_cons_of_mem o mem)
    have here := Wires.getElem?_eq_at (inside o List.mem_cons_self)
    simp only [List.map_cons, List.zip_cons_cons, List.mapM_cons]
    rw [here, rest]
    rfl

end Read

/-- References that point backwards, and all that rests on them: operations that are refused change
nothing, evaluation consumes each input once, and no pass with bounds checked ever fails one. -/
structure InBounds (F : Field) (c : Circuit) : Prop where
  wellFormed : c.WellFormed
  /-- There is a name for every output, as gates and names are kept in pairs. -/
  named : c.outputNames.length = c.outputGates.length
  refused : ∀ (p : Builder.Primitive) (e : CircuitError) (d : Circuit),
    p.builder.run.run c = (.error e, d) → d = c
  evaluates : ∀ inputs : List Nat, inputs.length = c.numInputs → ∃ wires : Wires,
    c.evaluate F inputs = .ok wires ∧ wires.size = c.size ∧
      evaluateInBounds F c.gates.toList inputs #[] = some (wires, [])
  derives : ∀ (addsConstants : Bool) (wires : Wires), wires.size = c.size → ∃ derived : Wires,
    c.deriveWires F addsConstants wires = .ok derived ∧
      deriveInPlace F addsConstants c.gates.toList 0 wires = some derived
  imports : c.importInPlace F = some <$> c.importWires F
  reads : ∀ wires : Wires, wires.size = c.size →
    c.acceptsInBounds wires = some (c.accepts wires) ∧
      c.outputsInBounds wires = some (c.namedOutputs wires)

/-- However a circuit was put together, and whatever failed on the way. -/
theorem Reachable.inBounds (F : Field) {c : Circuit} (h : c.Reachable) : c.InBounds F where
  wellFormed := h.wellFormed
  named := by rw [outputNames, outputGates, List.length_map, List.length_map]
  refused p _ _ fails := p.eq_of_error fails
  evaluates inputs length := by
    have evaluated := evaluate_eq_ok_iff (F := F) (c := c).2 ⟨length, rfl⟩
    refine ⟨_, evaluated, size_of_evaluate evaluated, ?_⟩
    exact evaluateInBounds_eq h.wellFormed.backward (by rw [length, Array.countP_toList, numInputs])
  derives addsConstants wires size := by
    refine ⟨_, ?_, deriveInPlace_eq h.wellFormed size⟩
    rw [deriveWires, checkWires, if_pos size]
    rfl
  imports := importInPlace_eq h.wellFormed
  reads wires size := ⟨acceptsInBounds_eq h.wellFormed size, outputsInBounds_eq h.wellFormed size⟩

/-- What is left of a regression that fails at its second term, and a bit after it. -/
def remnant : Circuit :=
  ((Gadget.Call.linReg .seventeen [1, 65] "x").builder.run.run .empty).2.and
    ((Gadget.Call.oneBit .seventeen "bit").builder.run.run .empty).2

theorem reachable_remnant : remnant.Reachable := .and (.gadget _ .empty) (.gadget _ .empty)

theorem inBounds_remnant :
    remnant.Reachable ∧ remnant.outputNames = ["x-bits[0]", "bit"] ∧
      (∃ wires, remnant.evaluate .seventeen [1, 0] = .ok wires ∧
        evaluateInBounds .seventeen remnant.gates.toList [1, 0] #[] = some (wires, [])) ∧
      remnant.InBounds .seventeen := by
  have inBounds := reachable_remnant.inBounds .seventeen
  obtain ⟨wires, evaluated, -, consumed⟩ := inBounds.evaluates [1, 0] (by decide +kernel)
  exact ⟨reachable_remnant, by decide +kernel, ⟨wires, evaluated, consumed⟩, inBounds⟩

end Circuit

end PrivateSums
