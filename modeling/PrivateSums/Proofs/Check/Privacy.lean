import PrivateSums.Proofs.Check.Completeness
import PrivateSums.Proofs.Check.Transcript

/-!
Privacy against all servers but one. Whatever these see of one accepted input, they see just as
often of any other: the remaining server's randomness makes up for the difference.
-/

namespace PrivateSums

namespace Field

variable (F : Field)

theorem add_sub_add_sub {a : Nat} (h : a < F.modulus) (v w : Nat) :
    F.add (F.add a (F.sub v w)) (F.sub w v) = a := by
  rw [← F.cast_inj (F.add_lt _ _) h, F.cast_add, F.cast_add, F.cast_sub, F.cast_sub]
  ring

theorem sub_add_sub (a v w : Nat) : F.sub v (F.add a (F.sub v w)) = F.sub w a := by
  rw [← F.cast_inj (F.sub_lt _ _) (F.sub_lt _ _), F.cast_sub, F.cast_sub, F.cast_add, F.cast_sub]
  ring

/-- Canonical elements with equal sums that agree everywhere else agree everywhere. -/
theorem eq_of_sum_eq {l l' : List Nat} (length : l'.length = l.length)
    (lt : ∀ v ∈ l, v < F.modulus) (lt' : ∀ v ∈ l', v < F.modulus) {j : Nat}
    (others : ∀ s ≠ j, l'[s]? = l[s]?)
    (sum : ((F.sum l' : Nat) : F.Residue) = F.sum l) : l' = l := by
  obtain hj | hj := Nat.lt_or_ge j l.length
  · have hj' : j < l'.length := length ▸ hj
    have only : l' = l.set j l'[j] := by
      apply List.ext_getElem?
      intro s
      obtain rfl | ne := eq_or_ne s j
      · simp [hj, hj']
      · rw [others s ne, List.getElem?_set_ne ne.symm]
    have apart' := F.cast_sum_set id hj l'[j]
    have apart := F.cast_sum_set id hj l[j]
    rw [List.map_id, ← only, sum] at apart'
    rw [List.map_id, List.set_getElem_self, apart', add_right_inj, id, id,
      F.cast_inj (lt' _ (List.getElem_mem hj')) (lt _ (List.getElem_mem hj))] at apart
    rw [only, apart, List.set_getElem_self]
  · apply List.ext_getElem?
    intro s
    obtain rfl | ne := eq_or_ne s j
    · rw [List.getElem?_eq_none hj, List.getElem?_eq_none (length ▸ hj)]
    · exact others s ne

end Field

namespace Tape

variable (F : Field) (c : Circuit) (leader : Nat) (point : EvaluationPoint) (others : List Tape)
  (j : Nat) (values values' : List Nat)

/-- Draws that leave the sums to the values as they were when the values change. -/
def shift (draws : Nat → Nat) (i : Nat) : Nat :=
  F.add (draws i) (F.sub (values'.getD i 0) (values.getD i 0))

/-- What the server with this number evaluates when its stream draws this. -/
def evaluations (draws : Nat → Nat) : Evaluations :=
  (Holding.ofShares F c (j == leader) ⟨0, 0, 0⟩
    (Sharing.shares F leader ((others.map (·.draws)).set j draws) values j)).evaluations F c point

/-- The randomness with which a server makes up for other values: it shifts its shares, and blinds
its evaluations by as much more. -/
def compensate (t : Tape) : Tape :=
  let draws := shift F values values' t.draws
  let e := evaluations F c leader point others j values t.draws
  let e' := evaluations F c leader point others j values' draws
  let a := F.add t.triple.a (F.sub e'.left e.left)
  let b := F.add t.triple.b (F.sub e'.right e.right)
  let total := TripleShare.total F ((others.map (·.triple)).set j ⟨a, b, t.triple.c⟩)
  { draws, triple := ⟨a, b, F.add t.triple.c (F.sub (F.mul total.a total.b) total.c)⟩ }

variable {F c leader point others j values values'}

theorem cast_shift (draws : Nat → Nat) (i : Nat) :
    ((shift F values values' draws i : Nat) : F.Residue) =
      draws i + ((values'.getD i 0 : Nat) - (values.getD i 0 : Nat)) := by
  rw [shift, F.cast_add, F.cast_sub]

theorem shift_lt (draws : Nat → Nat) (i : Nat) : shift F values values' draws i < F.modulus :=
  F.add_lt _ _

theorem shift_shift {draws : Nat → Nat} (canonical : ∀ i, draws i < F.modulus) :
    shift F values' values (shift F values values' draws) = draws := by
  funext i
  exact F.add_sub_add_sub (canonical i) _ _

end Tape

namespace Sharing

variable {F : Field} {leader : Nat} {draws : List (Nat → Nat)} {values values' : List Nat}
  {j : Nat}

/-- The deltas do not tell the values apart. -/
theorem deltas_shift (length : values'.length = values.length) (hj : j < draws.length)
    (u : Nat → Nat) :
    deltas F leader (draws.set j (Tape.shift F values values' u)) values' =
      deltas F leader (draws.set j u) values := by
  apply List.ext_getElem (by simp [length])
  intro i hi hi'
  have lt : i < values.length := by simpa using hi'
  have lt' : i < values'.length := length ▸ lt
  rw [← List.getD_eq_getElem _ 0 hi, ← List.getD_eq_getElem _ 0 hi', getD_deltas lt,
    getD_deltas lt', ← F.cast_inj (F.sub_lt _ _) (F.sub_lt _ _), F.cast_sub, F.cast_sub,
    F.cast_sum_set _ hj, F.cast_sum_set _ hj, Tape.cast_shift, List.getD_eq_getElem _ _ lt,
    List.getD_eq_getElem _ _ lt']
  ring

/-- Neither do the shares of the other servers. -/
theorem shares_shift (length : values'.length = values.length) (hj : j < draws.length)
    (u : Nat → Nat) {s : Nat} (hs : s < draws.length) (ne : s ≠ j) :
    shares F leader (draws.set j (Tape.shift F values values' u)) values' s =
      shares F leader (draws.set j u) values s := by
  apply List.ext_getElem (by simp [length])
  intro i hi hi'
  have lt : i < values.length := by simpa using hi'
  have lt' : i < values'.length := length ▸ lt
  rw [← List.getD_eq_getElem _ 0 hi, ← List.getD_eq_getElem _ 0 hi',
    getD_shares lt (by simpa using hs), getD_shares lt' (by simpa using hs),
    deltas_shift length hj, List.getElem_set_ne ne.symm, List.getElem_set_ne ne.symm]

end Sharing

namespace Tape

variable {F : Field} {c : Circuit} {leader : Nat} {point : EvaluationPoint} {others : List Tape}
  {j : Nat} {values values' : List Nat} {t : Tape}

theorem map_triple_set (t : Tape) :
    (others.set j t).map (·.triple) = (others.map (·.triple)).set j t.triple := List.map_set

/-- One tape of valid ones may change to another that keeps the triple valid. -/
theorem Valid.set {t' : Tape} (h : Valid F (others.set j t)) (draws : ∀ i, t'.draws i < F.modulus)
    (canonical : t'.triple.isCanonical F)
    (valid : TripleShare.isValid F ((others.map (·.triple)).set j t'.triple)) :
    Valid F (others.set j t') := by
  have mem (u : Tape) (hu : u ∈ others.set j t') : u = t' ∨ u ∈ others.set j t := by
    obtain ⟨s, hs, rfl⟩ := List.mem_iff_getElem.1 hu
    rw [List.length_set] at hs
    obtain rfl | ne := eq_or_ne j s
    · exact .inl (List.getElem_set_self _)
    · rw [List.getElem_set_ne ne, ← List.getElem_set_ne ne (a := t) (by rwa [List.length_set])]
      exact .inr (List.getElem_mem _)
  refine ⟨fun u hu i => ?_, fun u hu => ?_, map_triple_set t' ▸ valid⟩
  · obtain rfl | hu := mem u hu
    · exact draws i
    · exact h.draws_lt u hu i
  · obtain rfl | hu := mem u hu
    · exact canonical
    · exact h.canonical u hu

theorem Valid.compensate (hj : j < others.length) (h : Valid F (others.set j t)) :
    Valid F (others.set j (compensate F c leader point others j values values' t)) := by
  have hj' : j < (others.map (·.triple)).length := by simpa using hj
  refine h.set (shift_lt _) ?_ ?_
  · exact TripleShare.isCanonical_iff.2 ⟨F.add_lt _ _, F.add_lt _ _, F.add_lt _ _⟩
  · rw [TripleShare.isValid_set_iff hj']
    simp only [Tape.compensate, F.cast_add, F.cast_sub, F.cast_mul, TripleShare.total,
      F.cast_sum_set _ hj']
    ring

/-- Going back to the first values undoes it. -/
theorem compensate_compensate (hj : j < others.length) (h : Valid F (others.set j t)) :
    compensate F c leader point others j values' values
      (compensate F c leader point others j values values' t) = t := by
  have hj' : j < (others.map (·.triple)).length := by simpa using hj
  have mem : t ∈ others.set j t := List.mem_set hj t
  have draws : shift F values' values (shift F values values' t.draws) = t.draws :=
    shift_shift (h.draws_lt t mem)
  obtain ⟨a, b, c⟩ := TripleShare.isCanonical_iff.1 (h.canonical t mem)
  have valid := h.valid
  rw [map_triple_set, TripleShare.isValid_set_iff hj'] at valid
  rw [Tape.compensate]
  simp only [Tape.compensate, draws, F.add_sub_add_sub a, F.add_sub_add_sub b]
  refine congrArg (Tape.mk t.draws) (congrArg (TripleShare.mk _ _) ?_)
  rw [← F.cast_inj (F.add_lt _ _) c]
  simp only [F.cast_add, F.cast_sub, F.cast_mul, TripleShare.total, F.cast_sum_set _ hj']
  linear_combination valid

theorem map_draws_set (t : Tape) :
    (others.set j t).map (·.draws) = (others.map (·.draws)).set j t.draws := List.map_set

/-- The other servers see the same. -/
theorem seen_compensate (length : values'.length = values.length) (hj : j < others.length)
    {s : Nat} (ne : s ≠ j) :
    (seen F leader (others.set j (compensate F c leader point others j values values' t))
      values')[s]? = (seen F leader (others.set j t) values)[s]? := by
  have hj' : j < (others.map (·.draws)).length := by simpa using hj
  have draws : (compensate F c leader point others j values values' t).draws =
      shift F values values' t.draws := rfl
  obtain hs | hs := Nat.lt_or_ge s others.length
  · have shares : Sharing.shares F leader
          ((others.map (·.draws)).set j (shift F values values' t.draws)) values' s =
        Sharing.shares F leader ((others.map (·.draws)).set j t.draws) values s :=
      Sharing.shares_shift length hj' t.draws (by simpa using hs) ne
    have deltas : Sharing.deltas F leader
          ((others.map (·.draws)).set j (shift F values values' t.draws)) values' =
        Sharing.deltas F leader ((others.map (·.draws)).set j t.draws) values :=
      Sharing.deltas_shift length hj' t.draws
    simp [seen, Tape.shares, hs, draws, shares, deltas, ne.symm]
  · simp [seen, hs]

theorem seen_self (hj : j < others.length) (t : Tape) (values : List Nat) :
    ((seen F leader (others.set j t) values)[j]?).map
        (fun v => (v.party F c leader).corShare F c point) = some {
      d := F.sub (evaluations F c leader point others j values t.draws).left t.triple.a
      e := F.sub (evaluations F c leader point others j values t.draws).right t.triple.b } := by
  have found : (seen F leader (others.set j t) values)[j]? = some {
      server := j
      shares := shares F leader (others.set j t) values j
      deltas := if j = leader then
        Sharing.deltas F leader ((others.set j t).map (·.draws)) values else []
      triple := t.triple } := by
    simp [seen, hj]
  rw [found, Option.map_some, shares, map_draws_set]
  rfl

/-- All servers send the same in the first round, also the one that makes up. -/
theorem corShares_compensate (length : values'.length = values.length) (hj : j < others.length) :
    (seen F leader (others.set j (compensate F c leader point others j values values' t))
        values').map (fun v => (v.party F c leader).corShare F c point) =
      (seen F leader (others.set j t) values).map
        fun v => (v.party F c leader).corShare F c point := by
  apply List.ext_getElem?
  intro s
  rw [List.getElem?_map, List.getElem?_map]
  obtain rfl | ne := eq_or_ne s j
  · rw [seen_self hj, seen_self hj]
    simp only [compensate, F.sub_add_sub]
  · rw [seen_compensate length hj ne]

section

variable [Fact F.modulus.Prime] {d : CircuitDomain} {k : Nat} {inputs : List Nat} {wires : Wires}
  {randomLeft randomRight : Nat}

theorem run_eq_ok (hd : d.Valid F k) (size : c.domainSize = 2 ^ k) (tapes : List Tape)
    (evaluated : c.evaluate F inputs = .ok wires)
    (ok : ClientRequest.values F c wires randomLeft randomRight = .ok values) (x : Nat)
    (coefficients : List Nat) :
    run F c leader (.ofPoint F d x) coefficients inputs randomLeft randomRight tapes = .ok {
      seen := seen F leader tapes values
      corShares := (seen F leader tapes values).map fun v =>
        (v.party F c leader).corShare F c (.ofPoint F d x)
      outShares := (parties F c leader tapes values).map (Party.outShare F c leader (.ofPoint F d x)
        (parties F c leader tapes values) coefficients) } := by
  have complete := @complete_parties F c leader tapes values
    (ClientRequest.length_values hd size ok)
  rw [parties_eq_map_seen] at complete
  rw [run, evaluated, Answer.mapError_ok, Answer.ok_bind, ok, Answer.mapError_ok, Answer.ok_bind,
    check_eq_ok hd size fun v hv => complete _ (List.mem_map_of_mem hv), parties_eq_map_seen,
    List.map_map]
  rfl

end

end Tape

/-- Two runs with all servers but one the same, and all the same in the first round, end with the
same shares if these have the same sum. -/
theorem Party.outShares_eq_of_sum_eq {F : Field} {c : Circuit} {leader : Nat} {ps ps' : List Party}
    {point : EvaluationPoint} (coefficients : List Nat) {j : Nat} (length : ps'.length = ps.length)
    (others : ∀ s ≠ j, ps'[s]? = ps[s]?)
    (corShares : ps'.map (corShare F c point) = ps.map (corShare F c point))
    (sum : ((F.sum (ps'.map fun p => (p.outShare F c leader point ps' coefficients).check) : Nat)
        : F.Residue) =
      F.sum (ps.map fun p => (p.outShare F c leader point ps coefficients).check)) :
    ps'.map (outShare F c leader point ps' coefficients) =
      ps.map (outShare F c leader point ps coefficients) := by
  have d := congrArg (fun shares => F.sum (shares.map (·.d))) corShares
  have e := congrArg (fun shares => F.sum (shares.map (·.e))) corShares
  have cor_eq : cor F c point ps' = cor F c point ps := by
    simp only [List.map_map] at d e
    exact congrArg₂ Cor.mk d e
  have out_eq : outShare F c leader point ps' coefficients =
      outShare F c leader point ps coefficients := by
    funext p
    rw [outShare, outShare, productCheck, productCheck, cor_eq]
  rw [out_eq] at sum ⊢
  have canonical (qs : List Party) : ∀ v ∈ qs.map fun p =>
      (p.outShare F c leader point ps coefficients).check, v < F.modulus := by
    intro v hv
    obtain ⟨p, -, rfl⟩ := List.mem_map.1 hv
    exact Holding.combine_lt _ _
  have checks := F.eq_of_sum_eq (by simpa using length) (canonical ps) (canonical ps')
    (fun s ne => by rw [List.getElem?_map, List.getElem?_map, others s ne]) sum
  simpa [Function.comp_def] using congrArg (List.map OutShare.mk) checks

namespace Tape

variable {F : Field} [Fact F.modulus.Prime] {c : Circuit}

/-- Perfect zero knowledge against all servers but one. For two inputs that are both accepted, the
randomness of the one server changes along a bijection, so that the runs on either input show all
other servers the same and every server sends the same in both rounds. The runs are those of
`run_of_ofInputs`: what servers see and send when they take in an honest client's requests and go
through both rounds, with the elements that its keys expand to for the draws. -/
theorem exists_compensation (wf : c.WellFormed) (fits : 2 * c.domainSize ≤ 2 ^ F.twoOrder)
    {others : List Tape} {leader j : Nat} (hl : leader < others.length) (hj : j < others.length)
    {inputs inputs' : List Nat} (accepted : c.check F inputs = .ok true)
    (accepted' : c.check F inputs' = .ok true) (x : Nat) (coefficients : List Nat)
    (randomLeft randomRight : Nat) :
    ∃ domain, CircuitDomain.ofCircuit F c = .ok domain ∧ ∃ change : Tape → Tape,
      Set.BijOn change {t | Valid F (others.set j t)} {t | Valid F (others.set j t)} ∧
        ∀ t, Valid F (others.set j t) → ∃ shown shown',
          run F c leader (.ofPoint F domain x) coefficients inputs randomLeft randomRight
            (others.set j t) = .ok shown ∧
          run F c leader (.ofPoint F domain x) coefficients inputs' randomLeft randomRight
            (others.set j (change t)) = .ok shown' ∧
          shown'.corShares = shown.corShares ∧ shown'.outShares = shown.outShares ∧
          ∀ s ≠ j, shown'.seen[s]? = shown.seen[s]? := by
  obtain ⟨domain, k, domainOk, size, hd⟩ := CircuitDomain.ofCircuit_eq_ok (F := F) fits
  obtain ⟨wires, evaluated, -⟩ := Answer.bind_eq_ok.1 accepted
  obtain ⟨wires', evaluated', -⟩ := Answer.bind_eq_ok.1 accepted'
  obtain ⟨values, ok⟩ := ClientRequest.exists_values hd size wires randomLeft randomRight
  obtain ⟨values', ok'⟩ := ClientRequest.exists_values hd size wires' randomLeft randomRight
  have length : values'.length = values.length := by
    rw [ClientRequest.length_values hd size ok, ClientRequest.length_values hd size ok']
  let change := compensate F c leader (.ofPoint F domain x) others j values values'
  let back := compensate F c leader (.ofPoint F domain x) others j values' values
  have inverse : Set.InvOn back change {t | Valid F (others.set j t)}
      {t | Valid F (others.set j t)} :=
    ⟨fun t => compensate_compensate hj, fun t => compensate_compensate hj⟩
  refine ⟨domain, domainOk, change, inverse.bijOn (fun t => Valid.compensate hj)
    (fun t => Valid.compensate hj), fun t valid => ?_⟩
  have valid' : Valid F (others.set j (change t)) := valid.compensate hj
  have count (t : Tape) : leader < (others.set j t).length := by rwa [List.length_set]
  have seen_eq (s : Nat) (ne : s ≠ j) :
      (seen F leader (others.set j (change t)) values')[s]? =
        (seen F leader (others.set j t) values)[s]? := seen_compensate length hj ne
  have corShares : (seen F leader (others.set j (change t)) values').map
        (fun v => (v.party F c leader).corShare F c (.ofPoint F domain x)) =
      (seen F leader (others.set j t) values).map
        fun v => (v.party F c leader).corShare F c (.ofPoint F domain x) :=
    corShares_compensate length hj
  refine ⟨_, _, run_eq_ok hd size _ evaluated ok x coefficients,
    run_eq_ok hd size _ evaluated' ok' x coefficients, corShares, ?_, seen_eq⟩
  refine Party.outShares_eq_of_sum_eq (j := j) coefficients (by simp) (fun s ne => ?_) ?_ ?_
  · rw [parties_eq_map_seen, parties_eq_map_seen, List.getElem?_map, List.getElem?_map,
      seen_eq s ne]
  · rw [parties_eq_map_seen, parties_eq_map_seen, List.map_map, List.map_map]
    exact corShares
  · rw [sum_outShare_eq_zero wf hd size (count _) valid'.valid evaluated' accepted' ok',
      sum_outShare_eq_zero wf hd size (count _) valid.valid evaluated accepted ok]

/-- Two servers whose randomness is all zero. -/
def blank : List Tape := List.replicate 2 ⟨fun _ => 0, ⟨0, 0, 0⟩⟩

theorem valid_blank : Valid .seventeen blank := by
  refine ⟨fun t ht i => ?_, fun t ht => ?_, by decide⟩ <;> rw [List.eq_of_mem_replicate ht]
  · exact Field.seventeen.modulus_pos
  · decide

theorem exists_compensation_bit : ∃ (domain : CircuitDomain) (t : Tape) (shown shown' : Transcript),
    CircuitDomain.ofCircuit .seventeen Checker.bit = .ok domain ∧
      Valid .seventeen (blank.set 1 t) ∧
      run .seventeen Checker.bit 1 (.ofPoint .seventeen domain 5) [6, 7] [0] 2 3 blank = .ok shown ∧
      run .seventeen Checker.bit 1 (.ofPoint .seventeen domain 5) [6, 7] [1] 2 3 (blank.set 1 t) =
        .ok shown' ∧
      shown'.corShares = shown.corShares ∧ shown'.outShares = shown.outShares ∧
      shown'.seen[0]? = shown.seen[0]? := by
  have last : 1 < blank.length := by decide
  obtain ⟨domain, ok, change, bijection, runs⟩ := exists_compensation Checker.wellFormed_bit
    (by decide) last last (Checker.check_bit false) (Checker.check_bit true) 5 [6, 7] 2 3
  obtain ⟨shown, shown', run, run', corShares, outShares, seen⟩ := runs _ valid_blank
  exact ⟨domain, _, shown, shown', ok, bijection.mapsTo valid_blank, run, run', corShares,
    outShares, seen 0 (by decide)⟩

end Tape

end PrivateSums
