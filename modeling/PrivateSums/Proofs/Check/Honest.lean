import PrivateSums.Proofs.Check.ProofValues
import PrivateSums.Proofs.Check.Soundness
import PrivateSums.Proofs.Share.Splitter

/-!
What the servers hold of an honest client's values, for any draws of their streams. They reconstruct
the true wires, and the checked polynomial is zero.
-/

open scoped Polynomial

namespace PrivateSums

/-- What is random about one server: the elements that its key expands to, and its share of the
triple. -/
structure Tape where
  draws : Nat → Nat
  triple : TripleShare

namespace Tape

section

variable (F : Field) (c : Circuit) (leader : Nat) (tapes : List Tape) (values : List Nat)

/-- The shares of a server, when the streams draw what the tapes say. -/
def shares (server : Nat) : List Nat :=
  Sharing.shares F leader (tapes.map (·.draws)) values server

/-- All servers with what they hold of the shared values. -/
def parties : List Party :=
  tapes.zipIdx.map fun (tape, server) => {
    server
    holding := .ofShares F c (server == leader) tape.triple (shares F leader tapes values server) }

/-- What all servers see of the shared values. -/
def seen : List Seen :=
  tapes.zipIdx.map fun (tape, server) => {
    server
    shares := shares F leader tapes values server
    deltas := if server = leader then Sharing.deltas F leader (tapes.map (·.draws)) values else []
    triple := tape.triple }

/-- Whether the tapes are such as keys and a dealer leave: field elements, and a valid triple. -/
structure Valid : Prop where
  draws_lt : ∀ t ∈ tapes, ∀ i, t.draws i < F.modulus
  canonical : ∀ t ∈ tapes, t.triple.isCanonical F
  valid : TripleShare.isValid F (tapes.map (·.triple))

end

variable {F : Field} {c : Circuit} {leader : Nat} {tapes : List Tape} {values : List Nat}

theorem parties_eq_map_seen : parties F c leader tapes values =
    (seen F leader tapes values).map (Seen.party F c leader) := by
  rw [seen, List.map_map]
  rfl

@[simp] theorem length_parties : (parties F c leader tapes values).length = tapes.length := by
  rw [parties, List.length_map, List.length_zipIdx]

theorem complete_parties (length : values.length = c.numSharedValues) :
    ∀ p ∈ parties F c leader tapes values, p.holding.Complete c := by
  intro p hp
  obtain ⟨r, -, rfl⟩ := List.mem_map.1 hp
  exact Holding.complete_ofShares (by rw [shares, Sharing.length_shares, length])

theorem servers_parties :
    (parties F c leader tapes values).map Party.server = List.range tapes.length := by
  rw [parties, List.map_map]
  exact (List.zipIdx_map_snd 0 tapes).trans (List.range_eq_range' ..).symm

theorem linear_parties (wf : c.WellFormed) (hl : leader < tapes.length) :
    c.Linear F 1 (Party.wires F (parties F c leader tapes values)) := by
  rw [← (Party.oneLeader_of_servers servers_parties hl : Party.total _ _ = (1 : F.Residue))]
  refine Circuit.Linear.sum fun p hp => ?_
  obtain ⟨r, -, rfl⟩ := List.mem_map.1 hp
  exact Circuit.linear_wiresOfShares wf _

/-- The servers' shares of a value sum to it, wherever holdings keep them. -/
theorem total_parties (hl : leader < tapes.length) {i : Nat} (hi : i < values.length)
    {f : Holding → Nat} (keeps : ∀ isLeader triple shares, shares.length = values.length →
      f (.ofShares F c isLeader triple shares) = shares.getD i 0) :
    (Party.total (parties F c leader tapes values) fun p => ((f p.holding : Nat) : F.Residue)) =
      ((values.getD i 0 : Nat) : F.Residue) := by
  have column : (parties F c leader tapes values).map
      (fun p => ((f p.holding : Nat) : F.Residue)) = (List.range tapes.length).map fun s =>
        (((shares F leader tapes values s).getD i 0 : Nat) : F.Residue) := by
    have servers := List.zipIdx_map_snd 0 tapes
    rw [← List.range_eq_range'] at servers
    rw [parties, ← servers, List.map_map, List.map_map]
    refine List.map_congr_left fun t _ => ?_
    simp only [Function.comp]
    rw [keeps _ _ _ (by rw [shares, Sharing.length_shares])]
  have sum := @Sharing.sum_shares F leader (tapes.map (·.draws)) values
    (by rwa [List.length_map]) i hi
  rw [List.length_map] at sum
  rw [Party.total, column, List.getD_eq_getElem _ _ hi]
  exact sum

theorem wires_parties (hl : leader < tapes.length) (length : values.length = c.numSharedValues)
    {i : Nat} (hi : i < c.sharedGates.length) :
    Party.wires F (parties F c leader tapes values) c.sharedGates[i] =
      ((values.getD i 0 : Nat) : F.Residue) := by
  have shared := c.length_sharedGates
  have lt : i < values.length := by
    rw [length, Circuit.numSharedValues]
    omega
  refine total_parties (f := fun h => h.wires.at c.sharedGates[i]) hl lt fun k triple l hl => ?_
  have taken : (l.take c.numShared).length = c.numShared := by
    rw [List.length_take, hl, length, Circuit.numSharedValues]
    omega
  have gates := Circuit.shared_wiresOfShares (F := F) (k := k) taken
  have entry := congrArg (·[i]?) gates
  simp only [List.getElem?_map, List.getElem?_eq_getElem hi, Option.map_some,
    List.getElem?_take_of_lt (shared ▸ hi)] at entry
  rw [List.getD_eq_getElem?_getD, ← entry]
  rfl

end Tape

namespace ClientRequest

/-- Everything that a client shares, in order: its shared wires, then its proof. -/
def values (F : Field) (c : Circuit) (wires : Wires) (randomLeft randomRight : Nat) :
    Except PolynomialError (List Nat) := do
  return c.sharedGates.map wires.at ++ (← proofValues F c wires randomLeft randomRight)

variable {F : Field} {c : Circuit} {d : CircuitDomain} {k : Nat} {wires : Wires}
  {randomLeft randomRight : Nat} {shared : List Nat}

theorem order_of_values (h : values F c wires randomLeft randomRight = .ok shared) :
    2 * c.domainSize ≤ 2 ^ F.twoOrder := by
  obtain ⟨proof, ok, -⟩ := Answer.bind_eq_ok.1 h
  exact order_of_proofValues ok

variable [Fact F.modulus.Prime]

variable (F c d wires) in
/-- The polynomial through the values of the first factor. -/
noncomputable def left (randomLeft : Nat) : F.Residue[X] :=
  d.factors.interpolant F
    (factorValues c.domainSize randomLeft (c.mulOperands.map (wires.at ·.1)))

variable (F c d wires) in
/-- The polynomial through the values of the second factor. -/
noncomputable def right (randomRight : Nat) : F.Residue[X] :=
  d.factors.interpolant F
    (factorValues c.domainSize randomRight (c.mulOperands.map (wires.at ·.2)))

/-- What an honest client shares, part by part. -/
theorem exists_hints (hd : d.Valid F k) (size : c.domainSize = 2 ^ k)
    (h : values F c wires randomLeft randomRight = .ok shared) : ∃ hints,
      shared = c.sharedGates.map wires.at ++
        randomLeft :: randomRight :: F.mul randomLeft randomRight :: hints ∧
      hints.length = c.domainSize - 1 ∧ ∀ j < c.domainSize - 1,
        ((hints.getD j 0 : Nat) : F.Residue) =
          (left F c d wires randomLeft * right F c d wires randomRight).eval
            (F.root (k + 1) ^ (2 * j + 1)) := by
  obtain ⟨hints, ok, length, -, evals⟩ :=
    proofValues_eq_ok hd.order size wires randomLeft randomRight
  rw [values, ok, Answer.ok_bind, Answer.pure_eq, Except.ok.injEq] at h
  have degree (vs : List Nat) : (d.factors.interpolant F vs).degree < (2 ^ k : Nat) := by
    simpa only [hd.length_factors] using PointSet.degree_interpolant_lt hd.factors vs
  have nodes (vs : List Nat) (i : Nat) (hi : i < 2 ^ k) :
      (d.factors.interpolant F vs).eval (F.root k ^ i) = ((vs.getD i 0 : Nat) : F.Residue) := by
    rw [← hd.node_factors i hi, PointSet.eval_interpolant hd.factors _
      (by rwa [hd.length_factors])]
  exact ⟨hints, h.symm, length, evals _ _ (degree _) (degree _) (nodes _) (nodes _)⟩

theorem exists_values (hd : d.Valid F k) (size : c.domainSize = 2 ^ k) (wires : Wires)
    (randomLeft randomRight : Nat) :
    ∃ shared, values F c wires randomLeft randomRight = .ok shared := by
  obtain ⟨hints, ok, -⟩ := proofValues_eq_ok hd.order size wires randomLeft randomRight
  exact ⟨_, by rw [values, ok]; rfl⟩

theorem length_values (hd : d.Valid F k) (size : c.domainSize = 2 ^ k)
    (h : values F c wires randomLeft randomRight = .ok shared) :
    shared.length = c.numSharedValues := by
  obtain ⟨hints, rfl, length, -⟩ := exists_hints hd size h
  simp only [List.length_append, List.length_map, List.length_cons, length, c.length_sharedGates,
    Circuit.numSharedValues]
  omega

end ClientRequest

theorem Circuit.operands_lt {c : Circuit} (wf : c.WellFormed) {j : Nat}
    (hj : j < c.mulOperands.length) :
    c.mulOperands[j].1 < c.size ∧ c.mulOperands[j].2 < c.size := by
  have hj' : j < c.mulGates.length := by rwa [c.length_mulGates, ← c.length_mulOperands]
  exact wf.factors_lt (Circuit.getElem_mulGates hj' hj)

namespace Tape

variable {F : Field} [Fact F.modulus.Prime] {c : Circuit} {d : CircuitDomain} {k leader : Nat}
  {tapes : List Tape} {inputs shared : List Nat} {wires : Wires} {randomLeft randomRight : Nat}
  (wf : c.WellFormed) (hd : d.Valid F k) (size : c.domainSize = 2 ^ k)
  (evaluated : c.Evaluated F inputs wires)
  (ok : ClientRequest.values F c wires randomLeft randomRight = .ok shared)
  (hl : leader < tapes.length)

include hd size ok hl

/-- What follows the wires in the shared values is held in that order. -/
theorem total_proof {proof : List Nat} (eq : shared = c.sharedGates.map wires.at ++ proof)
    {n : Nat} (hn : n < 3 + (c.domainSize - 1)) {f : Holding → Nat}
    (keeps : ∀ isLeader triple shares, shares.length = shared.length →
      f (.ofShares F c isLeader triple shares) = shares.getD (c.numShared + n) 0) :
    (Party.total (parties F c leader tapes shared) fun p => ((f p.holding : Nat) : F.Residue)) =
      ((proof.getD n 0 : Nat) : F.Residue) := by
  have lt : c.numShared + n < shared.length := by
    rw [ClientRequest.length_values hd size ok, Circuit.numSharedValues]
    omega
  have length : (c.sharedGates.map wires.at).length = c.numShared := by
    rw [List.length_map, c.length_sharedGates]
  rw [total_parties hl lt keeps, eq, List.getD_append_right _ _ _ _ (by omega), length,
    Nat.add_sub_cancel_left]

include wf evaluated

/-- The servers reconstruct the true wires. -/
theorem wires_eq {i : Nat} (hi : i < c.size) :
    Party.wires F (parties F c leader tapes shared) i = wires.residue F i := by
  obtain ⟨hints, eq, -⟩ := ClientRequest.exists_hints hd size ok
  refine Circuit.wires_eq_of_shared wf (linear_parties wf hl) evaluated.linear
    (fun i hi => ?_) i hi
  obtain ⟨n, hn, rfl⟩ := List.mem_iff_getElem.1 hi
  rw [wires_parties hl (ClientRequest.length_values hd size ok) hn, eq,
    List.getD_append _ _ _ _ (by rwa [List.length_map]),
    List.getD_eq_getElem _ _ (by rwa [List.length_map]), List.getElem_map]
  rfl

/-- A factor's shared values sum to its true ones. -/
theorem total_factorValues {g : Nat × Nat → Nat} (hg : ∀ o ∈ c.mulOperands, g o < c.size)
    {random : Holding → Nat} {value : Nat}
    (hr : (Party.total (parties F c leader tapes shared) fun p =>
      ((random p.holding : Nat) : F.Residue)) = value) (i : Nat) :
    (Party.total (parties F c leader tapes shared) fun p =>
      (((ClientRequest.factorValues c.domainSize (random p.holding)
        (c.mulOperands.map fun o => p.holding.wires.at (g o))).getD i 0 : Nat) : F.Residue)) =
      (((ClientRequest.factorValues c.domainSize value
        (c.mulOperands.map fun o => wires.at (g o))).getD i 0 : Nat) : F.Residue) := by
  cases i with
  | zero => simpa only [Holding.getD_factorValues_zero] using hr
  | succ j =>
    rw [Holding.getD_factorValues_succ]
    obtain hj | hj := Nat.lt_or_ge j c.mulOperands.length
    · rw [Party.total_operand g random hj,
        wires_eq wf hd size evaluated ok hl (hg _ (List.getElem_mem hj)),
        List.getD_eq_getElem _ _ (by rwa [List.length_map]), List.getElem_map]
      rfl
    · rw [List.getD_eq_default _ _ (by rwa [List.length_map]), Nat.cast_zero, Party.total]
      refine List.sum_eq_zero fun v hv => ?_
      obtain ⟨p, -, rfl⟩ := List.mem_map.1 hv
      rw [Holding.getD_factorValues_succ, List.getD_eq_default _ _ (by rwa [List.length_map]),
        Nat.cast_zero]

theorem left_eq : Party.left F c (parties F c leader tapes shared) d =
    ClientRequest.left F c d wires randomLeft := by
  obtain ⟨hints, eq, length, -⟩ := ClientRequest.exists_hints hd size ok
  have random : (Party.total (parties F c leader tapes shared) fun p =>
      ((p.holding.randomLeft : Nat) : F.Residue)) = randomLeft :=
    total_proof hd size ok hl eq (n := 0) (by omega) fun _ _ _ _ => rfl
  have operands : ∀ o ∈ c.mulOperands, o.1 < c.size := fun o ho => by
    obtain ⟨j, hj, rfl⟩ := List.mem_iff_getElem.1 ho
    exact (Circuit.operands_lt wf hj).1
  refine Transform.eq_of_eval_roots F (Nat.le_of_succ_le hd.order) ?_ ?_ fun i hi => ?_
  · exact Party.degree_total_lt fun p _ => hd.degree_factors _
  · exact hd.degree_factors _
  · rw [Party.eval_left hd hi, ClientRequest.left, hd.eval_factors _ hi]
    exact total_factorValues wf hd size evaluated ok hl operands random i

theorem right_eq : Party.right F c (parties F c leader tapes shared) d =
    ClientRequest.right F c d wires randomRight := by
  obtain ⟨hints, eq, length, -⟩ := ClientRequest.exists_hints hd size ok
  have random : (Party.total (parties F c leader tapes shared) fun p =>
      ((p.holding.randomRight : Nat) : F.Residue)) = randomRight :=
    total_proof hd size ok hl eq (n := 1) (by omega) fun _ _ _ _ => rfl
  have operands : ∀ o ∈ c.mulOperands, o.2 < c.size := fun o ho => by
    obtain ⟨j, hj, rfl⟩ := List.mem_iff_getElem.1 ho
    exact (Circuit.operands_lt wf hj).2
  refine Transform.eq_of_eval_roots F (Nat.le_of_succ_le hd.order) ?_ ?_ fun i hi => ?_
  · exact Party.degree_total_lt fun p _ => hd.degree_factors _
  · exact hd.degree_factors _
  · rw [Party.eval_right hd hi, ClientRequest.right, hd.eval_factors _ hi]
    exact total_factorValues wf hd size evaluated ok hl operands random i

/-- The claimed product is that of the factors at every point of its domain. -/
theorem eval_product {i : Nat} (hi : i < 2 ^ (k + 1) - 1) :
    (Party.product F c (parties F c leader tapes shared) d).eval (F.root (k + 1) ^ i) =
      (ClientRequest.left F c d wires randomLeft *
        ClientRequest.right F c d wires randomRight).eval (F.root (k + 1) ^ i) := by
  obtain ⟨hints, eq, length, evals⟩ := ClientRequest.exists_hints hd size ok
  have complete := @complete_parties F c leader tapes shared
    (ClientRequest.length_values hd size ok)
  rw [Party.eval_product hd hi]
  obtain rfl | ⟨j, rfl | rfl⟩ : i = 0 ∨ ∃ j, i = 2 * j + 1 ∨ i = 2 * (j + 1) := by
    obtain ⟨j, rfl | rfl⟩ := i.even_or_odd'
    · cases j with
      | zero => exact .inl rfl
      | succ j => exact .inr ⟨j, .inr rfl⟩
    · exact .inr ⟨j, .inl rfl⟩
  · have random := total_proof hd size ok hl eq (n := 2) (f := Holding.randomProduct) (by omega)
      fun _ _ _ _ => rfl
    rw [Polynomial.eval_mul, pow_zero, ← pow_zero (F.root k), ClientRequest.left,
      ClientRequest.right, hd.eval_factors _ (Nat.two_pow_pos k),
      hd.eval_factors _ (Nat.two_pow_pos k), Holding.getD_factorValues_zero,
      Holding.getD_factorValues_zero, ← F.cast_mul]
    exact random
  · have hj : j < c.domainSize - 1 := by
      rw [Nat.pow_succ', ← size] at hi
      omega
    rw [← evals j hj, Party.total_congr fun p hp => by
      rw [((complete p hp).getD_productValues j).1]]
    refine total_proof hd size ok hl eq (n := j + 3) (f := fun h => h.hints.getD j 0) (by omega)
      fun _ _ l _ => ?_
    rw [Holding.ofShares, List.getD_eq_getElem?_getD, List.getElem?_drop,
      List.getD_eq_getElem?_getD, Nat.add_assoc, Nat.add_comm 3]
  · have lt : j + 1 < 2 ^ k := by
      rw [Nat.pow_succ'] at hi
      omega
    rw [Party.total_congr fun p hp => by rw [((complete p hp).getD_productValues j).2],
      F.root_double hd.order, Polynomial.eval_mul, ClientRequest.left, ClientRequest.right,
      hd.eval_factors _ lt, hd.eval_factors _ lt, Holding.getD_factorValues_succ,
      Holding.getD_factorValues_succ, ← evaluated.getD_mulGates]
    obtain hm | hm := Nat.lt_or_ge j c.mulGates.length
    · have gate : c.mulGates[j] < c.size := by
        have found := Circuit.getElem_mulGates hm
          (by rwa [c.length_mulOperands, ← c.length_mulGates])
        exact (Array.getElem?_eq_some_iff.1 found).1
      simp only [List.getD_eq_getElem?_getD, List.getElem?_map, List.getElem?_eq_getElem hm,
        Option.map_some, Option.getD_some]
      exact wires_eq wf hd size evaluated ok hl gate
    · simp only [List.getD_eq_getElem?_getD, List.getElem?_map, List.getElem?_eq_none hm,
        Option.map_none, Option.getD_none, Nat.cast_zero]
      exact List.sum_eq_zero (by simp)

theorem product_eq : Party.product F c (parties F c leader tapes shared) d =
    ClientRequest.left F c d wires randomLeft * ClientRequest.right F c d wires randomRight := by
  have le : 2 ^ (k + 1) - 1 ≤ (2 ^ (k + 1) : Nat) := Nat.sub_le ..
  apply Polynomial.eq_of_degrees_lt_of_eval_index_eq (Finset.range (2 ^ (k + 1) - 1))
    ((F.isPrimitiveRoot_root hd.order).injOn_pow.mono
      (Finset.coe_subset.2 (Finset.range_subset_range.2 le)))
  · rw [Finset.card_range]
    exact Party.degree_total_lt fun p _ => hd.degree_product _
  · rw [Finset.card_range]
    exact hd.degree_factors_mul _ _
  · exact fun i hi => eval_product wf hd size evaluated ok hl (Finset.mem_range.1 hi)

/-- Nothing but the triple can make an honest client's checked polynomial differ from zero. -/
theorem checked_eq : Party.checked F c (parties F c leader tapes shared) d =
    .C (Party.offset F (parties F c leader tapes shared)) := by
  rw [Party.checked, left_eq wf hd size evaluated ok hl, right_eq wf hd size evaluated ok hl,
    product_eq wf hd size evaluated ok hl, sub_self, mul_zero, zero_add]

end Tape

end PrivateSums
