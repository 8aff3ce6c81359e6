import PrivateSums.Proofs.Check.Client

/-!
Fields without enough roots of unity for a circuit. Both the points of a server and the proof of a
client ask first for the roots of the order of the domain, then for those of twice that order, so
that they are refused alike.
-/

namespace PrivateSums

theorem nextTwoPower_le_iff {n k : Nat} : nextTwoPower n ≤ 2 ^ k ↔ n ≤ 2 ^ k := by
  constructor
  · exact (le_nextTwoPower n).trans
  · intro le
    unfold nextTwoPower
    split
    · exact Nat.one_le_two_pow
    · have below : n - 1 < 2 ^ k := by omega
      exact Nat.pow_le_pow_right Nat.two_pos ((Nat.log2_lt (by omega)).2 below)

/-- The first order of roots that a circuit asks for and a field without room for it lacks. -/
def Circuit.lackingOrder (F : Field) (c : Circuit) : Nat :=
  if c.domainSize ≤ 2 ^ F.twoOrder then 2 * c.domainSize else c.domainSize

variable {F : Field} {c : Circuit}

theorem Circuit.fits_iff :
    2 * c.domainSize ≤ 2 ^ F.twoOrder ↔ c.numMuls < 2 ^ (F.twoOrder - 1) := by
  have double : 2 ^ F.twoOrder = 2 * 2 ^ (F.twoOrder - 1) := by
    rw [← Nat.pow_succ', Nat.succ_eq_add_one, Nat.sub_add_cancel F.twoOrder_pos]
  rw [double, Nat.mul_le_mul_left_iff Nat.two_pos]
  exact nextTwoPower_le_iff

/-- Where the field has no room, the domain asks for an order that it has, or one that it lacks. -/
theorem Circuit.lackingOrder_cases (large : ¬ 2 * c.domainSize ≤ 2 ^ F.twoOrder) :
    (c.domainSize = 2 ^ F.twoOrder ∧ c.lackingOrder F = 2 ^ (F.twoOrder + 1)) ∨
      ∃ k, F.twoOrder < k ∧ c.domainSize = 2 ^ k ∧ c.lackingOrder F = 2 ^ k := by
  obtain ⟨k, size⟩ := exists_nextTwoPower_eq (c.numMuls + 1)
  change c.domainSize = 2 ^ k at size
  rw [size, ← Nat.pow_succ', Nat.pow_le_pow_iff_right (le_refl 2)] at large
  obtain eq | lt := (Nat.le_of_lt_succ (Nat.lt_of_not_le large)).eq_or_lt
  · refine .inl ⟨by rw [size, eq], ?_⟩
    rw [lackingOrder, size, eq, if_pos le_rfl, Nat.pow_succ']
  · refine .inr ⟨k, lt, size, ?_⟩
    rw [lackingOrder, size, if_neg]
    exact (Nat.pow_lt_pow_right (by decide) lt).not_ge

namespace Field

variable {k : Nat}

theorem rootOfUnity_eq_error (h : F.twoOrder < k) :
    F.rootOfUnity (2 ^ k) = .error (.unsupportedRootOrder (2 ^ k) F.twoOrder) := by
  rw [rootOfUnity, Nat.log2_two_pow, decide_eq_false h.not_ge, Bool.and_false]
  rfl

theorem roots_eq_error (h : F.twoOrder < k) :
    F.roots (2 ^ k) = .error (.unsupportedRootOrder (2 ^ k) F.twoOrder) := by
  rw [roots, rootOfUnity_eq_error h]
  rfl

theorem rootsInv_eq_error (h : F.twoOrder < k) :
    F.rootsInv (2 ^ k) = .error (.unsupportedRootOrder (2 ^ k) F.twoOrder) := by
  rw [rootsInv, rootOfUnity_eq_error h]
  rfl

end Field

variable [Fact F.modulus.Prime]

theorem CircuitDomain.ofCircuit_eq_error (large : ¬ 2 * c.domainSize ≤ 2 ^ F.twoOrder) :
    ofCircuit F c =
      .error (.polynomial (.field (.unsupportedRootOrder (c.lackingOrder F) F.twoOrder))) := by
  obtain ⟨size, lacking⟩ | ⟨k, lt, size, lacking⟩ := Circuit.lackingOrder_cases large
  · obtain ⟨-, S, -, ok, -⟩ := PointSet.onRoots_eq_ok (F := F) le_rfl
    rw [ofCircuit, size, ok, ← Nat.pow_succ', Field.roots_eq_error (Nat.lt_succ_self _), lacking]
    rfl
  · rw [ofCircuit, size, PointSet.onRoots, Field.roots_eq_error lt, lacking]
    rfl

namespace ClientRequest

theorem extend_eq_error {values : List Nat} (length : values.length = c.domainSize)
    (large : ¬ 2 * c.domainSize ≤ 2 ^ F.twoOrder) : extend F values =
      .error (.field (.unsupportedRootOrder (c.lackingOrder F) F.twoOrder)) := by
  obtain ⟨size, lacking⟩ | ⟨k, lt, size, lacking⟩ := Circuit.lackingOrder_cases large
  · obtain ⟨coefficients, interpolated, count, -⟩ :=
      Transform.interpolateOnRoots_eq_ok F le_rfl (length.trans size)
    have room : coefficients.length ≤ 2 ^ (F.twoOrder + 1) := by
      rw [count, Nat.pow_succ]
      omega
    rw [extend, interpolated, Answer.ok_bind, length, size, ← Nat.pow_succ',
      Transform.evaluateOnRoots, if_pos room, Field.roots_eq_error (Nat.lt_succ_self _), lacking]
    rfl
  · rw [extend, Transform.interpolateOnRoots, length, size, Field.rootsInv_eq_error lt, lacking]
    rfl

/-- A client of a circuit that the field has no room for sends nothing. -/
theorem ofInputs_eq_error {σ : Type} [WordSource σ] {inputs : List Nat} {servers leader : Nat}
    (wf : c.WellFormed) (count : inputs.length = c.numInputs)
    (large : ¬ 2 * c.domainSize ≤ 2 ^ F.twoOrder) (hl : leader < servers) (s : σ) :
    ((ofInputs F c inputs servers leader).run.run s).1 =
      .error (.polynomial (.field (.unsupportedRootOrder (c.lackingOrder F) F.twoOrder))) := by
  have evaluated := Circuit.evaluate_eq_ok_iff (F := F).2 ⟨count, rfl⟩
  obtain ⟨keys, triples, randomLeft, randomRight, early, late, -, -, -, -, -, -, run⟩ :=
    ofInputs_run F c hl s
  rw [run evaluated (Circuit.of_evaluate wf evaluated).size_eq, values, proofValues,
    extend_eq_error (Holding.length_factorValues ..) large]
  rfl

end ClientRequest

end PrivateSums
