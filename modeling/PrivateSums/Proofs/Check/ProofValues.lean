import PrivateSums.Proofs.Check.Holding

/-!
What an honest client adds to its wires: the values of the product of both factors at the odd roots
of twice the order.
-/

open scoped Polynomial

namespace PrivateSums

namespace Transform

theorem length_odds (l : List Nat) : (odds l).length = l.length / 2 := by
  match l with
  | [] => rfl
  | [a] => simp [odds]
  | a :: b :: rest =>
    rw [odds, List.length_cons, length_odds rest, List.length_cons, List.length_cons]
    omega

theorem getD_odds (l : List Nat) (j : Nat) : (odds l).getD j 0 = l.getD (2 * j + 1) 0 := by
  match l, j with
  | [], j => simp [odds]
  | [a], j => simp [odds]
  | a :: b :: rest, 0 => simp [odds]
  | a :: b :: rest, j + 1 =>
    rw [odds, List.getD_cons_succ, getD_odds rest j]
    rfl

theorem mem_odds (l : List Nat) : ∀ v ∈ odds l, v ∈ l := by
  match l with
  | [] => simp [odds]
  | [a] => simp [odds]
  | a :: b :: rest =>
    intro v hv
    obtain rfl | hv := List.mem_cons.1 hv
    · simp
    · simp [mem_odds rest v hv]

end Transform

namespace ClientRequest

variable {F : Field} {c : Circuit} {k : Nat}

theorem order_of_extend {values extended : List Nat} (h : extend F values = .ok extended) :
    2 * values.length ≤ 2 ^ F.twoOrder := by
  obtain ⟨coefficients, -, h⟩ := Answer.bind_eq_ok.1 h
  obtain ⟨n, le, eq⟩ := Transform.order_of_evaluateOnRoots F h
  rw [eq]
  exact Nat.pow_le_pow_right (by decide) le

/-- A proof is there only where the field has the roots that it needs. -/
theorem order_of_proofValues {wires : Wires} {randomLeft randomRight : Nat} {proof : List Nat}
    (h : proofValues F c wires randomLeft randomRight = .ok proof) :
    2 * c.domainSize ≤ 2 ^ F.twoOrder := by
  obtain ⟨left, extended, -⟩ := Answer.bind_eq_ok.1 h
  have order := order_of_extend extended
  rwa [Holding.length_factorValues] at order

variable [Fact F.modulus.Prime]

/-- Values at the roots of an order, extended to those of twice the order. -/
theorem extend_eq_ok (order : k + 1 ≤ F.twoOrder) {values : List Nat}
    (length : values.length = 2 ^ k) : ∃ extended, extend F values = .ok extended ∧
      extended.length = 2 ^ (k + 1) ∧ ∀ P : F.Residue[X], P.degree < (2 ^ k : Nat) →
        (∀ i < 2 ^ k, P.eval (F.root k ^ i) = ((values.getD i 0 : Nat) : F.Residue)) →
        ∀ j < 2 ^ (k + 1), ((extended.getD j 0 : Nat) : F.Residue) =
          P.eval (F.root (k + 1) ^ j) := by
  obtain ⟨coefficients, interpolated, lengthC, -, evals⟩ :=
    Transform.interpolateOnRoots_eq_ok F (Nat.le_of_succ_le order) length
  have le : coefficients.length ≤ 2 ^ (k + 1) := by
    rw [lengthC, Nat.pow_succ]
    omega
  obtain ⟨extended, evaluated, lengthE, values'⟩ := Transform.evaluateOnRoots_eq_ok F order le
  refine ⟨extended, ?_, lengthE, fun P degree agree j hj => ?_⟩
  · rw [extend, interpolated, Answer.ok_bind, length, ← Nat.pow_succ', evaluated]
  · have same : P = F.polynomial coefficients := by
      refine Transform.eq_of_eval_roots F (Nat.le_of_succ_le order) degree
        (by simpa only [lengthC] using F.degree_polynomial_lt coefficients) fun i hi => ?_
      rw [agree i hi, evals i hi]
    rw [values' j hj, same]

/-- The hints of an honest client are values of the product of its factors. -/
theorem proofValues_eq_ok (order : k + 1 ≤ F.twoOrder) (size : c.domainSize = 2 ^ k)
    (wires : Wires) (randomLeft randomRight : Nat) : ∃ hints,
      proofValues F c wires randomLeft randomRight =
        .ok (randomLeft :: randomRight :: F.mul randomLeft randomRight :: hints) ∧
      hints.length = c.domainSize - 1 ∧ (∀ v ∈ hints, v < F.modulus) ∧
      ∀ P Q : F.Residue[X], P.degree < (2 ^ k : Nat) → Q.degree < (2 ^ k : Nat) →
        (∀ i < 2 ^ k, P.eval (F.root k ^ i) = (((factorValues c.domainSize randomLeft
          (c.mulOperands.map (wires.at ·.1))).getD i 0 : Nat) : F.Residue)) →
        (∀ i < 2 ^ k, Q.eval (F.root k ^ i) = (((factorValues c.domainSize randomRight
          (c.mulOperands.map (wires.at ·.2))).getD i 0 : Nat) : F.Residue)) →
        ∀ j < c.domainSize - 1, ((hints.getD j 0 : Nat) : F.Residue) =
          (P * Q).eval (F.root (k + 1) ^ (2 * j + 1)) := by
  obtain ⟨left, hl, lengthL, evalL⟩ := extend_eq_ok order
    ((Holding.length_factorValues c randomLeft fun o => wires.at o.1).trans size)
  obtain ⟨right, hr, lengthR, evalR⟩ := extend_eq_ok order
    ((Holding.length_factorValues c randomRight fun o => wires.at o.2).trans size)
  have lengthM : (List.zipWith F.mul left right).length = 2 * 2 ^ k := by
    rw [List.length_zipWith, lengthL, lengthR, min_self, Nat.pow_succ']
  have lengthO := Transform.length_odds (List.zipWith F.mul left right)
  refine ⟨(Transform.odds (List.zipWith F.mul left right)).take (c.domainSize - 1), ?_, ?_, ?_, ?_⟩
  · rw [proofValues, hl, Answer.ok_bind, hr]
    rfl
  · rw [List.length_take, lengthO, lengthM, size]
    omega
  · intro v hv
    exact Transform.mem_zipWith_lt F F.mul_lt _ _ v
      (Transform.mem_odds _ v (List.mem_of_mem_take hv))
  · intro P Q degreeP degreeQ agreeP agreeQ j hj
    have index : 2 * j + 1 < 2 ^ (k + 1) := by
      rw [Nat.pow_succ', ← size]
      omega
    rw [List.getD_eq_getElem?_getD, List.getElem?_take_of_lt hj, ← List.getD_eq_getElem?_getD,
      Transform.getD_odds, List.getD_eq_getElem _ _ (by rw [lengthM, ← Nat.pow_succ']; exact index),
      List.getElem_zipWith, F.cast_mul, Polynomial.eval_mul,
      ← evalL P degreeP agreeP _ index, ← evalR Q degreeQ agreeQ _ index,
      List.getD_eq_getElem _ _ (by rw [lengthL]; exact index),
      List.getD_eq_getElem _ _ (by rw [lengthR]; exact index)]

end ClientRequest

end PrivateSums
