import PrivateSums.Check.Domain
import PrivateSums.Proofs.Interpolation.RootsOfUnity

/-!
The interpolation points of a circuit. A field with enough roots of unity has them for every
circuit, and every argument, on the grid or off it, can be bound to them.
-/

namespace PrivateSums

theorem Circuit.numMuls_lt_domainSize (c : Circuit) : c.numMuls < c.domainSize :=
  le_nextTwoPower _

variable {F : Field}

namespace CircuitDomain

/-- As many points, and weights of points, as a circuit of this size asks for. -/
structure Sized (d : CircuitDomain) (size : Nat) : Prop where
  size_eq : d.size = size
  factors : d.factors.points.length = size
  weights_factors : d.factors.weights.length = d.factors.points.length
  product : d.product.points.length = 2 * size - 1
  weights_product : d.product.weights.length = d.product.points.length

/-- A circuit's domain is of its size, whatever the field. -/
theorem sized_of_ofCircuit {c : Circuit} {d : CircuitDomain} (h : ofCircuit F c = .ok d) :
    d.Sized c.domainSize := by
  obtain ⟨factors, low, h⟩ := Answer.bind_eq_ok.1 h
  obtain ⟨roots, high, h⟩ := Answer.bind_eq_ok.1 h
  obtain ⟨product, points, h⟩ := Answer.bind_eq_ok.1 h
  obtain rfl := Except.ok.inj h
  obtain ⟨grid, listed, low⟩ := Answer.bind_eq_ok.1 (Answer.mapError_eq_ok.1 low)
  have lowLength := Field.length_roots (Answer.mapError_eq_ok.1 listed)
  have highLength := Field.length_roots (Answer.mapError_eq_ok.1 high)
  have lowMade := PointSet.madeOf_of_ofPoints low
  have highMade := PointSet.madeOf_of_ofPoints (Answer.mapError_eq_ok.1 points)
  have cut : (roots.take (2 * c.domainSize - 1)).length = 2 * c.domainSize - 1 := by
    rw [List.length_take, highLength, min_eq_left (Nat.sub_le ..)]
  exact {
    size_eq := rfl
    factors := lowMade.length_points.trans lowLength
    weights_factors := lowMade.length_weights
    product := highMade.length_points.trans cut
    weights_product := highMade.length_weights }

/-- The points of a domain of `2 ^ k` values for each factor. -/
structure Valid (F : Field) (d : CircuitDomain) (k : Nat) : Prop where
  order : k + 1 ≤ F.twoOrder
  size_eq : d.size = 2 ^ k
  factors : d.factors.Valid F
  length_factors : d.factors.points.length = 2 ^ k
  node_factors : ∀ i < 2 ^ k, F.node d.factors.points i = F.root k ^ i
  product : d.product.Valid F
  length_product : d.product.points.length = 2 ^ (k + 1) - 1
  node_product : ∀ i < 2 ^ (k + 1) - 1, F.node d.product.points i = F.root (k + 1) ^ i

theorem Valid.sized {d : CircuitDomain} {k : Nat} (hd : d.Valid F k) : d.Sized (2 ^ k) where
  size_eq := hd.size_eq
  factors := hd.length_factors
  weights_factors := hd.factors.length_weights
  product := by rw [hd.length_product, Nat.pow_succ']
  weights_product := hd.product.length_weights

section

variable [Fact F.modulus.Prime] {d : CircuitDomain} {k : Nat} (hd : d.Valid F k) (values : List Nat)

include hd

theorem Valid.eval_factors {i : Nat} (hi : i < 2 ^ k) :
    (d.factors.interpolant F values).eval (F.root k ^ i) =
      ((values.getD i 0 : Nat) : F.Residue) := by
  rw [← hd.node_factors i hi, PointSet.eval_interpolant hd.factors _ (by rwa [hd.length_factors])]

theorem Valid.eval_product {i : Nat} (hi : i < 2 ^ (k + 1) - 1) :
    (d.product.interpolant F values).eval (F.root (k + 1) ^ i) =
      ((values.getD i 0 : Nat) : F.Residue) := by
  rw [← hd.node_product i hi, PointSet.eval_interpolant hd.product _ (by rwa [hd.length_product])]

theorem Valid.degree_factors : (d.factors.interpolant F values).degree < (2 ^ k : Nat) := by
  have lt := PointSet.degree_interpolant_lt hd.factors values
  rwa [hd.length_factors] at lt

theorem Valid.degree_product :
    (d.product.interpolant F values).degree < (2 ^ (k + 1) - 1 : Nat) := by
  have lt := PointSet.degree_interpolant_lt hd.product values
  rwa [hd.length_product] at lt

theorem Valid.degree_factors_mul (values' : List Nat) :
    (d.factors.interpolant F values * d.factors.interpolant F values').degree <
      (2 ^ (k + 1) - 1 : Nat) := by
  have pos := Nat.two_pow_pos k
  obtain zero | nonzero :=
    eq_or_ne (d.factors.interpolant F values * d.factors.interpolant F values') 0
  · rw [zero, Polynomial.degree_zero]
    exact WithBot.bot_lt_coe _
  · obtain ⟨left, right⟩ := mul_ne_zero_iff.1 nonzero
    have hl := (Polynomial.natDegree_lt_iff_degree_lt left).2 (hd.degree_factors values)
    have hr := (Polynomial.natDegree_lt_iff_degree_lt right).2 (hd.degree_factors values')
    rw [← Polynomial.natDegree_lt_iff_degree_lt nonzero, Polynomial.natDegree_mul left right,
      Nat.pow_succ]
    omega

end

/-- A field with roots of twice the order of its size has a circuit's domain. -/
theorem ofCircuit_eq_ok [Fact F.modulus.Prime] {c : Circuit}
    (fits : 2 * c.domainSize ≤ 2 ^ F.twoOrder) :
    ∃ d k, ofCircuit F c = .ok d ∧ c.domainSize = 2 ^ k ∧ d.Valid F k := by
  obtain ⟨k, size⟩ := exists_nextTwoPower_eq (c.numMuls + 1)
  change c.domainSize = 2 ^ k at size
  have double : 2 * c.domainSize = 2 ^ (k + 1) := by rw [size, Nat.pow_succ']
  have order : k + 1 ≤ F.twoOrder :=
    (Nat.pow_le_pow_iff_right (le_refl 2)).1 (double ▸ fits)
  have pos := Nat.two_pow_pos k
  obtain ⟨low, hl, lists⟩ := F.roots_two_pow (Nat.le_of_succ_le order)
  obtain ⟨high, hh, lists'⟩ := F.roots_two_pow order
  obtain ⟨factors, hf, valid, length, node⟩ := PointSet.ofPoints_roots lists
    (F.isPrimitiveRoot_root (Nat.le_of_succ_le order)) pos le_rfl
  obtain ⟨product, hp, valid', length', node'⟩ := PointSet.ofPoints_roots lists'
    (F.isPrimitiveRoot_root order) (n := 2 ^ (k + 1) - 1) (by rw [Nat.pow_succ]; omega)
    (Nat.sub_le ..)
  rw [List.take_of_length_le lists.length_eq.le] at hf
  refine ⟨⟨c.numMuls + 1, 2 ^ k, factors, product⟩, k, ?_, size,
    order, rfl, valid, length, node, valid', length', node'⟩
  rw [ofCircuit, size, ← Nat.pow_succ']
  simp [PointSet.onRoots, hl, hf, hh, hp]

/-- A circuit that has a domain is small enough for the field. -/
theorem valid_of_ofCircuit [Fact F.modulus.Prime] {c : Circuit} {d : CircuitDomain}
    (h : ofCircuit F c = .ok d) : ∃ k, c.domainSize = 2 ^ k ∧ d.Valid F k := by
  obtain ⟨factors, -, h'⟩ := Answer.bind_eq_ok.1 h
  obtain ⟨roots, found, -⟩ := Answer.bind_eq_ok.1 h'
  obtain ⟨j, le, eq, -⟩ := F.of_roots (Answer.mapError_eq_ok.1 found)
  obtain ⟨d', k, ok, size, valid⟩ := ofCircuit_eq_ok (c := c)
    (eq ▸ Nat.pow_le_pow_right Nat.two_pos le)
  obtain rfl := Except.ok.inj (h.symm.trans ok)
  exact ⟨k, size, valid⟩

end CircuitDomain

end PrivateSums
