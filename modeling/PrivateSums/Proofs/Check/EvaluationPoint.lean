import PrivateSums.Proofs.Check.Verdict
import PrivateSums.Proofs.Random.ElementStream

/-!
What a drawn argument can tell. It is no interpolation point, so it shows none of the values that
servers hold. The second factor and the product are compared in times the argument: a drawn zero,
which is no root of unity either, tells nothing of them.
-/

open scoped Polynomial

namespace PrivateSums

variable {F : Field}

namespace EvaluationPoint

variable {σ : Type} [WordSource σ]

theorem randomArgument_lt (size : Nat) (s : σ) :
    ((randomArgument F size).run s).1 < F.modulus :=
  Random.of_redraw (P := (· < F.modulus)) F.modulus_pos F.random_lt _ s

/-- Zero is not rejected. -/
theorem pow_zero_bne_one {size : Nat} (pos : 0 < size) : (F.pow 0 (2 * size) != 1) = true := by
  rw [Field.pow, powMod_eq, zero_pow (by omega), Nat.zero_mod]
  rfl

/-- Zero is the argument as soon as it is drawn. -/
theorem randomArgument_eq_zero {size : Nat} (pos : 0 < size) {s : σ}
    (zero : (F.random.run s).1 = 0) : ((randomArgument F size).run s).1 = 0 := by
  have some : Random.patience = Random.patience - 1 + 1 := by decide
  rw [randomArgument, some, Random.redraw]
  change (StateT.run (if F.pow (F.random.run s).1 (2 * size) != 1 then pure (F.random.run s).1
    else Random.redraw _ 0 F.random _) (F.random.run s).2).1 = 0
  rw [zero, if_pos (pow_zero_bne_one pos)]
  rfl

/-- A drawn argument is no root of unity of twice the order of a factor's points. -/
theorem randomArgument_pow_ne_one [Fact F.modulus.Prime] {size : Nat} (pos : 0 < size) (s : σ) :
    ((((randomArgument F size).run s).1 : Nat) : F.Residue) ^ (2 * size) ≠ 1 := by
  have accepted := Random.accept_redraw (p := fun x => F.pow x (2 * size) != 1)
    (pow_zero_bne_one pos) F.random Random.patience s
  rwa [bne_iff_ne, Ne, F.pow_eq_one_iff] at accepted

end EvaluationPoint

section Fresh

variable [Fact F.modulus.Prime] {d : CircuitDomain} {k x : Nat} (hd : d.Valid F k)
  (fresh : (x : F.Residue) ^ 2 ^ (k + 1) ≠ 1)

include fresh in
/-- Powers of a root of unity are roots of unity. -/
theorem Field.not_mem_of_node {points : List Nat} {j : Nat} (hj : j ≤ k + 1)
    (order : j ≤ F.twoOrder) (node : ∀ i < points.length, F.node points i = F.root j ^ i) :
    x ∉ points := by
  intro mem
  obtain ⟨i, hi, rfl⟩ := List.mem_iff_getElem.1 mem
  have root := node i hi
  rw [Field.node, List.getD_eq_getElem _ _ hi] at root
  obtain ⟨m, eq⟩ := Nat.pow_dvd_pow 2 hj
  apply fresh
  rw [root, eq, pow_mul, ← pow_mul _ i, mul_comm i, pow_mul _ _ i,
    (F.isPrimitiveRoot_root order).pow_eq_one, one_pow, one_pow]

include hd fresh

theorem CircuitDomain.Valid.not_mem_factors : x ∉ d.factors.points :=
  Field.not_mem_of_node fresh (Nat.le_succ k) (Nat.le_of_succ_le hd.order) fun i hi =>
    hd.node_factors i (hi.trans_eq hd.length_factors)

theorem CircuitDomain.Valid.not_mem_product : x ∉ d.product.points :=
  Field.not_mem_of_node fresh le_rfl hd.order fun i hi =>
    hd.node_product i (hi.trans_eq hd.length_product)

end Fresh

namespace Party

variable [Fact F.modulus.Prime] {c : Circuit} {leader : Nat} {ps : List Party} {d : CircuitDomain}
  {k : Nat}

/-- The sum of the product checks, by the polynomials and the triple that all servers make up. -/
theorem cast_sum_productChecks (hd : d.Valid F k) (size : c.domainSize = 2 ^ k)
    (complete : ∀ p ∈ ps, p.holding.Complete c) (one : OneLeader F leader ps) (x servers : Nat) :
    let r := Reconstruction.ofCheckers F (ps.map (checker F c leader servers))
    ((F.sum (ps.map (productCheck F c leader (.ofPoint F d x) ps)) : Nat) : F.Residue) =
      x * ((left F c ps d).eval (x : F.Residue) * (right F c ps d).eval (x : F.Residue) -
        (product F c ps d).eval (x : F.Residue)) + (r.c - r.a * r.b) := by
  have sum := total_productCheck hd size complete one x
  rw [ofCheckers_checkers, F.cast_sum, List.map_map]
  refine Eq.trans sum ?_
  simp only [checked, offset, Polynomial.eval_add, Polynomial.eval_mul, Polynomial.eval_sub,
    Polynomial.eval_X, Polynomial.eval_C]

end Party

namespace Checker

/-- What the product check tells at a drawn argument, whoever made the requests. The argument is no
interpolation point. The check is about what the requests say on their replay, and a triple that is
right leaves two ways for it to be zero: the factors multiply to the product at the argument, or the
argument is zero. It is zero when the first element that is drawn is. -/
theorem sum_productChecks_eq_zero_iff [Fact F.modulus.Prime] {c : Circuit}
    (fits : 2 * c.domainSize ≤ 2 ^ F.twoOrder) {σ : Type} [WordSource σ] (s : σ) :
    ∃ domain roots double, CircuitDomain.ofCircuit F c = .ok domain ∧
      F.roots c.domainSize = .ok roots ∧ F.roots (2 * c.domainSize) = .ok double ∧
      let x := ((EvaluationPoint.randomArgument F domain.size).run s).1
      x < F.modulus ∧ x ∉ domain.factors.points ∧ x ∉ domain.product.points ∧
      ((F.random.run s).1 = 0 → x = 0) ∧
      ∀ leader requests checkers, leader < requests.length →
        admitAll F c leader requests = .ok checkers →
        let r := Reconstruction.ofCheckers F checkers
        (c.WellFormed → r.Replays c leader requests) ∧
        ∃ f g h, (∀ P, F.Through roots (r.leftAt c) P ↔ P = f) ∧
          (∀ P, F.Through roots (r.rightAt c) P ↔ P = g) ∧
          (∀ P, F.Through (double.take (2 * c.domainSize - 1)) (r.productAt c) P ↔ P = h) ∧
          ∃ shares products,
            rounds checkers (.ofPoint F domain x) productCheck = .ok (shares, products) ∧
            ((F.sum products : Nat) : F.Residue) =
              x * (f.eval (x : F.Residue) * g.eval (x : F.Residue) - h.eval (x : F.Residue)) +
                (r.c - r.a * r.b) ∧
            (r.a * r.b = r.c → (F.sum products = 0 ↔ x = 0 ∨
              f.eval (x : F.Residue) * g.eval (x : F.Residue) = h.eval (x : F.Residue))) := by
  obtain ⟨domain, k, ok, size, hd⟩ := CircuitDomain.ofCircuit_eq_ok (F := F) fits
  have order := Nat.le_of_succ_le hd.order
  obtain ⟨roots, rootsOk, lists⟩ := F.roots_two_pow order
  obtain ⟨double, doubleOk, lists'⟩ := F.roots_two_pow hd.order
  rw [size, ← Nat.pow_succ']
  refine ⟨domain, roots, double, ok, rootsOk, doubleOk, ?_⟩
  have pos : 0 < domain.size := hd.size_eq ▸ Nat.two_pow_pos k
  have fresh := EvaluationPoint.randomArgument_pow_ne_one (F := F) pos s
  have vacuous := EvaluationPoint.randomArgument_eq_zero (F := F) (s := s) pos
  have lt := EvaluationPoint.randomArgument_lt (F := F) domain.size s
  generalize ((EvaluationPoint.randomArgument F domain.size).run s).1 = x at *
  rw [hd.size_eq, ← Nat.pow_succ'] at fresh
  refine ⟨lt, hd.not_mem_factors fresh, hd.not_mem_product fresh, vacuous, ?_⟩
  intro leader requests checkers hl admitted
  refine ⟨fun wf => replays_ofCheckers wf hl admitted, ?_⟩
  obtain ⟨-, rfl⟩ := ClientRequest.admitAll_eq_ok_iff.1 admitted
  have complete := ClientRequest.complete_parties F c leader requests
  have one := ClientRequest.oneLeader_parties (F := F) (c := c) hl
  have count := ClientRequest.length_parties F c leader requests
  generalize ClientRequest.parties F c leader requests = ps at *
  rw [← count]
  have sum := Party.cast_sum_productChecks hd size complete one x ps.length
  refine ⟨_, _, _, Party.through_left_iff hd lists, Party.through_right_iff hd lists,
    Party.through_product_iff hd lists' complete,
    _, _, Party.productChecks_eq hd size complete x, sum, fun right => ?_⟩
  rw [← F.cast_eq_zero (F.sum_lt _), sum, right, sub_self, add_zero, mul_eq_zero,
    F.cast_eq_zero lt, sub_eq_zero]

/-- A request for one server that no client makes, with a triple that is right. -/
def loneRequest : ClientRequest := ⟨⟨⟨Vector.replicate 32 0⟩, List.replicate 6 0⟩, ⟨2, 3, 6⟩⟩

theorem sum_productChecks_loneRequest : ∃ checkers domain roots double,
    let x := ((EvaluationPoint.randomArgument .seventeen domain.size).run
      (ChaCha20.ofKey loneRequest.hints.key)).1
    let r := Reconstruction.ofCheckers .seventeen checkers
    admitAll .seventeen unsatisfiable 0 [loneRequest] = .ok checkers ∧
      CircuitDomain.ofCircuit .seventeen unsatisfiable = .ok domain ∧
      Field.seventeen.roots 2 = .ok roots ∧ Field.seventeen.roots 4 = .ok double ∧
      x ∉ domain.product.points ∧ r.Replays unsatisfiable 0 [loneRequest] ∧
      ∀ f g h, Field.seventeen.Through roots (r.leftAt unsatisfiable) f →
        Field.seventeen.Through roots (r.rightAt unsatisfiable) g →
        Field.seventeen.Through (double.take 3) (r.productAt unsatisfiable) h →
        ∃ shares products,
          rounds checkers (.ofPoint .seventeen domain x) productCheck = .ok (shares, products) ∧
          (Field.seventeen.sum products = 0 ↔ x = 0 ∨
            f.eval (x : Field.seventeen.Residue) * g.eval (x : Field.seventeen.Residue) =
              h.eval (x : Field.seventeen.Residue)) := by
  have admissible : ∀ r ∈ [loneRequest].zipIdx, r.1.Admissible .seventeen unsatisfiable 0 r.2 := by
    intro r hr
    obtain rfl := List.mem_singleton.1 hr
    exact ⟨by decide, by decide, by decide, by decide⟩
  have admitted : admitAll .seventeen unsatisfiable 0 [loneRequest] = .ok _ :=
    ClientRequest.admitAll_eq_ok_iff.2 ⟨admissible, rfl⟩
  obtain ⟨domain, roots, double, ok, low, high, -, -, fresh, -, tells⟩ :=
    sum_productChecks_eq_zero_iff (F := .seventeen) (c := unsatisfiable) (by decide)
      (ChaCha20.ofKey loneRequest.hints.key)
  obtain ⟨replays, f, g, h, left, right, product, shares, products, run, -, iff⟩ :=
    tells 0 _ _ (by decide) admitted
  refine ⟨_, domain, roots, double, admitted, ok, low, high, fresh,
    replays wellFormed_unsatisfiable, ?_⟩
  intro f' g' h' hf hg hh
  obtain rfl := (left f').1 hf
  obtain rfl := (right g').1 hg
  obtain rfl := (product h').1 hh
  exact ⟨shares, products, run, iff rfl⟩

end Checker

end PrivateSums
