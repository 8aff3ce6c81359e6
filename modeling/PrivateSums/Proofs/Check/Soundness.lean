import Mathlib.Algebra.Polynomial.Roots
import Mathlib.Algebra.BigOperators.Fin
import PrivateSums.Proofs.Check.Admission

/-!
Soundness against clients that choose their requests freely. When the reconstructed inputs are not
valid, the checks cannot all be zero at more arguments than the checked polynomial has roots.
-/

open scoped Polynomial

namespace PrivateSums

namespace Field
variable (F : Field) [Fact F.modulus.Prime]

end Field

namespace Holding
variable {F : Field} {c : Circuit}

theorem zeroSum_ofFn (W : Nat → F.Residue) (r : Fin c.zeroChecks.size → Nat) :
    zeroSum F c W (List.ofFn r) = ∑ i : Fin _, W (c.zeroChecks.getD i 0) * (r i : F.Residue) := by
  have gate (i : Fin c.zeroChecks.size) : c.zeroChecks.getD i 0 = c.zeroChecks[i] := by simp
  have zip : List.zip c.zeroChecks.toList (List.ofFn r) =
      List.ofFn fun i : Fin c.zeroChecks.size => (c.zeroChecks[i], r i) := by
    apply List.ext_getElem (by simp)
    intro i hi hi'
    simp
  simp only [gate]
  rw [zeroSum, zip, List.map_ofFn, List.sum_ofFn]
  rfl

end Holding
namespace Party

variable {F : Field} {c : Circuit} {leader : Nat} {ps : List Party} {d : CircuitDomain} {k : Nat}

theorem total_zeroSum (rest : List Nat) :
    total ps (fun p => Holding.zeroSum F c (p.holding.wires.residue F) rest) =
      Holding.zeroSum F c (wires F ps) rest := by
  simp only [Holding.zeroSum]
  induction List.zip c.zeroChecks.toList rest with
  | nil => simp [total]
  | cons check checks ih =>
    simp only [List.map_cons, List.sum_cons]
    rw [total_add, ih, wires]
    congr 1
    rw [mul_comm, ← total_mul_left]
    exact total_congr fun p _ => mul_comm _ _

/-- A product's factors among the values of both factors. -/
theorem total_operand (f : Nat × Nat → Nat) (random : Holding → Nat) {j : Nat}
    (hj : j < c.mulOperands.length) :
    (total ps fun p => (((ClientRequest.factorValues c.domainSize (random p.holding)
      (c.mulOperands.map fun o => p.holding.wires.at (f o))).getD (j + 1) 0 : Nat)
        : F.Residue)) = wires F ps (f c.mulOperands[j]) := by
  refine total_congr fun p _ => ?_
  rw [Holding.getD_factorValues_succ, List.getD_eq_getElem _ _ (by rwa [List.length_map]),
    List.getElem_map]
  rfl

variable [Fact F.modulus.Prime]

/-- The shares of the second round sum to the combination of the reconstructed checks. -/
theorem total_outShare (hd : d.Valid F k) (size : c.domainSize = 2 ^ k)
    (complete : ∀ p ∈ ps, p.holding.Complete c) (one : OneLeader F leader ps) (x first : Nat)
    (rest : List Nat) :
    total ps (fun p => (((p.outShare F c leader (.ofPoint F d x) ps (first :: rest)).check : Nat)
        : F.Residue)) =
      (checked F c ps d).eval (x : F.Residue) * first + Holding.zeroSum F c (wires F ps) rest := by
  simp only [outShare, Holding.cast_combine]
  rw [total_add, total_zeroSum, ← total_productCheck hd size complete one, mul_comm,
    ← total_mul_left]
  congr 1
  exact total_congr fun p _ => mul_comm _ _

theorem eval_left (hd : d.Valid F k) {i : Nat} (hi : i < 2 ^ k) :
    (left F c ps d).eval (F.root k ^ i) =
      total ps fun p => (((p.holding.leftValues c).getD i 0 : Nat) : F.Residue) := by
  rw [left, eval_total]
  exact total_congr fun p _ => hd.eval_factors _ hi

theorem eval_right (hd : d.Valid F k) {i : Nat} (hi : i < 2 ^ k) :
    (right F c ps d).eval (F.root k ^ i) =
      total ps fun p => (((p.holding.rightValues c).getD i 0 : Nat) : F.Residue) := by
  rw [right, eval_total]
  exact total_congr fun p _ => hd.eval_factors _ hi

theorem eval_product (hd : d.Valid F k) {i : Nat} (hi : i < 2 ^ (k + 1) - 1) :
    (product F c ps d).eval (F.root (k + 1) ^ i) =
      total ps fun p => (((p.holding.productValues c).getD i 0 : Nat) : F.Residue) := by
  rw [product, eval_total]
  exact total_congr fun p _ => hd.eval_product _ hi

theorem degree_total_lt {n : Nat} {f : Party → F.Residue[X]} (h : ∀ p ∈ ps, (f p).degree < n) :
    (total ps f).degree < n := by
  unfold total
  induction ps with
  | nil => simp [bot_lt_iff_ne_bot]
  | cons p ps ih =>
    rw [List.map_cons, List.sum_cons]
    exact (Polynomial.degree_add_le _ _).trans_lt (max_lt (h p List.mem_cons_self)
      (ih fun q hq => h q (List.mem_cons_of_mem _ hq)))

end Party

namespace Checker

variable {F : Field} [Fact F.modulus.Prime]

/-- A circuit whose last gate is one and is required to be zero. -/
def unsatisfiable : Circuit :=
  ⟨#[.input, .mul 0 0, .mulConst 1 0, .addConst 2 1], #[], #[3]⟩

theorem wellFormed_unsatisfiable : unsatisfiable.WellFormed :=
  ((((Circuit.WellFormed.empty.push .input (by decide)).push (.mul 0 0) (by decide)).push
    (.mulConst 1 0) (by decide)).push (.addConst 2 1) (by decide)).assertZero (by decide)

/-- Requests that no client makes: the triple is none, and the hint is random. -/
def strayRequests : List ClientRequest :=
  let key : Key := ⟨Vector.replicate 32 0⟩
  [⟨⟨key, List.replicate 6 0⟩, ⟨0, 0, 0⟩⟩, ⟨⟨key, []⟩, ⟨1, 2, 3⟩⟩]

theorem admissible_strayRequests :
    ∀ r ∈ strayRequests.zipIdx, r.1.Admissible .seventeen unsatisfiable 0 r.2 := by
  intro r hr
  simp only [strayRequests, List.zipIdx_cons, List.zipIdx_nil, List.mem_cons, List.not_mem_nil,
    or_false] at hr
  obtain rfl | rfl := hr <;> exact ⟨by decide, by decide, by decide, by decide⟩

end Checker

end PrivateSums
