import Mathlib.LinearAlgebra.Lagrange
import PrivateSums.Proofs.Check.Reconstruction

/-!
What the verdict says of requests that anybody may have made. All servers find the same, and it is
the value of one combination of the polynomials through what the requests make up on their replay.
-/

open scoped Polynomial

namespace PrivateSums

namespace Field
variable (F : Field)

/-- A polynomial of lower degree than there are points takes these values at them. -/
structure Through (points : List Nat) (values : Nat → F.Residue) (P : F.Residue[X]) : Prop where
  degree_lt : P.degree < points.length
  eval_eq : ∀ i (h : i < points.length), P.eval ((points[i] : Nat) : F.Residue) = values i

variable {F} {w : F.Residue} {k n : Nat} {roots : List Nat} {values : Nat → F.Residue}
  {P Q : F.Residue[X]}

theorem Through.congr {points : List Nat} {values' : Nat → F.Residue}
    (h : ∀ i < points.length, values i = values' i) :
    F.Through points values P ↔ F.Through points values' P := by
  constructor
  · intro ⟨degree, eval⟩
    exact ⟨degree, fun i hi => (eval i hi).trans (h i hi)⟩
  · intro ⟨degree, eval⟩
    exact ⟨degree, fun i hi => (eval i hi).trans (h i hi).symm⟩

theorem Lists.getElem_take (lists : F.Lists w k roots) {i : Nat} (h : i < (roots.take n).length) :
    (((roots.take n)[i] : Nat) : F.Residue) = w ^ i := by
  rw [List.getElem_take, lists.getElem]

variable [Fact F.modulus.Prime] (lists : F.Lists w k roots) (hn : n ≤ 2 ^ k)
include lists hn

theorem through_iff : F.Through (roots.take n) values P ↔
    P.degree < n ∧ ∀ i < n, P.eval (w ^ i) = values i := by
  have length : (roots.take n).length = n := by
    rw [List.length_take, lists.length_eq, min_eq_left hn]
  constructor
  · intro ⟨degree, eval⟩
    rw [length] at degree
    refine ⟨degree, fun i hi => ?_⟩
    rw [← eval i (hi.trans_eq length.symm), lists.getElem_take]
  · intro ⟨degree, eval⟩
    refine ⟨by rwa [length], fun i hi => ?_⟩
    rw [lists.getElem_take, eval i (hi.trans_eq length)]

/-- At most one polynomial goes through values at powers of a primitive root. -/
theorem Through.unique (root : IsPrimitiveRoot w (2 ^ k : Nat))
    (hp : F.Through (roots.take n) values P) (hq : F.Through (roots.take n) values Q) : P = Q := by
  obtain ⟨degreeP, evalP⟩ := (through_iff lists hn).1 hp
  obtain ⟨degreeQ, evalQ⟩ := (through_iff lists hn).1 hq
  have distinct : Set.InjOn (fun i => w ^ i) (Finset.range n : Finset Nat) := by
    intro i hi j hj eq
    have hi := Finset.mem_range.1 (Finset.mem_coe.1 hi)
    have hj := Finset.mem_range.1 (Finset.mem_coe.1 hj)
    exact root.pow_inj (hi.trans_le hn) (hj.trans_le hn) eq
  refine Polynomial.eq_of_degrees_lt_of_eval_index_eq (Finset.range n) distinct
    (by simpa using degreeP) (by simpa using degreeQ) fun i hi => ?_
  have hi := Finset.mem_range.1 hi
  rw [evalP i hi, evalQ i hi]

theorem through_iff_eq (root : IsPrimitiveRoot w (2 ^ k : Nat))
    (hp : F.Through (roots.take n) values P) (Q : F.Residue[X]) :
    F.Through (roots.take n) values Q ↔ Q = P :=
  ⟨fun hq => hq.unique lists hn root hp, fun eq => eq ▸ hp⟩

end Field

namespace Party

variable {F : Field} {c : Circuit} {leader : Nat} {ps : List Party}

/-- Sums of lists of shares, entry by entry. -/
theorem total_getD_map {α : Type} (l : List α) (f : Party → α → Nat) (i : Nat) :
    total ps (fun p => (((l.map (f p)).getD i 0 : Nat) : F.Residue)) =
      (l.map fun a => total ps fun p => (f p a : F.Residue)).getD i 0 := by
  by_cases hi : i < l.length
  · have entry (p : Party) : (l.map (f p)).getD i 0 = f p l[i] := by
      rw [List.getD_eq_getElem _ _ (by simpa using hi), List.getElem_map]
    rw [List.getD_eq_getElem _ _ (by simpa using hi), List.getElem_map]
    exact total_congr fun p _ => by rw [entry]
  · have none (p : Party) : (l.map (f p)).getD i 0 = 0 :=
      List.getD_eq_default _ _ (by simpa using hi)
    have zero : total ps (fun _ => (0 : F.Residue)) = 0 := by simp [total]
    rw [List.getD_eq_default _ _ (by simpa using hi), ← zero]
    exact total_congr fun p _ => by rw [none, Nat.cast_zero]

theorem total_operands (f : Nat × Nat → Nat) (random : Holding → Nat) (i : Nat) :
    (total ps fun p => (((ClientRequest.factorValues c.domainSize (random p.holding)
      (c.mulOperands.map fun o => p.holding.wires.at (f o))).getD i 0 : Nat) : F.Residue)) =
        ((total ps fun p => (random p.holding : F.Residue)) ::
          c.mulOperands.map fun o => wires F ps (f o)).getD i 0 := by
  cases i with
  | zero => exact total_congr fun p _ => by rw [Holding.getD_factorValues_zero]
  | succ i =>
    simp only [Holding.getD_factorValues_succ, List.getD_cons_succ]
    exact total_getD_map ..

theorem total_productValues (complete : ∀ p ∈ ps, p.holding.Complete c) (i : Nat) :
    (total ps fun p => (((p.holding.productValues c).getD i 0 : Nat) : F.Residue)) =
      (Reconstruction.ofCheckers F (ps.map (checker F c leader ps.length))).productAt c i := by
  rw [ofCheckers_checkers]
  cases i with
  | zero => rfl
  | succ i =>
    obtain ⟨j, rfl | rfl⟩ := Nat.even_or_odd' i
    · rw [Reconstruction.productAt, if_pos (by omega), Nat.mul_div_cancel_left _ (by decide)]
      exact total_congr fun p hp => by rw [((complete p hp).getD_productValues j).1]
    · rw [Reconstruction.productAt, if_neg (by omega), show (2 * j + 1) / 2 = j by omega,
        Reconstruction.ofProducts_gates]
      refine Eq.trans ?_ (total_getD_map c.mulGates (fun p => p.holding.wires.at) j)
      exact total_congr fun p hp => by rw [← ((complete p hp).getD_productValues j).2]; rfl

section

variable [Fact F.modulus.Prime] {d : CircuitDomain} {k : Nat} {roots double : List Nat}
  (hd : d.Valid F k) (size : c.domainSize = 2 ^ k)
include hd

theorem through_left (lists : F.Lists (F.root k) k roots) : F.Through roots
    ((Reconstruction.ofCheckers F (ps.map (checker F c leader ps.length))).leftAt c)
    (left F c ps d) := by
  rw [← List.take_of_length_le lists.length_eq.le, Field.through_iff lists le_rfl]
  refine ⟨degree_total_lt fun p _ => hd.degree_factors _, fun i hi => ?_⟩
  rw [eval_left hd hi, ofCheckers_checkers, Reconstruction.leftAt,
    Reconstruction.ofProducts_factors fun o => wires F ps o.1]
  exact total_operands Prod.fst Holding.randomLeft i

theorem through_right (lists : F.Lists (F.root k) k roots) : F.Through roots
    ((Reconstruction.ofCheckers F (ps.map (checker F c leader ps.length))).rightAt c)
    (right F c ps d) := by
  rw [← List.take_of_length_le lists.length_eq.le, Field.through_iff lists le_rfl]
  refine ⟨degree_total_lt fun p _ => hd.degree_factors _, fun i hi => ?_⟩
  rw [eval_right hd hi, ofCheckers_checkers, Reconstruction.rightAt,
    Reconstruction.ofProducts_factors fun o => wires F ps o.2]
  exact total_operands Prod.snd Holding.randomRight i

theorem through_product (lists : F.Lists (F.root (k + 1)) (k + 1) double)
    (complete : ∀ p ∈ ps, p.holding.Complete c) : F.Through (double.take (2 ^ (k + 1) - 1))
    ((Reconstruction.ofCheckers F (ps.map (checker F c leader ps.length))).productAt c)
    (product F c ps d) := by
  rw [Field.through_iff lists (Nat.sub_le ..)]
  refine ⟨degree_total_lt fun p _ => hd.degree_product _, fun i hi => ?_⟩
  rw [eval_product hd hi, total_productValues complete]

theorem through_left_iff (lists : F.Lists (F.root k) k roots) (f : F.Residue[X]) : F.Through roots
    ((Reconstruction.ofCheckers F (ps.map (checker F c leader ps.length))).leftAt c) f ↔
      f = left F c ps d := by
  have root := F.isPrimitiveRoot_root (Nat.le_of_succ_le hd.order)
  rw [← List.take_of_length_le lists.length_eq.le]
  apply Field.through_iff_eq lists le_rfl root
  rw [List.take_of_length_le lists.length_eq.le]
  exact through_left hd lists

theorem through_right_iff (lists : F.Lists (F.root k) k roots) (g : F.Residue[X]) : F.Through roots
    ((Reconstruction.ofCheckers F (ps.map (checker F c leader ps.length))).rightAt c) g ↔
      g = right F c ps d := by
  have root := F.isPrimitiveRoot_root (Nat.le_of_succ_le hd.order)
  rw [← List.take_of_length_le lists.length_eq.le]
  apply Field.through_iff_eq lists le_rfl root
  rw [List.take_of_length_le lists.length_eq.le]
  exact through_right hd lists

theorem through_product_iff (lists : F.Lists (F.root (k + 1)) (k + 1) double)
    (complete : ∀ p ∈ ps, p.holding.Complete c) (h : F.Residue[X]) :
    F.Through (double.take (2 ^ (k + 1) - 1))
      ((Reconstruction.ofCheckers F (ps.map (checker F c leader ps.length))).productAt c) h ↔
      h = product F c ps d :=
  Field.through_iff_eq lists (Nat.sub_le ..) (F.isPrimitiveRoot_root hd.order)
    (through_product hd lists complete) h

include size

/-- The shares of the second round sum to the combination of what the shares make up. -/
theorem total_outShare_eq_combination (complete : ∀ p ∈ ps, p.holding.Complete c)
    (one : OneLeader F leader ps) (x : Nat) (key : Key) :
    total ps (fun p => (((p.outShare F c leader (.ofPoint F d x) ps
      (Holding.coefficients F c key)).check : Nat) : F.Residue)) =
      (Reconstruction.ofCheckers F (ps.map (checker F c leader ps.length))).combination c
        (left F c ps d) (right F c ps d) (product F c ps d) x key := by
  rw [Holding.coefficients_eq, total_outShare hd size complete one, Holding.zeroSum_ofFn,
    ofCheckers_checkers, Reconstruction.combination, checked, offset]
  simp only [Polynomial.eval_add, Polynomial.eval_mul, Polynomial.eval_sub, Polynomial.eval_X,
    Polynomial.eval_C]
  congr 1
  · ring
  · exact Finset.sum_congr rfl fun i _ => mul_comm _ _

end

end Party

namespace Checker

variable {F : Field} [Fact F.modulus.Prime]

/-- What the verdict means for requests of any making. What they say of a client's values on their
replay goes with one polynomial for each factor and one for the product. Once all servers take their
requests in, both rounds go through, and all servers find the same. They find the requests valid
just when the combination of the checks is zero for those polynomials. -/
theorem outputIsValid_iff_combination {c : Circuit} (wf : c.WellFormed)
    (fits : 2 * c.domainSize ≤ 2 ^ F.twoOrder) {leader : Nat} {requests : List ClientRequest}
    (hl : leader < requests.length) {checkers : List Checker}
    (admitted : admitAll F c leader requests = .ok checkers) :
    ∃ domain roots double, CircuitDomain.ofCircuit F c = .ok domain ∧
      F.roots c.domainSize = .ok roots ∧ F.roots (2 * c.domainSize) = .ok double ∧
      (∃ r : Reconstruction F, r.Replays c leader requests) ∧
      (∀ r : Reconstruction F, r.Replays c leader requests →
        (∃! f, F.Through roots (r.leftAt c) f) ∧ (∃! g, F.Through roots (r.rightAt c) g) ∧
        ∃! h, F.Through (double.take (2 * c.domainSize - 1)) (r.productAt c) h) ∧
      ∀ (x : Nat) (key : Key), ∃ shares answers valid,
        rounds checkers (.ofPoint F domain x) (fun k cor => k.outShare cor key) =
          .ok (shares, answers) ∧
        answers.length = requests.length ∧
        (∀ k ∈ answers.map (·.2), k.outputIsValid (answers.map (·.1)) = .ok valid) ∧
        ∀ r : Reconstruction F, r.Replays c leader requests →
          ∀ f g h, F.Through roots (r.leftAt c) f → F.Through roots (r.rightAt c) g →
            F.Through (double.take (2 * c.domainSize - 1)) (r.productAt c) h →
            (valid = true ↔ r.combination c f g h x key = 0) := by
  obtain ⟨domain, k, ok, size, hd⟩ := CircuitDomain.ofCircuit_eq_ok (F := F) fits
  have order := Nat.le_of_succ_le hd.order
  obtain ⟨roots, rootsOk, lists⟩ := F.roots_two_pow order
  obtain ⟨double, doubleOk, lists'⟩ := F.roots_two_pow hd.order
  have held := replays_ofCheckers wf hl admitted
  obtain ⟨-, rfl⟩ := ClientRequest.admitAll_eq_ok_iff.1 admitted
  have complete := ClientRequest.complete_parties F c leader requests
  have one := ClientRequest.oneLeader_parties (F := F) (c := c) hl
  have count := ClientRequest.length_parties F c leader requests
  generalize ClientRequest.parties F c leader requests = ps at *
  rw [← count] at held ⊢
  rw [size, ← Nat.pow_succ']
  refine ⟨domain, roots, double, ok, rootsOk, doubleOk, ⟨_, held⟩, ?_⟩
  -- Whatever the requests make up, the polynomials through it are those of what servers hold.
  have left (r : Reconstruction F) (replays : r.Replays c leader requests) (f : F.Residue[X]) :
      F.Through roots (r.leftAt c) f ↔ f = Party.left F c ps domain := by
    rw [replays.leftAt_eq held wf]
    exact Party.through_left_iff hd lists f
  have right (r : Reconstruction F) (replays : r.Replays c leader requests) (g : F.Residue[X]) :
      F.Through roots (r.rightAt c) g ↔ g = Party.right F c ps domain := by
    rw [replays.rightAt_eq held wf]
    exact Party.through_right_iff hd lists g
  have product (r : Reconstruction F) (replays : r.Replays c leader requests) (h : F.Residue[X]) :
      F.Through (double.take (2 ^ (k + 1) - 1)) (r.productAt c) h ↔
        h = Party.product F c ps domain := by
    have agree : ∀ i < (double.take (2 ^ (k + 1) - 1)).length, r.productAt c i =
        (Reconstruction.ofCheckers F (ps.map (Party.checker F c leader ps.length))).productAt c
          i := by
      intro i hi
      rw [List.length_take, Nat.pow_succ', ← size] at hi
      exact replays.productAt_eq held wf (by omega)
    rw [Field.Through.congr agree]
    exact Party.through_product_iff hd lists' complete h
  refine ⟨fun r replays => ⟨?_, ?_, ?_⟩, fun x key => ?_⟩
  · simp [left r replays]
  · simp [right r replays]
  · simp [product r replays]
  let share (p : Party) : OutShare :=
    p.outShare F c leader (.ofPoint F domain x) ps (Holding.coefficients F c key)
  refine ⟨_, _, F.sum (ps.map fun p => (share p).check) == 0,
    Party.keyedOutShares_eq hd size complete x key, List.length_map .., ?_, ?_⟩
  · intro checker mem
    rw [List.map_map] at mem ⊢
    obtain ⟨p, -, rfl⟩ := List.mem_map.1 mem
    exact Party.outputIsValid_finished _ p _
  · intro r replays f g h hf hg hh
    rw [(left r replays f).1 hf, (right r replays g).1 hg, (product r replays h).1 hh,
      replays.combination_eq held wf,
      ← Party.total_outShare_eq_combination hd size complete one x key, beq_iff_eq,
      ← F.cast_eq_zero (F.sum_lt _), F.cast_sum, List.map_map]
    rfl

/-- The verdict on requests that no client makes. -/
theorem outputIsValid_strayRequests : ∃ checkers domain,
    admitAll .seventeen unsatisfiable 0 strayRequests = .ok checkers ∧
      CircuitDomain.ofCircuit .seventeen unsatisfiable = .ok domain ∧
      ∃ r : Reconstruction .seventeen, r.Replays unsatisfiable 0 strayRequests ∧
      ∀ x key, ∃ f g h shares answers valid,
        rounds checkers (.ofPoint .seventeen domain x) (fun k cor => k.outShare cor key) =
          .ok (shares, answers) ∧
        (∀ k ∈ answers.map (·.2), k.outputIsValid (answers.map (·.1)) = .ok valid) ∧
        (valid = true ↔ r.combination unsatisfiable f g h x key = 0) := by
  have admitted : admitAll .seventeen unsatisfiable 0 strayRequests = .ok _ :=
    ClientRequest.admitAll_eq_ok_iff.2 ⟨admissible_strayRequests, rfl⟩
  obtain ⟨domain, roots, double, ok, -, -, ⟨r, replays⟩, through, runs⟩ :=
    outputIsValid_iff_combination wellFormed_unsatisfiable (by decide) (by decide) admitted
  obtain ⟨⟨f, hf, -⟩, ⟨g, hg, -⟩, h, hh, -⟩ := through r replays
  refine ⟨_, domain, admitted, ok, r, replays, fun x key => ?_⟩
  obtain ⟨shares, answers, valid, run, -, verdict, iff⟩ := runs x key
  exact ⟨f, g, h, shares, answers, valid, run, verdict, iff r replays f g h hf hg hh⟩

end Checker

end PrivateSums
