import Mathlib.Algebra.BigOperators.Group.List.Basic
import Mathlib.Tactic.Ring
import PrivateSums.Circuit.Gadget
import PrivateSums.Proofs.Circuit.WellFormed

/-!
How many products the gadgets add to a circuit. The number does not depend on the circuit, nor on
the answers of earlier operations beyond how many they are.
-/

namespace PrivateSums

namespace Builder

variable {α β : Type} {n m : Nat} {P : α → Prop}

/-- Wherever the operation succeeds, it adds `n` products, and `P` holds of its answer. -/
def Adds (b : Builder α) (n : Nat) (P : α → Prop) : Prop :=
  ∀ (c d : Circuit) (a : α), b.run.run c = (.ok a, d) → d.numMuls = c.numMuls + n ∧ P a

theorem adds_pure {a : α} (h : P a) : Adds (pure a) 0 P := by
  intro c d a' run
  cases run
  exact ⟨rfl, h⟩

theorem adds_throw (e : CircuitError) : Adds (throw e) n P := by
  intro c d a run
  cases run

theorem Adds.bind {b : Builder α} {f : α → Builder β} {Q : β → Prop} (h : Adds b n P)
    (next : ∀ a, P a → Adds (f a) m Q) : Adds (b >>= f) (n + m) Q := by
  intro c e z run
  rw [Answer.bind_run] at run
  split at run
  · rename_i a d first
    obtain ⟨count, known⟩ := h c d a first
    obtain ⟨count', known'⟩ := next a known d e z run
    exact ⟨by rw [count', count, Nat.add_assoc], known'⟩
  · cases run

theorem Adds.zero_bind {b : Builder α} {f : α → Builder β} {Q : β → Prop} (h : Adds b 0 P)
    (next : ∀ a, P a → Adds (f a) m Q) : Adds (b >>= f) m Q := by
  have whole := h.bind next
  rwa [Nat.zero_add] at whole

theorem Adds.bind_zero {b : Builder α} {f : α → Builder β} {Q : β → Prop} (h : Adds b n P)
    (next : ∀ a, P a → Adds (f a) 0 Q) : Adds (b >>= f) n Q := h.bind next

theorem Adds.discard {b : Builder α} (h : Adds b n P) : Adds (discard b) n fun _ => True := by
  change Adds ((fun _ => ()) <$> b) n _
  rw [← bind_pure_comp]
  exact h.bind_zero fun _ _ => adds_pure trivial

theorem adds_lift (x : Except CircuitError α) : Adds (liftM x) 0 fun a => x = .ok a := by
  intro c d a run
  rw [Answer.lift_run] at run
  cases run
  exact ⟨rfl, rfl⟩

theorem adds_push (gate : Gate) : Adds (push gate) (if gate.isMul then 1 else 0) fun _ => True := by
  intro c d a run
  rw [push_run] at run
  split at run
  · cases run
  · cases run
    refine ⟨?_, trivial⟩
    rw [Circuit.numMuls, Array.countP_push]
    rfl

theorem adds_derived {gate : Gate} (linear : gate.isMul = false) :
    Adds (push gate) 0 fun _ => True := by
  have h := adds_push gate
  rwa [linear] at h

theorem adds_requireGate (gate : Nat) : Adds (requireGate gate) 0 fun _ => True := by
  intro c d a run
  rw [requireGate_run] at run
  obtain ⟨-, rfl⟩ := Prod.mk.inj run
  exact ⟨rfl, trivial⟩

theorem adds_assertZero (gate : Nat) : Adds (assertZero gate) 0 fun _ => True := by
  refine (adds_requireGate gate).zero_bind fun _ _ => ?_
  intro c d a run
  cases run
  exact ⟨rfl, trivial⟩

theorem adds_output (gate : Nat) (name : String) : Adds (output gate name) 0 fun _ => True := by
  refine (adds_requireGate gate).zero_bind fun _ _ => ?_
  intro c d a run
  cases run
  exact ⟨rfl, trivial⟩

theorem adds_mapM {f : α → Builder β} {l : List α} {n : α → Nat}
    (each : ∀ a ∈ l, Adds (f a) (n a) fun _ => True) :
    Adds (l.mapM f) (l.map n).sum fun bs => bs.length = l.length := by
  induction l with
  | nil => exact adds_pure rfl
  | cons a l ih =>
    rw [List.mapM_cons, List.map_cons, List.sum_cons]
    refine (each a List.mem_cons_self).bind fun b _ => ?_
    refine (ih fun a' mem => each a' (List.mem_cons_of_mem a mem)).bind_zero fun bs length => ?_
    exact adds_pure (congrArg (· + 1) length)

/-- As many products for each element. -/
theorem adds_mapM_const {f : α → Builder β} {l : List α}
    (each : ∀ a ∈ l, Adds (f a) n fun _ => True) :
    Adds (l.mapM f) (l.length * n) fun bs => bs.length = l.length := by
  have h := adds_mapM each
  rwa [List.map_const', List.sum_replicate_nat] at h

theorem adds_forM_const {f : α → Builder Unit} {l : List α}
    (each : ∀ a ∈ l, Adds (f a) n fun _ => True) :
    Adds (l.forM f) (l.length * n) fun _ => True := by
  induction l with
  | nil => rw [List.length_nil, Nat.zero_mul]; exact adds_pure trivial
  | cons a l ih =>
    rw [List.length_cons, Nat.succ_mul, Nat.add_comm]
    exact (each a List.mem_cons_self).bind fun _ _ =>
      ih fun a' mem => each a' (List.mem_cons_of_mem a mem)

theorem Adds.numMuls_eq {b : Builder α} (h : Adds b n P) {c : Circuit} (built : b.build = .ok c) :
    c.numMuls = n := by
  cases run : b.run.run .empty with
  | mk answer d =>
    rw [build, run] at built
    cases answer with
    | error e => cases built
    | ok a =>
      obtain rfl := Except.ok.inj built
      rw [(h _ _ _ run).1, Circuit.numMuls, Circuit.empty]
      exact Nat.zero_add n

end Builder

namespace Gadget

open Builder

variable (F : Field)

theorem length_lowerPairs (n : Nat) : (lowerPairs n).length = n * (n + 1) / 2 := by
  have twice : 2 * (lowerPairs n).length = n * (n + 1) := by
    induction n with
    | zero => rfl
    | succ n ih =>
      have next : (lowerPairs (n + 1)).length = (lowerPairs n).length + (n + 1) := by
        simp [lowerPairs, List.range_succ (n := n)]
      rw [next, Nat.mul_add, ih]
      ring
  omega

theorem adds_free (name : String) : Adds (free name) 0 fun _ => True :=
  (adds_derived rfl).zero_bind fun _ _ => (adds_output _ _).zero_bind fun _ _ => adds_pure trivial

theorem adds_bit : Adds (bit F) 1 fun _ => True :=
  (adds_derived rfl).zero_bind fun _ _ => (adds_derived rfl).zero_bind fun _ _ =>
    (adds_push (.mul _ _)).bind_zero fun _ _ => (adds_assertZero _).zero_bind fun _ _ =>
      adds_pure trivial

theorem adds_oneBit (name : String) : Adds (oneBit F name) 1 fun _ => True :=
  (adds_bit F).bind_zero fun _ _ => (adds_output _ _).zero_bind fun _ _ => adds_pure trivial

theorem adds_addAll (sum : Nat) (terms : List Nat) : Adds (addAll sum terms) 0 fun _ => True := by
  induction terms generalizing sum with
  | nil => exact adds_pure trivial
  | cons term terms ih => exact (adds_derived rfl).zero_bind fun sum _ => ih sum

theorem adds_int (width : Nat) (name : String) : Adds (int F width name) width fun _ => True := by
  unfold int
  split
  · exact adds_throw _
  · have digits := adds_mapM_const (l := List.range width) fun _ _ => adds_bit F
    rw [List.length_range, Nat.mul_one] at digits
    refine digits.bind_zero fun inputs _ => ?_
    refine (adds_mapM_const (n := 0) fun _ _ => adds_derived rfl).zero_bind fun scaled _ => ?_
    exact (adds_derived rfl).zero_bind fun _ _ => (adds_addAll _ _).zero_bind fun _ _ =>
      (adds_output _ _).zero_bind fun _ _ => adds_pure trivial

theorem adds_checkMul (left right product : Nat) :
    Adds (checkMul F left right product) 1 fun _ => True :=
  (adds_push (.mul _ _)).bind_zero fun _ _ => (adds_derived rfl).zero_bind fun _ _ =>
    (adds_derived rfl).zero_bind fun _ _ => (adds_assertZero _).zero_bind fun _ _ =>
      adds_pure trivial

theorem adds_checkSquares (base : Nat) (powers : List Nat) :
    Adds (checkSquares F base powers) powers.length fun _ => True := by
  induction powers generalizing base with
  | nil => exact adds_pure trivial
  | cons power powers ih =>
    rw [List.length_cons, Nat.add_comm]
    exact (adds_checkMul F base base power).bind fun _ _ => ih power

theorem eq_log2_of_squarings {exponent steps : Nat} (h : squarings exponent = .ok steps) :
    steps = exponent.log2 := by
  unfold squarings at h
  split at h <;> cases h <;> rfl

theorem adds_intPow (width exponent : Nat) (name : String) :
    Adds (intPow F width exponent name) (width + exponent.log2) fun _ => True := by
  refine (adds_lift _).zero_bind fun steps known => ?_
  obtain rfl := eq_log2_of_squarings known
  refine (adds_int F width name).bind fun value _ => ?_
  refine (adds_mapM_const (n := 0) fun _ _ => adds_free _).zero_bind fun powers length => ?_
  rw [List.length_range] at length
  rw [← length]
  exact (adds_checkSquares F value powers).bind_zero fun _ _ => adds_pure trivial

theorem adds_checkRow (row : List Nat) : Adds (checkRow F row) 0 fun _ => True :=
  (adds_derived rfl).zero_bind fun _ _ => (adds_addAll _ _).zero_bind fun _ _ => adds_assertZero _

theorem adds_countMin (hashes buckets : Nat) (name : String) :
    Adds (countMin F hashes buckets name) (hashes * buckets) fun _ => True := by
  unfold countMin
  split
  · exact adds_throw _
  · have cells := adds_mapM_const (l := List.range (hashes * buckets))
      fun i _ => adds_oneBit F s!"{name}[{i}]"
    rw [List.length_range, Nat.mul_one] at cells
    exact cells.bind_zero fun _ _ => adds_forM_const (n := 0) fun _ _ => adds_checkRow F _

theorem adds_linReg (widths : List Nat) (name : String) :
    Adds (linReg F widths name) (widths.sum + widths.length * (widths.length + 1) / 2)
      fun _ => True := by
  unfold linReg
  split
  · exact adds_throw _
  · have terms := adds_mapM (l := widths.zipIdx) (n := Prod.fst)
      fun p _ => adds_int F p.1 s!"{name}-bits[{p.2}]"
    rw [List.zipIdx_map_fst] at terms
    refine terms.bind fun terms length => ?_
    rw [List.length_zipIdx] at length
    rw [← length_lowerPairs, ← length]
    refine (adds_mapM_const (n := 0) fun _ _ => adds_free _).zero_bind fun products count => ?_
    have pairs : ((lowerPairs terms.length).zip products).length =
        (lowerPairs terms.length).length := by
      rw [List.length_zip, count, min_self]
    rw [← pairs, ← Nat.mul_one ((lowerPairs _).zip products).length]
    exact adds_forM_const fun ((i, j), product) _ =>
      (adds_checkMul F (terms.getD i 0) (terms.getD j 0) product).bind_zero
        fun _ _ => adds_pure trivial

end Gadget

namespace Circuit

theorem isMul_shift (gate : Gate) (n : Nat) : (gate.shift n).isMul = gate.isMul := by
  cases gate <;> rfl

theorem numMuls_and (c d : Circuit) : (c.and d).numMuls = c.numMuls + d.numMuls := by
  rw [numMuls, and, Array.countP_append, Array.countP_map]
  exact congrArg (_ + Array.countP · d.gates) (funext fun gate => isMul_shift gate c.size)

theorem numMuls_andAll (circuits : List Circuit) :
    (andAll circuits).numMuls = (circuits.map numMuls).sum := by
  have onto (c : Circuit) : (circuits.foldl and c).numMuls =
      c.numMuls + (circuits.map numMuls).sum := by
    induction circuits generalizing c with
    | nil => rfl
    | cons d circuits ih =>
      rw [List.foldl_cons, ih, numMuls_and, List.map_cons, List.sum_cons, Nat.add_assoc]
  exact (onto empty).trans (Nat.zero_add _)

end Circuit

end PrivateSums
