import PrivateSums.Proofs.Field.Residue
import PrivateSums.Random.ElementStream

/-!
Draws of field elements are canonical. A stream is the sequence of its draws.
-/

namespace PrivateSums

namespace Random

variable {σ : Type}

/-- A draw is an accepted one, also when it is given up. -/
theorem accept_redraw {α : Type} {p : α → Bool} {fallback : α} (h : p fallback)
    (draw : StateM σ α) (attempts : Nat) (s : σ) :
    p ((redraw p fallback draw attempts).run s).1 := by
  induction attempts generalizing s with
  | zero => exact h
  | succ attempts ih =>
    rw [redraw]
    change p (StateT.run (if p (draw.run s).1 then pure (draw.run s).1
      else redraw p fallback draw attempts) (draw.run s).2).1
    split
    · assumption
    · exact ih _

/-- What every draw has, its result has, accepted or given up. -/
theorem of_redraw {α : Type} {P : α → Prop} {accept : α → Bool} {fallback : α} (h : P fallback)
    {draw : StateM σ α} (each : ∀ s, P (draw.run s).1) (attempts : Nat) (s : σ) :
    P ((redraw accept fallback draw attempts).run s).1 := by
  induction attempts generalizing s with
  | zero => exact h
  | succ attempts ih =>
    rw [redraw]
    change P (StateT.run (if accept (draw.run s).1 then pure (draw.run s).1
      else redraw accept fallback draw attempts) (draw.run s).2).1
    split
    · exact each s
    · exact ih _

theorem below_lt [WordSource σ] {bound : Nat} (h : 0 < bound) (s : σ) :
    ((below bound).run s).1 < bound :=
  of_decide_eq_true
    (accept_redraw (p := fun value => decide (value < bound)) (decide_eq_true h) _ patience s)

end Random

theorem Field.random_lt {σ : Type} [WordSource σ] (F : Field) (s : σ) :
    (F.random.run s).1 < F.modulus :=
  Random.below_lt F.modulus_pos s

namespace ElementStream

variable (F : Field) (s : ElementStream)

/-- The stream after some draws. -/
def after : Nat → ElementStream
  | 0 => s
  | n + 1 => ((next F).run (after n)).2

/-- The draw with this number, from 0. -/
def nth (n : Nat) : Nat := ((next F).run (s.after F n)).1

theorem nth_lt (n : Nat) : s.nth F n < F.modulus := F.random_lt (s.after F n).source

theorem next_run : (next F).run s = (s.nth F 0, s.after F 1) := rfl

theorem after_after (m n : Nat) : (s.after F m).after F n = s.after F (m + n) := by
  induction n with
  | zero => rfl
  | succ n ih => rw [after, ih, ← Nat.add_assoc, after]

theorem nth_after (m n : Nat) : (s.after F m).nth F n = s.nth F (m + n) := by
  rw [nth, after_after, nth]

@[simp] theorem key_after (n : Nat) : (s.after F n).key = s.key := by
  induction n with
  | zero => rfl
  | succ n ih => exact ih

@[simp] theorem position_after (n : Nat) : (s.after F n).position = s.position + n := by
  induction n with
  | zero => rfl
  | succ n ih => exact congrArg (· + 1) ih

theorem take_run (n : Nat) :
    (take F n).run s = ((List.range n).map (s.nth F), s.after F n) := by
  induction n generalizing s with
  | zero => rfl
  | succ n ih =>
    change (_ :: ((take F n).run (s.after F 1)).1, ((take F n).run (s.after F 1)).2) = _
    rw [ih, after_after, List.range_succ_eq_map, List.map_cons, List.map_map, Nat.add_comm 1 n]
    congr 2
    exact List.map_congr_left fun i _ => by rw [nth_after, Nat.add_comm, Function.comp]

end ElementStream

end PrivateSums
