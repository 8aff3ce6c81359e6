import PrivateSums.Circuit.Gadget
import PrivateSums.Proofs.Circuit.WellFormed

/-!
The circuits that can be put together: by operations and gadgets one after the other, also those
that fail on the way, and by conjunction. All of them are well formed.
-/

namespace PrivateSums

namespace Builder

variable {α β : Type}

theorem keeps_discard {b : Builder α} (h : Keeps b) : Keeps (discard b) := by
  change Keeps ((fun _ => ()) <$> b)
  rw [← bind_pure_comp]
  exact keeps_bind h fun _ => keeps_pure ()

theorem keeps_lift (x : Except CircuitError α) : Keeps (liftM x) := fun _ h => h

theorem keeps_mapM {f : α → Builder β} (h : ∀ a, Keeps (f a)) (l : List α) :
    Keeps (l.mapM f) := by
  induction l with
  | nil => exact keeps_pure []
  | cons a l ih =>
    rw [List.mapM_cons]
    exact keeps_bind (h a) fun b => keeps_bind ih fun bs => keeps_pure (b :: bs)

theorem keeps_forM {f : α → Builder Unit} (h : ∀ a, Keeps (f a)) (l : List α) :
    Keeps (l.forM f) := by
  induction l with
  | nil => exact keeps_pure ()
  | cons a l ih => exact keeps_bind (h a) fun _ => ih

/-- Parameters that are refused leave the circuit as it is. -/
theorem keeps_guard {p : Prop} [Decidable p] {e : CircuitError} {b : Builder α} (h : Keeps b) :
    Keeps (if p then throw e else b) := by
  split
  · exact keeps_throw e
  · exact h

/-- One of the operations that gadgets are made of. -/
inductive Primitive
  | input
  | add (left right : Nat)
  | addConst (parent constant : Nat)
  | mul (left right : Nat)
  | mulConst (parent constant : Nat)
  | assertZero (gate : Nat)
  | output (gate : Nat) (name : String)

def Primitive.builder : Primitive → Builder Unit
  | input => discard Builder.input
  | add left right => discard (Builder.add left right)
  | addConst parent constant => discard (Builder.addConst parent constant)
  | mul left right => discard (Builder.mul left right)
  | mulConst parent constant => discard (Builder.mulConst parent constant)
  | assertZero gate => Builder.assertZero gate
  | output gate name => Builder.output gate name

theorem Primitive.keeps (p : Primitive) : Keeps p.builder := by
  cases p with
  | assertZero gate => exact keeps_assertZero gate
  | output gate name => exact keeps_output gate name
  | _ => exact keeps_discard (keeps_push _)

theorem discard_run (b : Builder α) (c : Circuit) :
    (discard b).run.run c = ((b.run.run c).1.map fun _ => (), (b.run.run c).2) := by
  change ((fun _ => ()) <$> b : Builder Unit).run.run c = _
  rw [← bind_pure_comp, Answer.bind_run]
  obtain ⟨_ | _, _⟩ := b.run.run c <;> rfl

/-- A primitive operation that fails leaves the circuit as it is. -/
theorem Primitive.eq_of_error (p : Primitive) {c d : Circuit} {e : CircuitError}
    (h : p.builder.run.run c = (.error e, d)) : d = c := by
  have pushes {gate : Gate} (h : (discard (push gate)).run.run c = (.error e, d)) : d = c := by
    rw [discard_run, push_run] at h
    split at h <;> cases h
    rfl
  have requires {gate : Nat} {f : Circuit → Circuit}
      (h : (requireGate gate >>= fun _ => (modify f : Builder Unit)).run.run c = (.error e, d)) :
      d = c := by
    rw [Answer.bind_run, requireGate_run] at h
    by_cases outside : c.size ≤ gate
    · rw [if_pos outside] at h
      cases h
      rfl
    · rw [if_neg outside] at h
      cases h
  cases p with
  | assertZero gate => exact requires h
  | output gate name => exact requires h
  | _ => exact pushes h

end Builder

namespace Gadget

open Builder

variable (F : Field)

theorem keeps_free (name : String) : Keeps (free name) :=
  keeps_bind (keeps_push _) fun input => keeps_bind (keeps_output input name) fun _ =>
    keeps_pure input

theorem keeps_bit : Keeps (bit F) :=
  keeps_bind (keeps_push _) fun input => keeps_bind (keeps_push _) fun less =>
    keeps_bind (keeps_push (.mul input less)) fun product =>
      keeps_bind (keeps_assertZero product) fun _ => keeps_pure input

theorem keeps_oneBit (name : String) : Keeps (oneBit F name) :=
  keeps_bind (keeps_bit F) fun input => keeps_bind (keeps_output input name) fun _ =>
    keeps_pure input

theorem keeps_addAll (sum : Nat) (terms : List Nat) : Keeps (addAll sum terms) := by
  induction terms generalizing sum with
  | nil => exact keeps_pure sum
  | cons term terms ih => exact keeps_bind (keeps_push (.add term sum)) ih

theorem keeps_int (width : Nat) (name : String) : Keeps (int F width name) :=
  keeps_guard <|
    keeps_bind (keeps_mapM (fun _ => keeps_bit F) _) fun _ =>
      keeps_bind (keeps_mapM (fun _ => keeps_push _) _) fun _ =>
        keeps_bind (keeps_push _) fun first => keeps_bind (keeps_addAll first _) fun sum =>
          keeps_bind (keeps_output sum name) fun _ => keeps_pure sum

theorem keeps_checkMul (left right product : Nat) : Keeps (checkMul F left right product) :=
  keeps_bind (keeps_push (.mul left right)) fun _ => keeps_bind (keeps_push _) fun negated =>
    keeps_bind (keeps_push (.add negated product)) fun difference =>
      keeps_bind (keeps_assertZero difference) fun _ => keeps_pure difference

theorem keeps_checkSquares (base : Nat) (powers : List Nat) :
    Keeps (checkSquares F base powers) := by
  induction powers generalizing base with
  | nil => exact keeps_pure ()
  | cons power powers ih => exact keeps_bind (keeps_checkMul F base base power) fun _ => ih power

theorem keeps_intPow (width exponent : Nat) (name : String) :
    Keeps (intPow F width exponent name) :=
  keeps_bind (keeps_lift _) fun _ => keeps_bind (keeps_int F width name) fun value =>
    keeps_bind (keeps_mapM (fun _ => keeps_free _) _) fun powers =>
      keeps_bind (keeps_checkSquares F value powers) fun _ => keeps_pure value

theorem keeps_checkRow (row : List Nat) : Keeps (checkRow F row) :=
  keeps_bind (keeps_push _) fun first => keeps_bind (keeps_addAll first _) fun sum =>
    keeps_assertZero sum

theorem keeps_countMin (hashes buckets : Nat) (name : String) :
    Keeps (countMin F hashes buckets name) :=
  keeps_guard <|
    keeps_bind (keeps_mapM (fun _ => keeps_oneBit F _) _) fun _ =>
      keeps_forM (fun _ => keeps_checkRow F _) _

theorem keeps_linReg (widths : List Nat) (name : String) : Keeps (linReg F widths name) :=
  keeps_guard <|
    keeps_bind (keeps_mapM (fun _ => keeps_int F _ _) _) fun _ =>
      keeps_bind (keeps_mapM (fun _ => keeps_free _) _) fun _ =>
        keeps_forM (fun _ => keeps_bind (keeps_checkMul F _ _ _) fun _ => keeps_pure ()) _

/-- A gadget with its parameters. -/
inductive Call
  | free (name : String)
  | oneBit (F : Field) (name : String)
  | int (F : Field) (width : Nat) (name : String)
  | negate (F : Field) (gate : Nat)
  | checkMul (F : Field) (left right product : Nat)
  | intPow (F : Field) (width exponent : Nat) (name : String)
  | countMin (F : Field) (hashes buckets : Nat) (name : String)
  | linReg (F : Field) (widths : List Nat) (name : String)

def Call.builder : Call → Builder Unit
  | free name => discard (Gadget.free name)
  | oneBit F name => discard (Gadget.oneBit F name)
  | int F width name => discard (Gadget.int F width name)
  | negate F gate => discard (Gadget.negate F gate)
  | checkMul F left right product => discard (Gadget.checkMul F left right product)
  | intPow F width exponent name => discard (Gadget.intPow F width exponent name)
  | countMin F hashes buckets name => Gadget.countMin F hashes buckets name
  | linReg F widths name => Gadget.linReg F widths name

theorem Call.keeps (call : Call) : Keeps call.builder := by
  cases call with
  | free name => exact keeps_discard (keeps_free name)
  | oneBit F name => exact keeps_discard (keeps_oneBit F name)
  | int F width name => exact keeps_discard (keeps_int F width name)
  | negate F gate => exact keeps_discard (keeps_push _)
  | checkMul F left right product => exact keeps_discard (keeps_checkMul F left right product)
  | intPow F width exponent name => exact keeps_discard (keeps_intPow F width exponent name)
  | countMin F hashes buckets name => exact keeps_countMin F hashes buckets name
  | linReg F widths name => exact keeps_linReg F widths name

end Gadget

namespace Circuit

/-- Put together from nothing. What an operation leaves counts, whether it succeeds or fails. -/
inductive Reachable : Circuit → Prop
  | empty : Reachable .empty
  | primitive {c : Circuit} (p : Builder.Primitive) :
    Reachable c → Reachable (p.builder.run.run c).2
  | gadget {c : Circuit} (call : Gadget.Call) :
    Reachable c → Reachable (call.builder.run.run c).2
  | and {c d : Circuit} : Reachable c → Reachable d → Reachable (c.and d)
  | andAll {circuits : List Circuit} :
    (∀ c ∈ circuits, Reachable c) → Reachable (Circuit.andAll circuits)

theorem Reachable.wellFormed {c : Circuit} (h : c.Reachable) : c.WellFormed := by
  induction h with
  | empty => exact .empty
  | primitive p _ ih => exact p.keeps _ ih
  | gadget call _ ih => exact call.keeps _ ih
  | and _ _ ihc ihd => exact ihc.and ihd
  | andAll _ ih => exact .andAll ih

end Circuit

end PrivateSums
