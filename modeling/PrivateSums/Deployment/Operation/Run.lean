import PrivateSums.Deployment.Operation.Basic

/-!
Operations that run alone. Every step brings an operation nearer to its answer, so that it answers
or comes to wait for a permit.
-/

namespace PrivateSums

namespace LeaderSlot

variable {s s' : LeaderSlot}

theorem remaining_finish {c : Call} {stage stage' : Stage c}
    (h : s.finish stage = some (s', stage')) : stage'.remaining < stage.remaining := by
  cases stage <;> simp only [finish, Option.some.injEq, Prod.mk.injEq, reduceCtorEq] at h
  all_goals obtain ⟨-, rfl⟩ := h; simp [Stage.remaining]

theorem remaining_takeOut {c : Call} {id : RequestId} {next : Pending → Stage c} {n : Nat}
    (hn : 0 < n) (h : ∀ p, (next p).remaining < n) : (s.takeOut id next).2.remaining < n := by
  unfold takeOut
  split
  · simpa [Stage.remaining] using hn
  · exact h _

theorem remaining_putBack {c : Call} (id : RequestId) (p : Pending) (reply : c.Reply) :
    (s.putBack id p reply).2.remaining ≤ 2 := by
  unfold putBack
  split <;> simp [Stage.remaining]

theorem remaining_stepNewRequest {m : NewRequest} {stage stage' : Stage .newRequest}
    (h : s.stepNewRequest m stage = some (s', stage')) : stage'.remaining < stage.remaining := by
  cases stage <;> simp only [stepNewRequest] at h
  case releasing | leaving | answered => exact remaining_finish h
  case unused =>
    obtain ⟨pool, -, h⟩ := Option.map_eq_some_iff.1 h
    obtain ⟨-, rfl⟩ := Prod.mk.inj h
    simp [Stage.remaining]
  all_goals
    have h := congrArg Prod.snd (Option.some.inj h)
    split at h <;> (subst h; simp [Stage.remaining])

theorem remaining_stepEvalCircuit {m : EvalCircuit} {stage stage' : Stage .evalCircuit}
    (h : s.stepEvalCircuit m stage = some (s', stage')) : stage'.remaining < stage.remaining := by
  cases stage <;> simp only [stepEvalCircuit] at h
  case releasing | leaving | answered => exact remaining_finish h
  case called =>
    have h : _ = stage' := congrArg Prod.snd (Option.some.inj h)
    rw [← h]
    exact remaining_takeOut (by decide) fun _ => by simp [Stage.remaining]
  case evaluated p share =>
    have h : _ = stage' := congrArg Prod.snd (Option.some.inj h)
    rw [← h]
    exact Nat.lt_of_le_of_lt (remaining_putBack ..) (by simp [Stage.remaining])
  case evaluating =>
    have h := congrArg Prod.snd (Option.some.inj h)
    split at h <;> (subst h; simp [Stage.remaining])

theorem remaining_stepFinalCircuit {m : FinalCircuit} {stage stage' : Stage .finalCircuit}
    (h : s.stepFinalCircuit m stage = some (s', stage')) : stage'.remaining < stage.remaining := by
  cases stage <;> simp only [stepFinalCircuit] at h
  case releasing | leaving | answered => exact remaining_finish h
  case called =>
    have h : _ = stage' := congrArg Prod.snd (Option.some.inj h)
    rw [← h]
    exact remaining_takeOut (by decide) fun _ => by simp [Stage.remaining]
  case finalised p share =>
    have h : _ = stage' := congrArg Prod.snd (Option.some.inj h)
    rw [← h]
    exact Nat.lt_of_le_of_lt (remaining_putBack ..) (by simp [Stage.remaining])
  case finalising =>
    have h := congrArg Prod.snd (Option.some.inj h)
    split at h <;> (subst h; simp [Stage.remaining])

theorem remaining_stepAccept {m : Accept} {stage stage' : Stage .accept}
    (h : s.stepAccept m stage = some (s', stage')) : stage'.remaining < stage.remaining := by
  cases stage <;> simp only [stepAccept] at h
  case releasing | leaving | answered => exact remaining_finish h
  case called =>
    have h : _ = stage' := congrArg Prod.snd (Option.some.inj h)
    rw [← h]
    exact remaining_takeOut (by decide) fun _ => by simp [Stage.remaining]
  case deciding =>
    have h : _ = stage' := congrArg Prod.snd (Option.some.inj h)
    rw [← h]
    simp [Stage.remaining]

theorem remaining_stepChangePoint {pointAt : Nat → EvaluationPoint} {m : ChangePoint}
    {stage stage' : Stage .changePoint}
    (h : s.stepChangePoint pointAt m stage = some (s', stage')) :
    stage'.remaining < stage.remaining := by
  cases stage <;> simp only [stepChangePoint] at h
  case releasing | leaving | answered => exact remaining_finish h
  case called =>
    have h : _ = stage' := congrArg Prod.snd (Option.some.inj h)
    rw [← h]
    simp [Stage.remaining]
  case computed =>
    have h := congrArg Prod.snd (Option.some.inj h)
    split at h <;> (subst h; simp [Stage.remaining])

theorem remaining_stepAbort {m : Abort} {stage stage' : Stage .abort}
    (h : s.stepAbort m stage = some (s', stage')) : stage'.remaining < stage.remaining := by
  cases stage <;> simp only [stepAbort] at h
  case releasing | leaving | answered => exact remaining_finish h
  case called =>
    have h := congrArg Prod.snd (Option.some.inj h)
    split at h <;> (subst h; simp [Stage.remaining])

end LeaderSlot

namespace Server

theorem remaining_stepSlot {s : Server} {slot slot' : LeaderSlot} {c : Call} {m : c.Message}
    {stage stage' : Stage c} (h : s.stepSlot slot m stage = some (slot', stage')) :
    stage'.remaining < stage.remaining := by
  cases c with
  | newRequest => exact LeaderSlot.remaining_stepNewRequest h
  | evalCircuit => exact LeaderSlot.remaining_stepEvalCircuit h
  | finalCircuit => exact LeaderSlot.remaining_stepFinalCircuit h
  | accept => exact LeaderSlot.remaining_stepAccept h
  | changePoint => exact LeaderSlot.remaining_stepChangePoint h
  | abort => exact LeaderSlot.remaining_stepAbort h

/-- Every operation answers, or comes to wait for a permit, after finitely many steps. -/
theorem remaining_step {s s' : Server} {c : Call} {op op' : Operation c}
    (h : s.step op = some (s', op')) : op'.stage.remaining < op.stage.remaining := by
  obtain ⟨m, stage⟩ := op
  simp only [step] at h
  split at h
  · obtain ⟨⟨slot', stage'⟩, hs, h⟩ := Option.bind_eq_some_iff.1 h
    obtain ⟨-, rfl⟩ := Prod.mk.inj (Option.some.inj h)
    exact remaining_stepSlot hs
  · obtain ⟨-, rfl⟩ := Prod.mk.inj (Option.some.inj h)
    simp_all [Stage.remaining]
  · exact absurd h (by simp)

/-- Takes an operation as far as it goes alone. -/
def run (s : Server) {c : Call} (op : Operation c) : Server × Operation c :=
  match _h : s.step op with
  | none => (s, op)
  | some (s', op') => s'.run op'
termination_by op.stage.remaining
decreasing_by exact remaining_step _h

/-- Answers a call while no other operation is under way; none when it would wait for a checker that
only another call can free. -/
def answer? (s : Server) {c : Call} (message : c.Message) :
    Option (Except ServerError c.Reply × Server) :=
  let (s, op) := s.run (.start message)
  op.stage.answer?.map (·, s)

end Server

end PrivateSums
