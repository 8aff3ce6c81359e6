import Mathlib.Data.List.Basic
import PrivateSums.Deployment.EvaluationPoints

/-!
What evaluation points remember of the rotations made so far: the two newest ones that succeeded.
A rotation succeeds when its epoch is newer than that of every success before it.
-/

namespace PrivateSums.EvaluationPoints

variable {p p' : EvaluationPoints} {epoch current : UInt64} {point : EvaluationPoint}

/-- Whether an epoch is newer than the newest one that is known. -/
def Behind (epoch : UInt64) (p : EvaluationPoints) : Prop :=
  ∀ current ∈ p.currentEpoch?, current < epoch

theorem rotate_eq_ok_iff : p.rotate epoch point = .ok p' ↔
    p.Behind epoch ∧ p' = ⟨some (epoch, point), p.current⟩ := by
  unfold rotate Behind
  cases known : p.currentEpoch? with
  | none => simp [eq_comm]
  | some current =>
    by_cases old : epoch ≤ current
    · simp [old, UInt64.not_lt.2 old]
    · simp [old, UInt64.not_le.1 old, eq_comm]

theorem rotate_eq_error_iff : p.rotate epoch point = .error current ↔
    p.currentEpoch? = some current ∧ epoch ≤ current := by
  unfold rotate
  cases known : p.currentEpoch? with
  | none => simp
  | some newest =>
    by_cases old : epoch ≤ newest
    · simp only [old, if_true, Except.error.injEq, Option.some.injEq]
      constructor
      · rintro rfl
        exact ⟨rfl, old⟩
      · exact And.left
    · simp only [old, if_false, reduceCtorEq, Option.some.injEq, false_iff, not_and]
      rintro rfl
      exact old

/-- Points, and the calls of `rotate` that made them. -/
structure History where
  points : EvaluationPoints
  /-- The calls that succeeded, the newest first. -/
  installed : List (UInt64 × EvaluationPoint)

namespace History

def fresh : History := ⟨.empty, []⟩

/-- One more call. A refused one leaves the points as they are. -/
def call (h : History) (c : UInt64 × EvaluationPoint) : History :=
  match h.points.rotate c.1 c.2 with
  | .ok points => ⟨points, c :: h.installed⟩
  | .error _ => h

/-- What calls in this order make of fresh points. -/
def ofCalls (calls : List (UInt64 × EvaluationPoint)) : History := calls.foldl call fresh

variable {h : History}

/-- The points are those of the two newest successes, each of which is newer than all before it. -/
structure Remembers (h : History) : Prop where
  current : h.points.current = h.installed[0]?
  previous : h.points.previous = h.installed[1]?
  newer : h.installed.Pairwise fun later earlier => earlier.1 < later.1

/-- To be newer than the newest success is to be newer than all of them. -/
theorem Remembers.behind_iff (remembers : h.Remembers) :
    h.points.Behind epoch ↔ ∀ c ∈ h.installed, c.1 < epoch := by
  have newer := remembers.newer
  rw [Behind, currentEpoch?, remembers.current]
  cases installed : h.installed with
  | nil => simp
  | cons newest earlier =>
    rw [installed] at newer
    simp only [List.getElem?_cons_zero, Option.map_some, Option.mem_some_iff, forall_eq',
      List.forall_mem_cons]
    constructor
    · intro lt
      exact ⟨lt, fun c mem => UInt64.lt_trans ((List.pairwise_cons.1 newer).1 c mem) lt⟩
    · exact And.left

theorem remembers_fresh : fresh.Remembers where
  current := rfl
  previous := rfl
  newer := .nil

theorem call_of_behind (behind : h.points.Behind epoch) : h.call (epoch, point) =
    ⟨⟨some (epoch, point), h.points.current⟩, (epoch, point) :: h.installed⟩ := by
  rw [call, rotate_eq_ok_iff.2 ⟨behind, rfl⟩]

theorem call_of_refused (refused : h.points.rotate epoch point = .error current) :
    h.call (epoch, point) = h := by
  rw [call, refused]

theorem Remembers.call (remembers : h.Remembers) (c : UInt64 × EvaluationPoint) :
    (h.call c).Remembers := by
  obtain ⟨epoch, point⟩ := c
  cases answer : h.points.rotate epoch point with
  | error current =>
    rw [call_of_refused answer]
    exact remembers
  | ok points =>
    have behind := (rotate_eq_ok_iff.1 answer).1
    rw [call_of_behind behind]
    exact {
      current := rfl
      previous := remembers.current
      newer := List.pairwise_cons.2 ⟨remembers.behind_iff.1 behind, remembers.newer⟩ }

theorem remembers_ofCalls (calls : List (UInt64 × EvaluationPoint)) :
    (ofCalls calls).Remembers := by
  have after (h : History) (remembers : h.Remembers) : (calls.foldl History.call h).Remembers := by
    induction calls generalizing h with
    | nil => exact remembers
    | cons c calls ih => exact ih (h.call c) (remembers.call c)
  exact after fresh remembers_fresh

/-- Successes are told apart by their epochs. -/
theorem lookup_eq_some_iff {installed : List (UInt64 × EvaluationPoint)}
    (newer : installed.Pairwise fun later earlier => earlier.1 < later.1) :
    installed.lookup epoch = some point ↔ (epoch, point) ∈ installed := by
  induction installed with
  | nil => simp
  | cons newest earlier ih =>
    obtain ⟨epoch', point'⟩ := newest
    obtain ⟨older, newer⟩ := List.pairwise_cons.1 newer
    by_cases same : epoch = epoch'
    · subst same
      have absent : (epoch, point) ∉ earlier := fun mem => UInt64.lt_irrefl epoch (older _ mem)
      simp [absent, eq_comm]
    · simp [List.lookup_cons, beq_false_of_ne same, same, ih newer]

theorem Remembers.get?_eq_some_iff (remembers : h.Remembers) :
    h.points.get? epoch = some point ↔ (epoch, point) ∈ h.installed.take 2 := by
  have two : h.points.current.toList ++ h.points.previous.toList = h.installed.take 2 := by
    rw [remembers.current, remembers.previous]
    match h.installed with
    | [] | [_] | _ :: _ :: _ => rfl
  rw [get?, two, lookup_eq_some_iff (remembers.newer.sublist (List.take_sublist ..))]

/-- What points answer after the calls made so far. -/
structure Answers (h : History) : Prop where
  newer : h.installed.Pairwise fun later earlier => earlier.1 < later.1
  succeeds_iff : ∀ epoch point, (∃ points, h.points.rotate epoch point = .ok points) ↔
    ∀ c ∈ h.installed, c.1 < epoch
  /-- A success is the newest one from then on. -/
  installs : ∀ epoch point points, h.points.rotate epoch point = .ok points →
    h.call (epoch, point) = ⟨points, (epoch, point) :: h.installed⟩
  /-- A refusal tells the epoch of the newest success, and changes nothing. -/
  refused : ∀ epoch point current, h.points.rotate epoch point = .error current →
    h.points.currentEpoch? = some current ∧ h.installed.head?.map (·.1) = some current ∧
      h.call (epoch, point) = h
  /-- The last two successes are looked up in, and no others. -/
  get?_iff : ∀ epoch point, h.points.get? epoch = some point ↔ (epoch, point) ∈ h.installed.take 2

theorem answers_ofCalls (calls : List (UInt64 × EvaluationPoint)) : (ofCalls calls).Answers := by
  have remembers := remembers_ofCalls calls
  refine ⟨remembers.newer, fun epoch point => ?_, fun epoch point points rotated => ?_,
    fun epoch point current refused => ?_, fun epoch point => remembers.get?_eq_some_iff⟩
  · rw [← remembers.behind_iff]
    constructor
    · rintro ⟨points, rotated⟩
      exact (rotate_eq_ok_iff.1 rotated).1
    · intro behind
      exact ⟨_, rotate_eq_ok_iff.2 ⟨behind, rfl⟩⟩
  · obtain ⟨behind, rfl⟩ := rotate_eq_ok_iff.1 rotated
    exact call_of_behind behind
  · have known := (rotate_eq_error_iff.1 refused).1
    refine ⟨known, ?_, call_of_refused refused⟩
    rw [List.head?_eq_getElem?, ← remembers.current]
    exact known

end History

end PrivateSums.EvaluationPoints
