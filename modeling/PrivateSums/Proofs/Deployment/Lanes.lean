import Mathlib.Data.List.Perm.Basic
import PrivateSums.Proofs.Deployment.World

/-!
What a lane counts. Its permits and its submissions add up to its capacity, one submission at a time
is being given its epoch, and none is being admitted while that one rotates.
-/

namespace PrivateSums

namespace Progress

/-- Whether a submission holds a permit of its lane. -/
def isInLane : Progress → Bool
  | arrived | queued | returned _ => false
  | _ => true

/-- Whether a submission is being given its epoch. -/
def isGiven : Progress → Bool
  | choosing | draining _ | rotating .. => true
  | _ => false

def isAdmitted : Progress → Bool
  | admitting _ => true
  | _ => false

end Progress

/-- The number of submissions of a leader at some stages. -/
def census (stages : Progress → Bool) (leader : UInt64) (submissions : List Submission) : Nat :=
  submissions.countP fun s => s.leader = leader && stages s.progress

section Census

variable {stages : Progress → Bool} {leader : UInt64} {submissions : List Submission} {i j : Nat}
  {s s' : Submission}

theorem census_cons (s : Submission) (rest : List Submission) : census stages leader (s :: rest) =
    (if s.leader = leader then (stages s.progress).toNat else 0) + census stages leader rest := by
  rw [census, census, List.countP_cons, Nat.add_comm]
  by_cases leads : s.leader = leader <;> cases stages s.progress <;> simp [leads]

theorem census_eraseIdx (present : submissions[i]? = some s) : census stages leader submissions =
    (if s.leader = leader then (stages s.progress).toNat else 0) +
      census stages leader (submissions.eraseIdx i) := by
  obtain ⟨here, rfl⟩ := List.getElem?_eq_some_iff.1 present
  rw [← census_cons]
  exact ((List.getElem_cons_eraseIdx_perm here).countP_eq _).symm

theorem census_set (present : submissions[i]? = some s) (b : Submission) :
    census stages leader (submissions.set i b) =
      (if b.leader = leader then (stages b.progress).toNat else 0) +
        census stages leader (submissions.eraseIdx i) := by
  obtain ⟨here, rfl⟩ := List.getElem?_eq_some_iff.1 present
  rw [← census_cons]
  exact (List.set_perm_cons_eraseIdx here b).countP_eq _

theorem census_pos (mem : s ∈ submissions) (leads : s.leader = leader)
    (stage : stages s.progress) : 0 < census stages leader submissions :=
  List.countP_pos_iff.2 ⟨s, mem, by simp [leads, stage]⟩

theorem census_eq_zero (none : ∀ s ∈ submissions, ¬stages s.progress) :
    census stages leader submissions = 0 :=
  List.countP_eq_zero.2 fun s mem h => none s mem (Bool.and_eq_true_iff.1 h).2

theorem two_le_census (ne : i ≠ j) (hi : submissions[i]? = some s) (hj : submissions[j]? = some s')
    (leads : s.leader = leader) (leads' : s'.leader = leader) (stage : stages s.progress)
    (stage' : stages s'.progress) : 2 ≤ census stages leader submissions := by
  have other : s' ∈ submissions.eraseIdx i := List.mem_eraseIdx_iff_getElem?.2 ⟨j, ne.symm, hj⟩
  have rest := census_pos other leads' stage'
  rw [census_eraseIdx hi, if_pos leads, stage]
  exact Nat.add_le_add_left rest 1

/-- Later stages that one submission has reached and the other stages do not cover are more. -/
theorem census_lt {stages' : Progress → Bool} (imp : ∀ p, stages p → stages' p)
    (mem : s ∈ submissions) (leads : s.leader = leader) (out : ¬stages s.progress)
    (inside : stages' s.progress) :
    census stages leader submissions < census stages' leader submissions := by
  obtain ⟨i, present⟩ := List.mem_iff_getElem?.1 mem
  have rest : census stages leader (submissions.eraseIdx i) ≤
      census stages' leader (submissions.eraseIdx i) :=
    List.countP_mono_left fun s _ h => by
      rw [Bool.and_eq_true] at h ⊢
      exact ⟨h.1, imp _ h.2⟩
  rw [Bool.not_eq_true] at out
  rw [census_eraseIdx present, census_eraseIdx present, if_pos leads, if_pos leads, inside, out,
    Bool.toNat_false, Bool.toNat_true]
  omega

end Census

/-- A lane that counts right. -/
structure Lane.Counts (l : Lane) (capacity : Nat) (leader : UInt64)
    (submissions : List Submission) : Prop where
  permits : l.permits + census Progress.isInLane leader submissions = capacity
  giving : l.giving.toNat = census Progress.isGiven leader submissions
  admissions : l.admissions = census Progress.isAdmitted leader submissions

theorem Lane.exists_epoch {l : Lane} {rotation : Nat} (h : l.dueEpoch? rotation = none) :
    ∃ epoch, l.epoch = some epoch := by
  unfold dueEpoch? at h
  split at h
  · cases h
  · exact ⟨_, ‹_›⟩

namespace Submission

variable {σ : Type} {d d' : Deployment σ} {s : Submission} {f : Lane → Lane} {p' : Progress}
  {l : Lane}

/-- What a step of the submission itself changes of its lane is what it changes of its counts. -/
theorem Proceeds.counts (h : s.Proceeds d f p') (lane : d.lane? s.leader = some l)
    (given : s.progress.isGiven → l.giving) (admitted : s.progress.isAdmitted → 0 < l.admissions) :
    (f l).permits + p'.isInLane.toNat = l.permits + s.progress.isInLane.toNat ∧
      (f l).giving.toNat + s.progress.isGiven.toNat = l.giving.toNat + p'.isGiven.toNat ∧
      (f l).admissions + s.progress.isAdmitted.toNat = l.admissions + p'.isAdmitted.toNat := by
  cases h with
  | refuse start | queue start | drain start | rotate _ start | evaluationFails start
  | evaluated _ start | finalFails start | finalised start | verdictFails start | decided start
  | aborted start => rw [start]; exact ⟨rfl, rfl, rfl⟩
  | @enter l₀ l' start lane' entered =>
    obtain rfl := Option.some.inj (lane'.symm.trans lane)
    unfold Lane.enter? at entered
    split at entered
    · cases entered
    · rename_i permits eq
      cases entered
      rw [start]
      exact ⟨eq.symm, rfl, rfl⟩
  | choose start lane' free =>
    obtain rfl := Option.some.inj (lane'.symm.trans lane)
    rw [start, free]
    exact ⟨rfl, rfl, rfl⟩
  | give start | rotationFails start | rotated start =>
    rw [start] at given ⊢
    rw [given rfl]
    exact ⟨rfl, rfl, rfl⟩
  | admissionFails start | admitted start =>
    rw [start] at admitted ⊢
    have := admitted rfl
    exact ⟨rfl, rfl, Nat.sub_add_cancel this⟩
  | leave start =>
    rw [start]
    exact ⟨rfl, rfl, rfl⟩

end Submission

namespace World

variable {σ : Type} {F : Field} {domain : CircuitDomain} {n capacity : Nat}

def Counted (capacity : Nat) (w : World σ) : Prop :=
  ∀ leader l, w.deployment.lane? leader = some l → l.Counts capacity leader w.submissions

theorem counted_start {c : Circuit} {rotation : Nat} {source : σ} {d : Deployment σ}
    (domainOk : CircuitDomain.ofCircuit F c = .ok domain)
    (h : Deployment.start F c n capacity rotation source = .ok d) :
    Counted capacity ⟨d, []⟩ := by
  intro leader l lane
  obtain rfl := Except.ok.inj ((start_eq domainOk).symm.trans h)
  obtain rfl := List.eq_of_mem_replicate (List.mem_of_getElem? lane)
  exact ⟨rfl, rfl, rfl⟩

section Use

variable {w : World σ}

theorem Counted.given (counted : w.Counted capacity) {s : Submission} {l : Lane}
    (mem : s ∈ w.submissions) (lane : w.deployment.lane? s.leader = some l)
    (given : s.progress.isGiven) : l.giving := by
  have some := census_pos mem rfl given
  rw [← (counted _ l lane).giving] at some
  exact Bool.toNat_eq_one.1 (Nat.le_antisymm (Bool.toNat_le _) some)

theorem Counted.admitted (counted : w.Counted capacity) {s : Submission} {l : Lane}
    (mem : s ∈ w.submissions) (lane : w.deployment.lane? s.leader = some l)
    (admitted : s.progress.isAdmitted) : 0 < l.admissions := by
  rw [(counted _ l lane).admissions]
  exact census_pos mem rfl admitted

/-- One submission at a time is being given its epoch. -/
theorem Counted.eq_of_given (counted : w.Counted capacity) {i j : Nat} {s s' : Submission}
    {l : Lane} (hi : w.submissions[i]? = some s) (hj : w.submissions[j]? = some s')
    (leads : s'.leader = s.leader) (lane : w.deployment.lane? s.leader = some l)
    (given : s.progress.isGiven) (given' : s'.progress.isGiven) : i = j := by
  by_contra ne
  have two := two_le_census ne hi hj rfl leads given given'
  rw [← (counted _ l lane).giving] at two
  have := Bool.toNat_le l.giving
  omega

end Use

section Step

variable [WordSource σ] {admits : Submission → Prop} {w w' : World σ}

theorem Counted.of_step (counted : w.Counted capacity) (proper : w.Proper F domain n)
    (h : Step admits w w') : w'.Counted capacity := by
  obtain ⟨-, next⟩ := proper.of_step h
  obtain ⟨d', submissions'⟩ := w'
  obtain ⟨s, start, -, rfl, rfl⟩ | ⟨i, s, s', present, rfl, turn⟩ := next
  · intro leader l lane
    have same (stages : Progress → Bool) (out : stages .arrived = false) :
        census stages leader (w.submissions ++ [s]) = census stages leader w.submissions := by
      simp [census, List.countP_append, start, out]
    obtain ⟨permits, giving, admissions⟩ := counted leader l lane
    exact ⟨by rwa [same _ rfl], by rwa [same _ rfl], by rwa [same _ rfl]⟩
  have mem := List.mem_of_getElem? present
  cases turn with
  | @own f p' proceeds leads =>
    intro leader l' lane'
    change d'.lane? leader = some l' at lane'
    rw [leads.lane?] at lane'
    obtain ⟨l, lane, rfl⟩ := Option.map_eq_some_iff.1 lane'
    obtain ⟨permits, giving, admissions⟩ := counted leader l lane
    rw [census_eraseIdx present] at permits giving admissions
    obtain rfl | ne := eq_or_ne s.leader leader
    · obtain ⟨hp, hg, ha⟩ := proceeds.counts lane (counted.given mem lane)
        (counted.admitted mem lane)
      rw [if_pos rfl] at permits giving admissions
      refine ⟨?_, ?_, ?_⟩ <;> rw [census_set present, if_pos rfl, if_pos rfl] <;> dsimp only <;>
        omega
    · rw [if_neg ne] at permits giving admissions
      refine ⟨?_, ?_, ?_⟩ <;> rw [census_set present, if_neg ne, if_neg ne] <;> assumption
  | @call c' await calls j call server slot slot' stage' moved =>
    obtain ⟨awaits, start, -, -, -, -, -, -, -, lanes, -⟩ := moved
    intro leader l lane
    change d'.lanes[leader.toNat]? = some l at lane
    change d'.lanes = w.deployment.lanes at lanes
    rw [lanes] at lane
    obtain ⟨permits, giving, admissions⟩ := counted leader l lane
    have same (stages : Progress → Bool) (stable : ∀ calls calls', stages (await calls) =
        stages (await calls')) : census stages leader (w.submissions.set i
          { s with progress := await (calls.set j (call.withStage stage')) }) =
            census stages leader w.submissions := by
      rw [census_set present, census_eraseIdx present, start, stable]
    refine ⟨?_, ?_, ?_⟩ <;> dsimp only <;> rw [same _ fun _ _ => by cases awaits <;> rfl] <;>
      assumption

end Step

end World

end PrivateSums
