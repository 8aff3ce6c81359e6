import PrivateSums.Deployment.Schedule.Run
import PrivateSums.Proofs.Deployment.Pending

/-!
No submission waits for ever. A request that waits for a checker finds one free as soon as the
others have gone on: the lane lets no more submissions in than there are checkers.
-/

namespace PrivateSums

theorem Deployment.of_step_call_eq_none {σ : Type} [WordSource σ] {d : Deployment σ}
    {s : Submission} {c : Call} {await : List (PeerCall c) → Progress} {calls : List (PeerCall c)}
    {i : Nat} {call : PeerCall c} (awaits : Progress.Awaits c await)
    (start : s.progress = await calls) (present : calls[i]? = some call)
    (h : d.step s (.call i) = none) : call.step d.servers = none := by
  by_contra moves
  obtain ⟨⟨servers, call'⟩, moves⟩ := Option.ne_none_iff_exists'.1 moves
  have stepped : PeerCall.stepAt d.servers calls i = some (servers, calls.set i call') := by
    simp [PeerCall.stepAt, present, moves]
  cases awaits <;> simp [Deployment.step, start, Progress.stepCall, stepped] at h

theorem totalEffort_set_lt {n i : Nat} {submissions : List Submission} {s s' : Submission}
    (present : submissions[i]? = some s) (less : s'.progress.effort n < s.progress.effort n) :
    totalEffort n (submissions.set i s') < totalEffort n submissions := by
  induction submissions generalizing i with
  | nil => cases present
  | cons first submissions ih =>
    cases i with
    | zero =>
      obtain rfl := Option.some.inj present
      exact Nat.add_lt_add_right less _
    | succ i => exact Nat.add_lt_add_left (ih present) _

namespace World

variable {σ : Type} [WordSource σ]

/-- A step of the submission at one place, while all others pause. -/
inductive StepAt (i : Nat) (w : World σ) : World σ → Prop
  | move {s s' : Submission} {m : Move} {d : Deployment σ} (present : w.submissions[i]? = some s)
      (step : w.deployment.step s m = some (d, s')) : StepAt i w ⟨d, w.submissions.set i s'⟩

abbrev ReachesAt (i : Nat) : World σ → World σ → Prop := Relation.ReflTransGen (StepAt i)

/-- Whether the submission at one place can take no step. -/
def StillAt (w : World σ) (i : Nat) : Prop :=
  ∀ (s : Submission) (m : Move), w.submissions[i]? = some s → w.deployment.step s m = none

variable {i : Nat} {w w' : World σ}

theorem StepAt.step (h : StepAt i w w') (admits : Submission → Prop) : Step admits w w' := by
  cases h with
  | move present step => exact .move present step

theorem StepAt.totalEffort_lt (h : StepAt i w w') :
    totalEffort w'.deployment.servers.length w'.submissions <
      totalEffort w.deployment.servers.length w.submissions := by
  cases h with
  | move present step =>
    obtain ⟨servers, less⟩ := Deployment.effort_step step
    rw [servers]
    exact totalEffort_set_lt present less

theorem exists_stepAt (h : ¬w.StillAt i) : ∃ w', StepAt i w w' := by
  simp only [StillAt, not_forall] at h
  obtain ⟨s, m, present, moves⟩ := h
  obtain ⟨⟨d', s'⟩, step⟩ := Option.ne_none_iff_exists'.1 moves
  exact ⟨_, .move present step⟩

/-- Without more submissions no run goes on for ever. -/
theorem wellFounded_step : WellFounded fun w' w : World σ => Step (fun _ => False) w w' := by
  refine Subrelation.wf (fun {w' w} step => ?_)
    (measure fun w : World σ => totalEffort w.deployment.servers.length w.submissions).wf
  cases step with
  | arrive _ admitted => exact admitted.elim
  | move present step => exact StepAt.totalEffort_lt (.move present step)

theorem exists_stillAt (w : World σ) (i : Nat) : ∃ w', ReachesAt i w w' ∧ w'.StillAt i := by
  induction w using (wellFounded_step (σ := σ)).induction with
  | _ w ih =>
    by_cases still : w.StillAt i
    · exact ⟨w, .refl, still⟩
    · obtain ⟨w₁, step⟩ := exists_stepAt still
      obtain ⟨w', reaches, still⟩ := ih w₁ (step.step _)
      exact ⟨w', .head step reaches, still⟩

theorem exists_still (admits : Submission → Prop) (w : World σ) :
    ∃ w', Reaches admits w w' ∧ w'.submissions.length = w.submissions.length ∧ w'.Still := by
  induction w using (wellFounded_step (σ := σ)).induction with
  | _ w ih =>
    by_cases still : w.Still
    · exact ⟨w, .refl, rfl, still⟩
    · obtain ⟨i, moves⟩ : ∃ i, ¬w.StillAt i := by
        by_contra stuck
        exact still fun i s m => not_exists_not.1 stuck i s m
      obtain ⟨w₁, step⟩ := exists_stepAt moves
      obtain ⟨w', reaches, length, still⟩ := ih w₁ (step.step _)
      refine ⟨w', .head (step.step admits) reaches, length.trans ?_, still⟩
      cases step
      exact List.length_set ..

end World

theorem Stage.eq_unused_of_waits {c : Call} {stage : Stage c} (h : stage.waits) :
    c = .newRequest ∧ stage.assets = 0 ∧ ¬stage.attends := by
  cases stage <;> first | exact ⟨rfl, rfl, by simp [attends]⟩ | cases h

namespace Submission

variable {σ : Type} [WordSource σ] {F : Field} {domain : CircuitDomain} {n : Nat}
  {d : Deployment σ} {s : Submission}

/-- When a submission can take no step, each of its calls is answered or waits for a checker. -/
theorem answered_or_waits (fits : Fits F domain n d.servers) (proper : s.Proper n)
    (stuck : ∀ m, d.step s m = none) {call : AnyCall} (made : call ∈ s.progress.calls) :
    (∃ answer, call.2.operation.stage = .answered answer) ∨ call.2.operation.stage.waits ∧
      ∃ slot, slotAt? d.servers call.2.peer s.leader.toNat = some slot ∧
        slot.pool.permits = 0 := by
  obtain ⟨c, call⟩ := call
  obtain ⟨await, calls, i, awaits, start, found⟩ := Progress.exists_awaits made
  have stuck := Deployment.of_step_call_eq_none awaits start found (stuck (.call i))
  have makes := proper.makes _ made
  have placed := proper.placed (by rw [start]; cases awaits <;> rfl)
  have leader : call.operation.leader = s.leader := makes.leader_eq
  have := PeerCall.of_step_eq_none fits makes.peer_lt (leader ▸ placed.1) stuck
  rwa [leader] at this

theorem proceed_eq_none (stuck : ∀ m, d.step s m = none) : s.proceed d = none := by
  by_contra moves
  obtain ⟨next, moves⟩ := Option.ne_none_iff_exists'.1 moves
  have stuck := stuck .proceed
  simp [Deployment.step, moves] at stuck

/-- A submission that can take no step has returned or waits: for its lane, for another submission
that is given its epoch or admitted, or for its calls. -/
theorem returned_or_waits (stuck : ∀ m, d.step s m = none)
    (placed : s.progress.isUnderWay → ∃ l, d.lane? s.leader = some l)
    (answered : ∀ call ∈ s.progress.calls, ∃ answer, call.2.operation.stage = .answered answer) :
    (∃ result, s.progress = .returned result) ∨ ∃ l, d.lane? s.leader = some l ∧
      (s.progress = .queued ∧ l.permits = 0 ∨ s.progress = .entered ∧ l.giving ∨
        ∃ epoch, s.progress = .draining epoch ∧ l.admissions ≠ 0) := by
  have stuck := proceed_eq_none stuck
  have answers {c : Call} {calls : List (PeerCall c)}
      (all : s.progress.calls = calls.map (Sigma.mk c)) :
      ∃ answers, PeerCall.answers? calls = some answers :=
    PeerCall.exists_answers? fun call mem =>
      answered ⟨c, call⟩ (all ▸ List.mem_map_of_mem mem)
  cases start : s.progress with
  | returned result => exact .inl ⟨result, rfl⟩
  | arrived | leaving => simp [proceed, start] at stuck
  | queued =>
    obtain ⟨l, lane⟩ := placed (by rw [start]; rfl)
    refine .inr ⟨l, lane, .inl ⟨rfl, ?_⟩⟩
    by_contra some
    obtain ⟨permits, eq⟩ := Nat.exists_eq_succ_of_ne_zero some
    simp [proceed, start, lane, Lane.enter?, eq] at stuck
  | entered =>
    obtain ⟨l, lane⟩ := placed (by rw [start]; rfl)
    refine .inr ⟨l, lane, .inr (.inl ⟨rfl, ?_⟩)⟩
    by_contra free
    simp [proceed, start, lane, Lane.startGiving?, free] at stuck
  | choosing =>
    obtain ⟨l, lane⟩ := placed (by rw [start]; rfl)
    cases due : l.dueEpoch? d.rotation with
    | some => simp [proceed, start, lane, due] at stuck
    | none =>
      obtain ⟨epoch, current⟩ := Lane.exists_epoch due
      simp [proceed, start, lane, due, current] at stuck
  | draining epoch =>
    obtain ⟨l, lane⟩ := placed (by rw [start]; rfl)
    refine .inr ⟨l, lane, .inr (.inr ⟨epoch, rfl, fun calm => ?_⟩)⟩
    simp [proceed, start, lane, calm] at stuck
  | rotating epoch calls =>
    obtain ⟨l, lane⟩ := placed (by rw [start]; rfl)
    obtain ⟨as, eq⟩ := answers (by rw [start]; rfl : s.progress.calls = calls.map (Sigma.mk _))
    simp [proceed, start, lane, eq] at stuck
  | admitting calls | evaluating calls | finalising calls | accepting calls | aborting e calls =>
    obtain ⟨as, eq⟩ := answers (by rw [start]; rfl : s.progress.calls = calls.map (Sigma.mk _))
    simp [proceed, start, eq] at stuck

end Submission

namespace World

variable {σ : Type} [WordSource σ] {F : Field} {c : Circuit} {domain : CircuitDomain}
  {n capacity : Nat} {w : World σ}

theorem Still.answered_or_waits (still : w.Still) (proper : w.Proper F domain n) {s : Submission}
    (mem : s ∈ w.submissions) {call : AnyCall} (made : call ∈ s.progress.calls) :
    (∃ answer, call.2.operation.stage = .answered answer) ∨ call.2.operation.stage.waits ∧
      ∃ slot, slotAt? w.deployment.servers call.2.peer s.leader.toNat = some slot ∧
        slot.pool.permits = 0 := by
  obtain ⟨i, present⟩ := List.mem_iff_getElem?.1 mem
  exact Submission.answered_or_waits proper.fits (proper.submissions s mem)
    (fun m => still i s m present) made

/-- While all is still no call waits for a checker: every pending request is in the care of another
submission in the lane, so that not all checkers can be pending. -/
theorem Sound.not_waits (sound : w.Sound F c domain n capacity) (still : w.Still) {s : Submission}
    (mem : s ∈ w.submissions) {call : AnyCall} (made : call ∈ s.progress.calls) :
    ¬call.2.operation.stage.waits := by
  intro waits
  obtain ⟨proper, stocked, counted, attended, -⟩ := sound
  obtain ⟨c, made'⟩ := call
  obtain ⟨rfl, -, idle⟩ := Stage.eq_unused_of_waits waits
  obtain ⟨calls, start, listed⟩ : ∃ calls, s.progress = .admitting calls ∧ made' ∈ calls := by
    obtain ⟨await, calls, i, awaits, start, found⟩ := Progress.exists_awaits made
    cases awaits
    exact ⟨calls, start, List.mem_of_getElem? found⟩
  obtain ⟨slot, found, empty⟩ : ∃ slot,
      slotAt? w.deployment.servers made'.peer s.leader.toNat = some slot ∧
        slot.pool.permits = 0 := by
    obtain ⟨answer, answered⟩ | ⟨-, slot⟩ := still.answered_or_waits proper mem made
    · rw [answered] at waits
      cases waits
    · exact slot
  have held : ∀ s' ∈ w.submissions, s'.assets made'.peer s.leader.toNat = 0 := by
    refine fun s' mem' => s'.assets_eq_zero (fun call made => ?_) _ _
    obtain ⟨answer, answered⟩ | ⟨waits, -⟩ := still.answered_or_waits proper mem' made
    · rw [answered, Stage.assets]
    · exact (Stage.eq_unused_of_waits waits).2.1
  have full := stocked.permits_add found held
  rw [empty, Nat.zero_add] at full
  have cared : slot.pending.length ≤
      census (Progress.attends made'.peer) s.leader w.submissions := by
    refine (stocked.tidy _ _ slot found).distinct.length_le_countP fun id pending => ?_
    obtain ⟨s', mem', same, leads, attends⟩ := attended _ _ slot id found pending
    exact ⟨s', mem', same, by simp [UInt64.toNat_inj.1 leads, attends]⟩
  have ordered := (proper.submissions s mem).ordered
  rw [start] at ordered
  have out : ¬s.progress.attends made'.peer := by
    intro cares
    obtain ⟨call, mem', same, attends⟩ := Progress.attends_iff.1 cares
    rw [start] at mem'
    obtain ⟨other, listed', rfl⟩ := List.mem_map.1 mem'
    have nodup : (calls.map (·.peer)).Nodup := ordered ▸ List.nodup_range
    obtain rfl := List.inj_on_of_nodup_map nodup listed' listed same
    exact idle attends
  have inside : s.progress.isInLane := by
    rw [start]
    rfl
  have more : census (Progress.attends made'.peer) s.leader w.submissions <
      census Progress.isInLane s.leader w.submissions :=
    census_lt (fun p => Progress.isInLane_of_attends) mem rfl out inside
  obtain ⟨l, lane⟩ := proper.exists_lane mem (by rw [start]; rfl)
  have count := (counted s.leader l lane).permits
  omega

/-- When all is still, whoever has not returned waits for its lane or for another submission. -/
theorem Sound.returned_or_waits (sound : w.Sound F c domain n capacity) (still : w.Still)
    {s : Submission} (mem : s ∈ w.submissions) :
    (∃ result, s.progress = .returned result) ∨ ∃ l, w.deployment.lane? s.leader = some l ∧
      (s.progress = .queued ∧ l.permits = 0 ∨ s.progress = .entered ∧ l.giving ∨
        ∃ epoch, s.progress = .draining epoch ∧ l.admissions ≠ 0) := by
  obtain ⟨i, present⟩ := List.mem_iff_getElem?.1 mem
  refine Submission.returned_or_waits (fun m => still i s m present)
    (sound.proper.exists_lane mem) fun call made => ?_
  obtain answered | ⟨waits, -⟩ := still.answered_or_waits sound.proper mem made
  · exact answered
  · exact absurd waits (sound.not_waits still mem made)

theorem Sound.not_admitted (sound : w.Sound F c domain n capacity) (still : w.Still) :
    ∀ s ∈ w.submissions, ¬s.progress.isAdmitted := by
  intro s mem admitted
  obtain ⟨_, at'⟩ | ⟨l, -, ⟨at', -⟩ | ⟨at', -⟩ | ⟨_, at', -⟩⟩ := sound.returned_or_waits still mem
  all_goals
    rw [at'] at admitted
    cases admitted

/-- Whoever is to be given an epoch gets it, or the epoch is announced. -/
theorem Sound.not_given (sound : w.Sound F c domain n capacity) (still : w.Still) :
    ∀ s ∈ w.submissions, ¬s.progress.isGiven := by
  intro s mem given
  obtain ⟨_, at'⟩ | ⟨l, lane, ⟨at', -⟩ | ⟨at', -⟩ | ⟨_, at', busy⟩⟩ :=
    sound.returned_or_waits still mem
  case inr.inr.inr =>
    apply busy
    rw [(sound.counted _ l lane).admissions, census_eq_zero (sound.not_admitted still)]
  all_goals
    rw [at'] at given
    cases given

theorem Sound.not_inLane (sound : w.Sound F c domain n capacity) (still : w.Still) :
    ∀ s ∈ w.submissions, ¬s.progress.isInLane := by
  intro s mem inLane
  obtain ⟨_, at'⟩ | ⟨l, lane, ⟨at', -⟩ | ⟨at', giving⟩ | ⟨_, at', -⟩⟩ :=
    sound.returned_or_waits still mem
  case inr.inr.inl =>
    have count := (sound.counted _ l lane).giving
    rw [giving, census_eq_zero (sound.not_given still)] at count
    cases count
  case inr.inr.inr => exact sound.not_given still s mem (by rw [at']; rfl)
  all_goals
    rw [at'] at inLane
    cases inLane

/-- When all is still, each submission has returned. -/
theorem Sound.returned (sound : w.Sound F c domain n capacity) (room : 0 < capacity)
    (still : w.Still) : ∀ s ∈ w.submissions, ∃ result, s.progress = .returned result := by
  intro s mem
  obtain returned | ⟨l, lane, ⟨-, empty⟩ | ⟨at', -⟩ | ⟨_, at', -⟩⟩ :=
    sound.returned_or_waits still mem
  · exact returned
  · have permits := (sound.counted _ l lane).permits
    rw [census_eq_zero (sound.not_inLane still)] at permits
    omega
  all_goals exact absurd (by rw [at']; rfl) (sound.not_inLane still s mem)

end World

end PrivateSums
