import Mathlib.Data.Finset.Card
import PrivateSums.Proofs.Deployment.Binding

/-!
What a lane allots in a run. An epoch is handed out to as many submissions as may share it, and a
lane commits to ascending epochs: when it does all servers have the new point, and they had an
older one before.
-/

namespace PrivateSums

/-- The calls that hand a request out, in server order, while the answers are awaited. -/
def Progress.admission : Progress → List (PeerCall .newRequest)
  | admitting calls => calls
  | _ => []

theorem Progress.isAdmitted_of_mem_admission {p : Progress} {call : PeerCall .newRequest}
    (mem : call ∈ p.admission) : p.isAdmitted := by
  cases p <;> first | rfl | cases mem

theorem Progress.isUnderWay_of_isAdmitted {p : Progress} (admitted : p.isAdmitted) :
    p.isUnderWay := by
  cases p <;> first | rfl | cases admitted

namespace World

variable {σ : Type}

/-- Whether a submission is handed out under an epoch of its leader. -/
def Hands (leader epoch : UInt64) (i : Nat) (w : World σ) : Prop :=
  ∃ s : Submission, w.submissions[i]? = some s ∧ s.leader = leader ∧
    ∃ call ∈ s.progress.admission, call.operation.message.epoch = epoch

/-- Whether a submission is done with a rotation, and goes on under the epoch. -/
def Commits (leader epoch : UInt64) (before now : World σ) : Prop :=
  ∃ (i : Nat) (s s' : Submission) (calls : List (PeerCall .changePoint)),
    before.submissions[i]? = some s ∧ now.submissions[i]? = some s' ∧ s.leader = leader ∧
    s.progress = .rotating epoch calls ∧ s'.progress.isAdmitted

section Set

variable {w : World σ} {d' : Deployment σ} {leader epoch : UInt64} {i j : Nat} {s : Submission}
  {p' : Progress}

theorem Hands.of_set
    (h : Hands leader epoch j ⟨d', w.submissions.set i { s with progress := p' }⟩) :
    w.Hands leader epoch j ∨ j = i ∧ s.leader = leader ∧
      ∃ call ∈ p'.admission, call.operation.message.epoch = epoch := by
  obtain ⟨s', there, leads, call, mem, asks⟩ := h
  rw [List.getElem?_set] at there
  split at there
  · rename_i eq
    split at there
    · obtain rfl := Option.some.inj there
      exact .inr ⟨eq.symm, leads, call, mem, asks⟩
    · cases there
  · exact .inl ⟨s', there, leads, call, mem, asks⟩

theorem Commits.of_set (present : w.submissions[i]? = some s)
    (h : Commits leader epoch w ⟨d', w.submissions.set i { s with progress := p' }⟩) :
    s.leader = leader ∧ ∃ calls, s.progress = .rotating epoch calls ∧ p'.isAdmitted := by
  obtain ⟨j, s₀, s', calls, before, now, leads, turning, admitted⟩ := h
  dsimp only at now
  rw [List.getElem?_set] at now
  split at now
  · rename_i eq
    subst eq
    obtain rfl := Option.some.inj (present.symm.trans before)
    split at now
    · obtain rfl := Option.some.inj now
      exact ⟨leads, calls, turning, admitted⟩
    · cases now
  · obtain rfl := Option.some.inj (now.symm.trans before)
    rw [turning] at admitted
    cases admitted

end Set

end World

/-- What a lane gives out in a step, to which submission, and the epoch it commits to. -/
inductive Lane.Gives (rotation : Nat) (l l' : Lane) : Option (UInt64 × Nat) → Option UInt64 → Prop
  | nothing (epoch_eq : l'.epoch = l.epoch) (given_eq : l'.given = l.given) :
      Gives rotation l l' none none
  | again {epoch : UInt64} (i : Nat) (current : l.epoch = some epoch)
      (kept : l'.epoch = some epoch) (given_eq : l'.given = l.given + 1)
      (room : l.given < rotation) : Gives rotation l l' (some (epoch, i)) none
  | anew {epoch : UInt64} (i : Nat) (newer : ∀ current, l.epoch = some current → current < epoch)
      (current : l'.epoch = some epoch) (given_eq : l'.given = 1) :
      Gives rotation l l' (some (epoch, i)) (some epoch)

theorem Lane.given_lt_of_dueEpoch? {l : Lane} {rotation : Nat} (h : l.dueEpoch? rotation = none) :
    l.given < rotation := by
  unfold dueEpoch? at h
  split at h
  · cases h
  · split at h
    · cases h
    · omega
/-- What a lane has given out, to which submissions, and the epochs it has committed to. -/
structure Lane.Tally (rotation : Nat) (l : Lane) (handed : UInt64 → Nat → Prop)
    (committed : UInt64 → Prop) : Prop where
  within : l.given ≤ rotation
  handed_le : ∀ epoch i, handed epoch i → ∃ current, l.epoch = some current ∧ epoch ≤ current
  committed_le : ∀ epoch, committed epoch → ∃ current, l.epoch = some current ∧ epoch ≤ current
  share : ∀ epoch (S : Finset Nat), (∀ i ∈ S, handed epoch i) → S.card ≤ rotation
  given : ∀ epoch (S : Finset Nat), l.epoch = some epoch → (∀ i ∈ S, handed epoch i) →
    S.card ≤ l.given

namespace Lane.Tally

variable {rotation : Nat} {l l' : Lane} {handed handed' : UInt64 → Nat → Prop}
  {committed committed' : UInt64 → Prop} {epoch : UInt64} {i : Nat}

theorem nothing (tally : l.Tally rotation handed committed) (epoch_eq : l'.epoch = l.epoch)
    (given_eq : l'.given = l.given) (out : ∀ e j, handed' e j → handed e j)
    (done : ∀ e, committed' e → committed e) : l'.Tally rotation handed' committed' := by
  refine ⟨given_eq ▸ tally.within, fun e j h => epoch_eq ▸ tally.handed_le e j (out e j h),
    fun e h => epoch_eq ▸ tally.committed_le e (done e h),
    fun e S each => tally.share e S fun j mem => out e j (each j mem), fun e S current each => ?_⟩
  rw [given_eq]
  exact tally.given e S (epoch_eq ▸ current) fun j mem => out e j (each j mem)

/-- Other epochs than the one that is handed out are shared by no more than before. -/
theorem share_ne (tally : l.Tally rotation handed committed)
    (out : ∀ e j, handed' e j → handed e j ∨ e = epoch ∧ j = i) {e : UInt64} (ne : e ≠ epoch)
    {S : Finset Nat} (each : ∀ j ∈ S, handed' e j) : S.card ≤ rotation :=
  tally.share e S fun j mem => (out e j (each j mem)).resolve_right fun new => ne new.1

theorem again (tally : l.Tally rotation handed committed) (current : l.epoch = some epoch)
    (kept : l'.epoch = some epoch) (given_eq : l'.given = l.given + 1) (room : l.given < rotation)
    (out : ∀ e j, handed' e j → handed e j ∨ e = epoch ∧ j = i)
    (done : ∀ e, committed' e → committed e) : l'.Tally rotation handed' committed' := by
  have within : l'.given ≤ rotation := by omega
  -- all but the new submission were handed the epoch before
  have more (S : Finset Nat) (each : ∀ j ∈ S, handed' epoch j) : S.card ≤ l'.given := by
    have erased := tally.given epoch (S.erase i) current fun j mem => by
      obtain ⟨ne, mem⟩ := Finset.mem_erase.1 mem
      exact (out epoch j (each j mem)).resolve_right fun new => ne new.2
    have := Finset.pred_card_le_card_erase (s := S) (a := i)
    omega
  refine ⟨within, fun e j h => ?_, fun e h => ?_, fun e S each => ?_, fun e S current' each => ?_⟩
  · obtain old | ⟨rfl, -⟩ := out e j h
    · rw [kept, ← current]
      exact tally.handed_le e j old
    · exact ⟨e, kept, UInt64.le_refl _⟩
  · rw [kept, ← current]
    exact tally.committed_le e (done e h)
  · by_cases same : e = epoch
    · subst same
      exact Nat.le_trans (more S each) within
    · exact tally.share_ne out same each
  · obtain rfl := Option.some.inj (current'.symm.trans kept)
    exact more S each

theorem anew (tally : l.Tally rotation handed committed) (positive : 0 < rotation)
    (newer : ∀ current, l.epoch = some current → current < epoch)
    (kept : l'.epoch = some epoch) (given_eq : l'.given = 1)
    (out : ∀ e j, handed' e j → handed e j ∨ e = epoch ∧ j = i)
    (done : ∀ e, committed' e → committed e ∨ e = epoch) :
    l'.Tally rotation handed' committed' := by
  have older {e : UInt64} (h : ∃ current, l.epoch = some current ∧ e ≤ current) : e < epoch := by
    obtain ⟨current, here, le⟩ := h
    exact UInt64.lt_of_le_of_lt le (newer current here)
  -- a new epoch was handed to nobody before
  have single (S : Finset Nat) (each : ∀ j ∈ S, handed' epoch j) : S.card ≤ 1 := by
    have at_i (j : Nat) (mem : j ∈ S) : j = i := by
      obtain old | ⟨-, eq⟩ := out epoch j (each j mem)
      · exact absurd (older (tally.handed_le epoch j old)) (UInt64.lt_irrefl _)
      · exact eq
    exact Finset.card_le_one.2 fun j mem k mem' => (at_i j mem).trans (at_i k mem').symm
  refine ⟨by omega, fun e j h => ?_, fun e h => ?_, fun e S each => ?_, fun e S current each => ?_⟩
  · obtain old | ⟨rfl, -⟩ := out e j h
    · exact ⟨epoch, kept, UInt64.le_of_lt (older (tally.handed_le e j old))⟩
    · exact ⟨e, kept, UInt64.le_refl _⟩
  · obtain old | rfl := done e h
    · exact ⟨epoch, kept, UInt64.le_of_lt (older (tally.committed_le e old))⟩
    · exact ⟨e, kept, UInt64.le_refl _⟩
  · by_cases same : e = epoch
    · subst same
      exact Nat.le_trans (single S each) positive
    · exact tally.share_ne out same each
  · obtain rfl := Option.some.inj (current.symm.trans kept)
    exact given_eq ▸ single S each

end Lane.Tally

namespace Submission

variable {σ : Type} {d : Deployment σ} {s : Submission} {f : Lane → Lane} {p' : Progress}

/-- What a submission does to its lane, if the epoch that it may rotate to is newer. -/
theorem Proceeds.gives (h : s.Proceeds d f p') (i : Nat) {l : Lane}
    (lane : d.lane? s.leader = some l)
    (newer : ∀ epoch calls, s.progress = .rotating epoch calls → p'.isAdmitted →
      ∀ current, l.epoch = some current → current < epoch) :
    ∃ handed committed, l.Gives d.rotation (f l) handed committed ∧
      (∀ call ∈ p'.admission, handed = some (call.operation.message.epoch, i)) ∧
      ∀ epoch calls, s.progress = .rotating epoch calls → p'.isAdmitted →
        committed = some epoch := by
  by_cases admitted : p'.isAdmitted
  · cases h with
    | @give l₀ epoch start lane₀ due current =>
      obtain rfl := Option.some.inj (lane₀.symm.trans lane)
      refine ⟨_, _, .again i current current rfl (Lane.given_lt_of_dueEpoch? due), ?_, ?_⟩
      · intro call mem
        rw [s.epoch_of_mem_handing mem]
      · intro _ _ turning
        cases start.symm.trans turning
    | @rotated epoch calls _ _ start =>
      refine ⟨_, _, .anew i (newer epoch calls start rfl) rfl rfl, ?_, ?_⟩
      · intro call mem
        rw [s.epoch_of_mem_handing mem]
      · intro _ _ turning _
        obtain ⟨rfl, -⟩ := Progress.rotating.inj (start.symm.trans turning)
        rfl
    | refuse | queue | enter | choose | drain | rotate | rotationFails | admissionFails | admitted
    | evaluationFails | evaluated | finalFails | finalised | verdictFails | decided | aborted
    | leave => cases admitted
  · refine ⟨none, none, ?_, ?_, fun _ _ _ admitted' => absurd admitted' admitted⟩
    · by_cases given : s.progress.isGiven
      · cases h with
        | drain | rotate | rotationFails => exact .nothing rfl rfl
        | give | rotated => exact absurd rfl admitted
        | refuse start | queue start | enter start | choose start | admissionFails start
        | admitted start | evaluationFails start | evaluated _ start | finalFails start
        | finalised start | verdictFails start | decided start | aborted start | leave start =>
          rw [start] at given
          cases given
      · exact .nothing (h.keeps given lane).epoch_eq (h.keeps given lane).given_eq
    · intro call mem
      exact absurd (Progress.isAdmitted_of_mem_admission mem) admitted

end Submission

namespace OpenWorld

variable {σ : Type} {F : Field} {c : Circuit} {domain : CircuitDomain} {n capacity rotation : Nat}

/-- All servers have the new point, and so its epoch is after the one that they had. -/
theorem Pointed.newer {w : World σ} (pointed : Pointed F domain n capacity w) {s : Submission}
    (mem : s ∈ w.submissions) {l : Lane} (lane : w.deployment.lane? s.leader = some l)
    {f : Lane → Lane} {p' : Progress} (proceeds : s.Proceeds w.deployment f p') {epoch : UInt64}
    {calls : List (PeerCall .changePoint)} (turning : s.progress = .rotating epoch calls)
    (admitted : p'.isAdmitted) {current : UInt64} (kept : l.epoch = some current) :
    current < epoch := by
  cases proceeds with
  | @rotated epoch calls _ _ start answered replied =>
    obtain ⟨rfl, rfl⟩ := Progress.rotating.inj (start.symm.trans turning)
    have proper := pointed.orderly.proper.submissions s mem
    have leader_lt := (proper.placed (by rw [start]; rfl)).1
    have ordered := proper.ordered
    rw [start] at ordered
    have rotates := pointed.announced.rotates s mem epoch calls start
    obtain ⟨x, -, newest⟩ :=
      rotates.holds pointed.orderly.proper.fits ordered answered replied
    obtain ⟨x', holds⟩ := pointed.announced.committed _ l current lane kept
    obtain ⟨slot, found⟩ := pointed.orderly.proper.fits.exists_slot leader_lt leader_lt
    have le := (holds _ slot found).le_of_ascending (pointed.ascending _ _ slot found)
      (newest _ slot found)
    obtain ⟨l', lane', due, -⟩ := rotates.due
    obtain rfl := Option.some.inj (lane'.symm.trans lane)
    rw [Lane.dueEpoch?, kept] at due
    dsimp only at due
    split at due
    · obtain rfl := Option.some.inj due
      exact UInt64.lt_of_le_of_ne le (EvaluationPoints.succ_ne current)
    · cases due
  | give start =>
    cases start.symm.trans turning
  | refuse | queue | enter | choose | drain | rotate | rotationFails | admissionFails | admitted
  | evaluationFails | evaluated | finalFails | finalised | verdictFails | decided | aborted
  | leave => cases admitted

theorem Pointed.exists_lane {w : World σ} (pointed : Pointed F domain n capacity w)
    {leader : UInt64} (leader_lt : leader.toNat < n) :
    ∃ l, w.deployment.lane? leader = some l :=
  ⟨_, List.getElem?_eq_getElem (pointed.orderly.proper.lanes_length ▸ leader_lt)⟩

/-- What a step does to a lane: what it hands out, to which submission, and what it commits to. -/
def LaneStep (leader : UInt64) (w w' : World σ) (l' : Lane) : Prop :=
  ∃ l handed committed, w.deployment.lane? leader = some l ∧
    l.Gives w.deployment.rotation l' handed committed ∧
    (∀ epoch i, w'.Hands leader epoch i → w.Hands leader epoch i ∨ handed = some (epoch, i)) ∧
    ∀ epoch, World.Commits leader epoch w w' → committed = some epoch

/-- A step that leaves lanes and admissions as they are. -/
theorem laneStep_of_lanes {w w' : World σ} (lanes : w'.deployment.lanes = w.deployment.lanes)
    (same : ∀ (i : Nat) (s' : Submission), w'.submissions[i]? = some s' → s'.progress.isAdmitted →
      ∃ s : Submission, w.submissions[i]? = some s ∧ s.leader = s'.leader ∧ s.progress.isAdmitted ∧
        ∀ call' ∈ s'.progress.admission, ∃ call ∈ s.progress.admission,
          call.operation.message = call'.operation.message)
    {leader : UInt64} {l : Lane} (lane : w'.deployment.lane? leader = some l) :
    LaneStep leader w w' l := by
  refine ⟨l, none, none, ?_, .nothing rfl rfl, ?_, ?_⟩
  · rw [← lane, Deployment.lane?, Deployment.lane?, lanes]
  · rintro epoch i ⟨s', there, leads, call', mem, asks⟩
    obtain ⟨s, here, eq, -, sent⟩ :=
      same i s' there (Progress.isAdmitted_of_mem_admission mem)
    obtain ⟨call, mem, message⟩ := sent call' mem
    exact .inl ⟨s, here, eq.trans leads, call, mem, by rw [message, asks]⟩
  · rintro epoch ⟨i, s₀, s', calls, before, now, -, turning, admitted⟩
    obtain ⟨s, here, -, admitted, -⟩ := same i s' now admitted
    obtain rfl := Option.some.inj (here.symm.trans before)
    rw [turning] at admitted
    cases admitted

theorem Pointed.laneStep_of_own {w : World σ} (pointed : Pointed F domain n capacity w) {i : Nat}
    {s : Submission} (present : w.submissions[i]? = some s) {d' : Deployment σ} {f : Lane → Lane}
    {p' : Progress} (proceeds : s.Proceeds w.deployment f p')
    (leads : Submission.Leads w.deployment d' s f) {leader : UInt64} {l' : Lane}
    (lane' : d'.lane? leader = some l') :
    LaneStep leader w ⟨d', w.submissions.set i { s with progress := p' }⟩ l' := by
  rw [leads.lane?] at lane'
  obtain ⟨l, lane, rfl⟩ := Option.map_eq_some_iff.1 lane'
  by_cases same : s.leader = leader
  · subst same
    obtain ⟨handed, committed, gives, hands, commits⟩ := proceeds.gives i lane
      fun epoch calls turning admitted current kept =>
        pointed.newer (List.mem_of_getElem? present) lane proceeds turning admitted kept
    refine ⟨l, handed, committed, lane, by rwa [if_pos rfl], fun epoch j handed' => ?_,
      fun epoch committed' => ?_⟩
    · obtain old | ⟨rfl, -, call, mem, rfl⟩ := handed'.of_set
      · exact .inl old
      · exact .inr (hands call mem)
    · obtain ⟨-, calls, turning, admitted⟩ := committed'.of_set present
      exact commits epoch calls turning admitted
  · rw [if_neg same]
    refine ⟨l, none, none, lane, .nothing rfl rfl, fun epoch j handed' => ?_,
      fun epoch committed' => absurd (committed'.of_set present).1 same⟩
    obtain old | ⟨-, leads, -⟩ := handed'.of_set
    · exact .inl old
    · exact absurd leads same

theorem laneStep_of_call {w : World σ} {i j : Nat} {s : Submission}
    (present : w.submissions[i]? = some s) {d' : Deployment σ} {c : Call}
    {await : List (PeerCall c) → Progress} {calls : List (PeerCall c)} {call : PeerCall c}
    {server : Server} {slot slot' : LeaderSlot} {stage' : Stage c}
    (moved : s.CallStep F domain w.deployment d' await calls j call server slot slot' stage')
    {leader : UInt64} {l : Lane} (lane : d'.lane? leader = some l) :
    LaneStep leader w ⟨d', w.submissions.set i
      { s with progress := await (calls.set j (call.withStage stage')) }⟩ l := by
  obtain ⟨here, -⟩ := List.getElem?_eq_some_iff.1 present
  refine laneStep_of_lanes moved.lanes_eq (fun k s' there admitted => ?_) lane
  dsimp only at there
  obtain rfl | ne := eq_or_ne i k
  · rw [List.getElem?_set_self here] at there
    obtain rfl := Option.some.inj there
    refine ⟨s, present, rfl, ?_, fun call' mem => ?_⟩
    · rw [moved.start]
      cases moved.awaits <;> first | rfl | cases admitted
    · rw [moved.start]
      cases moved.awaits with
      | admitting =>
        obtain rfl | ⟨_, -, there⟩ := of_mem_set mem
        · exact ⟨call, List.mem_of_getElem? moved.present, rfl⟩
        · exact ⟨call', List.mem_of_getElem? there, rfl⟩
      | rotating | evaluating | finalising | accepting | aborting => cases admitted
  · rw [List.getElem?_set_ne ne] at there
    exact ⟨s', there, rfl, admitted, fun call mem => ⟨call, mem, rfl⟩⟩

section Step

variable [WordSource σ] {w w' : OpenWorld σ}

theorem Pointed.laneStep (pointed : Pointed F domain n capacity w.world) (h : Step w w')
    {leader : UInt64} {l' : Lane} (lane' : w'.world.deployment.lane? leader = some l') :
    LaneStep leader w.world w'.world l' := by
  have kept (i : Nat) (s : Submission) (there : w.world.submissions[i]? = some s)
      (admitted : s.progress.isAdmitted) :
      ∃ s₀ : Submission, w.world.submissions[i]? = some s₀ ∧ s₀.leader = s.leader ∧
        s₀.progress.isAdmitted ∧ ∀ call' ∈ s.progress.admission, ∃ call ∈ s₀.progress.admission,
          call.operation.message = call'.operation.message :=
    ⟨s, there, rfl, admitted, fun call mem => ⟨call, mem, rfl⟩⟩
  cases h with
  | @own world step =>
    obtain ⟨-, next⟩ := pointed.orderly.proper.of_step step
    obtain ⟨d', submissions'⟩ := world
    obtain ⟨s, start, -, rfl, rfl⟩ | ⟨i, s, s', present, rfl, turn⟩ := next
    · refine laneStep_of_lanes ?_ (fun i s' there admitted => ?_) lane'
      · rfl
      rw [List.getElem?_append] at there
      split at there
      · exact kept i s' there admitted
      · obtain rfl := List.mem_singleton.1 (List.mem_of_getElem? there)
        rw [start] at admitted
        cases admitted
    · cases turn with
      | own proceeds leads => exact pointed.laneStep_of_own present proceeds leads lane'
      | call moved => exact laneStep_of_call present moved lane'
  | call => exact laneStep_of_lanes rfl kept lane'
  | answer => exact laneStep_of_lanes rfl kept lane'

end Step

/-- The worlds of a run, the latest first. -/
inductive Run [WordSource σ] (w₀ : OpenWorld σ) : List (OpenWorld σ) → Prop
  | start : Run w₀ [w₀]
  | step {w w' : OpenWorld σ} {past : List (OpenWorld σ)} (run : Run w₀ (w :: past))
      (step : Step w w') : Run w₀ (w' :: w :: past)

/-- Whether one of the steps of a run was of some kind. -/
def Happened (event : World σ → World σ → Prop) : List (OpenWorld σ) → Prop
  | now :: before :: past => event before.world now.world ∨ Happened event (before :: past)
  | _ => False

/-- Whether a submission was handed out under an epoch of its leader. -/
def Handed (run : List (OpenWorld σ)) (leader epoch : UInt64) (i : Nat) : Prop :=
  ∃ w ∈ run, w.world.Hands leader epoch i

theorem Happened.exists_mem {event : World σ → World σ → Prop} {run : List (OpenWorld σ)}
    (h : Happened event run) : ∃ before ∈ run, ∃ now ∈ run, event before.world now.world := by
  induction run with
  | nil => exact h.elim
  | cons now past ih =>
    cases past with
    | nil => exact h.elim
    | cons before past =>
      obtain here | earlier := h
      · exact ⟨before, by simp, now, by simp, here⟩
      · obtain ⟨before, mem, now, mem', here⟩ := ih earlier
        exact ⟨before, List.mem_cons_of_mem _ mem, now, List.mem_cons_of_mem _ mem', here⟩
section Tally

variable {leader : UInt64} {l l' : Lane} {w w' : OpenWorld σ} {past : List (OpenWorld σ)}

theorem LaneStep.handed {handed : Option (UInt64 × Nat)}
    (hands : ∀ epoch i, w'.world.Hands leader epoch i →
      w.world.Hands leader epoch i ∨ handed = some (epoch, i)) {epoch : UInt64} {i : Nat}
    (h : Handed (w' :: w :: past) leader epoch i) :
    Handed (w :: past) leader epoch i ∨ handed = some (epoch, i) := by
  obtain ⟨w₁, mem, out⟩ := h
  obtain rfl | mem := List.mem_cons.1 mem
  · obtain before | now := hands epoch i out
    · exact .inl ⟨w, List.mem_cons_self, before⟩
    · exact .inr now
  · exact .inl ⟨w₁, mem, out⟩

/-- The tally of a lane over a run. -/
abbrev Tally (rotation : Nat) (leader : UInt64) (l : Lane) (run : List (OpenWorld σ)) : Prop :=
  l.Tally rotation (Handed run leader) fun epoch => Happened (World.Commits leader epoch) run

theorem Tally.step (tally : Tally rotation leader l (w :: past)) (positive : 0 < rotation)
    {handed : Option (UInt64 × Nat)} {committed : Option UInt64}
    (gives : l.Gives rotation l' handed committed)
    (hands : ∀ epoch i, w'.world.Hands leader epoch i →
      w.world.Hands leader epoch i ∨ handed = some (epoch, i))
    (commits : ∀ epoch, World.Commits leader epoch w.world w'.world → committed = some epoch) :
    Tally rotation leader l' (w' :: w :: past) := by
  have out (epoch : UInt64) (i : Nat) (h : Handed (w' :: w :: past) leader epoch i) :=
    LaneStep.handed hands h
  have done (epoch : UInt64) (h : Happened (World.Commits leader epoch) (w' :: w :: past)) :
      Happened (World.Commits leader epoch) (w :: past) ∨ committed = some epoch :=
    h.symm.imp_right (commits epoch)
  have pair {epoch epoch' : UInt64} {i j : Nat} (eq : some (epoch', i) = some (epoch, j)) :
      epoch = epoch' ∧ j = i :=
    (Prod.mk.inj (Option.some.inj eq)).imp Eq.symm Eq.symm
  cases gives with
  | nothing epoch_eq given_eq =>
    exact tally.nothing epoch_eq given_eq
      (fun e j h => (out e j h).resolve_right (Option.some_ne_none _).symm)
      fun e h => (done e h).resolve_right (Option.some_ne_none _).symm
  | again i current kept given_eq room =>
    exact tally.again current kept given_eq room (fun e j h => (out e j h).imp_right pair)
      fun e h => (done e h).resolve_right (Option.some_ne_none _).symm
  | anew i newer kept given_eq =>
    exact tally.anew positive newer kept given_eq (fun e j h => (out e j h).imp_right pair)
      fun e h => (done e h).imp_right fun eq => (Option.some.inj eq).symm

end Tally

end OpenWorld

end PrivateSums
