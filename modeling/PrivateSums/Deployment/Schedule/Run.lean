import PrivateSums.Deployment.Schedule.Basic

/-!
Submissions that run in turns, until each has returned or waits for ever. On its turn a submission
has the computations done that it waits for, and then goes on to the next ones or until it waits for
another submission. The effort that is left falls with every step, so that this comes to an end.
-/

namespace PrivateSums

/-- What all submissions have left. -/
def totalEffort (servers : Nat) : List Submission → Nat
  | [] => 0
  | s :: submissions => s.progress.effort servers + totalEffort servers submissions

namespace PeerCall

variable {c : Call}

theorem remaining_start_le (network : Network) (peer : Nat) (message : c.Message) :
    (start network peer message).remaining ≤ 8 := by
  simp only [start, remaining]
  split <;> simp [Stage.remaining]

theorem remaining_step {servers servers' : List Server} {call call' : PeerCall c}
    (h : call.step servers = some (servers', call')) :
    servers'.length = servers.length ∧ call'.remaining < call.remaining := by
  obtain ⟨server, -, h⟩ := Option.bind_eq_some_iff.1 h
  obtain ⟨⟨server', operation⟩, hs, h⟩ := Option.bind_eq_some_iff.1 h
  obtain ⟨rfl, rfl⟩ := Prod.mk.inj (Option.some.inj h)
  exact ⟨List.length_set, Server.remaining_step hs⟩

theorem totalRemaining_set_lt {calls : List (PeerCall c)} {i : Nat} {call call' : PeerCall c}
    (h : calls[i]? = some call) (hr : call'.remaining < call.remaining) :
    totalRemaining (calls.set i call') < totalRemaining calls := by
  induction calls generalizing i with
  | nil => simp at h
  | cons first calls ih =>
    cases i with
    | zero =>
      obtain rfl : first = call := by simpa using h
      exact Nat.add_lt_add_right hr _
    | succ i => exact Nat.add_lt_add_left (ih (by simpa using h)) _

theorem remaining_stepAt {servers servers' : List Server} {calls calls' : List (PeerCall c)}
    {i : Nat} (h : stepAt servers calls i = some (servers', calls')) :
    servers'.length = servers.length ∧
      totalRemaining calls' < totalRemaining calls := by
  obtain ⟨call, hc, h⟩ := Option.bind_eq_some_iff.1 h
  obtain ⟨⟨servers'', call'⟩, hs, h⟩ := Option.bind_eq_some_iff.1 h
  obtain ⟨rfl, rfl⟩ := Prod.mk.inj (Option.some.inj h)
  exact ⟨(remaining_step hs).1, totalRemaining_set_lt hc (remaining_step hs).2⟩

end PeerCall

namespace Progress

theorem stepCall_effort {servers servers' : List Server} {i : Nat} {p p' : Progress}
    (h : p.stepCall servers i = some (servers', p')) (n : Nat) :
    servers'.length = servers.length ∧ p'.effort n < p.effort n := by
  cases p <;> simp only [stepCall, reduceCtorEq] at h
  all_goals
    obtain ⟨⟨servers'', calls'⟩, hs, h⟩ := Option.bind_eq_some_iff.1 h
    obtain ⟨rfl, rfl⟩ := Prod.mk.inj (Option.some.inj h)
    obtain ⟨hl, hr⟩ := PeerCall.remaining_stepAt hs
    exact ⟨hl, Nat.add_lt_add_left hr _⟩

end Progress

/-- What a step of a submission itself leads to: the same servers, a later stage, and at most one
call to each server. -/
structure Advances {σ : Type} (servers : List Server) (rank : Nat)
    (next : Deployment σ × Progress) : Prop where
  servers_eq : next.1.servers = servers
  rank_le : next.2.rank ≤ rank
  pendingSteps_le : next.2.pendingSteps ≤ 8 * servers.length

theorem Advances.mono {σ : Type} {servers : List Server} {rank rank' : Nat}
    {next : Deployment σ × Progress} (h : Advances servers rank next) (hr : rank ≤ rank') :
    Advances servers rank' next :=
  ⟨h.servers_eq, Nat.le_trans h.rank_le hr, h.pendingSteps_le⟩

namespace Deployment

variable {σ : Type}

theorem remaining_broadcast_le (d : Deployment σ) (network : Network) {c : Call}
    (messages : List (Nat × c.Message)) :
    PeerCall.totalRemaining (d.broadcast network messages).2 ≤ 8 * messages.length := by
  simp only [broadcast]
  induction messages with
  | nil => exact Nat.le_refl 0
  | cons m ms ih =>
    have := PeerCall.remaining_start_le network m.1 m.2
    simp only [List.map_cons, List.length_cons, PeerCall.totalRemaining]
    omega

theorem remaining_broadcastAll_le (d : Deployment σ) (network : Network) {c : Call}
    (message : c.Message) :
    PeerCall.totalRemaining (d.broadcastAll network message).2 ≤ 8 * d.servers.length := by
  simpa [broadcastAll] using
    d.remaining_broadcast_le network ((List.range d.servers.length).map (·, message))

end Deployment

namespace Submission

variable {σ : Type} (d : Deployment σ) (s : Submission)

theorem advances_handOut (l : Lane) (epoch : UInt64) :
    Advances d.servers 6 (s.handOut d l epoch) where
  servers_eq := rfl
  rank_le := Nat.le_refl 6
  pendingSteps_le := by
    refine Nat.le_trans ((d.setLane s.leader l.give).remaining_broadcast_le ..) ?_
    simp only [List.length_zip, List.length_range]
    omega

theorem advances_withdraw {peers : List Nat} (h : peers.length ≤ d.servers.length)
    (e : ServerError) : Advances d.servers 2 (s.withdraw d peers e) where
  servers_eq := rfl
  rank_le := Nat.le_refl 2
  pendingSteps_le := by
    refine Nat.le_trans (d.remaining_broadcast_le ..) ?_
    simpa using Nat.mul_le_mul_left 8 h

theorem advances_withdrawAll (e : ServerError) : Advances d.servers 2 (s.withdrawAll d e) :=
  advances_withdraw d s (by simp) e

theorem advances_calm (p : Progress) (h : p.pendingSteps = 0) : Advances d.servers p.rank (d, p) :=
  ⟨rfl, Nat.le_refl _, h ▸ Nat.zero_le _⟩

theorem advances_afterRotation (l : Lane) (epoch : UInt64)
    (answers : List (Except ServerError Unit)) :
    Advances d.servers 6 (s.afterRotation d l epoch answers) := by
  unfold afterRotation
  split
  · exact (advances_calm (d.setLane s.leader l.stopGiving) (.leaving _) rfl).mono
      (by simp [Progress.rank])
  · exact advances_handOut d s _ epoch

theorem advances_afterAdmission (answers : List (Except ServerError Unit)) :
    Advances d.servers 5 (s.afterAdmission d answers) := by
  unfold afterAdmission
  dsimp only
  split
  · refine (advances_withdraw (d.onLane s.leader Lane.endAdmission) s ?_ _).mono (by decide)
    exact Nat.le_trans (List.length_filter_le ..) (Nat.le_of_eq List.length_range)
  · exact ⟨rfl, Nat.le_refl 5,
      (d.onLane s.leader Lane.endAdmission).remaining_broadcastAll_le s.network _⟩

theorem advances_afterFinal (answers : List (Except ServerError OutShare)) :
    Advances d.servers 3 (s.afterFinal d answers) := by
  unfold afterFinal
  split
  · exact (advances_withdrawAll d s _).mono (by decide)
  · exact ⟨rfl, Nat.le_refl 3, d.remaining_broadcastAll_le s.network _⟩

theorem advances_afterAccept (answers : List (Except ServerError AcceptReply)) :
    Advances d.servers 2 (s.afterAccept d answers) := by
  unfold afterAccept
  split
  · exact advances_withdrawAll d s _
  · exact (advances_calm d (.leaving _) rfl).mono (by simp [Progress.rank])

variable [WordSource σ]

theorem advances_rotate (epoch : UInt64) : Advances d.servers 7 (s.rotate d epoch) where
  servers_eq := rfl
  rank_le := Nat.le_refl 7
  pendingSteps_le :=
    (d.draw (EvaluationPoint.randomArgument d.field d.size)).2.remaining_broadcastAll_le s.network _

theorem advances_afterEvaluation (answers : List (Except ServerError CorShare)) :
    Advances d.servers 4 (s.afterEvaluation d answers) := by
  unfold afterEvaluation
  split
  · exact (advances_withdrawAll d s _).mono (by decide)
  · exact ⟨rfl, Nat.le_refl 4, (d.draw Random.key).2.remaining_broadcastAll_le s.network _⟩

variable {d s}

theorem advances_proceed {next : Deployment σ × Progress} (h : s.proceed d = some next) :
    ∃ rank < s.progress.rank, Advances d.servers rank next := by
  unfold proceed at h
  split at h <;> rename_i hp <;> rw [hp]
  · obtain rfl := Option.some.inj h
    split
    · exact ⟨0, by decide, advances_calm d (.returned _) rfl⟩
    · exact ⟨11, by decide, advances_calm d .queued rfl⟩
  · obtain ⟨l, -, h⟩ := Option.bind_eq_some_iff.1 h
    obtain ⟨l, -, h⟩ := Option.bind_eq_some_iff.1 h
    obtain rfl := Option.some.inj h
    exact ⟨10, by decide, advances_calm (d.setLane s.leader l) .entered rfl⟩
  · obtain ⟨l, -, h⟩ := Option.bind_eq_some_iff.1 h
    obtain ⟨l, -, h⟩ := Option.bind_eq_some_iff.1 h
    obtain rfl := Option.some.inj h
    exact ⟨9, by decide, advances_calm (d.setLane s.leader l) .choosing rfl⟩
  · obtain ⟨l, -, h⟩ := Option.bind_eq_some_iff.1 h
    split at h
    · obtain rfl := Option.some.inj h
      exact ⟨8, by decide, advances_calm d (.draining _) rfl⟩
    · obtain ⟨epoch, -, h⟩ := Option.bind_eq_some_iff.1 h
      obtain rfl := Option.some.inj h
      exact ⟨6, by decide, advances_handOut d s l epoch⟩
  · obtain ⟨l, -, h⟩ := Option.bind_eq_some_iff.1 h
    obtain ⟨_, -, h⟩ := Option.bind_eq_some_iff.1 h
    obtain rfl := Option.some.inj h
    exact ⟨7, by simp [Progress.rank], advances_rotate d s _⟩
  · obtain ⟨l, -, h⟩ := Option.bind_eq_some_iff.1 h
    obtain ⟨answers, -, h⟩ := Option.bind_eq_some_iff.1 h
    obtain rfl := Option.some.inj h
    exact ⟨6, by simp [Progress.rank], advances_afterRotation d s l _ answers⟩
  · obtain ⟨answers, -, h⟩ := Option.bind_eq_some_iff.1 h
    obtain rfl := Option.some.inj h
    exact ⟨5, by simp [Progress.rank], advances_afterAdmission d s answers⟩
  · obtain ⟨answers, -, h⟩ := Option.bind_eq_some_iff.1 h
    obtain rfl := Option.some.inj h
    exact ⟨4, by simp [Progress.rank], advances_afterEvaluation d s answers⟩
  · obtain ⟨answers, -, h⟩ := Option.bind_eq_some_iff.1 h
    obtain rfl := Option.some.inj h
    exact ⟨3, by simp [Progress.rank], advances_afterFinal d s answers⟩
  · obtain ⟨answers, -, h⟩ := Option.bind_eq_some_iff.1 h
    obtain rfl := Option.some.inj h
    exact ⟨2, by simp [Progress.rank], advances_afterAccept d s answers⟩
  · obtain ⟨answers, -, h⟩ := Option.bind_eq_some_iff.1 h
    obtain rfl := Option.some.inj h
    exact ⟨1, by simp [Progress.rank], advances_calm d (.leaving _) rfl⟩
  · obtain rfl := Option.some.inj h
    exact ⟨0, by simp [Progress.rank],
      advances_calm (d.onLane s.leader Lane.leave) (.returned _) rfl⟩
  · exact absurd h (by simp)

end Submission

namespace Deployment

variable {σ : Type} [WordSource σ]

/-- A step keeps the number of servers and lowers the effort that is left. -/
theorem effort_step {d d' : Deployment σ} {s s' : Submission} {m : Move}
    (h : d.step s m = some (d', s')) :
    d'.servers.length = d.servers.length ∧
      s'.progress.effort d.servers.length < s.progress.effort d.servers.length := by
  cases m with
  | call i =>
    obtain ⟨⟨servers, p⟩, hs, h⟩ := Option.bind_eq_some_iff.1 h
    obtain ⟨rfl, rfl⟩ := Prod.mk.inj (Option.some.inj h)
    exact Progress.stepCall_effort hs _
  | proceed =>
    obtain ⟨⟨d'', p⟩, hs, h⟩ := Option.bind_eq_some_iff.1 h
    obtain ⟨rfl, rfl⟩ := Prod.mk.inj (Option.some.inj h)
    obtain ⟨rank, hr, ha⟩ := Submission.advances_proceed hs
    refine ⟨congrArg List.length ha.servers_eq, ?_⟩
    have := Nat.mul_le_mul_right (8 * d.servers.length + 1)
      (Nat.le_trans (Nat.succ_le_succ ha.rank_le) hr)
    have := ha.pendingSteps_le
    simp only [Progress.effort, Nat.succ_mul] at *
    omega

/-- The first step that a submission can take without a computation: its own, else that of its first
call that has one. -/
def next? (d : Deployment σ) (s : Submission) : Option (Deployment σ × Submission) :=
  let calls := (List.range d.servers.length).filter fun i => !s.progress.computesAt i
  (.proceed :: calls.map .call).findSome? (d.step s)

theorem effort_next? {d d' : Deployment σ} {s s' : Submission} (h : d.next? s = some (d', s')) :
    d'.servers.length = d.servers.length ∧
      s'.progress.effort d.servers.length < s.progress.effort d.servers.length := by
  obtain ⟨m, -, h⟩ := List.exists_of_findSome?_eq_some h
  exact effort_step h

/-- Takes a submission on until it waits, be it for a computation. -/
def advance (d : Deployment σ) (s : Submission) : Deployment σ × Submission :=
  match _h : d.next? s with
  | none => (d, s)
  | some (d', s') => d'.advance s'
termination_by s.progress.effort d.servers.length
decreasing_by
  obtain ⟨hl, he⟩ := effort_next? _h
  rwa [hl]

/-- Does the computations among some calls that a submission waits for. -/
def compute (d : Deployment σ) (s : Submission) : List Nat → Deployment σ × Submission
  | [] => (d, s)
  | i :: rest =>
    if s.progress.computesAt i then
      match d.step s (.call i) with
      | none => d.compute s rest
      | some (d, s) => d.compute s rest
    else d.compute s rest

/-- The turn of every submission, in order. -/
def turn (d : Deployment σ) : List Submission → Deployment σ × List Submission
  | [] => (d, [])
  | s :: rest =>
    let (d, s) := d.compute s (List.range d.servers.length)
    let (d, s) := d.advance s
    let (d, rest) := d.turn rest
    (d, s :: rest)

/-- Either nothing has happened, or steps were taken that left less effort. -/
def Eases (d : Deployment σ) (s : Submission) (next : Deployment σ × Submission) : Prop :=
  next = (d, s) ∨ (next.1.servers.length = d.servers.length ∧
    next.2.progress.effort d.servers.length < s.progress.effort d.servers.length)

omit [WordSource σ] in
theorem Eases.trans {d d' : Deployment σ} {s s' : Submission} {last : Deployment σ × Submission}
    (first : d.Eases s (d', s')) (second : d'.Eases s' last) : d.Eases s last := by
  obtain h | ⟨hl, he⟩ := first
  · obtain ⟨rfl, rfl⟩ := Prod.mk.inj h
    exact second
  · obtain rfl | ⟨hl', he'⟩ := second
    · exact .inr ⟨hl, he⟩
    · exact .inr ⟨hl'.trans hl, Nat.lt_trans (hl ▸ he') he⟩

theorem eases_advance (d : Deployment σ) (s : Submission) : d.Eases s (d.advance s) := by
  fun_induction advance d s with
  | case1 => exact .inl rfl
  | case2 _ _ _ _ h ih => exact Eases.trans (.inr (effort_next? h)) ih

theorem eases_compute (d : Deployment σ) (s : Submission) (calls : List Nat) :
    d.Eases s (d.compute s calls) := by
  fun_induction compute d s calls with
  | case1 => exact .inl rfl
  | case2 _ _ _ _ _ _ ih => exact ih
  | case3 _ _ _ _ _ _ _ h ih => exact Eases.trans (.inr (effort_step h)) ih
  | case4 _ _ _ _ _ ih => exact ih

/-- A turn that leaves the effort as it is took no step. -/
theorem turn_eq_or_lt (d : Deployment σ) (submissions : List Submission) :
    d.turn submissions = (d, submissions) ∨
      ((d.turn submissions).1.servers.length = d.servers.length ∧
        totalEffort d.servers.length (d.turn submissions).2 <
          totalEffort d.servers.length submissions) := by
  induction submissions generalizing d with
  | nil => exact .inl rfl
  | cons s rest ih =>
    have eases := (eases_compute d s (List.range d.servers.length)).trans
      (eases_advance (d.compute s (List.range d.servers.length)).1 _)
    simp only [turn, totalEffort]
    generalize (d.compute s (List.range d.servers.length)).1.advance _ = next at *
    obtain rfl | ⟨hl, he⟩ := eases
    · obtain h | ⟨hl, he⟩ := ih d
      · exact .inl (by simp [h])
      · exact .inr ⟨hl, Nat.add_lt_add_left he _⟩
    · obtain h | ⟨hl', he'⟩ := ih next.1
      · exact .inr ⟨by simp [h, hl], by simpa [h] using he⟩
      · rw [hl] at hl' he'
        exact .inr ⟨hl', Nat.add_lt_add he he'⟩

/-- Takes submissions as far as they go with no others under way. -/
def run (d : Deployment σ) (submissions : List Submission) : Deployment σ × List Submission :=
  let next := d.turn submissions
  if totalEffort next.1.servers.length next.2 < totalEffort d.servers.length submissions then
    next.1.run next.2
  else next
termination_by totalEffort d.servers.length submissions

/-- Nothing is left that a turn could do. -/
theorem turn_run (d : Deployment σ) (submissions : List Submission) :
    (d.run submissions).1.turn (d.run submissions).2 = d.run submissions := by
  by_cases less : totalEffort (d.turn submissions).1.servers.length (d.turn submissions).2 <
      totalEffort d.servers.length submissions
  · have : d.run submissions = (d.turn submissions).1.run (d.turn submissions).2 := by
      rw [run, if_pos less]
    rw [this]
    exact turn_run ..
  · have last : d.run submissions = d.turn submissions := by rw [run, if_neg less]
    obtain still | ⟨hl, he⟩ := d.turn_eq_or_lt submissions
    · rw [last, still, still]
    · exact absurd (hl.symm ▸ he) less
termination_by totalEffort d.servers.length submissions

/-- Runs submissions to their results; none when one would wait for ever. -/
def submitAll? (d : Deployment σ) (submissions : List Submission) :
    Option (List (Except ServerError Verdict) × Deployment σ) :=
  let (d, submissions) := d.run submissions
  (submissions.mapM Submission.result?).map (·, d)

end Deployment

end PrivateSums
