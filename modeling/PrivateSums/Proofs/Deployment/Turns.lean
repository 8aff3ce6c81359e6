import PrivateSums.Proofs.Deployment.Quiescence

/-!
Turns as one of the orders in which submissions can take their steps. When turns change nothing any
more no step is left at all: the moves that a turn does not try are calls that no submission makes.
-/

namespace PrivateSums

open World

namespace Submission

variable {σ : Type} {d : Deployment σ} {s : Submission}

/-- A submission calls every server once at most. -/
theorem Proceeds.length_calls_le {f : Lane → Lane} {p' : Progress} (h : s.Proceeds d f p') :
    p'.calls.length ≤ d.servers.length := by
  have each {c : Call} {messages : List (Nat × c.Message)}
      (few : messages.length ≤ d.servers.length) :
      ((s.callEach messages).map (Sigma.mk c)).length ≤ d.servers.length := by
    rwa [List.length_map, callEach, List.length_map]
  cases h with
  | give | rotated =>
    refine each ?_
    rw [List.length_zip, List.length_range]
    exact Nat.min_le_left ..
  | admissionFails =>
    refine each ?_
    rw [List.length_map]
    exact Nat.le_trans (List.length_filter_le ..) (Nat.le_of_eq List.length_range)
  | rotate | admitted | evaluationFails | evaluated | finalFails | finalised | verdictFails =>
    exact each (by rw [List.length_map, List.length_range])
  | refuse | queue | enter | choose | drain | rotationFails | decided | aborted | leave =>
    exact Nat.zero_le _

end Submission

namespace Deployment

variable {σ : Type} [WordSource σ]

section Reaches

variable {i : Nat} {submissions : List Submission} {d : Deployment σ} {s : Submission}

theorem reachesAt_step {d' : Deployment σ} {s' : Submission} {m : Move}
    (present : submissions[i]? = some s) (h : d.step s m = some (d', s')) :
    ReachesAt i ⟨d, submissions⟩ ⟨d', submissions.set i s'⟩ ∧
      (submissions.set i s')[i]? = some s' := by
  obtain ⟨here, -⟩ := List.getElem?_eq_some_iff.1 present
  exact ⟨.single (.move present h), List.getElem?_set_self here⟩

theorem set_of_present (present : submissions[i]? = some s) :
    submissions.set i s = submissions := by
  obtain ⟨here, rfl⟩ := List.getElem?_eq_some_iff.1 present
  exact List.set_getElem_self here

theorem reachesAt_compute (present : submissions[i]? = some s) (calls : List Nat) :
    ReachesAt i ⟨d, submissions⟩
      ⟨(d.compute s calls).1, submissions.set i (d.compute s calls).2⟩ := by
  fun_induction compute d s calls generalizing submissions with
  | case1 d s => rw [set_of_present present]
  | case2 d s j rest _ _ ih => exact ih present
  | case3 d s j rest _ d' s' h ih =>
    obtain ⟨reaches, there⟩ := reachesAt_step present h
    have later := ih there
    rw [List.set_set] at later
    exact reaches.trans later
  | case4 d s j rest _ ih => exact ih present

theorem reachesAt_advance (present : submissions[i]? = some s) :
    ReachesAt i ⟨d, submissions⟩ ⟨(d.advance s).1, submissions.set i (d.advance s).2⟩ := by
  fun_induction advance d s generalizing submissions with
  | case1 d s => rw [set_of_present present]
  | case2 d s d' s' h ih =>
    obtain ⟨m, -, step⟩ := List.exists_of_findSome?_eq_some h
    obtain ⟨reaches, there⟩ := reachesAt_step present step
    have later := ih there
    rw [List.set_set] at later
    exact reaches.trans later

variable (d)

/-- A turn of some submissions is a run of the deployment, whatever the others are. -/
theorem reaches_turn (admits : Submission → Prop) (before submissions : List Submission) :
    Reaches admits ⟨d, before ++ submissions⟩
      ⟨(d.turn submissions).1, before ++ (d.turn submissions).2⟩ := by
  induction submissions generalizing d before with
  | nil => exact .refl
  | cons s rest ih =>
    have put (s s' : Submission) :
        (before ++ s :: rest).set before.length s' = before ++ s' :: rest := by simp
    have here (s : Submission) : (before ++ s :: rest)[before.length]? = some s := by simp
    have computed := reachesAt_compute (d := d) (here s) (List.range d.servers.length)
    rw [put] at computed
    simp only [turn]
    generalize d.compute s (List.range d.servers.length) = next at *
    have advanced := reachesAt_advance (d := next.1) (here next.2)
    rw [put] at advanced
    have later := ih (next.1.advance next.2).1 (before ++ [(next.1.advance next.2).2])
    simp only [List.append_assoc, List.singleton_append] at later
    exact .trans (Relation.ReflTransGen.mono (fun _ _ h => h.step admits) _ _
      (computed.trans advanced)) later

/-- So is the whole schedule. -/
theorem reaches_run (admits : Submission → Prop) (submissions : List Submission) :
    Reaches admits ⟨d, submissions⟩ ⟨(d.run submissions).1, (d.run submissions).2⟩ := by
  fun_induction run d submissions with
  | case1 d submissions next less ih => exact (reaches_turn d admits [] submissions).trans ih
  | case2 d submissions next => exact reaches_turn d admits [] submissions

end Reaches

section Still

variable {d d' : Deployment σ} {s s' : Submission} {next : Deployment σ × Submission}

omit [WordSource σ] in
/-- There is no way back once a step was taken. -/
theorem Eases.ne (eases : d'.Eases s' next) (servers : d'.servers.length = d.servers.length)
    (less : s'.progress.effort d.servers.length < s.progress.effort d.servers.length) :
    next ≠ (d, s) := by
  rintro rfl
  obtain back | ⟨-, lesser⟩ := eases
  · rw [(Prod.mk.inj back).2] at less
    exact Nat.lt_irrefl _ less
  · rw [servers] at lesser
    exact Nat.lt_irrefl _ (Nat.lt_trans lesser less)

/-- A turn that changes nothing found no computation to do and no other step to take. -/
theorem of_turn_eq {submissions : List Submission} (h : d.turn submissions = (d, submissions)) :
    ∀ s ∈ submissions, d.compute s (List.range d.servers.length) = (d, s) ∧
      d.advance s = (d, s) := by
  induction submissions with
  | nil => exact fun _ mem => nomatch mem
  | cons s rest ih =>
    rw [List.forall_mem_cons]
    have computes := eases_compute d s (List.range d.servers.length)
    simp only [turn] at h
    generalize d.compute s (List.range d.servers.length) = next at *
    have advances := eases_advance next.1 next.2
    obtain ⟨left, told⟩ := Prod.mk.inj h
    obtain ⟨same, others⟩ := List.cons.inj told
    have whole : next.1.advance next.2 = (d, s) := by
      obtain eq | ⟨-, less⟩ := computes.trans advances
      · exact eq
      · exact absurd (same ▸ less) (Nat.lt_irrefl _)
    have first : next = (d, s) := by
      obtain eq | ⟨servers, less⟩ := computes
      · exact eq
      · exact absurd whole (advances.ne servers less)
    subst first
    rw [whole] at left others
    exact ⟨⟨rfl, whole⟩, ih (Prod.ext left others)⟩

theorem next?_eq_none (h : d.advance s = (d, s)) : d.next? s = none := by
  cases next : d.next? s with
  | none => rfl
  | some after =>
    obtain ⟨d', s'⟩ := after
    obtain ⟨servers, less⟩ := effort_next? next
    have goes : d.advance s = d'.advance s' := by
      rw [advance]
      split
      · cases next.symm.trans ‹_›
      · obtain ⟨rfl, rfl⟩ := Prod.mk.inj (Option.some.inj (next.symm.trans ‹_›))
        rfl
    exact absurd (goes ▸ h) ((eases_advance d' s').ne servers less)

theorem step_eq_none_of_compute {calls : List Nat} (h : d.compute s calls = (d, s)) :
    ∀ i ∈ calls, s.progress.computesAt i → d.step s (.call i) = none := by
  induction calls with
  | nil => exact fun _ mem => nomatch mem
  | cons i calls ih =>
    rw [List.forall_mem_cons]
    rw [compute] at h
    split at h
    · split at h
      · exact ⟨fun _ => ‹_›, ih h⟩
      · rename_i d' s' step
        obtain ⟨servers, less⟩ := effort_step step
        exact absurd h ((eases_compute d' s' calls).ne servers less)
    · exact ⟨fun computes => absurd computes ‹_›, ih h⟩

/-- What is left to a submission whose turn changes nothing are calls that it does not make. -/
theorem step_eq_none (few : s.progress.calls.length ≤ d.servers.length)
    (computed : d.compute s (List.range d.servers.length) = (d, s))
    (advanced : d.advance s = (d, s)) (m : Move) : d.step s m = none := by
  have tried := List.findSome?_eq_none_iff.1 (next?_eq_none advanced)
  cases m with
  | proceed => exact tried _ List.mem_cons_self
  | call i =>
    by_cases lt : i < d.servers.length
    · by_cases computes : s.progress.computesAt i
      · exact step_eq_none_of_compute computed i (List.mem_range.2 lt) computes
      · refine tried _ (List.mem_cons_of_mem _ (List.mem_map_of_mem (List.mem_filter.2 ?_)))
        exact ⟨List.mem_range.2 lt, by simpa using computes⟩
    · rw [Option.eq_none_iff_forall_ne_some]
      intro after step
      obtain ⟨⟨servers, p⟩, stepped, -⟩ := Option.bind_eq_some_iff.1 step
      obtain ⟨c, await, awaits, calls, call, -, start, present, -⟩ :=
        Progress.of_stepCall stepped
      rw [start, awaits.calls_eq, List.length_map] at few
      exact lt (Nat.lt_of_lt_of_le (List.getElem?_eq_some_iff.1 present).1 few)

end Still

end Deployment

namespace World

variable {σ : Type} [WordSource σ]

/-- Whether no submission makes more calls than there are servers. -/
def Sparse (w : World σ) : Prop :=
  ∀ s ∈ w.submissions, s.progress.calls.length ≤ w.deployment.servers.length

theorem Sparse.of_step {admits : Submission → Prop} {w w' : World σ} (sparse : w.Sparse)
    (h : Step admits w w') : w'.Sparse := by
  cases h with
  | @arrive s start admitted =>
    refine List.forall_mem_append.2 ⟨sparse, ?_⟩
    simp [start, Progress.calls]
  | @move i s s' m d present step =>
    have servers := (Deployment.effort_step step).1
    intro other mem
    dsimp only at mem ⊢
    rw [servers]
    obtain mem | rfl := List.mem_or_eq_of_mem_set mem
    · exact sparse other mem
    cases m with
    | proceed =>
      obtain ⟨⟨d', p'⟩, proceed, h⟩ := Option.bind_eq_some_iff.1 step
      obtain ⟨rfl, rfl⟩ := Prod.mk.inj (Option.some.inj h)
      obtain ⟨f, proceeds, -⟩ := Submission.proceeds_of_proceed proceed
      exact proceeds.length_calls_le
    | call i =>
      obtain ⟨⟨servers', p'⟩, stepped, h⟩ := Option.bind_eq_some_iff.1 step
      obtain ⟨rfl, rfl⟩ := Prod.mk.inj (Option.some.inj h)
      obtain ⟨c, await, awaits, calls, call, call', start, -, -, rfl⟩ :=
        Progress.of_stepCall stepped
      have before := sparse s (List.mem_of_getElem? present)
      rw [start, awaits.calls_eq, List.length_map] at before
      rwa [awaits.calls_eq, List.length_map, List.length_set]

theorem Sparse.of_reaches {admits : Submission → Prop} {w w' : World σ} (sparse : w.Sparse)
    (h : Reaches admits w w') : w'.Sparse := by
  induction h with
  | refl => exact sparse
  | tail _ step ih => exact ih.of_step step

/-- When the turns are over no submission can take a step. -/
theorem still_run {d : Deployment σ} {submissions : List Submission}
    (arrived : ∀ s ∈ submissions, s.progress = .arrived) :
    Still ⟨(d.run submissions).1, (d.run submissions).2⟩ := by
  have sparse : Sparse ⟨d, submissions⟩ := by
    intro s mem
    rw [arrived s mem]
    exact Nat.zero_le _
  have sparse := sparse.of_reaches (d.reaches_run (fun _ => False) submissions)
  have ended := Deployment.of_turn_eq (d.turn_run submissions)
  intro i s m present
  have mem := List.mem_of_getElem? present
  obtain ⟨computed, advanced⟩ := ended s mem
  exact Deployment.step_eq_none (sparse s mem) computed advanced m

end World

end PrivateSums
