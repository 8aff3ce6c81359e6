import PrivateSums.Proofs.Deployment.Level
import PrivateSums.Proofs.Deployment.Recovery
import PrivateSums.Proofs.Deployment.Service

/-!
A deployment without faults as one run of fresh checkers. Whatever it was used for before, and
whatever else it is used for meanwhile, a request comes to what fresh checkers make of it.
-/

namespace PrivateSums

theorem EvaluationPoints.Settled.exists_get? {F : Field} {domain : CircuitDomain} {epoch : UInt64}
    {last : Option Nat} {p : EvaluationPoints} (settled : p.Settled F domain (some epoch) last) :
    ∃ x, last = some x ∧ p.get? epoch = some (.ofPoint F domain x) := by
  cases settled with
  | newest current => exact ⟨_, rfl, (EvaluationPoints.Holds.newest current).get?⟩

/-- What fresh checkers refuse, they refuse as malformed. -/
theorem Checker.of_admitAll_eq_error {F : Field} {c : Circuit} {leader : Nat}
    {requests : List ClientRequest} {e : CheckerError}
    (refused : Checker.admitAll F c leader requests = .error e) :
    ∃ cause, e = .malformedRequest cause := by
  obtain ⟨r, -, fails⟩ := Answer.exists_of_mapM_eq_error refused
  exact ClientRequest.of_setRequest_eq_error fails

namespace Submission

section Proceeds

variable {σ : Type} {d d' : Deployment σ} {s : Submission} {f : Lane → Lane} {p' : Progress}

theorem Proceeds.isOver (h : s.Proceeds d f p') (ended : s.progress.isOver) : p'.isOver := by
  cases h with
  | leave => rfl
  | refuse start | queue start | enter start | choose start | drain start | give start
  | rotate _ start | rotationFails start | rotated start | admissionFails start | admitted start
  | evaluationFails start | evaluated _ start | finalFails start | finalised start
  | verdictFails start | decided start | aborted start =>
    rw [start] at ended
    cases ended

/-- The key of the second round is the one that the coordinator draws as it starts that round. -/
theorem key_of_proceed [WordSource σ] {calls : List (PeerCall .evalCircuit)} {m : FinalCircuit}
    (start : s.progress = .evaluating calls) (filled : d.servers ≠ [])
    (h : s.proceed d = some (d', .finalising (s.callThese (List.range d.servers.length) m))) :
    (d.draw Random.key).1 = m.key := by
  simp only [proceed, start] at h
  obtain ⟨answers, -, h⟩ := Option.bind_eq_some_iff.1 h
  have h := Option.some.inj h
  unfold afterEvaluation at h
  split at h
  · cases congrArg Prod.snd h
  · have sent := Progress.finalising.inj (congrArg Prod.snd h)
    simp only [Deployment.broadcastAll, Deployment.broadcast, callThese, callEach,
      List.map_map] at sent
    have first := List.map_inj_left.1 sent 0 (List.mem_range.2 (List.length_pos_iff.2 filled))
    simp only [Function.comp, PeerCall.start, PeerCall.mk.injEq, Operation.mk.injEq] at first
    rw [← first.2.2.1]

theorem key_of_step [WordSource σ] {calls : List (PeerCall .evalCircuit)} {m : FinalCircuit}
    {move : Move} (start : s.progress = .evaluating calls) (filled : d.servers ≠ [])
    (h : d.step s move = some (d',
      { s with progress := .finalising (s.callThese (List.range d.servers.length) m) })) :
    (d.draw Random.key).1 = m.key := by
  cases move with
  | proceed =>
    obtain ⟨⟨d'', p'⟩, proceed, h⟩ := Option.bind_eq_some_iff.1 h
    obtain ⟨rfl, eq⟩ := Prod.mk.inj (Option.some.inj h)
    obtain rfl : p' = _ := congrArg Submission.progress eq
    exact key_of_proceed start filled proceed
  | call i =>
    obtain ⟨⟨servers, p'⟩, stepped, h⟩ := Option.bind_eq_some_iff.1 h
    obtain ⟨-, eq⟩ := Prod.mk.inj (Option.some.inj h)
    obtain rfl : p' = _ := congrArg Submission.progress eq
    obtain ⟨kind, await, awaits, calls', call, call', start', -, -, next⟩ :=
      Progress.of_stepCall stepped
    cases awaits with
    | evaluating => cases next
    | rotating | admitting | finalising | accepting | aborting => cases start.symm.trans start'

theorem Proceeds.exists_evaluating {calls : List (PeerCall .finalCircuit)}
    (h : s.Proceeds d f (.finalising calls)) : ∃ calls, s.progress = .evaluating calls := by
  cases h with
  | evaluated _ start => exact ⟨_, start⟩

end Proceeds

/-- How far a submission is. It comes to be handed out, and from then on the servers have its
request, until it is over. -/
inductive Attempt (F : Field) (c : Circuit) (domain : CircuitDomain) (handed : Nat → Prop)
    (drawn : Key → Prop) {σ : Type} (d : Deployment σ) (s : Submission) : Prop
  | early (early : ¬s.progress.isPast)
  | served {x : Nat} {epoch : UInt64} (announced : handed x)
      (served : s.Served F c domain False drawn x epoch d)
  | ended {x : Nat} {result : Except ServerError Verdict} (announced : handed x)
      (done : s.progress = .leaving result ∨ s.progress = .returned result)
      (outcome : s.Outcome F c domain False drawn x result)

end Submission

namespace World

variable {σ : Type} {F : Field} {c : Circuit} {domain : CircuitDomain} {n capacity : Nat}

/-- What holds of all worlds that a deployment without faults comes to. -/
structure Faultless (F : Field) (c : Circuit) (domain : CircuitDomain) (n capacity : Nat)
    (w : World σ) : Prop where
  sound : w.Sound F c domain n capacity
  announced : w.Announced F domain
  level : w.Level F domain
  reliable : ∀ s ∈ w.submissions, s.network = .reliable

theorem faultless_start {rotation : Nat} {source : σ} {d : Deployment σ}
    (domainOk : CircuitDomain.ofCircuit F c = .ok domain)
    (h : Deployment.start F c n capacity rotation source = .ok d) :
    Faultless F c domain n capacity ⟨d, []⟩ :=
  ⟨sound_start domainOk h, announced_start domainOk h, level_start domainOk h, nofun⟩

section Own

variable {w : World σ} {i : Nat} {s : Submission} {d' : Deployment σ} {f : Lane → Lane}
  {p' : Progress}

/-- A request is handed out at the point that was announced last, which all servers have. -/
theorem Faultless.exists_handing (faultless : w.Faultless F c domain n capacity)
    (present : w.submissions[i]? = some s) (examined : s.examine n = .ok ())
    (proceeds : s.Proceeds w.deployment f p') (early : ¬s.progress.isPast) (past : p'.isPast) :
    ∃ x epoch, p' = .admitting (s.handing w.deployment.servers.length epoch) ∧
      lastAnnounced? s.leader w.deployment.records = some x ∧
      ∀ peer slot, slotAt? w.deployment.servers peer s.leader.toNat = some slot →
        slot.points.get? epoch = some (.ofPoint F domain x) := by
  obtain ⟨sound, announced, level, reliable⟩ := faultless
  have mem := List.mem_of_getElem? present
  obtain ⟨leads, -⟩ := Submission.examine_eq_ok examined
  have known {epoch : UInt64} (settled : ∀ peer slot,
      slotAt? w.deployment.servers peer s.leader.toNat = some slot →
        slot.points.Settled F domain (some epoch)
          (lastAnnounced? s.leader w.deployment.records)) :
      ∃ x, lastAnnounced? s.leader w.deployment.records = some x ∧
        ∀ peer slot, slotAt? w.deployment.servers peer s.leader.toNat = some slot →
          slot.points.get? epoch = some (.ofPoint F domain x) := by
    obtain ⟨slot, found⟩ := sound.proper.fits.exists_slot leads leads
    obtain ⟨x, last, -⟩ := (settled _ slot found).exists_get?
    refine ⟨x, last, fun peer slot found => ?_⟩
    obtain ⟨x', last', get⟩ := (settled peer slot found).exists_get?
    obtain rfl := Option.some.inj (last.symm.trans last')
    exact get
  cases proceeds with
  | refuse start refused =>
    rw [sound.proper.fits.length_eq, examined] at refused
    cases refused
  | @give l epoch start lane due current =>
    have calm := sound.counted.not_turning present (by rw [start]; rfl) (by rw [start]; nofun) lane
    obtain ⟨x, last, get⟩ := known (current ▸ level.settled s.leader l lane calm)
    exact ⟨x, epoch, rfl, last, get⟩
  | rotationFails start answered failed =>
    exact absurd failed
      (level.allReplies_ne_error sound mem (reliable s mem) start answered _)
  | @rotated epoch calls answers replies start answered replied =>
    obtain ⟨l, -⟩ := sound.proper.exists_lane mem (by rw [start]; rfl)
    obtain ⟨x, last, get⟩ := known (level.settled_of_turned sound announced mem (reliable s mem)
      (by rw [start]; rfl) (.rotated start answered replied) l)
    exact ⟨x, epoch, rfl, last, get⟩
  | queue | enter | choose | drain | rotate => cases past
  | admissionFails start | admitted start | evaluationFails start | evaluated _ start
  | finalFails start | finalised start | verdictFails start | decided start | aborted start
  | leave start =>
    rw [start] at early
    exact absurd rfl early

end Own

end World

namespace Submission

variable {F : Field} {c : Circuit} {domain : CircuitDomain} {k n capacity : Nat} {σ : Type}
  {w : World σ} {d' : Deployment σ} {i j : Nat} {s s' s'' : Submission} {handed : Nat → Prop}
  {drawn : Key → Prop}

/-- What has returned was handed out before. -/
theorem Attempt.of_returned {d : Deployment σ} {result : Except ServerError Verdict}
    (attempt : { s with progress := .returned result }.Attempt F c domain handed drawn d) :
    ∃ x, handed x ∧ s.Outcome F c domain False drawn x result := by
  cases attempt with
  | early early => exact absurd rfl early
  | served _ served =>
    cases served with
    | admits start | withdraws start => cases start
    | performs _ _ rounds => cases rounds
  | @ended x _ announced done outcome =>
    obtain done | done := done
    · cases done
    obtain rfl := Progress.returned.inj done
    exact ⟨x, announced, outcome.withProgress (p := s.progress)⟩

theorem Attempt.of_own {f : Lane → Lane} {p' : Progress}
    (attempt : s.Attempt F c domain handed drawn w.deployment)
    (faultless : w.Faultless F c domain n capacity) (hd : domain.Valid F k)
    (size : c.domainSize = 2 ^ k) (present : w.submissions[i]? = some s)
    (examined : s.examine n = .ok ())
    (hands : ∀ x epoch, p' = .admitting (s.handing w.deployment.servers.length epoch) →
      lastAnnounced? s.leader w.deployment.records = some x → handed x)
    (draws : ∀ key corShares, p' = .finalising
      (s.callThese (List.range w.deployment.servers.length)
        { id := s.id, leader := s.leader, corShares, key }) → drawn key)
    (proceeds : s.Proceeds w.deployment f p') (leads : Leads w.deployment d' s f) :
    { s with progress := p' }.Attempt F c domain handed drawn d' := by
  have mem := List.mem_of_getElem? present
  cases attempt with
  | early early =>
    by_cases past : p'.isPast
    · obtain ⟨x, epoch, rfl, last, known⟩ :=
        faultless.exists_handing present examined proceeds early past
      refine .served (hands x epoch rfl last) (served_handing (s := s)
        (faultless.sound.steady s mem) (leads.servers_eq ▸ known))
    · exact .early past
  | served announced served =>
    obtain next | ⟨result, rfl, outcome⟩ :=
      served.of_own faultless.sound mem hd size draws proceeds leads
    · exact .served announced next
    · exact .ended announced (.inl rfl) outcome.withProgress
  | ended announced done outcome =>
    obtain rfl := proceeds.of_done done
    exact .ended announced (.inr rfl) outcome.withProgress

section Call

variable {kind : Call} {await : List (PeerCall kind) → Progress} {calls : List (PeerCall kind)}
  {call : PeerCall kind} {server : Server} {slot slot' : LeaderSlot} {stage' : Stage kind}

theorem CallStep.not_isOver
    (moved : s.CallStep F domain w.deployment d' await calls j call server slot slot' stage') :
    ¬s.progress.isOver := by
  intro ended
  have made := moved.made
  rw [Progress.calls_eq_nil_of_isOver ended] at made
  cases made

theorem CallStep.not_attends
    (moved : s.CallStep F domain w.deployment d' await calls j call server slot slot' stage')
    (apart : (calls.map (·.peer)).Nodup) (idle : ¬call.operation.stage.attends) :
    ¬s.progress.attends call.peer := by
  intro attends
  obtain ⟨other, made, same, cares⟩ := Progress.attends_iff.1 attends
  rw [moved.start, moved.awaits.calls_eq] at made
  obtain ⟨other, listed, rfl⟩ := List.mem_map.1 made
  obtain rfl := List.inj_on_of_nodup_map apart listed (List.mem_of_getElem? moved.present) same
  exact idle cares

theorem Attempt.of_call (attempt : s.Attempt F c domain handed drawn w.deployment)
    (sound : w.Sound F c domain n capacity) (present : w.submissions[i]? = some s)
    (cleared : w.Cleared i s)
    (moved : s.CallStep F domain w.deployment d' await calls j call server slot slot' stage') :
    { s with progress := await (calls.set j (call.withStage stage')) }.Attempt F c domain handed
      drawn d' := by
  have mem := List.mem_of_getElem? present
  cases attempt with
  | early early =>
    refine .early ?_
    rw [moved.start] at early
    cases moved.awaits <;> exact early
  | served announced served =>
    refine .served announced (served.of_call sound mem moved fun taken idle pending => ?_)
    have ordered := (sound.proper.submissions s mem).ordered
    rw [moved.start] at ordered
    have apart : (calls.map (·.peer)).Nodup := by
      subst taken
      cases moved.awaits
      exact ordered ▸ List.nodup_range
    exact pending (sound.attended.find?_eq_none present cleared (moved.not_attends apart idle)
      moved.found)
  | ended announced done =>
    rw [moved.start] at done
    cases moved.awaits <;> obtain done | done := done <;> cases done

end Call

/-- What others do meanwhile is not to be noticed. -/
theorem Attempt.of_other (attempt : s.Attempt F c domain handed drawn w.deployment)
    (sound : w.Sound F c domain n capacity) (announced : w.Announced F domain)
    (present : w.submissions[i]? = some s) (cleared : w.Cleared i s) (ne : j ≠ i)
    (there : w.submissions[j]? = some s') (turn : s'.Turn F domain w.deployment d' s'') :
    s.Attempt F c domain handed drawn d' := by
  cases attempt with
  | early early => exact .early early
  | ended last done outcome => exact .ended last done outcome
  | served last served =>
    refine .served last (served.frame fun peer slot₁ found => ?_)
    cases turn with
    | own _ leads => exact ⟨slot₁, leads.servers_eq ▸ found, fun _ => rfl, fun _ => rfl⟩
    | call moved =>
      obtain ⟨slot₀, found₀, pending, points⟩ := moved.exists_slot found
      refine ⟨slot₀, found₀, fun _ => pending _ fun leads same => ?_, fun admitted => points
        fun leads => announced.ne_changePoint sound.counted (List.mem_of_getElem? present) admitted
          (List.mem_of_getElem? there) leads moved⟩
      exact moved.not_isOver (cleared j s' there ne leads.symm same.symm)

variable [WordSource σ] {admits : Submission → Prop} {w' : World σ}

theorem Attempt.of_step (attempt : s.Attempt F c domain handed drawn w.deployment)
    (faultless : w.Faultless F c domain n capacity) (hd : domain.Valid F k)
    (size : c.domainSize = 2 ^ k) (present : w.submissions[i]? = some s)
    (cleared : w.Cleared i s) (examined : s.examine n = .ok ())
    (hands : ∀ x epoch, w'.submissions[i]? =
        some { s with progress := .admitting (s.handing w'.deployment.servers.length epoch) } →
      lastAnnounced? s.leader w'.deployment.records = some x → handed x)
    (draws : ∀ key corShares calls, s.progress = .evaluating calls → w'.submissions[i]? =
        some { s with progress := .finalising (s.callThese
          (List.range w.deployment.servers.length)
          { id := s.id, leader := s.leader, corShares, key }) } →
      (w.deployment.draw Random.key).1 = key → drawn key)
    (h : World.Step admits w w') :
    ∃ p', w'.submissions[i]? = some { s with progress := p' } ∧
      { s with progress := p' }.Attempt F c domain handed drawn w'.deployment := by
  have sound := faultless.sound
  obtain ⟨here, -⟩ := List.getElem?_eq_some_iff.1 present
  cases h with
  | arrive => exact ⟨s.progress, by rw [List.getElem?_append_left here, present], attempt⟩
  | @move j s₀ s' m d' there step =>
    obtain ⟨turn, -⟩ := turn_of_step sound.proper.fits
      (sound.proper.submissions s₀ (List.mem_of_getElem? there)) step
    obtain rfl | ne := eq_or_ne j i
    · obtain rfl := Option.some.inj (there.symm.trans present)
      have moved : (w.submissions.set j s')[j]? = some s' := List.getElem?_set_self here
      cases turn with
      | own proceeds leads records =>
        refine ⟨_, moved, attempt.of_own faultless hd size present examined
          (fun x epoch eq last => ?_) (fun key corShares eq => ?_) proceeds leads⟩
        · subst eq
          refine hands x epoch (leads.servers_eq ▸ moved) ?_
          rw [← last]
          exact World.lastAnnounced?_of_own proceeds records nofun
        · subst eq
          obtain ⟨calls, start⟩ := proceeds.exists_evaluating
          have filled : 0 < w.deployment.servers.length := by
            rw [sound.proper.fits.length_eq]
            exact Nat.zero_lt_of_lt (examine_eq_ok examined).1
          exact draws key corShares calls start moved
            (key_of_step start (List.length_pos_iff.1 filled) step)
      | call moved' =>
        exact ⟨_, moved, attempt.of_call sound present cleared moved'⟩
    · exact ⟨s.progress, by rw [List.getElem?_set_ne ne, present],
        attempt.of_other sound faultless.announced present cleared ne there turn⟩

end Submission

namespace World

variable {F : Field} {c : Circuit} {domain : CircuitDomain} {k n capacity rotation i : Nat}
  {σ : Type} [WordSource σ] {admits : Submission → Prop} {w₀ v w w' : World σ} {s : Submission}

/-- A world of a run in which a submission has just been handed out, with the argument of the point
that was announced last. -/
structure HandsOut (admits : Submission → Prop) (v w : World σ) (i : Nat) (s : Submission)
    (x : Nat) (w₁ : World σ) : Prop where
  before : Reaches admits v w₁
  after : Reaches admits w₁ w
  handed : ∃ epoch, w₁.submissions[i]? =
    some { s with progress := .admitting (s.handing w₁.deployment.servers.length epoch) }
  announced : lastAnnounced? s.leader w₁.deployment.records = some x

/-- A step of a run in which the coordinator draws the key for the second round of a submission. -/
structure Draws (admits : Submission → Prop) (v w : World σ) (i : Nat) (s : Submission)
    (key : Key) (w₁ w₂ : World σ) : Prop where
  before : Reaches admits v w₁
  step : Step admits w₁ w₂
  after : Reaches admits w₂ w
  evaluating : ∃ calls, w₁.submissions[i]? = some { s with progress := .evaluating calls }
  finalising : ∃ corShares, w₂.submissions[i]? =
    some { s with progress := .finalising (s.callThese (List.range w₁.deployment.servers.length)
      { id := s.id, leader := s.leader, corShares, key }) }
  drawn : (w₁.deployment.draw Random.key).1 = key

theorem Cleared.of_step (cleared : w.Cleared i s) (proper : w.Proper F domain n)
    (others : ∀ s', admits s' → s'.leader = s.leader → s'.id ≠ s.id) (h : Step admits w w') :
    w'.Cleared i s := by
  intro j s' there ne leads same
  obtain before | ⟨-, admitted⟩ | ⟨s₀, before, turn⟩ := proper.of_step_at h there
  · exact cleared j s' before ne leads same
  · exact absurd same (others s' admitted leads)
  · cases turn with
    | own proceeds => exact proceeds.isOver (cleared j s₀ before ne leads same)
    | call moved => exact absurd (cleared j s₀ before ne leads same) moved.not_isOver

theorem Faultless.of_step (faultless : w.Faultless F c domain n capacity)
    (only : ∀ s, admits s → s.network = .reliable) (few : w.submissions.length ≤ 2 ^ 64)
    (h : Step admits w w') : w'.Faultless F c domain n capacity where
  sound := faultless.sound.of_step (fun s admitted => steady_of_reliable (only s admitted)) h
  announced := faultless.announced.of_step faultless.sound.proper faultless.sound.counted h
  level := faultless.level.of_step faultless.sound faultless.announced faultless.reliable few h
  reliable := network_of_step (P := (· = .reliable)) faultless.reliable only h

theorem Faultless.of_reaches (faultless : w.Faultless F c domain n capacity)
    (only : ∀ s, admits s → s.network = .reliable) (h : Reaches admits w w')
    (few : w'.submissions.length ≤ 2 ^ 64) : w'.Faultless F c domain n capacity := by
  induction h with
  | refl => exact faultless
  | tail reached step ih =>
    have few := Nat.le_trans (length_le_of_step step) few
    exact (ih few).of_step only few step

/-- From when it comes, a submission is on its way to what fresh checkers make of it. -/
theorem attempt_of_reaches (faultless : w.Faultless F c domain n capacity)
    (hd : domain.Valid F k) (size : c.domainSize = 2 ^ k) (examined : s.examine n = .ok ())
    (only : ∀ s, admits s → s.network = .reliable)
    (others : ∀ s', admits s' → s'.leader = s.leader → s'.id ≠ s.id) (before : Reaches admits v w)
    (h : Reaches admits w w') (few : w'.submissions.length ≤ 2 ^ 64) (cleared : w.Cleared i s)
    {p : Progress} (present : w.submissions[i]? = some { s with progress := p })
    (attempt : { s with progress := p }.Attempt F c domain
      (fun x => ∃ w₁, HandsOut admits v w' i s x w₁)
      (fun key => ∃ w₁ w₂, Draws admits v w' i s key w₁ w₂) w.deployment) :
    ∃ p', w'.submissions[i]? = some { s with progress := p' } ∧
      { s with progress := p' }.Attempt F c domain
        (fun x => ∃ w₁, HandsOut admits v w' i s x w₁)
        (fun key => ∃ w₁ w₂, Draws admits v w' i s key w₁ w₂) w'.deployment := by
  induction h using Relation.ReflTransGen.head_induction_on generalizing p with
  | refl => exact ⟨p, present, attempt⟩
  | @head w w₁ step later ih =>
    obtain ⟨p₁, present₁, attempt₁⟩ := attempt.of_step faultless hd size present cleared examined
      (fun x epoch handed last => ⟨w₁, before.tail step, later, ⟨epoch, handed⟩, last⟩)
      (fun key corShares calls start drawn eq => ⟨w, w₁, before, step, later,
        ⟨calls, by rw [present, ← start]⟩, ⟨corShares, drawn⟩, eq⟩) step
    exact ih (faultless.of_step only (Nat.le_trans (Reaches.length_le (later.head step)) few) step)
      (before.tail step) (cleared.of_step faultless.sound.proper others step) present₁ attempt₁

/-- Whatever a deployment was used for before, and whatever else it is used for meanwhile: without
faults, a submission returns unless more come for ever, and what it returns is what fresh checkers
make of its requests. They have the point that was announced last when the requests were
handed out, and the key that was drawn for them. Nothing but malformed requests is refused. Epochs
are 64-bit numbers, one for every submission at most. -/
theorem fresh_of_returned [Fact F.modulus.Prime] {source : σ} {d : Deployment σ}
    (started : Deployment.start F c n capacity rotation source = .ok d) (room : 0 < capacity)
    (earlier : Reaches (fun s => s.network = .reliable) ⟨d, []⟩ w₀)
    (idle : ∀ other ∈ w₀.submissions, other.leader = s.leader → other.id = s.id →
      other.progress.isOver)
    (arrived : s.progress = .arrived) (reliable : s.network = .reliable)
    (leads : s.leader.toNat < n) (count : s.requests.length = n)
    (only : ∀ s', admits s' → s'.network = .reliable)
    (others : ∀ s', admits s' → s'.leader = s.leader → s'.id ≠ s.id)
    (run : Reaches admits ⟨w₀.deployment, w₀.submissions ++ [s]⟩ w)
    (few : w.submissions.length ≤ 2 ^ 64) :
    ∃ domain, CircuitDomain.ofCircuit F c = .ok domain ∧
      ∃ p, w.submissions[w₀.submissions.length]? = some { s with progress := p } ∧
        Acc (fun w₂ w₁ => Step (fun _ => False) w₁ w₂) w ∧
        (w.Still → ∃ result, p = .returned result) ∧
        ∀ result, p = .returned result → ∃ x key,
          (∃ w₁, HandsOut admits ⟨w₀.deployment, w₀.submissions ++ [s]⟩ w
            w₀.submissions.length s x w₁) ∧
          ((∃ verdict, result = .ok verdict) →
            ∃ w₁ w₂, Draws admits ⟨w₀.deployment, w₀.submissions ++ [s]⟩ w
              w₀.submissions.length s key w₁ w₂) ∧
          result = (Verdict.ofFresh F c domain s.leader.toNat s.requests x key).mapError .checker ∧
          ∀ e, result = .error e → ∃ cause, e = .checker (.malformedRequest cause) := by
  obtain ⟨domain, domainOk⟩ := exists_domain (Nat.zero_lt_of_lt leads) started
  obtain ⟨k, size, hd⟩ := CircuitDomain.valid_of_ofCircuit domainOk
  have examined : s.examine n = .ok () := by simp [Submission.examine, leads, count]
  have arrives : Step (fun s => s.network = .reliable) w₀
      ⟨w₀.deployment, w₀.submissions ++ [s]⟩ := .arrive arrived reliable
  have fewer := Nat.le_trans run.length_le few
  have faultless : Faultless F c domain n capacity ⟨w₀.deployment, w₀.submissions ++ [s]⟩ :=
    (faultless_start domainOk started).of_reaches (fun _ h => h) (earlier.tail arrives) fewer
  have present : (w₀.submissions ++ [s])[w₀.submissions.length]? = some s := by simp
  have cleared : Cleared ⟨w₀.deployment, w₀.submissions ++ [s]⟩ w₀.submissions.length s := by
    intro j other there ne
    rw [List.getElem?_append] at there
    split at there
    · exact idle other (List.mem_of_getElem? there)
    · rw [List.getElem?_singleton, if_neg (by omega)] at there
      cases there
  obtain ⟨p, there, attempt⟩ := attempt_of_reaches faultless hd size examined only others .refl run
    few cleared (p := s.progress) present (.early (by rw [arrived]; exact Bool.false_ne_true))
  refine ⟨domain, domainOk, p, there, wellFounded_step.apply w, fun still => ?_, ?_⟩
  · exact (faultless.of_reaches only run few).sound.returned room still _
      (List.mem_of_getElem? there)
  rintro result rfl
  obtain ⟨x, announced, outcome⟩ := attempt.of_returned
  cases outcome with
  | refused refused =>
    obtain again | ⟨cause, refused, rfl⟩ := refused
    · exact again.elim
    obtain ⟨cause, rfl⟩ := Checker.of_admitAll_eq_error refused
    refine ⟨x, ⟨.replicate 32 0⟩, announced, (by rintro ⟨_, ⟨⟩⟩), ?_, fun e eq => ⟨cause, ?_⟩⟩
    · rw [Verdict.ofFresh_eq_error refused]
      rfl
    · exact (Except.error.inj eq).symm
  | @decided key v keyed fresh =>
    refine ⟨x, key, announced, fun _ => keyed, ?_, by rintro _ ⟨⟩⟩
    rw [fresh]
    rfl

/-- A second submission under the identifier of one that has returned. -/
theorem fresh_again_bit : ∃ (d : Deployment ChaCha20) (w : World ChaCha20) (s s' : Submission)
    (domain : CircuitDomain) (x : Nat) (key : Key) (result : Except ServerError Verdict),
    Deployment.start .seventeen Checker.bit 3 1 4 (.ofKey ⟨Vector.replicate 32 0⟩) = .ok d ∧
      Reaches (fun s => s.network = .reliable) ⟨d, []⟩ w ∧ w.submissions = [s, s'] ∧
      s'.leader = s.leader ∧ s'.id = s.id ∧ s'.progress = .returned result ∧
      result = (Verdict.ofFresh .seventeen Checker.bit domain s'.leader.toNat s'.requests x
        key).mapError .checker := by
  obtain ⟨d, w₁, s, seed, started, before, alone, choosing, -, -, sent⟩ :=
    exists_choosing_bit Nat.one_pos
  obtain ⟨domain₀, k, domainOk, -, -, count, leads, -⟩ :=
    ClientRequest.sum_outShare_of_ofInputs Checker.wellFormed_bit sent (Checker.check_bit true)
  -- the first one is alone, and returns
  obtain ⟨w₀, after, length, still⟩ := exists_still (fun s => s.network = .reliable) w₁
  have earlier := before.trans after
  have present₁ : w₁.submissions[0]? = some s := by rw [alone]; rfl
  obtain ⟨p, present⟩ := after.getElem? present₁
  rw [alone] at length
  obtain ⟨s₀, eq⟩ := List.length_eq_one_iff.1 length
  obtain rfl : s₀ = { s with progress := p } := by
    rw [eq] at present
    exact Option.some.inj present
  have sound : Sound .seventeen Checker.bit domain₀ 3 1 w₀ :=
    (sound_start domainOk started).of_reaches (fun _ => steady_of_reliable) earlier
  have idle : ∀ other ∈ w₀.submissions, other.progress.isOver := by
    intro other mem
    obtain ⟨result, returned⟩ := sound.returned Nat.one_pos still other mem
    rw [returned]
    rfl
  -- then the second one comes
  let s' := Submission.start .reliable s.id s.leader s.requests
  let v : World ChaCha20 := ⟨w₀.deployment, w₀.submissions ++ [s']⟩
  obtain ⟨w, run, length', still'⟩ := exists_still (fun _ => False) v
  have length_eq : w.submissions.length = 2 := by rw [length']; simp [v, eq]
  obtain ⟨domain, -, p', there, -, returned, decided⟩ := fresh_of_returned started Nat.one_pos
    earlier (fun other mem _ _ => idle other mem) (s := s') rfl rfl leads count
    (fun _ => False.elim) (fun _ => False.elim) run (by omega)
  obtain ⟨result, rfl⟩ := returned still'
  obtain ⟨x, key, -, -, fresh, -⟩ := decided result rfl
  obtain ⟨p'', there₀⟩ := run.getElem? (i := 0) (s := { s with progress := p }) (by simp [v, eq])
  have arrives : Step (fun s => s.network = .reliable) w₀ v := .arrive rfl rfl
  refine ⟨d, w, { s with progress := p'' }, { s' with progress := .returned result }, domain, x,
    key, result, started, (earlier.tail arrives).trans (run.mono fun _ => False.elim), ?_, rfl, rfl,
    rfl, fresh⟩
  rw [eq] at there
  refine List.ext_getElem? fun j => ?_
  match j with
  | 0 => exact there₀
  | 1 => exact there
  | j + 2 => exact List.getElem?_eq_none (by omega)

end World

end PrivateSums
