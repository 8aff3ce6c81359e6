import PrivateSums.Deployment.Fault
import PrivateSums.Proofs.Deployment.Course
import PrivateSums.Proofs.Deployment.Quiescence

/-!
What becomes of an honest submission when earlier announcements of evaluation points failed. It is
decided as the submission is given its epoch.
-/

namespace PrivateSums

/-- Whether a submission has not come to be given its epoch. -/
def Progress.isEarly : Progress → Bool
  | arrived | queued | entered => true
  | _ => false

namespace World

variable {σ : Type}

/-- Whether a server is behind the epoch that is due, if one is. -/
def Lags (w : World σ) (leader : UInt64) (peer : Nat) : Prop :=
  ∀ slot l epoch, slotAt? w.deployment.servers peer leader.toNat = some slot →
    w.deployment.lane? leader = some l → l.dueEpoch? w.deployment.rotation = some epoch →
      slot.points.Behind epoch

/-- Whether no epoch is due, or all servers are behind the one that is. -/
def Ready (w : World σ) (leader : UInt64) : Prop := ∀ peer, w.Lags leader peer

theorem ready_iff_of_unset {d : Deployment σ} {submissions : List Submission} {leader : UInt64}
    {l : Lane} (lane : d.lane? leader = some l) (unset : l.epoch = none) :
    Ready ⟨d, submissions⟩ leader ↔
      ∀ peer slot, slotAt? d.servers peer leader.toNat = some slot → slot.points.Behind 0 := by
  have due : l.dueEpoch? d.rotation = some 0 := by rw [Lane.dueEpoch?, unset]
  constructor
  · exact fun ready peer slot found => ready peer slot l 0 found lane due
  · intro behind peer slot l' epoch found lane' due'
    obtain rfl := Option.some.inj (lane.symm.trans lane')
    obtain rfl := Option.some.inj (due.symm.trans due')
    exact behind peer slot found

theorem course_of_choosing {F : Field} {c : Circuit} {domain : CircuitDomain} {n : Nat}
    {w : World σ} {s : Submission} {l : Lane} (lane : w.deployment.lane? s.leader = some l)
    (start : s.progress = .choosing) : s.Course F c domain n (w.Lags s.leader) w.deployment := by
  refine .chooses start lane (fun epoch due peer slot found =>
    ⟨fun behind slot' l' e found' lane' due' => ?_, fun lags => lags slot l epoch found lane due⟩)
    fun none peer _ slot l' e found' lane' due' => ?_
  · obtain rfl := Option.some.inj (found.symm.trans found')
    obtain rfl := Option.some.inj (lane.symm.trans lane')
    obtain rfl := Option.some.inj (due.symm.trans due')
    exact behind
  · obtain rfl := Option.some.inj (lane.symm.trans lane')
    cases none.symm.trans due'

variable [WordSource σ]

/-- A world of a run in which a submission is to be given its epoch. -/
structure Chooses (admits : Submission → Prop) (w₀ w : World σ) (i : Nat) (s : Submission)
    (w₁ : World σ) : Prop where
  before : Reaches admits w₀ w₁
  after : Reaches admits w₁ w
  choosing : w₁.submissions[i]? = some { s with progress := .choosing }

section Run

variable {F : Field} {c : Circuit} {domain : CircuitDomain} {n capacity : Nat}
  {admits : Submission → Prop} {w₀ w w' : World σ} {i : Nat} {s : Submission}

/-- A submission that comes to a lane with room, where none is being given its epoch, is soon to be
given it. -/
theorem reaches_choosing {d : Deployment σ} {l : Lane} (before : List Submission)
    (start : s.progress = .arrived) (admitted : admits s)
    (examined : s.examine d.servers.length = .ok ()) (lane : d.lane? s.leader = some l)
    (room : 0 < l.permits) (free : l.giving = false) :
    ∃ d' l', d'.servers = d.servers ∧ d'.lane? s.leader = some l' ∧ l'.epoch = l.epoch ∧
      Reaches admits ⟨d, before⟩ ⟨d', before ++ [{ s with progress := .choosing }]⟩ := by
  obtain ⟨permits, eq⟩ := Nat.exists_eq_succ_of_ne_zero room.ne'
  let l₁ : Lane := { l with permits }
  let l₂ : Lane := { l₁ with giving := true }
  have enters : l.enter? = some l₁ := by rw [Lane.enter?, eq]
  have starts : l₁.startGiving? = some l₂ := by rw [Lane.startGiving?, if_neg (by simp [l₁, free])]
  have lane₁ : (d.setLane s.leader l₁).lane? s.leader = some l₁ := by
    rw [(Submission.leads_setLane lane fun _ => l₁).lane?, lane, Option.map_some, if_pos rfl]
  have lane₂ : ((d.setLane s.leader l₁).setLane s.leader l₂).lane? s.leader = some l₂ := by
    rw [(Submission.leads_setLane lane₁ fun _ => l₂).lane?, lane₁, Option.map_some, if_pos rfl]
  have queued : d.step s .proceed = some (d, { s with progress := .queued }) := by
    simp [Deployment.step, Submission.proceed, start, examined]
  have entered : d.step { s with progress := .queued } .proceed =
      some (d.setLane s.leader l₁, { s with progress := .entered }) := by
    simp [Deployment.step, Submission.proceed, lane, enters]
  have chosen : (d.setLane s.leader l₁).step { s with progress := .entered } .proceed =
      some ((d.setLane s.leader l₁).setLane s.leader l₂, { s with progress := .choosing }) := by
    simp [Deployment.step, Submission.proceed, lane₁, starts]
  have followed : d.follow s [.proceed, .proceed, .proceed] =
      some ((d.setLane s.leader l₁).setLane s.leader l₂, { s with progress := .choosing }) := by
    simp [Deployment.follow, queued, entered, chosen]
  refine ⟨(d.setLane s.leader l₁).setLane s.leader l₂, l₂, rfl, lane₂, rfl, ?_⟩
  exact .head (.arrive start admitted) (reaches_follow before followed)

/-- A submission for which all servers have a request comes to be given its epoch. -/
theorem exists_chooses (proper : w₀.Proper F domain n) (empty : w₀.submissions = [])
    (h : Reaches admits w₀ w) (present : w.submissions[i]? = some s)
    (late : ¬s.progress.isEarly) (leads : s.leader.toNat < n) (count : s.requests.length = n) :
    ∃ w₁, Chooses admits w₀ w i s w₁ := by
  induction h generalizing s with
  | refl =>
    rw [empty] at present
    cases present
  | @tail w w' reached step ih =>
    have later {s₀ : Submission} {p : Progress} (there : w.submissions[i]? = some s₀)
        (late₀ : ¬s₀.progress.isEarly) (eq : s = { s₀ with progress := p }) :
        ∃ w₁, Chooses admits w₀ w' i s w₁ := by
      subst eq
      obtain ⟨w₁, before, after, choosing⟩ := ih there late₀ leads count
      exact ⟨w₁, before, after.tail step, choosing⟩
    have proper := proper.of_reaches reached
    obtain same | ⟨start, -⟩ | ⟨s₀, there, turn⟩ := proper.of_step_at step present
    · exact later same late rfl
    · rw [start] at late
      exact absurd rfl late
    cases turn with
    | call moved =>
      refine later there ?_ rfl
      rw [moved.start]
      have awaits := moved.awaits
      cases awaits <;> nofun
    | own proceeds =>
      by_cases early : s₀.progress.isEarly
      · cases proceeds with
        | refuse start examined =>
          simp [Submission.examine, proper.fits.length_eq, leads, count] at examined
        | queue | enter => exact absurd rfl late
        | choose => exact ⟨_, reached.tail step, .refl, present⟩
        | drain start | give start | rotate _ start | rotationFails start | rotated start
        | admissionFails start | admitted start | evaluationFails start | evaluated _ start
        | finalFails start | finalised start | verdictFails start | decided start
        | aborted start | leave start =>
          rw [start] at early
          cases early
      · exact later there early rfl

/-- From when it is to be given its epoch, a submission keeps its course. -/
theorem course_of_reaches {lag : Nat → Prop} (sound : w.Sound F c domain n capacity)
    (announced : w.Announced F domain) (only : ∀ s, admits s → s.network.Steady)
    (h : Reaches admits w w') (honest : s.Honest F c domain w i)
    (unique : w'.Unique i s)
    (course : s.Course F c domain n lag w.deployment) :
    ∃ p, w'.submissions[i]? = some { s with progress := p } ∧
      { s with progress := p }.Course F c domain n lag w'.deployment := by
  induction h using Relation.ReflTransGen.head_induction_on generalizing s with
  | refl => exact ⟨s.progress, honest.present, course⟩
  | @head w w₁ step later ih =>
    obtain ⟨p, present, course⟩ := course.of_step honest sound announced step
    exact ih (s := { s with progress := p }) (sound.of_step only step)
      (announced.of_step sound.proper sound.counted step)
      ⟨present, honest.reliable, unique.of_reaches later, honest.rehearsed⟩ unique course

end Run

section Honest

variable {F : Field} [Fact F.modulus.Prime] {c : Circuit} {n capacity rotation i : Nat}
  {source : σ} {d : Deployment σ} {admits : Submission → Prop} {w : World σ} {s : Submission}
  {τ : Type} [WordSource τ] {inputs : List Nat} {seed : τ}

omit [Fact F.modulus.Prime] in
/-- When an honest submission is to be given its epoch, it is decided what it comes to. -/
theorem decided_of_choosing {domain : CircuitDomain} {w₁ : World σ}
    {result : Except ServerError Verdict} (sound : w₁.Sound F c domain n capacity)
    (announced : w₁.Announced F domain) (steady : ∀ s, admits s → s.network.Steady)
    (honest : { s with progress := .choosing }.Honest F c domain w₁ i)
    (after : Reaches admits w₁ w) (unique : w.Unique i s)
    (present : w.submissions[i]? = some { s with progress := .returned result }) :
    (w₁.Ready s.leader → ∃ v, result = .ok v ∧ v.accepted) ∧
      (¬w₁.Ready s.leader →
        ∃ epoch current, result = .error (.staleEpoch s.leader epoch current)) := by
  obtain ⟨l, lane⟩ := sound.proper.exists_lane honest.mem rfl
  obtain ⟨p, there, course⟩ := course_of_reaches sound announced steady after honest unique
    (course_of_choosing (n := n) lane rfl)
  obtain rfl : p = .returned result :=
    congrArg Submission.progress (Option.some.inj (there.symm.trans present))
  have ready_iff : (∀ peer < n, w₁.Lags s.leader peer) ↔ w₁.Ready s.leader :=
    ⟨fun ready peer slot l epoch found =>
      ready peer (sound.proper.fits.lt_of_slotAt? found) slot l epoch found,
      fun ready peer _ => ready peer⟩
  cases course with
  | chooses start | drains start | rotates start => cases start
  | performs _ _ _ _ checked => cases checked
  | @accepted v ready favourable done =>
    obtain done | done := done
    · cases done
    · exact ⟨fun _ => ⟨v, Progress.returned.inj done, favourable⟩,
        fun stale => absurd (ready_iff.1 ready) stale⟩
  | @refused epoch current stale done =>
    obtain done | done := done
    · cases done
    · exact ⟨fun ready => absurd (ready_iff.2 ready) stale,
        fun _ => ⟨epoch, current, Progress.returned.inj done⟩⟩

/-- Once nothing but announcements of evaluation points fails, and for an honest submission no call
at all, it returns. It is accepted if, when it was to be given its epoch, no epoch was due or all
servers were behind the one that was; and refused as stale otherwise. -/
theorem returns_of_honest (wf : c.WellFormed) (room : 0 < capacity)
    (started : Deployment.start F c n capacity rotation source = .ok d)
    (steady : ∀ s, admits s → s.network.Steady) (run : Reaches admits ⟨d, []⟩ w)
    (present : w.submissions[i]? = some s) (reliable : s.network = .reliable)
    (unique : w.Unique i s)
    (sent : ((ClientRequest.ofInputs F c inputs n s.leader.toNat).run.run seed).1 =
      .ok s.requests)
    (accepted : c.check F inputs = .ok true) :
    (w.Still → ∃ result, s.progress = .returned result) ∧
      ∀ result, s.progress = .returned result →
        (∃ w₁, Chooses admits ⟨d, []⟩ w i s w₁) ∧
        ∀ w₁, Chooses admits ⟨d, []⟩ w i s w₁ →
          (w₁.Ready s.leader → ∃ v, result = .ok v ∧ v.accepted) ∧
          (¬w₁.Ready s.leader →
            ∃ epoch current, result = .error (.staleEpoch s.leader epoch current)) := by
  obtain ⟨domain, k, domainOk, hd, size, count, leads, admissible, zero⟩ :=
    ClientRequest.sum_outShare_of_ofInputs wf sent accepted
  have proper := proper_start domainOk started
  have sound : Sound F c domain n capacity ⟨d, []⟩ := sound_start domainOk started
  have announced := announced_start domainOk started
  refine ⟨fun still => (sound.of_reaches steady run).returned room still s
    (List.mem_of_getElem? present), fun result returned => ⟨?_, fun w₁ chooses => ?_⟩⟩
  · exact exists_chooses proper rfl run present (by rw [returned]; nofun) leads count
  obtain ⟨before, after, choosing⟩ := chooses
  have sound₁ := sound.of_reaches steady before
  have announced₁ := announced.of_reaches sound steady before
  have honest : { s with progress := .choosing }.Honest F c domain w₁ i :=
    ⟨choosing, reliable, unique.of_reaches after, fun x epoch key =>
      Script.rehearsed_ofRequests hd size admissible x epoch key (zero x _)⟩
  exact decided_of_choosing sound₁ announced₁ steady honest after unique
    (by rw [present, ← returned])

/-- An honest submission for which the servers are ready is accepted in some run. -/
theorem exists_accepted {w₁ : World σ} (wf : c.WellFormed) (room : 0 < capacity)
    (started : Deployment.start F c n capacity rotation source = .ok d)
    (steady : ∀ s, admits s → s.network.Steady) (before : Reaches admits ⟨d, []⟩ w₁)
    (present : w₁.submissions[i]? = some s) (choosing : s.progress = .choosing)
    (reliable : s.network = .reliable) (unique : w₁.Unique i s) (ready : w₁.Ready s.leader)
    (sent : ((ClientRequest.ofInputs F c inputs n s.leader.toNat).run.run seed).1 =
      .ok s.requests)
    (accepted : c.check F inputs = .ok true) :
    ∃ w v, Reaches admits w₁ w ∧ w.submissions.length = w₁.submissions.length ∧
      w.submissions[i]? = some { s with progress := .returned (.ok v) } ∧ v.accepted := by
  obtain ⟨domain, k, domainOk, hd, size, count, leads, admissible, zero⟩ :=
    ClientRequest.sum_outShare_of_ofInputs wf sent accepted
  have sound : Sound F c domain n capacity ⟨d, []⟩ := sound_start domainOk started
  have announced : Announced F domain ⟨d, []⟩ := announced_start domainOk started
  have sound₁ := sound.of_reaches steady before
  obtain ⟨w, after, length, still⟩ := exists_still admits w₁
  obtain ⟨p, there⟩ := after.getElem? present
  obtain ⟨result, rfl⟩ :=
    (sound₁.of_reaches steady after).returned room still _ (List.mem_of_getElem? there)
  have honest : { s with progress := .choosing }.Honest F c domain w₁ i :=
    ⟨by rw [present, ← choosing], reliable, unique, fun x epoch key =>
      Script.rehearsed_ofRequests hd size admissible x epoch key (zero x _)⟩
  obtain ⟨v, rfl, favourable⟩ := (decided_of_choosing sound₁
    (announced.of_reaches sound steady before) steady honest after
    (unique.of_length after length) there).1 ready
  exact ⟨w, v, after, length, there, favourable⟩

end Honest

theorem steady_of_reliable {s : Submission} (reliable : s.network = .reliable) :
    s.network.Steady := by
  rw [reliable]
  exact fun _ _ _ _ => rfl

theorem steady_ofFaults {faults : List Fault} (h : ∀ f ∈ faults, f.call = .changePoint) :
    (Network.ofFaults faults).Steady := by
  intro peer c m other
  have none : faults.find? (·.applies peer c m) = none := by
    apply List.find?_eq_none.2
    intro f mem
    simp [Fault.applies, h f mem, Ne.symm other]
  rw [Network.ofFaults, none]
  rfl

/-- A deployment for a circuit of one bit, and the requests of an honest client. -/
theorem exists_started_bit (capacity : Nat) :
    ∃ (d : Deployment ChaCha20) (domain : CircuitDomain) (requests : List ClientRequest)
      (seed : ChaCha20),
      Deployment.start .seventeen Checker.bit 3 capacity 4 (.ofKey ⟨Vector.replicate 32 0⟩) =
        .ok d ∧
        CircuitDomain.ofCircuit .seventeen Checker.bit = .ok domain ∧ requests.length = 3 ∧
        ((ClientRequest.ofInputs .seventeen Checker.bit [1] 3 2).run.run seed).1 =
          .ok requests := by
  have inputs : [1].length = Checker.bit.numInputs := rfl
  have leads : 2 < 3 := by decide
  obtain ⟨requests, seed, run⟩ := ClientRequest.exists_ofInputs (F := .seventeen)
    Checker.wellFormed_bit inputs (by decide) leads (ChaCha20.ofKey ⟨Vector.replicate 32 0⟩)
  have sent := congrArg Prod.fst run
  obtain ⟨domain, -, domainOk, -, -, count, -⟩ :=
    ClientRequest.sum_outShare_of_ofInputs Checker.wellFormed_bit sent (Checker.check_bit true)
  exact ⟨_, domain, requests, _, start_eq domainOk, domainOk, count, sent⟩

/-- An honest submission that is alone, and is to be given its epoch. -/
theorem exists_choosing_bit {capacity : Nat} (room : 0 < capacity) :
    ∃ (d : Deployment ChaCha20) (w : World ChaCha20) (s : Submission) (seed : ChaCha20),
      Deployment.start .seventeen Checker.bit 3 capacity 4 (.ofKey ⟨Vector.replicate 32 0⟩) =
        .ok d ∧
        Reaches (fun s => s.network = .reliable) ⟨d, []⟩ w ∧ w.submissions = [s] ∧
        s.progress = .choosing ∧ s.network = .reliable ∧ w.Ready s.leader ∧
        ((ClientRequest.ofInputs .seventeen Checker.bit [1] 3 s.leader.toNat).run.run seed).1 =
          .ok s.requests := by
  obtain ⟨d, domain, requests, seed, started, domainOk, count, sent⟩ := exists_started_bit capacity
  have lane : d.lane? 2 = some (.fresh capacity) := by
    obtain rfl := Except.ok.inj ((start_eq domainOk).symm.trans started)
    rfl
  let s := Submission.start .reliable 7 2 requests
  have examined : s.examine d.servers.length = .ok () := by
    rw [(proper_start domainOk started).fits.length_eq, Submission.examine]
    simp [s, Submission.start, count]
  obtain ⟨d', l, servers, lane, unset, reaches⟩ : ∃ d' l, d'.servers = d.servers ∧
      d'.lane? s.leader = some l ∧ l.epoch = none ∧
      Reaches (fun s => s.network = .reliable) ⟨d, []⟩ ⟨d', [{ s with progress := .choosing }]⟩ :=
    reaches_choosing [] rfl (by rfl) examined lane room rfl
  refine ⟨d, _, { s with progress := .choosing }, _, started, reaches, rfl, rfl, rfl, ?_, sent⟩
  rw [ready_iff_of_unset lane unset, servers]
  intro peer slot found current mem
  rw [eq_fresh_of_start domainOk started found] at mem
  cases mem

/-- A submission that fails as it announces the first evaluation point. The announcement comes to
the first server only, or to none. -/
theorem exists_failed_bit (reached : Bool) {requests : List ClientRequest}
    (count : requests.length = 3) {d : Deployment ChaCha20}
    (started : Deployment.start .seventeen Checker.bit 3 1 4 (.ofKey ⟨Vector.replicate 32 0⟩) =
      .ok d) :
    ∃ (d₁ : Deployment ChaCha20) (s : Submission) (e : ServerError),
      Reaches (fun s => s.network.Steady) ⟨d, []⟩ ⟨d₁, [s]⟩ ∧ s.id = 6 ∧
        s.progress = .returned (.error e) ∧ d₁.servers.length = 3 ∧
        d₁.lane? 2 = some (.fresh 1) ∧
        ((∀ peer slot, slotAt? d₁.servers peer 2 = some slot → slot.points.Behind 0) ↔
          reached = false) := by
  obtain ⟨domain, domainOk⟩ := exists_domain (by decide) started
  obtain ⟨r₀, r₁, r₂, rfl⟩ := List.length_eq_three.1 count
  let lost := if reached then [1, 2] else [0, 1, 2]
  let s := Submission.start (.ofFaults (lost.map (⟨·, .changePoint, none, .before⟩))) 6 2
    [r₀, r₁, r₂]
  have steady : s.network.Steady := by
    apply steady_ofFaults
    intro f mem
    obtain ⟨peer, -, rfl⟩ := List.mem_map.1 mem
    rfl
  have reaches {moves : List Move} {d₁ : Deployment ChaCha20} {s₁ : Submission}
      (followed : d.follow s moves = some (d₁, s₁)) :
      Reaches (fun s => s.network.Steady) ⟨d, []⟩ ⟨d₁, [s₁]⟩ :=
    .head (.arrive rfl steady) (reaches_follow [] followed)
  cases reached with
  | false =>
    obtain ⟨d₁, s₁, e, followed, id, returned, servers, lane⟩ : ∃ d₁ s₁ e,
        d.follow s (.replicate 7 .proceed) = some (d₁, s₁) ∧ s₁.id = 6 ∧
          s₁.progress = .returned (.error e) ∧ d₁.servers = d.servers ∧
          d₁.lane? 2 = some (.fresh 1) := by
      obtain rfl := Except.ok.inj ((start_eq domainOk).symm.trans started)
      exact ⟨_, _, _, rfl, rfl, rfl, rfl, rfl⟩
    have length : d₁.servers.length = 3 := by
      rw [servers, (proper_start domainOk started).fits.length_eq]
    refine ⟨d₁, s₁, e, reaches followed, id, returned, length, lane, fun _ => rfl, ?_⟩
    intro _ peer slot found current mem
    rw [servers] at found
    rw [eq_fresh_of_start domainOk started found] at mem
    cases mem
  | true =>
    obtain ⟨d₁, s₁, e, followed, id, returned, length, lane, slot, found, current⟩ : ∃ d₁ s₁ e,
        d.follow s (.replicate 5 .proceed ++ [.call 0, .call 0, .proceed, .proceed]) =
          some (d₁, s₁) ∧ s₁.id = 6 ∧ s₁.progress = .returned (.error e) ∧
          d₁.servers.length = 3 ∧ d₁.lane? 2 = some (.fresh 1) ∧
          ∃ slot, slotAt? d₁.servers 0 2 = some slot ∧ slot.points.currentEpoch? = some 0 := by
      obtain rfl := Except.ok.inj ((start_eq domainOk).symm.trans started)
      exact ⟨_, _, _, rfl, rfl, rfl, rfl, rfl, _, rfl, rfl⟩
    refine ⟨d₁, s₁, e, reaches followed, id, returned, length, lane, fun behind => ?_, nofun⟩
    exact absurd (behind 0 slot found 0 current) (by decide)

/-- An honest submission, that is to be given its epoch, after one that failed as it announced the
first evaluation point. -/
theorem exists_choosing_after_bit (reached : Bool) :
    ∃ (d : Deployment ChaCha20) (w : World ChaCha20) (s₀ s : Submission) (e : ServerError)
      (seed : ChaCha20),
      Deployment.start .seventeen Checker.bit 3 1 4 (.ofKey ⟨Vector.replicate 32 0⟩) = .ok d ∧
        Reaches (fun s => s.network.Steady) ⟨d, []⟩ w ∧ w.submissions = [s₀, s] ∧
        s₀.progress = .returned (.error e) ∧ w.Unique 1 s ∧ s.progress = .choosing ∧
        s.network = .reliable ∧ (w.Ready s.leader ↔ reached = false) ∧
        ((ClientRequest.ofInputs .seventeen Checker.bit [1] 3 s.leader.toNat).run.run seed).1 =
          .ok s.requests := by
  obtain ⟨d, domain, requests, seed, started, -, count, sent⟩ := exists_started_bit 1
  obtain ⟨d₁, s₀, e, failed, id, returned, length, lane, behind⟩ :=
    exists_failed_bit reached count started
  let s := Submission.start .reliable 7 2 requests
  have examined : s.examine d₁.servers.length = .ok () := by
    rw [length, Submission.examine]
    simp [s, Submission.start, count]
  obtain ⟨d', l, servers, lane, unset, reaches⟩ : ∃ d' l, d'.servers = d₁.servers ∧
      d'.lane? s.leader = some l ∧ l.epoch = none ∧
      Reaches (fun s => s.network.Steady) ⟨d₁, [s₀]⟩
        ⟨d', [s₀, { s with progress := .choosing }]⟩ :=
    reaches_choosing [s₀] rfl (steady_of_reliable rfl) examined lane Nat.one_pos rfl
  have ready : Ready ⟨d', [s₀, { s with progress := .choosing }]⟩ 2 ↔ _ :=
    ready_iff_of_unset lane unset
  rw [servers] at ready
  refine ⟨d, _, s₀, { s with progress := .choosing }, e, seed, started, failed.trans reaches, rfl,
    returned, ?_, rfl, rfl, ready.trans behind, sent⟩
  intro j s' there ne _
  obtain _ | _ | j := j
  · obtain rfl := Option.some.inj there
    rw [id]
    exact (by decide : (6 : UInt64) ≠ 7)
  · exact absurd rfl ne
  · cases there

/-- An honest submission after one whose announcement came to no server is accepted; after one whose
announcement came to some only, it is refused. -/
theorem decided_bit :
    (∃ (d : Deployment ChaCha20) (w : World ChaCha20) (s₀ s : Submission) (e : ServerError)
      (v : Verdict),
      Deployment.start .seventeen Checker.bit 3 1 4 (.ofKey ⟨Vector.replicate 32 0⟩) = .ok d ∧
        Reaches (fun s => s.network.Steady) ⟨d, []⟩ w ∧ w.submissions = [s₀, s] ∧
        s₀.progress = .returned (.error e) ∧ s.network = .reliable ∧
        s.progress = .returned (.ok v) ∧ v.accepted) ∧
    ∃ (d : Deployment ChaCha20) (w : World ChaCha20) (s₀ s : Submission) (e : ServerError)
      (epoch current : UInt64),
      Deployment.start .seventeen Checker.bit 3 1 4 (.ofKey ⟨Vector.replicate 32 0⟩) = .ok d ∧
        Reaches (fun s => s.network.Steady) ⟨d, []⟩ w ∧ w.submissions = [s₀, s] ∧
        s₀.progress = .returned (.error e) ∧ s.network = .reliable ∧
        s.progress = .returned (.error (.staleEpoch s.leader epoch current)) := by
  have decided (reached : Bool) : ∃ (d : Deployment ChaCha20) (w : World ChaCha20)
      (s₀ s : Submission) (e : ServerError) (result : Except ServerError Verdict),
      Deployment.start .seventeen Checker.bit 3 1 4 (.ofKey ⟨Vector.replicate 32 0⟩) = .ok d ∧
        Reaches (fun s => s.network.Steady) ⟨d, []⟩ w ∧ w.submissions = [s₀, s] ∧
        s₀.progress = .returned (.error e) ∧ s.network = .reliable ∧
        s.progress = .returned result ∧ (reached = false → ∃ v, result = .ok v ∧ v.accepted) ∧
        (reached = true →
          ∃ epoch current, result = .error (.staleEpoch s.leader epoch current)) := by
    obtain ⟨d, w₁, s₀, s, e, seed, started, before, both, failed, unique, choosing, reliable, ready,
      sent⟩ := exists_choosing_after_bit reached
    obtain ⟨w, after, length, still⟩ := exists_still (fun s => s.network.Steady) w₁
    have first : w.submissions[0]? = some s₀ :=
      after.getElem?_of_returned (by rw [both]; rfl) failed
    have present₁ : w₁.submissions[1]? = some s := by rw [both]; rfl
    obtain ⟨p, present⟩ := after.getElem? present₁
    obtain ⟨returned, decided⟩ := returns_of_honest (s := { s with progress := p })
      Checker.wellFormed_bit Nat.one_pos started (fun _ => id) (before.trans after) present
      reliable (unique.of_length after length) sent (Checker.check_bit true)
    obtain ⟨result, rfl⟩ := returned still
    obtain ⟨accepted, refused⟩ :=
      (decided result rfl).2 w₁ ⟨before, after, by rw [present₁, ← choosing]⟩
    rw [ready] at accepted refused
    have eq : w.submissions = [s₀, { s with progress := .returned result }] := by
      rw [both] at length
      obtain ⟨s₁, s₂, eq⟩ := List.length_eq_two.1 length
      rw [eq] at first present ⊢
      rw [Option.some.inj first, Option.some.inj present]
    refine ⟨d, w, s₀, _, e, result, started, before.trans after, eq, failed, reliable, rfl,
      accepted, fun reached => refused ?_⟩
    rw [reached]
    nofun
  constructor
  · obtain ⟨d, w, s₀, s, e, result, started, run, both, failed, reliable, returned, accepted, -⟩ :=
      decided false
    obtain ⟨v, rfl, favourable⟩ := accepted rfl
    exact ⟨d, w, s₀, s, e, v, started, run, both, failed, reliable, returned, favourable⟩
  · obtain ⟨d, w, s₀, s, e, result, started, run, both, failed, reliable, returned, -, refused⟩ :=
      decided true
    obtain ⟨epoch, current, rfl⟩ := refused rfl
    exact ⟨d, w, s₀, s, e, epoch, current, started, run, both, failed, reliable, returned⟩

end World

end PrivateSums
