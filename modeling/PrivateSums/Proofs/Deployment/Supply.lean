import PrivateSums.Proofs.Deployment.Ownership
import PrivateSums.Proofs.Deployment.Restoration

/-!
Checkers never run out on the way. As long as no two submissions have the same identifier, each has
at most one checker of a server on loan, with its pending request or with its call; and the lane
lets no more of them in than there are checkers.
-/

namespace PrivateSums

theorem CheckerPool.exists_takePermit? {p : CheckerPool} (h : 0 < p.permits) :
    ∃ p', p.takePermit? = some p' := by
  obtain ⟨permits, eq⟩ := Nat.exists_eq_succ_of_ne_zero h.ne'
  exact ⟨{ p with permits }, by rw [takePermit?, eq]⟩

/-- Whether an operation found its request not pending, or took it out, and has not answered. -/
def Stage.excludes {c : Call} : Stage c → Bool
  | .called | .bound _ | .computed _ | .answered _ => false
  | _ => true

theorem Stage.permits_add_waits_le {c : Call} (stage : Stage c) :
    Assets.permits stage.assets + stage.waits.toNat ≤ stage.excludes.toNat := by
  cases stage <;> simp [assets, excludes, waits, Pending.assets]

theorem LeaderSlot.putBack_of_absent {s : LeaderSlot} {c : Call} {id : RequestId} {p : Pending}
    {reply : c.Reply} (absent : s.pending.find? id = none) :
    (s.putBack id p reply).2 = (.answered (.ok reply) : Stage c) := by
  rw [putBack, absent]

/-- The request of such an operation stays away, if nobody else has its identifier. -/
theorem Server.find?_of_excludes {server : Server} {slot slot' : LeaderSlot} {c : Call}
    {m : c.Message} {stage stage' : Stage c} {id : RequestId} (about : ∀ i ∈ c.id? m, i = id)
    (h : server.stepSlot slot m stage = some (slot', stage'))
    (before : stage.excludes → slot.pending.find? id = none) (excludes : stage'.excludes) :
    slot'.pending.find? id = none := by
  have finish {stage : Stage c} (h : slot.finish stage = some (slot', stage'))
      (before : stage.excludes → slot.pending.find? id = none) : slot'.pending.find? id = none := by
    rw [LeaderSlot.pending_finish h]
    cases stage <;> first | exact before rfl | cases h
  cases c with
  | newRequest =>
    cases stage <;> simp only [stepSlot, LeaderSlot.stepNewRequest] at h
    case releasing | leaving | answered => exact finish h before
    case called => split at h <;> (cases h; cases excludes)
    case bound =>
      split at h <;> cases h
      · cases excludes
      · exact about _ rfl ▸ ‹_›
    case unused =>
      obtain ⟨pool, -, h⟩ := Option.map_eq_some_iff.1 h
      obtain ⟨rfl, rfl⟩ := Prod.mk.inj h
      exact before rfl
    case loaded =>
      split at h <;> cases h
      · exact before rfl
      · cases excludes
    all_goals split at h <;> cases h <;> exact before rfl
  | evalCircuit =>
    cases stage <;> simp only [stepSlot, LeaderSlot.stepEvalCircuit] at h
    case releasing | leaving | answered => exact finish h before
    case called =>
      obtain ⟨rfl, rfl⟩ := Prod.mk.inj (Option.some.inj h)
      exact about _ rfl ▸ LeaderSlot.find?_takeOut
    case evaluating => split at h <;> cases h <;> exact before rfl
    case evaluated =>
      have answered : _ = stage' := congrArg Prod.snd (Option.some.inj h)
      rw [LeaderSlot.putBack_of_absent (about _ rfl ▸ before rfl)] at answered
      rw [← answered] at excludes
      cases excludes
  | finalCircuit =>
    cases stage <;> simp only [stepSlot, LeaderSlot.stepFinalCircuit] at h
    case releasing | leaving | answered => exact finish h before
    case called =>
      obtain ⟨rfl, rfl⟩ := Prod.mk.inj (Option.some.inj h)
      exact about _ rfl ▸ LeaderSlot.find?_takeOut
    case finalising => split at h <;> cases h <;> exact before rfl
    case finalised =>
      have answered : _ = stage' := congrArg Prod.snd (Option.some.inj h)
      rw [LeaderSlot.putBack_of_absent (about _ rfl ▸ before rfl)] at answered
      rw [← answered] at excludes
      cases excludes
  | accept =>
    cases stage <;> simp only [stepSlot, LeaderSlot.stepAccept] at h
    case releasing | leaving | answered => exact finish h before
    case called =>
      obtain ⟨rfl, rfl⟩ := Prod.mk.inj (Option.some.inj h)
      exact about _ rfl ▸ LeaderSlot.find?_takeOut
    case deciding =>
      cases h
      exact before rfl
  | changePoint =>
    cases stage <;> simp only [stepSlot, LeaderSlot.stepChangePoint] at h
    case releasing | leaving | answered => exact finish h before
    case called => cases h; cases excludes
    case computed => split at h <;> (cases h; cases excludes)
  | abort =>
    cases stage <;> simp only [stepSlot, LeaderSlot.stepAbort] at h
    case releasing | leaving | answered => exact finish h before
    case called =>
      split at h <;> cases h
      · cases excludes
      · exact about _ rfl ▸ PendingRequests.find?_erase_self

theorem countP_eq_sum {α : Type} (p : α → Bool) (l : List α) :
    l.countP p = (l.map fun a => (p a).toNat).sum := by
  induction l with
  | nil => rfl
  | cons a l ih =>
    rw [List.countP_cons, List.map_cons, List.sum_cons, ih, Nat.add_comm]
    cases p a <;> rfl

theorem census_eq_sum (stages : Progress → Bool) (leader : UInt64) (submissions : List Submission) :
    census stages leader submissions = (submissions.map fun s =>
      if s.leader = leader then (stages s.progress).toNat else 0).sum := by
  rw [census, countP_eq_sum]
  congr 2
  funext s
  by_cases leads : s.leader = leader <;> simp [leads]

namespace Submission

/-- What a submission has on loan in the slot of a leader on one server. -/
def loans (s : Submission) (peer : Nat) (leader : UInt64) (slot : LeaderSlot) : Nat :=
  if s.leader = leader then
    Assets.permits (s.assets peer leader.toNat) +
      (s.progress.attends peer && (slot.pending.find? s.id).isSome).toNat
  else 0

variable {s : Submission} {peer : Nat}

/-- Of its calls, it keeps what the one to a server keeps. -/
theorem Apart.assets_eq (apart : s.Apart) {call : AnyCall} (made : call ∈ s.progress.calls) :
    s.assets call.2.peer s.leader.toNat = call.2.operation.stage.assets := by
  classical
  have others (other : AnyCall) (ne : other ≠ call) (mem : other ∈ s.progress.calls) :
      other.assets call.2.peer = 0 :=
    if_neg fun same => ne (List.inj_on_of_nodup_map apart mem made same)
  rw [assets, if_pos rfl, List.sum_map_eq_nsmul_single call _ others,
    List.count_eq_one_of_mem apart.of_map made, one_nsmul, AnyCall.assets, if_pos rfl]

theorem loans_eq_zero_of_elsewhere (elsewhere : ∀ call ∈ s.progress.calls, call.2.peer ≠ peer)
    (leader : UInt64) (slot : LeaderSlot) : s.loans peer leader slot = 0 := by
  have none : s.assets peer leader.toNat = 0 := by
    have none : (s.progress.calls.map (AnyCall.assets peer)).sum = 0 := by
      refine List.sum_eq_zero fun a mem => ?_
      obtain ⟨call, among, rfl⟩ := List.mem_map.1 mem
      rw [AnyCall.assets, if_neg (elsewhere call among)]
    rw [assets, none, ite_self]
  have idle : s.progress.attends peer = false := by
    by_contra attends
    obtain ⟨call, made, same, -⟩ := Progress.attends_iff.1 (Bool.not_eq_false _ ▸ attends)
    exact elsewhere call made same
  rw [loans, none, idle]
  exact ite_self 0

theorem Proceeds.called_or_lost {σ : Type} {d : Deployment σ} {f : Lane → Lane} {p' : Progress}
    (h : s.Proceeds d f p') {call : AnyCall} (made : call ∈ p'.calls) :
    call.2.operation.stage = .called ∨ ∃ e, call.2.operation.stage = .answered (.error e) := by
  obtain ⟨peer, message, fresh⟩ := h.fresh call made
  rw [fresh]
  exact PeerCall.stage_start_cases s.network peer message

/-- It has one at most, and none while it waits for one. -/
theorem Apart.loans_le (apart : s.Apart) {call : AnyCall} (made : call ∈ s.progress.calls)
    {slot : LeaderSlot}
    (excluded : call.2.operation.stage.excludes → slot.pending.find? s.id = none) :
    s.loans call.2.peer s.leader slot + call.2.operation.stage.waits.toNat ≤ 1 := by
  have permits := call.2.operation.stage.permits_add_waits_le
  rw [loans, if_pos rfl, apart.assets_eq made]
  by_cases excludes : call.2.operation.stage.excludes
  · have absent := excluded excludes
    rw [excludes, Bool.toNat_true] at permits
    simpa [absent] using permits
  · rw [Bool.eq_false_of_not_eq_true excludes, Bool.toNat_false] at permits
    have pending := Bool.toNat_le
      (s.progress.attends call.2.peer && (slot.pending.find? s.id).isSome)
    omega

end Submission

namespace World

variable {σ : Type}

/-- How many checkers of a slot pending requests and operations have on loan. -/
def onLoan (w : World σ) (peer leader : Nat) (slot : LeaderSlot) : Nat :=
  slot.pending.length + Assets.checkers (w.submissions.map (Submission.assets peer leader)).sum

/-- Whether no two submissions of a leader have the same identifier. -/
def Distinct (w : World σ) : Prop := ∀ i s, w.submissions[i]? = some s → w.Unique i s

theorem distinct_of_nodup {w : World σ}
    (nodup : (w.submissions.map fun s => (s.leader, s.id)).Nodup) : w.Distinct := by
  intro i s there j s' there' ne leads same
  refine ne ((List.getElem?_inj ?_ nodup).1 ?_)
  · rw [List.length_map]
    exact (List.getElem?_eq_some_iff.1 there').1
  · rw [List.getElem?_map, List.getElem?_map, there, there', Option.map_some, Option.map_some,
      leads, same]

/-- What keeps submissions from having two checkers of a server on loan: no server has two calls of
one, and none has its request while a call does. -/
structure Frugal (w : World σ) : Prop where
  apart : ∀ s ∈ w.submissions, s.Apart
  excluded : ∀ s ∈ w.submissions, ∀ call ∈ s.progress.calls, call.2.operation.stage.excludes →
    ∀ slot, slotAt? w.deployment.servers call.2.peer s.leader.toNat = some slot →
      slot.pending.find? s.id = none

section Step

variable [WordSource σ] {F : Field} {domain : CircuitDomain} {n : Nat}
  {admits : Submission → Prop} {w w' : World σ}

theorem Distinct.of_reaches (distinct : w'.Distinct) (h : Reaches admits w w') : w.Distinct := by
  intro i s there
  obtain ⟨p, there'⟩ := h.getElem? there
  have unique := distinct i _ there'
  exact Unique.of_reaches (s := s) unique h

theorem Frugal.of_step (frugal : w.Frugal) (proper : w.Proper F domain n) (distinct : w.Distinct)
    (h : Step admits w w') : w'.Frugal := by
  obtain ⟨-, next⟩ := proper.of_step h
  obtain ⟨d', submissions'⟩ := w'
  obtain ⟨s, start, -, rfl, rfl⟩ | ⟨i, s, s', present, rfl, turn⟩ := next
  · have calls : s.progress.calls = [] := by rw [start]; rfl
    constructor <;> intro s' mem <;> obtain mem | mem := List.mem_append.1 mem
    · exact frugal.apart s' mem
    · obtain rfl := List.mem_singleton.1 mem
      rw [Submission.Apart, calls]
      exact List.nodup_nil
    · exact frugal.excluded s' mem
    · obtain rfl := List.mem_singleton.1 mem
      exact fun call made => absurd (calls ▸ made) List.not_mem_nil
  have mem := List.mem_of_getElem? present
  have others {j : Nat} {s₁ : Submission} (there : w.submissions[j]? = some s₁) :=
    List.mem_of_getElem? there
  cases turn with
  | own proceeds leads =>
    constructor <;> intro s₁ mem₁ <;> obtain rfl | ⟨j, ne, there⟩ := of_mem_set mem₁
    · exact proceeds.apart (proper.fits.length_eq.symm ▸ proper.submissions s mem)
    · exact frugal.apart s₁ (others there)
    · intro call made excludes
      obtain called | ⟨e, lost⟩ := proceeds.called_or_lost made
      · rw [called] at excludes
        cases excludes
      · rw [lost] at excludes
        cases excludes
    · rw [leads.servers_eq]
      exact frugal.excluded s₁ (others there)
  | @call c await calls k call server slot slot' stage' moved =>
    constructor <;> intro s₁ mem₁ <;> obtain rfl | ⟨j, ne, there⟩ := of_mem_set mem₁
    · rw [Submission.Apart, moved.peers_eq]
      exact frugal.apart s mem
    · exact frugal.apart s₁ (others there)
    · intro made listed excludes slot₁ found
      rw [moved.awaits.calls_eq] at listed
      obtain ⟨call', among, rfl⟩ := List.mem_map.1 listed
      have apart : (calls.map (·.peer)).Nodup := by
        have apart := frugal.apart s mem
        rwa [Submission.Apart, moved.start, moved.awaits.calls_eq, List.map_map] at apart
      exact moved.forall_set_of_nodup apart
        (P := fun call slot => call.operation.stage.excludes → slot.pending.find? s.id = none)
        (fun call among slot found excludes => frugal.excluded s mem ⟨c, call⟩
          (moved.awaits.mem_calls moved.start among) excludes slot found)
        (Server.find?_of_excludes moved.makes.id_eq moved.step) call' among slot₁ found excludes
    · intro made listed excludes slot₁ found
      have before := frugal.excluded s₁ (others there) made listed excludes
      rw [moved.slots] at found
      split at found
      · rename_i place
        have leads := UInt64.toNat_inj.1 place.2
        obtain rfl := Option.some.inj found
        rw [moved.moves.find?_ne (distinct i s present j s₁ there ne leads)]
        exact before slot (place.1 ▸ place.2 ▸ moved.found)
      · exact before slot₁ found

theorem Frugal.of_reaches (frugal : w.Frugal) (proper : w.Proper F domain n)
    (distinct : w'.Distinct) (h : Reaches admits w w') : w'.Frugal := by
  induction h with
  | refl => exact frugal
  | @tail w₁ w₂ reached step ih =>
    have before := distinct.of_reaches (.single step)
    exact (ih before).of_step (proper.of_reaches reached) before step

end Step

section Use

variable {F : Field} {c : Circuit} {domain : CircuitDomain} {n capacity peer : Nat}
  {leader : UInt64} {w : World σ} {slot : LeaderSlot}

theorem Frugal.loans_le (frugal : w.Frugal)
    (found : slotAt? w.deployment.servers peer leader.toNat = some slot) :
    ∀ s ∈ w.submissions, s.loans peer leader slot ≤
      if s.leader = leader then s.progress.isInLane.toNat else 0 := by
  intro s mem
  obtain rfl | ne := eq_or_ne s.leader leader
  · by_cases some : ∃ call ∈ s.progress.calls, call.2.peer = peer
    · obtain ⟨call, made, rfl⟩ := some
      have le := (frugal.apart s mem).loans_le made fun excludes =>
        frugal.excluded s mem call made excludes slot found
      rw [if_pos rfl, Progress.isInLane_of_calls made]
      exact Nat.le_trans (Nat.le_add_right ..) le
    · rw [Submission.loans_eq_zero_of_elsewhere fun call made same => some ⟨call, made, same⟩]
      exact Nat.zero_le _
  · rw [Submission.loans, if_neg ne, if_neg ne]

theorem Frugal.loans_eq_zero (frugal : w.Frugal) {s : Submission} (mem : s ∈ w.submissions)
    {call : AnyCall} (made : call ∈ s.progress.calls) (waits : call.2.operation.stage.waits)
    (found : slotAt? w.deployment.servers call.2.peer s.leader.toNat = some slot) :
    s.loans call.2.peer s.leader slot = 0 := by
  have le := (frugal.apart s mem).loans_le made fun excludes =>
    frugal.excluded s mem call made excludes slot found
  rw [waits] at le
  exact Nat.le_zero.1 (Nat.le_of_succ_le_succ le)

/-- What is not free is on loan to submissions of the leader. -/
theorem Sound.capacity_le (sound : w.Sound F c domain n capacity)
    (found : slotAt? w.deployment.servers peer leader.toNat = some slot) :
    capacity ≤
      slot.pool.permits + (w.submissions.map (Submission.loans · peer leader slot)).sum := by
  let owns (s : Submission) : Bool :=
    s.leader = leader && (s.progress.attends peer && (slot.pending.find? s.id).isSome)
  have owned : slot.pending.length ≤ w.submissions.countP owns := by
    refine (sound.stocked.tidy _ _ slot found).distinct.length_le_countP fun id pending => ?_
    obtain ⟨s, mem, rfl, leads, attends⟩ := sound.attended _ _ slot id found pending
    exact ⟨s, mem, rfl, by
      simp [owns, UInt64.toNat_inj.1 leads, attends, Option.isSome_iff_ne_none, pending]⟩
  have split (s : Submission) : s.loans peer leader slot =
      Assets.permits (s.assets peer leader.toNat) + (owns s).toNat := by
    obtain rfl | ne := eq_or_ne s.leader leader
    · simp [owns, Submission.loans]
    · simp [owns, Submission.loans, Submission.assets, ne, mt UInt64.toNat_inj.1 ne]
  have total := LeaderSlot.permits_add_permits (sound.stocked.total _ _ slot found)
  rw [map_list_sum, List.map_map] at total
  rw [funext split, List.sum_map_add, ← countP_eq_sum]
  simp only [Function.comp_def] at total
  omega

/-- How a slot stands to the submissions in the lane of its leader. -/
structure Supplies (capacity : Nat) (w : World σ) (peer : Nat) (leader : UInt64)
    (slot : LeaderSlot) : Prop where
  /-- A checker is at rest or on loan. -/
  idle_add : slot.pool.idle.length + w.onLoan peer leader.toNat slot = capacity
  onLoan_le : w.onLoan peer leader.toNat slot ≤ census Progress.isInLane leader w.submissions
  available_le : slot.pool.available ≤ slot.pool.idle.length
  le_available : capacity ≤ slot.pool.available + census Progress.isInLane leader w.submissions

theorem Sound.supplies (sound : w.Sound F c domain n capacity) (frugal : w.Frugal)
    (found : slotAt? w.deployment.servers peer leader.toNat = some slot) :
    w.Supplies capacity peer leader slot := by
  have total := sound.stocked.total _ _ slot found
  have checkers := LeaderSlot.idle_add_checkers total
  have available := LeaderSlot.permits_le total
    (Assets.Backed.sum (w.backed_submissions peer leader.toNat))
  have enough : capacity ≤ slot.pool.permits + census Progress.isInLane leader w.submissions := by
    rw [census_eq_sum]
    exact (sound.capacity_le found).trans
      (Nat.add_le_add_left (List.sum_le_sum (frugal.loans_le found)) _)
  have idle_add : slot.pool.idle.length + w.onLoan peer leader.toNat slot = capacity := by
    rw [onLoan, ← Nat.add_assoc, checkers]
  exact ⟨idle_add, by omega, available, enough⟩

/-- A submission that waits for a checker has none, and there are as many as may be in the lane. -/
theorem Sound.permits_pos (sound : w.Sound F c domain n capacity) (frugal : w.Frugal)
    {s : Submission} (mem : s ∈ w.submissions) {call : AnyCall} (made : call ∈ s.progress.calls)
    (waits : call.2.operation.stage.waits)
    (found : slotAt? w.deployment.servers call.2.peer s.leader.toNat = some slot) :
    0 < slot.pool.permits := by
  have inLane := Progress.isInLane_of_calls made
  have fewer : (w.submissions.map (Submission.loans · call.2.peer s.leader slot)).sum <
      census Progress.isInLane s.leader w.submissions := by
    rw [census_eq_sum]
    refine List.sum_lt_sum _ _ (frugal.loans_le found) ⟨s, mem, ?_⟩
    rw [if_pos rfl, frugal.loans_eq_zero mem made waits found, inLane]
    exact Nat.one_pos
  obtain ⟨l, lane⟩ := sound.proper.exists_lane mem (Progress.isUnderWay_of_calls made)
  have count := (sound.counted _ l lane).permits
  have enough := sound.capacity_le found
  omega

end Use

section Run

variable [WordSource σ] {F : Field} {c : Circuit} {n capacity rotation : Nat} {source : σ}
  {d : Deployment σ} {w : World σ}

omit [WordSource σ] in
theorem exists_sound_start (h : Deployment.start F c n capacity rotation source = .ok d) :
    ∃ domain, Sound F c domain n capacity ⟨d, []⟩ := by
  obtain ⟨domain, proper⟩ := exists_proper_start h
  obtain rfl | some := Nat.eq_zero_or_pos n
  · obtain rfl := Except.ok.inj h
    have none {peer leader : Nat} {slot : LeaderSlot} (found : slotAt? [] peer leader = some slot) :
        False := by cases found
    refine ⟨domain, proper, ⟨?_, ?_⟩, ?_, ?_, fun s mem => absurd mem List.not_mem_nil⟩
    · exact fun _ _ _ found => (none found).elim
    · exact fun _ _ _ found => (none found).elim
    · exact fun _ l lane => absurd (List.mem_of_getElem? lane) List.not_mem_nil
    · exact fun _ _ _ _ found => (none found).elim
  · obtain ⟨domain, domainOk⟩ := exists_domain some h
    exact ⟨domain, sound_start domainOk h⟩

/-- As long as no two submissions of a leader have the same identifier, in whichever order they take
their steps: no more checkers of a slot are on loan than submissions of its leader are in the lane,
and a call that comes for a checker is given one at once. -/
theorem supplied_of_start (started : Deployment.start F c n capacity rotation source = .ok d)
    (run : Reaches (fun s => s.network = .reliable) ⟨d, []⟩ w)
    (distinct : (w.submissions.map fun s => (s.leader, s.id)).Nodup) :
    (∀ peer (leader : UInt64) slot,
        slotAt? w.deployment.servers peer leader.toNat = some slot →
          w.Supplies capacity peer leader slot) ∧
      ∀ s ∈ w.submissions, ∀ (call : PeerCall .newRequest) (point : EvaluationPoint),
        ⟨_, call⟩ ∈ s.progress.calls → call.operation.stage = .unused point →
          (∃ slot pool, slotAt? w.deployment.servers call.peer s.leader.toNat = some slot ∧
            slot.pool.acquire? = some (.ok (.new F c call.peer s.leader.toNat n, pool))) ∧
          ∃ servers, call.step w.deployment.servers =
            some (servers, call.withStage (.permitted point)) := by
  obtain ⟨domain, sound⟩ := exists_sound_start started
  have frugal : Frugal ⟨d, []⟩ :=
    ⟨fun s mem => absurd mem List.not_mem_nil, fun s mem => absurd mem List.not_mem_nil⟩
  have frugal := frugal.of_reaches sound.proper (distinct_of_nodup distinct) run
  have sound := sound.of_reaches (fun _ => steady_of_reliable) run
  refine ⟨fun peer leader slot found => sound.supplies frugal found,
    fun s mem call point made waiting => ?_⟩
  obtain ⟨placed, makes, -⟩ := sound.proper.submissions s mem
  obtain ⟨peer_lt, leads, -⟩ := makes _ made
  obtain ⟨slot, found⟩ :=
    sound.proper.fits.exists_slot peer_lt (placed (Progress.isUnderWay_of_calls made)).1
  have waits : call.operation.stage.waits := by
    rw [waiting]
    rfl
  obtain ⟨promised, taken⟩ :=
    CheckerPool.exists_takePermit? (sound.permits_pos frugal mem made waits found)
  have acquired : slot.pool.acquire? = some promised.takeChecker := by
    rw [CheckerPool.acquire?, taken, Option.map_some]
  obtain ⟨pool, eq⟩ := sound.stocked.acquire? found acquired
  refine ⟨⟨slot, pool, found, acquired.trans (congrArg some eq)⟩, ?_⟩
  obtain ⟨server, there, slot_at⟩ := Option.bind_eq_some_iff.1 found
  have moved : server.stepSlot slot call.operation.message call.operation.stage =
      some ({ slot with pool := promised }, .permitted point) := by
    rw [waiting]
    simp only [Server.stepSlot, LeaderSlot.stepNewRequest, taken, Option.map_some]
  exact ⟨_, PeerCall.step_of_server there (Server.step_of_stepSlot (leads ▸ slot_at) moved)⟩

/-- Two submissions of a leader. A server has lent the first one a checker, and the second one waits
for the other there. -/
theorem exists_waiting_bit : ∃ (d : Deployment ChaCha20) (w : World ChaCha20) (s s' : Submission),
    Deployment.start .seventeen Checker.bit 3 2 4 (.ofKey ⟨Vector.replicate 32 0⟩) = .ok d ∧
      Reaches (fun s => s.network = .reliable) ⟨d, []⟩ w ∧ w.submissions = [s, s'] ∧
      s.id = 6 ∧ s'.id = 7 ∧
      (∃ slot, slotAt? w.deployment.servers 1 2 = some slot ∧ slot.pool.idle.length = 1) ∧
      ∃ (call : PeerCall .newRequest) (point : EvaluationPoint),
        ⟨_, call⟩ ∈ s'.progress.calls ∧ call.operation.stage = .unused point := by
  obtain ⟨d, domain, requests, -, started, domainOk, count, -⟩ := exists_started_bit 2
  obtain ⟨r₀, r₁, r₂, rfl⟩ := List.length_eq_three.1 count
  let first := Submission.start .reliable 6 2 [r₀, r₁, r₂]
  let second := Submission.start .reliable 7 2 [r₀, r₁, r₂]
  let announcing (x : Nat) (stage : Stage .changePoint) : Progress :=
    .rotating 0 ((List.range 3).map fun peer => ⟨peer, .intact, ⟨⟨2, 0, x⟩, stage⟩⟩)
  let onSlot (f : LeaderSlot → LeaderSlot) (server : Server) : Server :=
    { server with slots := server.slots.modify 2 f }
  -- the first one draws the point of the first epoch
  let lanes : List Lane := [.fresh 2, .fresh 2, ⟨none, 0, true, 0, 1⟩]
  obtain ⟨x, source, records, drawn⟩ : ∃ x source records,
      d.follow first (.replicate 5 .proceed) =
        some ({ d with lanes, source, records },
          { first with progress := announcing x .called }) := by
    obtain rfl := Except.ok.inj ((start_eq domainOk).symm.trans started)
    exact ⟨_, _, _, rfl⟩
  -- all servers install it
  let servers := d.servers.map (onSlot fun slot =>
    { slot with points := ⟨some (0, .ofPoint .seventeen domain x), none⟩ })
  have installed : Deployment.follow { d with lanes, source, records }
      { first with progress := announcing x .called }
      [.call 0, .call 0, .call 1, .call 1, .call 2, .call 2] =
        some ({ d with servers, lanes, source, records },
          { first with progress := announcing x (.answered (.ok ())) }) := by
    obtain rfl := Except.ok.inj ((start_eq domainOk).symm.trans started)
    rfl
  -- a server lends it a checker
  let servers' := servers.modify 1 (onSlot fun slot =>
    { slot with pool := { slot.pool with idle := slot.pool.idle.tail, permits := 1 } })
  let lanes' : List Lane := [.fresh 2, .fresh 2, ⟨some 0, 1, false, 1, 1⟩]
  obtain ⟨s, records', lent, id⟩ : ∃ s records', Deployment.follow
      { d with servers, lanes, source, records }
      { first with progress := announcing x (.answered (.ok ())) }
      [.proceed, .call 1, .call 1, .call 1, .call 1] =
        some ({ d with servers := servers', lanes := lanes', source, records := records' }, s) ∧
      s.id = 6 := by
    obtain rfl := Except.ok.inj ((start_eq domainOk).symm.trans started)
    exact ⟨_, _, rfl, rfl⟩
  -- the second one comes to this server
  obtain ⟨d', s', comes, id', found, waits⟩ : ∃ d' s', Deployment.follow
      { d with servers := servers', lanes := lanes', source, records := records' } second
      [.proceed, .proceed, .proceed, .proceed, .call 1, .call 1] = some (d', s') ∧ s'.id = 7 ∧
      (∃ slot, slotAt? d'.servers 1 2 = some slot ∧ slot.pool.idle.length = 1) ∧
      ∃ (call : PeerCall .newRequest) (point : EvaluationPoint),
        ⟨_, call⟩ ∈ s'.progress.calls ∧ call.operation.stage = .unused point := by
    obtain rfl := Except.ok.inj ((start_eq domainOk).symm.trans started)
    exact ⟨_, _, rfl, rfl, ⟨_, rfl, rfl⟩, _, _, .tail _ (.head _), rfl⟩
  have begins : Reaches (fun s => s.network = .reliable) ⟨d, []⟩
      ⟨{ d with servers := servers', lanes := lanes', source, records := records' }, [s]⟩ :=
    .head (.arrive rfl rfl) (((reaches_follow [] drawn).trans (reaches_follow [] installed)).trans
      (reaches_follow [] lent))
  exact ⟨d, _, s, s', started, (begins.tail (.arrive rfl rfl)).trans (reaches_follow [s] comes),
    rfl, id, id', found, waits⟩

/-- A server that has lent one of its two checkers lends the other to the next submission. -/
theorem supplied_bit : ∃ (d : Deployment ChaCha20) (w : World ChaCha20) (s s' : Submission),
    Deployment.start .seventeen Checker.bit 3 2 4 (.ofKey ⟨Vector.replicate 32 0⟩) = .ok d ∧
      Reaches (fun s => s.network = .reliable) ⟨d, []⟩ w ∧ w.submissions = [s, s'] ∧
      (w.submissions.map fun s => (s.leader, s.id)).Nodup ∧
      (∃ slot, slotAt? w.deployment.servers 1 2 = some slot ∧ slot.pool.idle.length = 1 ∧
        w.Supplies 2 1 2 slot) ∧
      ∃ (call : PeerCall .newRequest) (point : EvaluationPoint) (servers : List Server),
        ⟨_, call⟩ ∈ s'.progress.calls ∧ call.operation.stage = .unused point ∧
          call.step w.deployment.servers = some (servers, call.withStage (.permitted point)) := by
  obtain ⟨d, w, s, s', started, run, both, id, id', ⟨slot, found, idle⟩, call, point, made,
    waiting⟩ := exists_waiting_bit
  have distinct : (w.submissions.map fun s => (s.leader, s.id)).Nodup := by simp [both, id, id']
  obtain ⟨supplies, given⟩ := supplied_of_start started run distinct
  obtain ⟨-, servers, step⟩ := given s' (by simp [both]) call point made waiting
  exact ⟨d, w, s, s', started, run, both, distinct, ⟨slot, found, idle, supplies 1 2 slot found⟩,
    call, point, servers, made, waiting, step⟩

end Run

end World

end PrivateSums
