import Mathlib.Logic.Relation
import PrivateSums.Proofs.Deployment.Calls

/-!
All runs of a deployment. Submissions come at any time, and whichever step can be taken may be the
next.
-/

namespace PrivateSums

theorem mem_set_or_eq {α : Type} {l : List α} {i : Nat} {a b : α} (present : l[i]? = some a)
    (mem : b ∈ l) (a' : α) : b ∈ l.set i a' ∨ b = a := by
  obtain ⟨j, found⟩ := List.mem_iff_getElem?.1 mem
  obtain rfl | ne := eq_or_ne i j
  · exact .inr (Option.some.inj (found.symm.trans present))
  · exact .inl (List.mem_iff_getElem?.2 ⟨j, by rw [List.getElem?_set_ne ne, found]⟩)

theorem of_mem_set {α : Type} {l : List α} {i : Nat} {a b : α} (mem : b ∈ l.set i a) :
    b = a ∨ ∃ j, j ≠ i ∧ l[j]? = some b := by
  obtain ⟨j, found⟩ := List.mem_iff_getElem?.1 mem
  obtain rfl | ne := eq_or_ne i j
  · obtain ⟨here, eq⟩ := List.getElem?_eq_some_iff.1 found
    exact .inl (eq.symm.trans (List.getElem_set_self ..))
  · exact .inr ⟨j, ne.symm, by rwa [List.getElem?_set_ne ne] at found⟩

/-- A deployment with all submissions that have come to it. -/
structure World (σ : Type) where
  deployment : Deployment σ
  submissions : List Submission

/-- What a submission comes to by moves that it takes one after the other. -/
def Deployment.follow {σ : Type} [WordSource σ] (d : Deployment σ) (s : Submission) :
    List Move → Option (Deployment σ × Submission)
  | [] => some (d, s)
  | m :: moves => do
    let (d, s) ← d.step s m
    d.follow s moves

namespace World

variable {σ : Type} [WordSource σ]

/-- What may happen next, when only some submissions come. -/
inductive Step (admits : Submission → Prop) (w : World σ) : World σ → Prop
  | arrive {s : Submission} (start : s.progress = .arrived) (admitted : admits s) :
      Step admits w { w with submissions := w.submissions ++ [s] }
  | move {i : Nat} {s s' : Submission} {m : Move} {d : Deployment σ}
      (present : w.submissions[i]? = some s) (step : w.deployment.step s m = some (d, s')) :
      Step admits w ⟨d, w.submissions.set i s'⟩

abbrev Reaches (admits : Submission → Prop) : World σ → World σ → Prop :=
  Relation.ReflTransGen (Step admits)

/-- Whether no submission can take a step. -/
def Still (w : World σ) : Prop :=
  ∀ (i : Nat) (s : Submission) (m : Move), w.submissions[i]? = some s →
    w.deployment.step s m = none

end World

namespace Submission

variable {c : Call} (s : Submission)

/-- Calls of the submission, just sent. -/
def callEach (messages : List (Nat × c.Message)) : List (PeerCall c) :=
  messages.map fun (peer, message) => .start s.network peer message

/-- The same call to some servers. -/
def callThese (peers : List Nat) (message : c.Message) : List (PeerCall c) :=
  s.callEach (peers.map (·, message))

/-- The calls that hand every server its request. -/
def handing (servers : Nat) (epoch : UInt64) : List (PeerCall .newRequest) :=
  s.callEach (c := .newRequest) ((List.range servers).zip
    (s.requests.map fun request => { id := s.id, leader := s.leader, epoch, request }))

variable {σ : Type} (d : Deployment σ)

/-- The steps of a submission itself, by what they do to its lane and to its progress. -/
inductive Proceeds : (Lane → Lane) → Progress → Prop
  | refuse {e : ServerError} (start : s.progress = .arrived)
      (examined : s.examine d.servers.length = .error e) :
      Proceeds (fun l => l) (.returned (.error e))
  | queue (start : s.progress = .arrived) (examined : s.examine d.servers.length = .ok ()) :
      Proceeds (fun l => l) .queued
  | enter {l l' : Lane} (start : s.progress = .queued) (lane : d.lane? s.leader = some l)
      (entered : l.enter? = some l') : Proceeds (fun _ => l') .entered
  | choose {l : Lane} (start : s.progress = .entered) (lane : d.lane? s.leader = some l)
      (free : l.giving = false) : Proceeds (fun l => { l with giving := true }) .choosing
  | drain {l : Lane} {epoch : UInt64} (start : s.progress = .choosing)
      (lane : d.lane? s.leader = some l) (due : l.dueEpoch? d.rotation = some epoch) :
      Proceeds (fun l => l) (.draining epoch)
  | give {l : Lane} {epoch : UInt64} (start : s.progress = .choosing)
      (lane : d.lane? s.leader = some l) (due : l.dueEpoch? d.rotation = none)
      (current : l.epoch = some epoch) :
      Proceeds Lane.give (.admitting (s.handing d.servers.length epoch))
  | rotate {l : Lane} {epoch : UInt64} (x : Nat) (start : s.progress = .draining epoch)
      (lane : d.lane? s.leader = some l) (calm : l.admissions = 0) :
      Proceeds (fun l => l) (.rotating epoch (s.callThese (List.range d.servers.length)
        { leader := s.leader, epoch, x }))
  | rotationFails {epoch : UInt64} {calls : List (PeerCall .changePoint)}
      {answers : List (Except ServerError Unit)} {e : ServerError}
      (start : s.progress = .rotating epoch calls)
      (answered : PeerCall.answers? calls = some answers)
      (failed : allReplies answers = .error e) : Proceeds Lane.stopGiving (.leaving (.error e))
  | rotated {epoch : UInt64} {calls : List (PeerCall .changePoint)}
      {answers : List (Except ServerError Unit)} {replies : List Unit}
      (start : s.progress = .rotating epoch calls)
      (answered : PeerCall.answers? calls = some answers)
      (replied : allReplies answers = .ok replies) :
      Proceeds (fun l => (l.rotated epoch).give) (.admitting (s.handing d.servers.length epoch))
  | admissionFails {calls : List (PeerCall .newRequest)} {answers : List (Except ServerError Unit)}
      {e : ServerError} (start : s.progress = .admitting calls)
      (answered : PeerCall.answers? calls = some answers)
      (failed : allReplies answers = .error e) :
      Proceeds Lane.endAdmission (.aborting e (s.callThese
        ((List.range d.servers.length).filter fun peer => answers[peer]?.any (·.isOk))
        { id := s.id, leader := s.leader }))
  | admitted {calls : List (PeerCall .newRequest)} {answers : List (Except ServerError Unit)}
      {replies : List Unit} (start : s.progress = .admitting calls)
      (answered : PeerCall.answers? calls = some answers)
      (replied : allReplies answers = .ok replies) :
      Proceeds Lane.endAdmission (.evaluating (s.callThese (List.range d.servers.length)
        { id := s.id, leader := s.leader }))
  | evaluationFails {calls : List (PeerCall .evalCircuit)}
      {answers : List (Except ServerError CorShare)} {e : ServerError}
      (start : s.progress = .evaluating calls)
      (answered : PeerCall.answers? calls = some answers)
      (failed : allReplies answers = .error e) :
      Proceeds (fun l => l) (.aborting e (s.callThese (List.range d.servers.length)
        { id := s.id, leader := s.leader }))
  | evaluated {calls : List (PeerCall .evalCircuit)}
      {answers : List (Except ServerError CorShare)} {corShares : List CorShare} (key : Key)
      (start : s.progress = .evaluating calls)
      (answered : PeerCall.answers? calls = some answers)
      (replied : allReplies answers = .ok corShares) :
      Proceeds (fun l => l) (.finalising (s.callThese (List.range d.servers.length)
        { id := s.id, leader := s.leader, corShares, key }))
  | finalFails {calls : List (PeerCall .finalCircuit)}
      {answers : List (Except ServerError OutShare)} {e : ServerError}
      (start : s.progress = .finalising calls)
      (answered : PeerCall.answers? calls = some answers)
      (failed : allReplies answers = .error e) :
      Proceeds (fun l => l) (.aborting e (s.callThese (List.range d.servers.length)
        { id := s.id, leader := s.leader }))
  | finalised {calls : List (PeerCall .finalCircuit)}
      {answers : List (Except ServerError OutShare)} {outShares : List OutShare}
      (start : s.progress = .finalising calls)
      (answered : PeerCall.answers? calls = some answers)
      (replied : allReplies answers = .ok outShares) :
      Proceeds (fun l => l) (.accepting (s.callThese (List.range d.servers.length)
        { id := s.id, leader := s.leader, outShares }))
  | verdictFails {calls : List (PeerCall .accept)}
      {answers : List (Except ServerError AcceptReply)} {e : ServerError}
      (start : s.progress = .accepting calls)
      (answered : PeerCall.answers? calls = some answers)
      (failed : allReplies answers >>= Verdict.ofReplies s.id = .error e) :
      Proceeds (fun l => l) (.aborting e (s.callThese (List.range d.servers.length)
        { id := s.id, leader := s.leader }))
  | decided {calls : List (PeerCall .accept)}
      {answers : List (Except ServerError AcceptReply)} {verdict : Verdict}
      (start : s.progress = .accepting calls)
      (answered : PeerCall.answers? calls = some answers)
      (replied : allReplies answers >>= Verdict.ofReplies s.id = .ok verdict) :
      Proceeds (fun l => l) (.leaving (.ok verdict))
  | aborted {e : ServerError} {calls : List (PeerCall .abort)}
      {answers : List (Except ServerError Unit)} (start : s.progress = .aborting e calls)
      (answered : PeerCall.answers? calls = some answers) :
      Proceeds (fun l => l) (.leaving (.error e))
  | leave {result : Except ServerError Verdict} (start : s.progress = .leaving result) :
      Proceeds Lane.leave (.returned result)

/-- What the lanes are when the lane of the submission is changed. -/
structure Leads (d d' : Deployment σ) (s : Submission) (f : Lane → Lane) : Prop where
  servers_eq : d'.servers = d.servers
  lanes_eq : d'.lanes = d.lanes.modify s.leader.toNat f
  rotation_eq : d'.rotation = d.rotation

variable {s d}

theorem leads_self : Leads d d s fun l => l := ⟨rfl, (List.modify_id ..).symm, rfl⟩

theorem leads_setLane {l : Lane} (lane : d.lane? s.leader = some l) (f : Lane → Lane) :
    Leads d (d.setLane s.leader (f l)) s f := by
  refine ⟨rfl, ?_, rfl⟩
  rw [Deployment.lane?] at lane
  rw [List.modify_eq_set_getElem?, lane]
  rfl

theorem Leads.lane? {d' : Deployment σ} {f : Lane → Lane} (leads : Leads d d' s f)
    (leader : UInt64) :
    d'.lane? leader = (d.lane? leader).map fun l => if s.leader = leader then f l else l := by
  rw [Deployment.lane?, leads.lanes_eq, List.getElem?_modify]
  obtain rfl | ne := eq_or_ne s.leader leader
  · simp [Deployment.lane?]
  · simp [Deployment.lane?, ne, mt UInt64.toNat_inj.1 ne]

variable [WordSource σ] {d' : Deployment σ} {p' : Progress}

theorem proceeds_of_proceed (h : s.proceed d = some (d', p')) :
    ∃ f, s.Proceeds d f p' ∧ Leads d d' s f := by
  unfold proceed at h
  split at h <;> rename_i start
  · obtain h := Option.some.inj h
    split at h <;> obtain ⟨rfl, rfl⟩ := Prod.mk.inj h
    · exact ⟨_, .refuse start ‹_›, leads_self⟩
    · exact ⟨_, .queue start ‹_›, leads_self⟩
  · obtain ⟨l, lane, h⟩ := Option.bind_eq_some_iff.1 h
    obtain ⟨l', entered, h⟩ := Option.bind_eq_some_iff.1 h
    obtain ⟨rfl, rfl⟩ := Prod.mk.inj (Option.some.inj h)
    exact ⟨_, .enter start lane entered, leads_setLane lane fun _ => l'⟩
  · obtain ⟨l, lane, h⟩ := Option.bind_eq_some_iff.1 h
    obtain ⟨l', giving, h⟩ := Option.bind_eq_some_iff.1 h
    obtain ⟨rfl, rfl⟩ := Prod.mk.inj (Option.some.inj h)
    unfold Lane.startGiving? at giving
    split at giving
    · cases giving
    · rename_i free
      cases giving
      exact ⟨_, .choose start lane (by simpa using free),
        leads_setLane lane fun l => { l with giving := true }⟩
  · obtain ⟨l, lane, h⟩ := Option.bind_eq_some_iff.1 h
    split at h
    · obtain ⟨rfl, rfl⟩ := Prod.mk.inj (Option.some.inj h)
      exact ⟨_, .drain start lane ‹_›, leads_self⟩
    · obtain ⟨epoch, current, h⟩ := Option.bind_eq_some_iff.1 h
      obtain ⟨rfl, rfl⟩ := Prod.mk.inj (Option.some.inj h)
      obtain ⟨servers, lanes, rotation⟩ := leads_setLane lane Lane.give
      exact ⟨_, .give start lane ‹_› current, servers, lanes, rotation⟩
  · obtain ⟨l, lane, h⟩ := Option.bind_eq_some_iff.1 h
    obtain ⟨_, calm, h⟩ := Option.bind_eq_some_iff.1 h
    obtain ⟨rfl, rfl⟩ := Prod.mk.inj (Option.some.inj h)
    have calm : l.admissions = 0 := by
      by_contra ne
      rw [guard, if_neg ne] at calm
      cases calm
    obtain ⟨servers, lanes, rotation⟩ := leads_self (s := s) (d := d)
    exact ⟨_, .rotate _ start lane calm, servers, lanes, rotation⟩
  · obtain ⟨l, lane, h⟩ := Option.bind_eq_some_iff.1 h
    obtain ⟨answers, answered, h⟩ := Option.bind_eq_some_iff.1 h
    have h := Option.some.inj h
    unfold afterRotation at h
    split at h <;> obtain ⟨rfl, rfl⟩ := Prod.mk.inj h
    · exact ⟨_, .rotationFails start answered ‹_›, leads_setLane lane _⟩
    · obtain ⟨servers, lanes, rotation⟩ := leads_setLane lane fun l => (l.rotated _).give
      exact ⟨_, .rotated start answered ‹_›, servers, lanes, rotation⟩
  · obtain ⟨answers, answered, h⟩ := Option.bind_eq_some_iff.1 h
    have h := Option.some.inj h
    unfold afterAdmission at h
    dsimp only at h
    split at h <;> obtain ⟨rfl, rfl⟩ := Prod.mk.inj h
    · exact ⟨_, .admissionFails start answered ‹_›, rfl, rfl, rfl⟩
    · exact ⟨_, .admitted start answered ‹_›, rfl, rfl, rfl⟩
  · obtain ⟨answers, answered, h⟩ := Option.bind_eq_some_iff.1 h
    have h := Option.some.inj h
    obtain ⟨servers, lanes, rotation⟩ := leads_self (s := s) (d := d)
    unfold afterEvaluation at h
    split at h <;> obtain ⟨rfl, rfl⟩ := Prod.mk.inj h
    · exact ⟨_, .evaluationFails start answered ‹_›, servers, lanes, rotation⟩
    · exact ⟨_, .evaluated _ start answered ‹_›, servers, lanes, rotation⟩
  · obtain ⟨answers, answered, h⟩ := Option.bind_eq_some_iff.1 h
    have h := Option.some.inj h
    obtain ⟨servers, lanes, rotation⟩ := leads_self (s := s) (d := d)
    unfold afterFinal at h
    split at h <;> obtain ⟨rfl, rfl⟩ := Prod.mk.inj h
    · exact ⟨_, .finalFails start answered ‹_›, servers, lanes, rotation⟩
    · exact ⟨_, .finalised start answered ‹_›, servers, lanes, rotation⟩
  · obtain ⟨answers, answered, h⟩ := Option.bind_eq_some_iff.1 h
    have h := Option.some.inj h
    obtain ⟨servers, lanes, rotation⟩ := leads_self (s := s) (d := d)
    unfold afterAccept at h
    split at h <;> obtain ⟨rfl, rfl⟩ := Prod.mk.inj h
    · exact ⟨_, .verdictFails start answered ‹_›, servers, lanes, rotation⟩
    · exact ⟨_, .decided start answered ‹_›, servers, lanes, rotation⟩
  · obtain ⟨answers, answered, h⟩ := Option.bind_eq_some_iff.1 h
    obtain ⟨rfl, rfl⟩ := Prod.mk.inj (Option.some.inj h)
    exact ⟨_, .aborted start answered, leads_self⟩
  · obtain ⟨rfl, rfl⟩ := Prod.mk.inj (Option.some.inj h)
    exact ⟨_, .leave start, rfl, rfl, rfl⟩
  · cases h

/-- What is recorded is just the calls that are made. -/
theorem records_of_proceed (h : s.proceed d = some (d', p')) :
    d'.records = (p'.calls.map AnyCall.record).reverse ++ d.records := by
  have sent {c : Call} (calls : List (PeerCall c)) :
      (calls.map PeerCall.record).reverse ++ d.records =
        ((calls.map (Sigma.mk c)).map AnyCall.record).reverse ++ d.records := by
    rw [List.map_map]
    rfl
  unfold proceed at h
  split at h
  · have h := Option.some.inj h
    split at h <;> (obtain ⟨rfl, rfl⟩ := Prod.mk.inj h; rfl)
  · obtain ⟨l, -, h⟩ := Option.bind_eq_some_iff.1 h
    obtain ⟨l', -, h⟩ := Option.bind_eq_some_iff.1 h
    obtain ⟨rfl, rfl⟩ := Prod.mk.inj (Option.some.inj h)
    rfl
  · obtain ⟨l, -, h⟩ := Option.bind_eq_some_iff.1 h
    obtain ⟨l', -, h⟩ := Option.bind_eq_some_iff.1 h
    obtain ⟨rfl, rfl⟩ := Prod.mk.inj (Option.some.inj h)
    rfl
  · obtain ⟨l, -, h⟩ := Option.bind_eq_some_iff.1 h
    split at h
    · obtain ⟨rfl, rfl⟩ := Prod.mk.inj (Option.some.inj h)
      rfl
    · obtain ⟨epoch, -, h⟩ := Option.bind_eq_some_iff.1 h
      obtain ⟨rfl, rfl⟩ := Prod.mk.inj (Option.some.inj h)
      exact sent _
  · obtain ⟨l, -, h⟩ := Option.bind_eq_some_iff.1 h
    obtain ⟨_, -, h⟩ := Option.bind_eq_some_iff.1 h
    obtain ⟨rfl, rfl⟩ := Prod.mk.inj (Option.some.inj h)
    exact sent _
  · obtain ⟨l, -, h⟩ := Option.bind_eq_some_iff.1 h
    obtain ⟨answers, -, h⟩ := Option.bind_eq_some_iff.1 h
    have h := Option.some.inj h
    unfold afterRotation at h
    split at h <;> obtain ⟨rfl, rfl⟩ := Prod.mk.inj h
    · rfl
    · exact sent _
  iterate 4
    · obtain ⟨answers, -, h⟩ := Option.bind_eq_some_iff.1 h
      have h := Option.some.inj h
      simp only [afterAdmission, afterEvaluation, afterFinal, afterAccept] at h
      split at h <;> obtain ⟨rfl, rfl⟩ := Prod.mk.inj h <;> first | exact sent _ | rfl
  · obtain ⟨answers, -, h⟩ := Option.bind_eq_some_iff.1 h
    obtain ⟨rfl, rfl⟩ := Prod.mk.inj (Option.some.inj h)
    rfl
  · obtain ⟨rfl, rfl⟩ := Prod.mk.inj (Option.some.inj h)
    rfl
  · cases h

end Submission

namespace PeerCall

variable {c : Call} (network : Network) (peer : Nat) (message : c.Message)

@[simp] theorem assets_start : (start network peer message).operation.stage.assets = 0 := by
  dsimp only [start]
  split <;> rfl

end PeerCall

/-- Whether a submission passed its examination and has not returned. -/
def Progress.isUnderWay : Progress → Bool
  | arrived | returned _ => false
  | _ => true

/-- Whether the calls under way, if all servers get one, are in server order. -/
def Progress.Ordered (n : Nat) : Progress → Prop
  | rotating _ calls => calls.map (·.peer) = List.range n
  | admitting calls => calls.map (·.peer) = List.range n
  | evaluating calls => calls.map (·.peer) = List.range n
  | finalising calls => calls.map (·.peer) = List.range n
  | accepting calls => calls.map (·.peer) = List.range n
  | _ => True

theorem PeerCall.map_peer_set {c : Call} {calls : List (PeerCall c)} {i : Nat} {call : PeerCall c}
    (present : calls[i]? = some call) (stage : Stage c) :
    (calls.set i (call.withStage stage)).map (·.peer) = calls.map (·.peer) := by
  obtain ⟨here, rfl⟩ := List.getElem?_eq_some_iff.1 present
  rw [List.map_set]
  refine List.ext_getElem (by simp) fun j _ _ => ?_
  rw [List.getElem_set]
  split
  · rename_i eq
    subst eq
    rw [List.getElem_map]
    rfl
  · rfl

theorem Progress.Ordered.set {n i : Nat} {c : Call} {await : List (PeerCall c) → Progress}
    {calls : List (PeerCall c)} {call : PeerCall c} (h : (await calls).Ordered n)
    (awaits : Progress.Awaits c await) (present : calls[i]? = some call) (stage : Stage c) :
    (await (calls.set i (call.withStage stage))).Ordered n := by
  have same := PeerCall.map_peer_set present stage
  cases awaits <;> first | exact trivial | exact same.trans h

namespace Submission

/-- The calls that a submission may make. -/
structure Makes (s : Submission) (n : Nat) (call : AnyCall) : Prop where
  peer_lt : call.2.peer < n
  leader_eq : call.2.operation.leader = s.leader
  id_eq : ∀ i ∈ call.1.id? call.2.operation.message, i = s.id
  fate_eq : call.2.fate = s.network call.2.peer call.1 call.2.operation.message

theorem Makes.withProgress {s : Submission} {n : Nat} {call : AnyCall} (h : s.Makes n call)
    {p : Progress} : { s with progress := p }.Makes n call :=
  ⟨h.peer_lt, h.leader_eq, h.id_eq, h.fate_eq⟩

structure Proper (s : Submission) (n : Nat) : Prop where
  placed : s.progress.isUnderWay → s.leader.toNat < n ∧ s.requests.length = n
  makes : ∀ call ∈ s.progress.calls, s.Makes n call
  ordered : s.progress.Ordered n

variable {s : Submission} {n : Nat}

theorem makes_start {c : Call} {peer : Nat} {message : c.Message} (peer_lt : peer < n)
    (leader : c.leader message = s.leader) (about : ∀ i ∈ c.id? message, i = s.id) :
    s.Makes n ⟨c, .start s.network peer message⟩ :=
  ⟨peer_lt, leader, about, rfl⟩

/-- The calls of some servers are one each, all with one message. -/
theorem exists_of_mem_callThese {c : Call} {peers : List Nat} {message : c.Message}
    {call : PeerCall c} (mem : call ∈ s.callThese peers message) :
    ∃ peer ∈ peers, call = .start s.network peer message := by
  obtain ⟨_, listed, rfl⟩ := List.mem_map.1 mem
  obtain ⟨peer, among, rfl⟩ := List.mem_map.1 listed
  exact ⟨peer, among, rfl⟩

/-- Every server is handed the request of its own number. -/
theorem exists_of_mem_handing {epoch : UInt64} {call : PeerCall .newRequest}
    (mem : call ∈ s.handing n epoch) :
    ∃ peer request, peer < n ∧ s.requests[peer]? = some request ∧
      call = .start s.network peer { id := s.id, leader := s.leader, epoch, request } := by
  obtain ⟨⟨peer, message⟩, listed, rfl⟩ := List.mem_map.1 mem
  obtain ⟨i, at_i⟩ := List.mem_iff_getElem?.1 listed
  obtain ⟨numbered, handed⟩ := List.getElem?_zip_eq_some.1 at_i
  obtain ⟨here, same⟩ := List.getElem?_eq_some_iff.1 numbered
  rw [List.getElem_range] at same
  subst same
  rw [List.getElem?_map] at handed
  obtain ⟨request, there, rfl⟩ := Option.map_eq_some_iff.1 handed
  exact ⟨i, request, by simpa using here, there, rfl⟩

theorem makes_callThese {c : Call} {peers : List Nat} {message : c.Message}
    (peers_lt : ∀ peer ∈ peers, peer < n) (leader : c.leader message = s.leader)
    (about : ∀ i ∈ c.id? message, i = s.id) :
    ∀ call ∈ (s.callThese peers message).map (Sigma.mk c), s.Makes n call := by
  intro call mem
  obtain ⟨_, sent, rfl⟩ := List.mem_map.1 mem
  obtain ⟨peer, among, rfl⟩ := exists_of_mem_callThese sent
  exact makes_start (peers_lt peer among) leader about

theorem makes_handing (epoch : UInt64) :
    ∀ call ∈ (s.handing n epoch).map (Sigma.mk .newRequest), s.Makes n call := by
  intro call mem
  obtain ⟨_, sent, rfl⟩ := List.mem_map.1 mem
  obtain ⟨peer, request, peer_lt, -, rfl⟩ := exists_of_mem_handing sent
  exact makes_start peer_lt rfl fun i about => (Option.some.inj about).symm

theorem peers_callThese {c : Call} (peers : List Nat) (message : c.Message) :
    (s.callThese peers message).map (·.peer) = peers := by
  simp [callThese, callEach, PeerCall.start, Function.comp_def]

theorem peers_handing (count : s.requests.length = n) (epoch : UInt64) :
    (s.handing n epoch).map (·.peer) = List.range n := by
  have fits : (List.range n).length ≤ (s.requests.map fun request =>
      ({ id := s.id, leader := s.leader, epoch, request } : NewRequest)).length := by simp [count]
  rw [handing, callEach, List.map_map]
  exact Eq.trans rfl (List.map_fst_zip fits)

theorem examine_eq_ok (h : s.examine n = .ok ()) : s.leader.toNat < n ∧ s.requests.length = n := by
  by_cases leads : s.leader.toNat < n
  · by_cases count : s.requests.length = n
    · exact ⟨leads, count⟩
    · simp [examine, leads, count] at h
  · simp [examine, leads] at h

section Proceeds

variable {σ : Type} {d d' : Deployment σ} {f : Lane → Lane} {p' : Progress}

theorem Proceeds.answered (h : s.Proceeds d f p') :
    ∀ call ∈ s.progress.calls, ∃ answer, call.2.operation.stage = .answered answer := by
  have all {c : Call} {calls : List (PeerCall c)} {answers : List (Except ServerError c.Reply)}
      (answered : PeerCall.answers? calls = some answers) :
      ∀ call ∈ calls.map (Sigma.mk c), ∃ answer, call.2.operation.stage = .answered answer := by
    intro call mem
    obtain ⟨sent, listed, rfl⟩ := List.mem_map.1 mem
    exact PeerCall.answered_of_answers? answered sent listed
  cases h with
  | refuse start | queue start | enter start | choose start | drain start | give start
  | rotate _ start | leave start =>
    rw [start]
    exact fun _ mem => absurd mem List.not_mem_nil
  | rotationFails start answered | rotated start answered | admissionFails start answered
  | admitted start answered | evaluationFails start answered | evaluated _ start answered
  | finalFails start answered | finalised start answered | verdictFails start answered
  | decided start answered | aborted start answered =>
    rw [start]
    exact all answered

theorem Proceeds.fresh (h : s.Proceeds d f p') :
    ∀ call ∈ p'.calls, ∃ peer message, call.2 = .start s.network peer message := by
  have each {c : Call} (messages : List (Nat × c.Message)) :
      ∀ call ∈ (s.callEach messages).map (Sigma.mk c),
        ∃ peer message, call.2 = .start s.network peer message := by
    intro call mem
    obtain ⟨_, sent, rfl⟩ := List.mem_map.1 mem
    obtain ⟨⟨peer, message⟩, -, rfl⟩ := List.mem_map.1 sent
    exact ⟨peer, message, rfl⟩
  cases h with
  | give | rotated | rotate | admissionFails | admitted | evaluationFails | evaluated | finalFails
  | finalised | verdictFails => exact each _
  | refuse | queue | enter | choose | drain | rotationFails | decided | aborted | leave =>
    exact fun _ mem => absurd mem List.not_mem_nil

theorem Proceeds.makes (h : s.Proceeds d f p') :
    ∀ call ∈ p'.calls, s.Makes d.servers.length call := by
  have everywhere : ∀ peer ∈ List.range d.servers.length, peer < d.servers.length :=
    fun peer mem => List.mem_range.1 mem
  have about (i : RequestId) (h : i ∈ some s.id) : i = s.id := (Option.some.inj h).symm
  cases h with
  | give | rotated => exact makes_handing _
  | rotate => exact makes_callThese (c := .changePoint) everywhere rfl nofun
  | admissionFails =>
    exact makes_callThese (c := .abort)
      (fun peer mem => everywhere peer (List.mem_filter.1 mem).1) rfl about
  | admitted => exact makes_callThese (c := .evalCircuit) everywhere rfl about
  | evaluated => exact makes_callThese (c := .finalCircuit) everywhere rfl about
  | finalised => exact makes_callThese (c := .accept) everywhere rfl about
  | evaluationFails | finalFails | verdictFails =>
    exact makes_callThese (c := .abort) everywhere rfl about
  | refuse | queue | enter | choose | drain | rotationFails | decided | aborted | leave =>
    exact fun _ mem => absurd mem List.not_mem_nil

theorem Proceeds.proper (h : s.Proceeds d f p') (proper : s.Proper d.servers.length) :
    { s with progress := p' }.Proper d.servers.length := by
  refine ⟨fun underWay => ?_, fun call mem => (h.makes call mem).withProgress, ?_⟩
  rotate_left
  · cases h with
    | give start | rotated start =>
      exact peers_handing (proper.placed (by rw [start]; rfl)).2 _
    | rotate | admitted | evaluated | finalised => exact peers_callThese ..
    | refuse | queue | enter | choose | drain | rotationFails | admissionFails | evaluationFails
    | finalFails | verdictFails | decided | aborted | leave => trivial
  cases h with
  | refuse | leave => cases underWay
  | queue start examined => exact examine_eq_ok examined
  | enter start | choose start | drain start | give start | rotate _ start | rotationFails start
  | rotated start | admissionFails start | admitted start | evaluationFails start
  | evaluated _ start | finalFails start | finalised start | verdictFails start | decided start
  | aborted start => exact proper.placed (by rw [start]; rfl)

end Proceeds

/-- One step of one call, by what it does to the slot of the submission's leader. -/
structure CallStep (F : Field) (domain : CircuitDomain) {σ : Type} (d : Deployment σ)
    (s : Submission) (d' : Deployment σ) {c : Call} (await : List (PeerCall c) → Progress)
    (calls : List (PeerCall c)) (i : Nat) (call : PeerCall c) (server : Server)
    (slot slot' : LeaderSlot) (stage' : Stage c) : Prop where
  awaits : Progress.Awaits c await
  start : s.progress = await calls
  present : calls[i]? = some call
  makes : s.Makes d.servers.length ⟨c, call⟩
  field_eq : server.field = F
  domain_eq : server.domain = domain
  found : slotAt? d.servers call.peer s.leader.toNat = some slot
  step : server.stepSlot slot call.operation.message call.operation.stage = some (slot', stage')
  slots : ∀ peer leader, slotAt? d'.servers peer leader =
    if peer = call.peer ∧ leader = s.leader.toNat then some slot'
    else slotAt? d.servers peer leader
  lanes_eq : d'.lanes = d.lanes
  rotation_eq : d'.rotation = d.rotation
  records_eq : d'.records = d.records

theorem CallStep.moves {F : Field} {domain : CircuitDomain} {σ : Type} {d d' : Deployment σ}
    {s : Submission} {c : Call} {await : List (PeerCall c) → Progress} {calls : List (PeerCall c)}
    {i : Nat} {call : PeerCall c} {server : Server} {slot slot' : LeaderSlot} {stage' : Stage c}
    (h : CallStep F domain d s d' await calls i call server slot slot' stage') :
    slot.Moves s.id call.operation.stage slot' stage' :=
  Server.moves_stepSlot h.makes.id_eq h.step

section Call

variable {F : Field} {domain : CircuitDomain} {σ : Type} {d d' : Deployment σ} {s : Submission}
  {c : Call} {await : List (PeerCall c) → Progress} {calls : List (PeerCall c)} {i : Nat}
  {call : PeerCall c} {server : Server} {slot slot' : LeaderSlot} {stage' : Stage c}

theorem CallStep.made
    (h : CallStep F domain d s d' await calls i call server slot slot' stage') :
    (⟨c, call⟩ : AnyCall) ∈ s.progress.calls :=
  h.awaits.mem_calls h.start (List.mem_of_getElem? h.present)

theorem CallStep.isUnderWay
    (h : CallStep F domain d s d' await calls i call server slot slot' stage') :
    s.progress.isUnderWay := by
  rw [h.start]
  cases h.awaits <;> rfl

/-- What is told of a progress whatever its calls are stays as it is. -/
theorem CallStep.stable
    (h : CallStep F domain d s d' await calls i call server slot slot' stage')
    (stages : Progress → Bool)
    (same : ∀ calls calls', stages (await calls) = stages (await calls')) :
    stages (await (calls.set i (call.withStage stage'))) = stages s.progress := by
  rw [h.start]
  exact same _ _

end Call

/-- What holds of all calls and slots holds after a step, if it does of the call that took it and no
server has two. -/
theorem CallStep.forall_set_of_nodup {F : Field} {domain : CircuitDomain} {σ : Type}
    {d d' : Deployment σ} {s : Submission} {c : Call} {await : List (PeerCall c) → Progress}
    {calls : List (PeerCall c)} {i : Nat} {call : PeerCall c} {server : Server}
    {slot slot' : LeaderSlot} {stage' : Stage c}
    (h : CallStep F domain d s d' await calls i call server slot slot' stage')
    (apart : (calls.map (·.peer)).Nodup) {P : PeerCall c → LeaderSlot → Prop}
    (before : ∀ call ∈ calls, ∀ slot, slotAt? d.servers call.peer s.leader.toNat = some slot →
      P call slot)
    (next : P call slot → P (call.withStage stage') slot') :
    ∀ call' ∈ calls.set i (call.withStage stage'), ∀ slot₁,
      slotAt? d'.servers call'.peer s.leader.toNat = some slot₁ → P call' slot₁ := by
  intro call' mem slot₁ found
  rw [h.slots] at found
  obtain rfl | ⟨j, ne, there⟩ := of_mem_set mem
  · rw [if_pos ⟨rfl, rfl⟩] at found
    exact Option.some.inj found ▸ next (before call (List.mem_of_getElem? h.present) slot h.found)
  · have elsewhere : call'.peer ≠ call.peer := by
      intro same
      have here : j < (calls.map (·.peer)).length := by
        rw [List.length_map]
        exact (List.getElem?_eq_some_iff.1 there).1
      refine ne ((List.getElem?_inj here apart).1 ?_)
      rw [List.getElem?_map, List.getElem?_map, there, h.present, Option.map_some,
        Option.map_some, same]
    rw [if_neg fun place => elsewhere place.1] at found
    exact before call' (List.mem_of_getElem? there) slot₁ found

theorem CallStep.forall_set {F : Field} {domain : CircuitDomain} {σ : Type} {d d' : Deployment σ}
    {s : Submission} {c : Call} {await : List (PeerCall c) → Progress} {calls : List (PeerCall c)}
    {i n : Nat} {call : PeerCall c} {server : Server} {slot slot' : LeaderSlot} {stage' : Stage c}
    (h : CallStep F domain d s d' await calls i call server slot slot' stage')
    (ordered : calls.map (·.peer) = List.range n) {P : PeerCall c → LeaderSlot → Prop}
    (before : ∀ call ∈ calls, ∀ slot, slotAt? d.servers call.peer s.leader.toNat = some slot →
      P call slot)
    (next : P call slot → P (call.withStage stage') slot') :
    ∀ call' ∈ calls.set i (call.withStage stage'), ∀ slot₁,
      slotAt? d'.servers call'.peer s.leader.toNat = some slot₁ → P call' slot₁ :=
  h.forall_set_of_nodup (ordered ▸ List.nodup_range) before next

/-- A step of a submission, by what it does to the lane and to the slots of its leader. -/
inductive Turn (F : Field) (domain : CircuitDomain) {σ : Type} (d : Deployment σ) (s : Submission)
    (d' : Deployment σ) : Submission → Prop
  | own {f : Lane → Lane} {p' : Progress} (proceeds : s.Proceeds d f p') (leads : Leads d d' s f)
      (records_eq : d'.records = (p'.calls.map AnyCall.record).reverse ++ d.records) :
      Turn F domain d s d' { s with progress := p' }
  | call {c : Call} {await : List (PeerCall c) → Progress} {calls : List (PeerCall c)} {i : Nat}
      {call : PeerCall c} {server : Server} {slot slot' : LeaderSlot} {stage' : Stage c}
      (moved : CallStep F domain d s d' await calls i call server slot slot' stage') :
      Turn F domain d s d' { s with progress := await (calls.set i (call.withStage stage')) }

section Turn

variable {σ : Type} [WordSource σ] {F : Field} {domain : CircuitDomain} {d d' : Deployment σ}
  {s s' : Submission} {n : Nat} {m : Move}

theorem turn_of_step (fits : Fits F domain n d.servers) (proper : s.Proper n)
    (h : d.step s m = some (d', s')) :
    s.Turn F domain d d' s' ∧ Fits F domain n d'.servers ∧ s'.Proper n := by
  obtain rfl := fits.length_eq
  cases m with
  | proceed =>
    obtain ⟨⟨d'', p'⟩, proceed, h⟩ := Option.bind_eq_some_iff.1 h
    obtain ⟨rfl, rfl⟩ := Prod.mk.inj (Option.some.inj h)
    obtain ⟨f, proceeds, leads⟩ := proceeds_of_proceed proceed
    exact ⟨.own proceeds leads (records_of_proceed proceed), leads.servers_eq ▸ fits,
      proceeds.proper proper⟩
  | call i =>
    obtain ⟨⟨servers, p'⟩, stepped, h⟩ := Option.bind_eq_some_iff.1 h
    obtain ⟨rfl, rfl⟩ := Prod.mk.inj (Option.some.inj h)
    obtain ⟨c, await, awaits, calls, call, call', start, present, step, rfl⟩ :=
      Progress.of_stepCall stepped
    have underWay : s.progress.isUnderWay := by
      rw [start]
      cases awaits <;> rfl
    have makes : s.Makes d.servers.length ⟨c, call⟩ :=
      proper.makes _ (awaits.mem_calls start (List.mem_of_getElem? present))
    have leader : call.operation.leader = s.leader := makes.leader_eq
    obtain ⟨fits', server, slot, slot', stage', field, domain, found, moves, rfl, slots⟩ :=
      PeerCall.of_step fits (leader ▸ (proper.placed underWay).1) step
    rw [leader] at found slots
    refine ⟨.call
      ⟨awaits, start, present, makes, field, domain, found, moves, slots, rfl, rfl, rfl⟩,
      fits', fun _ => proper.placed underWay, fun other mem => ?_,
      (start ▸ proper.ordered).set awaits present stage'⟩
    rw [awaits.calls_eq] at mem
    obtain ⟨sent, listed, rfl⟩ := List.mem_map.1 mem
    obtain old | rfl := List.mem_or_eq_of_mem_set listed
    · exact (proper.makes _ (awaits.mem_calls start old)).withProgress
    · exact ⟨makes.peer_lt, makes.leader_eq, makes.id_eq, makes.fate_eq⟩

end Turn

end Submission

theorem Deployment.step_eq {σ : Type} [WordSource σ] {d d' : Deployment σ} {s s' : Submission}
    {m : Move} (h : d.step s m = some (d', s')) : ∃ p, s' = { s with progress := p } := by
  cases m <;>
  · obtain ⟨_, -, h⟩ := Option.bind_eq_some_iff.1 h
    obtain ⟨-, rfl⟩ := Prod.mk.inj (Option.some.inj h)
    exact ⟨_, rfl⟩

namespace World

variable {σ : Type} {F : Field} {domain : CircuitDomain} {n : Nat}

/-- What the parts of a world have in common. -/
structure Proper (F : Field) (domain : CircuitDomain) (n : Nat) (w : World σ) : Prop where
  fits : Fits F domain n w.deployment.servers
  lanes_length : w.deployment.lanes.length = n
  submissions : ∀ s ∈ w.submissions, s.Proper n

theorem Proper.exists_lane {w : World σ} (proper : w.Proper F domain n) {s : Submission}
    (mem : s ∈ w.submissions) (underWay : s.progress.isUnderWay) :
    ∃ l, w.deployment.lane? s.leader = some l := by
  have placed := ((proper.submissions s mem).placed underWay).1
  rw [← proper.lanes_length] at placed
  exact ⟨_, List.getElem?_eq_getElem placed⟩

section Step

variable [WordSource σ] {admits : Submission → Prop} {w w' : World σ}

/-- A step brings one submission or takes a turn of one. -/
theorem Proper.of_step (proper : w.Proper F domain n) (h : Step admits w w') :
    w'.Proper F domain n ∧
      ((∃ s, s.progress = .arrived ∧ admits s ∧ w'.deployment = w.deployment ∧
          w'.submissions = w.submissions ++ [s]) ∨
        ∃ i s s', w.submissions[i]? = some s ∧ w'.submissions = w.submissions.set i s' ∧
          s.Turn F domain w.deployment w'.deployment s') := by
  obtain ⟨fits, lanes, submissions⟩ := proper
  cases h with
  | @arrive s start admitted =>
    refine ⟨⟨fits, lanes, fun other mem => ?_⟩, .inl ⟨s, start, admitted, rfl, rfl⟩⟩
    obtain mem | mem := List.mem_append.1 mem
    · exact submissions other mem
    · obtain rfl := List.mem_singleton.1 mem
      refine ⟨fun underWay => ?_, fun call mem => ?_, ?_⟩
      · rw [start] at underWay
        cases underWay
      · rw [start] at mem
        cases mem
      · rw [start]
        trivial
  | @move i s s' m d present step =>
    obtain ⟨turn, fits', proper'⟩ :=
      Submission.turn_of_step fits (submissions s (List.mem_of_getElem? present)) step
    refine ⟨⟨fits', ?_, fun other mem => ?_⟩, .inr ⟨i, s, s', present, rfl, turn⟩⟩
    · cases turn with
      | own _ leads => rw [leads.lanes_eq, List.length_modify, lanes]
      | call moved => rw [moved.lanes_eq, lanes]
    · obtain mem | rfl := List.mem_or_eq_of_mem_set mem
      · exact submissions other mem
      · exact proper'

/-- What a step has to do with the submission at one place: it leaves it, brings it, or takes a turn
of it. -/
theorem Proper.of_step_at (proper : w.Proper F domain n) (h : Step admits w w') {i : Nat}
    {s' : Submission} (present : w'.submissions[i]? = some s') :
    w.submissions[i]? = some s' ∨ s'.progress = .arrived ∧ admits s' ∨
      ∃ s, w.submissions[i]? = some s ∧ s.Turn F domain w.deployment w'.deployment s' := by
  obtain ⟨-, next⟩ := proper.of_step h
  obtain ⟨s, start, admitted, -, eq⟩ | ⟨j, s, s₁, there, eq, turn⟩ := next
  · rw [eq, List.getElem?_append] at present
    split at present
    · exact .inl present
    · obtain rfl := List.mem_singleton.1 (List.mem_of_getElem? present)
      exact .inr (.inl ⟨start, admitted⟩)
  · obtain ⟨here, -⟩ := List.getElem?_eq_some_iff.1 there
    rw [eq] at present
    obtain rfl | ne := eq_or_ne j i
    · rw [List.getElem?_set_self here] at present
      exact .inr (.inr ⟨s, there, Option.some.inj present ▸ turn⟩)
    · rw [List.getElem?_set_ne ne] at present
      exact .inl present

theorem Proper.of_reaches (proper : w.Proper F domain n) (h : Reaches admits w w') :
    w'.Proper F domain n := by
  induction h with
  | refl => exact proper
  | tail _ step ih => exact (ih.of_step step).1

theorem length_le_of_step (h : Step admits w w') :
    w.submissions.length ≤ w'.submissions.length := by
  cases h with
  | arrive =>
    rw [List.length_append]
    exact Nat.le_add_right ..
  | move => exact (List.length_set ..).symm.le

theorem Reaches.length_le (h : Reaches admits w w') :
    w.submissions.length ≤ w'.submissions.length := by
  induction h with
  | refl => exact Nat.le_refl _
  | tail _ step ih => exact Nat.le_trans ih (length_le_of_step step)

/-- Nothing comes when nothing is admitted. -/
theorem Reaches.length_eq (h : Reaches (fun _ => False) w w') :
    w'.submissions.length = w.submissions.length := by
  induction h with
  | refl => rfl
  | tail _ step ih =>
    cases step with
    | arrive _ admitted => exact admitted.elim
    | move => exact (List.length_set ..).trans ih

/-- Submissions may all come before any of them takes a step. -/
theorem reaches_arrive {d : Deployment σ} (before : List Submission) {submissions : List Submission}
    (come : ∀ s ∈ submissions, s.progress = .arrived ∧ admits s) :
    Reaches admits ⟨d, before⟩ ⟨d, before ++ submissions⟩ := by
  induction submissions generalizing before with
  | nil => rw [List.append_nil]
  | cons s submissions ih =>
    obtain ⟨⟨start, admitted⟩, come⟩ := List.forall_mem_cons.1 come
    have arrives : Step admits ⟨d, before⟩ ⟨d, before ++ [s]⟩ := .arrive start admitted
    have later := ih (before ++ [s]) come
    rw [List.append_assoc, List.singleton_append] at later
    exact .head arrives later

theorem Reaches.mono {admits' : Submission → Prop} (imp : ∀ s, admits s → admits' s)
    (h : Reaches admits w w') : Reaches admits' w w' := by
  induction h with
  | refl => exact .refl
  | tail _ step ih =>
    refine ih.tail ?_
    cases step with
    | arrive start admitted => exact .arrive start (imp _ admitted)
    | move present step => exact .move present step

/-- A submission keeps its place, and changes in nothing but its progress. -/
theorem Reaches.getElem? (h : Reaches admits w w') {i : Nat} {s : Submission}
    (present : w.submissions[i]? = some s) :
    ∃ p, w'.submissions[i]? = some { s with progress := p } := by
  induction h with
  | refl => exact ⟨s.progress, present⟩
  | tail _ step ih =>
    obtain ⟨p, there⟩ := ih
    obtain ⟨here, eq⟩ := List.getElem?_eq_some_iff.1 there
    cases step with
    | arrive => exact ⟨p, by rw [List.getElem?_append_left here, there]⟩
    | @move j s' s'' m d present' step =>
      obtain rfl | ne := eq_or_ne j i
      · obtain rfl := Option.some.inj (present'.symm.trans there)
        obtain ⟨q, eq⟩ := Deployment.step_eq step
        exact ⟨q, by rw [List.getElem?_set_self here, eq]⟩
      · exact ⟨p, by rw [List.getElem?_set_ne ne, there]⟩

/-- A submission that has returned stays as it is. -/
theorem Reaches.getElem?_of_returned (h : Reaches admits w w') {i : Nat} {s : Submission}
    {result : Except ServerError Verdict} (present : w.submissions[i]? = some s)
    (returned : s.progress = .returned result) : w'.submissions[i]? = some s := by
  induction h with
  | refl => exact present
  | tail _ step ih =>
    obtain ⟨here, eq⟩ := List.getElem?_eq_some_iff.1 ih
    cases step with
    | arrive => rw [List.getElem?_append_left here, ih]
    | @move j s' s'' m d there step =>
      have ne : j ≠ i := by
        rintro rfl
        obtain rfl := Option.some.inj (there.symm.trans ih)
        cases m <;> simp [Deployment.step, Submission.proceed, Progress.stepCall, returned] at step
      rw [List.getElem?_set_ne ne, ih]

/-- Moves of the submission that came last are a run, whatever the others wait for. -/
theorem reaches_follow {moves : List Move} {d d' : Deployment σ} {s s' : Submission}
    (before : List Submission) (h : d.follow s moves = some (d', s')) :
    Reaches admits ⟨d, before ++ [s]⟩ ⟨d', before ++ [s']⟩ := by
  induction moves generalizing d s with
  | nil =>
    obtain ⟨rfl, rfl⟩ := Prod.mk.inj (Option.some.inj h)
    exact .refl
  | cons m moves ih =>
    obtain ⟨⟨d₁, s₁⟩, step, later⟩ := Option.bind_eq_some_iff.1 h
    have last : (before ++ [s])[before.length]? = some s := by simp
    have moved : Step admits ⟨d, before ++ [s]⟩ ⟨d₁, (before ++ [s]).set before.length s₁⟩ :=
      .move last step
    have eq : (before ++ [s]).set before.length s₁ = before ++ [s₁] := by simp
    rw [eq] at moved
    exact .head moved (ih later)

end Step

section Start

variable {c : Circuit} {capacity rotation : Nat} {source : σ} {d : Deployment σ}

theorem start_eq (domainOk : CircuitDomain.ofCircuit F c = .ok domain) :
    Deployment.start F c n capacity rotation source = .ok {
      field := F
      size := c.domainSize
      rotation := max rotation 1
      servers := (List.range n).map fun index => {
        index, field := F, domain
        slots := (List.range n).map fun leader => .fresh F c index leader n capacity }
      lanes := List.replicate n (.fresh capacity)
      source
      records := [] } := by
  have built : (List.range n).mapM (Server.start F c n capacity) =
      .ok ((List.range n).map fun index => {
        index, field := F, domain
        slots := (List.range n).map fun leader => .fresh F c index leader n capacity }) := by
    refine Answer.mapM_eq_map fun index mem => ?_
    simp [Server.start, List.mem_range.1 mem, domainOk]
  rw [Deployment.start, built]
  rfl

/-- Any server at all has the interpolation points of the circuit. -/
theorem exists_domain (some : 0 < n)
    (h : Deployment.start F c n capacity rotation source = .ok d) :
    ∃ domain, CircuitDomain.ofCircuit F c = .ok domain := by
  cases domainOk : CircuitDomain.ofCircuit F c with
  | ok domain => exact ⟨domain, rfl⟩
  | error e =>
    obtain ⟨m, rfl⟩ := Nat.exists_eq_add_one.2 some
    rw [Deployment.start, List.range_succ_eq_map, List.mapM_cons, Server.start, domainOk] at h
    cases h

theorem proper_start (domainOk : CircuitDomain.ofCircuit F c = .ok domain)
    (h : Deployment.start F c n capacity rotation source = .ok d) :
    Proper F domain n ⟨d, []⟩ := by
  obtain rfl := Except.ok.inj ((start_eq domainOk).symm.trans h)
  refine ⟨⟨by simp, fun server mem => ?_⟩, List.length_replicate, fun _ mem => nomatch mem⟩
  obtain ⟨index, -, rfl⟩ := List.mem_map.1 mem
  exact ⟨rfl, rfl, by simp⟩

theorem exists_proper_start (h : Deployment.start F c n capacity rotation source = .ok d) :
    ∃ domain, Proper F domain n ⟨d, []⟩ := by
  obtain rfl | some := Nat.eq_zero_or_pos n
  · obtain rfl := Except.ok.inj h
    exact ⟨⟨0, 0, ⟨[], .empty, []⟩, ⟨[], .empty, []⟩⟩,
      ⟨rfl, fun _ mem => absurd mem List.not_mem_nil⟩, rfl,
      fun _ mem => absurd mem List.not_mem_nil⟩
  · obtain ⟨domain, domainOk⟩ := exists_domain some h
    exact ⟨domain, proper_start domainOk h⟩

theorem eq_fresh_of_start (domainOk : CircuitDomain.ofCircuit F c = .ok domain)
    (h : Deployment.start F c n capacity rotation source = .ok d) {peer leader : Nat}
    {slot : LeaderSlot} (found : slotAt? d.servers peer leader = some slot) :
    slot = .fresh F c peer leader n capacity := by
  obtain rfl := Except.ok.inj ((start_eq domainOk).symm.trans h)
  by_cases peer_lt : peer < n <;> by_cases leader_lt : leader < n <;>
    simp [slotAt?, peer_lt, leader_lt] at found
  exact found.symm

end Start

end World

end PrivateSums
