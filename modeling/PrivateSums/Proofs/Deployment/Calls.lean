import PrivateSums.Deployment.Schedule.Basic
import PrivateSums.Proofs.Deployment.Slot

/-!
The calls of a submission: what a step of one does to the slot of its leader on the server that it
is made to, and what their answers tell once all are there.
-/

namespace PrivateSums

/-- The slot of a leader on one of some servers. -/
def slotAt? (servers : List Server) (peer leader : Nat) : Option LeaderSlot :=
  servers[peer]?.bind (·.slots[leader]?)

/-- As many servers as there are leaders, all for the same circuit. -/
structure Fits (F : Field) (domain : CircuitDomain) (n : Nat) (servers : List Server) : Prop where
  length_eq : servers.length = n
  alike : ∀ server ∈ servers,
    server.field = F ∧ server.domain = domain ∧ server.slots.length = n

section

variable {F : Field} {domain : CircuitDomain} {n peer leader : Nat} {servers : List Server}

theorem Fits.exists_slot (fits : Fits F domain n servers) (peer_lt : peer < n)
    (leader_lt : leader < n) : ∃ slot, slotAt? servers peer leader = some slot := by
  have here : peer < servers.length := fits.length_eq ▸ peer_lt
  have wide : leader < servers[peer].slots.length := by
    rwa [(fits.alike _ (List.getElem_mem here)).2.2]
  exact ⟨servers[peer].slots[leader], by
    rw [slotAt?, List.getElem?_eq_getElem here, Option.bind_some, List.getElem?_eq_getElem wide]⟩

theorem Fits.lt_of_slotAt? (fits : Fits F domain n servers) {slot : LeaderSlot}
    (found : slotAt? servers peer leader = some slot) : peer < n := by
  obtain ⟨server, there, -⟩ := Option.bind_eq_some_iff.1 found
  exact fits.length_eq ▸ (List.getElem?_eq_some_iff.1 there).1

theorem Fits.leader_lt_of_slotAt? (fits : Fits F domain n servers) {slot : LeaderSlot}
    (found : slotAt? servers peer leader = some slot) : leader < n := by
  obtain ⟨server, there, found⟩ := Option.bind_eq_some_iff.1 found
  rw [← (fits.alike server (List.mem_of_getElem? there)).2.2]
  exact (List.getElem?_eq_some_iff.1 found).1

/-- Servers that fit have the same slots, and agree on what is the same for each. -/
theorem Fits.map_slotAt? {servers' : List Server} (fits : Fits F domain n servers)
    (fits' : Fits F domain n servers') {α : Type} {f : LeaderSlot → α}
    (same : ∀ slot slot', slotAt? servers peer leader = some slot →
      slotAt? servers' peer leader = some slot' → f slot = f slot') :
    (slotAt? servers peer leader).map f = (slotAt? servers' peer leader).map f := by
  by_cases placed : peer < n ∧ leader < n
  · obtain ⟨slot, found⟩ := fits.exists_slot placed.1 placed.2
    obtain ⟨slot', found'⟩ := fits'.exists_slot placed.1 placed.2
    rw [found, found', Option.map_some, Option.map_some, same slot slot' found found']
  · have none {servers : List Server} (fits : Fits F domain n servers) :
        slotAt? servers peer leader = none := by
      by_contra some
      obtain ⟨slot, found⟩ := Option.ne_none_iff_exists'.1 some
      exact placed ⟨fits.lt_of_slotAt? found, fits.leader_lt_of_slotAt? found⟩
    rw [none fits, none fits']

theorem slotAt?_set {server : Server} {slot : LeaderSlot} (present : servers[peer]? = some server)
    (wide : leader < server.slots.length) (peer' leader' : Nat) :
    slotAt? (servers.set peer { server with slots := server.slots.set leader slot }) peer' leader' =
      if peer' = peer ∧ leader' = leader then some slot else slotAt? servers peer' leader' := by
  obtain ⟨here, rfl⟩ := List.getElem?_eq_some_iff.1 present
  obtain rfl | other := eq_or_ne peer' peer
  · obtain rfl | other := eq_or_ne leader' leader
    · simp [slotAt?, here, wide]
    · simp [slotAt?, here, other, other.symm]
  · simp [slotAt?, other, other.symm]

end

namespace PeerCall

variable {c : Call} {call call' : PeerCall c}

def withStage (call : PeerCall c) (stage : Stage c) : PeerCall c :=
  { call with operation := { call.operation with stage } }

section Step

variable {F : Field} {domain : CircuitDomain} {n : Nat} {servers servers' : List Server}

theorem step_of_server {server server' : Server} {operation : Operation c}
    (present : servers[call.peer]? = some server)
    (step : server.step call.operation = some (server', operation)) :
    call.step servers = some (servers.set call.peer server', { call with operation }) := by
  rw [PeerCall.step, present, Option.bind_eq_bind, Option.bind_some, step]
  rfl

/-- A step of a call is a step on one slot, and leaves all others as they are. -/
theorem of_step (fits : Fits F domain n servers) (leader_lt : call.operation.leader.toNat < n)
    (h : call.step servers = some (servers', call')) :
    Fits F domain n servers' ∧ ∃ (server : Server) (slot slot' : LeaderSlot) (stage' : Stage c),
      server.field = F ∧ server.domain = domain ∧
      slotAt? servers call.peer call.operation.leader.toNat = some slot ∧
      server.stepSlot slot call.operation.message call.operation.stage = some (slot', stage') ∧
      call' = call.withStage stage' ∧
      ∀ peer leader, slotAt? servers' peer leader =
        if peer = call.peer ∧ leader = call.operation.leader.toNat then some slot'
        else slotAt? servers peer leader := by
  obtain ⟨server, present, h⟩ := Option.bind_eq_some_iff.1 h
  obtain ⟨⟨server', operation⟩, step, h⟩ := Option.bind_eq_some_iff.1 h
  obtain ⟨rfl, rfl⟩ := Prod.mk.inj (Option.some.inj h)
  obtain ⟨field, domain_eq, width⟩ := fits.alike server (List.mem_of_getElem? present)
  have wide : call.operation.leader.toNat < server.slots.length := width ▸ leader_lt
  rw [Server.step, List.getElem?_eq_getElem wide] at step
  obtain ⟨⟨slot', stage'⟩, moves, h⟩ := Option.bind_eq_some_iff.1 step
  obtain ⟨rfl, rfl⟩ := Prod.mk.inj (Option.some.inj h)
  refine ⟨⟨by rw [List.length_set, fits.length_eq], fun other mem => ?_⟩, server, _, slot', stage',
    field, domain_eq, ?_, moves, rfl, slotAt?_set present wide⟩
  · obtain mem | rfl := List.mem_or_eq_of_mem_set mem
    · exact fits.alike other mem
    · exact ⟨field, domain_eq, by rw [List.length_set, width]⟩
  · rw [slotAt?, present, Option.bind_some, List.getElem?_eq_getElem wide]

theorem of_step_eq_none (fits : Fits F domain n servers) (peer_lt : call.peer < n)
    (leader_lt : call.operation.leader.toNat < n) (h : call.step servers = none) :
    (∃ answer, call.operation.stage = .answered answer) ∨ call.operation.stage.waits ∧
      ∃ slot, slotAt? servers call.peer call.operation.leader.toNat = some slot ∧
        slot.pool.permits = 0 := by
  have here : call.peer < servers.length := fits.length_eq ▸ peer_lt
  obtain ⟨slot, present⟩ := fits.exists_slot peer_lt leader_lt
  have found := present
  rw [slotAt?, List.getElem?_eq_getElem here, Option.bind_some] at found
  have stuck : servers[call.peer].stepSlot slot call.operation.message call.operation.stage =
      none := by
    by_contra moves
    obtain ⟨next, moves⟩ := Option.ne_none_iff_exists'.1 moves
    rw [step, List.getElem?_eq_getElem here, Option.bind_eq_bind, Option.bind_some, Server.step,
      found] at h
    simp [moves] at h
  obtain answered | ⟨waits, empty⟩ := Server.of_stepSlot_eq_none stuck
  · exact .inl answered
  · exact .inr ⟨waits, slot, present, empty⟩

theorem of_stepAt {calls calls' : List (PeerCall c)} {i : Nat}
    (h : stepAt servers calls i = some (servers', calls')) : ∃ call call', calls[i]? = some call ∧
      call.step servers = some (servers', call') ∧ calls' = calls.set i call' := by
  obtain ⟨call, present, h⟩ := Option.bind_eq_some_iff.1 h
  obtain ⟨⟨_, call'⟩, step, h⟩ := Option.bind_eq_some_iff.1 h
  obtain ⟨rfl, rfl⟩ := Prod.mk.inj (Option.some.inj h)
  exact ⟨call, call', present, step, rfl⟩

end Step

theorem answer?_eq_some {answer : Except ServerError c.Reply} : call.answer? = some answer ↔
    ∃ reply, call.operation.stage = .answered reply ∧ call.fate.deliver reply = answer := by
  rw [answer?, Option.map_eq_some_iff]
  cases call.operation.stage <;> simp [Stage.answer?]

theorem answers?_eq_some {calls : List (PeerCall c)} {answers : List (Except ServerError c.Reply)} :
    answers? calls = some answers ↔
      List.Forall₂ (fun call answer => call.answer? = some answer) calls answers := by
  induction calls generalizing answers with
  | nil => simp [answers?, eq_comm]
  | cons call calls ih =>
    rw [answers?] at ih
    simp only [answers?, List.mapM_cons, Option.bind_eq_bind, Option.bind_eq_some_iff,
      Option.pure_def, Option.some.injEq, List.forall₂_cons_left_iff, ← ih]
    constructor
    · rintro ⟨a, ha, as, has, rfl⟩
      exact ⟨a, as, ha, has, rfl⟩
    · rintro ⟨a, as, ha, has, rfl⟩
      exact ⟨a, ha, as, has, rfl⟩

theorem answered_of_answers? {calls : List (PeerCall c)}
    {answers : List (Except ServerError c.Reply)} (h : answers? calls = some answers) :
    ∀ call ∈ calls, ∃ answer, call.operation.stage = .answered answer := by
  intro call mem
  obtain ⟨i, here, rfl⟩ := List.getElem_of_mem mem
  obtain ⟨length, each⟩ := List.forall₂_iff_get.1 (answers?_eq_some.1 h)
  obtain ⟨reply, answered, -⟩ := answer?_eq_some.1 (each i here (length ▸ here))
  exact ⟨reply, answered⟩

theorem peer_eq_of_ordered {calls : List (PeerCall c)} {n i : Nat}
    (ordered : calls.map (·.peer) = List.range n) (present : calls[i]? = some call) :
    call.peer = i := by
  obtain ⟨here, rfl⟩ := List.getElem?_eq_some_iff.1 present
  have eq := List.getElem_of_eq ordered (by simpa using here)
  rwa [List.getElem_map, List.getElem_range] at eq

theorem exists_of_ordered {calls : List (PeerCall c)} {n peer : Nat}
    (ordered : calls.map (·.peer) = List.range n) (peer_lt : peer < n) :
    ∃ call ∈ calls, call.peer = peer :=
  List.mem_map.1 (ordered ▸ List.mem_range.2 peer_lt)

theorem length_answers? {calls : List (PeerCall c)} {answers : List (Except ServerError c.Reply)}
    {n : Nat} (h : answers? calls = some answers) (ordered : calls.map (·.peer) = List.range n) :
    answers.length = n := by
  have counts := congrArg List.length ordered
  rw [List.length_map, List.length_range] at counts
  rw [← (answers?_eq_some.1 h).length_eq, counts]

/-- Among answers in server order, that of a server has its number. -/
theorem getElem?_answers? {calls : List (PeerCall c)}
    {answers : List (Except ServerError c.Reply)} {n : Nat} (h : answers? calls = some answers)
    (ordered : calls.map (·.peer) = List.range n) (mem : call ∈ calls) :
    ∃ reply, call.operation.stage = .answered reply ∧
      answers[call.peer]? = some (call.fate.deliver reply) := by
  obtain ⟨i, here, rfl⟩ := List.getElem_of_mem mem
  obtain ⟨length, each⟩ := List.forall₂_iff_get.1 (answers?_eq_some.1 h)
  obtain ⟨reply, answered, delivered⟩ := answer?_eq_some.1 (each i here (length ▸ here))
  refine ⟨reply, answered, ?_⟩
  rw [peer_eq_of_ordered ordered (List.getElem?_eq_getElem here),
    List.getElem?_eq_getElem (length ▸ here)]
  exact congrArg some delivered.symm

/-- Every answer is some call's. -/
theorem exists_of_mem_answers {calls : List (PeerCall c)}
    {answers : List (Except ServerError c.Reply)} (h : answers? calls = some answers)
    {answer : Except ServerError c.Reply} (mem : answer ∈ answers) :
    ∃ call ∈ calls, ∃ reply, call.operation.stage = .answered reply ∧
      call.fate.deliver reply = answer := by
  obtain ⟨i, here, rfl⟩ := List.getElem_of_mem mem
  obtain ⟨length, each⟩ := List.forall₂_iff_get.1 (answers?_eq_some.1 h)
  exact ⟨_, List.getElem_mem (length.symm ▸ here),
    answer?_eq_some.1 (each i (length.symm ▸ here) here)⟩

theorem exists_answers? {calls : List (PeerCall c)}
    (h : ∀ call ∈ calls, ∃ answer, call.operation.stage = .answered answer) :
    ∃ answers, answers? calls = some answers := by
  simp only [answers?_eq_some]
  induction calls with
  | nil => exact ⟨[], .nil⟩
  | cons call calls ih =>
    obtain ⟨answers, rest⟩ := ih fun other mem => h other (List.mem_cons_of_mem _ mem)
    obtain ⟨reply, answered⟩ := h call List.mem_cons_self
    exact ⟨_, .cons (answer?_eq_some.2 ⟨reply, answered, rfl⟩) rest⟩

end PeerCall

theorem Fate.of_deliver {α : Type} {fate : Fate α} {answer : Except ServerError α} {a : α}
    (h : fate.deliver answer = .ok a) : ∃ b, answer = .ok b := by
  cases answer with
  | ok b => exact ⟨b, rfl⟩
  | error e => cases fate <;> cases h

theorem allReplies_eq_ok {α : Type} {answers : List (Except ServerError α)} {replies : List α} :
    allReplies answers = .ok replies ↔ answers = replies.map .ok := by
  induction answers generalizing replies with
  | nil => cases replies <;> simp [allReplies]
  | cons answer answers ih =>
    simp only [allReplies, Answer.bind_eq_ok, Answer.pure_eq, Except.ok.injEq, ih]
    constructor
    · rintro ⟨a, rfl, as, rfl, rfl⟩
      rfl
    · intro eq
      cases replies with
      | nil => cases eq
      | cons a as =>
        obtain ⟨rfl, rfl⟩ := List.cons.inj eq
        exact ⟨a, rfl, as, rfl, rfl⟩

/-- Where there are all replies, no answer is an error. -/
theorem ok_of_allReplies {α : Type} {answers : List (Except ServerError α)} {replies : List α}
    (h : allReplies answers = .ok replies) {answer : Except ServerError α}
    (mem : answer ∈ answers) : ∃ a, answer = .ok a := by
  rw [allReplies_eq_ok.1 h] at mem
  obtain ⟨a, -, rfl⟩ := List.mem_map.1 mem
  exact ⟨a, rfl⟩

/-- Where there are all replies, every call succeeded on its server. -/
theorem PeerCall.stage_of_allReplies {c : Call} {calls : List (PeerCall c)} {call : PeerCall c}
    {answers : List (Except ServerError c.Reply)} {replies : List c.Reply} {n : Nat}
    (answered : answers? calls = some answers) (replied : allReplies answers = .ok replies)
    (ordered : calls.map (·.peer) = List.range n) (mem : call ∈ calls) :
    ∃ reply, call.operation.stage = .answered (.ok reply) := by
  obtain ⟨answer, stage, told⟩ := getElem?_answers? answered ordered mem
  obtain ⟨reply, delivered⟩ := ok_of_allReplies replied (List.mem_of_getElem? told)
  obtain ⟨reply', rfl⟩ := Fate.of_deliver delivered
  exact ⟨reply', stage⟩

/-- A call of any kind. -/
abbrev AnyCall := (c : Call) × PeerCall c

/-- What is remembered of a call. -/
def AnyCall.record (call : AnyCall) : CallRecord := call.2.record

namespace Progress

/-- The calls under way. -/
def calls : Progress → List AnyCall
  | rotating _ calls => calls.map (⟨_, ·⟩)
  | admitting calls => calls.map (⟨_, ·⟩)
  | evaluating calls => calls.map (⟨_, ·⟩)
  | finalising calls => calls.map (⟨_, ·⟩)
  | accepting calls => calls.map (⟨_, ·⟩)
  | aborting _ calls => calls.map (⟨_, ·⟩)
  | _ => []

/-- A stage of a submission that waits for calls of one kind. -/
inductive Awaits : (c : Call) → (List (PeerCall c) → Progress) → Prop
  | rotating (epoch : UInt64) : Awaits .changePoint (rotating epoch)
  | admitting : Awaits .newRequest admitting
  | evaluating : Awaits .evalCircuit evaluating
  | finalising : Awaits .finalCircuit finalising
  | accepting : Awaits .accept accepting
  | aborting (e : ServerError) : Awaits .abort (aborting e)

theorem Awaits.calls_eq {c : Call} {await : List (PeerCall c) → Progress} (h : Awaits c await)
    (calls : List (PeerCall c)) : (await calls).calls = calls.map (Sigma.mk c) := by
  cases h <;> rfl

theorem Awaits.mem_calls {c : Call} {await : List (PeerCall c) → Progress} (h : Awaits c await)
    {p : Progress} {calls : List (PeerCall c)} {call : PeerCall c} (start : p = await calls)
    (mem : call ∈ calls) : (⟨c, call⟩ : AnyCall) ∈ p.calls := by
  rw [start, h.calls_eq]
  exact List.mem_map_of_mem mem

theorem exists_awaits {p : Progress} {call : AnyCall} (mem : call ∈ p.calls) :
    ∃ await, ∃ (calls : List (PeerCall call.1)) (i : Nat), Awaits call.1 await ∧
      p = await calls ∧ calls[i]? = some call.2 := by
  have listed {c : Call} {await : List (PeerCall c) → Progress} {calls : List (PeerCall c)}
      (awaits : Awaits c await) (mem : call ∈ calls.map (Sigma.mk c)) :
      ∃ await', ∃ (calls' : List (PeerCall call.1)) (i : Nat), Awaits call.1 await' ∧
        await calls = await' calls' ∧ calls'[i]? = some call.2 := by
    obtain ⟨made, listed, rfl⟩ := List.mem_map.1 mem
    obtain ⟨i, found⟩ := List.mem_iff_getElem?.1 listed
    exact ⟨await, calls, i, awaits, rfl, found⟩
  cases p with
  | rotating epoch => exact listed (.rotating epoch) mem
  | admitting => exact listed .admitting mem
  | evaluating => exact listed .evaluating mem
  | finalising => exact listed .finalising mem
  | accepting => exact listed .accepting mem
  | aborting e => exact listed (.aborting e) mem
  | arrived | queued | entered | choosing | draining | leaving | returned => cases mem

theorem of_stepCall {servers servers' : List Server} {i : Nat} {p p' : Progress}
    (h : p.stepCall servers i = some (servers', p')) : ∃ c await, Awaits c await ∧
      ∃ calls call call', p = await calls ∧ calls[i]? = some call ∧
        call.step servers = some (servers', call') ∧ p' = await (calls.set i call') := by
  have moved {c : Call} {await : List (PeerCall c) → Progress} {calls : List (PeerCall c)}
      (awaits : Awaits c await)
      (h : (do
        let (servers, calls) ← PeerCall.stepAt servers calls i
        return (servers, await calls)) = some (servers', p')) :
      ∃ c await', Awaits c await' ∧ ∃ calls' call call', await calls = await' calls' ∧
        calls'[i]? = some call ∧ call.step servers = some (servers', call') ∧
          p' = await' (calls'.set i call') := by
    obtain ⟨⟨servers'', calls'⟩, moved, h⟩ := Option.bind_eq_some_iff.1 h
    obtain ⟨rfl, rfl⟩ := Prod.mk.inj (Option.some.inj h)
    obtain ⟨call, call', present, step, rfl⟩ := PeerCall.of_stepAt moved
    exact ⟨c, await, awaits, calls, call, call', rfl, present, step, rfl⟩
  cases p with
  | rotating epoch => exact moved (.rotating epoch) h
  | admitting => exact moved .admitting h
  | evaluating => exact moved .evaluating h
  | finalising => exact moved .finalising h
  | accepting => exact moved .accepting h
  | aborting e => exact moved (.aborting e) h
  | arrived | queued | entered | choosing | draining | leaving | returned => cases h

end Progress

end PrivateSums
