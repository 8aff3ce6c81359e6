import PrivateSums.Proofs.Check.Rounds
import PrivateSums.Proofs.Share.Replay

/-!
What a server holds after it takes in a request. A request that passes the checks is replayed in
full, so the holding is that of its shares.
-/

namespace PrivateSums

namespace Holding

variable (F : Field) (c : Circuit)

/-- What a server holds of all its shares, in the order that they are shared in. -/
def ofShares (isLeader : Bool) (triple : TripleShare) (shares : List Nat) : Holding where
  wires := c.wiresOfShares F isLeader (shares.take c.numShared)
  randomLeft := shares.getD c.numShared 0
  randomRight := shares.getD (c.numShared + 1) 0
  randomProduct := shares.getD (c.numShared + 2) 0
  hints := shares.drop (c.numShared + 3)
  triple

variable {F c}

theorem complete_ofShares {isLeader : Bool} {triple : TripleShare} {shares : List Nat}
    (length : shares.length = c.numSharedValues) :
    (ofShares F c isLeader triple shares).Complete c := by
  rw [Complete, ofShares, List.length_drop, length, Circuit.numSharedValues]
  omega

theorem ofShares_range (isLeader : Bool) (triple : TripleShare) (f : Nat → Nat) :
    ofShares F c isLeader triple ((List.range c.numSharedValues).map f) = {
      wires := c.wiresOfShares F isLeader ((List.range c.numShared).map f)
      randomLeft := f c.numShared
      randomRight := f (c.numShared + 1)
      randomProduct := f (c.numShared + 2)
      hints := (List.range (c.domainSize - 1)).map fun i => f (c.numShared + 3 + i)
      triple } := by
  have total : c.numSharedValues = c.numShared + 3 + (c.domainSize - 1) := rfl
  have get (i : Nat) (hi : i < c.numSharedValues) :
      ((List.range c.numSharedValues).map f).getD i 0 = f i := by
    rw [List.getD_eq_getElem _ _ (by simpa using hi), List.getElem_map, List.getElem_range]
  have wires : ((List.range c.numSharedValues).map f).take c.numShared =
      (List.range c.numShared).map f := by
    rw [← List.map_take, List.take_range, min_eq_left (by omega)]
  have hints : ((List.range c.numSharedValues).map f).drop (c.numShared + 3) =
      (List.range (c.domainSize - 1)).map fun i => f (c.numShared + 3 + i) := by
    rw [total, List.range_add, List.map_append, List.drop_left' (by simp), List.map_map]
    rfl
  rw [ofShares, wires, hints, get _ (by omega), get _ (by omega), get _ (by omega)]

/-- A fresh replay with a delta for every value on the leader is read to its end. -/
theorem read_run {r : Replay} (triple : TripleShare) (fresh : r.position = 0)
    (deltas : r.isLeader → r.deltas.size = c.numSharedValues) :
    (read F c triple).run.run r = (.ok (ofShares F c r.isLeader triple
      ((List.range c.numSharedValues).map (r.share F))), r.skip F c.numSharedValues) := by
  have total : c.numSharedValues = c.numShared + 3 + (c.domainSize - 1) := rfl
  have wires : (c.importWires F).run.run r = (.ok (c.wiresOfShares F r.isLeader
      ((List.range c.numShared).map (r.share F))), r.skip F c.numShared) := by
    rw [Circuit.importWires, Answer.bind_run, Answer.adapt_run,
      Replay.take_run fun leader => by have := deltas leader; omega]
    rfl
  have get (n : Nat) (hn : n < c.numSharedValues) : (Replay.get F).run.run (r.skip F n) =
      (.ok (r.share F n), r.skip F (n + 1)) := by
    rw [Replay.get_run, Replay.share_skip, Replay.skip_skip, Nat.add_zero]
    intro leader
    rw [Replay.position_skip, Replay.deltas_skip, fresh, deltas leader]
    omega
  have hints : (Replay.take F (c.domainSize - 1)).run.run (r.skip F (c.numShared + 3)) =
      (.ok ((List.range (c.domainSize - 1)).map fun i => r.share F (c.numShared + 3 + i)),
        r.skip F c.numSharedValues) := by
    rw [Replay.take_run, Replay.skip_skip, total]
    · congr 2
      exact List.map_congr_left fun i _ => Replay.share_skip F r _ i
    · intro leader
      rw [Replay.position_skip, Replay.deltas_skip, fresh, deltas leader, total]
      omega
  have finish : (r.skip F c.numSharedValues).finish c.numSharedValues = .ok () := by
    have position : (r.skip F c.numSharedValues).position = c.numSharedValues := by
      rw [Replay.position_skip, fresh, Nat.zero_add]
    have size : ¬((r.skip F c.numSharedValues).isLeader = true ∧
        (r.skip F c.numSharedValues).deltas.size ≠ c.numSharedValues) :=
      fun ⟨leader, ne⟩ => ne (deltas leader)
    rw [Replay.finish, position, if_pos rfl, if_neg size]
    rfl
  rw [read, Answer.bind_run, wires]
  dsimp only
  rw [Answer.bind_run, Answer.adapt_run, get _ (by omega)]
  dsimp only [Answer.mapError_ok]
  rw [Answer.bind_run, Answer.adapt_run, get _ (by omega)]
  dsimp only [Answer.mapError_ok]
  rw [Answer.bind_run, Answer.adapt_run, get _ (by omega)]
  dsimp only [Answer.mapError_ok]
  rw [Answer.bind_run, Answer.adapt_run, hints]
  dsimp only [Answer.mapError_ok]
  rw [Answer.bind_run, Answer.get_run]
  dsimp only
  rw [Answer.bind_run, Answer.lift_run, finish, ofShares_range]
  rfl

end Holding

/-- What one server sees of a client's values: its shares of them, what it was sent beside its key,
and its share of the triple. -/
structure Seen where
  server : Nat
  shares : List Nat
  deltas : List Nat
  triple : TripleShare

/-- A server that holds what it sees. -/
def Seen.party (F : Field) (c : Circuit) (leader : Nat) (v : Seen) : Party where
  server := v.server
  holding := .ofShares F c (v.server == leader) v.triple v.shares

namespace ClientRequest

variable (F : Field) (c : Circuit) (leader server : Nat) (request : ClientRequest)

/-- The shares that a server replays. -/
def shares : List Nat :=
  (List.range c.numSharedValues).map ((Replay.fresh server leader request.hints).share F)

/-- A server with what it holds of its request. -/
def party : Party where
  server
  holding := .ofShares F c (server == leader) request.triple (request.shares F c leader server)

/-- What a server requires of its request. -/
structure Admissible : Prop where
  canonical : request.triple.isCanonical F
  deltas_leader : server = leader → request.hints.deltas.length = c.numSharedValues
  deltas_other : server ≠ leader → request.hints.deltas = []
  deltas_lt : ∀ d ∈ request.hints.deltas, d < F.modulus

variable {F c leader server request}

theorem complete_party : (request.party F c leader server).holding.Complete c :=
  Holding.complete_ofShares (by rw [shares, List.length_map, List.length_range])

theorem read_fresh (deltas : server = leader →
      request.hints.deltas.length = c.numSharedValues) :
    (Holding.read F c request.triple).run.run (Replay.fresh server leader request.hints) =
      (.ok (request.party F c leader server).holding,
        (Replay.fresh server leader request.hints).skip F c.numSharedValues) := by
  apply Holding.read_run request.triple rfl
  intro isLeader
  exact deltas (by simpa [Replay.isLeader, Replay.fresh] using isLeader)

/-- A checker takes in just the admissible requests, and then holds their shares. -/
theorem setRequest_eq_ok_iff {servers : Nat} {k : Checker} :
    (Checker.new F c server leader servers).setRequest request = .ok k ↔
      request.Admissible F c leader server ∧
        (request.party F c leader server).checker F c leader servers = k := by
  unfold Checker.setRequest Checker.new Checker.isLeader
  dsimp only
  by_cases canonical : request.triple.isCanonical F
  swap
  · have refused : ¬request.Admissible F c leader server := fun h => canonical h.canonical
    simp [canonical, refused]
  rw [if_pos canonical]
  by_cases count : (server == leader) = true ∧ request.hints.deltas.length ≠ c.numSharedValues
  · have refused : ¬request.Admissible F c leader server :=
      fun h => count.2 (h.deltas_leader (by simpa using count.1))
    simp [count, refused]
  rw [if_neg count]
  have counted : server = leader → request.hints.deltas.length = c.numSharedValues :=
    fun eq => by_contra fun ne => count ⟨by simpa using eq, ne⟩
  cases started : Replay.ofHints F server leader request.hints with
  | error e =>
    have refused : ¬request.Admissible F c leader server := fun h => by
      have := Replay.ofHints_eq_ok_iff.2 ⟨h.deltas_other, h.deltas_lt, rfl⟩
      rw [started] at this
      cases this
    simp [refused]
  | ok replay =>
    obtain ⟨few, lt, rfl⟩ := Replay.ofHints_eq_ok_iff.1 started
    have admissible : request.Admissible F c leader server := ⟨canonical, counted, few, lt⟩
    simp [read_fresh counted, admissible]
    rfl

/-- All that a checker finds fault with is the request. -/
theorem of_setRequest_eq_error {servers : Nat} {e : CheckerError}
    (h : (Checker.new F c server leader servers).setRequest request = .error e) :
    ∃ cause, e = .malformedRequest cause := by
  unfold Checker.setRequest Checker.new Checker.isLeader at h
  dsimp only at h
  by_cases canonical : request.triple.isCanonical F
  swap
  · rw [if_neg canonical] at h
    exact ⟨_, (Except.error.inj h).symm⟩
  rw [if_pos canonical] at h
  by_cases count : (server == leader) = true ∧ request.hints.deltas.length ≠ c.numSharedValues
  · rw [if_pos count] at h
    exact ⟨_, (Except.error.inj h).symm⟩
  rw [if_neg count] at h
  cases started : Replay.ofHints F server leader request.hints with
  | error cause =>
    rw [started] at h
    exact ⟨_, (Except.error.inj h).symm⟩
  | ok replay =>
    obtain ⟨-, -, rfl⟩ := Replay.ofHints_eq_ok_iff.1 started
    have counted : server = leader → request.hints.deltas.length = c.numSharedValues :=
      fun eq => by_contra fun ne => count ⟨by simpa using eq, ne⟩
    simp [started, read_fresh counted] at h

section

variable (F c leader) (requests : List ClientRequest)

/-- All servers with what they hold of their requests, in server order. -/
def parties : List Party := requests.zipIdx.map fun r => r.1.party F c leader r.2

/-- What all servers see of their requests, in server order. -/
def seen : List Seen := requests.zipIdx.map fun (request, server) => {
  server
  shares := request.shares F c leader server
  deltas := request.hints.deltas
  triple := request.triple }

theorem parties_eq_map_seen :
    parties F c leader requests = (seen F c leader requests).map (Seen.party F c leader) := by
  rw [seen, List.map_map]
  rfl

@[simp] theorem length_parties : (parties F c leader requests).length = requests.length := by
  rw [parties, List.length_map, List.length_zipIdx]

theorem complete_parties : ∀ p ∈ parties F c leader requests, p.holding.Complete c := by
  intro p hp
  obtain ⟨r, -, rfl⟩ := List.mem_map.1 hp
  exact complete_party

end

/-- All requests are taken in when each is admissible to its server. -/
theorem admitAll_eq_ok_iff {requests : List ClientRequest} {checkers : List Checker} :
    Checker.admitAll F c leader requests = .ok checkers ↔
      (∀ r ∈ requests.zipIdx, r.1.Admissible F c leader r.2) ∧
        (parties F c leader requests).map (Party.checker F c leader requests.length) =
          checkers := by
  rw [Checker.admitAll, Answer.mapM_eq_ok]
  simp only [setRequest_eq_ok_iff]
  rw [List.forall₂_and_left, parties, List.map_map, ← List.forall₂_eq_eq_eq,
    List.forall₂_map_left_iff]
  rfl

theorem oneLeader_parties {requests : List ClientRequest} (h : leader < requests.length) :
    Party.OneLeader F leader (parties F c leader requests) := by
  refine Party.oneLeader_of_servers ?_ h
  rw [parties, List.map_map]
  exact (List.zipIdx_map_snd 0 requests).trans (List.range_eq_range' ..).symm

theorem linear_parties (wf : c.WellFormed) {requests : List ClientRequest}
    (h : leader < requests.length) :
    c.Linear F 1 (Party.wires F (parties F c leader requests)) := by
  rw [← (oneLeader_parties h : Party.total _ _ = (1 : F.Residue))]
  refine Circuit.Linear.sum fun p hp => ?_
  obtain ⟨r, -, rfl⟩ := List.mem_map.1 hp
  exact Circuit.linear_wiresOfShares wf _

end ClientRequest

namespace Party

end Party

end PrivateSums
