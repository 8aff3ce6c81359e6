import PrivateSums.Proofs.Share.Splitter

/-!
Both sides of a sharing stay in step. Whatever was shared, each server replays its own share of
every value in turn, and can confirm that it read all of them only when it did.
-/

namespace PrivateSums

namespace Splitter

/-- A sharing of nothing yet, under these keys. -/
def fresh (leader : Nat) (keys : List Key) : Splitter :=
  { leader, streams := keys.map .ofKey, deltas := #[] }

variable (F : Field)

/-- Sharing values one after the other answers the shares of each, and leaves what sharing them all
leaves. -/
theorem mapM_share_run (values : List Nat) (s : Splitter) :
    (values.mapM (share F)).run s =
      (values.mapIdx fun i value => (splitValue F s.leader value ((s.draws F).map (· i))).2,
        ((shareAll F values).run s).2) := by
  induction values generalizing s with
  | nil => rfl
  | cons value values ih =>
    have next : ((share F value).run s).2.draws F = (s.draws F).map fun u i => u (i + 1) := by
      rw [share_run, draws, draws, List.map_map, List.map_map]
      apply List.map_congr_left
      intro stream _
      funext i
      rw [Function.comp_apply, Function.comp_apply, stream.nth_after, Nat.add_comm]
    have rest := ih ((share F value).run s).2
    rw [List.mapM_cons]
    change (((share F value).run s).1 ::
      ((values.mapM (share F)).run ((share F value).run s).2).1,
      ((values.mapM (share F)).run ((share F value).run s).2).2) = _
    rw [rest, next]
    apply Prod.ext
    · simp [share_run, draws, List.mapIdx_cons, Function.comp_def]
    · rfl

end Splitter

namespace Replay

variable {F : Field} {r : Replay}

/-- A leader that has no delta left is refused, and reads nothing. -/
theorem get_run_exhausted (leads : r.isLeader) (done : r.position = r.deltas.size) :
    (get F).run.run r = (.error (.exhausted r.position), r) := by
  change get F r = _
  rw [get, if_pos leads, Array.getElem?_eq_none (by omega)]

/-- A leader that is asked for more values than it has deltas reads those and is refused then. -/
theorem take_run_exhausted {left more : Nat} (leads : r.isLeader)
    (size : r.position + left = r.deltas.size) :
    (take F (left + (more + 1))).run.run r =
      (.error (.exhausted r.deltas.size), r.skip F left) := by
  induction left generalizing r with
  | zero =>
    have done : r.position = r.deltas.size := by omega
    rw [Nat.zero_add, take, Answer.bind_run, get_run_exhausted leads done, done]
    rfl
  | succ left ih =>
    have rest := ih (r := r.skip F 1) leads (by rw [position_skip, deltas_skip]; omega)
    rw [Nat.add_right_comm, take, Answer.bind_run, get_run fun _ => by omega]
    dsimp only
    rw [Answer.bind_run, rest, skip_skip, Nat.add_comm 1 left]
    rfl

theorem finish_eq_ok_iff {n : Nat} :
    r.finish n = .ok () ↔ r.position = n ∧ (r.isLeader → r.deltas.size = n) := by
  unfold finish
  by_cases read : r.position = n
  · by_cases left : r.isLeader ∧ r.deltas.size ≠ n
    · simp [read, left]
    · simp [read, left]
      simpa using left
  · simp [read]

end Replay

/-- What a server makes of the hints for a sharing of some values: its shares of all of them. -/
structure InStep (F : Field) (values : List Nat) (shared : List (List Nat)) (s : Splitter)
    (server : Nat) (hints : Hints) (r : Replay) : Prop where
  hints_eq : s.hints server = .ok hints
  deltas_length : hints.deltas.length = if server = s.leader then values.length else 0
  replay_eq : Replay.ofHints F server s.leader hints = .ok r
  reads : ∀ n ≤ values.length, (Replay.take F n).run.run r =
    (.ok ((shared.take n).map (·.getD server 0)), r.skip F n)
  /-- A server that does not lead reads on for ever. -/
  reads_on : server ≠ s.leader → ∀ n, ∃ taken, (Replay.take F n).run.run r = (.ok taken, r.skip F n)
  finish_iff : ∀ n taken r', (Replay.take F n).run.run r = (.ok taken, r') →
    (r'.finish values.length = .ok () ↔ n = values.length)
  exhausted : server = s.leader →
    (Replay.get F).run.run (r.skip F values.length) =
        (.error (.exhausted values.length), r.skip F values.length) ∧
      ∀ n, values.length < n → (Replay.take F n).run.run r =
        (.error (.exhausted values.length), r.skip F values.length)

namespace Splitter

variable {F : Field} {keys : List Key} {leader : Nat} {values : List Nat}

theorem length_draws_fresh : ((fresh leader keys).draws F).length = keys.length := by
  simp [draws, fresh]

/-- The shares that the splitter answers are those that a server replays. -/
theorem shares_fresh {server i : Nat} (hs : server < keys.length)
    (hi : i < values.length) (hints : Hints) (key : hints.key = keys[server])
    (deltas : hints.deltas = if server = leader then
      Sharing.deltas F leader ((fresh leader keys).draws F) values else []) :
    (splitValue F leader values[i] (((fresh leader keys).draws F).map (· i))).2.getD server 0 =
      (Replay.fresh server leader hints).share F i := by
  have width : server < ((fresh leader keys).draws F).length := by
    rwa [length_draws_fresh]
  have listed : (Sharing.shares F leader ((fresh leader keys).draws F) values server).getD i 0 =
      (splitValue F leader values[i]
        (((fresh leader keys).draws F).map (· i))).2.getD server 0 := by
    simp [Sharing.shares, hi]
  have drawn : ((fresh leader keys).draws F)[server] =
      (ElementStream.ofKey keys[server]).nth F := by
    simp [draws, fresh]
  rw [← listed, Sharing.getD_shares hi width, Replay.share_fresh, key, deltas, drawn]
  by_cases leads : server = leader
  · rw [if_pos leads, if_pos leads, if_pos leads]
  · rw [if_neg leads, if_neg leads]

variable (leader values) in
/-- Every server is in step with the sharing. -/
theorem exists_inStep {server : Nat} (hs : server < keys.length) :
    ∃ hints r, hints.key = keys[server] ∧
      InStep F values ((values.mapM (share F)).run (fresh leader keys)).1
        ((values.mapM (share F)).run (fresh leader keys)).2 server hints r := by
  let deltas := if server = leader then
    Sharing.deltas F leader ((fresh leader keys).draws F) values else []
  let r := Replay.fresh server leader { key := keys[server], deltas }
  have leads : r.isLeader ↔ server = leader := by simp [r, Replay.isLeader, Replay.fresh]
  have start : r.position = 0 := rfl
  have length : deltas.length = if server = leader then values.length else 0 := by
    by_cases h : server = leader <;> simp [deltas, h]
  have size (h : r.isLeader) : r.deltas.size = values.length := by
    rwa [if_pos (leads.1 h)] at length
  have reads {n : Nat} (h : server = leader → n ≤ values.length) :
      (Replay.take F n).run.run r = (.ok ((List.range n).map (r.share F)), r.skip F n) := by
    apply Replay.take_run
    intro h'
    have := h (leads.1 h')
    rw [size h']
    omega
  have refused (h : server = leader) {n : Nat} (beyond : values.length < n) :
      (Replay.take F n).run.run r =
        (.error (.exhausted values.length), r.skip F values.length) := by
    obtain ⟨more, rfl⟩ := Nat.exists_eq_add_of_lt beyond
    have all : r.position + values.length = r.deltas.size := by
      rw [size (leads.2 h), start, Nat.zero_add]
    rw [Nat.add_assoc, Replay.take_run_exhausted (leads.2 h) all, size (leads.2 h)]
  refine ⟨{ key := keys[server], deltas }, r, rfl, ?_⟩
  rw [mapM_share_run, shareAll_run]
  constructor
  case hints_eq => simp [hints, fresh, hs, deltas, ElementStream.ofKey]
  case deltas_length => exact length
  case replay_eq =>
    apply Replay.ofHints_eq_ok_iff.2
    refine ⟨fun h => if_neg h, fun d mem => ?_, rfl⟩
    by_cases h : server = leader
    · simp only [deltas, if_pos h] at mem
      exact Sharing.deltas_lt F leader _ values d mem
    · simp [deltas, h] at mem
  case reads =>
    intro n le
    have replayed : (List.range n).map (r.share F) = ((values.mapIdx fun i value =>
        (splitValue F leader value (((fresh leader keys).draws F).map (· i))).2).take n).map
          (·.getD server 0) := by
      apply List.ext_getElem (by simp; omega)
      intro i hi _
      have hi : i < n := by simpa using hi
      have listed := shares_fresh hs (show i < values.length by omega)
        { key := keys[server], deltas } rfl rfl
      simpa [hi] using listed.symm
    exact (reads fun _ => le).trans (by rw [replayed]; rfl)
  case reads_on =>
    intro h n
    exact ⟨_, reads fun h' => absurd h' h⟩
  case finish_iff =>
    intro n taken r' taking
    have few : server = leader → n ≤ values.length := by
      intro h
      by_contra beyond
      rw [refused h (by omega)] at taking
      cases taking
    rw [reads few] at taking
    obtain ⟨-, rfl⟩ := Prod.mk.inj taking
    rw [Replay.finish_eq_ok_iff, Replay.position_skip, start, Nat.zero_add]
    exact and_iff_left size
  case exhausted =>
    intro h
    refine ⟨?_, fun n beyond => refused h beyond⟩
    have done : (r.skip F values.length).position = (r.skip F values.length).deltas.size := by
      rw [Replay.position_skip, Replay.deltas_skip, size (leads.2 h), start, Nat.zero_add]
    rw [Replay.get_run_exhausted (r := r.skip F values.length) (leads.2 h) done,
      Replay.position_skip, start, Nat.zero_add]

/-- The shares of a value are one per server and sum to it. -/
theorem sum_shared (lt : leader < keys.length) {i : Nat} (hi : i < values.length) :
    (((values.mapM (share F)).run (fresh leader keys)).1.getD i []).length = keys.length ∧
      F.sum (((values.mapM (share F)).run (fresh leader keys)).1.getD i []) =
        F.reduce values[i] := by
  have drawn : ((fresh leader keys).draws F).length = keys.length := length_draws_fresh
  have listed : ((values.mapM (share F)).run (fresh leader keys)).1.getD i [] =
      (splitValue F leader values[i] (((fresh leader keys).draws F).map (· i))).2 := by
    rw [mapM_share_run]
    simp [hi, fresh]
  rw [listed]
  constructor
  · simp [splitValue, drawn]
  · rw [← F.cast_inj (F.sum_lt _) (F.reduce_lt _), F.cast_sum, F.cast_reduce, splitValue,
      Sharing.sum_modify (by simpa [drawn] using lt), F.cast_sub, F.cast_sum]
    ring

/-- Whatever is shared among servers under any keys, the shares of each value sum to it, and every
server can replay its shares from its hints. Of the streams it matters only that they are the
sequences of elements that their keys determine. -/
theorem replays_of_share (F : Field) (keys : List Key) {leader : Nat} (lt : leader < keys.length)
    (values : List Nat) :
    ∃ shared s, (values.mapM (share F)).run (fresh leader keys) = (shared, s) ∧
      shared.length = values.length ∧ s.servers = keys.length ∧ s.leader = leader ∧
      (∀ i (hi : i < values.length), (shared.getD i []).length = keys.length ∧
        F.sum (shared.getD i []) = F.reduce values[i]) ∧
      ∀ server (hs : server < keys.length), ∃ hints r, hints.key = keys[server] ∧
        InStep F values shared s server hints r := by
  refine ⟨((values.mapM (share F)).run (fresh leader keys)).1,
    ((values.mapM (share F)).run (fresh leader keys)).2, rfl, ?_, ?_, ?_,
    fun i hi => sum_shared lt hi, fun server hs => exists_inStep leader values hs⟩
  · rw [mapM_share_run, List.length_mapIdx]
  · rw [mapM_share_run, shareAll_run]
    simp [servers, fresh]
  · rw [mapM_share_run, shareAll_run]
    rfl

/-- Three values, one of them not canonical, among three servers. -/
theorem replays_of_share_seventeen : ∃ (keys : List Key) (shared : List (List Nat)) (s : Splitter),
    keys.length = 3 ∧ ([20, 0, 5].mapM (share .seventeen)).run (fresh 1 keys) = (shared, s) ∧
      Field.seventeen.sum (shared.getD 0 []) = 3 ∧
      ∀ server < 3, ∃ hints r, InStep .seventeen [20, 0, 5] shared s server hints r := by
  let keys : List Key :=
    [⟨Vector.replicate 32 0⟩, ⟨Vector.replicate 32 1⟩, ⟨Vector.replicate 32 2⟩]
  have lt : 1 < keys.length := by decide
  obtain ⟨shared, s, run, -, -, -, sums, each⟩ := replays_of_share .seventeen keys lt [20, 0, 5]
  refine ⟨keys, shared, s, rfl, run, (sums 0 (by decide)).2.trans rfl, fun server hs => ?_⟩
  obtain ⟨hints, r, -, inStep⟩ := each server hs
  exact ⟨hints, r, inStep⟩

end Splitter

end PrivateSums
