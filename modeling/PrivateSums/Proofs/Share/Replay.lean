import PrivateSums.Proofs.Answer
import PrivateSums.Proofs.Random.ElementStream
import PrivateSums.Share.Hints

/-!
A replay reads its stream in order, on the leader with the deltas added.
-/

namespace PrivateSums.Replay

variable (F : Field) (r : Replay)

/-- The share that is read after `i` others. -/
def share (i : Nat) : Nat :=
  if r.isLeader then F.add (r.stream.nth F i) (r.deltas.getD (r.position + i) 0)
  else r.stream.nth F i

/-- The replay after `n` reads. -/
def skip (n : Nat) : Replay := { r with stream := r.stream.after F n }

@[simp] theorem isLeader_skip (n : Nat) : (r.skip F n).isLeader = r.isLeader := rfl

@[simp] theorem deltas_skip (n : Nat) : (r.skip F n).deltas = r.deltas := rfl

@[simp] theorem position_skip (n : Nat) : (r.skip F n).position = r.position + n :=
  ElementStream.position_after F r.stream n

theorem skip_skip (m n : Nat) : (r.skip F m).skip F n = r.skip F (m + n) := by
  rw [skip, skip, skip, ElementStream.after_after]

theorem share_skip (m n : Nat) : (r.skip F m).share F n = r.share F (m + n) := by
  rw [share, share, isLeader_skip, deltas_skip, position_skip, Nat.add_assoc, skip,
    ElementStream.nth_after]

variable {F r}

/-- A leader reads while it has deltas, and others without end. -/
theorem get_run (h : r.isLeader → r.position < r.deltas.size) :
    (get F).run.run r = (.ok (r.share F 0), r.skip F 1) := by
  unfold share
  change get F r = _
  rw [get]
  split
  · rename_i leader
    have lt := h leader
    rw [Array.getElem?_eq_getElem lt, Nat.add_zero, Array.getD_eq_getD_getElem?,
      Array.getElem?_eq_getElem lt]
    rfl
  · rfl

theorem take_run {n : Nat} (h : r.isLeader → r.position + n ≤ r.deltas.size) :
    (take F n).run.run r = (.ok ((List.range n).map (r.share F)), r.skip F n) := by
  induction n generalizing r with
  | zero => rfl
  | succ n ih =>
    have rest := ih (r := r.skip F 1) fun leader => by
      have := h leader
      rw [position_skip, deltas_skip]
      omega
    rw [take, Answer.bind_run, get_run fun leader => by have := h leader; omega]
    have shifted : (List.range n).map ((r.skip F 1).share F) =
        (List.range n).map (r.share F ∘ Nat.succ) :=
      List.map_congr_left fun i _ => by rw [share_skip, Nat.add_comm, Function.comp]
    dsimp only
    rw [Answer.bind_run, rest, skip_skip, Nat.add_comm 1 n, List.range_succ_eq_map, List.map_cons,
      List.map_map, shifted]
    rfl

/-- The replay of hints, before anything is read. -/
def fresh (server leader : Nat) (hints : Hints) : Replay where
  server
  leader
  stream := .ofKey hints.key
  deltas := hints.deltas.toArray

theorem share_fresh (server leader : Nat) (hints : Hints) (i : Nat) :
    (fresh server leader hints).share F i =
      if server = leader then
        F.add ((ElementStream.ofKey hints.key).nth F i) (hints.deltas.getD i 0)
      else (ElementStream.ofKey hints.key).nth F i := by
  have start : (fresh server leader hints).position = 0 := rfl
  rw [share, start, Nat.zero_add]
  simp [isLeader, fresh]

/-- A replay starts when its deltas are canonical, and none unless it is the leader's. -/
theorem ofHints_eq_ok_iff {server leader : Nat} {hints : Hints} :
    ofHints F server leader hints = .ok r ↔ (server ≠ leader → hints.deltas = []) ∧
      (∀ d ∈ hints.deltas, d < F.modulus) ∧ fresh server leader hints = r := by
  have canonical : hints.deltas.findIdx? (!F.contains ·) = none ↔
      ∀ d ∈ hints.deltas, d < F.modulus := by
    simp [List.findIdx?_eq_none_iff, Field.contains]
  unfold ofHints
  by_cases h : server ≠ leader ∧ hints.deltas ≠ []
  · simp [h.1, h.2]
  · have few : server ≠ leader → hints.deltas = [] :=
      fun ne => by_contra fun some => h ⟨ne, some⟩
    rw [if_neg h, ← canonical, and_iff_right few]
    cases hints.deltas.findIdx? (!F.contains ·) <;> simp [fresh]

end PrivateSums.Replay
