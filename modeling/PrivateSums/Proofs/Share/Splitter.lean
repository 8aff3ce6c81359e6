import Mathlib.Data.List.GetD
import PrivateSums.Proofs.Share.Replay

/-!
A sharing of values among servers that each draw a sequence. The shares of a value sum to it, and
what the servers replay from their hints is what the client split.
-/

namespace PrivateSums

namespace Sharing

variable (F : Field) (leader : Nat) (draws : List (Nat → Nat)) (values : List Nat)

/-- The leader's deltas, when every server draws its sequence. -/
def deltas : List Nat :=
  values.mapIdx fun i value => (splitValue F leader value (draws.map (· i))).1

/-- A server's shares, when every server draws its sequence. -/
def shares (server : Nat) : List Nat :=
  values.mapIdx fun i value => (splitValue F leader value (draws.map (· i))).2.getD server 0

@[simp] theorem length_deltas : (deltas F leader draws values).length = values.length := by
  rw [deltas, List.length_mapIdx]

@[simp] theorem length_shares (server : Nat) :
    (shares F leader draws values server).length = values.length := by
  rw [shares, List.length_mapIdx]

theorem deltas_lt : ∀ d ∈ deltas F leader draws values, d < F.modulus := by
  intro d hd
  obtain ⟨i, -, rfl⟩ := List.mem_mapIdx.1 hd
  exact F.sub_lt _ _

variable {F leader draws values}

theorem getD_deltas {i : Nat} (hi : i < values.length) :
    (deltas F leader draws values).getD i 0 = F.sub values[i] (F.sum (draws.map (· i))) := by
  simp [deltas, splitValue, hi]

/-- The leader's share takes up the delta. -/
theorem getD_shares {i server : Nat} (hi : i < values.length) (hs : server < draws.length) :
    (shares F leader draws values server).getD i 0 =
      if server = leader then F.add (draws[server] i) ((deltas F leader draws values).getD i 0)
      else draws[server] i := by
  have split : (shares F leader draws values server).getD i 0 =
      ((draws.map (· i)).modify leader
        (F.add · ((deltas F leader draws values).getD i 0))).getD server 0 := by
    simp [shares, deltas, splitValue, hi]
  rw [split, List.getD_eq_getElem?_getD, List.getElem?_modify]
  by_cases eq : server = leader
  · subst eq
    simp [hs]
  · simp [hs, eq, Ne.symm eq]

theorem sum_modify {l : List Nat} {n : Nat} (h : n < l.length) (delta : Nat) :
    (((l.modify n (F.add · delta)).map (Nat.cast : Nat → F.Residue)).sum) =
      (l.map (Nat.cast : Nat → F.Residue)).sum + delta := by
  induction l generalizing n with
  | nil => simp at h
  | cons a l ih =>
    cases n with
    | zero =>
      simp
      ring
    | succ n =>
      rw [List.modify_succ_cons, List.map_cons, List.sum_cons, ih (Nat.lt_of_succ_lt_succ h),
        List.map_cons, List.sum_cons, add_assoc]

/-- The shares of a value sum to it. -/
theorem sum_shares (hl : leader < draws.length) {i : Nat} (hi : i < values.length) :
    ((List.range draws.length).map fun s =>
      (((shares F leader draws values s).getD i 0 : Nat) : F.Residue)).sum = values[i] := by
  have column : (List.range draws.length).map (fun s =>
      (((shares F leader draws values s).getD i 0 : Nat) : F.Residue)) =
        (splitValue F leader values[i] (draws.map (· i))).2.map Nat.cast := by
    apply List.ext_getElem (by simp [splitValue])
    intro s hs hs'
    have hs : s < draws.length := by simpa using hs
    simp [shares, splitValue, hi, hs]
  rw [column, splitValue, sum_modify (by rwa [List.length_map]), F.cast_sub, F.cast_sum]
  ring

end Sharing

namespace Splitter

variable (F : Field) (s : Splitter)

/-- The sequences that the servers' streams draw from here. -/
def draws : List (Nat → Nat) := s.streams.map (·.nth F)

theorem share_run (value : Nat) : (share F value).run s =
    ((splitValue F s.leader value (s.streams.map (·.nth F 0))).2,
      { s with
        streams := s.streams.map (·.after F 1)
        deltas := s.deltas.push
          (splitValue F s.leader value (s.streams.map (·.nth F 0))).1 }) := by
  change share F value s = _
  simp only [share, List.map_map, Function.comp_def, ElementStream.next_run]

/-- Sharing draws one element per value from every stream and appends the deltas. -/
theorem shareAll_run (values : List Nat) : (shareAll F values).run s = ((), {
    s with
    streams := s.streams.map (·.after F values.length)
    deltas := s.deltas ++ (Sharing.deltas F s.leader (s.draws F) values).toArray }) := by
  induction values generalizing s with
  | nil =>
    change ((), s) = _
    simp [Sharing.deltas, ElementStream.after]
  | cons value values ih =>
    change (shareAll F values).run ((share F value).run s).2 = _
    rw [share_run, ih]
    have streams : (s.streams.map (·.after F 1)).map (·.after F values.length) =
        s.streams.map (·.after F (value :: values).length) := by
      rw [List.map_map, List.length_cons, Nat.add_comm]
      exact List.map_congr_left fun stream _ => stream.after_after F 1 _
    simp [streams, Sharing.deltas, draws, Function.comp_def, ElementStream.nth_after,
      Nat.add_comm 1]

end Splitter

end PrivateSums
