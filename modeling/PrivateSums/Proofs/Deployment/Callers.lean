import PrivateSums.Proofs.Deployment.Lanes
import PrivateSums.Proofs.Deployment.Stock

/-!
Servers that others call as well, past the coordinator. Such calls may leave requests pending under
any identifier, but they keep the servers and their slots in order.
-/

namespace PrivateSums

/-- A step of any call, whoever makes it and for whichever leader, is a step on at most one slot. -/
theorem PeerCall.slots_of_step {c : Call} {call call' : PeerCall c} {F : Field}
    {domain : CircuitDomain} {n : Nat} {servers servers' : List Server}
    (fits : Fits F domain n servers) (h : call.step servers = some (servers', call')) :
    Fits F domain n servers' ∧ ∀ peer leader slot', slotAt? servers' peer leader = some slot' →
      ∃ slot, slotAt? servers peer leader = some slot ∧ (slot' = slot ∨
        ∃ (server : Server) (m : c.Message) (stage stage' : Stage c),
          server.stepSlot slot m stage = some (slot', stage')) := by
  by_cases leader_lt : call.operation.leader.toNat < n
  · obtain ⟨fits', server, slot, slot', stage', -, -, found, step, -, slots⟩ :=
      of_step fits leader_lt h
    refine ⟨fits', fun peer leader slot₁ there => ?_⟩
    rw [slots] at there
    split at there
    · rename_i here
      obtain ⟨rfl, rfl⟩ := here
      obtain rfl := Option.some.inj there
      exact ⟨slot, found, .inr ⟨server, _, _, stage', step⟩⟩
    · exact ⟨slot₁, there, .inl rfl⟩
  · -- there is no such leader, and so the call is refused at once
    obtain ⟨server, present, h⟩ := Option.bind_eq_some_iff.1 h
    obtain ⟨⟨server', operation⟩, step, h⟩ := Option.bind_eq_some_iff.1 h
    obtain ⟨rfl, rfl⟩ := Prod.mk.inj (Option.some.inj h)
    have none : server.slots[call.operation.leader.toNat]? = none :=
      List.getElem?_eq_none (by
        rw [(fits.alike server (List.mem_of_getElem? present)).2.2]; omega)
    obtain rfl : server' = server := by
      rw [Server.step, none] at step
      dsimp only at step
      split at step
      · rename_i eq
        cases eq
      · exact (Prod.mk.inj (Option.some.inj step)).1.symm
      · cases step
    obtain ⟨here, rfl⟩ := List.getElem?_eq_some_iff.1 present
    rw [List.set_getElem_self]
    exact ⟨fits, fun peer leader slot there => ⟨slot, there, .inl rfl⟩⟩

theorem Server.tidy_stepSlot {server : Server} {slot slot' : LeaderSlot} {c : Call}
    {m : c.Message} {stage stage' : Stage c}
    (h : server.stepSlot slot m stage = some (slot', stage')) (tidy : slot.Tidy) : slot'.Tidy := by
  have moves : slot.Moves ((c.id? m).getD 0) stage slot' stage' :=
    moves_stepSlot (fun i mem => by rw [mem]; rfl) h
  exact moves.tidy tidy

/-- A world and the calls that others make to its servers. -/
structure OpenWorld (σ : Type) where
  world : World σ
  others : List AnyCall

namespace OpenWorld

variable {σ : Type}

section

variable [WordSource σ]

/-- What may happen next: something in the world, a call by somebody else, or a step of one. -/
inductive Step (w : OpenWorld σ) : OpenWorld σ → Prop
  | own {world : World σ} (step : World.Step (fun _ => True) w.world world) :
      Step w { w with world }
  | call {c : Call} (peer : Nat) (message : c.Message) :
      Step w { w with others := w.others ++ [⟨c, .start .reliable peer message⟩] }
  | answer {i : Nat} {c : Call} {call call' : PeerCall c} {servers : List Server}
      (present : w.others[i]? = some ⟨c, call⟩)
      (step : call.step w.world.deployment.servers = some (servers, call')) :
      Step w {
        world := { w.world with deployment := { w.world.deployment with servers } }
        others := w.others.set i ⟨c, call'⟩ }

abbrev Reaches : OpenWorld σ → OpenWorld σ → Prop := Relation.ReflTransGen Step

end

variable {F : Field} {c : Circuit} {domain : CircuitDomain} {n capacity rotation : Nat}
  {source : σ} {d : Deployment σ}

/-- What stays in order whatever others do. -/
structure Orderly (F : Field) (domain : CircuitDomain) (n capacity : Nat) (w : World σ) :
    Prop where
  proper : w.Proper F domain n
  counted : w.Counted capacity
  tidy : ∀ peer leader slot, slotAt? w.deployment.servers peer leader = some slot → slot.Tidy

theorem orderly_start (domainOk : CircuitDomain.ofCircuit F c = .ok domain)
    (h : Deployment.start F c n capacity rotation source = .ok d) :
    Orderly F domain n capacity ⟨d, []⟩ where
  proper := World.proper_start domainOk h
  counted := World.counted_start domainOk h
  tidy := (World.stocked_start domainOk h).tidy

variable [WordSource σ]

theorem Orderly.of_world {admits : Submission → Prop} {w w' : World σ}
    (orderly : Orderly F domain n capacity w) (h : World.Step admits w w') :
    Orderly F domain n capacity w' where
  proper := (orderly.proper.of_step h).1
  counted := orderly.counted.of_step orderly.proper h
  tidy := by
    intro peer leader slot found
    obtain ⟨-, ⟨s, -, -, same, -⟩ | ⟨i, s, s', -, -, turn⟩⟩ := orderly.proper.of_step h
    · exact orderly.tidy peer leader slot (same ▸ found)
    · exact (turn.assets_eq orderly.tidy found).1

theorem Orderly.of_step {w w' : OpenWorld σ} (orderly : Orderly F domain n capacity w.world)
    (h : Step w w') : Orderly F domain n capacity w'.world := by
  cases h with
  | own step => exact orderly.of_world step
  | call => exact orderly
  | answer _ step =>
    obtain ⟨fits, slots⟩ := PeerCall.slots_of_step orderly.proper.fits step
    refine ⟨⟨fits, orderly.proper.lanes_length, orderly.proper.submissions⟩, orderly.counted,
      fun peer leader slot' found => ?_⟩
    obtain ⟨slot, there, rfl | ⟨server, m, stage, stage', moves⟩⟩ := slots peer leader slot' found
    · exact orderly.tidy peer leader _ there
    · exact Server.tidy_stepSlot moves (orderly.tidy peer leader slot there)

theorem Orderly.of_reaches {w w' : OpenWorld σ} (orderly : Orderly F domain n capacity w.world)
    (h : Reaches w w') : Orderly F domain n capacity w'.world := by
  induction h with
  | refl => exact orderly
  | tail _ step ih => exact ih.of_step step

end OpenWorld

end PrivateSums
