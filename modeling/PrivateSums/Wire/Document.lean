import PrivateSums.Document.Basic
import PrivateSums.Settings.Document
import PrivateSums.Wire.Message

/-!
The document form of messages and of what they are made of: maps by the names of the parts, numbers
as their digits to the base `2 ^ 32`, keys as their bytes.
-/

namespace PrivateSums.Wire

open Documented

instance : Documented UInt32 where
  toDocument n := .int n.toNat
  ofDocument? d := (d.natBelow? UInt32.size).map Nat.toUInt32

instance : Documented UInt8 where
  toDocument b := .int b.toNat
  ofDocument? d := (d.natBelow? 256).map Nat.toUInt8

instance : Documented Nat where
  toDocument n := toDocument (limbsOf n)
  ofDocument? d := (ofDocument? d).map ofLimbs

instance : Documented Key where
  toDocument key := toDocument key.toList
  ofDocument? d := ofDocument? d >>= Key.ofList?

instance : Documented CheckerState where
  toDocument state := .text state.name
  ofDocument? d := d.oneOf? CheckerState.all CheckerState.name

instance : Documented Hints where
  toDocument h := .map [("key", toDocument h.key), ("delta", toDocument h.deltas)]
  ofDocument? d := do
    let [key, deltas] ← d.among? ["key", "delta"] | none
    return ⟨← ofDocument? key, ← ofDocument? deltas⟩

instance : Documented TripleShare where
  toDocument t := .map [("a", toDocument t.a), ("b", toDocument t.b), ("c", toDocument t.c)]
  ofDocument? d := do
    let [a, b, c] ← d.among? ["a", "b", "c"] | none
    return ⟨← ofDocument? a, ← ofDocument? b, ← ofDocument? c⟩

instance : Documented ClientRequest where
  toDocument r := .map [("hints", toDocument r.hints), ("triple", toDocument r.triple)]
  ofDocument? d := do
    let [hints, triple] ← d.among? ["hints", "triple"] | none
    return ⟨← ofDocument? hints, ← ofDocument? triple⟩

instance : Documented CorShare where
  toDocument s := .map [("d", toDocument s.d), ("e", toDocument s.e)]
  ofDocument? d := do
    let [d, e] ← d.among? ["d", "e"] | none
    return ⟨← ofDocument? d, ← ofDocument? e⟩

instance : Documented Cor where
  toDocument c := .map [("d", toDocument c.d), ("e", toDocument c.e)]
  ofDocument? d := do
    let [d, e] ← d.among? ["d", "e"] | none
    return ⟨← ofDocument? d, ← ofDocument? e⟩

instance : Documented OutShare where
  toDocument s := .map [("check", toDocument s.check)]
  ofDocument? d := do
    let [check] ← d.among? ["check"] | none
    return ⟨← ofDocument? check⟩

instance : Documented NewRequest where
  toDocument m := .map [("request_id", toDocument m.id), ("leader", toDocument m.leader),
    ("epoch", toDocument m.epoch), ("request", toDocument m.request)]
  ofDocument? d := do
    let [id, leader, epoch, request] ←
      d.among? ["request_id", "leader", "epoch", "request"] | none
    return ⟨← ofDocument? id, ← ofDocument? leader, ← ofDocument? epoch, ← ofDocument? request⟩

instance : Documented EvalCircuit where
  toDocument m := .map [("request_id", toDocument m.id), ("leader", toDocument m.leader)]
  ofDocument? d := do
    let [id, leader] ← d.among? ["request_id", "leader"] | none
    return ⟨← ofDocument? id, ← ofDocument? leader⟩

instance : Documented FinalCircuit where
  toDocument m := .map [("request_id", toDocument m.id), ("leader", toDocument m.leader),
    ("cor_shares", toDocument m.corShares), ("key", toDocument m.key)]
  ofDocument? d := do
    let [id, leader, shares, key] ←
      d.among? ["request_id", "leader", "cor_shares", "key"] | none
    return ⟨← ofDocument? id, ← ofDocument? leader, ← ofDocument? shares, ← ofDocument? key⟩

instance : Documented Accept where
  toDocument m := .map [("request_id", toDocument m.id), ("leader", toDocument m.leader),
    ("out_shares", toDocument m.outShares)]
  ofDocument? d := do
    let [id, leader, shares] ← d.among? ["request_id", "leader", "out_shares"] | none
    return ⟨← ofDocument? id, ← ofDocument? leader, ← ofDocument? shares⟩

instance : Documented AcceptReply where
  toDocument r := .map [("accepted", toDocument r.accepted),
    ("output_shares", toDocument r.outputShares)]
  ofDocument? d := do
    let [accepted, shares] ← d.among? ["accepted", "output_shares"] | none
    return ⟨← ofDocument? accepted, ← ofDocument? shares⟩

instance : Documented ChangePoint where
  toDocument m := .map [("leader", toDocument m.leader), ("epoch", toDocument m.epoch),
    ("x", toDocument m.x)]
  ofDocument? d := do
    let [leader, epoch, x] ← d.among? ["leader", "epoch", "x"] | none
    return ⟨← ofDocument? leader, ← ofDocument? epoch, ← ofDocument? x⟩

instance : Documented Abort where
  toDocument m := .map [("request_id", toDocument m.id), ("leader", toDocument m.leader)]
  ofDocument? d := do
    let [id, leader] ← d.among? ["request_id", "leader"] | none
    return ⟨← ofDocument? id, ← ofDocument? leader⟩

end PrivateSums.Wire
