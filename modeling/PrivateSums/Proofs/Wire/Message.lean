import PrivateSums.Proofs.Wire.Codec
import PrivateSums.Wire.Message

/-!
Messages and what they are made of survive the wire: decoding an encoding with anything after it
answers the message and what came after, and an encoding that is cut short is refused as such. So
encodings need nothing to mark their end.
-/

namespace PrivateSums.Wire

instance : Sized FieldPreset where

instance : Lawful FieldPreset where
  reads preset _ := reads_index (by decide) (by cases preset <;> decide)

instance : Sized CheckerState where

instance : Lawful CheckerState where
  reads state _ := reads_index (by decide) (by cases state <;> decide)

instance : Sized Hints where
  Fits h := Fits h.deltas

instance : Lawful Hints where
  reads h deltas := (reads h.key trivial).bind (reads h.deltas deltas).map

instance : Sized TripleShare where
  Fits t := Fits t.a ∧ Fits t.b ∧ Fits t.c

instance : Lawful TripleShare where
  reads t fits := by
    obtain ⟨a, b, c⟩ := fits
    change Reads _ (encode t.a ++ encode t.b ++ encode t.c) t
    rw [List.append_assoc]
    exact (reads t.a a).bind ((reads t.b b).bind (reads t.c c).map)

instance : Sized ClientRequest where
  Fits r := Fits r.hints ∧ Fits r.triple

instance : Lawful ClientRequest where
  reads r fits := (reads r.hints fits.1).bind (reads r.triple fits.2).map

instance : Sized CorShare where
  Fits s := Fits s.d ∧ Fits s.e

instance : Lawful CorShare where
  reads s fits := (reads s.d fits.1).bind (reads s.e fits.2).map

instance : Sized Cor where
  Fits c := Fits c.d ∧ Fits c.e

instance : Lawful Cor where
  reads c fits := (reads c.d fits.1).bind (reads c.e fits.2).map

instance : Sized OutShare where
  Fits s := Fits s.check

instance : Lawful OutShare where
  reads s check := (reads s.check check).map

instance : Sized NewRequest where
  Fits m := Fits m.request

instance : Lawful NewRequest where
  reads m request := by
    change Reads _ (encode m.id ++ encode m.leader ++ encode m.epoch ++ encode m.request) m
    rw [List.append_assoc, List.append_assoc]
    exact (reads m.id trivial).bind ((reads m.leader trivial).bind
      ((reads m.epoch trivial).bind (reads m.request request).map))

instance : Sized EvalCircuit where

instance : Lawful EvalCircuit where
  reads m _ := (reads m.id trivial).bind (reads m.leader trivial).map

instance : Sized FinalCircuit where
  Fits m := Fits m.corShares

instance : Lawful FinalCircuit where
  reads m shares := by
    change Reads _ (encode m.id ++ encode m.leader ++ encode m.corShares ++ encode m.key) m
    rw [List.append_assoc, List.append_assoc]
    exact (reads m.id trivial).bind ((reads m.leader trivial).bind
      ((reads m.corShares shares).bind (reads m.key trivial).map))

instance : Sized Accept where
  Fits m := Fits m.outShares

instance : Lawful Accept where
  reads m shares := by
    change Reads _ (encode m.id ++ encode m.leader ++ encode m.outShares) m
    rw [List.append_assoc]
    exact (reads m.id trivial).bind ((reads m.leader trivial).bind (reads m.outShares shares).map)

instance : Sized AcceptReply where
  Fits r := Fits r.outputShares

instance : Lawful AcceptReply where
  reads r shares := (reads r.accepted trivial).bind (reads r.outputShares shares).map

instance : Sized ChangePoint where
  Fits m := Fits m.x

instance : Lawful ChangePoint where
  reads m x := by
    change Reads _ (encode m.leader ++ encode m.epoch ++ encode m.x) m
    rw [List.append_assoc]
    exact (reads m.leader trivial).bind ((reads m.epoch trivial).bind (reads m.x x).map)

instance : Sized Abort where

instance : Lawful Abort where
  reads m _ := (reads m.id trivial).bind (reads m.leader trivial).map

/-- The values of a type survive the wire, and their encodings mark their own end. -/
structure RoundTrips (α : Type) [Wire α] [Sized α] : Prop where
  decode_encode : ∀ m : α, Fits m → ∀ rest, decode.run (encode m ++ rest) = .ok (m, rest)
  eq_of_isPrefix : ∀ m n : α, Fits m → Fits n → encode m <+: encode n → m = n
  decode_cut : ∀ m : α, Fits m → ∀ part, part <+: encode m → part ≠ encode m →
    (decode : Decoder α).run part = .error .truncated

theorem roundTrips (α : Type) [Wire α] [Sized α] [Lawful α] : RoundTrips α where
  decode_encode m fits := (reads m fits).whole
  eq_of_isPrefix m n fits fits' := by
    rintro ⟨rest, eq⟩
    have first := (reads m fits).whole rest
    have all := (reads n fits').whole []
    rw [List.append_nil, ← eq, first] at all
    exact congrArg Prod.fst (Except.ok.inj all)
  decode_cut m fits := (reads m fits).cut

/-- A number of one digit fits. -/
theorem fits_of_lt {n : Nat} (lt : n < UInt32.size) : Fits n := by
  change (limbsOf n).length < UInt64.size
  unfold limbsOf
  split
  · decide
  · rw [Nat.div_eq_of_lt lt, limbsOf, if_pos rfl, List.length_singleton]
    decide

/-- All messages, and all that they are made of, survive the wire. -/
theorem roundTrips_messages :
    RoundTrips Key ∧ RoundTrips Hints ∧ RoundTrips TripleShare ∧ RoundTrips ClientRequest ∧
      RoundTrips CorShare ∧ RoundTrips Cor ∧ RoundTrips OutShare ∧ RoundTrips CheckerState ∧
      RoundTrips FieldPreset ∧ RoundTrips NewRequest ∧ RoundTrips EvalCircuit ∧
      RoundTrips FinalCircuit ∧ RoundTrips Accept ∧ RoundTrips AcceptReply ∧
      RoundTrips ChangePoint ∧ RoundTrips Abort :=
  ⟨roundTrips _, roundTrips _, roundTrips _, roundTrips _, roundTrips _, roundTrips _,
    roundTrips _, roundTrips _, roundTrips _, roundTrips _, roundTrips _, roundTrips _,
    roundTrips _, roundTrips _, roundTrips _, roundTrips _⟩

theorem roundTrips_newRequest :
    let m : NewRequest := ⟨7, 0, 3, ⟨⟨⟨Vector.replicate 32 9⟩, [0, 5]⟩, ⟨1, 2, 2⟩⟩⟩
    Fits m ∧ (∀ rest, decode.run (encode m ++ rest) = .ok (m, rest)) ∧
      ∀ part, part <+: encode m → part ≠ encode m →
        (decode : Decoder NewRequest).run part = .error .truncated := by
  intro m
  obtain ⟨-, -, -, -, -, -, -, -, -, survives, -⟩ := roundTrips_messages
  have deltas : ∀ n ∈ [0, 5], Fits n := by
    intro n mem
    apply fits_of_lt
    rcases mem with _ | ⟨_, _ | ⟨_, ⟨⟩⟩⟩ <;> decide
  have fits : Fits m := ⟨⟨by decide, deltas⟩, fits_of_lt (by decide), fits_of_lt (by decide),
    fits_of_lt (by decide)⟩
  exact ⟨fits, survives.decode_encode m fits, survives.decode_cut m fits⟩

end PrivateSums.Wire
