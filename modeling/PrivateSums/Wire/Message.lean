import PrivateSums.Deployment.Message
import PrivateSums.Field.Preset
import PrivateSums.Wire.Codec

/-!
The binary form of messages and of what they are made of: the parts in order.
-/

namespace PrivateSums.Wire

instance : Wire FieldPreset := ⟨encodeIndex FieldPreset.all, decodeIndex FieldPreset.all⟩

instance : Wire CheckerState := ⟨encodeIndex CheckerState.all, decodeIndex CheckerState.all⟩

instance : Wire Hints where
  encode h := encode h.key ++ encode h.deltas
  decode := return ⟨← decode, ← decode⟩

instance : Wire TripleShare where
  encode t := encode t.a ++ encode t.b ++ encode t.c
  decode := return ⟨← decode, ← decode, ← decode⟩

instance : Wire ClientRequest where
  encode r := encode r.hints ++ encode r.triple
  decode := return ⟨← decode, ← decode⟩

instance : Wire CorShare where
  encode s := encode s.d ++ encode s.e
  decode := return ⟨← decode, ← decode⟩

instance : Wire Cor where
  encode c := encode c.d ++ encode c.e
  decode := return ⟨← decode, ← decode⟩

instance : Wire OutShare where
  encode s := encode s.check
  decode := return ⟨← decode⟩

instance : Wire NewRequest where
  encode m := encode m.id ++ encode m.leader ++ encode m.epoch ++ encode m.request
  decode := return ⟨← decode, ← decode, ← decode, ← decode⟩

instance : Wire EvalCircuit where
  encode m := encode m.id ++ encode m.leader
  decode := return ⟨← decode, ← decode⟩

instance : Wire FinalCircuit where
  encode m := encode m.id ++ encode m.leader ++ encode m.corShares ++ encode m.key
  decode := return ⟨← decode, ← decode, ← decode, ← decode⟩

instance : Wire Accept where
  encode m := encode m.id ++ encode m.leader ++ encode m.outShares
  decode := return ⟨← decode, ← decode, ← decode⟩

instance : Wire AcceptReply where
  encode m := encode m.accepted ++ encode m.outputShares
  decode := return ⟨← decode, ← decode⟩

instance : Wire ChangePoint where
  encode m := encode m.leader ++ encode m.epoch ++ encode m.x
  decode := return ⟨← decode, ← decode, ← decode⟩

instance : Wire Abort where
  encode m := encode m.id ++ encode m.leader
  decode := return ⟨← decode, ← decode⟩

end PrivateSums.Wire
