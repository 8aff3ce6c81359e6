import PrivateSums.Circuit.Document
import PrivateSums.Deployment.Submission

/-!
The document form of what a deployment answers and records.
-/

namespace PrivateSums

open Document

/-- A verdict with the output shares and what they sum to. -/
def Verdict.toDocument (F : Field) (v : Verdict) : Document :=
  let none := (v.outputShares.head?.getD []).map fun _ => 0
  .map [("accepted", .bool v.accepted), ("output_shares", .list (v.outputShares.map ofElements)),
    ("sums", ofElements (v.addTo F none))]

/-- A call: the peer, the name of the call and the numbers that its message names. -/
def CallRecord.toDocument (r : CallRecord) : Document :=
  .list [ofNat r.peer, .text r.call.name, ofNats (r.call.summary r.message)]

end PrivateSums
