import PrivateSums.Check.Domain

/-!
The two newest evaluation points of one leader, by epoch. The older one is kept for the requests
that were admitted under it.
-/

namespace PrivateSums

structure EvaluationPoints where
  current : Option (UInt64 × EvaluationPoint)
  previous : Option (UInt64 × EvaluationPoint)

namespace EvaluationPoints

def empty : EvaluationPoints := ⟨none, none⟩

def currentEpoch? (p : EvaluationPoints) : Option UInt64 := p.current.map (·.1)

def get? (p : EvaluationPoints) (epoch : UInt64) : Option EvaluationPoint :=
  (p.current.toList ++ p.previous.toList).lookup epoch

/-- Installs the point of a newer epoch. Refuses any other epoch, and tells the current one. -/
def rotate (p : EvaluationPoints) (epoch : UInt64) (point : EvaluationPoint) :
    Except UInt64 EvaluationPoints :=
  match p.currentEpoch? with
  | some current =>
    if epoch ≤ current then .error current else .ok ⟨some (epoch, point), p.current⟩
  | none => .ok ⟨some (epoch, point), p.current⟩

end EvaluationPoints

end PrivateSums
