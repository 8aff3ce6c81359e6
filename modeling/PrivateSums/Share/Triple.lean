import PrivateSums.Random.ElementStream
import PrivateSums.Share.Error

/-!
Multiplication triples: shared `(A, B, C)` with `A * B = C`, against which servers check a shared
product without learning its factors.
-/

namespace PrivateSums

/-- One server's share of a triple. -/
structure TripleShare where
  a : Nat
  b : Nat
  c : Nat
  deriving DecidableEq, Repr

namespace TripleShare

/-- Whether every component is a canonical element. -/
def isCanonical (F : Field) (t : TripleShare) : Bool :=
  F.contains t.a && F.contains t.b && F.contains t.c

/-- The triple that shares reconstruct. -/
def total (F : Field) (shares : List TripleShare) : TripleShare where
  a := F.sum (shares.map (·.a))
  b := F.sum (shares.map (·.b))
  c := F.sum (shares.map (·.c))

/-- Whether the reconstructed triple satisfies `A * B = C`. -/
def isValid (F : Field) (shares : List TripleShare) : Bool :=
  let t := total F shares
  F.mul t.a t.b == t.c

/-- Adds to the first share of `C` what `A * B = C` is off by. -/
def corrected (F : Field) (shares : List TripleShare) : List TripleShare :=
  let t := total F shares
  shares.modifyHead fun first => { first with c := F.add first.c (F.sub (F.mul t.a t.b) t.c) }

variable {σ : Type} [WordSource σ]

def random (F : Field) : StateM σ TripleShare := do
  let a ← F.random
  let b ← F.random
  let c ← F.random
  return { a, b, c }

/-- `n` shares that make up no triple in particular. -/
def randoms (F : Field) : (n : Nat) → StateM σ (List TripleShare)
  | 0 => return []
  | n + 1 => do
    let first ← random F
    let rest ← randoms F n
    return first :: rest

/-- Fresh shares of a triple for `servers` servers. -/
def deal (F : Field) (servers : Nat) : ExceptT ShareError (StateM σ) (List TripleShare) := do
  if servers = 0 then throw .noServers
  return corrected F (← (randoms F servers : StateM σ (List TripleShare)))

end TripleShare

end PrivateSums
