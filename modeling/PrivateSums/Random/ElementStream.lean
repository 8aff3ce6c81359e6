import PrivateSums.Field.Basic
import PrivateSums.Random.ChaCha20

/-!
Field elements drawn from a source, and the stream of elements that a key determines.
-/

namespace PrivateSums

namespace Field

variable {σ : Type} [WordSource σ]

/-- An element of `[0, p)`. -/
def random (F : Field) : StateM σ Nat := Random.below F.modulus

/-- An element of `[1, p)`. -/
def randomNonzero (F : Field) : StateM σ Nat := do
  return 1 + (← Random.below (F.modulus - 1))

end Field

/-- The elements that a key expands to. Two streams of one key agree draw by draw, so a key stands
for all the shares it expands to. -/
structure ElementStream where
  key : Key
  source : ChaCha20
  /-- The number of elements drawn so far. -/
  position : Nat

namespace ElementStream

def ofKey (key : Key) : ElementStream := ⟨key, .ofKey key, 0⟩

/-- The next element of `[0, p)`. -/
def next (F : Field) : StateM ElementStream Nat := fun s =>
  let (value, source) := F.random.run s.source
  (value, { s with source, position := s.position + 1 })

/-- The next `n` elements. -/
def take (F : Field) : Nat → StateM ElementStream (List Nat)
  | 0 => return []
  | n + 1 => do
    let first ← next F
    let rest ← take F n
    return first :: rest

def describe (s : ElementStream) : String :=
  s!"Prg \x7b key: {s.key.abbreviation}, position: {s.position} \x7d"

end ElementStream

end PrivateSums
