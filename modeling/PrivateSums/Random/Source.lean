/-!
Sources of uniform 32-bit words, and the draws made from them. A draw that rejects unsuitable
words is cut off after `patience` attempts, so that it answers for every source; the answer is then
a stated suitable value.
-/

namespace PrivateSums

/-- A source of uniform 32-bit words. -/
class WordSource (σ : Type) where
  nextWord : σ → UInt32 × σ

namespace Random

variable {σ : Type} [WordSource σ]

def word : StateM σ UInt32 := WordSource.nextWord

/-- Two words, the low one first. -/
def word64 : StateM σ UInt64 := do
  let low ← word
  let high ← word
  return high.toUInt64 <<< 32 ||| low.toUInt64

/-- The top bit of a word. -/
def bool : StateM σ Bool := do
  return (← word) >>> 31 == 1

/-- `n` words in order. -/
def words : Nat → StateM σ (List UInt32)
  | 0 => return []
  | n + 1 => do
    let first ← word
    let rest ← words n
    return first :: rest

/-- A number of `32 * full` low bits and `top` high bits, least significant word first. The high
bits are the upper ones of their word. -/
def bits (top : UInt32) : (full : Nat) → StateM σ Nat
  | 0 => do return (← word).toNat >>> (32 - top.toNat)
  | full + 1 => do
    let low ← word
    let high ← bits top full
    return low.toNat + UInt32.size * high

/-- How often a draw is repeated before its fallback is taken. -/
def patience : Nat := 1 <<< 48

/-- Draws until a value is accepted. -/
def redraw {α : Type} (accept : α → Bool) (fallback : α) (draw : StateM σ α) :
    (attempts : Nat) → StateM σ α
  | 0 => return fallback
  | attempts + 1 => do
    let value ← draw
    if accept value then return value else redraw accept fallback draw attempts

/-- A number below `bound`, drawn with as many bits as `bound` has and redrawn while too large. -/
def below (bound : Nat) : StateM σ Nat :=
  let extra := bound.log2
  redraw (· < bound) 0 (bits (extra % 32 + 1).toUInt32 (extra / 32)) patience

/-- A number below a positive 64-bit `bound`: the high half of a 64-bit word times the bound, for
a word whose low half is at most the last whole multiple of the bound. -/
def index (bound : Nat) : StateM σ Nat := do
  let zone := bound <<< (63 - bound.log2) - 1
  let word ← redraw (fun v => v.toNat * bound % UInt64.size ≤ zone) 0 word64 patience
  return word.toNat * bound / UInt64.size

end Random

end PrivateSums
