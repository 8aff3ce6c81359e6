import PrivateSums.Random.Source
import PrivateSums.Text.Hex

/-!
The ChaCha20 key stream as a source of words: the blocks of consecutive counters, word after word,
nothing skipped. The block counter has 64 bits and the nonce is zero.
-/

namespace PrivateSums

/-- Thirty-two secret bytes from which a stream is expanded. -/
structure Key where
  bytes : Vector UInt8 32
  deriving DecidableEq

namespace Key

def toList (key : Key) : List UInt8 := key.bytes.toList

def ofList? (bytes : List UInt8) : Option Key :=
  if h : bytes.toArray.size = 32 then some ⟨⟨bytes.toArray, h⟩⟩ else none

def hex (key : Key) : String := Hex.encode key.toList

def ofHex? (text : String) : Option Key := Hex.decode? text >>= ofList?

/-- The first four bytes, enough to tell keys apart without telling them. -/
def abbreviation (key : Key) : String := s!"PrgKey({String.ofList (key.hex.toList.take 8)}..)"

def ofWords (words : Vector UInt32 8) : Key where
  bytes := Vector.ofFn fun i =>
    (words.get ⟨i.val / 4, by omega⟩ >>> (8 * (i.val % 4)).toUInt32).toUInt8

/-- The bytes as little-endian words. -/
def words (key : Key) : Vector UInt32 8 :=
  Vector.ofFn fun i =>
    let byte (j : Fin 4) : UInt32 := (key.bytes.get ⟨4 * i.val + j.val, by omega⟩).toUInt32
    byte 0 ||| byte 1 <<< 8 ||| byte 2 <<< 16 ||| byte 3 <<< 24

end Key

namespace ChaCha20

abbrev State := Vector UInt32 16

def rotateLeft (x n : UInt32) : UInt32 := x <<< n ||| x >>> (32 - n)

def quarterRound (s : State) (a b c d : Fin 16) : State :=
  let s := s.set a (s[a] + s[b])
  let s := s.set d (rotateLeft (s[d] ^^^ s[a]) 16)
  let s := s.set c (s[c] + s[d])
  let s := s.set b (rotateLeft (s[b] ^^^ s[c]) 12)
  let s := s.set a (s[a] + s[b])
  let s := s.set d (rotateLeft (s[d] ^^^ s[a]) 8)
  let s := s.set c (s[c] + s[d])
  s.set b (rotateLeft (s[b] ^^^ s[c]) 7)

/-- The columns, then the diagonals. -/
def doubleRound (s : State) : State :=
  let s := quarterRound s 0 4 8 12
  let s := quarterRound s 1 5 9 13
  let s := quarterRound s 2 6 10 14
  let s := quarterRound s 3 7 11 15
  let s := quarterRound s 0 5 10 15
  let s := quarterRound s 1 6 11 12
  let s := quarterRound s 2 7 8 13
  quarterRound s 3 4 9 14

def rounds : Nat → State → State
  | 0, s => s
  | n + 1, s => rounds n (doubleRound s)

/-- "expand 32-byte k" as four words. -/
def constants : Vector UInt32 4 := #v[0x61707865, 0x3320646e, 0x79622d32, 0x6b206574]

def initial (key : Vector UInt32 8) (counter : UInt64) : State :=
  constants ++ key ++ #v[counter.toUInt32, (counter >>> 32).toUInt32, 0, 0]

/-- The sixteen words of the key stream at `counter`. -/
def block (key : Vector UInt32 8) (counter : UInt64) : State :=
  let start := initial key counter
  (rounds 10 start).zipWith (· + ·) start

end ChaCha20

/-- A key stream, read up to some word. -/
structure ChaCha20 where
  key : Vector UInt32 8
  /-- The counter of the next block. -/
  counter : UInt64
  /-- The words of the last block not read yet. -/
  unread : List UInt32

namespace ChaCha20

def ofKey (key : Key) : ChaCha20 := ⟨key.words, 0, []⟩

def next (s : ChaCha20) : UInt32 × ChaCha20 :=
  match s.unread with
  | word :: unread => (word, { s with unread })
  | [] =>
    let fresh := block s.key s.counter
    (fresh[0], { s with counter := s.counter + 1, unread := fresh.toList.tail })

instance : WordSource ChaCha20 := ⟨next⟩

private def seedStep (state : UInt64) : UInt64 :=
  state * 6364136223846793005 + 11634580027462260723

private def seedWord (state : UInt64) : UInt32 :=
  let x := ((state >>> 18 ^^^ state) >>> 27).toUInt32
  let distance := (state >>> 59).toUInt32
  x >>> distance ||| x <<< ((32 - distance) % 32)

/-- The outputs of the `n` states that follow `state`. -/
private def seedWords (state : UInt64) : (n : Nat) → Vector UInt32 n
  | 0 => #v[]
  | n + 1 =>
    let state := seedStep state
    ((#v[seedWord state] ++ seedWords state n).cast (by omega))

/-- The source that a small number seeds: its key is eight outputs of a permuted congruential
generator started at the number. -/
def ofSeed (seed : UInt64) : ChaCha20 := ⟨seedWords seed 8, 0, []⟩

end ChaCha20

namespace Random

variable {σ : Type} [WordSource σ]

/-- A key of the next eight words. -/
def key : StateM σ Key := do
  let drawn ← words 8
  return .ofWords (Vector.ofFn fun i => drawn.getD i 0)

end Random

end PrivateSums
