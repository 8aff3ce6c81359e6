import PrivateSums.Random.ElementStream
import PrivateSums.Share.Error

/-!
Additive sharing: shares that sum to the secret.
-/

namespace PrivateSums.Additive

variable {σ : Type} [WordSource σ]

/-- `n` elements of the field. -/
def elements (F : Field) : Nat → StateM σ (List Nat)
  | 0 => return []
  | n + 1 => do
    let first ← F.random
    let rest ← elements F n
    return first :: rest

/-- Splits a secret among `servers` servers. All shares but the last are random and the last makes
up the difference, so a single server gets the secret itself. -/
def share (F : Field) (secret servers : Nat) : ExceptT ShareError (StateM σ) (List Nat) := do
  match servers with
  | 0 => throw .noServers
  | others + 1 =>
    let random ← (elements F others : StateM σ (List Nat))
    return random ++ [F.sub secret (F.sum random)]

def reconstruct (F : Field) (shares : List Nat) : Nat := F.sum shares

end PrivateSums.Additive
