/-!
Bytes as lower-case hexadecimal, two digits each.
-/

namespace PrivateSums.Hex

def digit (n : UInt8) : Char :=
  if n < 10 then Char.ofNat (n.toNat + 48) else Char.ofNat (n.toNat + 87)

def digit? (c : Char) : Option UInt8 :=
  if '0' ≤ c ∧ c ≤ '9' then some (c.toNat - 48).toUInt8
  else if 'a' ≤ c ∧ c ≤ 'f' then some (c.toNat - 87).toUInt8
  else none

def encodeChars (bytes : List UInt8) : List Char :=
  bytes.flatMap fun b => [digit (b / 16), digit (b % 16)]

def decodeChars? : List Char → Option (List UInt8)
  | [] => some []
  | [_] => none
  | high :: low :: rest => do
    return (16 * (← digit? high) + (← digit? low)) :: (← decodeChars? rest)

def encode (bytes : List UInt8) : String := String.ofList (encodeChars bytes)

def decode? (text : String) : Option (List UInt8) := decodeChars? text.toList

end PrivateSums.Hex
