/-!
# OcuFilestore.Go.Base64

`base64.RawURLEncoding.DecodeString`: the URL alphabet without padding.  Line
ends are skipped wherever they stand, and the unused bits of the last
character may be anything.
-/

namespace OcuFilestore.Base64

/-- The six bits of a character of the URL alphabet. -/
def sextet (c : Char) : Option Nat :=
  if 'A' ≤ c ∧ c ≤ 'Z' then some (c.toNat - 'A'.toNat)
  else if 'a' ≤ c ∧ c ≤ 'z' then some (c.toNat - 'a'.toNat + 26)
  else if '0' ≤ c ∧ c ≤ '9' then some (c.toNat - '0'.toNat + 52)
  else if c = '-' then some 62
  else if c = '_' then some 63
  else none

/-- Four characters to three bytes; a rest of two or three characters is one
or two bytes, a rest of one is an error. -/
def bytes : List Nat → Option (List UInt8)
  | a :: b :: c :: d :: rest =>
      let n := ((a * 64 + b) * 64 + c) * 64 + d
      (bytes rest).map fun bs =>
        UInt8.ofNat (n / 65536) :: UInt8.ofNat (n / 256) :: UInt8.ofNat n :: bs
  | [a, b, c] =>
      let n := (a * 64 + b) * 64 + c
      some [UInt8.ofNat (n / 1024), UInt8.ofNat (n / 4)]
  | [a, b] => some [UInt8.ofNat ((a * 64 + b) / 16)]
  | [_] => none
  | [] => some []

def isLineEnd (c : Char) : Bool := c = '\r' || c = '\n'

def decodeRawURL (cs : List Char) : Option (List UInt8) :=
  ((cs.filter fun c => !isLineEnd c).mapM sextet).bind bytes

example : decodeRawURL "eyJhIjoxfQ".toList = some "\x7b\"a\":1\x7d".toUTF8.toList := by
  decide +kernel

end OcuFilestore.Base64
