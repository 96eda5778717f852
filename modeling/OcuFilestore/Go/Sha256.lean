/-!
# OcuFilestore.Go.Sha256

`crypto/sha256`: the digest of a byte string, as 32 bytes.  Nothing in the
development computes with it beyond equality of digests; the definition is
here so that the code that keys a table on digests is modelled with the
function it really uses.
-/

namespace OcuFilestore

namespace Sha256

/-- The round constants. -/
def roundConstants : List UInt32 :=
  [0x428a2f98, 0x71374491, 0xb5c0fbcf, 0xe9b5dba5, 0x3956c25b, 0x59f111f1, 0x923f82a4, 0xab1c5ed5,
   0xd807aa98, 0x12835b01, 0x243185be, 0x550c7dc3, 0x72be5d74, 0x80deb1fe, 0x9bdc06a7, 0xc19bf174,
   0xe49b69c1, 0xefbe4786, 0x0fc19dc6, 0x240ca1cc, 0x2de92c6f, 0x4a7484aa, 0x5cb0a9dc, 0x76f988da,
   0x983e5152, 0xa831c66d, 0xb00327c8, 0xbf597fc7, 0xc6e00bf3, 0xd5a79147, 0x06ca6351, 0x14292967,
   0x27b70a85, 0x2e1b2138, 0x4d2c6dfc, 0x53380d13, 0x650a7354, 0x766a0abb, 0x81c2c92e, 0x92722c85,
   0xa2bfe8a1, 0xa81a664b, 0xc24b8b70, 0xc76c51a3, 0xd192e819, 0xd6990624, 0xf40e3585, 0x106aa070,
   0x19a4c116, 0x1e376c08, 0x2748774c, 0x34b0bcb5, 0x391c0cb3, 0x4ed8aa4a, 0x5b9cca4f, 0x682e6ff3,
   0x748f82ee, 0x78a5636f, 0x84c87814, 0x8cc70208, 0x90befffa, 0xa4506ceb, 0xbef9a3f7, 0xc67178f2]

/-- The initial hash value. -/
def initialState : List UInt32 :=
  [0x6a09e667, 0xbb67ae85, 0x3c6ef372, 0xa54ff53a, 0x510e527f, 0x9b05688c, 0x1f83d9ab, 0x5be0cd19]

def rotr (x : UInt32) (n : UInt32) : UInt32 := (x >>> n) ||| (x <<< (32 - n))

def wordBytes (w : UInt32) : List UInt8 :=
  [(w >>> 24).toUInt8, (w >>> 16).toUInt8, (w >>> 8).toUInt8, w.toUInt8]

/-- The message followed by `0x80`, zeros, and its bit length in 64 bits. -/
def pad (msg : List UInt8) : List UInt8 :=
  let bits := msg.length * 8
  let zeros : List UInt8 := List.replicate ((119 - msg.length % 64) % 64) 0
  msg ++ 0x80 :: zeros ++ (List.range 8).map fun i => UInt8.ofNat (bits >>> (56 - 8 * i))

/-- The big-endian 32-bit words of a byte string. -/
def words : List UInt8 → List UInt32
  | a :: b :: c :: d :: rest =>
      (a.toUInt32 <<< 24 ||| b.toUInt32 <<< 16 ||| c.toUInt32 <<< 8 ||| d.toUInt32) :: words rest
  | _ => []

/-- Extend the message schedule by `n` words; `w` is in reverse order, the
newest word first. -/
def extend : Nat → List UInt32 → List UInt32
  | 0, w => w
  | n + 1, w =>
      let w2 := w.getD 1 0
      let w7 := w.getD 6 0
      let w15 := w.getD 14 0
      let w16 := w.getD 15 0
      let s0 := rotr w15 7 ^^^ rotr w15 18 ^^^ (w15 >>> 3)
      let s1 := rotr w2 17 ^^^ rotr w2 19 ^^^ (w2 >>> 10)
      extend n ((w16 + s0 + w7 + s1) :: w)

/-- One round of the compression function. -/
def round : List UInt32 → UInt32 × UInt32 → List UInt32
  | [a, b, c, d, e, f, g, h], (k, w) =>
      let s1 := rotr e 6 ^^^ rotr e 11 ^^^ rotr e 25
      let ch := (e &&& f) ^^^ (~~~e &&& g)
      let t1 := h + s1 + ch + k + w
      let s0 := rotr a 2 ^^^ rotr a 13 ^^^ rotr a 22
      let maj := (a &&& b) ^^^ (a &&& c) ^^^ (b &&& c)
      [t1 + (s0 + maj), a, b, c, d + t1, e, f, g]
  | st, _ => st

/-- Compress one block of 16 words into the state. -/
def compress (st : List UInt32) (block : List UInt32) : List UInt32 :=
  let schedule := (extend 48 block.reverse).reverse
  List.zipWith (· + ·) st ((roundConstants.zip schedule).foldl round st)

/-- Compress the blocks of a message, `n` of them. -/
def blocks : Nat → List UInt32 → List UInt32 → List UInt32
  | 0, st, _ => st
  | n + 1, st, ws => blocks n (compress st (ws.take 16)) (ws.drop 16)

theorem length_round (st : List UInt32) (kw : UInt32 × UInt32) :
    (round st kw).length = st.length := by
  unfold round
  split <;> rfl

theorem length_compress (st block : List UInt32) : (compress st block).length = st.length := by
  have hfold (kws : List (UInt32 × UInt32)) (st : List UInt32) :
      (kws.foldl round st).length = st.length := by
    induction kws generalizing st with
    | nil => rfl
    | cons kw kws ih => rw [List.foldl_cons, ih, length_round]
  rw [compress, List.length_zipWith, hfold, Nat.min_self]

theorem length_blocks (n : Nat) (st ws : List UInt32) : (blocks n st ws).length = st.length := by
  induction n generalizing st ws with
  | zero => rfl
  | succ n ih => rw [blocks, ih, length_compress]

end Sha256

/-- `sha256.Sum256`. -/
def sum256 (msg : List UInt8) : List UInt8 :=
  let ws := Sha256.words (Sha256.pad msg)
  (Sha256.blocks (ws.length / 16) Sha256.initialState ws).flatMap Sha256.wordBytes

/-- A digest has 32 bytes. -/
@[simp] theorem length_sum256 (msg : List UInt8) : (sum256 msg).length = 32 := by
  have hwords (st : List UInt32) : (st.flatMap Sha256.wordBytes).length = 4 * st.length := by
    induction st with
    | nil => rfl
    | cons w st ih =>
        rw [List.flatMap_cons, List.length_append, ih, List.length_cons]
        simp only [Sha256.wordBytes, List.length_cons, List.length_nil]
        omega
  rw [sum256, hwords, Sha256.length_blocks]
  rfl

end OcuFilestore
