import LedgerLens.ByteStrings

/-!
# SHA-256

The hash that `hashlib`, the Soroban host and the `sha2` crate provide, over whole
byte strings. Blocks are folded one by one; the schedule is kept newest word first.
-/
namespace Sha256

open ByteStrings

def roundConstants : List UInt32 := [
  0x428a2f98, 0x71374491, 0xb5c0fbcf, 0xe9b5dba5, 0x3956c25b, 0x59f111f1, 0x923f82a4, 0xab1c5ed5,
  0xd807aa98, 0x12835b01, 0x243185be, 0x550c7dc3, 0x72be5d74, 0x80deb1fe, 0x9bdc06a7, 0xc19bf174,
  0xe49b69c1, 0xefbe4786, 0x0fc19dc6, 0x240ca1cc, 0x2de92c6f, 0x4a7484aa, 0x5cb0a9dc, 0x76f988da,
  0x983e5152, 0xa831c66d, 0xb00327c8, 0xbf597fc7, 0xc6e00bf3, 0xd5a79147, 0x06ca6351, 0x14292967,
  0x27b70a85, 0x2e1b2138, 0x4d2c6dfc, 0x53380d13, 0x650a7354, 0x766a0abb, 0x81c2c92e, 0x92722c85,
  0xa2bfe8a1, 0xa81a664b, 0xc24b8b70, 0xc76c51a3, 0xd192e819, 0xd6990624, 0xf40e3585, 0x106aa070,
  0x19a4c116, 0x1e376c08, 0x2748774c, 0x34b0bcb5, 0x391c0cb3, 0x4ed8aa4a, 0x5b9cca4f, 0x682e6ff3,
  0x748f82ee, 0x78a5636f, 0x84c87814, 0x8cc70208, 0x90befffa, 0xa4506ceb, 0xbef9a3f7, 0xc67178f2]

structure HashState where
  a : UInt32
  b : UInt32
  c : UInt32
  d : UInt32
  e : UInt32
  f : UInt32
  g : UInt32
  h : UInt32

def initialState : HashState :=
  ⟨0x6a09e667, 0xbb67ae85, 0x3c6ef372, 0xa54ff53a,
    0x510e527f, 0x9b05688c, 0x1f83d9ab, 0x5be0cd19⟩

def rotr (x n : UInt32) : UInt32 := (x >>> n) ||| (x <<< (32 - n))

def bigSigma0 (x : UInt32) : UInt32 := rotr x 2 ^^^ rotr x 13 ^^^ rotr x 22
def bigSigma1 (x : UInt32) : UInt32 := rotr x 6 ^^^ rotr x 11 ^^^ rotr x 25
def smallSigma0 (x : UInt32) : UInt32 := rotr x 7 ^^^ rotr x 18 ^^^ (x >>> 3)
def smallSigma1 (x : UInt32) : UInt32 := rotr x 17 ^^^ rotr x 19 ^^^ (x >>> 10)

/-- The words of one block, newest first, extended to `16 + n` words. -/
def schedule (block : List UInt32) : ℕ → List UInt32
  | 0 => block.reverse
  | n + 1 =>
    let w := schedule block n
    (smallSigma1 (w.getD 1 0) + w.getD 6 0 + smallSigma0 (w.getD 14 0) + w.getD 15 0) :: w

def round (s : HashState) (kw : UInt32 × UInt32) : HashState :=
  let ch := (s.e &&& s.f) ^^^ ((s.e ^^^ 0xffffffff) &&& s.g)
  let maj := (s.a &&& s.b) ^^^ (s.a &&& s.c) ^^^ (s.b &&& s.c)
  let t := s.h + bigSigma1 s.e + ch + kw.1 + kw.2
  ⟨t + bigSigma0 s.a + maj, s.a, s.b, s.c, s.d + t, s.e, s.f, s.g⟩

def compress (s : HashState) (block : List UInt32) : HashState :=
  let r := (roundConstants.zip (schedule block 48).reverse).foldl round s
  ⟨s.a + r.a, s.b + r.b, s.c + r.c, s.d + r.d, s.e + r.e, s.f + r.f, s.g + r.g, s.h + r.h⟩

/-- A set bit, zeros and the 64-bit length fill the message to whole blocks. -/
def pad (m : List UInt8) : List UInt8 :=
  m ++ 0x80 :: (List.replicate ((119 - m.length % 64) % 64) 0 ++ toBigEndian 8 (8 * m.length))

def words (m : List UInt8) (n : ℕ) : List UInt32 :=
  (List.range n).map fun i => UInt32.ofNat (ofBigEndian ((m.drop (4 * i)).take 4))

def blocks (m : List UInt8) : List (List UInt32) :=
  (List.range (m.length / 64)).map fun i => words (m.drop (64 * i)) 16

def HashState.words (s : HashState) : List UInt32 := [s.a, s.b, s.c, s.d, s.e, s.f, s.g, s.h]

def digestBytes (s : HashState) : List UInt8 := s.words.flatMap fun w => toBigEndian 4 w.toNat

theorem length_digestBytes (s : HashState) : (digestBytes s).length = 32 := by
  simp [digestBytes, HashState.words]

def sha256 (m : List UInt8) : BytesN 32 :=
  let s := (blocks (pad m)).foldl compress initialState
  ⟨digestBytes s, length_digestBytes s⟩

-- The digest of the three bytes "abc".
example : ofBigEndian (sha256 [0x61, 0x62, 0x63]).bytes =
    0xba7816bf8f01cfea414140de5dae2223b00361a396177a9cb410ff61f20015ad := by
  decide +kernel

def hmac (key message : List UInt8) : BytesN 32 :=
  let short := if 64 < key.length then (sha256 key).bytes else key
  let block := short ++ List.replicate (64 - short.length) 0
  sha256 (block.map (· ^^^ 0x5c) ++ (sha256 (block.map (· ^^^ 0x36) ++ message)).bytes)

def hexdigest {n : ℕ} (b : BytesN n) : String :=
  String.ofList (b.bytes.flatMap fun x =>
    [Nat.digitChar (x.toNat / 16), Nat.digitChar (x.toNat % 16)])

theorem length_hexdigest {n : ℕ} (b : BytesN n) : (hexdigest b).length = 2 * n := by
  rw [hexdigest, String.length_ofList, List.length_flatMap]
  simp [b.length_eq, Nat.mul_comm]

-- The key "Jefe" and the text "what do ya want for nothing?".
example : hexdigest (hmac [0x4a, 0x65, 0x66, 0x65]
    ("what do ya want for nothing?".toList.map fun c => c.toNat.toUInt8)) =
      "5bdcc146bf60754e6a042426089575c75a003f089d2739839dec58b964ec3843" := by
  decide +kernel

end Sha256
