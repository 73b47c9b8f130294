import Mathlib.Data.Nat.Notation

/-!
# SHA-256 and HMAC

The digest and the message authentication code over it, on lists of bytes,
with a message schedule and registers of 32-bit words.
-/

namespace DrFed.Sha256

/-! ## Words -/

/-- The first halves of the fractional parts of the cube roots of the first
64 primes. -/
def roundConstants : List UInt32 :=
  [0x428a2f98, 0x71374491, 0xb5c0fbcf, 0xe9b5dba5,
    0x3956c25b, 0x59f111f1, 0x923f82a4, 0xab1c5ed5,
    0xd807aa98, 0x12835b01, 0x243185be, 0x550c7dc3,
    0x72be5d74, 0x80deb1fe, 0x9bdc06a7, 0xc19bf174,
    0xe49b69c1, 0xefbe4786, 0x0fc19dc6, 0x240ca1cc,
    0x2de92c6f, 0x4a7484aa, 0x5cb0a9dc, 0x76f988da,
    0x983e5152, 0xa831c66d, 0xb00327c8, 0xbf597fc7,
    0xc6e00bf3, 0xd5a79147, 0x06ca6351, 0x14292967,
    0x27b70a85, 0x2e1b2138, 0x4d2c6dfc, 0x53380d13,
    0x650a7354, 0x766a0abb, 0x81c2c92e, 0x92722c85,
    0xa2bfe8a1, 0xa81a664b, 0xc24b8b70, 0xc76c51a3,
    0xd192e819, 0xd6990624, 0xf40e3585, 0x106aa070,
    0x19a4c116, 0x1e376c08, 0x2748774c, 0x34b0bcb5,
    0x391c0cb3, 0x4ed8aa4a, 0x5b9cca4f, 0x682e6ff3,
    0x748f82ee, 0x78a5636f, 0x84c87814, 0x8cc70208,
    0x90befffa, 0xa4506ceb, 0xbef9a3f7, 0xc67178f2]

def rotateRight (x n : UInt32) : UInt32 := x >>> n ||| x <<< (32 - n)

def bigSigma0 (x : UInt32) : UInt32 :=
  rotateRight x 2 ^^^ rotateRight x 13 ^^^ rotateRight x 22

def bigSigma1 (x : UInt32) : UInt32 :=
  rotateRight x 6 ^^^ rotateRight x 11 ^^^ rotateRight x 25

def smallSigma0 (x : UInt32) : UInt32 :=
  rotateRight x 7 ^^^ rotateRight x 18 ^^^ x >>> 3

def smallSigma1 (x : UInt32) : UInt32 :=
  rotateRight x 17 ^^^ rotateRight x 19 ^^^ x >>> 10

def choose (x y z : UInt32) : UInt32 := (x &&& y) ^^^ (~~~x &&& z)

def majority (x y z : UInt32) : UInt32 :=
  (x &&& y) ^^^ (x &&& z) ^^^ (y &&& z)

/-- A word of four bytes, the most significant one first. -/
def wordOf (bytes : List UInt8) : UInt32 :=
  bytes.foldl (fun word byte => word <<< 8 ||| byte.toUInt32) 0

def bytesOf (word : UInt32) : List UInt8 :=
  [24, 16, 8, 0].map fun shift : UInt32 => (word >>> shift).toUInt8

/-! ## Blocks -/

/-- The first `count` pieces of `size` entries. -/
def pieces {α : Type} (size : ℕ) : ℕ → List α → List (List α)
  | 0, _ => []
  | count + 1, entries =>
      entries.take size :: pieces size count (entries.drop size)

/-- A one bit, zeros, and the length in bits fill up the last block. -/
def pad (message : List UInt8) : List UInt8 :=
  let bits := 8 * message.length
  message ++ 0x80 :: (List.replicate ((119 - message.length % 64) % 64) 0 ++
    bytesOf (UInt32.ofNat (bits / 4294967296)) ++ bytesOf (UInt32.ofNat bits))

/-- Further words of a message schedule, of which the newest comes first. -/
def extend : ℕ → List UInt32 → List UInt32
  | 0, words => words
  | count + 1, words =>
      extend count ((smallSigma1 (words.getD 1 0) + words.getD 6 0 +
        smallSigma0 (words.getD 14 0) + words.getD 15 0) :: words)

def schedule (block : List UInt8) : List UInt32 :=
  (extend 48 ((pieces 4 16 block).map wordOf).reverse).reverse

structure Registers where
  a : UInt32
  b : UInt32
  c : UInt32
  d : UInt32
  e : UInt32
  f : UInt32
  g : UInt32
  h : UInt32

/-- The first halves of the fractional parts of the square roots of the first
eight primes. -/
def initial : Registers :=
  ⟨0x6a09e667, 0xbb67ae85, 0x3c6ef372, 0xa54ff53a,
    0x510e527f, 0x9b05688c, 0x1f83d9ab, 0x5be0cd19⟩

def round (r : Registers) (constant word : UInt32) : Registers :=
  let t1 := r.h + bigSigma1 r.e + choose r.e r.f r.g + constant + word
  let t2 := bigSigma0 r.a + majority r.a r.b r.c
  ⟨t1 + t2, r.a, r.b, r.c, r.d + t1, r.e, r.f, r.g⟩

def compress (r : Registers) (block : List UInt8) : Registers :=
  let s := (roundConstants.zip (schedule block)).foldl
    (fun s entry => round s entry.1 entry.2) r
  ⟨r.a + s.a, r.b + s.b, r.c + s.c, r.d + s.d,
    r.e + s.e, r.f + s.f, r.g + s.g, r.h + s.h⟩

def Registers.bytes (r : Registers) : List UInt8 :=
  [r.a, r.b, r.c, r.d, r.e, r.f, r.g, r.h].flatMap bytesOf

end Sha256

/-! ## Digests -/

def sha256 (message : List UInt8) : List UInt8 :=
  let padded := Sha256.pad message
  ((Sha256.pieces 64 (padded.length / 64) padded).foldl Sha256.compress
    Sha256.initial).bytes

/-- `HMAC` with a block of 64 bytes. -/
def hmacSha256 (key message : List UInt8) : List UInt8 :=
  let short := if 64 < key.length then sha256 key else key
  let block := short ++ List.replicate (64 - short.length) 0
  sha256 (block.map (· ^^^ 0x5c) ++
    sha256 (block.map (· ^^^ 0x36) ++ message))

/-- The digest of the text `abc`. -/
example : sha256 [0x61, 0x62, 0x63] =
    [0xba, 0x78, 0x16, 0xbf, 0x8f, 0x01, 0xcf, 0xea,
      0x41, 0x41, 0x40, 0xde, 0x5d, 0xae, 0x22, 0x23,
      0xb0, 0x03, 0x61, 0xa3, 0x96, 0x17, 0x7a, 0x9c,
      0xb4, 0x10, 0xff, 0x61, 0xf2, 0x00, 0x15, 0xad] := by
  decide +kernel

/-- The code of `what do ya want for nothing?` under the key `Jefe`. -/
example : hmacSha256 ("Jefe".toUTF8.toList)
    ("what do ya want for nothing?".toUTF8.toList) =
      [0x5b, 0xdc, 0xc1, 0x46, 0xbf, 0x60, 0x75, 0x4e,
        0x6a, 0x04, 0x24, 0x26, 0x08, 0x95, 0x75, 0xc7,
        0x5a, 0x00, 0x3f, 0x08, 0x9d, 0x27, 0x39, 0x83,
        0x9d, 0xec, 0x58, 0xb9, 0x64, 0xec, 0x38, 0x43] := by
  decide +kernel

end DrFed
