-- SUMMARY: The SHA-256 digest of a byte sequence.

/-!
# SHA-256

The message is padded to blocks of 64 bytes. Each block is expanded to 64 words
and mixed into eight registers, which at the end are the digest.
-/
namespace BanglaSource.Sha256

/-- The eight working words. -/
structure Registers where
  a : UInt32
  b : UInt32
  c : UInt32
  d : UInt32
  e : UInt32
  f : UInt32
  g : UInt32
  h : UInt32
deriving DecidableEq, Repr

namespace Registers

def add (x y : Registers) : Registers :=
  ⟨x.a + y.a, x.b + y.b, x.c + y.c, x.d + y.d, x.e + y.e, x.f + y.f, x.g + y.g, x.h + y.h⟩

def toList (x : Registers) : List UInt32 :=
  [x.a, x.b, x.c, x.d, x.e, x.f, x.g, x.h]

/-- The registers before the first block: the fractional parts of the square
    roots of the first eight primes. -/
def initial : Registers :=
  ⟨0x6a09e667, 0xbb67ae85, 0x3c6ef372, 0xa54ff53a,
    0x510e527f, 0x9b05688c, 0x1f83d9ab, 0x5be0cd19⟩

end Registers

/-- The round constants: the fractional parts of the cube roots of the first 64
    primes. -/
def roundConstants : List UInt32 :=
  [ 0x428a2f98, 0x71374491, 0xb5c0fbcf, 0xe9b5dba5, 0x3956c25b, 0x59f111f1, 0x923f82a4, 0xab1c5ed5,
    0xd807aa98, 0x12835b01, 0x243185be, 0x550c7dc3, 0x72be5d74, 0x80deb1fe, 0x9bdc06a7, 0xc19bf174,
    0xe49b69c1, 0xefbe4786, 0x0fc19dc6, 0x240ca1cc, 0x2de92c6f, 0x4a7484aa, 0x5cb0a9dc, 0x76f988da,
    0x983e5152, 0xa831c66d, 0xb00327c8, 0xbf597fc7, 0xc6e00bf3, 0xd5a79147, 0x06ca6351, 0x14292967,
    0x27b70a85, 0x2e1b2138, 0x4d2c6dfc, 0x53380d13, 0x650a7354, 0x766a0abb, 0x81c2c92e, 0x92722c85,
    0xa2bfe8a1, 0xa81a664b, 0xc24b8b70, 0xc76c51a3, 0xd192e819, 0xd6990624, 0xf40e3585, 0x106aa070,
    0x19a4c116, 0x1e376c08, 0x2748774c, 0x34b0bcb5, 0x391c0cb3, 0x4ed8aa4a, 0x5b9cca4f, 0x682e6ff3,
    0x748f82ee, 0x78a5636f, 0x84c87814, 0x8cc70208, 0x90befffa, 0xa4506ceb, 0xbef9a3f7, 0xc67178f2 ]

-- ---------------------------------------------------------------------------
-- Words
-- ---------------------------------------------------------------------------

def rotate (x : UInt32) (n : UInt32) : UInt32 :=
  (x >>> n) ||| (x <<< (32 - n))

/-- The four bytes of a word, the highest first. -/
def bytesOfWord (x : UInt32) : List UInt8 :=
  [(x >>> 24).toUInt8, (x >>> 16).toUInt8, (x >>> 8).toUInt8, x.toUInt8]

/-- Reads words of four bytes, the highest first. -/
def wordsOfBytes : List UInt8 → List UInt32
  | a :: b :: c :: d :: bytes =>
    ((a.toUInt32 <<< 24) ||| (b.toUInt32 <<< 16) ||| (c.toUInt32 <<< 8) ||| d.toUInt32)
      :: wordsOfBytes bytes
  | _ => []

-- ---------------------------------------------------------------------------
-- Blocks
-- ---------------------------------------------------------------------------

/-- Extends the words of a block, given with the last one first, by `n` more. -/
def extend : Nat → List UInt32 → List UInt32
  | 0, words => words
  | n + 1, words =>
    let word (i : Nat) := words.getD i 0
    let low := rotate (word 14) 7 ^^^ rotate (word 14) 18 ^^^ (word 14 >>> 3)
    let high := rotate (word 1) 17 ^^^ rotate (word 1) 19 ^^^ (word 1 >>> 10)
    extend n ((high + word 6 + low + word 15) :: words)

/-- The 64 words of a block of 64 bytes. -/
def schedule (block : List UInt8) : List UInt32 :=
  (extend 48 (wordsOfBytes block).reverse).reverse

/-- Mixes one word into the registers. -/
def mix (r : Registers) (constant word : UInt32) : Registers :=
  let choice := (r.e &&& r.f) ^^^ (~~~r.e &&& r.g)
  let majority := (r.a &&& r.b) ^^^ (r.a &&& r.c) ^^^ (r.b &&& r.c)
  let first := r.h + (rotate r.e 6 ^^^ rotate r.e 11 ^^^ rotate r.e 25) + choice + constant + word
  let second := (rotate r.a 2 ^^^ rotate r.a 13 ^^^ rotate r.a 22) + majority
  ⟨first + second, r.a, r.b, r.c, r.d + first, r.e, r.f, r.g⟩

/-- Mixes a block of 64 bytes into the registers. -/
def compress (r : Registers) (block : List UInt8) : Registers :=
  r.add ((roundConstants.zip (schedule block)).foldl (fun r (k, w) => mix r k w) r)

/-- Mixes all whole blocks into the registers. -/
def compressAll (r : Registers) (bytes : List UInt8) : Registers :=
  if bytes.length < 64 then r
  else compressAll (compress r (bytes.take 64)) (bytes.drop 64)
termination_by bytes.length
decreasing_by simp only [List.length_drop]; omega

-- ---------------------------------------------------------------------------
-- Digests
-- ---------------------------------------------------------------------------

/-- The message, a set bit, zeros up to eight bytes before the end of a block,
    and the length of the message in bits. -/
def pad (message : List UInt8) : List UInt8 :=
  let bits := 8 * message.length
  let zeros := (119 - message.length % 64) % 64
  message ++ 0x80 :: List.replicate zeros 0
    ++ bytesOfWord (bits / 0x100000000).toUInt32 ++ bytesOfWord bits.toUInt32

/-- The 32 bytes of the digest. -/
def digest (message : List UInt8) : List UInt8 :=
  (compressAll .initial (pad message)).toList.flatMap bytesOfWord

end BanglaSource.Sha256
