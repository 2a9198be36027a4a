/-!
# Digest — SHA-256 of a text, in hexadecimal

Compiled functions and verdicts are remembered under the digest of a text. The message is padded
with one bit, zeros and its length in bits, cut into blocks of sixteen 32-bit words, and folded
into eight words of state.

* `Digest.sha256` — the eight words for a list of bytes;
* `Digest.ofText` — their sixty-four hexadecimal digits, for the UTF-8 bytes of a text.
-/

namespace StraightLine

namespace Digest

/-! ## State and constants -/

/-- The eight chained words. -/
structure Chain where
  a : UInt32
  b : UInt32
  c : UInt32
  d : UInt32
  e : UInt32
  f : UInt32
  g : UInt32
  h : UInt32
  deriving DecidableEq, Repr

/-- The first words of the fractional parts of the square roots of the first eight primes. -/
def Chain.initial : Chain :=
  ⟨0x6a09e667, 0xbb67ae85, 0x3c6ef372, 0xa54ff53a, 0x510e527f, 0x9b05688c, 0x1f83d9ab, 0x5be0cd19⟩

/-- The first words of the fractional parts of the cube roots of the first sixty-four primes. -/
def roundConstants : List UInt32 :=
  [ 0x428a2f98, 0x71374491, 0xb5c0fbcf, 0xe9b5dba5, 0x3956c25b, 0x59f111f1, 0x923f82a4, 0xab1c5ed5,
    0xd807aa98, 0x12835b01, 0x243185be, 0x550c7dc3, 0x72be5d74, 0x80deb1fe, 0x9bdc06a7, 0xc19bf174,
    0xe49b69c1, 0xefbe4786, 0x0fc19dc6, 0x240ca1cc, 0x2de92c6f, 0x4a7484aa, 0x5cb0a9dc, 0x76f988da,
    0x983e5152, 0xa831c66d, 0xb00327c8, 0xbf597fc7, 0xc6e00bf3, 0xd5a79147, 0x06ca6351, 0x14292967,
    0x27b70a85, 0x2e1b2138, 0x4d2c6dfc, 0x53380d13, 0x650a7354, 0x766a0abb, 0x81c2c92e, 0x92722c85,
    0xa2bfe8a1, 0xa81a664b, 0xc24b8b70, 0xc76c51a3, 0xd192e819, 0xd6990624, 0xf40e3585, 0x106aa070,
    0x19a4c116, 0x1e376c08, 0x2748774c, 0x34b0bcb5, 0x391c0cb3, 0x4ed8aa4a, 0x5b9cca4f, 0x682e6ff3,
    0x748f82ee, 0x78a5636f, 0x84c87814, 0x8cc70208, 0x90befffa, 0xa4506ceb, 0xbef9a3f7, 0xc67178f2 ]

/-! ## Message -/

/-- The message with its padding, a whole number of 64-byte blocks. -/
def padded (message : List UInt8) : List UInt8 :=
  let length := message.length
  let bits := 8 * length
  -- the bit, the zeros and eight bytes of length fill up the last block
  let zeros := (119 - length % 64) % 64
  let lengthBytes := (List.range 8).map fun i => UInt8.ofNat (bits >>> (8 * (7 - i)))
  message ++ 0x80 :: (List.replicate zeros 0 ++ lengthBytes)

/-- Big-endian words of four bytes; an incomplete tail is dropped. -/
def words : List UInt8 → List UInt32
  | b0 :: b1 :: b2 :: b3 :: rest =>
      (b0.toUInt32 <<< 24 ||| b1.toUInt32 <<< 16 ||| b2.toUInt32 <<< 8 ||| b3.toUInt32) ::
        words rest
  | _ => []

/-! ## Compression -/

def rotateRight (x : UInt32) (n : UInt32) : UInt32 :=
  x >>> n ||| x <<< (32 - n)

/-- The next word of a message schedule. -/
def nextWord (w : Array UInt32) : UInt32 :=
  let back (k : Nat) : UInt32 := w.getD (w.size - k) 0
  let low := back 15
  let high := back 2
  let s0 := rotateRight low 7 ^^^ rotateRight low 18 ^^^ low >>> 3
  let s1 := rotateRight high 17 ^^^ rotateRight high 19 ^^^ high >>> 10
  back 16 + s0 + back 7 + s1

/-- The words of a block followed by `count` more. -/
def schedule : (count : Nat) → Array UInt32 → Array UInt32
  | 0, w => w
  | count + 1, w => schedule count (w.push (nextWord w))

def round (s : Chain) (constant word : UInt32) : Chain :=
  let s1 := rotateRight s.e 6 ^^^ rotateRight s.e 11 ^^^ rotateRight s.e 25
  let choice := (s.e &&& s.f) ^^^ (~~~s.e &&& s.g)
  let t1 := s.h + s1 + choice + constant + word
  let s0 := rotateRight s.a 2 ^^^ rotateRight s.a 13 ^^^ rotateRight s.a 22
  let majority := (s.a &&& s.b) ^^^ (s.a &&& s.c) ^^^ (s.b &&& s.c)
  { a := t1 + s0 + majority, b := s.a, c := s.b, d := s.c
    e := s.d + t1, f := s.e, g := s.f, h := s.g }

def compress (s : Chain) (block : List UInt8) : Chain :=
  let rounds := roundConstants.zip (schedule 48 (words block).toArray).toList
  let t := rounds.foldl (fun s r => round s r.1 r.2) s
  -- the state before the rounds is added, so that they cannot be run backwards
  { a := s.a + t.a, b := s.b + t.b, c := s.c + t.c, d := s.d + t.d
    e := s.e + t.e, f := s.f + t.f, g := s.g + t.g, h := s.h + t.h }

/-- Folds the next `blocks` blocks of 64 bytes into the chain. -/
def absorb : (blocks : Nat) → Chain → List UInt8 → Chain
  | 0, s, _ => s
  | blocks + 1, s, message =>
      absorb blocks (compress s (message.take 64)) (message.drop 64)

def sha256 (message : List UInt8) : Chain :=
  let message := padded message
  absorb (message.length / 64) Chain.initial message

/-! ## Hexadecimal text -/

/-- Eight lower-case digits, the most significant one first. -/
def hexDigits (x : UInt32) : List Char :=
  (List.range 8).map fun i => Nat.digitChar ((x.toNat >>> (4 * (7 - i))) % 16)

def Chain.hex (s : Chain) : String :=
  String.ofList ([s.a, s.b, s.c, s.d, s.e, s.f, s.g, s.h].flatMap hexDigits)

/-- The digest of a text. -/
def ofText (text : String) : String :=
  (sha256 text.toUTF8.toList).hex

end Digest

end StraightLine
