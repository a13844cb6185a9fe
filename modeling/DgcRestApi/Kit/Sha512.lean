import Mathlib.Data.BitVec

/-!
# SHA-512

The secure hash of FIPS 180-4 with words of 64 bits, as a function on lists of bytes, and the
text that implementations return for it: the digest of the UTF-8 encoding, in hexadecimal.
-/

namespace Sha2

abbrev Word := BitVec 64

/-- The eight words that a block is compressed into. -/
structure Chaining where
  a : Word
  b : Word
  c : Word
  d : Word
  e : Word
  f : Word
  g : Word
  h : Word

/-- The fractional parts of the square roots of the first eight primes. -/
def initial : Chaining where
  a := 0x6a09e667f3bcc908
  b := 0xbb67ae8584caa73b
  c := 0x3c6ef372fe94f82b
  d := 0xa54ff53a5f1d36f1
  e := 0x510e527fade682d1
  f := 0x9b05688c2b3e6c1f
  g := 0x1f83d9abfb41bd6b
  h := 0x5be0cd19137e2179

/-- The fractional parts of the cube roots of the first eighty primes. -/
def roundConstants : List Word := [
  0x428a2f98d728ae22,0x7137449123ef65cd,0xb5c0fbcfec4d3b2f,0xe9b5dba58189dbbc,
  0x3956c25bf348b538,0x59f111f1b605d019,0x923f82a4af194f9b,0xab1c5ed5da6d8118,
  0xd807aa98a3030242,0x12835b0145706fbe,0x243185be4ee4b28c,0x550c7dc3d5ffb4e2,
  0x72be5d74f27b896f,0x80deb1fe3b1696b1,0x9bdc06a725c71235,0xc19bf174cf692694,
  0xe49b69c19ef14ad2,0xefbe4786384f25e3,0x0fc19dc68b8cd5b5,0x240ca1cc77ac9c65,
  0x2de92c6f592b0275,0x4a7484aa6ea6e483,0x5cb0a9dcbd41fbd4,0x76f988da831153b5,
  0x983e5152ee66dfab,0xa831c66d2db43210,0xb00327c898fb213f,0xbf597fc7beef0ee4,
  0xc6e00bf33da88fc2,0xd5a79147930aa725,0x06ca6351e003826f,0x142929670a0e6e70,
  0x27b70a8546d22ffc,0x2e1b21385c26c926,0x4d2c6dfc5ac42aed,0x53380d139d95b3df,
  0x650a73548baf63de,0x766a0abb3c77b2a8,0x81c2c92e47edaee6,0x92722c851482353b,
  0xa2bfe8a14cf10364,0xa81a664bbc423001,0xc24b8b70d0f89791,0xc76c51a30654be30,
  0xd192e819d6ef5218,0xd69906245565a910,0xf40e35855771202a,0x106aa07032bbd1b8,
  0x19a4c116b8d2d0c8,0x1e376c085141ab53,0x2748774cdf8eeb99,0x34b0bcb5e19b48a8,
  0x391c0cb3c5c95a63,0x4ed8aa4ae3418acb,0x5b9cca4f7763e373,0x682e6ff3d6b2b8a3,
  0x748f82ee5defb2fc,0x78a5636f43172f60,0x84c87814a1f0ab72,0x8cc702081a6439ec,
  0x90befffa23631e28,0xa4506cebde82bde9,0xbef9a3f7b2c67915,0xc67178f2e372532b,
  0xca273eceea26619c,0xd186b8c721c0c207,0xeada7dd6cde0eb1e,0xf57d4f7fee6ed178,
  0x06f067aa72176fba,0x0a637dc5a2c898a6,0x113f9804bef90dae,0x1b710b35131c471b,
  0x28db77f523047d84,0x32caab7b40c72493,0x3c9ebe0a15c9bebc,0x431d67c49c100d4c,
  0x4cc5d4becb3e42b6,0x597f299cfc657e2a,0x5fcb6fab3ad6faec,0x6c44198c4a475817]

def ch (x y z : Word) : Word := (x &&& y) ^^^ (~~~x &&& z)

def maj (x y z : Word) : Word := (x &&& y) ^^^ (x &&& z) ^^^ (y &&& z)

def bigSigma0 (x : Word) : Word := x.rotateRight 28 ^^^ x.rotateRight 34 ^^^ x.rotateRight 39

def bigSigma1 (x : Word) : Word := x.rotateRight 14 ^^^ x.rotateRight 18 ^^^ x.rotateRight 41

def smallSigma0 (x : Word) : Word := x.rotateRight 1 ^^^ x.rotateRight 8 ^^^ (x >>> 7)

def smallSigma1 (x : Word) : Word := x.rotateRight 19 ^^^ x.rotateRight 61 ^^^ (x >>> 6)

/-- The word that follows in a schedule, which is listed newest first. -/
def nextWord (w : List Word) : Word :=
  smallSigma1 (w.getD 1 0) + w.getD 6 0 + smallSigma0 (w.getD 14 0) + w.getD 15 0

def extend : Nat → List Word → List Word
  | 0,w => w
  | n + 1,w => extend n (nextWord w :: w)

/-- The eighty words of the rounds of a block. -/
def schedule (block : List Word) : List Word := (extend 64 block.reverse).reverse

def round (s : Chaining) (kw : Word × Word) : Chaining :=
  let t₁ := s.h + bigSigma1 s.e + ch s.e s.f s.g + kw.1 + kw.2
  let t₂ := bigSigma0 s.a + maj s.a s.b s.c
  ⟨t₁ + t₂,s.a,s.b,s.c,s.d + t₁,s.e,s.f,s.g⟩

def compress (s : Chaining) (block : List Word) : Chaining :=
  let t := (roundConstants.zip (schedule block)).foldl round s
  ⟨s.a + t.a,s.b + t.b,s.c + t.c,s.d + t.d,s.e + t.e,s.f + t.f,s.g + t.g,s.h + t.h⟩

/-- The zeros that fill the last block up to the length of the message. -/
def zeros (length : Nat) : List UInt8 := List.replicate ((239 - length % 128) % 128) 0

/-- The length of the message in bits, as 16 bytes. -/
def lengthBytes (length : Nat) : List UInt8 :=
  (List.range 16).map fun i => UInt8.ofNat ((8 * length) >>> (8 * (15 - i)))

def pad (message : List UInt8) : List UInt8 :=
  message ++ [0x80] ++ zeros message.length ++ lengthBytes message.length

/-- The first `m` pieces of length `n`. -/
def pieces {α : Type} (n : Nat) : Nat → List α → List (List α)
  | 0,_ => []
  | m + 1,l => l.take n :: pieces n m (l.drop n)

/-- Bytes as a number, the first one highest. -/
def toWord (bytes : List UInt8) : Word :=
  BitVec.ofNat 64 (bytes.foldl (fun n b => 256 * n + b.toNat) 0)

def blocks (message : List UInt8) : List (List Word) :=
  let padded := pad message
  (pieces 128 (padded.length / 128) padded).map fun b => (pieces 8 16 b).map toWord

def sha512 (message : List UInt8) : Chaining := (blocks message).foldl compress initial

/-- The sixteen hexadecimal digits of a word. -/
def hexDigits (w : Word) : List Char :=
  (List.range 16).map fun i => Nat.digitChar (w.toNat >>> (4 * (15 - i)) % 16)

def Chaining.hex (s : Chaining) : List Char :=
  [s.a,s.b,s.c,s.d,s.e,s.f,s.g,s.h].flatMap hexDigits

def hexDigest (text : String) : List Char :=
  (sha512 (text.toList.flatMap String.utf8EncodeChar)).hex

theorem length_hexDigits (w : Word) : (hexDigits w).length = 16 := by
  rw [hexDigits,List.length_map,List.length_range]

theorem length_hexDigest (text : String) : (hexDigest text).length = 128 := by
  simp [hexDigest,Chaining.hex,length_hexDigits]

example : (hexDigest "abc").take 16 = "ddaf35a193617aba".toList := by decide +kernel

end Sha2
