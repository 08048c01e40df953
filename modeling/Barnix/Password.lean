import Barnix.Path
/-!
# Passwords

`password.c`: SHA-256, and the salted, iterated encoding that account and lock
passwords are stored in.
-/

namespace Barnix

def rotate (x n : UInt32) : UInt32 := (x >>> n) ||| (x <<< (32 - n))

def sha256Keys : List UInt32 := [
  0x428a2f98, 0x71374491, 0xb5c0fbcf, 0xe9b5dba5, 0x3956c25b, 0x59f111f1, 0x923f82a4, 0xab1c5ed5,
  0xd807aa98, 0x12835b01, 0x243185be, 0x550c7dc3, 0x72be5d74, 0x80deb1fe, 0x9bdc06a7, 0xc19bf174,
  0xe49b69c1, 0xefbe4786, 0x0fc19dc6, 0x240ca1cc, 0x2de92c6f, 0x4a7484aa, 0x5cb0a9dc, 0x76f988da,
  0x983e5152, 0xa831c66d, 0xb00327c8, 0xbf597fc7, 0xc6e00bf3, 0xd5a79147, 0x06ca6351, 0x14292967,
  0x27b70a85, 0x2e1b2138, 0x4d2c6dfc, 0x53380d13, 0x650a7354, 0x766a0abb, 0x81c2c92e, 0x92722c85,
  0xa2bfe8a1, 0xa81a664b, 0xc24b8b70, 0xc76c51a3, 0xd192e819, 0xd6990624, 0xf40e3585, 0x106aa070,
  0x19a4c116, 0x1e376c08, 0x2748774c, 0x34b0bcb5, 0x391c0cb3, 0x4ed8aa4a, 0x5b9cca4f, 0x682e6ff3,
  0x748f82ee, 0x78a5636f, 0x84c87814, 0x8cc70208, 0x90befffa, 0xa4506ceb, 0xbef9a3f7, 0xc67178f2]

/-- The eight words of the hash. -/
structure Digest where
  a : UInt32
  b : UInt32
  c : UInt32
  d : UInt32
  e : UInt32
  f : UInt32
  g : UInt32
  h : UInt32

def Digest.start : Digest :=
  ⟨0x6a09e667, 0xbb67ae85, 0x3c6ef372, 0xa54ff53a, 0x510e527f, 0x9b05688c, 0x1f83d9ab, 0x5be0cd19⟩

def Digest.words (x : Digest) : List UInt32 := [x.a, x.b, x.c, x.d, x.e, x.f, x.g, x.h]

def Digest.add (x y : Digest) : Digest :=
  ⟨x.a + y.a, x.b + y.b, x.c + y.c, x.d + y.d, x.e + y.e, x.f + y.f, x.g + y.g, x.h + y.h⟩

/-- Byte `p` of the padded message of `blocks` blocks. -/
def paddedByte (data : List UInt8) (blocks p : Nat) : UInt8 :=
  let size := UInt32.ofNat data.length
  if blocks * 64 - 4 ≤ p then ((size * 8) >>> UInt32.ofNat ((blocks * 64 - 1 - p) * 8)).toUInt8
  else if p < data.length then data.getD p 0
  else if p = data.length then 128
  else 0

/-- The first 16 words of the schedule of a block. -/
def messageWord (data : List UInt8) (blocks block i : Nat) : UInt32 :=
  let byte k := (paddedByte data blocks (block * 64 + i * 4 + k)).toUInt32
  (byte 0 <<< 24) ||| (byte 1 <<< 16) ||| (byte 2 <<< 8) ||| byte 3

/-- The message schedule, extended by one word. -/
def extendSchedule (w : List UInt32) (i : Nat) : List UInt32 :=
  let a := w.getD (i - 15) 0
  let b := w.getD (i - 2) 0
  w ++ [w.getD (i - 16) 0 + (rotate a 7 ^^^ rotate a 18 ^^^ (a >>> 3)) + w.getD (i - 7) 0 +
    (rotate b 17 ^^^ rotate b 19 ^^^ (b >>> 10))]

def schedule (data : List UInt8) (blocks block : Nat) : List UInt32 :=
  (List.range' 16 48).foldl extendSchedule ((List.range 16).map (messageWord data blocks block))

def compress (x : Digest) (kw : UInt32 × UInt32) : Digest :=
  let t := x.h + (rotate x.e 6 ^^^ rotate x.e 11 ^^^ rotate x.e 25) + ((x.e &&& x.f) ^^^ (~~~x.e &&& x.g)) + kw.1 + kw.2
  let u := (rotate x.a 2 ^^^ rotate x.a 13 ^^^ rotate x.a 22) + ((x.a &&& x.b) ^^^ (x.a &&& x.c) ^^^ (x.b &&& x.c))
  ⟨t + u, x.a, x.b, x.c, x.d + t, x.e, x.f, x.g⟩

def sha256 (data : List UInt8) : List UInt8 :=
  let blocks := (data.length + 9 + 63) / 64
  let digest := (List.range blocks).foldl (fun h block =>
    h.add ((sha256Keys.zip (schedule data blocks block)).foldl compress h)) Digest.start
  digest.words.flatMap fun (w : UInt32) => [(w >>> 24).toUInt8, (w >>> 16).toUInt8, (w >>> 8).toUInt8, w.toUInt8]

/-! ## Stored passwords -/

def hexDigit (n : Nat) : UInt8 := if n < 10 then UInt8.ofNat (48 + n) else UInt8.ofNat (87 + n)

/-- `$bx1$` -/
def passwordMark : Name := [36, 98, 120, 49, 36]

/-- `password_encode`: the mark, the salt, and the hex digits of the iterated digest. -/
def passwordEncode (password salt : Name) : Name :=
  let word := password.take 63
  let digest := (List.range 4096).foldl (fun d _ => sha256 (d ++ salt ++ word)) (sha256 (salt ++ word))
  passwordMark ++ salt ++ [36] ++ digest.flatMap fun b => [hexDigit (b.toNat / 16), hexDigit (b.toNat % 16)]

/-- `password_matches`: an encoding without the mark is a plain password. -/
def passwordMatches (password encoded : Name) : Bool :=
  if !passwordMark.isPrefixOf encoded then encoded ≠ [] && password == encoded
  else if encoded.length ≠ 86 ∨ encoded.getD 21 0 ≠ 36 ∨ 63 < password.length then false
  else passwordEncode password ((encoded.drop 5).take 16) == encoded

end Barnix
