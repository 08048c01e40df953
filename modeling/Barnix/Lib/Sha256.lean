import Mathlib.Data.List.Basic
import Mathlib.Data.Nat.NthRoot.Defs
import Mathlib.Data.Nat.Sqrt
import Mathlib.Tactic.Ring
/-!
# SHA-256

The hash of FIPS 180-4 on strings of bits: functions on words (4.1.2), constants
(4.2.2, 5.3.3), padding (5.1.1), parsing (5.2.1) and the computation (6.2.2). A message
of bytes is the string of their bits, the highest bit of each byte first.
-/

namespace Barnix.Sha256

/-- A string of bits, the first one leftmost. -/
abbrev Bits := List Bool

/-! ## Words -/

def rotr (n x : UInt32) : UInt32 := x >>> n ||| x <<< (32 - n)

def ch (x y z : UInt32) : UInt32 := (x &&& y) ^^^ (~~~x &&& z)
def maj (x y z : UInt32) : UInt32 := (x &&& y) ^^^ (x &&& z) ^^^ (y &&& z)
def bigSigma0 (x : UInt32) : UInt32 := rotr 2 x ^^^ rotr 13 x ^^^ rotr 22 x
def bigSigma1 (x : UInt32) : UInt32 := rotr 6 x ^^^ rotr 11 x ^^^ rotr 25 x
def smallSigma0 (x : UInt32) : UInt32 := rotr 7 x ^^^ rotr 18 x ^^^ x >>> 3
def smallSigma1 (x : UInt32) : UInt32 := rotr 17 x ^^^ rotr 19 x ^^^ x >>> 10

/-- The first sixty-four primes. -/
def primes : List Nat :=
  [2, 3, 5, 7, 11, 13, 17, 19, 23, 29, 31, 37, 41, 43, 47, 53, 59, 61, 67, 71, 73, 79, 83, 89, 97, 101, 103, 107, 109, 113, 127, 131,
   137, 139, 149, 151, 157, 163, 167, 173, 179, 181, 191, 193, 197, 199, 211, 223, 227, 229, 233, 239, 241, 251, 257, 263, 269, 271,
   277, 281, 283, 293, 307, 311]

/-- The first thirty-two bits of the fractional parts of the cube roots of the primes. -/
def constants : List UInt32 := primes.map fun p => UInt32.ofNat (Nat.nthRoot 3 (p <<< 96))

/-! ## Padding and parsing -/

/-- The `n` lowest bits of a number. -/
def toBits : Nat → Nat → Bits
  | 0, _ => []
  | n + 1, v => toBits n (v / 2) ++ [decide (v % 2 = 1)]

/-- The number with these bits. -/
def ofBits (bits : Bits) : Nat := bits.foldl (fun v b => 2 * v + b.toNat) 0

/-- The least `k` with `l + 1 + k ≡ 448 mod 512`. -/
def zeros (l : Nat) : Nat := (959 - l % 512) % 512

def pad (message : Bits) : Bits :=
  message ++ [true] ++ List.replicate (zeros message.length) false ++ toBits 64 message.length

/-- The `j`th word of the `i`th block. -/
def word (padded : Bits) (i j : Nat) : UInt32 := UInt32.ofNat (ofBits ((padded.drop (512 * i + 32 * j)).take 32))

/-! ## The computation -/

def schedule (m : Nat → UInt32) (t : Nat) : UInt32 :=
  if t < 16 then m t
  else smallSigma1 (schedule m (t - 2)) + schedule m (t - 7) + smallSigma0 (schedule m (t - 15)) + schedule m (t - 16)
termination_by t

/-- Eight words: the working variables, or a hash value. -/
structure Eight where
  a : UInt32
  b : UInt32
  c : UInt32
  d : UInt32
  e : UInt32
  f : UInt32
  g : UInt32
  h : UInt32
deriving DecidableEq

/-- The first thirty-two bits of the fractional parts of the square roots of the first eight primes. -/
def initial : Eight :=
  let root (p : Nat) := UInt32.ofNat (Nat.sqrt (p <<< 64))
  ⟨root 2, root 3, root 5, root 7, root 11, root 13, root 17, root 19⟩

def round (w : Nat → UInt32) (s : Eight) (t : Nat) : Eight :=
  let t1 := s.h + bigSigma1 s.e + ch s.e s.f s.g + constants.getD t 0 + w t
  let t2 := bigSigma0 s.a + maj s.a s.b s.c
  ⟨t1 + t2, s.a, s.b, s.c, s.d + t1, s.e, s.f, s.g⟩

/-- The hash value after one more block. -/
def block (padded : Bits) (s : Eight) (i : Nat) : Eight :=
  let r := (List.range 64).foldl (round (schedule (word padded i))) s
  ⟨r.a + s.a, r.b + s.b, r.c + s.c, r.d + s.d, r.e + s.e, r.f + s.f, r.g + s.g, r.h + s.h⟩

/-- The hash value of a message, and its bits. -/
def hash (message : Bits) : Eight := (List.range ((pad message).length / 512)).foldl (block (pad message)) initial
def digest (message : Bits) : Bits :=
  let s := hash message
  [s.a, s.b, s.c, s.d, s.e, s.f, s.g, s.h].flatMap fun w => toBits 32 w.toNat

/-! ## Bytes -/

def ofBytes (bytes : List UInt8) : Bits := bytes.flatMap fun b => toBits 8 b.toNat

theorem length_toBits (n v : Nat) : (toBits n v).length = n := by
  induction n generalizing v with
  | zero => rfl
  | succ n ih => rw [toBits, List.length_append, ih, List.length_singleton]

theorem length_ofBytes (bytes : List UInt8) : (ofBytes bytes).length = 8 * bytes.length := by
  induction bytes with
  | nil => rfl
  | cons b bytes ih =>
    rw [ofBytes, List.flatMap_cons, List.length_append, length_toBits, List.length_cons]
    change 8 + (ofBytes bytes).length = _
    omega

theorem ofBytes_append (bytes more : List UInt8) : ofBytes (bytes ++ more) = ofBytes bytes ++ ofBytes more := List.flatMap_append

theorem foldl_bits (bits : Bits) (v : Nat) : bits.foldl (fun v b => 2 * v + b.toNat) v = 2 ^ bits.length * v + ofBits bits := by
  induction bits generalizing v with
  | nil => simp [ofBits]
  | cons b bits ih =>
    have hofBits : ofBits (b :: bits) = 2 ^ bits.length * (2 * 0 + b.toNat) + ofBits bits := ih (2 * 0 + b.toNat)
    rw [List.foldl_cons, ih, hofBits, List.length_cons, pow_succ]
    ring

theorem ofBits_append (bits more : Bits) : ofBits (bits ++ more) = 2 ^ more.length * ofBits bits + ofBits more := by
  rw [ofBits, List.foldl_append, foldl_bits]
  rfl

/-- Bits of a number that fits make up the number. -/
theorem ofBits_toBits (n v : Nat) (h : v < 2 ^ n) : ofBits (toBits n v) = v := by
  induction n generalizing v with
  | zero =>
    rw [pow_zero] at h
    change 0 = v
    omega
  | succ n ih =>
    rw [pow_succ] at h
    rw [toBits, ofBits_append, ih (v / 2) (by omega), List.length_singleton, pow_one]
    rcases Nat.mod_two_eq_zero_or_one v with h | h <;> simp [ofBits, h] <;> omega

/-- The bits of a number, cut in front of the lower `k`. -/
theorem toBits_add (n k v : Nat) : toBits (n + k) v = toBits n (v / 2 ^ k) ++ toBits k v := by
  induction k generalizing v with
  | zero => simp [toBits]
  | succ k ih =>
    rw [← Nat.add_assoc, toBits, ih, toBits, ← List.append_assoc, Nat.div_div_eq_div_mul, pow_succ']

theorem toBits_mod (n v : Nat) : toBits n (v % 2 ^ n) = toBits n v := by
  induction n generalizing v with
  | zero => rfl
  | succ n ih =>
    have hhalf : v % 2 ^ (n + 1) / 2 = v / 2 % 2 ^ n := by
      rw [pow_succ', Nat.mod_mul_right_div_self]
    have hlast : v % 2 ^ (n + 1) % 2 = v % 2 := Nat.mod_mod_of_dvd v (Dvd.intro_left (2 ^ n) (pow_succ 2 n).symm)
    rw [toBits, toBits, hhalf, ih, hlast]

/-- The `n` lowest bytes of a number, the highest of them first. -/
def bigEndian : Nat → Nat → List UInt8
  | 0, _ => []
  | n + 1, v => bigEndian n (v / 256) ++ [UInt8.ofNat v]

theorem length_bigEndian (n v : Nat) : (bigEndian n v).length = n := by
  induction n generalizing v with
  | zero => rfl
  | succ n ih => rw [bigEndian, List.length_append, ih, List.length_singleton]

theorem getElem?_bigEndian (n v : Nat) {i : Nat} (hi : i < n) : (bigEndian n v)[i]? = some (UInt8.ofNat (v / 256 ^ (n - 1 - i))) := by
  induction n generalizing v with
  | zero => exact absurd hi (Nat.not_lt_zero i)
  | succ n ih =>
    rw [bigEndian]
    by_cases hlast : i = n
    · rw [hlast, List.getElem?_append_right (by rw [length_bigEndian]), length_bigEndian, Nat.sub_self, Nat.add_sub_cancel, Nat.sub_self,
        pow_zero, Nat.div_one]
      rfl
    · rw [List.getElem?_append_left (by rw [length_bigEndian]; omega), ih _ (by omega), Nat.div_div_eq_div_mul, ← pow_succ',
        show n - 1 - i + 1 = n + 1 - 1 - i by omega]

theorem ofBytes_singleton (b : UInt8) : ofBytes [b] = toBits 8 b.toNat := List.flatMap_singleton ..

theorem ofBytes_bigEndian (n v : Nat) : ofBytes (bigEndian n v) = toBits (8 * n) v := by
  induction n generalizing v with
  | zero => rfl
  | succ n ih =>
    have hlast : toBits 8 (UInt8.ofNat v).toNat = toBits 8 v := toBits_mod 8 v
    rw [bigEndian, ofBytes_append, ih, ofBytes_singleton, hlast, Nat.mul_succ, toBits_add]
    norm_num

theorem ofBytes_replicate_zero (n : Nat) : ofBytes (List.replicate n 0) = List.replicate (8 * n) false := by
  induction n with
  | zero => rfl
  | succ n ih =>
    rw [List.replicate_succ', ofBytes_append, ih, ofBytes_singleton, Nat.mul_succ, List.replicate_add]
    rfl

/-- The padding of a message of bytes. -/
def padBytes (message : List UInt8) : List UInt8 :=
  message ++ [0x80] ++ List.replicate ((119 - message.length % 64) % 64) 0 ++ bigEndian 8 (8 * message.length)

theorem pad_ofBytes (message : List UInt8) : pad (ofBytes message) = ofBytes (padBytes message) := by
  have hzeros : zeros (8 * message.length) = 7 + 8 * ((119 - message.length % 64) % 64) := by
    unfold zeros
    omega
  have hmark : ofBytes [0x80] = [true] ++ List.replicate 7 false := by decide
  rw [pad, padBytes, length_ofBytes, ofBytes_append, ofBytes_append, ofBytes_append, ofBytes_bigEndian, ofBytes_replicate_zero, hmark,
    hzeros, List.replicate_add]
  simp only [List.append_assoc]

theorem length_padBytes (message : List UInt8) : (padBytes message).length = 64 * ((message.length + 72) / 64) := by
  unfold padBytes
  rw [List.length_append, List.length_append, List.length_append, List.length_replicate, length_bigEndian, List.length_singleton]
  omega

theorem drop_ofBytes (k : Nat) (bytes : List UInt8) : (ofBytes bytes).drop (8 * k) = ofBytes (bytes.drop k) := by
  induction k generalizing bytes with
  | zero => rfl
  | succ k ih =>
    cases bytes with
    | nil => simp [ofBytes]
    | cons b bytes =>
      have hfirst : ofBytes (b :: bytes) = toBits 8 b.toNat ++ ofBytes bytes := rfl
      rw [hfirst, Nat.mul_succ, Nat.add_comm, ← List.drop_drop, List.drop_left' (length_toBits _ _), ih, List.drop_succ_cons]

theorem take_ofBytes (k : Nat) (bytes : List UInt8) : (ofBytes bytes).take (8 * k) = ofBytes (bytes.take k) := by
  induction k generalizing bytes with
  | zero => rfl
  | succ k ih =>
    cases bytes with
    | nil => simp [ofBytes]
    | cons b bytes =>
      have hfirst (bytes : List UInt8) : ofBytes (b :: bytes) = toBits 8 b.toNat ++ ofBytes bytes := rfl
      rw [hfirst, Nat.mul_succ, Nat.add_comm, List.take_append, length_toBits, Nat.add_sub_cancel_left, ih,
        List.take_of_length_le (by rw [length_toBits]; omega), List.take_succ_cons, hfirst]

/-- A word of a padded message of bytes. -/
theorem word_ofBytes (bytes : List UInt8) (i j : Nat) {a b c d : UInt8} (h : (bytes.drop (64 * i + 4 * j)).take 4 = [a, b, c, d]) :
    word (ofBytes bytes) i j = UInt32.ofNat (16777216 * a.toNat + 65536 * b.toNat + 256 * c.toNat + d.toNat) := by
  have hcut : ((ofBytes bytes).drop (512 * i + 32 * j)).take 32 = ofBytes [a, b, c, d] := by
    rw [show 512 * i + 32 * j = 8 * (64 * i + 4 * j) by omega, drop_ofBytes, show 32 = 8 * 4 from rfl, take_ofBytes, h]
  have hbyte (b : UInt8) (rest : List UInt8) : ofBits (ofBytes (b :: rest)) = 2 ^ (8 * rest.length) * b.toNat + ofBits (ofBytes rest) := by
    rw [show ofBytes (b :: rest) = toBits 8 b.toNat ++ ofBytes rest from rfl, ofBits_append, length_ofBytes, ofBits_toBits 8 _ b.toNat_lt]
  rw [word, hcut, hbyte, hbyte, hbyte, hbyte]
  congr 1
  change 2 ^ 24 * _ + (2 ^ 16 * _ + (2 ^ 8 * _ + (2 ^ 0 * _ + 0))) = _
  omega

end Barnix.Sha256
