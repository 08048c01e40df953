import Barnix.Lib.OnesComplement
import Barnix.Lib.Words
import Mathlib.Data.Nat.Bitwise
/-!
# Packets

The headers of `net_ip.c` as they lie in memory, on a machine that stores numbers
little endian, and the checksum of RFC 1071 that a receiver forms over their bytes.
-/

namespace Barnix.Net

/-- The bytes of a `u16` and of a `u32` in memory. -/
def bytes16 (v : UInt16) : List UInt8 := [v.toUInt8, (v >>> 8).toUInt8]
def bytes32 (v : UInt32) : List UInt8 := [v.toUInt8, (v >>> 8).toUInt8, (v >>> 16).toUInt8, (v >>> 24).toUInt8]

def swap16 (x : UInt16) : UInt16 := x <<< 8 ||| x >>> 8

/-- The loop over the words of `checksum`, and its last byte. -/
def sumWords : List UInt8 → UInt32 → UInt32
  | a :: b :: p, sum => sumWords p (sum + (a.toUInt32 <<< 8 ||| b.toUInt32))
  | [a], sum => sum + a.toUInt32 <<< 8
  | [], sum => sum

theorem toNat_carry (sum : UInt32) : ((sum &&& (0xffff : UInt32)) + (sum >>> (16 : UInt32))).toNat = sum.toNat % 65536 + sum.toNat / 65536 := by
  have hlow : (sum &&& (0xffff : UInt32)).toNat = sum.toNat % 65536 := by
    rw [UInt32.toNat_and]
    exact Nat.and_two_pow_sub_one_eq_mod sum.toNat 16
  have hhigh : (sum >>> 16).toNat = sum.toNat / 65536 := by
    rw [UInt32.toNat_shiftRight, Nat.shiftRight_eq_div_pow]
    rfl
  have hlt := sum.toNat_lt
  rw [UInt32.toNat_add, hlow, hhigh, Nat.mod_eq_of_lt (by omega)]

theorem carry_lt {sum : UInt32} (h : sum >>> 16 ≠ 0) : 65536 ≤ sum.toNat := by
  by_contra hlt
  refine h (UInt32.toNat_inj.1 ?_)
  rw [UInt32.toNat_shiftRight, Nat.shiftRight_eq_div_pow]
  change sum.toNat / 2 ^ 16 = 0
  exact Nat.div_eq_of_lt (by omega)

/-- `while (sum >> 16) sum = (sum & 0xffff) + (sum >> 16);` -/
def foldCarry (sum : UInt32) : UInt32 :=
  if sum >>> 16 ≠ 0 then foldCarry ((sum &&& (0xffff : UInt32)) + (sum >>> (16 : UInt32))) else sum
termination_by sum.toNat
decreasing_by
  rename_i h
  have := carry_lt h
  rw [toNat_carry]
  omega

def checksum (data : List UInt8) : UInt16 := (~~~foldCarry (sumWords data 0)).toUInt16

structure Eth where
  dst : List UInt8
  src : List UInt8
  type : UInt16

def Eth.bytes (e : Eth) : List UInt8 := e.dst ++ e.src ++ bytes16 e.type

structure Arp where
  htype : UInt16
  ptype : UInt16
  hlen : UInt8
  plen : UInt8
  oper : UInt16
  sha : List UInt8
  spa : UInt32
  tha : List UInt8
  tpa : UInt32

def Arp.bytes (a : Arp) : List UInt8 :=
  bytes16 a.htype ++ bytes16 a.ptype ++ [a.hlen, a.plen] ++ bytes16 a.oper ++ a.sha ++ bytes32 a.spa ++ a.tha ++ bytes32 a.tpa

structure Ipv4 where
  vhl : UInt8
  tos : UInt8
  len : UInt16
  id : UInt16
  frag : UInt16
  ttl : UInt8
  proto : UInt8
  sum : UInt16
  src : UInt32
  dst : UInt32

def Ipv4.bytes (h : Ipv4) : List UInt8 :=
  [h.vhl, h.tos] ++ bytes16 h.len ++ bytes16 h.id ++ bytes16 h.frag ++ [h.ttl, h.proto] ++ bytes16 h.sum ++
    bytes32 h.src ++ bytes32 h.dst

structure Icmp where
  type : UInt8
  code : UInt8
  sum : UInt16
  id : UInt16
  seq : UInt16

def Icmp.bytes (m : Icmp) : List UInt8 := [m.type, m.code] ++ bytes16 m.sum ++ bytes16 m.id ++ bytes16 m.seq

structure Udp where
  src : UInt16
  dst : UInt16
  len : UInt16
  sum : UInt16

def Udp.bytes (u : Udp) : List UInt8 := bytes16 u.src ++ bytes16 u.dst ++ bytes16 u.len ++ bytes16 u.sum

/-! ## The receiver's check -/

/-- The words of a message as the receiver reads them, the first byte the higher one. -/
def bigEndianWords : List UInt8 → List Nat
  | a :: b :: p => (256 * a.toNat + b.toNat) :: bigEndianWords p
  | [a] => [256 * a.toNat]
  | [] => []

/-- The check of RFC 1071: the one's complement sum of all words is all ones. -/
def Accepted (message : List UInt8) : Prop := onesSum 65535 (bigEndianWords message) = 65535

instance (message : List UInt8) : Decidable (Accepted message) := inferInstanceAs (Decidable (_ = _))

theorem bigEndianWords_le (p : List UInt8) : ∀ w ∈ bigEndianWords p, w ≤ 65535 := by
  intro w hw
  fun_induction bigEndianWords p with
  | case1 a b p ih =>
    rcases List.mem_cons.1 hw with rfl | hw
    · have := a.toNat_lt
      have := b.toNat_lt
      omega
    · exact ih hw
  | case2 a =>
    obtain rfl := List.mem_singleton.1 hw
    have := a.toNat_lt
    omega
  | case3 => cases hw

/-- The ordinary sum of the words. -/
def wordSum (p : List UInt8) : Nat := (bigEndianWords p).foldl (· + ·) 0

theorem accepted_iff (p : List UInt8) : Accepted p ↔ 0 < wordSum p ∧ 65535 ∣ wordSum p :=
  (folds_onesSum (bigEndianWords_le p)).eq_allOnes_iff (by decide)

theorem foldl_add_start (l : List Nat) (n : Nat) : l.foldl (· + ·) n = n + l.foldl (· + ·) 0 := by
  induction l generalizing n with
  | nil => rfl
  | cons a l ih =>
    rw [List.foldl_cons, List.foldl_cons, ih (n + a), ih (0 + a)]
    omega

theorem wordSum_cons (a b : UInt8) (p : List UInt8) : wordSum (a :: b :: p) = 256 * a.toNat + b.toNat + wordSum p := by
  rw [wordSum, bigEndianWords, List.foldl_cons, foldl_add_start, Nat.zero_add]
  rfl

theorem wordSum_append : ∀ {front : List UInt8}, front.length % 2 = 0 → ∀ back, wordSum (front ++ back) = wordSum front + wordSum back
  | [], _, _ => by simp [wordSum, bigEndianWords]
  | [_], h, _ => by simp at h
  | a :: b :: front, h, back => by
    rw [List.cons_append, List.cons_append, wordSum_cons, wordSum_cons, wordSum_append (by rw [List.length_cons, List.length_cons] at h; omega), Nat.add_assoc _ (wordSum front)]

theorem wordSum_le (p : List UInt8) : wordSum p ≤ 65535 * p.length := by
  fun_induction bigEndianWords p with
  | case1 a b p ih =>
    have := a.toNat_lt
    have := b.toNat_lt
    rw [wordSum_cons, List.length_cons, List.length_cons]
    omega
  | case2 a =>
    have := a.toNat_lt
    simp [wordSum, bigEndianWords]
    omega
  | case3 => exact Nat.zero_le _

theorem toNat_sumWords (p : List UInt8) (sum : UInt32) (h : sum.toNat + 65535 * p.length < 2 ^ 32) :
    (sumWords p sum).toNat = sum.toNat + wordSum p := by
  fun_induction sumWords p sum with
  | case1 a b p sum ih =>
    have ha := a.toNat_lt
    have hb := b.toNat_lt
    rw [List.length_cons, List.length_cons] at h
    have hstep : (sum + (a.toUInt32 <<< 8 ||| b.toUInt32)).toNat = sum.toNat + (256 * a.toNat + b.toNat) := by
      rw [UInt32.toNat_add, toNat_word, Nat.mod_eq_of_lt (by omega)]
    rw [ih (by omega), hstep, wordSum_cons]
    omega
  | case2 a sum =>
    have ha := a.toNat_lt
    have hword : (a.toUInt32 <<< 8).toNat = 256 * a.toNat := by
      have := toNat_word a 0
      rwa [show (0 : UInt8).toUInt32 = 0 from rfl, UInt32.or_zero, UInt8.toNat_zero, Nat.add_zero] at this
    rw [List.length_singleton] at h
    rw [UInt32.toNat_add, hword, Nat.mod_eq_of_lt (by omega)]
    simp [wordSum, bigEndianWords]
  | case3 sum => rfl

theorem folds_foldCarry (sum : UInt32) : Folds 65535 sum.toNat (foldCarry sum).toNat := by
  fun_induction foldCarry sum with
  | case1 sum h ih =>
    have hwide := carry_lt h
    rw [toNat_carry] at ih
    refine ⟨ih.le, ih.modEq.trans ?_, ih.zero.trans (by omega)⟩
    exact (Nat.modEq_iff_dvd' (by omega)).2 ⟨sum.toNat / 65536, by omega⟩
  | case2 sum h =>
    have hshift : (sum >>> (16 : UInt32)).toNat = sum.toNat / 65536 := by
      rw [UInt32.toNat_shiftRight, Nat.shiftRight_eq_div_pow]
      rfl
    rw [not_not] at h
    rw [h, UInt32.toNat_zero] at hshift
    exact ⟨by omega, rfl, Iff.rfl⟩

/-- The checksum is the complement of the folded sum. -/
theorem toNat_checksum {p : List UInt8} (hlen : p.length ≤ 65535) (hpos : 0 < wordSum p) :
    (checksum p).toNat = 65534 - (wordSum p - 1) % 65535 := by
  have hsum := toNat_sumWords p 0 (by simp; omega)
  rw [UInt32.toNat_zero, Nat.zero_add] at hsum
  have hfold := folds_foldCarry (sumWords p 0)
  rw [hsum] at hfold
  have heq := hfold.eq hpos
  have hle := hfold.le
  rw [checksum, UInt32.toNat_toUInt16, UInt32.toNat_not]
  simp only [UInt32.size]
  omega

/-! ## Stored checksums -/

theorem toNat_bytes16 (v : UInt16) : (v.toUInt8).toNat = v.toNat % 256 ∧ ((v >>> 8).toUInt8).toNat = v.toNat / 256 := by
  have hv := v.toNat_lt
  have hshift : (v >>> 8).toNat = v.toNat / 256 := by
    rw [UInt16.toNat_shiftRight, Nat.shiftRight_eq_div_pow]
    rfl
  refine ⟨UInt16.toNat_toUInt8 v, ?_⟩
  rw [UInt16.toNat_toUInt8, hshift]
  omega

/-- A checksum that is stored as it is computed, little endian, is accepted only where the sum of
the other words is a multiple of 257. -/
theorem accepted_stored {front back : List UInt8} (heven : front.length % 2 = 0) (hlen : front.length + back.length ≤ 65533)
    (hpos : 0 < wordSum (front ++ [0, 0] ++ back)) :
    Accepted (front ++ bytes16 (checksum (front ++ [0, 0] ++ back)) ++ back) ↔ 257 ∣ wordSum (front ++ [0, 0] ++ back) := by
  have hsum := toNat_checksum (p := front ++ [0, 0] ++ back) (by simp; omega) hpos
  have hcleared : wordSum (front ++ [0, 0] ++ back) = wordSum front + wordSum back := by
    rw [List.append_assoc, wordSum_append heven, List.cons_append, List.cons_append, wordSum_cons, UInt8.toNat_zero, List.nil_append]
    omega
  generalize checksum (front ++ [0, 0] ++ back) = c at hsum
  obtain ⟨hlow, hhigh⟩ := toNat_bytes16 c
  have htotal : wordSum (front ++ bytes16 c ++ back) = wordSum (front ++ [0, 0] ++ back) + 256 * (c.toNat % 256) + c.toNat / 256 := by
    rw [hcleared, List.append_assoc, wordSum_append heven, bytes16, List.cons_append, List.cons_append, wordSum_cons, List.nil_append,
      hlow, hhigh]
    omega
  have hclt := c.toNat_lt
  rw [accepted_iff, htotal]
  -- the sum and its complement leave the difference of the two bytes, times 255
  omega

/-- A number that is swapped before it is stored has its higher byte first. -/
theorem bytes16_swap16 (x : UInt16) : bytes16 (swap16 x) = [(x >>> 8).toUInt8, x.toUInt8] := by
  have hx := x.toNat_lt
  obtain ⟨hlow, hhigh⟩ := toNat_bytes16 x
  obtain ⟨hlow', hhigh'⟩ := toNat_bytes16 (swap16 x)
  have hup : (x <<< 8).toNat = 2 ^ 8 * (x.toNat % 256) := by
    rw [UInt16.toNat_shiftLeft, Nat.shiftLeft_eq]
    change x.toNat * 2 ^ 8 % 2 ^ 16 = _
    omega
  have hdown : (x >>> 8).toNat = x.toNat / 256 := by
    rw [UInt16.toNat_shiftRight, Nat.shiftRight_eq_div_pow]
    rfl
  have hswap : (swap16 x).toNat = 256 * (x.toNat % 256) + x.toNat / 256 := by
    rw [swap16, UInt16.toNat_or, hup, hdown, ← Nat.two_pow_add_eq_or_of_lt (by omega)]
  simp only [bytes16, List.cons.injEq, and_true, ← UInt8.toNat_inj, hlow, hhigh, hlow', hhigh', hswap]
  omega

end Barnix.Net
