import Mathlib.Data.Nat.Bitwise
/-!
# Words put together of bytes

The number that a C expression of shifts and ors over bytes stands for, and that of an `int` as an
`unsigned int`.
-/

namespace Barnix

theorem toNat_word (a b : UInt8) : (a.toUInt32 <<< 8 ||| b.toUInt32).toNat = 256 * a.toNat + b.toNat := by
  have ha := a.toNat_lt
  have hb := b.toNat_lt
  have hshift : (a.toUInt32 <<< 8).toNat = 2 ^ 8 * a.toNat := by
    rw [UInt32.toNat_shiftLeft, Nat.shiftLeft_eq, UInt8.toNat_toUInt32]
    change a.toNat * 2 ^ 8 % 2 ^ 32 = _
    rw [Nat.mod_eq_of_lt (by omega), Nat.mul_comm]
  rw [UInt32.toNat_or, hshift, UInt8.toNat_toUInt32, ← Nat.two_pow_add_eq_or_of_lt hb]

theorem toNat_shifted (a : UInt8) (x : Nat) (n : UInt32) (hn : n.toNat ≤ 24) (hx : x < 2 ^ n.toNat) (y : UInt32) (hy : y.toNat = x) :
    (a.toUInt32 <<< n ||| y).toNat = 2 ^ n.toNat * a.toNat + x := by
  have ha := a.toNat_lt
  have hpow : 2 ^ n.toNat ≤ 2 ^ 24 := Nat.pow_le_pow_right (by decide) hn
  have hshift : (a.toUInt32 <<< n).toNat = 2 ^ n.toNat * a.toNat := by
    rw [UInt32.toNat_shiftLeft, Nat.shiftLeft_eq, UInt8.toNat_toUInt32, Nat.mod_eq_of_lt (show n.toNat < 32 by omega), Nat.mul_comm]
    refine Nat.mod_eq_of_lt (lt_of_lt_of_le (Nat.mul_lt_mul_of_le_of_lt hpow ha (by decide)) ?_)
    exact le_refl (2 ^ 32)
  rw [UInt32.toNat_or, hshift, hy, ← Nat.two_pow_add_eq_or_of_lt hx]

theorem toNat_fourBytes (a b c d : UInt8) : (a.toUInt32 <<< 24 ||| b.toUInt32 <<< 16 ||| c.toUInt32 <<< 8 ||| d.toUInt32).toNat =
    16777216 * a.toNat + 65536 * b.toNat + 256 * c.toNat + d.toNat := by
  have hb := b.toNat_lt
  have hc := c.toNat_lt
  have hd := d.toNat_lt
  have h8 := toNat_word c d
  have h16 := toNat_shifted b _ 16 (by decide) (show 256 * c.toNat + d.toNat < 2 ^ 16 by omega) _ h8
  have h24 := toNat_shifted a _ 24 (by decide) (show 65536 * b.toNat + (256 * c.toNat + d.toNat) < 2 ^ 24 by omega) _ h16
  rw [UInt32.or_assoc, UInt32.or_assoc, h24]
  change 2 ^ 24 * _ + _ = _
  omega

theorem toInt_eq_toNat (v : Int32) :
    v.toInt = if 2 * v.toUInt32.toNat < 2 ^ 32 then (v.toUInt32.toNat : Int) else (v.toUInt32.toNat : Int) - 2 ^ 32 :=
  BitVec.toInt_eq_toNat_cond v.toBitVec

end Barnix
