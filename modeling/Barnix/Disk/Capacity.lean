import Barnix.Lib.Arrays
import Barnix.Lib.Decimal
import Mathlib.Data.Nat.Bitwise
/-!
# Capacities in decimal

`disk_u64toa` of `disk.h`, which divides by ten one bit after the other: a processor of 32 bits has no
division of 64.
-/

namespace Barnix.Disk

/-- The rounds of the inner loop for the bits below `bit`. -/
def divideLoop (value : UInt64) : Nat → UInt64 → UInt32 → UInt64 × UInt32
  | 0, quotient, remainder => (quotient, remainder)
  | bit + 1, quotient, remainder =>
    let remainder := ((remainder * 2).toUInt64 + (value >>> UInt64.ofNat bit &&& 1)).toUInt32
    if remainder ≥ 10 then divideLoop value bit (quotient ||| 1 <<< UInt64.ofNat bit) (remainder - 10)
    else divideLoop value bit quotient remainder

/-- The quotient and the remainder by ten. -/
def divide (value : UInt64) : UInt64 × UInt32 := divideLoop value 64 0 0

/-- The digits that go to `reverse`, which has `room` left. -/
def digitLoop : Nat → UInt64 → Checked (List UInt8)
  | 0, _ => .error .overrun
  | room + 1, value =>
    let (quotient, remainder) := divide value
    let digit := (48 + remainder).toUInt8
    if quotient = 0 then .ok [digit]
    else do
      let more ← digitLoop room quotient
      .ok (digit :: more)

/-- `disk_u64toa` -/
def u64toa (value : UInt64) (out : Cells) : Checked Cells := do
  let reverse ← digitLoop 20 value
  out.strcpy 0 reverse.reverse

/-! ## Division -/

/-- What the rounds for the higher bits have divided: these bits of the value. -/
structure Divided (value : UInt64) (bit : Nat) (quotient : UInt64) (remainder : UInt32) : Prop where
  shifted : ∃ q, quotient.toNat = 2 ^ bit * q ∧ value.toNat / 2 ^ bit = 10 * q + remainder.toNat
  small : remainder.toNat < 10

/-- The next bit of the value is the last one of the remainder. -/
theorem toNat_brought {value : UInt64} {bit : Nat} (hbit : bit < 64) {remainder : UInt32} (h : remainder.toNat < 10) :
    ((remainder * 2).toUInt64 + (value >>> UInt64.ofNat bit &&& 1)).toUInt32.toNat =
      2 * remainder.toNat + value.toNat / 2 ^ bit % 2 := by
  have hshift : (value >>> UInt64.ofNat bit).toNat = value.toNat / 2 ^ bit := by
    rw [UInt64.toNat_shiftRight, UInt64.toNat_ofNat', Nat.shiftRight_eq_div_pow]
    congr 2
    omega
  have hlow : (value >>> UInt64.ofNat bit &&& 1).toNat = value.toNat / 2 ^ bit % 2 := by
    rw [UInt64.toNat_and, hshift]
    exact Nat.and_one_is_mod _
  have htwice : (remainder * 2).toNat = 2 * remainder.toNat := by
    rw [UInt32.toNat_mul]
    change remainder.toNat * 2 % 2 ^ 32 = _
    omega
  rw [UInt64.toNat_toUInt32, UInt64.toNat_add, UInt32.toNat_toUInt64, hlow, htwice]
  omega

theorem toNat_or_bit {quotient : UInt64} {bit q : Nat} (hbit : bit < 64) (h : quotient.toNat = 2 ^ (bit + 1) * q) :
    (quotient ||| 1 <<< UInt64.ofNat bit).toNat = 2 ^ bit * (2 * q + 1) := by
  have hone : ((1 : UInt64) <<< UInt64.ofNat bit).toNat = 2 ^ bit := by
    have hpow : 2 ^ bit < 2 ^ 64 := Nat.pow_lt_pow_right (by decide) hbit
    rw [UInt64.toNat_shiftLeft, UInt64.toNat_ofNat', Nat.mod_mod_of_dvd _ (by decide), Nat.mod_eq_of_lt hbit, Nat.shiftLeft_eq]
    change 1 * 2 ^ bit % 2 ^ 64 = _
    rw [Nat.one_mul, Nat.mod_eq_of_lt hpow]
  rw [UInt64.toNat_or, h, hone, ← Nat.two_pow_add_eq_or_of_lt (Nat.pow_lt_pow_right (by decide) (Nat.lt_succ_self bit)), Nat.pow_succ]
  ring

theorem divideLoop_spec {value : UInt64} (bit : Nat) : ∀ {quotient remainder}, bit ≤ 64 → Divided value bit quotient remainder →
    (divideLoop value bit quotient remainder).1.toNat = value.toNat / 10 ∧
      (divideLoop value bit quotient remainder).2.toNat = value.toNat % 10 := by
  induction bit with
  | zero =>
    rintro quotient remainder - ⟨⟨q, hquotient, hvalue⟩, hsmall⟩
    rw [Nat.pow_zero, Nat.one_mul] at hquotient
    rw [Nat.pow_zero, Nat.div_one] at hvalue
    unfold divideLoop
    dsimp only
    omega
  | succ bit ih =>
    rintro quotient remainder hbit ⟨⟨q, hquotient, hvalue⟩, hsmall⟩
    have hbrought := @toNat_brought value bit (by omega) remainder hsmall
    have hhalf : value.toNat / 2 ^ (bit + 1) = value.toNat / 2 ^ bit / 2 := by rw [Nat.pow_succ, Nat.div_div_eq_div_mul]
    unfold divideLoop
    generalize ((remainder * 2).toUInt64 + (value >>> UInt64.ofNat bit &&& 1)).toUInt32 = brought at hbrought
    dsimp only
    by_cases hten : brought ≥ 10
    · have hten' := UInt32.le_iff_toNat_le.1 hten
      have hless : (brought - 10).toNat = brought.toNat - 10 := UInt32.toNat_sub_of_le _ _ hten
      simp only [UInt32.reduceToNat] at hten'
      rw [if_pos hten]
      apply ih (by omega)
      refine ⟨⟨2 * q + 1, toNat_or_bit (by omega) hquotient, ?_⟩, by omega⟩
      omega
    · have hten' := UInt32.lt_iff_toNat_lt.1 (UInt32.not_le.1 hten)
      simp only [UInt32.reduceToNat] at hten'
      rw [if_neg hten]
      apply ih (by omega)
      refine ⟨⟨2 * q, ?_, by omega⟩, hten'⟩
      rw [hquotient, Nat.pow_succ]
      ring

theorem divide_spec (value : UInt64) : (divide value).1.toNat = value.toNat / 10 ∧ (divide value).2.toNat = value.toNat % 10 := by
  apply divideLoop_spec 64 (Nat.le_refl 64)
  refine ⟨⟨0, rfl, ?_⟩, by decide⟩
  exact Nat.div_eq_of_lt value.toNat_lt

/-! ## Digits -/

theorem digitLoop_eq (room : Nat) : ∀ {value : UInt64}, value.toNat < 10 ^ room → 0 < room →
    digitLoop room value = .ok (decimalOf value.toNat).reverse := by
  induction room with
  | zero => exact fun _ h => absurd h (Nat.lt_irrefl 0)
  | succ room ih =>
    intro value hvalue _
    obtain ⟨hquotient, hremainder⟩ := divide_spec value
    have hdigit : (48 + (divide value).2).toUInt8 = .ofNat (48 + value.toNat % 10) := by
      apply UInt8.toNat_inj.1
      rw [toNat_digit (Nat.mod_lt _ (by decide)), UInt32.toNat_toUInt8, UInt32.toNat_add, hremainder]
      change (48 + value.toNat % 10) % 2 ^ 32 % 2 ^ 8 = _
      omega
    unfold digitLoop
    dsimp only
    rw [hdigit]
    by_cases hlast : (divide value).1 = 0
    · rw [hlast] at hquotient
      change 0 = _ at hquotient
      rw [if_pos hlast, decimalOf_small (by omega), Nat.mod_eq_of_lt (by omega)]
      rfl
    · have hmore : value.toNat / 10 ≠ 0 := by
        rw [← hquotient]
        exact fun hzero => hlast (UInt64.toNat_inj.1 hzero)
      have hroom : 0 < room := by
        rcases Nat.eq_zero_or_pos room with rfl | h
        · rw [Nat.pow_one] at hvalue
          omega
        · exact h
      have hrest : (divide value).1.toNat < 10 ^ room := by
        rw [hquotient]
        exact Nat.div_lt_of_lt_mul (by rwa [Nat.pow_succ, Nat.mul_comm] at hvalue)
      rw [if_neg hlast, ih hrest hroom, ok_bind, hquotient, decimalOf_append hmore, List.reverse_append]
      rfl

/-- Every value is written as its shortest numeral, in at most twenty digits, whose quotients and
remainders are exact. -/
theorem u64toa_shortest (value : UInt64) : Shortest value.toNat (decimalOf value.toNat) ∧ (decimalOf value.toNat).length ≤ 20 ∧
    (∀ out : Cells, (decimalOf value.toNat).length < out.length →
      u64toa value out = .ok (decimalOf value.toNat ++ 0 :: out.drop ((decimalOf value.toNat).length + 1))) ∧
    ∀ v : UInt64, (divide v).1.toNat = v.toNat / 10 ∧ (divide v).2.toNat = v.toNat % 10 := by
  have hvalue : value.toNat < 10 ^ 20 := lt_trans value.toNat_lt (by decide)
  refine ⟨shortest_decimalOf _, length_decimalOf hvalue (by decide), fun out hout => ?_, divide_spec⟩
  unfold u64toa
  rw [digitLoop_eq 20 hvalue (by decide), ok_bind, List.reverse_reverse]
  exact Cells.strcpy_start hout

end Barnix.Disk
