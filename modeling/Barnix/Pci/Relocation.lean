import Barnix.Lib.Bytes
import Barnix.Pci.Bars
/-!
# Moving a register

The search of `storage_pci_mmio_bar` is a walk between the recorded ranges, as long as no range ends so
high that rounding its end up wraps. Then the register is moved to a place of its own or nothing changes.
-/

namespace Barnix.Mmio

/-! ## A register of some size -/

/-- The low word of the address bits that a register of a size has. -/
def lowMask (size : UInt64) : UInt32 := (~~~(size - 1)).toUInt32

/-- A size that a register can have, up to 16 MiB. -/
def Sized (size : UInt64) : Prop := ∃ k, 4 ≤ k ∧ k ≤ 24 ∧ size.toNat = 1 <<< k

/-- A 64-bit register of memory: hard-wired are the address bits below its size, as zeros, and the four
bits of its kind. -/
structure Wide (mask : Space) (b : Bus) (pci low high : UInt32) (size : UInt64) : Prop where
  sized : Sized size
  kind : b.space pci low &&& 7 = 4
  wired : b.space pci low &&& ~~~mask pci low = b.space pci low &&& 15
  low_mask : mask pci low = lowMask size
  high_mask : mask pci high = 0xffffffff

/-- What the masks of a size are good for. -/
structure SizeFacts (size : UInt64) : Prop where
  ne_zero : size ≠ 0
  le_max : ¬16777216 < size
  single : size &&& (size - 1) = 0
  address : lowMask size &&& ~~~15 = lowMask size
  read_back : ~~~((lowMask size).toUInt64 ||| UInt32.toUInt64 0xffffffff <<< 32) + 1 = size
  base : roundUp size 0x90000000 = 0x90000000

theorem Sized.facts {size : UInt64} (h : Sized size) : SizeFacts size := by
  obtain ⟨k, hk4, hk24, hk⟩ := h
  have hsize : size = UInt64.ofNat (1 <<< k) := by rw [← hk, UInt64.ofNat_toNat]
  subst hsize
  clear hk
  interval_cases k <;> constructor <;> decide


theorem Sized.mask_toNat {size : UInt64} (h : Sized size) (x : UInt64) :
    (x &&& ~~~(size - 1)).toNat = x.toNat / size.toNat * size.toNat := by
  obtain ⟨k, hk4, hk24, hk⟩ := h
  have hpow : 1 <<< k = 2 ^ k := by rw [Nat.shiftLeft_eq, Nat.one_mul]
  have hmask : (~~~(size - 1)).toNat = 2 ^ k * (2 ^ (64 - k) - 1) := by
    have hsize : size = UInt64.ofNat (1 <<< k) := by rw [← hk, UInt64.ofNat_toNat]
    subst hsize
    clear hk hpow
    interval_cases k <;> decide
  rw [UInt64.toNat_and, hmask, hk, hpow]
  exact and_high_mask (by omega) x.toNat_lt

theorem Sized.bounds {size : UInt64} (h : Sized size) : 16 ≤ size.toNat ∧ size.toNat ≤ 16777216 ∧ 18446744073709551616 % size.toNat = 0 := by
  obtain ⟨k, hk4, hk24, hk⟩ := h
  rw [hk]
  clear hk
  interval_cases k <;> decide

/-- Rounding up to a multiple of the size. -/
def up (size n : Nat) : Nat := (n + size - 1) / size * size

theorem roundsUp {size : Nat} (h : 0 < size) : RoundsUp (up size) fun n => size ∣ n where
  aligned_up n := Nat.dvd_mul_left _ _
  le_up n := by
    have hmod := Nat.div_add_mod' (n + size - 1) size
    have hlt := Nat.mod_lt (n + size - 1) h
    unfold up
    omega
  up_le := by
    rintro n m ⟨c, rfl⟩ hn
    rw [up, Nat.mul_comm size c]
    apply Nat.mul_le_mul_right
    apply Nat.le_of_lt_succ
    rw [Nat.div_lt_iff_lt_mul h, Nat.succ_mul, Nat.mul_comm c]
    omega

theorem Sized.rounded {size : UInt64} (h : Sized size) (stop : UInt64) :
    (roundUp size stop).toNat = (stop.toNat + size.toNat - 1) % 18446744073709551616 / size.toNat * size.toNat := by
  have hsize := h.bounds.1
  have hsum : (stop + size - 1).toNat = (stop.toNat + size.toNat - 1) % 18446744073709551616 := by
    rw [UInt64.toNat_sub, UInt64.toNat_add]
    change (18446744073709551616 - 1 + (stop.toNat + size.toNat) % 18446744073709551616) % 18446744073709551616 = _
    omega
  rw [roundUp, h.mask_toNat, hsum]

theorem Sized.roundUp_toNat {size stop : UInt64} (h : Sized size) (hstop : up size.toNat stop.toNat < 18446744073709551616) :
    (roundUp size stop).toNat = up size.toNat stop.toNat := by
  obtain ⟨hsize, -, hword⟩ := h.bounds
  obtain ⟨d, hd⟩ := Nat.dvd_of_mod_eq_zero hword
  have hmod := Nat.div_add_mod' (stop.toNat + size.toNat - 1) size.toNat
  have hlt := Nat.mod_lt (stop.toNat + size.toNat - 1) (Nat.lt_of_lt_of_le (Nat.succ_pos 15) hsize)
  have hfits : stop.toNat + size.toNat - 1 < 18446744073709551616 := by
    unfold up at hstop
    generalize (stop.toNat + size.toNat - 1) / size.toNat = q at *
    have hq : q < d := by
      rw [hd, Nat.mul_comm size.toNat d] at hstop
      exact Nat.lt_of_mul_lt_mul_right hstop
    have hnext := Nat.mul_le_mul_right size.toNat hq
    rw [Nat.succ_mul, Nat.mul_comm d, ← hd] at hnext
    omega
  rw [h.rounded, Nat.mod_eq_of_lt hfits, up]

theorem Sized.roundUp_wraps {size stop : UInt64} (h : Sized size) (hstop : 18446744073709551616 ≤ up size.toNat stop.toNat) :
    roundUp size stop = 0 := by
  have hle := Nat.div_mul_le_self (stop.toNat + size.toNat - 1) size.toNat
  have hlt := stop.toNat_lt
  rw [← UInt64.toNat_inj, h.rounded]
  unfold up at hstop
  have hsmall : (stop.toNat + size.toNat - 1) % 18446744073709551616 < size.toNat := by omega
  rw [Nat.div_eq_of_lt hsmall, Nat.zero_mul]
  rfl

/-! ## The search -/

/-- A range as a block of addresses. -/
def Range.block (r : Range) : Block := ⟨r.first.toNat, r.stop.toNat⟩

/-- The walk of the search without a wrap. -/
def Walks (size : UInt64) (reserved : List Range) : Nat → WalkEnd → Prop :=
  Block.Walk (up size.toNat) 0xf0000000 18446744073709551616 size.toNat (reserved.map Range.block)

variable {size : UInt64} {reserved : List Range}

theorem scan_eq {candidate : UInt64} (hfits : candidate.toNat + size.toNat < 18446744073709551616) :
    scan size candidate reserved = (reserved.find? fun r => decide (r.block.Meets size.toNat candidate.toNat)).map fun r => roundUp size r.stop := by
  have hadd : (candidate + size).toNat = candidate.toNat + size.toNat := by
    rw [UInt64.toNat_add, Nat.mod_eq_of_lt hfits]
  induction reserved with
  | nil => rfl
  | cons r rest ih =>
    have hiff : (candidate < r.stop ∧ r.first < candidate + size) ↔ r.block.Meets size.toNat candidate.toNat := by
      rw [UInt64.lt_iff_toNat_lt, UInt64.lt_iff_toNat_lt, hadd]
      rfl
    rw [scan, List.find?_cons]
    by_cases hmet : r.block.Meets size.toNat candidate.toNat
    · rw [if_pos (hiff.2 hmet), decide_eq_true hmet]
      rfl
    · rw [if_neg (fun h => hmet (hiff.1 h)), decide_eq_false hmet]
      exact ih

theorem scan_none_iff {candidate : UInt64} (hfits : candidate.toNat + size.toNat < 18446744073709551616) :
    scan size candidate reserved = none ↔ Block.firstMet size.toNat candidate.toNat (reserved.map Range.block) = none := by
  rw [scan_eq hfits, Option.map_eq_none_iff, Block.firstMet, List.find?_map, Option.map_eq_none_iff]
  rfl

theorem scan_some {candidate : UInt64} (hfits : candidate.toNat + size.toNat < 18446744073709551616) {b : Block}
    (h : Block.firstMet size.toNat candidate.toNat (reserved.map Range.block) = some b) :
    ∃ stop : UInt64, stop.toNat = b.stop ∧ scan size candidate reserved = some (roundUp size stop) := by
  rw [Block.firstMet, List.find?_map, Option.map_eq_some_iff] at h
  obtain ⟨r, hr, rfl⟩ := h
  refine ⟨r.stop, rfl, ?_⟩
  rw [scan_eq hfits]
  exact congrArg (Option.map fun r : Range => roundUp size r.stop) hr

theorem searchLoop_succ {fuel : Nat} : ∀ {candidate : UInt64} {x : Option UInt64}, searchLoop reserved size fuel candidate = some x →
    searchLoop reserved size (fuel + 1) candidate = some x := by
  induction fuel with
  | zero => exact fun h => nomatch h
  | succ fuel ih =>
    intro candidate x h
    rw [searchLoop] at h ⊢
    split at h
    · rw [if_pos ‹_›]
      exact h
    · rw [if_neg ‹_›]
      cases hscan : scan size candidate reserved with
      | none => rwa [hscan] at h
      | some next =>
        rw [hscan] at h
        exact ih h

theorem searchLoop_mono {fuel more : Nat} (hle : fuel ≤ more) {candidate : UInt64} {x : Option UInt64}
    (h : searchLoop reserved size fuel candidate = some x) : searchLoop reserved size more candidate = some x := by
  induction hle with
  | refl => exact h
  | step _ ih => exact searchLoop_succ ih

theorem searchLoop_unique {f g : Nat} {candidate : UInt64} {x y : Option UInt64} (hf : searchLoop reserved size f candidate = some x)
    (hg : searchLoop reserved size g candidate = some y) : x = y := by
  have hx := searchLoop_mono (Nat.le_max_left f g) hf
  have hy := searchLoop_mono (Nat.le_max_right f g) hg
  exact Option.some.inj (hx.symm.trans hy)

/-- What the search does where the walk ends in this way. The sum that is compared with the limit may
wrap for the last place of all, and `moveBar` does not find that place in the register; a rounding that
wraps starts the search again from 0. -/
def Searches (size : UInt64) (reserved : List Range) (candidate : UInt64) : WalkEnd → Prop
  | .free p => ∃ fuel c, c.toNat = p ∧ searchLoop reserved size fuel candidate = some (some c)
  | .full => ∃ fuel, searchLoop reserved size fuel candidate = some none ∨
      ∃ c, c.toNat + size.toNat = 18446744073709551616 ∧ searchLoop reserved size fuel candidate = some (some c)
  | .past => ∃ passes, 0 < passes ∧ ∀ fuel, searchLoop reserved size (fuel + passes) candidate = searchLoop reserved size fuel 0

/-- One pass that meets a range. -/
theorem searchLoop_hop {candidate next : UInt64} (hroom : ¬0xf0000000 < candidate + size)
    (hscan : scan size candidate reserved = some next) (fuel : Nat) :
    searchLoop reserved size (fuel + 1) candidate = searchLoop reserved size fuel next := by
  rw [searchLoop, if_neg hroom, hscan]

theorem Searches.hop {candidate next : UInt64} (hroom : ¬0xf0000000 < candidate + size)
    (hscan : scan size candidate reserved = some next) {e : WalkEnd} (h : Searches size reserved next e) : Searches size reserved candidate e := by
  have hstep := searchLoop_hop hroom hscan
  cases e with
  | free p =>
    obtain ⟨fuel, c, hc, hfound⟩ := h
    exact ⟨fuel + 1, c, hc, (hstep fuel).trans hfound⟩
  | full =>
    obtain ⟨fuel, hfound⟩ := h
    refine ⟨fuel + 1, ?_⟩
    rwa [hstep fuel]
  | past =>
    obtain ⟨passes, _, hagain⟩ := h
    exact ⟨passes + 1, Nat.succ_pos passes, fun fuel => (hstep (fuel + passes)).trans (hagain fuel)⟩

theorem scan_wrapped {candidate : UInt64} (h : candidate + size = 0) (reserved : List Range) : scan size candidate reserved = none := by
  induction reserved with
  | nil => rfl
  | cons r rest ih =>
    have hno : ¬(candidate < r.stop ∧ r.first < candidate + size) := by
      rw [h]
      exact fun hand => Nat.not_lt_zero _ (UInt64.lt_iff_toNat_lt.1 hand.2)
    rw [scan, if_neg hno, ih]

theorem limit_toNat : UInt64.toNat 0xf0000000 = 0xf0000000 := rfl

/-- The comparison with the limit, where the sum does not wrap. -/
theorem over_iff {candidate : UInt64} (hfits : candidate.toNat + size.toNat < 18446744073709551616) :
    0xf0000000 < candidate + size ↔ 0xf0000000 < candidate.toNat + size.toNat := by
  rw [UInt64.lt_iff_toNat_lt, UInt64.toNat_add, Nat.mod_eq_of_lt hfits, limit_toNat]

theorem Sized.last {size : UInt64} (h : Sized size) {candidate : UInt64} (halign : size.toNat ∣ candidate.toNat)
    (hlast : 18446744073709551616 ≤ candidate.toNat + size.toNat) : candidate.toNat + size.toNat = 18446744073709551616 := by
  have hlt := candidate.toNat_lt
  obtain ⟨d, hd⟩ := Nat.dvd_of_mod_eq_zero h.bounds.2.2
  obtain ⟨q, hq⟩ := halign
  have hless : q < d := by
    change candidate.toNat < 18446744073709551616 at hlt
    rw [hq, hd] at hlt
    exact Nat.lt_of_mul_lt_mul_left hlt
  have hnext := Nat.mul_le_mul_left size.toNat hless
  rw [Nat.mul_succ, ← hd, ← hq] at hnext
  omega

theorem searches_of_walk (h : Sized size) {place : Nat} {e : WalkEnd} (hwalk : Walks size reserved place e) :
    ∀ candidate : UInt64, candidate.toNat = place → size.toNat ∣ place → Searches size reserved candidate e := by
  obtain ⟨hmin, hmax, hword⟩ := h.bounds
  have hpos : 0 < size.toNat := by omega
  induction hwalk with
  | @full place hlong =>
    rintro candidate rfl halign
    by_cases hfits : candidate.toNat + size.toNat < 18446744073709551616
    · refine ⟨1, .inl ?_⟩
      rw [searchLoop, if_pos ((over_iff hfits).2 hlong)]
    · -- the sum wraps to 0, which is below every limit and in front of every range
      have hend := h.last halign (Nat.le_of_not_lt hfits)
      have hzero : candidate + size = 0 := by
        rw [← UInt64.toNat_inj, UInt64.toNat_add, hend]
        rfl
      have hunder : ¬0xf0000000 < candidate + size := by
        rw [hzero]
        decide
      refine ⟨1, .inr ⟨candidate, hend, ?_⟩⟩
      rw [searchLoop, if_neg hunder, scan_wrapped hzero]
  | @free place hroom hmet =>
    rintro candidate rfl _
    have hfits : candidate.toNat + size.toNat < 18446744073709551616 := by omega
    have hunder : ¬0xf0000000 < candidate + size := fun hover => Nat.not_lt.2 hroom ((over_iff hfits).1 hover)
    refine ⟨1, candidate, rfl, ?_⟩
    rw [searchLoop, if_neg hunder, (scan_none_iff hfits).2 hmet]
  | @hop place b e hroom hmet htop _ ih =>
    rintro candidate rfl _
    have hfits : candidate.toNat + size.toNat < 18446744073709551616 := by omega
    have hunder : ¬0xf0000000 < candidate + size := fun hover => Nat.not_lt.2 hroom ((over_iff hfits).1 hover)
    obtain ⟨stop, hstop, hscan⟩ := scan_some hfits hmet
    rw [← hstop] at htop ih
    exact Searches.hop hunder hscan (ih (roundUp size stop) (h.roundUp_toNat htop) ((roundsUp hpos).aligned_up _))
  | @past place b hroom hmet htop =>
    rintro candidate rfl _
    have hfits : candidate.toNat + size.toNat < 18446744073709551616 := by omega
    have hunder : ¬0xf0000000 < candidate + size := fun hover => Nat.not_lt.2 hroom ((over_iff hfits).1 hover)
    obtain ⟨stop, hstop, hscan⟩ := scan_some hfits hmet
    rw [← hstop] at htop
    refine ⟨1, Nat.one_pos, fun fuel => ?_⟩
    rw [searchLoop_hop hunder hscan, h.roundUp_wraps htop]

/-- Two walks in a row that both end before a place without a name: the search goes round for ever. -/
theorem search_forever (h : Searches size reserved 0 .past) (fuel : Nat) : searchLoop reserved size fuel 0 = none := by
  obtain ⟨passes, hpos, hagain⟩ := h
  induction fuel using Nat.strongRecOn with
  | ind fuel ih =>
    rcases Nat.lt_or_ge fuel passes with hfew | hmany
    · -- the search has not come back to 0 yet, and it does not end when it does
      have hround : searchLoop reserved size passes 0 = none := by
        rw [← Nat.zero_add passes, hagain 0]
        rfl
      cases hx : searchLoop reserved size fuel 0 with
      | none => rfl
      | some x =>
        rw [searchLoop_mono (Nat.le_of_lt hfew) hx] at hround
        exact nomatch hround
    · rw [← Nat.sub_add_cancel hmany, hagain]
      exact ih _ (by omega)

/-! ## The move -/

theorem ones_bit {i : Nat} (hi : i < 32) : (UInt32.toBitVec 0xffffffff)[i] = true := BitVec.getElem_allOnes i hi

theorem store_ones {m old : UInt32} (hwired : old &&& ~~~m = old &&& 15) (hm : m &&& ~~~15 = m) :
    store m old 0xffffffff &&& ~~~15 = m := by
  apply UInt32.eq_of_toBitVec_eq
  ext i hi
  have hwired' := congrArg (fun x : UInt32 => x.toBitVec[i]) hwired
  have hm' := congrArg (fun x : UInt32 => x.toBitVec[i]) hm
  simp only [store, UInt32.toBitVec_or, UInt32.toBitVec_and, UInt32.toBitVec_not, BitVec.getElem_or, BitVec.getElem_and,
    BitVec.getElem_not, ones_bit hi] at hwired' hm' ⊢
  generalize old.toBitVec[i] = o at *
  generalize m.toBitVec[i] = k at *
  generalize (UInt32.toBitVec 15)[i] = f at *
  revert o k f
  decide

theorem store_all (old v : UInt32) : store 0xffffffff old v = v := by
  apply UInt32.eq_of_toBitVec_eq
  ext i hi
  simp only [store, UInt32.toBitVec_or, UInt32.toBitVec_and, UInt32.toBitVec_not, BitVec.getElem_or, BitVec.getElem_and,
    BitVec.getElem_not, ones_bit hi, Bool.not_true, Bool.and_false, Bool.false_or, Bool.and_true]

/-- An aligned place has no bits below its size. -/
theorem Sized.and_lowMask (h : Sized size) {candidate : UInt64} (halign : size.toNat ∣ candidate.toNat) :
    candidate.toUInt32 &&& lowMask size = candidate.toUInt32 := by
  have hmask : candidate &&& ~~~(size - 1) = candidate := by
    rw [← UInt64.toNat_inj, h.mask_toNat, Nat.div_mul_cancel halign]
  rw [lowMask, ← UInt64.toUInt32_and, hmask]

section Wide
variable {mask : Space} {b : Bus} {pci low high : UInt32} (h : Wide mask b pci low high size)
include h

theorem Wide.six : b.space pci low &&& 6 = 4 := by
  have hand : b.space pci low &&& 6 = (b.space pci low &&& 7) &&& 6 := by rw [UInt32.and_assoc]; rfl
  rw [hand, h.kind]
  rfl

/-- The guard for a register that is not there, or one of ports, lets it pass. -/
theorem Wide.memory : ¬(b.space pci low = 0 ∨ b.space pci low &&& 1 ≠ 0) := by
  have hand : b.space pci low &&& 1 = (b.space pci low &&& 7) &&& 1 := by rw [UInt32.and_assoc]; rfl
  rintro (hzero | hodd)
  · have hsix := h.six
    rw [hzero] at hsix
    exact absurd hsix (by decide)
  · rw [hand, h.kind] at hodd
    exact hodd rfl

theorem movedLow_eq {candidate : UInt64} (halign : size.toNat ∣ candidate.toNat) :
    movedLow mask pci low b candidate &&& ~~~15 = candidate.toUInt32 := by
  refine store_field h.wired ?_ ?_
  · rw [h.low_mask]
    exact h.sized.and_lowMask halign
  · rw [h.low_mask]
    exact h.sized.facts.address

theorem movedHigh_eq : movedHigh mask pci high b = 0 := by
  rw [movedHigh, h.high_mask, store_all]

theorem barSize_wide {bar : UInt32} (hw : Words bar low high) : barSize mask pci bar (b.space pci low) b = (size, b) := by
  have hlow : store (mask pci low) (b.space pci low) 0xffffffff &&& ~~~15 = lowMask size := by
    rw [store_ones h.wired (h.low_mask ▸ h.sized.facts.address), h.low_mask]
  rw [barSize_eq mask pci hw b h.six, hlow, h.high_mask, store_all, h.sized.facts.read_back]

end Wide

/-- The call goes on to the search. -/
def NeedsSearch (b : Bus) (pci high : UInt32) : Prop :=
  b.space pci high ≠ 0 ∧ b.ready = true ∧ pci >>> 16 = 0 ∧ b.reserved.length ≠ 256

section Call
variable {mask : Space} {b : Bus} {pci bar : UInt32} (h : Wide mask b pci (0x10 + bar * 4) (0x14 + bar * 4) size) (hbar : bar < 5)
include h hbar

theorem call_eq (fuel : Nat) : storagePciMmioBar mask fuel pci bar b =
    if b.space pci (0x14 + bar * 4) ≠ 0 then
      if b.ready = false ∨ pci >>> 16 ≠ 0 ∨ b.reserved.length = 256 then some (0, b)
      else afterSearch mask pci bar (b.space pci (0x10 + bar * 4)) size b (searchLoop b.reserved size fuel 0x90000000)
    else some (b.space pci (0x10 + bar * 4) &&& ~~~15, b) := by
  have hw := words hbar
  have hfacts := h.sized.facts
  have hfive : ¬5 < bar := by
    rw [UInt32.lt_iff_toNat_lt] at hbar ⊢
    omega
  have hlast : ¬bar = 5 := by
    rintro rfl
    exact absurd hbar (by decide)
  have hsize : ¬(size = 0 ∨ 16777216 < size ∨ size &&& (size - 1) ≠ 0) := by
    rintro (hzero | hlarge | hmore)
    · exact hfacts.ne_zero hzero
    · exact hfacts.le_max hlarge
    · exact hmore hfacts.single
  unfold storagePciMmioBar
  simp only [pciRead, hw.low_eq, hw.high_eq, if_neg hfive, if_neg h.memory, if_pos h.six, if_neg hlast, barSize_wide h hw,
    if_neg hsize, hfacts.base]

theorem call_kept (hno : ¬NeedsSearch b pci (0x14 + bar * 4)) (fuel : Nat) :
    ∃ r, storagePciMmioBar mask fuel pci bar b = some (r, b) := by
  rw [call_eq h hbar]
  by_cases hhigh : b.space pci (0x14 + bar * 4) ≠ 0
  · have hguard : b.ready = false ∨ pci >>> 16 ≠ 0 ∨ b.reserved.length = 256 := by
      by_contra hpass
      rw [not_or, not_or, not_not, Bool.not_eq_false] at hpass
      exact hno ⟨hhigh, hpass⟩
    rw [if_pos hhigh, if_pos hguard]
    exact ⟨0, rfl⟩
  · rw [if_neg hhigh]
    exact ⟨_, rfl⟩

theorem call_searches (hneeds : NeedsSearch b pci (0x14 + bar * 4)) (fuel : Nat) :
    storagePciMmioBar mask fuel pci bar b =
      afterSearch mask pci bar (b.space pci (0x10 + bar * 4)) size b (searchLoop b.reserved size fuel 0x90000000) := by
  obtain ⟨hhigh, hpass⟩ := hneeds
  have hguard : ¬(b.ready = false ∨ pci >>> 16 ≠ 0 ∨ b.reserved.length = 256) := by
    rw [not_or, not_or, not_not, Bool.not_eq_false]
    exact hpass
  rw [call_eq h hbar, if_pos hhigh, if_neg hguard]

end Call

/-! ## The claim of a place -/

/-- The register stands at a place of its own, which is recorded; nothing else was written. -/
structure Moved (b b' : Bus) (pci low high : UInt32) (size : UInt64) (place : UInt32) : Prop where
  low_reads : b'.space pci low &&& ~~~15 = place
  high_reads : b'.space pci high = 0
  others : ∀ p o, ¬(p = pci ∧ (o = low ∨ o = high)) → b'.space p o = b.space p o
  aligned : size.toNat ∣ place.toNat
  above : 0x90000000 ≤ place.toNat
  below : place.toNat + size.toNat ≤ 0xf0000000
  apart : ∀ r ∈ b.reserved, place.toNat + size.toNat ≤ r.first.toNat ∨ r.stop.toNat ≤ place.toNat
  recorded : b'.reserved = b.reserved ++ [⟨place.toUInt64, place.toUInt64 + size⟩]

/-- The call ends, and it moves the register or leaves everything as it was. -/
def Relocates (mask : Space) (b : Bus) (pci bar : UInt32) (size : UInt64) : Prop :=
  ∃ fuel place b', storagePciMmioBar mask fuel pci bar b = some (place, b') ∧
    (b' = b ∨ place ≠ 0 ∧ Moved b b' pci (0x10 + bar * 4) (0x14 + bar * 4) size place)

section Move
variable {mask : Space} {b : Bus} {pci bar : UInt32} (h : Wide mask b pci (0x10 + bar * 4) (0x14 + bar * 4) size) (hbar : bar < 5)
include h hbar

/-- The last place of all is not found in the register. -/
theorem move_refused {candidate : UInt64} (hlast : candidate.toNat + size.toNat = 18446744073709551616) :
    moveBar mask pci bar (b.space pci (0x10 + bar * 4)) size candidate b = (0, b) := by
  refine moveBar_refused mask pci (words hbar) b (.inl fun heq => ?_)
  have hmax := h.sized.bounds.2.1
  have hlt := (movedLow mask pci (0x10 + bar * 4) b candidate &&& ~~~15).toNat_lt
  rw [← UInt64.toNat_inj, UInt32.toNat_toUInt64] at heq
  omega

theorem move_taken {candidate : UInt64} (halign : size.toNat ∣ candidate.toNat) (hfits : candidate.toNat + size.toNat ≤ 0xf0000000)
    (hroom : b.reserved.length ≠ 256) : ∃ b', moveBar mask pci bar (b.space pci (0x10 + bar * 4)) size candidate b = (candidate.toUInt32, b') ∧
      b'.space pci (0x10 + bar * 4) &&& ~~~15 = candidate.toUInt32 ∧ b'.space pci (0x14 + bar * 4) = 0 ∧
      (∀ p o, ¬(p = pci ∧ (o = 0x10 + bar * 4 ∨ o = 0x14 + bar * 4)) → b'.space p o = b.space p o) ∧
      b'.reserved = b.reserved ++ [⟨candidate, candidate + size⟩] := by
  have hw := words hbar
  have hback : candidate.toUInt32.toUInt64 = candidate := by
    rw [← UInt64.toNat_inj, UInt32.toNat_toUInt64, UInt64.toNat_toUInt32, Nat.mod_eq_of_lt]
    exact Nat.lt_of_le_of_lt (Nat.le_trans (Nat.le_add_right _ _) hfits) (by decide)
  have hlow := movedLow_eq h halign
  have hsmall : candidate < 0x100000000 := by
    rw [UInt64.lt_iff_toNat_lt]
    exact Nat.lt_of_le_of_lt (Nat.le_trans (Nat.le_add_right _ _) hfits) (by decide)
  have hend : ¬candidate + size < candidate := by
    rw [UInt64.lt_iff_toNat_lt, UInt64.toNat_add, Nat.mod_eq_of_lt (by omega)]
    omega
  refine ⟨_, moveBar_moved mask pci hw b (by rw [hlow, hback]) (movedHigh_eq h) h.sized.facts.ne_zero hsmall hroom hend, ?_, ?_, ?_, rfl⟩
  · dsimp only
    rw [space_set_of_ne _ _ _ _ hw.apart.symm, space_set_self]
    exact hlow
  · exact space_set_self _ _ _ _
  · intro p o hother
    dsimp only [Bus.set]
    split_ifs with h1 h2
    · exact absurd ⟨h1.1, .inr h1.2⟩ hother
    · exact absurd ⟨h2.1, .inl h2.2⟩ hother
    · rfl

end Move

theorem Sized.exists_walk (h : Sized size) (reserved : List Range) (place : Nat) : ∃ e, Walks size reserved place e :=
  Block.exists_walk (roundsUp (Nat.lt_of_lt_of_le (Nat.succ_pos 15) h.bounds.1)) _ _ _ _ place

theorem Sized.ends (h : Sized size) {place : Nat} {e : WalkEnd} (hwalk : Walks size reserved place e) (halign : size.toNat ∣ place) :
    Block.Ends (size.toNat ∣ ·) 0xf0000000 size.toNat (reserved.map Range.block) place e :=
  Block.Walk.ends (roundsUp (Nat.lt_of_lt_of_le (Nat.succ_pos 15) h.bounds.1)) (by decide) hwalk halign

theorem Sized.base_aligned (h : Sized size) : size.toNat ∣ 0x90000000 := by
  have hmask := h.mask_toNat (0x90000000 + size - 1)
  have hbase : (0x90000000 + size - 1) &&& ~~~(size - 1) = 0x90000000 := h.facts.base
  rw [hbase] at hmask
  have hnat : UInt64.toNat 0x90000000 = 0x90000000 := rfl
  rw [hnat] at hmask
  rw [hmask]
  exact Nat.dvd_mul_left _ _

section Claim
variable {mask : Space} {b : Bus} {pci bar : UInt32} (h : Wide mask b pci (0x10 + bar * 4) (0x14 + bar * 4) size) (hbar : bar < 5)
include h hbar

/-- The search gives up, or comes to the last place of all. -/
theorem relocates_of_full (hneeds : NeedsSearch b pci (0x14 + bar * 4)) {fuel : Nat}
    (hend : searchLoop b.reserved size fuel 0x90000000 = some none ∨
      ∃ c, c.toNat + size.toNat = 18446744073709551616 ∧ searchLoop b.reserved size fuel 0x90000000 = some (some c)) :
    Relocates mask b pci bar size := by
  refine ⟨fuel, 0, b, ?_, .inl rfl⟩
  rw [call_searches h hbar hneeds]
  rcases hend with hnone | ⟨c, hlast, hfound⟩
  · rw [hnone]
    rfl
  · rw [hfound]
    exact congrArg some (move_refused h hbar hlast)

/-- The search finds room behind its start. -/
theorem relocates_of_free (hneeds : NeedsSearch b pci (0x14 + bar * 4)) {fuel : Nat} {c : UInt64}
    (hfound : searchLoop b.reserved size fuel 0x90000000 = some (some c))
    (hends : Block.Ends (size.toNat ∣ ·) 0xf0000000 size.toNat (b.reserved.map Range.block) 0x90000000 (.free c.toNat)) :
    Relocates mask b pci bar size := by
  obtain ⟨halign, habove, hfits⟩ := hends
  obtain ⟨b', hmove, hlow, hhigh, hothers, hrecorded⟩ := move_taken h hbar halign hfits.1 hneeds.2.2.2
  have hsmall : c.toNat < 4294967296 := Nat.lt_of_le_of_lt (Nat.le_trans (Nat.le_add_right _ _) hfits.1) (by decide)
  have hplace : c.toUInt32.toNat = c.toNat := by
    rw [UInt64.toNat_toUInt32]
    exact Nat.mod_eq_of_lt hsmall
  have hback : c.toUInt32.toUInt64 = c := by
    rw [← UInt64.toNat_inj, UInt32.toNat_toUInt64, hplace]
  refine ⟨fuel, c.toUInt32, b', ?_, .inr ⟨?_, hlow, hhigh, hothers, ?_, ?_, ?_, ?_, ?_⟩⟩
  · rw [call_searches h hbar hneeds, hfound]
    exact congrArg some hmove
  · intro hzero
    rw [← UInt32.toNat_inj, hplace] at hzero
    have hnat : UInt32.toNat 0 = 0 := rfl
    omega
  · rwa [hplace]
  · rwa [hplace]
  · rw [hplace]
    exact hfits.1
  · intro r hr
    rw [hplace]
    exact hfits.2 _ (List.mem_map_of_mem hr)
  · rw [hrecorded, hback]

/-- A wrap is harmless only if the search that starts again from 0 finds nothing. -/
theorem full_of_relocates (hneeds : NeedsSearch b pci (0x14 + bar * 4)) (hrel : Relocates mask b pci bar size)
    (hpast : Walks size b.reserved 0x90000000 .past) : Walks size b.reserved 0 .full := by
  obtain ⟨fuel, place, b', hcall, hout⟩ := hrel
  have hbase := h.sized.base_aligned
  obtain ⟨passes, -, hagain⟩ := searches_of_walk h.sized hpast 0x90000000 rfl hbase
  rw [call_searches h hbar hneeds] at hcall
  obtain ⟨x, hx⟩ : ∃ x, searchLoop b.reserved size fuel 0x90000000 = some x := by
    cases hs : searchLoop b.reserved size fuel 0x90000000 with
    | none =>
      rw [hs] at hcall
      exact nomatch hcall
    | some x => exact ⟨x, rfl⟩
  have hzero : searchLoop b.reserved size fuel 0 = some x := by
    rw [← hagain fuel]
    exact searchLoop_mono (Nat.le_add_right fuel passes) hx
  obtain ⟨e, hwalk⟩ := h.sized.exists_walk b.reserved 0
  have hsearch := searches_of_walk h.sized hwalk 0 rfl (Nat.dvd_zero _)
  cases e with
  | full => exact hwalk
  | past =>
    rw [search_forever hsearch fuel] at hzero
    exact nomatch hzero
  | free p =>
    exfalso
    obtain ⟨f, c, rfl, hfound⟩ := hsearch
    obtain ⟨halign, -, hfits⟩ := h.sized.ends hwalk (Nat.dvd_zero _)
    have hxc := searchLoop_unique hzero hfound
    obtain ⟨b'', hmove, -, -, -, hrecorded⟩ := move_taken h hbar halign hfits.1 hneeds.2.2.2
    rw [hx, hxc] at hcall
    have hpair : (c.toUInt32, b'') = (place, b') := hmove.symm.trans (Option.some.inj hcall)
    rw [Prod.mk.injEq] at hpair
    rcases hout with hsame | ⟨-, hmoved⟩
    · rw [hpair.2, hsame] at hrecorded
      have hlength := congrArg List.length hrecorded
      rw [List.length_append] at hlength
      exact absurd hlength (Nat.ne_of_lt (Nat.lt_succ_self _))
    · have habove := hmoved.above
      rw [← hpair.1, UInt64.toNat_toUInt32] at habove
      have hmod := Nat.mod_le c.toNat (2 ^ 32)
      exact h.sized.ends hpast hbase c.toNat halign (Nat.le_trans habove hmod) hfits

/-- The call keeps to its place exactly if no rounding wraps on its way from 0x90000000, or if the search
finds nothing from 0 either. -/
theorem relocates_iff : Relocates mask b pci bar size ↔ (NeedsSearch b pci (0x14 + bar * 4) →
    ¬Walks size b.reserved 0x90000000 .past ∨ Walks size b.reserved 0 .full) := by
  have hbase := h.sized.base_aligned
  constructor
  · intro hrel hneeds
    by_cases hpast : Walks size b.reserved 0x90000000 .past
    · exact .inr (full_of_relocates h hbar hneeds hrel hpast)
    · exact .inl hpast
  · intro hwhen
    by_cases hneeds : NeedsSearch b pci (0x14 + bar * 4)
    · obtain ⟨e, hwalk⟩ := h.sized.exists_walk b.reserved 0x90000000
      have hsearch := searches_of_walk h.sized hwalk 0x90000000 rfl hbase
      cases e with
      | free p =>
        obtain ⟨fuel, c, rfl, hfound⟩ := hsearch
        exact relocates_of_free h hbar hneeds hfound (h.sized.ends hwalk hbase)
      | full =>
        obtain ⟨fuel, hend⟩ := hsearch
        exact relocates_of_full h hbar hneeds hend
      | past =>
        obtain ⟨passes, -, hagain⟩ := hsearch
        have hfull := (hwhen hneeds).resolve_left (not_not.2 hwalk)
        obtain ⟨fuel, hend⟩ := searches_of_walk h.sized hfull 0 rfl (Nat.dvd_zero _)
        rw [← hagain fuel] at hend
        exact relocates_of_full h hbar hneeds hend
    · obtain ⟨place, hkept⟩ := call_kept h hbar hneeds 0
      exact ⟨0, place, b, hkept, .inl rfl⟩

end Claim

/-- A function whose first register has 64 KiB, above 4 GiB, on a machine whose memory map ends one byte
below 2^64. -/
def topBus : Bus :=
  reserveMmio 0x90000000 0xffffffff6fffffff (reserveMmio 0 0x90000000
    { space := fun p o => if p = 0x800 then (if o = 0x10 then 4 else if o = 0x14 then 1 else 0) else 0xffffffff
      reserved := [], ready := true })

def topMask : Space := fun p o => if p = 0x800 then (if o = 0x10 then 0xffff0000 else if o = 0x14 then 0xffffffff else 0) else 0

theorem wide_top : Wide topMask topBus 0x800 0x10 0x14 0x10000 where
  sized := ⟨16, by decide, by decide, rfl⟩
  kind := by decide
  wired := by decide
  low_mask := by decide
  high_mask := by decide

/-- The candidate goes from 0x90000000 to 0 and back. -/
theorem search_top (fuel : Nat) : searchLoop topBus.reserved 0x10000 fuel 0x90000000 = none := by
  have htable : topBus.reserved = [⟨0, 0x90000000⟩, ⟨0x90000000, 0xffffffffffffffff⟩] := by decide
  rw [htable]
  induction fuel using Nat.strongRecOn with
  | ind fuel ih =>
    match fuel with
    | 0 => rfl
    | 1 => rfl
    | fuel + 2 =>
      have hfirst : scan 0x10000 0x90000000 [⟨0, 0x90000000⟩, ⟨0x90000000, 0xffffffffffffffff⟩] = some 0 := by decide
      have hsecond : scan 0x10000 0 [⟨0, 0x90000000⟩, ⟨0x90000000, 0xffffffffffffffff⟩] = some 0x90000000 := by decide
      rw [searchLoop_hop (by decide) hfirst, searchLoop_hop (by decide) hsecond]
      exact ih fuel (by omega)

theorem top_not_relocated : ¬Relocates topMask topBus 0x800 0 0x10000 := by
  rintro ⟨fuel, place, b', hcall, -⟩
  have hsearch := call_searches wide_top (by decide : (0 : UInt32) < 5) ⟨by decide, by decide, by decide, by decide⟩ fuel
  rw [search_top fuel] at hsearch
  rw [hsearch] at hcall
  exact nomatch hcall

/-- The same function where the memory map ends at 4 GiB. -/
theorem relocates_iff_low : let b : Bus := { topBus with reserved := [⟨0, 0x90008000⟩, ⟨0xf0000000, 0x100000000⟩] }
    Relocates topMask b 0x800 0 0x10000 ↔ (NeedsSearch b 0x800 0x14 →
      ¬Walks 0x10000 b.reserved 0x90000000 .past ∨ Walks 0x10000 b.reserved 0 .full) :=
  relocates_iff ⟨⟨16, by decide, by decide, rfl⟩, by decide, by decide, by decide, by decide⟩ (by decide)

end Barnix.Mmio
