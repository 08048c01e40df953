import Barnix.Pci.Relocation
/-!
# What is recorded at boot

`storage_pci_boot_memory` records the framebuffer, the records of the memory map, and the registers and
bridge windows of all functions. It probes the size of every register and leaves none changed.
-/

namespace Barnix.Mmio

/-- What is read of `MultibootInfo`, and the memory that `mmap_addr` points to. -/
structure Info where
  flags : UInt32
  mmap_addr : UInt32
  mmap_length : UInt32
  mmap : Nat → UInt8
  framebuffer_low : UInt32
  framebuffer_high : UInt32
  framebuffer_pitch : UInt32
  framebuffer_height : UInt32

/-- `low | (uint64_t)high << 32` -/
def join (low high : UInt32) : UInt64 := low.toUInt64 ||| high.toUInt64 <<< 32

/-- The word at an offset of the memory map. -/
def Info.word (info : Info) (off : Nat) : UInt32 :=
  (info.mmap off).toUInt32 ||| (info.mmap (off + 1)).toUInt32 <<< 8 ||| (info.mmap (off + 2)).toUInt32 <<< 16 |||
    (info.mmap (off + 3)).toUInt32 <<< 24

/-- The records of the memory map; `false` where one does not fit. -/
def mapLoop (info : Info) (off : Nat) (b : Bus) : Bool × Bus :=
  if off < info.mmap_length.toNat then
    let size := (info.word off).toNat
    if info.mmap_length.toNat - off < 24 ∨ size < 20 ∨ info.mmap_length.toNat - off - 4 < size then (false, { b with ready := false })
    else mapLoop info (off + size + 4)
      (reserveMmio (join (info.word (off + 4)) (info.word (off + 8))) (join (info.word (off + 12)) (info.word (off + 16))) b)
  else (true, b)
termination_by info.mmap_length.toNat - off

section Hardware
variable (mask : Space)

/-- The registers of a function from the one numbered `bar` on; one of 64 bits takes two. -/
def barLoop (pci bars : UInt32) : Nat → UInt32 → Bus → Bus
  | 0, _, b => b
  | fuel + 1, bar, b =>
    if bars ≤ bar then b
    else
      let value := pciRead pci (0x10 + bar * 4) b
      let wide := value &&& 6 = 4
      if value = 0 ∨ value &&& 1 ≠ 0 ∨ (wide ∧ bar + 1 = bars) then barLoop pci bars fuel (bar + 1) b
      else
        let sized := barSize mask pci bar value b
        let high := if wide then pciRead pci (0x14 + 4 * bar) sized.2 else 0
        let address := join (value &&& ~~~15) high
        let b := if address ≠ 0 then reserveMmio address sized.1 sized.2 else sized.2
        barLoop pci bars fuel (if wide then bar + 2 else bar + 1) b

/-- The two windows of a bridge. -/
def windows (pci : UInt32) (b : Bus) : Bus :=
  let window := pciRead pci 0x20 b
  let start := ((window &&& 0xfff0) <<< 16).toUInt64
  let stop := (window &&& 0xfff00000).toUInt64 + 0x100000
  let b := if start < stop then reserveMmio start (stop - start) b else b
  let window := pciRead pci 0x24 b
  let start := ((window &&& 0xfff0) <<< 16).toUInt64
  let stop := (window &&& 0xfff00000).toUInt64 + 0x100000
  let wide := window &&& 15 = 1
  let start := if wide then start ||| (pciRead pci 0x28 b).toUInt64 <<< 32 else start
  let stop := if wide then stop + (pciRead pci 0x2c b).toUInt64 <<< 32 else stop
  if start < stop then reserveMmio start (stop - start) b else b

def scanFunction (pci : UInt32) (b : Bus) : Bus :=
  if pciRead pci 0 b &&& 65535 = 65535 then b
  else
    let header := (pciRead pci 12 b >>> 16) &&& 127
    let bars := if header = 0 then 6 else if header = 1 then 2 else 0
    let b := barLoop mask pci bars 6 0 b
    if header = 1 then windows pci b else b

def scanSlot (base : UInt32) (b : Bus) : Bus :=
  if pciRead base 0 b &&& 65535 = 65535 then b
  else
    let functions := if pciRead base 12 b &&& 0x800000 ≠ 0 then 8 else 1
    (List.range functions).foldl (fun b f => scanFunction mask (base ||| UInt32.ofNat f <<< 8) b) b

/-- `bus << 16 | slot << 11` -/
def slots : List UInt32 := (List.range 8192).map fun i => UInt32.ofNat (i / 32) <<< 16 ||| UInt32.ofNat (i % 32) <<< 11

/-- `storage_pci_boot_memory` -/
def storagePciBootMemory (info : Info) (b : Bus) : Bus :=
  if info.flags &&& 64 = 0 ∨ info.mmap_addr = 0 ∨ 65536 < info.mmap_length then b
  else
    let b := { b with ready := true }
    let b := if info.flags &&& 4096 ≠ 0 then
        reserveMmio (join info.framebuffer_low info.framebuffer_high)
          (info.framebuffer_pitch.toUInt64 * info.framebuffer_height.toUInt64) b
      else b
    let mapped := mapLoop info 0 b
    if mapped.1 then slots.foldl (fun b base => scanSlot mask base b) mapped.2 else mapped.2

end Hardware

/-! ## Only the table changes -/

/-- What reserving leads to. -/
inductive Records : Bus → Bus → Prop where
  | refl (b : Bus) : Records b b
  | reserve {b c : Bus} (first bytes : UInt64) : Records b c → Records b (reserveMmio first bytes c)
  | ready {b c : Bus} (ready : Bool) : Records b c → Records b { c with ready := ready }

/-- A table that `reserve_mmio` made. -/
structure Recorded (reserved : List Range) : Prop where
  length_le : reserved.length ≤ 256
  proper : ∀ r ∈ reserved, r.first < 0x100000000 ∧ r.first < r.stop

namespace Records

variable {b c d : Bus}

theorem trans (h : Records b c) (h' : Records c d) : Records b d := by
  induction h' with
  | refl => exact h
  | reserve first bytes _ ih => exact .reserve first bytes ih
  | ready r _ ih => exact .ready r ih

theorem space_eq (h : Records b c) : c.space = b.space := by
  induction h with
  | refl => rfl
  | reserve first bytes _ ih =>
    rw [← ih, reserveMmio]
    split_ifs <;> rfl
  | ready r _ ih => exact ih

theorem recorded (h : Records b c) (hb : Recorded b.reserved) : Recorded c.reserved := by
  induction h with
  | refl => exact hb
  | ready r _ ih => exact ih
  | @reserve c first bytes _ ih =>
    rw [reserveMmio]
    by_cases hnone : bytes = 0 ∨ 0x100000000 ≤ first
    · rwa [if_pos hnone]
    rw [if_neg hnone]
    by_cases hfull : c.reserved.length = 256 ∨ first + bytes < first
    · rwa [if_pos hfull]
    rw [if_neg hfull]
    rw [not_or] at hnone hfull
    refine ⟨?_, fun r hr => ?_⟩
    · have hle := ih.length_le
      rw [List.length_append, List.length_singleton]
      have hne := hfull.1
      omega
    · rcases List.mem_append.1 hr with hold | hnew
      · exact ih.proper r hold
      · rw [List.mem_singleton.1 hnew]
        refine ⟨UInt64.not_le.1 hnone.2, ?_⟩
        -- the sum is not smaller than `first`, and another number since `bytes` is not 0
        have hle := UInt64.le_iff_toNat_le.1 (UInt64.not_lt.1 hfull.2)
        have hbytes : bytes.toNat ≠ 0 := fun hz => hnone.1 (UInt64.toNat_inj.1 hz)
        have hlt := bytes.toNat_lt
        dsimp only
        rw [UInt64.lt_iff_toNat_lt]
        rw [UInt64.toNat_add] at hle ⊢
        omega

theorem ite {P : Prop} [Decidable P] (hc : Records b c) (hd : Records b d) : Records b (if P then c else d) := by
  split
  · exact hc
  · exact hd

/-- A list of functions, one behind the other. -/
theorem foldl {α : Type*} {f : Bus → α → Bus} (hf : ∀ b x, Records b (f b x)) (l : List α) (b : Bus) : Records b (l.foldl f b) := by
  induction l generalizing b with
  | nil => exact .refl b
  | cons x l ih => exact (hf b x).trans (ih (f b x))

end Records

theorem records_mapLoop (info : Info) (off : Nat) (b : Bus) : Records b (mapLoop info off b).2 := by
  fun_induction mapLoop info off b with
  | case1 => exact .ready false (.refl _)
  | case2 off b _ _ _ ih => exact Records.trans (.reserve _ _ (.refl b)) ih
  | case3 => exact .refl _

section Hardware
variable (mask : Space)

/-- The command word and one register, written and written back. -/
theorem restored_narrow (b : Bus) (pci : UInt32) {k l : UInt32} (x y : UInt32) :
    (((b.set pci k x).set pci l y).set pci l (b.space pci l)).set pci k (b.space pci k) = b := by
  rw [set_set]
  unfold Bus.set
  congr 1
  funext p o
  dsimp only
  split_ifs <;> simp_all

theorem barSize_narrow {pci bar low : UInt32} (hlow : (0x10 + bar * 4) &&& ~~~3 = low) (hne : low ≠ 4) (b : Bus)
    (hnarrow : ¬b.space pci low &&& 6 = 4) : (barSize mask pci bar (b.space pci low) b).2 = b := by
  simp only [barSize, pciRead, pciWrite, pciCommand, hlow, word_four, if_neg hnarrow, space_set_self,
    space_set_of_ne _ _ _ _ hne, space_set_of_ne _ _ _ _ hne.symm, store_store, store_self, store_half, restored_narrow]

/-- The probe of a register leaves the bus as it was. -/
theorem barSize_bus {pci bar bars : UInt32} (hbars : bars ≤ 6) (hbar : ¬bars ≤ bar) (b : Bus)
    (hlast : ¬(pciRead pci (0x10 + bar * 4) b &&& 6 = 4 ∧ bar + 1 = bars)) :
    (barSize mask pci bar (pciRead pci (0x10 + bar * 4) b) b).2 = b := by
  have hsix : bar = 5 ∨ bar < 5 := by
    rw [UInt32.le_iff_toNat_le] at hbars hbar
    rw [UInt32.lt_iff_toNat_lt, ← UInt32.toNat_inj]
    have h5 : UInt32.toNat 5 = 5 := rfl
    have h6 : UInt32.toNat 6 = 6 := rfl
    omega
  rcases hsix with rfl | hfive
  · have hbars6 : bars = 6 := by
      rw [UInt32.le_iff_toNat_le] at hbars hbar
      rw [← UInt32.toNat_inj]
      have h5 : UInt32.toNat 5 = 5 := rfl
      have h6 : UInt32.toNat 6 = 6 := rfl
      omega
    have hnarrow : ¬b.space pci 0x24 &&& 6 = 4 := fun hwide => hlast ⟨hwide, hbars6 ▸ rfl⟩
    exact @barSize_narrow mask pci 5 0x24 rfl (by decide) b hnarrow
  · have hw := words hfive
    rw [pciRead, hw.low_eq]
    by_cases hwide : b.space pci (0x10 + bar * 4) &&& 6 = 4
    · rw [barSize_eq mask pci hw b hwide]
    · exact barSize_narrow mask hw.low_eq hw.low_ne b hwide

theorem records_barLoop (pci : UInt32) {bars : UInt32} (hbars : bars ≤ 6) (fuel : Nat) :
    ∀ (bar : UInt32) (b : Bus), Records b (barLoop mask pci bars fuel bar b) := by
  induction fuel with
  | zero => exact fun _ b => .refl b
  | succ fuel ih =>
    intro bar b
    rw [barLoop]
    by_cases hend : bars ≤ bar
    · rw [if_pos hend]
      exact .refl b
    rw [if_neg hend]
    by_cases hskip : pciRead pci (0x10 + bar * 4) b = 0 ∨ pciRead pci (0x10 + bar * 4) b &&& 1 ≠ 0 ∨
        (pciRead pci (0x10 + bar * 4) b &&& 6 = 4 ∧ bar + 1 = bars)
    · rw [if_pos hskip]
      exact ih _ b
    · obtain ⟨size, hsized⟩ : ∃ size, barSize mask pci bar (pciRead pci (0x10 + bar * 4) b) b = (size, b) :=
        ⟨_, Prod.ext rfl (barSize_bus mask hbars hend b fun hlast => hskip (.inr (.inr hlast)))⟩
      rw [if_neg hskip, hsized]
      exact Records.trans (.ite (.reserve _ _ (.refl b)) (.refl b)) (ih _ _)

end Hardware

theorem records_windows (pci : UInt32) (b : Bus) : Records b (windows pci b) :=
  Records.trans (.ite (.reserve _ _ (.refl b)) (.refl b)) (.ite (.reserve _ _ (.refl _)) (.refl _))

section Hardware
variable (mask : Space)

theorem records_scanFunction (b : Bus) (pci : UInt32) : Records b (scanFunction mask pci b) := by
  have hbars : ∀ header : UInt32, (if header = 0 then (6 : UInt32) else if header = 1 then 2 else 0) ≤ 6 := by
    intro header
    split_ifs <;> decide
  have hloop := records_barLoop mask pci (hbars ((pciRead pci 12 b >>> 16) &&& 127)) 6 0 b
  exact .ite (.refl b) (.ite (hloop.trans (records_windows pci _)) hloop)

theorem records_scanSlot (b : Bus) (base : UInt32) : Records b (scanSlot mask base b) :=
  .ite (.refl b) (Records.foldl (fun b _ => records_scanFunction mask b _) _ b)

theorem records_bootMemory (info : Info) (b : Bus) : Records b (storagePciBootMemory mask info b) := by
  have hready : Records b { b with ready := true } := .ready true (.refl b)
  have hframe : Records b (if info.flags &&& 4096 ≠ 0 then reserveMmio (join info.framebuffer_low info.framebuffer_high)
      (info.framebuffer_pitch.toUInt64 * info.framebuffer_height.toUInt64) { b with ready := true }
    else { b with ready := true }) := .ite (.reserve _ _ hready) hready
  have hmap := hframe.trans (records_mapLoop info 0 _)
  exact .ite (.refl b) (.ite (hmap.trans (Records.foldl (fun b base => records_scanSlot mask b base) slots _)) hmap)

/-- Booting leaves every register as it was, and a table of at most 256 proper ranges. -/
theorem bootMemory_spec (info : Info) (space : Space) :
    let b := storagePciBootMemory mask info ⟨space, [], false⟩
    b.space = space ∧ Recorded b.reserved :=
  have h := records_bootMemory mask info ⟨space, [], false⟩
  ⟨h.space_eq, h.recorded ⟨Nat.zero_le 256, fun _ hr => nomatch hr⟩⟩

end Hardware

end Barnix.Mmio
