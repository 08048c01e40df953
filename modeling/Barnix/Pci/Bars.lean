import Barnix.Lib.Restarts
/-!
# Base address registers

`storage_pci_mmio_bar` of `storage_pci.c` moves a register above 4 GiB to a range below, beside the
ranges that `reserve_mmio` recorded of the firmware's memory map, the framebuffer and the other devices.
The hardware stores of a word what it does not hard-wire.
-/

namespace Barnix.Mmio

/-- The configuration space: of a function, named as in the address port, the word at an offset. -/
abbrev Space := UInt32 → UInt32 → UInt32

/-- One record of `pci_reserved`. -/
structure Range where
  first : UInt64
  stop : UInt64
  deriving DecidableEq

/-- The configuration space, `pci_reserved` and `pci_allocator_ready`. -/
structure Bus where
  space : Space
  reserved : List Range
  ready : Bool

/-- What a word becomes by a write when only the bits of `mask` are not hard-wired. -/
def store (mask old value : UInt32) : UInt32 := old &&& ~~~mask ||| value &&& mask

def Bus.set (b : Bus) (pci off value : UInt32) : Bus :=
  { b with space := fun p o => if p = pci ∧ o = off then value else b.space p o }

/-- `pci_read` -/
def pciRead (pci off : UInt32) (b : Bus) : UInt32 := b.space pci (off &&& ~~~3)

section Hardware
variable (mask : Space)

/-- `pci_write` -/
def pciWrite (pci off value : UInt32) (b : Bus) : Bus :=
  b.set pci (off &&& ~~~3) (store (mask pci (off &&& ~~~3)) (b.space pci (off &&& ~~~3)) value)

/-- `pci_command` writes the lower half of a word. -/
def pciCommand (pci value : UInt32) (b : Bus) : Bus :=
  b.set pci 4 (store (mask pci 4 &&& 0xffff) (b.space pci 4) value)

/-- `reserve_mmio` -/
def reserveMmio (first bytes : UInt64) (b : Bus) : Bus :=
  if bytes = 0 ∨ 0x100000000 ≤ first then b
  else if b.reserved.length = 256 ∨ first + bytes < first then { b with ready := false }
  else { b with reserved := b.reserved ++ [⟨first, first + bytes⟩] }

/-- `bar_size` -/
def barSize (pci bar value : UInt32) (b : Bus) : UInt64 × Bus :=
  let offset := 0x10 + bar * 4
  let wide := value &&& 6 = 4
  let command := pciRead pci 4 b &&& 0xffff
  let high := if wide then pciRead pci (offset + 4) b else 0
  let b := pciCommand mask pci (command &&& ~~~7) b
  let b := pciWrite mask pci offset 0xffffffff b
  let b := if wide then pciWrite mask pci (offset + 4) 0xffffffff b else b
  let low := (pciRead pci offset b &&& ~~~15).toUInt64
  let ones := if wide then low ||| (pciRead pci (offset + 4) b).toUInt64 <<< 32 else low ||| 0xffffffff00000000
  let b := pciWrite mask pci offset value b
  let b := if wide then pciWrite mask pci (offset + 4) high b else b
  let b := pciCommand mask pci command b
  (~~~ones + 1, b)

/-- `(place + size - 1) & ~(size - 1)` -/
def roundUp (size place : UInt64) : UInt64 := (place + size - 1) &&& ~~~(size - 1)

/-- One pass over `pci_reserved`: the next candidate, where a range is in the way. -/
def scan (size candidate : UInt64) : List Range → Option UInt64
  | [] => none
  | r :: rest => if candidate < r.stop ∧ r.first < candidate + size then some (roundUp size r.stop) else scan size candidate rest

/-- `for (;;)`: no range, or the candidate; `none` when `fuel` passes are not enough. -/
def searchLoop (reserved : List Range) (size : UInt64) : Nat → UInt64 → Option (Option UInt64)
  | 0, _ => none
  | fuel + 1, candidate =>
    if 0xf0000000 < candidate + size then some none
    else match scan size candidate reserved with
      | some next => searchLoop reserved size fuel next
      | none => some (some candidate)

/-- The candidate is written to the register, and read back. -/
def moveBar (pci bar value : UInt32) (size candidate : UInt64) (b : Bus) : UInt32 × Bus :=
  let command := pciRead pci 4 b &&& 0xffff
  let old_high := pciRead pci (0x14 + bar * 4) b
  let b := pciCommand mask pci (command &&& ~~~7) b
  let b := pciWrite mask pci (0x10 + bar * 4) (candidate.toUInt32 ||| value &&& 15) b
  let b := pciWrite mask pci (0x14 + bar * 4) 0 b
  if (pciRead pci (0x10 + bar * 4) b &&& ~~~15).toUInt64 ≠ candidate ∨ pciRead pci (0x14 + bar * 4) b ≠ 0 then
    let b := pciWrite mask pci (0x10 + bar * 4) value b
    let b := pciWrite mask pci (0x14 + bar * 4) old_high b
    (0, pciCommand mask pci command b)
  else (candidate.toUInt32, pciCommand mask pci command (reserveMmio candidate size b))

/-- What follows the search, with no result while it has not ended. -/
def afterSearch (pci bar value : UInt32) (size : UInt64) (b : Bus) : Option (Option UInt64) → Option (UInt32 × Bus)
  | none => none
  | some none => some (0, b)
  | some (some candidate) => some (moveBar mask pci bar value size candidate b)

/-- `storage_pci_mmio_bar`, when the search ends within `fuel` passes. -/
def storagePciMmioBar (fuel : Nat) (pci bar : UInt32) (b : Bus) : Option (UInt32 × Bus) :=
  if 5 < bar then some (0, b)
  else
    let value := pciRead pci (0x10 + bar * 4) b
    if value = 0 ∨ value &&& 1 ≠ 0 then some (0, b)
    else if value &&& 6 = 4 then
      if bar = 5 then some (0, b)
      else if pciRead pci (0x14 + bar * 4) b ≠ 0 then
        if b.ready = false ∨ pci >>> 16 ≠ 0 ∨ b.reserved.length = 256 then some (0, b)
        else
          let sized := barSize mask pci bar value b
          let size := sized.1
          if size = 0 ∨ 16777216 < size ∨ size &&& (size - 1) ≠ 0 then some (0, sized.2)
          else afterSearch mask pci bar value size sized.2 (searchLoop sized.2.reserved size fuel (roundUp size 0x90000000))
      else some (value &&& ~~~15, b)
    else some (value &&& ~~~15, b)

end Hardware

/-! ## Stores -/

theorem store_store (m old v w : UInt32) : store m (store m old v) w = store m old w := by
  apply UInt32.eq_of_toBitVec_eq
  ext i
  simp only [store, UInt32.toBitVec_or, UInt32.toBitVec_and, UInt32.toBitVec_not, BitVec.getElem_or, BitVec.getElem_and, BitVec.getElem_not]
  cases m.toBitVec[i] <;> simp

theorem store_self (m old : UInt32) : store m old old = old := by
  apply UInt32.eq_of_toBitVec_eq
  ext i
  simp only [store, UInt32.toBitVec_or, UInt32.toBitVec_and, UInt32.toBitVec_not, BitVec.getElem_or, BitVec.getElem_and, BitVec.getElem_not]
  cases m.toBitVec[i] <;> simp

theorem store_half (m old : UInt32) : store (m &&& 0xffff) old (old &&& 0xffff) = old := by
  apply UInt32.eq_of_toBitVec_eq
  ext i
  simp only [store, UInt32.toBitVec_or, UInt32.toBitVec_and, UInt32.toBitVec_not, BitVec.getElem_or, BitVec.getElem_and, BitVec.getElem_not]
  cases m.toBitVec[i] <;> cases old.toBitVec[i] <;> cases (UInt32.toBitVec 65535)[i] <;> rfl

/-- A value is read back between the hard-wired bits, when it has only others and four bits that both have. -/
theorem store_field {m old : UInt32} {v : UInt32} (hwired : old &&& ~~~m = old &&& 15) (hv : v &&& m = v) (hm : m &&& ~~~15 = m) :
    store m old (v ||| old &&& 15) &&& ~~~15 = v := by
  apply UInt32.eq_of_toBitVec_eq
  ext i hi
  have hwired' := congrArg (fun x : UInt32 => x.toBitVec[i]) hwired
  have hv' := congrArg (fun x : UInt32 => x.toBitVec[i]) hv
  have hm' := congrArg (fun x : UInt32 => x.toBitVec[i]) hm
  simp only [store, UInt32.toBitVec_or, UInt32.toBitVec_and, UInt32.toBitVec_not, BitVec.getElem_or, BitVec.getElem_and,
    BitVec.getElem_not] at hwired' hv' hm' ⊢
  generalize old.toBitVec[i] = o at *
  generalize m.toBitVec[i] = k at *
  generalize v.toBitVec[i] = x at *
  generalize (UInt32.toBitVec 15)[i] = f at *
  revert o k x f
  decide

/-! ## Registers -/

section Set
variable (b : Bus) (pci off v w : UInt32)

@[simp] theorem reserved_set : (b.set pci off v).reserved = b.reserved := rfl
@[simp] theorem ready_set : (b.set pci off v).ready = b.ready := rfl

@[simp] theorem space_set_self : (b.set pci off v).space pci off = v := if_pos ⟨rfl, rfl⟩

theorem space_set_of_ne {off' : UInt32} (h : off' ≠ off) : (b.set pci off v).space pci off' = b.space pci off' :=
  if_neg fun hand => h hand.2

@[simp] theorem set_set : (b.set pci off v).set pci off w = b.set pci off w := by
  unfold Bus.set
  congr 1
  funext p o
  dsimp only
  split <;> rfl

@[simp] theorem set_self : b.set pci off (b.space pci off) = b := by
  unfold Bus.set
  congr 1
  funext p o
  split
  · rename_i h
    rw [h.1, h.2]
  · rfl

theorem set_comm {off' : UInt32} (h : off' ≠ off) : (b.set pci off v).set pci off' w = (b.set pci off' w).set pci off v := by
  unfold Bus.set
  congr 1
  funext p o
  dsimp only
  by_cases h1 : p = pci ∧ o = off' <;> by_cases h2 : p = pci ∧ o = off
  · exact absurd (h1.2.symm.trans h2.2) h
  all_goals simp [h1, h2, h, h.symm]

end Set

/-- The words of a register and that of the command register. -/
structure Words (bar low high : UInt32) : Prop where
  low_eq : (0x10 + bar * 4) &&& ~~~3 = low
  high_eq : (0x14 + bar * 4) &&& ~~~3 = high
  next : 0x10 + bar * 4 + 4 = 0x14 + bar * 4
  low_ne : low ≠ 4
  high_ne : high ≠ 4
  apart : high ≠ low

theorem words {bar : UInt32} (h : bar < 5) : Words bar (0x10 + bar * 4) (0x14 + bar * 4) := by
  have hcases : bar = 0 ∨ bar = 1 ∨ bar = 2 ∨ bar = 3 ∨ bar = 4 := by
    simp only [UInt32.lt_iff_toNat_lt, ← UInt32.toNat_inj] at h ⊢
    have h5 : UInt32.toNat 5 = 5 := rfl
    have h0 : UInt32.toNat 0 = 0 := rfl
    have h1 : UInt32.toNat 1 = 1 := rfl
    have h2 : UInt32.toNat 2 = 2 := rfl
    have h3 : UInt32.toNat 3 = 3 := rfl
    have h4 : UInt32.toNat 4 = 4 := rfl
    omega
  rcases hcases with rfl | rfl | rfl | rfl | rfl <;> constructor <;> decide

/-- Three words that are written twice, the last time with what stood there. -/
theorem restored (b : Bus) (pci : UInt32) {k l m : UInt32} (x y z : UInt32) :
    ((((((b.set pci k x).set pci l y).set pci m z).set pci l (b.space pci l)).set pci m (b.space pci m)).set pci k (b.space pci k)) = b := by
  unfold Bus.set
  congr 1
  funext p o
  dsimp only
  split_ifs <;> simp_all

/-- The two words of the register behind `moveBar`. -/
def movedLow (mask : Space) (pci low : UInt32) (b : Bus) (candidate : UInt64) : UInt32 :=
  store (mask pci low) (b.space pci low) (candidate.toUInt32 ||| b.space pci low &&& 15)
def movedHigh (mask : Space) (pci high : UInt32) (b : Bus) : UInt32 := store (mask pci high) (b.space pci high) 0

theorem word_four : (4 : UInt32) &&& ~~~3 = 4 := rfl

theorem reserveMmio_recorded {first bytes : UInt64} {b : Bus} (hbytes : bytes ≠ 0) (hfirst : first < 0x100000000)
    (hroom : b.reserved.length ≠ 256) (hend : ¬first + bytes < first) :
    reserveMmio first bytes b = { b with reserved := b.reserved ++ [⟨first, first + bytes⟩] } := by
  have hsome : ¬(bytes = 0 ∨ 0x100000000 ≤ first) := not_or.2 ⟨hbytes, UInt64.not_le.2 hfirst⟩
  rw [reserveMmio, if_neg hsome, if_neg (not_or.2 ⟨hroom, hend⟩)]

/-- The command register is what it was, whatever was recorded meanwhile. -/
theorem command_restored (b : Bus) (pci : UInt32) {k l m : UInt32} (hl : l ≠ k) (hm : m ≠ k) (x y z : UInt32) (ranges : List Range) :
    Bus.set { ((b.set pci k x).set pci l y).set pci m z with reserved := ranges } pci k (b.space pci k) =
      { (b.set pci l y).set pci m z with reserved := ranges } := by
  unfold Bus.set
  congr 1
  funext p o
  dsimp only
  split_ifs <;> simp_all

section Hardware
variable (mask : Space) (pci : UInt32) {bar low high : UInt32} (hw : Words bar low high) (b : Bus)
include hw

/-- The size is read of the words that all bits were written to, and nothing is left of that. -/
theorem barSize_eq (hwide : b.space pci low &&& 6 = 4) : barSize mask pci bar (b.space pci low) b =
    (~~~(((store (mask pci low) (b.space pci low) 0xffffffff &&& ~~~15).toUInt64) |||
      (store (mask pci high) (b.space pci high) 0xffffffff).toUInt64 <<< 32) + 1, b) := by
  simp only [barSize, pciRead, pciWrite, pciCommand, hw.low_eq, hw.next, hw.high_eq, word_four, if_pos hwide,
    space_set_self, space_set_of_ne _ _ _ _ hw.low_ne, space_set_of_ne _ _ _ _ hw.high_ne, space_set_of_ne _ _ _ _ hw.apart,
    space_set_of_ne _ _ _ _ hw.low_ne.symm, space_set_of_ne _ _ _ _ hw.high_ne.symm, space_set_of_ne _ _ _ _ hw.apart.symm,
    store_store, store_self, store_half, restored]

theorem moveBar_refused {size candidate : UInt64}
    (h : (movedLow mask pci low b candidate &&& ~~~15).toUInt64 ≠ candidate ∨ movedHigh mask pci high b ≠ 0) :
    moveBar mask pci bar (b.space pci low) size candidate b = (0, b) := by
  unfold movedLow movedHigh at h
  simp only [moveBar, pciRead, pciWrite, pciCommand, hw.low_eq, hw.high_eq, word_four, 
    space_set_self, space_set_of_ne _ _ _ _ hw.low_ne, space_set_of_ne _ _ _ _ hw.high_ne, space_set_of_ne _ _ _ _ hw.apart,
    space_set_of_ne _ _ _ _ hw.low_ne.symm, space_set_of_ne _ _ _ _ hw.high_ne.symm, space_set_of_ne _ _ _ _ hw.apart.symm,
    store_store, store_self, store_half, restored, if_pos h]

theorem moveBar_moved {size candidate : UInt64} (hlow : (movedLow mask pci low b candidate &&& ~~~15).toUInt64 = candidate)
    (hhigh : movedHigh mask pci high b = 0) (hsize : size ≠ 0) (hfits : candidate < 0x100000000)
    (hroom : b.reserved.length ≠ 256) (hend : ¬candidate + size < candidate) :
    moveBar mask pci bar (b.space pci low) size candidate b =
      (candidate.toUInt32, { (b.set pci low (movedLow mask pci low b candidate)).set pci high 0 with
        reserved := b.reserved ++ [⟨candidate, candidate + size⟩] }) := by
  unfold movedLow at hlow
  unfold movedHigh at hhigh
  have hboth : ¬((store (mask pci low) (b.space pci low) (candidate.toUInt32 ||| b.space pci low &&& 15) &&& ~~~15).toUInt64 ≠ candidate ∨
      store (mask pci high) (b.space pci high) 0 ≠ 0) := not_or.2 ⟨not_not.2 hlow, not_not.2 hhigh⟩
  simp only [moveBar, pciRead, pciWrite, pciCommand, hw.low_eq, hw.high_eq, word_four,
    space_set_self, space_set_of_ne _ _ _ _ hw.low_ne, space_set_of_ne _ _ _ _ hw.high_ne, space_set_of_ne _ _ _ _ hw.apart,
    space_set_of_ne _ _ _ _ hw.low_ne.symm, space_set_of_ne _ _ _ _ hw.high_ne.symm, space_set_of_ne _ _ _ _ hw.apart.symm,
    if_neg hboth]
  have hrecorded : ∀ c : Bus, c.reserved = b.reserved →
      reserveMmio candidate size c = { c with reserved := b.reserved ++ [⟨candidate, candidate + size⟩] } := by
    intro c hc
    rw [← hc]
    exact reserveMmio_recorded hsize hfits (hc ▸ hroom) hend
  rw [hrecorded (((b.set pci 4 _).set pci low _).set pci high _) rfl]
  refine Prod.ext rfl ?_
  simp only [space_set_self, space_set_of_ne _ _ _ _ hw.low_ne.symm, space_set_of_ne _ _ _ _ hw.high_ne.symm, store_store, store_half, hhigh]
  exact command_restored b pci hw.low_ne hw.high_ne _ _ _ _

end Hardware

end Barnix.Mmio
