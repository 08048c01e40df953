import Barnix.Disk.Devices
import Mathlib.Data.List.Range
/-!
# Selecting a device or a partition

The commands of the layer keep the devices what they are, and whatever name is
selected, the selection lies inside its device and ends below 2^32 sectors.
-/

namespace Barnix.Disk

open Vfs (DiskSelection noDisk)

/-! ## Devices by number -/

/-- The device that a selection's number stands for. -/
def bayOf (id : Nat) : Option Bay :=
  if pciBase ≤ id then some (.pci (id - pciBase))
  else if isUsb id then some (.usb (unitOfUsb id))
  else if isAta id then some (.ata (unitOfAta id))
  else if id = 1 then some .ram
  else none

/-- The part of a device that commands do not change. -/
def Device.shape (d : Device) : Nat × Bool × Nat × Bool := (d.capacity, d.lba48, d.generation, d.readonly)

theorem Device.shape_put (d : Device) (lba : Nat) (data : Sector) : (d.put lba data).shape = d.shape := rfl

/-- What `ata_identify` has stored is the capacity of the drive, or nothing. -/
def AtaKnown (s : Disks) : Prop :=
  ∀ u, s.ataCapacity u = 0 ∨ ∃ d, s.device (.ata u) = some d ∧ s.ataCapacity u = d.capacity ∧ s.ataLba48 u = d.lba48

/-- The sizes of the devices: the RAM disk's is fixed, a stick reports 32 bits, a
drive without 48-bit commands reports 28. -/
structure Limits (s : Disks) : Prop where
  ram : ∀ d, s.device .ram = some d → d.capacity = ramSectors
  usb : ∀ u d, s.device (.usb u) = some d → d.capacity < word
  ata : ∀ u d, s.device (.ata u) = some d → d.lba48 = false → d.capacity ≤ 2 ^ 28

/-- The selection lies inside its device, and its sectors are counted with 32 bits. -/
def Inside (s : Disks) (sel : DiskSelection) : Prop :=
  sel.sectors = 0 ∨ ∃ b d, bayOf sel.id = some b ∧ s.device b = some d ∧ sel.offset + sel.sectors ≤ d.capacity ∧
    sel.offset + sel.sectors < word

/-- The devices stay what they are, and what is known of the drives stays right. -/
structure Keeps (s t : Disks) : Prop where
  shapes : ∀ b, (t.device b).map Device.shape = (s.device b).map Device.shape
  faults : t.faults = s.faults
  known : AtaKnown s → AtaKnown t

namespace Keeps

variable {s t : Disks}

theorem device (h : Keeps s t) {b : Bay} {d : Device} (hd : s.device b = some d) :
    ∃ d', t.device b = some d' ∧ d'.shape = d.shape := by
  have := h.shapes b
  rw [hd] at this
  obtain ⟨d', hd', he⟩ := Option.map_eq_some_iff.1 this
  exact ⟨d', hd', he⟩

theorem device_back (h : Keeps s t) {b : Bay} {d : Device} (hd : t.device b = some d) :
    ∃ d', s.device b = some d' ∧ d'.shape = d.shape := by
  have := h.shapes b
  rw [hd] at this
  obtain ⟨d', hd', he⟩ := Option.map_eq_some_iff.1 this.symm
  exact ⟨d', hd', he⟩

theorem inside (h : Keeps s t) {sel : DiskSelection} (hi : Inside s sel) : Inside t sel := by
  rcases hi with hi | ⟨b, d, hb, hd, hcap, hword⟩
  · exact .inl hi
  · obtain ⟨d', hd', he⟩ := h.device hd
    have : d'.capacity = d.capacity := congrArg (·.1) he
    exact .inr ⟨b, d', hb, hd', this ▸ hcap, hword⟩

theorem limits (h : Keeps s t) (hl : Limits s) : Limits t := by
  refine ⟨fun d hd => ?_, fun u d hd => ?_, fun u d hd h48 => ?_⟩ <;> obtain ⟨d', hd', he⟩ := h.device_back hd
  all_goals have hcap : d'.capacity = d.capacity := congrArg (·.1) he
  · exact hcap ▸ hl.ram d' hd'
  · exact hcap ▸ hl.usb u d' hd'
  · have : d'.lba48 = d.lba48 := congrArg (·.2.1) he
    exact hcap ▸ hl.ata u d' hd' (this.trans h48)

end Keeps

instance : Std.Refl Keeps := ⟨fun _ => ⟨fun _ => rfl, rfl, id⟩⟩

instance : IsTrans Disks Keeps := ⟨fun _ _ _ h h' =>
  ⟨fun b => (h'.shapes b).trans (h.shapes b), h'.faults.trans h.faults, fun k => h'.known (h.known k)⟩⟩

/-- A state that differs from `s` in what commands leave behind, not in any device. -/
theorem Keeps.of_same {s t : Disks} (hd : t.device = s.device) (hf : t.faults = s.faults)
    (hc : t.ataCapacity = s.ataCapacity) (hl : t.ataLba48 = s.ataLba48) : Keeps s t :=
  ⟨fun b => by rw [hd], hf, fun h => by unfold AtaKnown at h ⊢; rw [hd, hc, hl]; exact h⟩

theorem keeps_update {s t : Disks} {b : Bay} {d d' : Device} (hb : s.device b = some d) (he : d'.shape = d.shape)
    (hd : t.device = Function.update s.device b (some d')) (hf : t.faults = s.faults)
    (hc : t.ataCapacity = s.ataCapacity) (hl : t.ataLba48 = s.ataLba48) : Keeps s t := by
  have hshape : ∀ b', (t.device b').map Device.shape = (s.device b').map Device.shape := by
    intro b'
    rw [hd]
    by_cases h : b' = b
    · subst h
      rw [Function.update_self, hb, Option.map_some, Option.map_some, he]
    · rw [Function.update_of_ne h]
  refine ⟨hshape, hf, fun hk u => ?_⟩
  rw [hc, hl]
  rcases hk u with h | ⟨x, hx, hcap, h48⟩
  · exact .inl h
  · have := hshape (.ata u)
    rw [hx] at this
    obtain ⟨y, hy, hxy⟩ := Option.map_eq_some_iff.1 this
    have h1 : y.capacity = x.capacity := congrArg (·.1) hxy
    have h2 : y.lba48 = x.lba48 := congrArg (·.2.1) hxy
    exact .inr ⟨y, hy, hcap.trans h1.symm, h48.trans h2.symm⟩

/-! ## Every function keeps the devices -/

theorem keeps_readSectors (b : Bay) (lba count : Nat) : Moves Keeps (readSectors b lba count) := by
  intro s
  unfold readSectors
  rw [exec_modifyGet]
  cases s.device b with
  | none => exact refl_of Keeps s
  | some d =>
    dsimp only
    split
    · exact refl_of Keeps s
    · exact .of_same rfl rfl rfl rfl

theorem keeps_writeSector (b : Bay) (lba : Nat) (data : Sector) : Moves Keeps (writeSector b lba data) := by
  intro s
  unfold writeSector
  rw [exec_modifyGet]
  cases hd : s.device b with
  | none => exact refl_of Keeps s
  | some d =>
    dsimp only
    split
    · exact refl_of Keeps s
    split
    · exact .of_same rfl rfl rfl rfl
    · exact keeps_update hd (d.shape_put lba data) rfl rfl rfl rfl

theorem keeps_ramRead (lba count : Nat) : Moves Keeps (ramRead lba count) := by
  intro s
  unfold ramRead
  rw [exec_modifyGet]
  cases s.device .ram with
  | none => exact refl_of Keeps s
  | some d => exact .of_same rfl rfl rfl rfl

theorem keeps_ramWrite (lba : Nat) (data : Sector) : Moves Keeps (ramWrite lba data) := by
  intro s
  unfold ramWrite
  rw [exec_modifyGet]
  cases hd : s.device .ram with
  | none => exact refl_of Keeps s
  | some d => exact keeps_update hd (d.shape_put lba data) rfl rfl rfl rfl

theorem keeps_ataUse (id : Nat) : Moves Keeps (ataUse id) := fun _ => .of_same rfl rfl rfl rfl

theorem keeps_usbSelect (unit : Nat) : Moves Keeps (usbSelect unit) := by
  intro s
  unfold usbSelect
  rw [exec_modifyGet]
  split
  · exact .of_same rfl rfl rfl rfl
  · exact refl_of Keeps s

theorem keeps_ataIdentify : Moves Keeps ataIdentify := by
  intro s
  have hzero : ∀ t : Disks, t.device = s.device → t.faults = s.faults →
      t.ataCapacity = Function.update s.ataCapacity s.ataUnit 0 → t.ataLba48 = s.ataLba48 → Keeps s t := by
    intro t hd hf hc hl
    refine ⟨fun b => by rw [hd], hf, fun hk u => ?_⟩
    rw [hc, hl, hd]
    by_cases hu : u = s.ataUnit
    · exact .inl (by rw [hu, Function.update_self])
    · rw [Function.update_of_ne hu]
      exact hk u
  unfold ataIdentify
  rw [exec_modifyGet]
  cases hd : s.device (.ata s.ataUnit) with
  | none => exact hzero _ rfl rfl rfl rfl
  | some d =>
    dsimp only
    split
    · exact hzero _ rfl rfl rfl rfl
    · refine ⟨fun _ => rfl, rfl, fun hk u => ?_⟩
      by_cases hu : u = s.ataUnit
      · subst hu
        exact .inr ⟨d, hd, by simp, by simp⟩
      · dsimp only
        rw [Function.update_of_ne hu, Function.update_of_ne hu]
        exact hk u

/-! ## Moving along a relation -/

/-- The commands that only read move along `R`. -/
structure Reading (R : Disks → Disks → Prop) : Prop where
  read : ∀ b lba count, Moves R (readSectors b lba count)
  ram : ∀ lba count, Moves R (ramRead lba count)
  use : ∀ id, Moves R (ataUse id)
  select : ∀ unit, Moves R (usbSelect unit)

/-- All commands but `ata_identify` move along `R`. -/
structure Writing (R : Disks → Disks → Prop) : Prop extends Reading R where
  write : ∀ b lba data, Moves R (writeSector b lba data)
  ramWrite : ∀ lba data, Moves R (ramWrite lba data)

section Moving

variable {R : Disks → Disks → Prop} [Std.Refl R] [IsTrans Disks R]

theorem Reading.ataRead (h : Reading R) (lba : Nat) : Moves R (ataRead lba) := by
  unfold Disk.ataRead
  refine .bind .get fun s => .ite (.pure _) ((h.read _ _ _).bind fun data => ?_)
  split <;> exact .pure _

theorem Reading.ataReadLoop (h : Reading R) (lba : Nat) (is : List Nat) : Moves R (ataReadLoop lba is) := by
  induction is with
  | nil => exact .pure _
  | cons i is ih =>
    refine (h.ataRead _).bind fun data => ?_
    cases data with
    | none => exact .pure _
    | some data =>
      refine ih.bind fun more => ?_
      cases more <;> exact .pure _

theorem Reading.usbRead (h : Reading R) (lba count : Nat) : Moves R (usbRead lba count) := by
  unfold Disk.usbRead
  refine .bind .get fun s => ?_
  cases usbDevice s with
  | none => exact .pure _
  | some d => exact .ite (.pure _) (h.read _ _ _)

theorem Reading.rawRead (h : Reading R) (id lba count : Nat) : Moves R (rawRead id lba count) := by
  unfold Disk.rawRead
  refine .ite ?_ (.ite ?_ (.ite ?_ ?_))
  · exact .bind .get fun s => .ite (.pure _) (h.read _ _ _)
  · exact (h.select _).bind fun ok => .ite (.pure _) (h.usbRead _ _)
  · exact (h.use _).bind fun _ => h.ataReadLoop _ _
  · exact .bind .get fun s => .ite (h.ram _ _) (.pure _)

theorem Reading.diskPresent (h : Reading R) : Moves R diskPresent := by
  unfold Disk.diskPresent
  refine .bind .get fun s => .ite ?_ (.ite ?_ (.ite ?_ ?_))
  · exact .bind .get fun _ => .pure _
  · exact (h.use _).bind fun _ => .bind .get fun _ => .pure _
  · exact (h.select _).bind fun ok => .ite (.pure _) (.bind .get fun _ => .pure _)
  · exact .bind .get fun _ => .pure _

theorem Reading.diskReadMany (h : Reading R) (lba count : Nat) : Moves R (diskReadMany lba count) := by
  unfold Disk.diskReadMany
  exact h.diskPresent.bind fun ok => .ite (.pure _) (.bind .get fun s => .ite (.pure _) (h.rawRead _ _ _))

theorem Writing.diskWrite (h : Writing R) (lba : Nat) (data : Sector) : Moves R (diskWrite lba data) := by
  unfold Disk.diskWrite
  refine h.diskPresent.bind fun ok => .ite (.pure _) (.bind .get fun s => .ite (.pure _) (.ite ?_ (.ite ?_ (.ite ?_ ?_))))
  · refine .bind .get fun s => .ite (.pure _) ?_
    cases s.device (.pci _) with
    | none => exact .pure _
    | some d => exact .ite (.pure _) (h.write _ _ _)
  · refine .bind .get fun s => ?_
    cases usbDevice s with
    | none => exact .pure _
    | some d => exact .ite (.pure _) (h.write _ _ _)
  · exact .bind .get fun s => .ite (.pure _) (h.write _ _ _)
  · exact h.ramWrite _ _

end Moving

theorem keeps : Writing Keeps :=
  ⟨⟨keeps_readSectors, keeps_ramRead, keeps_ataUse, keeps_usbSelect⟩, keeps_writeSector, keeps_ramWrite⟩

/-- What selects a device is left alone: reading and writing change the units in use,
the clock, the trace and the sectors only. -/
structure Quiet (s t : Disks) : Prop where
  selected : t.selected = s.selected
  usbPort : t.usbPort = s.usbPort
  pciNames : t.pciNames = s.pciNames
  ataCapacity : t.ataCapacity = s.ataCapacity
  ataLba48 : t.ataLba48 = s.ataLba48

instance : Std.Refl Quiet := ⟨fun _ => ⟨rfl, rfl, rfl, rfl, rfl⟩⟩

instance : IsTrans Disks Quiet := ⟨fun _ _ _ h h' =>
  ⟨h'.1.trans h.1, h'.2.trans h.2, h'.3.trans h.3, h'.4.trans h.4, h'.5.trans h.5⟩⟩

theorem quiet_readSectors (b : Bay) (lba count : Nat) : Moves Quiet (readSectors b lba count) := by
  intro s
  unfold readSectors
  rw [exec_modifyGet]
  cases s.device b with
  | none => exact refl_of Quiet s
  | some d =>
    dsimp only
    split <;> exact ⟨rfl, rfl, rfl, rfl, rfl⟩

theorem quiet_writeSector (b : Bay) (lba : Nat) (data : Sector) : Moves Quiet (writeSector b lba data) := by
  intro s
  unfold writeSector
  rw [exec_modifyGet]
  cases s.device b with
  | none => exact refl_of Quiet s
  | some d =>
    dsimp only
    split
    · exact refl_of Quiet s
    split <;> exact ⟨rfl, rfl, rfl, rfl, rfl⟩

theorem quiet : Writing Quiet where
  read := quiet_readSectors
  ram := by
    intro lba count s
    unfold ramRead
    rw [exec_modifyGet]
    cases s.device .ram <;> exact ⟨rfl, rfl, rfl, rfl, rfl⟩
  use := fun _ _ => ⟨rfl, rfl, rfl, rfl, rfl⟩
  select := by
    intro unit s
    unfold usbSelect
    rw [exec_modifyGet]
    split <;> exact ⟨rfl, rfl, rfl, rfl, rfl⟩
  write := quiet_writeSector
  ramWrite := by
    intro lba data s
    unfold ramWrite
    rw [exec_modifyGet]
    cases s.device .ram <;> exact ⟨rfl, rfl, rfl, rfl, rfl⟩

/-! ## The numbers of devices -/

theorem bayOf_usbId {unit : Nat} (h : unit < usbMax) : bayOf (usbId unit) = some (.usb unit) := by
  unfold usbMax at h
  unfold bayOf usbId
  by_cases h0 : unit = 0
  · subst h0
    rfl
  · have h1 : ¬pciBase ≤ 7 + unit := by unfold pciBase; omega
    have h2 : isUsb (7 + unit) = true := by
      unfold isUsb usbMax
      simp only [Bool.or_eq_true, beq_iff_eq, Bool.and_eq_true, decide_eq_true_eq]
      omega
    have h3 : unitOfUsb (7 + unit) = unit := by
      unfold unitOfUsb
      rw [if_neg (by omega)]
      omega
    rw [if_pos h0, if_neg h1, if_pos h2, h3]

theorem bayOf_ataId {unit : Nat} (h : unit < 4) : bayOf (ataId unit) = some (.ata unit) := by
  interval_cases unit <;> rfl

theorem bayOf_pci (i : Nat) : bayOf (pciBase + i) = some (.pci i) := by
  unfold bayOf
  rw [if_pos (Nat.le_add_right _ _), Nat.add_sub_cancel_left]

/-! ## What is selected -/

/-- A selection of the whole of a device. -/
structure Whole (s : Disks) (sel : DiskSelection) : Prop where
  offset : sel.offset = 0
  inside : Inside s sel

/-- The part of a device that a partition of it fits into lies inside the device. -/
theorem Whole.part {s : Disks} {sel : DiskSelection} (h : Whole s sel) {start size : Nat}
    (hf : partitionFits start size sel.sectors = true) : Inside s { sel with offset := start, sectors := size } ∧ size ≠ 0 := by
  unfold partitionFits at hf
  simp only [Bool.not_eq_true', Bool.or_eq_false_iff, beq_eq_false_iff_ne, decide_eq_false_iff_not] at hf
  obtain ⟨⟨⟨h1, h2⟩, h3⟩, h4⟩ := hf
  refine ⟨?_, h2⟩
  rcases h.inside with h0 | ⟨b, d, hb, hd, hcap, hword⟩
  · omega
  · have := h.offset
    exact .inr ⟨b, d, hb, hd, by show start + size ≤ d.capacity; omega, by show start + size < word; omega⟩

theorem keeps_findDevice (name : Name) : Moves Keeps (findDevice name) := by
  unfold findDevice
  cases usbNameUnit name with
  | some unit => exact (keeps_usbSelect unit).bind fun ok => .ite (.pure _) (.bind .get fun _ => .pure _)
  | none =>
    refine .ite ?_ (.bind .get fun s => .ite (.pure _) (.pure _))
    refine .bind (.modify fun s => .of_same rfl rfl rfl rfl) fun _ => ?_
    exact keeps_ataIdentify.bind fun ok => .ite (.pure _) (.bind .get fun _ => .pure _)

theorem selected_ataIdentify (s : Disks) : (exec ataIdentify s).2.selected = s.selected := by
  unfold ataIdentify
  rw [exec_modifyGet]
  cases s.device (.ata s.ataUnit) with
  | none => rfl
  | some d =>
    dsimp only
    split <;> rfl

theorem selected_findDevice (name : Name) (s : Disks) : (exec (findDevice name) s).2.selected = s.selected := by
  have h : Moves (fun s t : Disks => t.selected = s.selected) (findDevice name) := by
    unfold findDevice
    cases usbNameUnit name with
    | some unit => exact .bind (fun s => (quiet.select unit s).selected) fun ok => .ite (.pure _) (.bind .get fun _ => .pure _)
    | none =>
      refine .ite ?_ (.bind .get fun s => .ite (.pure _) (.pure _))
      refine .bind (.modify fun s => rfl) fun _ => ?_
      exact .bind selected_ataIdentify fun ok => .ite (.pure _) (.bind .get fun _ => .pure _)
  exact h s

theorem usbNameUnit_lt {name : Name} {unit : Nat} (h : usbNameUnit name = some unit) : unit < usbMax :=
  List.mem_range.1 (List.mem_of_find?_eq_some h)

/-- `ata_identify` succeeds with the capacity of the drive. -/
theorem ataIdentify_ok {s : Disks} (h : (exec ataIdentify s).1 = true) :
    ∃ d, (exec ataIdentify s).2.device (.ata s.ataUnit) = some d ∧ (exec ataIdentify s).2.ataCapacity s.ataUnit = d.capacity := by
  unfold ataIdentify at h ⊢
  rw [exec_modifyGet] at h ⊢
  cases hd : s.device (.ata s.ataUnit) with
  | none =>
    rw [hd] at h
    cases h
  | some d =>
    rw [hd] at h
    dsimp only at h ⊢
    split at h
    · cases h
    · rename_i hf
      rw [if_neg hf]
      exact ⟨d, hd, Function.update_self ..⟩

/-- A device that is found by name is selected as a whole. -/
theorem whole_findDevice {name : Name} {s : Disks} (hl : Limits s) {next : DiskSelection}
    (h : (exec (findDevice name) s).1 = some next) : Whole (exec (findDevice name) s).2 next := by
  have hlim : Limits (exec (findDevice name) s).2 := (keeps_findDevice name s).limits hl
  revert h hlim
  unfold findDevice
  cases hu : usbNameUnit name with
  | some unit =>
    dsimp only
    rw [exec_bind]
    cases hok : (exec (usbSelect unit) s).1 with
    | false => intro h; cases h
    | true =>
      simp only [Bool.not_true, Bool.false_eq_true, if_false, exec_bind, exec_get, exec_pure]
      intro h hlim
      obtain ⟨d, hd, rfl⟩ := Option.map_eq_some_iff.1 h
      -- the port that was selected is the one the stick is looked up in
      have hport : (exec (usbSelect unit) s).2.usbUnit = unit := by
        unfold usbSelect at hok ⊢
        rw [exec_modifyGet] at hok ⊢
        split at hok
        · rename_i hc
          rw [if_pos hc]
        · cases hok
      unfold usbDevice at hd
      rw [hport] at hd
      refine ⟨rfl, .inr ⟨.usb unit, d, bayOf_usbId (usbNameUnit_lt hu), hd, ?_, ?_⟩⟩
      · exact (Nat.zero_add _).le
      · exact (Nat.zero_add d.capacity).symm ▸ hlim.usb unit d hd
  | none =>
    dsimp only
    split
    · rename_i hname
      rw [exec_bind, exec_modify, exec_bind]
      generalize hunit : (if name.head? = some 97 then 0 else (name.getD 4 0).toNat - 49) = unit
      have h4 : unit < 4 := by
        rcases hname with rfl | ⟨n, rfl⟩
        · rw [← hunit]
          decide
        · rw [← hunit]
          clear hu hunit
          revert n
          decide
      cases hok : (exec ataIdentify { s with ataUnit := unit }).1 with
      | false => intro h; cases h
      | true =>
        simp only [Bool.not_true, Bool.false_eq_true, if_false, exec_bind, exec_get, exec_pure]
        intro h hlim
        obtain ⟨d, hd, hcap⟩ := ataIdentify_ok hok
        cases h
        refine ⟨rfl, .inr ⟨.ata unit, d, bayOf_ataId h4, hd, ?_, ?_⟩⟩
        · show 0 + min _ _ ≤ _
          rw [hcap]
          omega
        · show 0 + min _ _ < _
          unfold word
          omega
    · rw [exec_bind, exec_get]
      split
      · rename_i hram
        rw [exec_pure]
        intro h hlim
        cases h
        obtain ⟨d, hd⟩ := Option.isSome_iff_exists.1 hram.2
        refine ⟨rfl, .inr ⟨.ram, d, rfl, hd, ?_, by decide⟩⟩
        rw [hlim.ram d hd]
        decide
      · rw [exec_pure]
        intro h hlim
        obtain ⟨i, -, h⟩ := Option.bind_eq_some_iff.1 h
        obtain ⟨d, hd, rfl⟩ := Option.map_eq_some_iff.1 h
        refine ⟨rfl, .inr ⟨.pci i, d, bayOf_pci i, hd, ?_, ?_⟩⟩
        · show 0 + min _ _ ≤ _
          omega
        · show 0 + min _ _ < _
          unfold word
          omega

/-! ## Selecting -/

/-- What a call to select can leave selected: what was, or a part of a device that is
empty only when it starts at its first sector. -/
structure Chosen (s : Disks) (sel : DiskSelection) : Prop where
  inside : Inside s sel
  sectors : sel.offset ≠ 0 → sel.sectors ≠ 0

theorem Whole.chosen {s : Disks} {sel : DiskSelection} (h : Whole s sel) : Chosen s sel :=
  ⟨h.inside, fun h0 => absurd h.offset h0⟩

theorem Keeps.chosen {s t : Disks} (h : Keeps s t) {sel : DiskSelection} (hc : Chosen s sel) : Chosen t sel :=
  ⟨h.inside hc.inside, hc.sectors⟩

theorem Keeps.whole {s t : Disks} (h : Keeps s t) {sel : DiskSelection} (hw : Whole s sel) : Whole t sel :=
  ⟨hw.offset, h.inside hw.inside⟩

theorem keeps_selected (s : Disks) (sel : DiskSelection) : Keeps s { s with selected := sel } := .of_same rfl rfl rfl rfl

theorem keeps_selectDevice (name : Name) (raw : Bool) : Moves Keeps (selectDevice name raw) := by
  unfold selectDevice
  refine (keeps_findDevice name).bind fun next => ?_
  cases next with
  | none => exact .pure _
  | some next =>
    have hdone : ∀ sel, Moves Keeps (do modify ({ · with selected := sel }); return true : StateM Disks Bool) :=
      fun sel => .bind (.modify fun s => keeps_selected s sel) fun _ => .pure _
    refine .ite (hdone _) (.ite (.pure _) ((keeps.rawRead _ _ _).bind fun sb => ?_))
    split
    · refine .ite (hdone _) ((keeps.rawRead _ _ _).bind fun mbr => ?_)
      split
      · refine .ite (hdone _) ?_
        split
        · exact .pure _
        · exact .ite (.pure _) (hdone _)
      · exact .pure _
    · exact .pure _

/-- `sel₀` is still selected and `next` is the whole of a device. -/
def Found (sel₀ next : DiskSelection) (s : Disks) : Prop := s.selected = sel₀ ∧ Whole s next

theorem found_rawRead (sel₀ next : DiskSelection) (id lba count : Nat) :
    Ends (Found sel₀ next) (rawRead id lba count) fun _ => Found sel₀ next := fun s hs =>
  ⟨(quiet.rawRead id lba count s).selected.trans hs.1, (keeps.rawRead id lba count s).whole hs.2⟩

/-- What is selected after `select_device`: nothing new, or a part of what it found. -/
theorem chosen_selectDevice (sel₀ : DiskSelection) (name : Name) (raw : Bool) :
    Ends (fun s => s.selected = sel₀ ∧ Limits s) (selectDevice name raw) fun _ t =>
      t.selected = sel₀ ∨ Chosen t t.selected := by
  unfold selectDevice
  refine Ends.bind (Q := fun next t => t.selected = sel₀ ∧ ∀ d, next = some d → Whole t d) ?_ ?_
  · intro s hs
    exact ⟨(selected_findDevice name s).trans hs.1, fun d hd => whole_findDevice hs.2 hd⟩
  intro next
  cases next with
  | none => exact .pure fun s hs => .inl hs.1
  | some next =>
    have hdone : ∀ sel : DiskSelection, (∀ s, Whole s next → Chosen s sel) →
        Ends (Found sel₀ next) (do modify ({ · with selected := sel }); return true : StateM Disks Bool) fun _ t =>
          t.selected = sel₀ ∨ Chosen t t.selected :=
      fun sel hsel s hs => .inr ((keeps_selected s sel).chosen (hsel s hs.2))
    have hnone : Ends (Found sel₀ next) (pure false : StateM Disks Bool) fun _ t => t.selected = sel₀ ∨ Chosen t t.selected :=
      fun s hs => .inl hs.1
    refine Ends.weaken (P := Found sel₀ next) (fun s hs => ⟨hs.1, hs.2 next rfl⟩) ?_
    refine .ite (fun _ => hdone _ fun s h => h.chosen) fun _ => .ite (fun _ => hnone) fun _ => ?_
    refine (found_rawRead sel₀ next _ _ _).bind fun sb => ?_
    split
    · refine .ite (fun _ => hdone _ fun s h => h.chosen) fun _ => (found_rawRead sel₀ next _ _ _).bind fun mbr => ?_
      split
      · refine .ite (fun _ => hdone _ fun s h => h.chosen) fun _ => ?_
        split
        · exact hnone
        · refine .ite (fun _ => hnone) fun hfit => hdone _ fun s h => ?_
          obtain ⟨hin, hsize⟩ := h.part (by simpa using hfit)
          exact ⟨hin, fun _ => hsize⟩
      · exact hnone
    · exact hnone

/-- A raw selection is the whole device. -/
theorem whole_selectDevice (name : Name) :
    Ends Limits (selectDevice name true) fun ok t => ok = true → Whole t t.selected := by
  unfold selectDevice
  refine Ends.bind (Q := fun next t => ∀ d, next = some d → Whole t d) ?_ ?_
  · intro s hs d hd
    exact whole_findDevice hs hd
  intro next
  cases next with
  | none => exact .pure fun s hs => nofun
  | some next => exact fun s hs _ => (keeps_selected s next).whole (hs next rfl)

theorem keeps_diskRead (lba : Nat) : Moves Keeps (diskRead lba) := (keeps.diskReadMany lba 1).bind fun _ => .pure _

theorem keeps_selectNamed (name : Name) (raw : Bool) : Moves Keeps (selectNamed name raw) := by
  unfold selectNamed
  refine .ite (.ite (.pure _) ?_) (keeps_selectDevice _ _)
  refine (keeps_selectDevice _ _).bind fun ok => .ite (.pure _) ((keeps_diskRead 0).bind fun mbr => ?_)
  cases mbr with
  | none => exact .pure _
  | some mbr =>
    refine .ite (.pure _) (.bind .get fun s => .ite (.pure _) ?_)
    exact .bind (.modify fun s => keeps_selected s _) fun _ => .pure _

/-- What is selected after `select_named`, even when it fails. -/
theorem chosen_selectNamed (sel₀ : DiskSelection) (name : Name) (raw : Bool) :
    Ends (fun s => s.selected = sel₀ ∧ Limits s) (selectNamed name raw) fun _ t =>
      t.selected = sel₀ ∨ Chosen t t.selected := by
  unfold selectNamed
  refine .ite (fun _ => .ite (fun _ => .pure fun s hs => .inl hs.1) fun _ => ?_) fun _ => chosen_selectDevice _ _ _
  refine Ends.bind (Q := fun ok t => (t.selected = sel₀ ∨ Chosen t t.selected) ∧ (ok = true → Whole t t.selected)) ?_ ?_
  · intro s hs
    exact ⟨chosen_selectDevice sel₀ _ _ s hs, whole_selectDevice _ s hs.2⟩
  intro ok
  cases ok with
  | false => exact fun s hs => hs.1
  | true =>
    refine Ends.weaken (P := fun s => Whole s s.selected) (fun s hs => hs.2 rfl) ?_
    refine Ends.bind (Q := fun _ t => Whole t t.selected) ?_ ?_
    · intro s hs
      show Whole _ (exec (diskReadMany 0 1) s).2.selected
      rw [(quiet.diskReadMany 0 1 s).selected]
      exact (keeps_diskRead 0 s).whole hs
    intro mbr
    cases mbr with
    | none => exact fun s hs => .inr hs.chosen
    | some mbr =>
      refine .ite (fun _ s hs => .inr hs.chosen) fun _ => ?_
      intro s hs
      rw [exec_bind, exec_get]
      dsimp only
      split
      · exact .inr hs.chosen
      · rename_i hfit
        generalize partition mbr ((name.getD (name.length - 1) 0).toNat - 49) = entry at hfit ⊢
        obtain ⟨kind, start, size⟩ := entry
        have hfits : partitionFits start size s.selected.sectors = true := by
          by_contra hn
          exact hfit (.inr (.inr (by simpa using hn)))
        obtain ⟨hin, hsize⟩ := hs.part hfits
        exact .inr ((keeps_selected s _).chosen ⟨hin, fun _ => hsize⟩)

end Barnix.Disk
