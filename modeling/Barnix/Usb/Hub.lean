import Barnix.Disk.Devices
import Barnix.Usb.Media
import Barnix.Vfs.Machine
/-!
# The disk layer over USB

`disk.c` where sticks come and go. The devices of other kinds answer as they
like; a name of theirs stands for whatever the script says at that time. `made`
records every selection, with the number of media enumerated on its unit so far.
-/

namespace Barnix.Usb

open Vfs (DiskSelection DiskCommand Layer noDisk Sector)
open Disk (isUsb usbId unitOfUsb usbNameUnit partition signed partitionFits add32)

structure Hub where
  bus : Bus (Option DiskSelection)
  selected : DiskSelection
  /-- The number and the sectors of a device that is not on USB. -/
  others : Nat → Name → Option (Nat × Nat)
  made : List (DiskSelection × Nat)

namespace Hub

def onBus {α : Type} (x : StateM (Bus (Option DiskSelection)) α) : StateM Hub α := zoom Hub.bus (fun b h => { h with bus := b }) x

/-! ## Sectors -/

/-- What the sectors from `lba` on read as. -/
def sectorData (lba count : Nat) : StateM (Bus (Option DiskSelection)) (List Sector) := do
  let time ← look
  let s ← get
  return (List.range count).map fun i => s.outside.data time (lba + i)

def rawRead (id lba count : Nat) : StateM Hub (Option (List Sector)) := do
  if isUsb id then
    if !(← onBus (storageSelect (unitOfUsb id))) then return none
    if !(← onBus (sectorsCommand .read lba count)) then return none
  else
    if !(← onBus answer) then return none
  return some (← onBus (sectorData lba count))

def diskPresent : StateM Hub Bool := do
  let h ← get
  if isUsb h.selected.id then
    if !(← onBus (storageSelect (unitOfUsb h.selected.id))) then return false
    if !(← onBus storagePresent) then return false
    return (← onBus storageGeneration) == h.selected.generation
  onBus answer

def diskReadMany (lba count : Nat) : StateM Hub (Option (List Sector)) := do
  if !(← diskPresent) then return none
  let h ← get
  if count = 0 ∨ 8 < count ∨ h.selected.sectors ≤ lba ∨ h.selected.sectors - lba < count then return none
  rawRead h.selected.id (add32 lba h.selected.offset) count

def diskWrite (lba : Nat) : StateM Hub Bool := do
  if !(← diskPresent) then return false
  let h ← get
  if h.selected.sectors ≤ lba then return false
  if isUsb h.selected.id then onBus (sectorsCommand .write (add32 lba h.selected.offset) 1) else onBus answer

def diskFlush : StateM Hub Bool := do
  if !(← diskPresent) then return false
  if isUsb (← get).selected.id then onBus storageFlush else onBus answer

/-! ## Selections -/

/-- `selected = next` -/
def choose (next : DiskSelection) : StateM Hub Unit := modify fun h =>
  { h with selected := next, made := (next, (h.bus.media (unitOfUsb next.id)).length) :: h.made }

/-- `select_device` up to the whole device. -/
def findDevice (name : Name) : StateM Hub (Option DiskSelection) := do
  match usbNameUnit name with
  | some unit =>
    if !(← onBus (storageSelect unit)) then return none
    if !(← onBus storageProbe) then return none
    let sectors ← onBus storageSectors
    let generation ← onBus storageGeneration
    return some ⟨usbId unit, 0, sectors, generation⟩
  | none =>
    let h ← get
    let _ ← onBus look
    return (h.others h.bus.clock name).bind fun found => if isUsb found.1 then none else some ⟨found.1, 0, found.2, 0⟩

/-- The first Linux partition of a boot record. -/
def linuxPartition (mbr : Sector) (next : DiskSelection) : Option DiskSelection :=
  if !signed mbr then some next
  else
    match (List.range 4).find? fun i => (partition mbr i).1 == 0x83 with
    | none => none
    | some i =>
      if partitionFits (partition mbr i).2.1 (partition mbr i).2.2 next.sectors then
        some { next with offset := (partition mbr i).2.1, sectors := (partition mbr i).2.2 }
      else none

/-- What `select_device` chooses of a device. -/
def findVolume (raw : Bool) (next : DiskSelection) : StateM Hub (Option DiskSelection) := do
  if raw then return some next
  if next.sectors < 4 then return none
  match ← rawRead next.id 2 1 with
  | some (super :: _) =>
    if super.get 56 = 0x53 ∧ super.get 57 = 0xef then return some next
    match ← rawRead next.id 0 1 with
    | some (mbr :: _) => return linuxPartition mbr next
    | _ => return none
  | _ => return none

/-- `select_device`; true when the device is selected. -/
def selectDevice (name : Name) (raw : Bool) : StateM Hub Bool := do
  match ← findDevice name with
  | none => return false
  | some next =>
    match ← findVolume raw next with
    | none => return false
    | some next =>
      choose next
      return true

/-- The base of the name of a partition, and the number of the partition. -/
def partitionName (name : Name) : Option (Name × Nat) :=
  let n := name.length
  let digit := (name.getD (n - 1) 0).toNat
  if 3 ≤ n ∧ name.getD (n - 2) 0 = 112 ∧ 49 ≤ digit ∧ digit ≤ 52 then some (name.take (n - 2), digit - 49) else none

/-- Partition `i` of the boot record, on a device of `physical` sectors. -/
def entryOf (mbr : Sector) (i physical : Nat) : Option (Nat × Nat) :=
  let entry := partition mbr i
  if !signed mbr || entry.1 == 0 || entry.1 == 0xee || !partitionFits entry.2.1 entry.2.2 physical then none else some entry.2

/-- The second half of `select_named`: the whole device is selected already. -/
def selectPartition (i : Nat) : StateM Hub Bool := do
  match ← diskReadMany 0 1 with
  | some (mbr :: _) =>
    let h ← get
    match entryOf mbr i h.selected.sectors with
    | none => return false
    | some (start, size) =>
      choose { h.selected with offset := start, sectors := size }
      return true
  | _ => return false

/-- `select_named`: the name of a device, or of one of its partitions `p1` to `p4`. -/
def selectNamed (raw : Bool) (name : Name) : StateM Hub Bool := do
  match partitionName name with
  | none => selectDevice name raw
  | some (base, i) =>
    if 32 ≤ base.length then return false
    if !(← selectDevice base true) then return false
    selectPartition i

def diskCommand : (c : DiskCommand) → StateM Hub c.Answer
  | .read lba count => diskReadMany lba count
  | .write lba _ => diskWrite lba
  | .flush => diskFlush

instance : Layer Hub where
  selection h := h.selected
  client h := h.bus.client
  serve v := onBus (modify ({ · with client := v }))
  select := selectNamed
  restore selection := modify ({ · with selected := selection })
  deselect := modify ({ · with selected := noDisk })
  present := diskPresent
  command := diskCommand

/-! ## What moves a bus -/

section
variable {R : Hub → Hub → Prop} [Std.Refl R] [IsTrans Hub R]
  (hbus : ∀ {α : Type} {x : StateM (Bus (Option DiskSelection)) α}, Moves SameClient x → Moves R (onBus x))
include hbus

theorem moves_steady {α : Type} {x : StateM (Bus (Option DiskSelection)) α} (hx : Moves Steady x) : Moves R (onBus x) :=
  hbus (sameClient_of_steady hx)

theorem moves_diskPresent : Moves R diskPresent := by
  refine .bind .get fun h => .ite ?_ (moves_steady hbus steady_answer)
  refine (hbus (sameClient_storageSelect _)).bind fun _ => .ite (.pure _) ?_
  refine (moves_steady hbus steady_storagePresent).bind fun _ => .ite (.pure _) ?_
  exact (moves_steady hbus (steady_of_looks looks_storageGeneration)).bind fun _ => .pure _

theorem moves_rawRead (id lba count : Nat) : Moves R (rawRead id lba count) := by
  have hdata : Moves R (do
      return some (← onBus (sectorData lba count)) : StateM Hub (Option (List Sector))) :=
    (moves_steady hbus (steady_of_looks (looks_look.bind fun _ => .bind .get fun _ => .pure _))).bind fun _ => .pure _
  refine .ite ?_ ((moves_steady hbus steady_answer).bind fun _ => .ite (.pure _) hdata)
  refine (hbus (sameClient_storageSelect _)).bind fun _ => .ite (.pure _) ?_
  exact (moves_steady hbus (steady_sectorsCommand _ _ _)).bind fun _ => .ite (.pure _) hdata

theorem moves_diskReadMany (lba count : Nat) : Moves R (diskReadMany lba count) :=
  (moves_diskPresent hbus).bind fun _ => .ite (.pure _) (.bind .get fun _ => .ite (.pure _) (moves_rawRead hbus _ _ _))

theorem moves_diskCommand (c : DiskCommand) : Moves R (diskCommand c) := by
  cases c with
  | read lba count => exact moves_diskReadMany hbus lba count
  | write lba data =>
    refine (moves_diskPresent hbus).bind fun _ => .ite (.pure _) (.bind .get fun h => .ite (.pure _) ?_)
    exact .ite (moves_steady hbus (steady_sectorsCommand _ _ _)) (moves_steady hbus steady_answer)
  | flush =>
    refine (moves_diskPresent hbus).bind fun _ => .ite (.pure _) (.bind .get fun h => ?_)
    exact .ite (moves_steady hbus steady_storageFlush) (moves_steady hbus steady_answer)

variable (hchoose : ∀ next, Moves R (choose next))
include hchoose

theorem moves_selectDevice (name : Name) (raw : Bool) : Moves R (selectDevice name raw) := by
  have hfind : Moves R (findDevice name) := by
    unfold findDevice
    cases usbNameUnit name with
    | none => exact .bind .get fun _ => (moves_steady hbus (steady_of_looks looks_look)).bind fun _ => .pure _
    | some unit =>
      refine (hbus (sameClient_storageSelect unit)).bind fun _ => .ite (.pure _) ?_
      refine (moves_steady hbus steady_storageProbe).bind fun _ => .ite (.pure _) ?_
      refine (moves_steady hbus (steady_of_looks looks_storageSectors)).bind fun _ => ?_
      exact (moves_steady hbus (steady_of_looks looks_storageGeneration)).bind fun _ => .pure _
  have hvolume : ∀ next, Moves R (findVolume raw next) := by
    intro next
    refine .ite (.pure _) (.ite (.pure _) ((moves_rawRead hbus _ _ _).bind fun first => ?_))
    rcases first with _ | _ | ⟨super, rest⟩
    · exact .pure _
    · exact .pure _
    refine .ite (.pure _) ((moves_rawRead hbus _ _ _).bind fun record => ?_)
    rcases record with _ | _ | ⟨mbr, rest⟩ <;> exact .pure _
  refine hfind.bind fun found => ?_
  cases found with
  | none => exact .pure _
  | some next =>
    refine (hvolume next).bind fun found => ?_
    cases found with
    | none => exact .pure _
    | some other => exact (hchoose other).bind fun _ => .pure _

theorem moves_selectNamed (raw : Bool) (name : Name) : Moves R (selectNamed raw name) := by
  have hpartition : ∀ i, Moves R (selectPartition i) := by
    intro i
    refine (moves_diskReadMany hbus 0 1).bind fun record => ?_
    rcases record with _ | _ | ⟨mbr, rest⟩
    · exact .pure _
    · exact .pure _
    refine .bind .get fun k => ?_
    cases entryOf mbr i k.selected.sectors with
    | none => exact .pure _
    | some entry => exact (hchoose _).bind fun _ => .pure _
  have hdevice := fun name => moves_selectDevice hbus hchoose name
  unfold selectNamed
  cases partitionName name with
  | none => exact hdevice name raw
  | some base => exact .ite (.pure _) ((hdevice base.1 true).bind fun _ => .ite (.pure _) (hpartition base.2))

end

end Hub

end Barnix.Usb
