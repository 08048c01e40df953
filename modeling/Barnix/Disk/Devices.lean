import Barnix.Lib.Bytes
import Barnix.Vfs.Namespace
/-!
# The disk layer

`disk.c`: four kinds of devices behind one selected range of sectors. A device
is an array of sectors whose commands may fail; the layer finds it by name,
finds a partition in its boot record, and moves every access by the offset of
the selection.
-/

namespace Barnix.Disk

open Vfs (DiskSelection noDisk)

abbrev Sector := Buf 512

/-- Where a device is attached. -/
inductive Bay where
  | ram
  | ata (unit : Nat)
  | usb (unit : Nat)
  | pci (index : Nat)
deriving DecidableEq

/-- An array of sectors. `lba48` is a word of an ATA drive's identity,
`generation` counts the sticks seen in a USB port, `readonly` is a flag of PCI
devices. -/
structure Device where
  capacity : Nat
  lba48 : Bool
  generation : Nat
  readonly : Bool
  sectors : Nat → Sector

/-- The devices and the layer's static data. `faults` says which commands fail,
counted by `clock`; `trace` is every sector that was read or written. -/
structure Disks where
  device : Bay → Option Device
  usbPort : Nat → Bool
  pciNames : List Name
  ataCapacity : Nat → Nat
  ataLba48 : Nat → Bool
  ataUnit : Nat
  usbUnit : Nat
  selected : DiskSelection
  faults : Nat → Bool
  clock : Nat
  trace : List (Bay × Nat)

def word : Nat := 2 ^ 32

/-- Unsigned 32-bit addition. -/
def add32 (a b : Nat) : Nat := (a + b) % word

/-! ## Commands -/

def sectorsOf (d : Device) (lba count : Nat) : List Sector := (List.range count).map fun i => d.sectors (lba + i)

def touched (b : Bay) (lba count : Nat) : List (Bay × Nat) := (List.range count).map fun i => (b, lba + i)

/-- A read command for sectors the device has. -/
def readSectors (b : Bay) (lba count : Nat) : StateM Disks (Option (List Sector)) := modifyGet fun s =>
  match s.device b with
  | none => (none, s)
  | some d =>
    if d.capacity < lba + count then (none, s)
    else
      let t := { s with clock := s.clock + 1, trace := s.trace ++ touched b lba count }
      (if s.faults s.clock then none else some (sectorsOf d lba count), t)

/-- `d` with another sector. -/
def Device.put (d : Device) (lba : Nat) (data : Sector) : Device := { d with sectors := Function.update d.sectors lba data }

/-- A write command for a sector the device has. -/
def writeSector (b : Bay) (lba : Nat) (data : Sector) : StateM Disks Bool := modifyGet fun s =>
  match s.device b with
  | none => (false, s)
  | some d =>
    if d.capacity ≤ lba then (false, s)
    else
      let t := { s with clock := s.clock + 1, trace := s.trace ++ [(b, lba)] }
      if s.faults s.clock then (false, t) else (true, { t with device := Function.update s.device b (some (d.put lba data)) })

/-! ## ATA -/

def isAta (id : Nat) : Bool := id == 2 || (4 ≤ id && id ≤ 6)
def ataId (unit : Nat) : Nat := if unit ≠ 0 then unit + 3 else 2
def unitOfAta (id : Nat) : Nat := if id = 2 then 0 else id - 3
def ataUse (id : Nat) : StateM Disks Unit := modify ({ · with ataUnit := unitOfAta id })

/-- `ata_identify` of the current unit; true when there is a drive. -/
def ataIdentify : StateM Disks Bool := modifyGet fun s =>
  let t := { s with ataCapacity := Function.update s.ataCapacity s.ataUnit 0, clock := s.clock + 1 }
  match s.device (.ata s.ataUnit) with
  | none => (false, t)
  | some d =>
    if s.faults s.clock then (false, t)
    else (d.capacity != 0, { t with
      ataCapacity := Function.update s.ataCapacity s.ataUnit d.capacity
      ataLba48 := Function.update s.ataLba48 s.ataUnit d.lba48 })

/-- `ata_prepare_lba` and the check before it. -/
def ataReaches (s : Disks) (lba : Nat) : Bool :=
  lba < s.ataCapacity s.ataUnit && (s.ataLba48 s.ataUnit || lba < 2 ^ 28)

def ataRead (lba : Nat) : StateM Disks (Option Sector) := do
  let s ← get
  if !ataReaches s lba then return none
  match ← readSectors (.ata s.ataUnit) lba 1 with
  | some [data] => return some data
  | _ => return none

def ataWrite (lba : Nat) (data : Sector) : StateM Disks Bool := do
  let s ← get
  if !ataReaches s lba then return false
  writeSector (.ata s.ataUnit) lba data

/-- The loop of `raw_read`: the sectors from `lba` on, one by one. -/
def ataReadLoop (lba : Nat) : List Nat → StateM Disks (Option (List Sector))
  | [] => return some []
  | i :: rest => do
    match ← ataRead (add32 lba i) with
    | none => return none
    | some data =>
      match ← ataReadLoop lba rest with
      | none => return none
      | some more => return some (data :: more)

/-! ## USB -/

/-- `USB_STORAGE_MAX` -/
def usbMax : Nat := 48

def isUsb (id : Nat) : Bool := id == 3 || (8 ≤ id && id < 8 + usbMax - 1)
def usbId (unit : Nat) : Nat := if unit ≠ 0 then 7 + unit else 3
def unitOfUsb (id : Nat) : Nat := if id = 3 then 0 else id - 7

/-- The name `usbN`. -/
def usbName (unit : Nat) : Name :=
  [117, 115, 98] ++ (if unit < 10 then [UInt8.ofNat (48 + unit)]
    else [UInt8.ofNat (48 + unit / 10), UInt8.ofNat (48 + unit % 10)])

def usbNameUnit (name : Name) : Option Nat := (List.range usbMax).find? fun i => name == usbName i

def usbSelect (unit : Nat) : StateM Disks Bool := modifyGet fun s =>
  if unit < usbMax ∧ s.usbPort unit then (true, { s with usbUnit := unit }) else (false, s)

/-- The stick in the current port. -/
def usbDevice (s : Disks) : Option Device := s.device (.usb s.usbUnit)

def usbRead (lba count : Nat) : StateM Disks (Option (List Sector)) := do
  let s ← get
  match usbDevice s with
  | none => return none
  | some d =>
    if count = 0 ∨ 8 < count ∨ d.capacity ≤ lba ∨ d.capacity - lba < count then return none
    readSectors (.usb s.usbUnit) lba count

def usbWrite (lba : Nat) (data : Sector) : StateM Disks Bool := do
  let s ← get
  match usbDevice s with
  | none => return false
  | some d =>
    if d.capacity ≤ lba then return false
    writeSector (.usb s.usbUnit) lba data

/-! ## PCI -/

def pciBase : Nat := 64

def pciPresent (s : Disks) (index : Nat) : Bool := index < s.pciNames.length && (s.device (.pci index)).isSome

def pciRead (index lba count : Nat) : StateM Disks (Option (List Sector)) := do
  let s ← get
  if !pciPresent s index || count == 0 || 8 < count then return none
  readSectors (.pci index) lba count

def pciWrite (index lba : Nat) (data : Sector) : StateM Disks Bool := do
  let s ← get
  if !pciPresent s index then return false
  match s.device (.pci index) with
  | none => return false
  | some d => if d.readonly then return false else writeSector (.pci index) lba data

/-! ## RAM -/

/-- `DISK_SECTORS` -/
def ramSectors : Nat := 4096

/-- The RAM disk is copied and never fails. -/
def ramRead (lba count : Nat) : StateM Disks (Option (List Sector)) := modifyGet fun s =>
  match s.device .ram with
  | none => (none, s)
  | some d => (some (sectorsOf d lba count), { s with trace := s.trace ++ touched .ram lba count })

def ramWrite (lba : Nat) (data : Sector) : StateM Disks Bool := modifyGet fun s =>
  match s.device .ram with
  | none => (false, s)
  | some d =>
    (true, { s with device := Function.update s.device .ram (some (d.put lba data)), trace := s.trace ++ [(.ram, lba)] })

/-! ## Selecting -/

def rawRead (id lba count : Nat) : StateM Disks (Option (List Sector)) := do
  if pciBase ≤ id then pciRead (id - pciBase) lba count
  else if isUsb id then
    if !(← usbSelect (unitOfUsb id)) then return none
    usbRead lba count
  else if isAta id then
    ataUse id
    ataReadLoop lba (List.range count)
  else if id = 1 ∧ ((← get).device .ram).isSome ∧ lba < ramSectors ∧ count ≤ ramSectors - lba then ramRead lba count
  else return none

def diskPresent : StateM Disks Bool := do
  let id := (← get).selected.id
  if pciBase ≤ id then return pciPresent (← get) (id - pciBase)
  if isAta id then
    ataUse id
    let s ← get
    return s.ataCapacity s.ataUnit != 0
  if isUsb id then
    if !(← usbSelect (unitOfUsb id)) then return false
    let s ← get
    return match usbDevice s with
      | none => false
      | some d => s.selected.generation == d.generation
  return id == 1 && ((← get).device .ram).isSome

def diskReadMany (lba count : Nat) : StateM Disks (Option (List Sector)) := do
  if !(← diskPresent) then return none
  let s ← get
  if count = 0 ∨ 8 < count ∨ s.selected.sectors ≤ lba ∨ s.selected.sectors - lba < count then return none
  rawRead s.selected.id (add32 lba s.selected.offset) count

def diskRead (lba : Nat) : StateM Disks (Option Sector) := return (← diskReadMany lba 1).bind (·.head?)

def diskWrite (lba : Nat) (data : Sector) : StateM Disks Bool := do
  if !(← diskPresent) then return false
  let s ← get
  if s.selected.sectors ≤ lba then return false
  if pciBase ≤ s.selected.id then pciWrite (s.selected.id - pciBase) (add32 lba s.selected.offset) data
  else if isUsb s.selected.id then usbWrite (add32 lba s.selected.offset) data
  else if isAta s.selected.id then ataWrite (add32 lba s.selected.offset) data
  -- the offset of the selection is not added here
  else ramWrite lba data

/-- `select_device` up to the whole device. -/
def findDevice (name : Name) : StateM Disks (Option DiskSelection) := do
  match usbNameUnit name with
  | some unit =>
    if !(← usbSelect unit) then return none
    return (usbDevice (← get)).map fun d => ⟨usbId unit, 0, d.capacity, d.generation⟩
  | none =>
    if name = [97, 116, 97, 48] ∨ ∃ n : Fin 4, name = [100, 105, 115, 107, UInt8.ofNat (49 + n)] then
      let unit := if name.head? = some 97 then 0 else (name.getD 4 0).toNat - 49
      modify ({ · with ataUnit := unit })
      if !(← ataIdentify) then return none
      let s ← get
      return some ⟨ataId unit, 0, min (s.ataCapacity unit) (word - 1), 0⟩
    else
      let s ← get
      if name = [114, 97, 109, 48] ∧ (s.device .ram).isSome then return some ⟨1, 0, ramSectors, 0⟩
      return ((List.range s.pciNames.length).find? fun i => s.pciNames.getD i [] == name && pciPresent s i).bind fun i =>
        (s.device (.pci i)).map fun d => ⟨pciBase + i, 0, min d.capacity (word - 1), 0⟩

/-- The type, start and size of an entry of a boot record. -/
def partition (mbr : Sector) (i : Nat) : Nat × Nat × Nat :=
  ((mbr.get (446 + i * 16 + 4)).toNat, mbr.get32 (446 + i * 16 + 8), mbr.get32 (446 + i * 16 + 12))

def signed (mbr : Sector) : Bool := mbr.get 510 == 0x55 && mbr.get 511 == 0xaa

/-- A partition inside a device of `physical` sectors. -/
def partitionFits (start size physical : Nat) : Bool :=
  !(start == 0 || size == 0 || physical ≤ start || physical - start < size)

/-- `select_device`; true when the device is selected. -/
def selectDevice (name : Name) (raw : Bool) : StateM Disks Bool := do
  match ← findDevice name with
  | none => return false
  | some next =>
    if raw then
      modify ({ · with selected := next })
      return true
    if next.sectors < 4 then return false
    match ← rawRead next.id 2 1 with
    | some [sb] =>
      if sb.get 56 = 0x53 ∧ sb.get 57 = 0xef then
        modify ({ · with selected := next })
        return true
      match ← rawRead next.id 0 1 with
      | some [mbr] =>
        if !signed mbr then
          modify ({ · with selected := next })
          return true
        match (List.range 4).find? fun i => (partition mbr i).1 == 0x83 with
        | none => return false
        | some i =>
          let (_, start, size) := partition mbr i
          if !partitionFits start size next.sectors then return false
          modify ({ · with selected := { next with offset := start, sectors := size } })
          return true
      | _ => return false
    | _ => return false

/-- `select_named`: the name of a device, or of one of its partitions `p1` to `p4`. -/
def selectNamed (name : Name) (raw : Bool) : StateM Disks Bool := do
  let n := name.length
  let digit := (name.getD (n - 1) 0).toNat
  if 3 ≤ n ∧ name.getD (n - 2) 0 = 112 ∧ 49 ≤ digit ∧ digit ≤ 52 then
    if 32 ≤ n - 2 then return false
    if !(← selectDevice (name.take (n - 2)) true) then return false
    match ← diskRead 0 with
    | none => return false
    | some mbr =>
      if !signed mbr then return false
      let s ← get
      let (kind, start, size) := partition mbr (digit - 49)
      if kind = 0 ∨ kind = 0xee ∨ !partitionFits start size s.selected.sectors then return false
      modify fun s => { s with selected := { s.selected with offset := start, sectors := size } }
      return true
  else selectDevice name raw

def diskSelect (name : Name) : StateM Disks Bool := selectNamed name false
def diskSelectRaw (name : Name) : StateM Disks Bool := selectNamed name true

def diskRestore (selection : DiskSelection) : StateM Disks Unit := modify fun s =>
  { s with selected := selection, ataUnit := if isAta selection.id then unitOfAta selection.id else s.ataUnit }

def diskDeselect : StateM Disks Unit := modify ({ · with selected := noDisk })

end Barnix.Disk
