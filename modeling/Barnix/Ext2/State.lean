import Barnix.Lib.Bytes
import Barnix.Lib.Clients
/-!
# The ext2 engine's state

The disk the engine sees (the selected volume, an array of 512-byte sectors
whose commands may fail), the loaded superblock and group descriptors with
the geometry read from them, and the block cache of one public operation.

What the engine does between two accesses to this state is a program of
commands: it asks the cache for a block, reads and changes bytes of cached
blocks, reads the loaded metadata and changes its counters.
-/

namespace Barnix.Ext2

/-! ## The disk -/

abbrev Sector := Buf 512
abbrev Block := Buf 1024

/-- A command the disk was given: a write it was asked to do, or a flush it
completed. -/
inductive Event where
  | write (lba : Nat) (data : Sector)
  | flush

/-- The selected volume. `faults` says which commands the device fails,
counted by `clock`; `log` is every write and every completed flush so far. -/
structure Disk where
  sectors : Nat → Sector
  size : Nat
  present : Bool
  faults : Nat → Bool
  clock : Nat
  log : List Event

/-- `disk_read_many`: at most 8 sectors from `lba` on, inside the volume. -/
def diskReadMany (lba count : Nat) : StateM Disk (Option (Buf (count * 512))) := modifyGet fun d =>
  if !d.present || count == 0 || 8 < count || d.size ≤ lba || d.size - lba < count then (none, d)
  else (if d.faults d.clock then none else some fun i => (d.sectors (lba + i.val / 512)).get (i.val % 512),
    { d with clock := d.clock + 1 })

def diskRead (lba : Nat) : StateM Disk (Option Sector) := diskReadMany lba 1

/-- `disk_write`; true when it succeeds. -/
def diskWrite (lba : Nat) (data : Sector) : StateM Disk Bool := modifyGet fun d =>
  if !d.present || d.size ≤ lba then (false, d)
  else if d.faults d.clock then (false, { d with clock := d.clock + 1, log := d.log ++ [.write lba data] })
  else (true, { d with
    sectors := fun l => if l = lba then data else d.sectors l
    clock := d.clock + 1, log := d.log ++ [.write lba data] })

/-- `disk_flush`; true when it succeeds. -/
def diskFlush : StateM Disk Bool := modifyGet fun d =>
  if !d.present then (false, d)
  else if d.faults d.clock then (false, { d with clock := d.clock + 1 })
  else (true, { d with clock := d.clock + 1, log := d.log ++ [.flush] })

/-- Block `n` of the volume, as stored. -/
def Disk.block (d : Disk) (n : Nat) : Block := fun i => (d.sectors (n * 2 + i.val / 512)).get (i.val % 512)

/-! ## The volume -/

/-- The numbers `engine_init` reads from the superblock. -/
structure Geometry where
  blocks : Nat
  inodeCount : Nat
  inodeSize : Nat
  firstInode : Nat
  groups : Nat
  blocksPerGroup : Nat
  inodesPerGroup : Nat
  descriptorBlocks : Nat
  tableBlocks : Nat
  filetype : Bool

/-- The loaded superblock and group descriptors (`MAX_GROUPS * 32` bytes). -/
structure Volume where
  geo : Geometry
  superblock : Block
  descriptors : Buf 20480

def blockSize : Nat := 1024
def maxBlocks : Nat := 5 * 1024 * 1024
def maxGroups : Nat := 640
def cacheBlocks : Nat := 2048
def rootIno : Nat := 2
def fileMode : Nat := 0x8000
def dirMode : Nat := 0x4000
def maxFile : Nat := (12 + 256) * 1024

/-- `power_of` with the loop's remaining rounds: dividing by `base ≥ 2` ends
within `n` rounds. -/
def powerOfLoop (base : Nat) : Nat → Nat → Bool
  | 0, n => n == 1
  | rounds + 1, n => if 1 < n ∧ n % base = 0 then powerOfLoop base rounds (n / base) else n == 1

def powerOf (n base : Nat) : Bool := powerOfLoop base n n

namespace Volume

/-- A word of the descriptor of group `g`. -/
def desc (v : Volume) (g k : Nat) : Nat := v.descriptors.get32 (g * 32 + k)

def backupGroup (v : Volume) (g : Nat) : Bool :=
  v.superblock.get32 100 % 2 == 0 || g == 0 || g == 1 || powerOf g 3 || powerOf g 5 || powerOf g 7

def groupStart (v : Volume) (g : Nat) : Nat := 1 + g * v.geo.blocksPerGroup

def groupSize (v : Volume) (g : Nat) : Nat :=
  let remaining := v.geo.blocks - v.groupStart g
  if remaining < v.geo.blocksPerGroup then remaining else v.geo.blocksPerGroup

def dataBlock (v : Volume) (b : Nat) : Bool :=
  if b = 0 ∨ v.geo.blocks ≤ b then false
  else
    let g := (b - 1) / v.geo.blocksPerGroup
    let table := v.desc g 8
    !(v.backupGroup g && b < v.groupStart g + 1 + v.geo.descriptorBlocks) &&
      b != v.desc g 0 && b != v.desc g 4 && !(table ≤ b && b < table + v.geo.tableBlocks)

/-- `record`: the directory record at `off` fits the `remaining` bytes. -/
def record (v : Volume) (blk : Block) (off remaining : Nat) : Bool :=
  if remaining < 8 then false
  else
    let length := blk.get16 (off + 4)
    let names := (blk.get (off + 6)).toNat
    8 ≤ length && length % 4 == 0 && length ≤ remaining && names ≤ length - 8 &&
      (v.geo.filetype || blk.get (off + 7) == 0) && blk.get32 off ≤ v.geo.inodeCount

end Volume

/-! ## The cache -/

/-- Why `cache_error` was set. -/
inductive CacheFault where
  | range
  | full
  | device
deriving DecidableEq

structure Slot where
  block : Nat
  data : Block
  before : Block

/-- A byte address: in the cached copy of a block, or in `failed_block`. -/
structure Ptr where
  block : Option Nat
  off : Nat
deriving DecidableEq

def Ptr.add (p : Ptr) (k : Nat) : Ptr := ⟨p.block, p.off + k⟩

@[simp] theorem Ptr.add_block (p : Ptr) (k : Nat) : (p.add k).block = p.block := rfl

@[simp] theorem Ptr.add_off (p : Ptr) (k : Nat) : (p.add k).off = p.off + k := rfl

/-- The engine's static data. `cache_error` is `faults ≠ []`; `behind` are the bits in
memory behind the data of the first cache slot. -/
structure Ext where
  disk : Disk
  vol : Volume
  cache : List Slot
  faults : List CacheFault
  failedBlock : Block
  cwd : Nat
  mounted : Bool
  hintBlock : Nat
  hintInode : Nat
  savedSuper : Block
  savedDescriptors : Buf 20480
  behind : Nat → Bool

namespace Ext

def cached (s : Ext) (n : Nat) : Option Slot := s.cache.find? (·.block == n)

/-- Block `n` as the operation sees it: the cached copy, else the disk. -/
def mem (s : Ext) (n : Nat) : Block := ((s.cached n).map (·.data)).getD (s.disk.block n)

def cacheError (s : Ext) : Bool := !s.faults.isEmpty

def fail (s : Ext) (f : CacheFault) : Ext := { s with faults := f :: s.faults, failedBlock := fun _ => 0 }

/-- The buffer `p` points into. -/
def buf (s : Ext) (p : Ptr) : Block :=
  match p.block with
  | none => s.failedBlock
  | some n => s.mem n

/-- Changes the buffer `p` points into. Pointers come from `block` and stay valid until
the cache is reset, so the slot is there; it would be made if it were not. -/
def change (s : Ext) (p : Ptr) (f : Block → Block) : Ext :=
  match p.block with
  | none => { s with failedBlock := f s.failedBlock }
  | some n => { s with
    cache := if (s.cached n).isSome then s.cache.map fun e => if e.block = n then { e with data := f e.data } else e
      else s.cache ++ [⟨n, f (s.disk.block n), s.disk.block n⟩] }

end Ext

def onDisk {α : Type} (x : StateM Disk α) : StateM Ext α := zoom Ext.disk (fun d s => { s with disk := d }) x

def cacheReset : StateM Ext Unit := modify fun s => { s with cache := [], faults := [] }

/-- `block`: the cached copy of block `n`, loading it through `failed_block` if it is
not cached. -/
def cacheBlock (n : Nat) : StateM Ext Ptr := do
  let s ← get
  if (s.cached n).isSome then return ⟨some n, 0⟩
  if s.vol.geo.blocks ≤ n then
    modify (·.fail .range)
    return ⟨none, 0⟩
  if s.cache.length = cacheBlocks then
    modify (·.fail .full)
    return ⟨none, 0⟩
  match ← onDisk (diskReadMany (n * 2) 2) with
  | none =>
    modify (·.fail .device)
    return ⟨none, 0⟩
  | some data =>
    modify fun s => { s with cache := s.cache ++ [⟨n, data, data⟩], failedBlock := data }
    return ⟨some n, 0⟩

/-! ## Programs -/

/-- What the bytes that a store changes are: parts of bitmaps, inodes and block pointers,
or file contents and directory records. -/
inductive Use where
  | metadata
  | content
deriving DecidableEq

/-- The commands of the engine's programs. `load` and `store` are about `len` bytes,
`putSuper` and `putDesc` about a counter of the loaded metadata, `null` is the use of a
NULL pointer. -/
inductive Cmd where
  | block (n : Nat)
  | load (p : Ptr) (len : Nat)
  | store (use : Use) (p : Ptr) (len : Nat) (f : Buf len → Buf len)
  | volume
  | putSuper (k v : Nat)
  | putDesc (k v : Nat)
  | cwd
  | chdir (n : Nat)
  | cacheError
  | hint (isInode : Bool)
  | setHint (isInode : Bool) (g : Nat)
  | null

def Cmd.Answer : Cmd → Type
  | block _ => Ptr
  | load _ len => Buf len
  | volume => Volume
  | cwd => Nat
  | cacheError => Bool
  | hint _ => Nat
  | store _ _ _ _ | putSuper _ _ | putDesc _ _ | chdir _ | setHint _ _ | null => Unit

abbrev Prog := Client Cmd Cmd.Answer

/-- What the engine does on a command. -/
def serve : (c : Cmd) → StateM Ext c.Answer
  | .block n => cacheBlock n
  | .load p len => return ((← get).buf p).window p.off len
  | .store _ p len f => modify fun s => s.change p fun b => b.edit p.off len f
  | .volume => return (← get).vol
  | .putSuper k v => modify fun s => { s with vol := { s.vol with superblock := s.vol.superblock.put32 k v } }
  | .putDesc k v => modify fun s => { s with vol := { s.vol with descriptors := s.vol.descriptors.put16 k v } }
  | .cwd => return (← get).cwd
  | .chdir n => modify ({ · with cwd := n })
  | .cacheError => return (← get).cacheError
  | .hint isInode => do
    let s ← get
    return if isInode then s.hintInode else s.hintBlock
  | .setHint isInode g => modify fun s => if isInode then { s with hintInode := g } else { s with hintBlock := g }
  | .null => pure ()

def perform {α : Type} (x : Prog α) : StateM Ext α := x.run serve

/-! ## Commands -/

def block (n : Nat) : Prog Ptr := Client.give (Cmd.block n)
def load (p : Ptr) (len : Nat) : Prog (Buf len) := Client.give (Cmd.load p len)
def store (use : Use) (p : Ptr) (len : Nat) (f : Buf len → Buf len) : Prog Unit := Client.give (Cmd.store use p len f)
def volume : Prog Volume := Client.give Cmd.volume
def putSuper (k v : Nat) : Prog Unit := Client.give (Cmd.putSuper k v)
def putDesc (k v : Nat) : Prog Unit := Client.give (Cmd.putDesc k v)
def workingDir : Prog Nat := Client.give Cmd.cwd
def chdir (n : Nat) : Prog Unit := Client.give (Cmd.chdir n)
def cacheError : Prog Bool := Client.give Cmd.cacheError
def hint (isInode : Bool) : Prog Nat := Client.give (Cmd.hint isInode)
def setHint (isInode : Bool) (g : Nat) : Prog Unit := Client.give (Cmd.setHint isInode g)
def null : Prog Unit := Client.give Cmd.null

def rd16 (p : Ptr) (k : Nat) : Prog Nat := return (← load (p.add k) 2).get16 0
def rd32 (p : Ptr) (k : Nat) : Prog Nat := return (← load (p.add k) 4).get32 0
def wr16 (use : Use) (p : Ptr) (k v : Nat) : Prog Unit := store use (p.add k) 2 (·.put16 0 v)
def wr32 (use : Use) (p : Ptr) (k v : Nat) : Prog Unit := store use (p.add k) 4 (·.put32 0 v)
def bit (p : Ptr) (k : Nat) : Prog Bool := return (← load (p.add (k / 8)) 1).bit (k % 8)
def setbit (p : Ptr) (k : Nat) (used : Bool) : Prog Unit := store .metadata (p.add (k / 8)) 1 (·.setbit (k % 8) used)

/-- A pointer that is used without a check. -/
def deref : Option Ptr → Prog Ptr
  | some p => return p
  | none => do
    null
    return ⟨none, 0⟩

end Barnix.Ext2
