import Barnix.Ext2.Engine
/-!
# Mounting, and the operations the namespace calls

`engineInit` accepts or rejects the volume on the disk. Every `ext*` operation
starts from an empty cache and unmounts the volume when the cache failed.
-/

namespace Barnix.Ext2

/-- The numbers in a superblock. -/
def geometryOf (sb : Block) : Geometry :=
  let revision := sb.get32 76
  let blocks := sb.get32 4
  let inodeSize := if revision = 0 then 128 else sb.get16 88
  let blocksPerGroup := sb.get32 32
  let inodesPerGroup := sb.get32 40
  let groups := (blocks - 2) / blocksPerGroup + 1
  { blocks, inodeSize, blocksPerGroup, inodesPerGroup, groups
    inodeCount := sb.get32 0
    firstInode := if revision = 0 then 11 else sb.get32 84
    descriptorBlocks := (groups * 32 + blockSize - 1) / blockSize
    tableBlocks := inodesPerGroup * inodeSize / blockSize
    filetype := revision ≠ 0 && sb.get32 96 / 2 % 2 == 1 }

/-- The superblock is one `engine_init` supports, on a disk of `sectors`. -/
def superOk (sb : Block) (sectors : Nat) : Bool :=
  let g := geometryOf sb
  let revision := sb.get32 76
  sb.get16 56 == 0xef53 && revision ≤ 1 && sb.get16 58 == 1 &&
    sb.get32 24 == 0 && sb.get32 28 == 0 && sb.get32 20 == 1 &&
    16 ≤ g.blocks && g.blocks ≤ maxBlocks && g.blocks ≤ sectors / 2 &&
    0 < g.blocksPerGroup && g.blocksPerGroup ≤ 8192 && sb.get32 36 == g.blocksPerGroup &&
    0 < g.inodesPerGroup && g.inodesPerGroup ≤ 8192 &&
    (g.inodeSize == 128 || g.inodeSize == 256) && g.inodesPerGroup * g.inodeSize % blockSize == 0 &&
    11 ≤ g.firstInode && g.firstInode ≤ g.inodeCount &&
    (revision == 0 ||
      (sb.get32 92 == 0 && (sb.get32 96 == 0 || sb.get32 96 == 2) && sb.get32 100 ≤ 3)) &&
    g.groups ≤ maxGroups && g.inodeCount == g.groups * g.inodesPerGroup

namespace Volume

/-- The first block after the superblock and descriptor copies of group `g`. -/
def metadataEnd (v : Volume) (g : Nat) : Nat :=
  v.groupStart g + (if v.backupGroup g then 1 + v.geo.descriptorBlocks else 0)

def groupEnd (v : Volume) (g : Nat) : Nat := v.groupStart g + v.groupSize g

/-- The descriptor of group `g` places its bitmaps and inode table inside the
group, apart from each other and from the superblock and descriptor copies. -/
def descOk (v : Volume) (g : Nat) : Bool :=
  let metadataEnd := v.metadataEnd g
  let stop := v.groupEnd g
  let bitmap := v.desc g 0
  let imap := v.desc g 4
  let table := v.desc g 8
  metadataEnd ≤ stop && metadataEnd ≤ bitmap && bitmap < stop && metadataEnd ≤ imap && imap < stop &&
    bitmap != imap && metadataEnd ≤ table && table < stop && v.geo.tableBlocks ≤ stop - table &&
    !(table ≤ bitmap && bitmap < table + v.geo.tableBlocks) &&
    !(table ≤ imap && imap < table + v.geo.tableBlocks) &&
    v.descriptors.get16 (g * 32 + 12) ≤ v.groupSize g && v.descriptors.get16 (g * 32 + 14) ≤ v.geo.inodesPerGroup

/-- The bitmap of group `g` marks the group's metadata. -/
def mapOk (v : Volume) (g : Nat) (map : Block) : Bool :=
  let first := v.groupStart g
  let table := v.desc g 8
  (List.range (v.metadataEnd g - first)).all (fun i => map.bit i) &&
    map.bit (v.desc g 0 - first) && map.bit (v.desc g 4 - first) &&
    (List.range v.geo.tableBlocks).all fun i => map.bit (table + i - first)

end Volume

/-- Reads the sectors `is` of the descriptor table. -/
def readDescriptors : List Nat → Buf 20480 → StateM Disk (Option (Buf 20480))
  | [], gd => return some gd
  | i :: is, gd => do
    match ← diskRead (4 + i) with
    | none => return none
    | some data => readDescriptors is (gd.blit (i * 512) 512 data 0)

/-- The group loop of `engine_init`. -/
def checkGroups (v : Volume) : List Nat → StateM Disk Bool
  | [] => return true
  | g :: gs => do
    if !v.descOk g then return false
    match ← diskReadMany (v.desc g 0 * 2) 2 with
    | none => return false
    | some map =>
      if !v.mapOk g map then return false
      checkGroups v gs

/-- The free counts of the groups, summed. -/
def freeSum (v : Volume) (k : Nat) : Nat :=
  ((List.range v.geo.groups).map fun g => v.descriptors.get16 (g * 32 + k)).sum

/-- The reserved inodes are marked in the first inode bitmap; bits past its end are read
from the memory behind it. -/
def reservedMarked (map : Block) (behind : Nat → Bool) (firstInode : Nat) : Bool :=
  (List.range (firstInode - 1)).all fun i => if i < 8192 then map.bit i else behind i

/-- The root directory is supported and is its own parent. -/
def rootOk : Prog Bool := do
  if !(← supported (← inode rootIno) dirMode) then return false
  match ← lookup rootIno dot with
  | .entry n _ =>
    if n ≠ rootIno then return false
    match ← lookup rootIno dotdot with
    | .entry p _ => return p == rootIno && !(← cacheError)
    | _ => return false
  | _ => return false

/-- The part of `engine_init` that reads through the cache. -/
def checkRoot (v : Volume) (behind : Nat → Bool) : Prog Bool := do
  let map ← load (← block (v.desc 0 4)) blockSize
  if !reservedMarked map behind v.geo.firstInode then return false
  rootOk

/-- `engine_init`: true when the volume is mounted. What a rejected volume
leaves in the loaded metadata is not used before the next `engine_init`. -/
def engineInit : StateM Ext Bool := do
  modify ({ · with mounted := false })
  match ← onDisk (diskRead 2) with
  | none => return false
  | some low =>
    match ← onDisk (diskRead 3) with
    | none => return false
    | some high =>
      let sb : Block := fun i => if i.val < 512 then low.get i.val else high.get (i.val - 512)
      if !superOk sb (← get).disk.size then return false
      let geo := geometryOf sb
      match ← onDisk (readDescriptors (List.range (geo.descriptorBlocks * 2)) (fun _ => 0)) with
      | none => return false
      | some gd =>
        let v : Volume := ⟨geo, sb, gd⟩
        modify ({ · with vol := v })
        if !(← onDisk (checkGroups v (List.range geo.groups))) then return false
        if sb.get32 12 ≠ freeSum v 12 ∨ sb.get32 16 ≠ freeSum v 14 then return false
        if !(← perform (checkRoot v (← get).behind)) then return false
        modify ({ · with hintBlock := 0, hintInode := 0, cwd := rootIno, mounted := true })
        return true

/-! ## Listings on the screen -/

/-- The record loop of `engine_ls` over one block: what it prints, and whether it goes on. -/
def lsBlock (base : Ptr) : Nat → Nat → List (Name × Bool) → Prog (List (Name × Bool) × Bool)
  | 0, _, out => return (out, true)
  | rounds + 1, off, out => do
    if blockSize ≤ off then return (out, true)
    let e := base.add off
    if !(← record e (blockSize - off)) then return (out, false)
    if ← isHidden e then lsBlock base rounds (off + (← rd16 e 4)) out
    else
      let name ← nameBytes e (← nameLength e)
      let dir ← match ← inode (← rd32 e 0) with
        | none => pure false
        | some child => do pure ((← kind child) == dirMode)
      lsBlock base rounds (off + (← rd16 e 4)) (out ++ [(name, dir)])
where
  /-- A dead record, or one of `.` and `..`. -/
  isHidden (e : Ptr) : Prog Bool := return (← isOther e).isNone

def lsBlocks (node : Ptr) : List Nat → List (Name × Bool) → Prog (List (Name × Bool))
  | [], out => return out
  | i :: is, out => do
    let (out, more) ← lsBlock (← block (← rd32 node (40 + i * 4))) 129 0 out
    if more then lsBlocks node is out else return out

/-- `engine_ls`, of a ready engine: the names it prints, and which are directories. -/
def ls : Prog (List (Name × Bool)) := do
  match ← inode (← workingDir) with
  | none => return []
  | some node =>
    if !(← supportedNode node dirMode) then return []
    lsBlocks node (List.range ((← rd32 node 4) / blockSize)) []

/-- The descent of `engine_pwd`: what it has printed when it ends. -/
def printPath : Nat → List Nat → Name → Prog Name
  | _, [], out => return out
  | n, child :: path, out => do
    match ← inode n with
    | none => return out
    | some node =>
      if !(← supportedNode node dirMode) then return out
      match ← scanDir node (.error (-5)) (isChild child) with
      | none => return out
      | some (.error _) => return out
      | some (.ok name) => printPath child path (out ++ name ++ if path = [] then [] else [slash])

/-- `engine_pwd`, of a ready engine. -/
def pwd : Prog Name := do
  match ← climb 64 (← workingDir) [] with
  | .error _ => return []
  | .ok path => printPath rootIno path [slash]

/-- The loop of `engine_cat`. -/
def catLoop (name : Name) (size : Nat) : Nat → Nat → List UInt8 → StateM Ext (List UInt8)
  | 0, _, out => return out
  | rounds + 1, offset, out => do
    if size ≤ offset then return out
    match ← engineRead name offset 256 with
    | none => return out
    | some bytes => if bytes = [] then return out else catLoop name size rounds (offset + bytes.length) (out ++ bytes)

def engineCat (name : Name) : StateM Ext (List UInt8) := do
  let size ← engineSize name
  catLoop name size.toNat size.toNat 0 []

def engineLs : StateM Ext (List (Name × Bool)) := whenReady [] ls
def enginePwd : StateM Ext Name := whenReady [] pwd

/-! ## The public operations -/

/-- A public operation: empty cache, engine, cache check. A failed cache unmounts the
volume. -/
def ext {α : Type} (bad : α) (x : StateM Ext α) : StateM Ext α := do
  cacheReset
  let result ← x
  if (← get).cacheError then
    modify ({ · with mounted := false })
    return bad
  return result

def extInit : StateM Ext Bool := ext false engineInit

/-- The mutating operations and their arguments. -/
inductive Op where
  | touch (name : Name)
  | mkdir (name : Name)
  | write (name : Name) (data : Nat → UInt8) (size : Int)
  | append (name : Name) (data : Nat → UInt8) (size : Int)
  | cp (source destination : Name)
  | mv (source destination : Name)
  | rm (name : Name)
  | rmdir (name : Name)

/-- The engine's side of an operation. -/
def Op.engine : Op → StateM Ext Int
  | .touch name => engineTouch name
  | .mkdir name => engineMkdir name
  | .write name data size => engineWrite name data size
  | .append name data size => engineAppend name data size
  | .cp source destination => engineCp source destination
  | .mv source destination => engineMv source destination
  | .rm name => engineRm name
  | .rmdir name => engineRmdir name

/-- `ext_touch`, `ext_mkdir`, `ext_write`, `ext_append`, `ext_cp`, `ext_mv`,
`ext_rm` and `ext_rmdir`. -/
def Op.run (op : Op) : StateM Ext Int := ext (-1) op.engine

def extSize (name : Name) : StateM Ext Int := ext (-1) (engineSize name)
def extExecCheck (name : Name) : StateM Ext Int := ext (-1) (engineExecCheck name)
def extRead (name : Name) (offset size : Nat) : StateM Ext (Option (List UInt8)) := ext none (engineRead name offset size)
def extStat (name : Name) : StateM Ext (Option (Nat × Nat)) := ext none (engineStat name)
def extIsDir (name : Name) : StateM Ext Bool := ext false (engineIsDir name)
def extGetdents (name : Name) (capacity position : Nat) : StateM Ext (Int × List UInt8 × Nat) :=
  ext (-1, [], position) (engineGetdents name capacity position)
def extGetcwd (capacity : Nat) : StateM Ext (Except Int Name) := ext (.error (-1)) (engineGetcwd capacity)
def extCd (name : Name) : StateM Ext Int := ext (-1) (engineCd name)
def extSync : StateM Ext Int := ext (-1) engineSync
def extLs : StateM Ext (List (Name × Bool)) := ext [] engineLs
def extCat (name : Name) : StateM Ext (List UInt8) := ext [] (engineCat name)
def extPwd : StateM Ext Name := ext [] enginePwd

end Barnix.Ext2
