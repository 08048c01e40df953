import Barnix.Path
import Barnix.Ext2.State
/-!
# Inodes, directories and paths

The read side of the engine: finding an inode, checking that it is one this
implementation supports, walking directory records and resolving paths.
-/

namespace Barnix.Ext2

/-- `inode`: the address of inode `n`, NULL when it is out of range or free. -/
def inode (n : Nat) : Prog (Option Ptr) := do
  let v ← volume
  if n = 0 ∨ v.geo.inodeCount < n then return none
  let g := (n - 1) / v.geo.inodesPerGroup
  let index := (n - 1) % v.geo.inodesPerGroup
  if !(← bit (← block (v.desc g 4)) index) then return none
  let offset := index * v.geo.inodeSize
  return some ((← block (v.desc g 8 + offset / blockSize)).add (offset % blockSize))

/-- `kind`: the file type bits of a mode word. -/
def kindOf (mode : Nat) : Nat := mode &&& 0xF000

def kind (node : Ptr) : Prog Nat := return kindOf (← rd16 node 0)

/-- Files use 12 direct pointers and one singly indirect block. -/
def fileBlock (node : Ptr) (index : Nat) : Prog Nat := do
  if index < 12 then return ← rd32 node (40 + index * 4)
  let indirect ← rd32 node 88
  if indirect = 0 then return 0
  rd32 (← block indirect) ((index - 12) * 4)

/-- `mark_block`: `b` is a data block in use that is not among `seen`. -/
def markBlock (seen : List Nat) (b : Nat) : Prog Bool := do
  let v ← volume
  if !v.dataBlock b then return false
  let g := (b - 1) / v.geo.blocksPerGroup
  if !(← bit (← block (v.desc g 0)) (b - v.groupStart g)) then return false
  if seen.contains b then return false
  return !(← cacheError)

/-- The loop of `supported` over the block indices `is`; the blocks seen, or
`none` where it returns 0. -/
def supportedBlocks (node : Ptr) (type size : Nat) : List Nat → List Nat → Prog (Option (List Nat))
  | [], seen => return some seen
  | i :: is, seen => do
    let b ← fileBlock node i
    if b = 0 then
      if type = dirMode ∧ i < size / blockSize then return none
      supportedBlocks node type size is seen
    else
      if !(← markBlock seen b) then return none
      supportedBlocks node type size is (b :: seen)

/-- The number of block indices that `supported` looks at. -/
def blockLimit (type : Nat) : Nat := if type = fileMode then 268 else 12

/-- `supported` for an inode that exists. -/
def supportedNode (node : Ptr) (type : Nat) : Prog Bool := do
  let size ← rd32 node 4
  if (← kind node) ≠ type ∨ (← rd32 node 32) ≠ 0 ∨ (← rd32 node 104) ≠ 0 ∨
      (type = fileMode ∧ (maxFile < size ∨ (← rd32 node 108) ≠ 0)) ∨
      (← rd32 node 92) ≠ 0 ∨ (← rd32 node 96) ≠ 0 then return false
  let indirect ← rd32 node 88
  if type = dirMode ∧ (size = 0 ∨ 12 * blockSize < size ∨ size % blockSize ≠ 0 ∨ indirect ≠ 0) then return false
  if indirect ≠ 0 then
    if !(← markBlock [] indirect) then return false
  match ← supportedBlocks node type size (List.range (blockLimit type)) (if indirect = 0 then [] else [indirect]) with
  | none => return false
  | some seen => return (← rd16 node 26) ≠ 0 && (← rd32 node 28) == seen.length * 2

/-- `supported`: an inode of the given type that this implementation handles. -/
def supported (node : Option Ptr) (type : Nat) : Prog Bool :=
  match node with
  | none => return false
  | some node => supportedNode node type

/-- `record`: the directory record at `e` fits the `remaining` bytes. -/
def record (e : Ptr) (remaining : Nat) : Prog Bool := do
  if remaining < 8 then return false
  let v ← volume
  let header ← load e 8
  let length := header.get16 4
  let names := (header.get 6).toNat
  return 8 ≤ length && length % 4 == 0 && length ≤ remaining && names ≤ length - 8 &&
    (v.geo.filetype || header.get 7 == 0) && header.get32 0 ≤ v.geo.inodeCount

/-- The length of the name of the record at `e`. -/
def nameLength (e : Ptr) : Prog Nat := return ((← load (e.add 6) 1).get 0).toNat

/-- The name of the record at `e`, of `len` bytes. -/
def nameBytes (e : Ptr) (len : Nat) : Prog Name := return (← load (e.add 8) len).read 0 len

def nameEqual (e : Ptr) (name : Name) : Prog Bool := do
  let names ← nameLength e
  if names ≠ name.length then return false
  return (← nameBytes e names) == name

/-- The record loop over one directory block: `bad` when a record is not
valid, the first answer of `visit` otherwise. A record is at least 8 bytes
long, so 129 rounds always reach the end of the block. -/
def scanBlock {α : Type} (base : Ptr) (bad : α) (visit : Ptr → Prog (Option α)) : Nat → Nat → Prog (Option α)
  | 0, _ => return none
  | rounds + 1, off => do
    if blockSize ≤ off then return none
    if !(← record (base.add off) (blockSize - off)) then return some bad
    match ← visit (base.add off) with
    | some a => return some a
    | none => scanBlock base bad visit rounds (off + (← rd16 (base.add off) 4))

/-- The record loop over the directory blocks with indices `is`. -/
def scanBlocks {α : Type} (node : Ptr) (bad : α) (visit : Ptr → Prog (Option α)) : List Nat → Prog (Option α)
  | [] => return none
  | i :: is => do
    let base ← block (← rd32 node (40 + i * 4))
    match ← scanBlock base bad visit 129 0 with
    | some a => return some a
    | none => scanBlocks node bad visit is

/-- The record loop over a directory of the size its inode gives. -/
def scanDir {α : Type} (node : Ptr) (bad : α) (visit : Ptr → Prog (Option α)) : Prog (Option α) := do
  scanBlocks node bad visit (List.range ((← rd32 node 4) / blockSize))

/-- What `lookup` found: the inode and the record, no such name (-1), or an
unsupported or corrupt directory (-2). -/
inductive Found where
  | entry (ino : Nat) (e : Ptr)
  | absent
  | corrupt
deriving DecidableEq

/-- The record at `e`, if it is live and has this name. -/
def isEntry (name : Name) (e : Ptr) : Prog (Option Found) := do
  let ino ← rd32 e 0
  if ino = 0 then return none
  if ← nameEqual e name then return some (.entry ino e)
  return none

def lookup (dir : Nat) (name : Name) : Prog Found := do
  match ← inode dir with
  | none => return .corrupt
  | some node =>
    if !(← supportedNode node dirMode) then return .corrupt
    return (← scanDir node .corrupt (isEntry name)).getD .absent

def lookupParts : Nat → List Name → Prog (Option Nat)
  | dir, [] => return some dir
  | dir, part :: parts => do
    if maxName < part.length then return none
    if part = dot then lookupParts dir parts
    else
      match ← lookup dir part with
      | .entry child _ => lookupParts child parts
      | _ => return none

/-- `lookup_path`: resolve an absolute or relative path. -/
def lookupPath (path : Name) : Prog (Option Nat) := do
  if path = [] then return none
  let cwd ← workingDir
  lookupParts (if path.head? = some slash then rootIno else cwd) (components path)

/-- `inode` of what a lookup found, NULL when it found nothing. -/
def nodeOf : Option Nat → Prog (Option Ptr)
  | none => return none
  | some n => inode n

/-! ## The reading operations -/

/-- `engine_size`, of a ready engine. -/
def size (name : Name) : Prog Int := do
  match ← nodeOf (← lookupPath name) with
  | none => return -1
  | some node => if ← supportedNode node fileMode then return (← rd32 node 4) else return -1

/-- `engine_exec_check`, of a ready engine. -/
def execCheck (name : Name) : Prog Int := do
  match ← lookupPath name with
  | none => return -2
  | some n =>
    match ← inode n with
    | none => return -5
    | some node =>
      if (← kind node) ≠ fileMode ∨ (← rd16 node 0) &&& 0o111 = 0 then return -13
      return if ← supportedNode node fileMode then 0 else -8

/-- `engine_is_dir`, of a ready engine. -/
def isDir (name : Name) : Prog Bool := do supported (← nodeOf (← lookupPath name)) dirMode

/-- `engine_stat`, of a ready engine: the mode and size it prints. -/
def stat (name : Name) : Prog (Option (Nat × Nat)) := do
  match ← nodeOf (← lookupPath name) with
  | none => return none
  | some node => return some (← kind node, ← rd32 node 4)

/-- The copy loop of `engine_read`; a hole reads as zeros. -/
def readRange (node : Ptr) : Nat → Nat → Nat → Prog (List UInt8)
  | 0, _, _ => return []
  | rounds + 1, offset, size => do
    if size = 0 then return []
    let b ← fileBlock node (offset / blockSize)
    let within := offset % blockSize
    let chunk := min (blockSize - within) size
    let bytes ← if b = 0 then pure (List.replicate chunk 0) else do
      pure ((← load ((← block b).add within) chunk).read 0 chunk)
    return bytes ++ (← readRange node rounds (offset + chunk) (size - chunk))

/-- `engine_read`, of a ready engine: the bytes read, `none` for -1. -/
def read (name : Name) (offset size : Nat) : Prog (Option (List UInt8)) := do
  match ← nodeOf (← lookupPath name) with
  | none => return none
  | some node =>
    if !(← supportedNode node fileMode) then return none
    let length ← rd32 node 4
    if length < offset then return none
    let size := min size (length - offset)
    return some (← readRange node size offset size)

/-- Little-endian bytes of a number. -/
def le16 (n : Nat) : List UInt8 := [UInt8.ofNat n, UInt8.ofNat (n / 256)]
def le32 (n : Nat) : List UInt8 := le16 n ++ le16 (n / 65536)

/-- The `linux_dirent` of a record: inode, offset, length, name, zeros, type. -/
def dirent (ino current reclen type : Nat) (name : Name) : List UInt8 :=
  le32 ino ++ le32 current ++ le16 reclen ++ name ++
    List.replicate (reclen - 11 - name.length) 0 ++ [UInt8.ofNat type]

/-- The length of a `linux_dirent` with a name of `names` bytes. -/
def direntLength (names : Nat) : Nat := (10 + names + 2 + 3) / 4 * 4

/-- `engine_getdents` between records: records wanted from `index` on, bytes
written, live records seen. -/
structure Dents where
  index : Nat
  out : List UInt8
  current : Nat

/-- The type byte of inode `ino`. -/
def direntType (ino : Nat) : Prog Nat := do
  match ← inode ino with
  | none => return 0
  | some node =>
    let k ← kind node
    return if k = dirMode then 4 else if k = fileMode then 8 else 0

/-- The record loop of `engine_getdents` over one block: `some` result when it
returns from inside the loop. -/
def dentsBlock (capacity : Nat) (base : Ptr) : Nat → Nat → Dents → Prog (Except (Int × Dents) Dents)
  | 0, _, d => return .ok d
  | rounds + 1, off, d => do
    if blockSize ≤ off then return .ok d
    let e := base.add off
    if !(← record e (blockSize - off)) then return .error (-1, d)
    let ino ← rd32 e 0
    if ino = 0 then dentsBlock capacity base rounds (off + (← rd16 e 4)) d
    else if d.current < d.index then dentsBlock capacity base rounds (off + (← rd16 e 4)) { d with current := d.current + 1 }
    else
      let names ← nameLength e
      let reclen := direntLength names
      if capacity - d.out.length < reclen then
        return .error (if d.out = [] then -22 else (d.out.length : Int), d)
      let type ← direntType ino
      let name ← nameBytes e names
      dentsBlock capacity base rounds (off + (← rd16 e 4))
        { index := d.index + 1, current := d.current + 1, out := d.out ++ dirent ino (d.current + 1) reclen type name }

def dentsBlocks (capacity : Nat) (node : Ptr) : List Nat → Dents → Prog (Except (Int × Dents) Dents)
  | [], d => return .ok d
  | i :: is, d => do
    let base ← block (← rd32 node (40 + i * 4))
    match ← dentsBlock capacity base 129 0 d with
    | .error e => return .error e
    | .ok d => dentsBlocks capacity node is d

/-- `engine_getdents`, of a ready engine: the result, the bytes written and the new
position. -/
def getdents (name : Name) (capacity position : Nat) : Prog (Int × List UInt8 × Nat) := do
  match ← nodeOf (← lookupPath name) with
  | none => return (-1, [], position)
  | some node =>
    if !(← supportedNode node dirMode) then return (-1, [], position)
    match ← dentsBlocks capacity node (List.range ((← rd32 node 4) / blockSize)) ⟨position, [], 0⟩ with
    | .error (r, d) => return (r, d.out, if r = -1 then position else d.index)
    | .ok d => return (d.out.length, d.out, d.index)

/-- `engine_cd`, of a ready engine. -/
def cd (name : Name) : Prog Int := do
  match ← lookupPath name with
  | none => return -1
  | some n =>
    if !(← supported (← inode n) dirMode) then return -1
    chdir n
    return 0

/-- The climb of `engine_getcwd` to the root, at most 64 directories deep:
the directories passed, outermost first. -/
def climb : Nat → Nat → List Nat → Prog (Except Int (List Nat))
  | rounds, n, path => do
    if n = rootIno then return .ok path
    match rounds with
    | 0 => return .error (-36)
    | rounds + 1 =>
      match ← lookup n dotdot with
      | .entry parent _ => if parent = n then return .error (-5) else climb rounds parent (n :: path)
      | _ => return .error (-5)

/-- The record of `child` in its parent, for `engine_getcwd`. -/
def isChild (child : Nat) (e : Ptr) : Prog (Option (Except Int Name)) := do
  if (← rd32 e 0) ≠ child then return none
  if ← nameEqual e dot then return none
  if ← nameEqual e dotdot then return none
  return some (.ok (← nameBytes e (← nameLength e)))

/-- The descent of `engine_getcwd` from directory `n`, appending to `out`. -/
def descend (capacity : Nat) : Nat → List Nat → Name → Prog (Except Int Name)
  | _, [], out => return .ok out
  | n, child :: path, out => do
    match ← inode n with
    | none => return .error (-5)
    | some node =>
      if !(← supportedNode node dirMode) then return .error (-5)
      match ← scanDir node (.error (-5)) (isChild child) with
      | none => return .error (-5)
      | some (.error e) => return .error e
      | some (.ok name) =>
        if capacity - out.length ≤ name.length then return .error (-34)
        let out := out ++ name
        if path = [] then return .ok out
        if capacity ≤ out.length + 1 then return .error (-34)
        descend capacity child path (out ++ [slash])

/-- `engine_getcwd`, of a ready engine: the path written, or the error code. -/
def getcwd (capacity : Nat) : Prog (Except Int Name) := do
  match ← climb 64 (← workingDir) [] with
  | .error e => return .error e
  | .ok path => descend capacity rootIno path [slash]

end Barnix.Ext2
