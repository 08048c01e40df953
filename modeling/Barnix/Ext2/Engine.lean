import Barnix.Ext2.Lookup
/-!
# The changing operations

Allocation, directory insertion, file data, and the transaction every public
operation runs in: `begin` saves the loaded metadata, the body changes cached
blocks, and `finish` rolls everything back or writes what changed between a
dirty and a clean superblock.
-/

namespace Barnix.Ext2

/-- The offset of a free count in the superblock, and in a group descriptor. -/
def superCount (isInode : Bool) : Nat := if isInode then 16 else 12
def descCount (isInode : Bool) : Nat := if isInode then 14 else 12

/-- The offset of a bitmap's block number in a group descriptor. -/
def descMap (isInode : Bool) : Nat := if isInode then 4 else 0

/-! ## Allocation -/

/-- Takes bit `i` of the bitmap of group `g`, for inode or block `n`. -/
def take (isInode : Bool) (g i n : Nat) (map : Ptr) : Prog Unit := do
  setbit map i true
  let v ← volume
  putSuper (superCount isInode) (v.superblock.get32 (superCount isInode) - 1)
  putDesc (g * 32 + descCount isInode) (v.descriptors.get16 (g * 32 + descCount isInode) - 1)
  if isInode then store .metadata (← deref (← inode n)) v.geo.inodeSize fun _ _ => 0
  else store .content (← block n) blockSize fun _ _ => 0

/-- The first of the indices that is free in a bitmap. -/
def firstFree (map : Ptr) : List Nat → Prog (Option Nat)
  | [] => return none
  | i :: is => do
    if ← bit map i then firstFree map is
    else return some i

/-- The group loop of `allocate`. A group whose count is positive but whose
bitmap is full is corrupt: that fails, it does not go on to the next group. -/
def allocateGroups (isInode : Bool) : List Nat → Prog Nat
  | [] => return 0
  | step :: steps => do
    let v ← volume
    let g := ((← hint isInode) + step) % v.geo.groups
    if v.descriptors.get16 (g * 32 + descCount isInode) = 0 then allocateGroups isInode steps
    else
      let map ← block (v.desc g (descMap isInode))
      let limit := if isInode then v.geo.inodesPerGroup else v.groupSize g
      let start := if isInode && g == 0 then v.geo.firstInode - 1 else 0
      match ← firstFree map (List.range' start (limit - start)) with
      | none => return 0
      | some i =>
        let n := if isInode then g * v.geo.inodesPerGroup + i + 1 else v.groupStart g + i
        if (!isInode && !v.dataBlock n) || v.superblock.get32 (superCount isInode) == 0 || (← cacheError) then return 0
        take isInode g i n map
        setHint isInode g
        return if ← cacheError then 0 else n

/-- `allocate`: a free inode or block, zeroed; 0 when there is none. -/
def allocate (isInode : Bool) : Prog Nat := do
  allocateGroups isInode (List.range (← volume).geo.groups)

def release (n : Nat) (isInode : Bool) : Prog Unit := do
  let v ← volume
  let g := if isInode then (n - 1) / v.geo.inodesPerGroup else (n - 1) / v.geo.blocksPerGroup
  let index := if isInode then (n - 1) % v.geo.inodesPerGroup else n - v.groupStart g
  setbit (← block (v.desc g (descMap isInode))) index false
  putSuper (superCount isInode) (v.superblock.get32 (superCount isInode) + 1)
  putDesc (g * 32 + descCount isInode) (v.descriptors.get16 (g * 32 + descCount isInode) + 1)

/-! ## Directory entries -/

/-- A record of `len` bytes. -/
def entryBytes (filetype : Bool) (len ino : Nat) (name : Name) (type : Nat) : Buf len :=
  let b : Buf len := fun _ => 0
  let b := (b.put32 0 ino).put16 4 len
  let b := (b.set 6 (UInt8.ofNat name.length)).set 7 (if filetype then (if type = dirMode then 2 else 1) else 0)
  b.write 8 name

/-- `entry_set` -/
def entrySet (e : Ptr) (ino len : Nat) (name : Name) (type : Nat) : Prog Unit := do
  let v ← volume
  store .content e len fun _ => entryBytes v.geo.filetype len ino name type

/-- The bytes a record with a name of length `k` needs. -/
def recordSize (k : Nat) : Nat := (8 + k + 3) / 4 * 4

/-- Puts the new record into the slack of the record at `e`, if it fits. -/
def insertAt (name : Name) (ino type : Nat) (e : Ptr) : Prog (Option Bool) := do
  let len ← rd16 e 4
  let used ← if (← rd32 e 0) = 0 then pure 0 else do pure (recordSize (← nameLength e))
  if len - used < recordSize name.length then return none
  if used ≠ 0 then wr16 .content e 4 used
  entrySet (e.add used) ino (len - used) name type
  return some true

/-- `insert`; true when it succeeds. -/
def insert (dir : Nat) (name : Name) (ino type : Nat) : Prog Bool := do
  match ← inode dir with
  | none => return false
  | some node =>
    if !(← supportedNode node dirMode) then return false
    if (← lookup dir name) ≠ .absent then return false
    let count := (← rd32 node 4) / blockSize
    match ← scanBlocks node false (insertAt name ino type) (List.range count) with
    | some done => return done
    | none =>
      if count = 12 then return false
      let b ← allocate false
      if b = 0 then return false
      wr32 .metadata node (40 + count * 4) b
      wr32 .metadata node 4 ((count + 1) * blockSize)
      wr32 .metadata node 28 ((← rd32 node 28) + 2)
      entrySet (← block b) ino blockSize name type
      return true

/-! ## Files and directories -/

/-- The first block of a new directory, and the counts that change with it. -/
def createDir (n : Nat) (node : Ptr) : Prog Bool := do
  let b ← allocate false
  if b = 0 then return false
  wr32 .metadata node 4 blockSize
  wr32 .metadata node 28 2
  wr32 .metadata node 40 b
  entrySet (← block b) n 12 dot dirMode
  let cwd ← workingDir
  entrySet ((← block b).add 12) cwd (blockSize - 12) dotdot dirMode
  let parent ← deref (← inode cwd)
  let links ← rd16 parent 26
  if links = 65535 then return false
  wr16 .metadata parent 26 (links + 1)
  let v ← volume
  let d := (n - 1) / v.geo.inodesPerGroup * 32
  putDesc (d + 16) (v.descriptors.get16 (d + 16) + 1)
  return true

/-- `create`: a new inode of the given type, named in the working directory. -/
def create (name : Name) (type : Nat) : Prog Bool := do
  if !validName name then return false
  let cwd ← workingDir
  if (← lookup cwd name) ≠ .absent then return false
  let n ← allocate true
  if n = 0 then return false
  let node ← deref (← inode n)
  wr16 .metadata node 0 (type ||| (if type = dirMode then 0o755 else 0o644))
  wr16 .metadata node 26 (if type = dirMode then 2 else 1)
  let time := (← volume).superblock.get32 48
  wr32 .metadata node 8 time
  wr32 .metadata node 12 time
  wr32 .metadata node 16 time
  if type = dirMode then
    if !(← createDir n node) then return false
  insert cwd name n type

/-- `file_slot`: the address of a file's block pointer, NULL when its indirect
block is missing. -/
def fileSlot (node : Ptr) (index : Nat) (createBlock : Bool) : Prog (Option Ptr) := do
  if index < 12 then return some (node.add (40 + index * 4))
  let indirect ← rd32 node 88
  if indirect ≠ 0 then return some ((← block indirect).add ((index - 12) * 4))
  if !createBlock then return none
  let indirect ← allocate false
  if indirect = 0 then return none
  wr32 .metadata node 88 indirect
  wr32 .metadata node 28 ((← rd32 node 28) + 2)
  return some ((← block indirect).add ((index - 12) * 4))

/-- Releases the block in `slot` of the file `node`. -/
def dropBlock (node slot : Ptr) : Prog Unit := do
  let b ← rd32 slot 0
  if b = 0 then return
  release b false
  wr32 .metadata slot 0 0
  wr32 .metadata node 28 ((← rd32 node 28) + 2 ^ 32 - 2)

def truncateLoop (node : Ptr) : List Nat → Prog Unit
  | [] => return
  | i :: is => do
    match ← fileSlot node i false with
    | none => truncateLoop node is
    | some slot =>
      dropBlock node slot
      truncateLoop node is

/-- `truncate_blocks`: releases the blocks from index `keep` on. -/
def truncateBlocks (node : Ptr) (keep : Nat) : Prog Unit := do
  truncateLoop node (List.range' keep (268 - keep))
  if keep ≤ 12 then dropBlock node (node.add 88)

/-- The block of a file at `index`, allocated if it is a hole; 0 on failure. -/
def writableBlock (node : Ptr) (index : Nat) : Prog Nat := do
  match ← fileSlot node index true with
  | none => return 0
  | some slot =>
    let b ← rd32 slot 0
    if b ≠ 0 then return b
    let b ← allocate false
    if b = 0 then return 0
    wr32 .metadata slot 0 b
    wr32 .metadata node 28 ((← rd32 node 28) + 2)
    return b

/-- The copy loop of `write_range`; `data` is the caller's buffer and `rounds`
bounds the chunks, each of at least one byte. -/
def writeChunks (node : Ptr) (data : Nat → UInt8) : Nat → Nat → Nat → Nat → Prog Bool
  | 0, _, _, _ => return true
  | rounds + 1, offset, pos, size => do
    if size = 0 then return true
    let within := offset % blockSize
    let chunk := min (blockSize - within) size
    let b ← writableBlock node (offset / blockSize)
    if b = 0 then return false
    store .content ((← block b).add within) chunk fun _ i => data (pos + i.val)
    writeChunks node data rounds (offset + chunk) (pos + chunk) (size - chunk)

/-- `write_range`; true when it succeeds. -/
def writeRange (node : Ptr) (offset : Nat) (data : Nat → UInt8) (size : Nat) : Prog Bool := do
  if !(← writeChunks node data size offset 0 size) then return false
  if (← rd32 node 4) < offset + size then wr32 .metadata node 4 (offset + size)
  return true

/-- The part of `write_file` about an existing regular file. -/
def overwrite (node : Ptr) (data : Nat → UInt8) (size : Nat) : Prog Bool := do
  truncateBlocks node ((size + blockSize - 1) / blockSize)
  if !(← writeRange node 0 data size) then return false
  if size % blockSize ≠ 0 then
    let b ← fileBlock node (size / blockSize)
    store .content ((← block b).add (size % blockSize)) (blockSize - size % blockSize) fun _ _ => 0
  wr32 .metadata node 4 size
  return true

/-- `write_file`: replaces the content of a file of the working directory,
creating it if it is missing. -/
def writeFile (name : Name) (data : Nat → UInt8) (size : Int) : Prog Bool := do
  if size < 0 ∨ (maxFile : Int) < size ∨ !validName name then return false
  let cwd ← workingDir
  let found ← lookup cwd name
  if found = .absent then
    if !(← create name fileMode) then return false
  let found ← if found = .absent then lookup cwd name else pure found
  match found with
  | .entry n _ =>
    match ← inode n with
    | none => return false
    | some node =>
      if !(← supportedNode node fileMode) then return false
      overwrite node data size.toNat
  | _ => return false

/-- The part of a path before its last slash (`/` when that is the first
byte) and the part after it; `none` for a path without a slash. -/
def splitParent (path : Name) : Option (Name × Name) :=
  if path.contains slash then some (parentName path, baseName path) else none

/-- The body of `engine_write`: resolves the parent without changing the
caller's working directory. -/
def writePath (name : Name) (data : Nat → UInt8) (size : Int) : Prog Bool := do
  match splitParent name with
  | none => writeFile name data size
  | some (parent, base) =>
    let previous ← workingDir
    if 256 ≤ parent.length then return false
    match ← lookupPath parent with
    | none => return false
    | some dir =>
      if !(← supported (← inode dir) dirMode) then return false
      chdir dir
      let result ← writeFile base data size
      chdir previous
      return result

/-- The body of `engine_mv`. -/
def rename (source destination : Name) : Prog Bool := do
  let cwd ← workingDir
  match ← lookup cwd source with
  | .entry n e =>
    match ← inode n with
    | none => return false
    | some node =>
      if !validName source || !validName destination then return false
      if !(← supportedNode node fileMode) then
        if !(← supportedNode node dirMode) then return false
      if (← lookup cwd destination) ≠ .absent then return false
      wr32 .content e 0 0
      insert cwd destination n (← kind node)
  | _ => return false

/-- A live record other than `.` and `..` keeps a directory from being removed. -/
def isOther (e : Ptr) : Prog (Option Bool) := do
  if (← rd32 e 0) = 0 then return none
  if ← nameEqual e dot then return none
  if ← nameEqual e dotdot then return none
  return some false

/-- Takes the directory `n` out of the counts, if it is empty. -/
def unlinkDir (n : Nat) (node : Ptr) : Prog Bool := do
  if (← scanDir node false isOther).isSome then return false
  if (← rd16 node 26) ≠ 2 then return false
  let parent ← deref (← inode (← workingDir))
  wr16 .metadata parent 26 ((← rd16 parent 26) + 65536 - 1)
  let v ← volume
  let d := (n - 1) / v.geo.inodesPerGroup * 32
  putDesc (d + 16) (v.descriptors.get16 (d + 16) + 65536 - 1)
  return true

/-- Frees inode `n`; small deletion times encode an ext3 orphan link, so they
are kept above the inode count. -/
def freeNode (n : Nat) (node : Ptr) : Prog Unit := do
  truncateBlocks node 0
  let v ← volume
  let deletedAt := v.superblock.get32 48
  let deletedAt := if deletedAt ≤ v.geo.inodeCount then v.geo.inodeCount + 1 else deletedAt
  store .metadata node v.geo.inodeSize fun _ _ => 0
  wr32 .metadata node 20 deletedAt
  release n true

/-- `remove_node`. -/
def removeNode (name : Name) (type : Nat) : Prog Bool := do
  match ← lookup (← workingDir) name with
  | .entry n e =>
    match ← inode n with
    | none => return false
    | some node =>
      if !validName name || n < (← volume).geo.firstInode then return false
      if !(← supportedNode node type) then return false
      if type = dirMode then
        if !(← unlinkDir n node) then return false
      wr32 .content e 0 0
      let links ← if type = dirMode then pure 0 else do pure ((← rd16 node 26) - 1)
      wr16 .metadata node 26 links
      if links = 0 then freeNode n node
      return true
  | _ => return false

/-! ## Transactions -/

def engineReady : StateM Ext Bool := do
  modify fun s => if s.mounted && !s.disk.present then { s with mounted := false } else s
  return (← get).mounted

/-- A reading operation of a ready engine. -/
def whenReady {α : Type} (bad : α) (x : Prog α) : StateM Ext α := do
  if !(← engineReady) then return bad
  perform x

/-- `begin`; true when the operation may go on. -/
def begin : StateM Ext Bool := do
  if !(← engineReady) then return false
  if (← get).cacheError then return false
  modify fun s => { s with savedSuper := s.vol.superblock, savedDescriptors := s.vol.descriptors }
  return true

/-- The roll back of `finish`. -/
def Ext.rollback (s : Ext) : Ext := { s with
  vol := { s.vol with superblock := s.savedSuper, descriptors := s.savedDescriptors }
  cache := s.cache.map fun e => { e with data := e.before } }

/-- One half of a 1024-byte block. -/
def half (b : Block) (k : Nat) : Sector := fun i => b.get (k * 512 + i.val)

/-- Sector `k` of the descriptor table. -/
def descSector (b : Buf 20480) (k : Nat) : Sector := fun i => b.get (k * 512 + i.val)

/-- The sectors of the cache that changed, in cache order. -/
def dirtyCache (cache : List Slot) : List (Nat × Sector) :=
  cache.flatMap fun e => ([0, 1].filter fun k => !e.data.same e.before (k * 512) 512).map fun k =>
    (e.block * 2 + k, half e.data k)

/-- The sectors of the descriptor table that changed. -/
def dirtyDesc (s : Ext) : List (Nat × Sector) :=
  ((List.range (s.vol.geo.descriptorBlocks * 2)).filter fun k =>
    !s.vol.descriptors.same s.savedDescriptors (k * 512) 512).map fun k => (4 + k, descSector s.vol.descriptors k)

/-- The second half of the superblock, if it changed. -/
def dirtySuper (s : Ext) : List (Nat × Sector) :=
  if s.vol.superblock.same s.savedSuper 512 512 then [] else [(3, half s.vol.superblock 1)]

/-- Writes sectors until one fails. -/
def writeSectors : List (Nat × Sector) → StateM Disk Bool
  | [] => return true
  | (lba, data) :: rest => do
    if !(← diskWrite lba data) then return false
    writeSectors rest

/-- `put16(SB + 58, ..)`: the volume's state. -/
def putState (n : Nat) : StateM Ext Unit :=
  modify fun s => { s with vol := { s.vol with superblock := s.vol.superblock.put16 58 n } }

/-- The clean-flag protocol of `finish`: the first half of the superblock
marked dirty, then everything that changed, then that half marked clean, with
a flush after each. False as soon as a command fails. -/
def commit : StateM Ext Bool := do
  putState 2
  let dirty := half (← get).vol.superblock 0
  if !(← onDisk (diskWrite 2 dirty)) then return false
  if !(← onDisk diskFlush) then return false
  putState 1
  let s ← get
  if !(← onDisk (writeSectors (dirtyCache s.cache ++ dirtyDesc s ++ dirtySuper s))) then return false
  if !(← onDisk diskFlush) then return false
  if !(← onDisk (diskWrite 2 (half s.vol.superblock 0))) then return false
  onDisk diskFlush

/-- Something changed since `begin`. -/
def Ext.changed (s : Ext) : Bool :=
  !s.vol.superblock.same s.savedSuper 0 1024 ||
  !s.vol.descriptors.same s.savedDescriptors 0 (s.vol.geo.groups * 32) ||
  s.cache.any fun e => !e.data.same e.before 0 1024

/-- `finish` of a body that succeeded (`result = 0`) or failed. An I/O error
unmounts the volume: there is no journal. -/
def finish (ok : Bool) : StateM Ext Int := do
  let s ← get
  if !ok || s.cacheError then
    modify (·.rollback)
    return -1
  if !s.changed then return 0
  if ← commit then return 0
  modify ({ · with mounted := false })
  return -1

/-- A body between `begin` and `finish`. -/
def transaction (body : Prog Bool) : StateM Ext Int := do
  if !(← begin) then return -1
  finish (← perform body)

/-! ## The public operations of the engine -/

def engineSize (name : Name) : StateM Ext Int := whenReady (-1) (size name)
def engineExecCheck (name : Name) : StateM Ext Int := whenReady (-5) (execCheck name)
def engineIsDir (name : Name) : StateM Ext Bool := whenReady false (isDir name)
def engineStat (name : Name) : StateM Ext (Option (Nat × Nat)) := whenReady none (stat name)
def engineRead (name : Name) (offset size : Nat) : StateM Ext (Option (List UInt8)) := whenReady none (read name offset size)
def engineGetdents (name : Name) (capacity position : Nat) : StateM Ext (Int × List UInt8 × Nat) :=
  whenReady (-1, [], position) (getdents name capacity position)
def engineCd (name : Name) : StateM Ext Int := whenReady (-1) (cd name)

def engineGetcwd (capacity : Nat) : StateM Ext (Except Int Name) := do
  if capacity < 2 then return .error (-34)
  whenReady (.error (-5)) (getcwd capacity)

def engineTouch (name : Name) : StateM Ext Int := transaction (create name fileMode)

def engineMkdir (name : Name) : StateM Ext Int := transaction (create name dirMode)

def engineWrite (name : Name) (data : Nat → UInt8) (size : Int) : StateM Ext Int :=
  transaction (writePath name data size)

/-- What `engine_append` finds: a file of the working directory with its size, nothing, or
something that cannot be appended to. -/
inductive Target where
  | file (node : Ptr) (length : Nat)
  | missing
  | wrong

def appendTarget (name : Name) : Prog Target := do
  match ← lookup (← workingDir) name with
  | .absent => return .missing
  | .corrupt => return .wrong
  | .entry n _ =>
    match ← inode n with
    | none => return .wrong
    | some node =>
      if !(← supportedNode node fileMode) then return .wrong
      return .file node (← rd32 node 4)

def engineAppend (name : Name) (data : Nat → UInt8) (size : Int) : StateM Ext Int := do
  if !(← engineReady) then return -1
  if size < 0 ∨ (maxFile : Int) < size then return -1
  match ← perform (appendTarget name) with
  | .missing => engineWrite name data size
  | .wrong => return -1
  | .file node length =>
    if (maxFile : Int) - length < size then return -1
    transaction (writeRange node length data size.toNat)

def engineCp (source destination : Name) : StateM Ext Int := do
  let size ← engineSize source
  if size < 0 then return -1
  if (← perform (do lookup (← workingDir) destination)) ≠ .absent then return -1
  match ← engineRead source 0 size.toNat with
  | none => return -1
  | some bytes =>
    if (bytes.length : Int) ≠ size then return -1
    engineWrite destination (fun i => bytes.getD i 0) size

def engineMv (source destination : Name) : StateM Ext Int := transaction (rename source destination)

def engineRm (name : Name) : StateM Ext Int := transaction (removeNode name fileMode)

def engineRmdir (name : Name) : StateM Ext Int := transaction (removeNode name dirMode)

def engineSync : StateM Ext Int := do
  if !(← engineReady) then return -1
  if ← onDisk diskFlush then return 0 else return -1

end Barnix.Ext2
