import Barnix.Lib.Arrays
import Barnix.Lib.Bytes
import Barnix.Path
/-!
# Importing a template

`fs_import_template` reads an ext2 image of 2 MiB that may hold anything. Every byte is read through a
pointer into the image or into the block of zeros that a hole reads as, and a read outside stops the
code. The volume that the template is copied to is a parameter, which may refuse whatever it is asked.
-/

namespace Barnix.Import

/-- `2 * 1024 * 1024` -/
abbrev Image := Buf 2097152

/-- A pointer into the image or into `import_zero`. -/
inductive Place where
  | image (off : Nat)
  | zero (off : Nat)
  deriving DecidableEq

def Place.add : Place → Nat → Place
  | image off, k => image (off + k)
  | zero off, k => zero (off + k)

section Reading
variable (image : Image)

def byte : Place → Checked UInt8
  | .image off => if off < 2097152 then .ok (image.get off) else .error .overrun
  | .zero off => if off < 1024 then .ok 0 else .error .overrun

def get16 (p : Place) : Checked Nat := do
  let a ← byte image p
  let b ← byte image (p.add 1)
  .ok (a.toNat + 256 * b.toNat)

def get32 (p : Place) : Checked Nat := do
  let a ← get16 image p
  let b ← get16 image (p.add 2)
  .ok (a + 65536 * b)

/-- `memcpy` of `n` bytes. -/
def bytes (p : Place) (n : Nat) : Checked (List UInt8) := (List.range n).mapM fun i => byte image (p.add i)

/-- `kind` -/
def kind (node : Place) : Checked Nat := do
  let mode ← get16 image node
  .ok (mode &&& 0xf000)

/-- `import_block` -/
def importBlock (n : Nat) : Option Place :=
  if n = 0 then some (.zero 0) else if 2048 ≤ n then none else some (.image (n * 1024))

/-- `import_inode_size`, `import_inodes` and `import_table` -/
structure Header where
  inodeSize : Nat
  inodes : Nat
  table : Nat
  deriving DecidableEq

/-- `import_inode` -/
def importInode (h : Header) (n : Nat) : Option Place :=
  if n = 0 ∨ h.inodes < n then none
  else
    let off := (h.table * 1024 + (n - 1) * h.inodeSize) % 4294967296
    if 2097152 < off ∨ 2097152 - off < h.inodeSize then none else some (.image off)

/-- `import_file_block` -/
def importFileBlock (node : Place) (index : Nat) : Checked (Option Place) :=
  if index < 12 then do
    let n ← get32 image (node.add (40 + index * 4))
    .ok (importBlock n)
  else if 268 ≤ index then .ok none
  else do
    let n ← get32 image (node.add 88)
    match importBlock n with
    | none => .ok none
    | some indirect => do
      let m ← get32 image (indirect.add ((index - 12) * 4))
      .ok (importBlock m)

end Reading

/-! ## The destination -/

/-- The `ext_*` functions and `import_mode`; `none` is a failure. -/
structure Destination (σ : Type) where
  init : σ → Option σ
  mkdir : Name → σ → Option σ
  cd : Name → σ → Option σ
  write : Name → List UInt8 → σ → Option σ
  read : Name → Nat → Nat → σ → Option (List UInt8 × σ)
  mode : Name → Nat → σ → Option σ

def orFail {α : Type} : Option α → Checked α
  | some a => .ok a
  | none => .error .failed

/-! ## Directories -/

variable {σ : Type} (dest : Destination σ) (image : Image) (h : Header)

/-- `length`, `n` and `namesize` -/
structure Entry where
  length : Nat
  n : Nat
  namesize : Nat
  deriving DecidableEq

def entryAt (p : Place) : Checked Entry := do
  let length ← get16 image (p.add 4)
  let n ← get32 image p
  let namesize ← byte image (p.add 6)
  .ok ⟨length, n, namesize.toNat⟩

/-- The check of a record at `off` in its block. -/
def Entry.Fits (e : Entry) (off : Nat) : Prop :=
  8 ≤ e.length ∧ e.length % 4 = 0 ∧ e.length ≤ 1024 - off ∧ e.namesize ≤ e.length - 8

instance (e : Entry) (off : Nat) : Decidable (e.Fits off) := inferInstanceAs (Decidable (_ ∧ _))

/-- The name is `.` or `..`. -/
def isDots (p : Place) (namesize : Nat) : Checked Bool :=
  if namesize = 1 then do
    let c ← byte image (p.add 8)
    .ok (c == 46)
  else if namesize = 2 then do
    let c ← byte image (p.add 8)
    if c = 46 then do
      let d ← byte image (p.add 9)
      .ok (d == 46)
    else .ok false
  else .ok false

/-- What a record asks for: nothing, or a name with its inode's place and kind. -/
def classify (p : Place) (e : Entry) : Checked (Option (Name × Place × Nat)) :=
  if e.n = 0 then .ok none
  else do
    let dots ← isDots image p e.namesize
    if dots then .ok none
    else if e.namesize = 0 ∨ 23 < e.namesize then .error .failed
    else do
      let raw ← bytes image (p.add 8) e.namesize
      let name := raw.takeWhile (· ≠ 0)
      if validName name then
        match importInode h e.n with
        | none => .error .failed
        | some child => do
          let k ← kind image child
          .ok (some (name, child, k))
      else .error .failed

/-- A file is read into `import_data`, block by block. -/
def fileData (child : Place) (size : Nat) : Checked (List UInt8) :=
  (List.range ((size + 1023) / 1024)).foldlM (fun data i => do
    let chunk ← importFileBlock image child i
    match chunk with
    | none => .error .failed
    | some chunk => do
      let part ← bytes image chunk (min 1024 (size - i * 1024))
      .ok (data ++ part)) []

/-- What was written is read again, in pieces of 4096 bytes, and compared. -/
def verify (name : Name) (data : List UInt8) (s : σ) : Checked σ :=
  (List.range ((data.length + 4095) / 4096)).foldlM (fun s i => do
    let piece := (data.drop (i * 4096)).take 4096
    let got ← orFail (dest.read name (i * 4096) piece.length s)
    if got.1 = piece then .ok got.2 else .error .failed) s

def importFile (name : Name) (child : Place) (s : σ) : Checked σ := do
  let size ← get32 image (child.add 4)
  if 274432 < size then .error .failed
  else do
    let data ← fileData image child size
    let s ← orFail (dest.write name data s)
    verify dest name data s

/-- `ext_mkdir(name) || ext_cd(name)` -/
def enter (name : Name) (s : σ) : Checked σ := do
  let s ← orFail (dest.mkdir name s)
  orFail (dest.cd name s)

/-- One record; `dive` imports a directory. -/
def importEntry (dive : Nat → σ → Checked σ) (p : Place) (e : Entry) (s : σ) : Checked σ := do
  let found ← classify image h p e
  match found with
  | none => .ok s
  | some (name, child, k) => do
    let s ←
      if k = 0x4000 then do
        let s ← enter dest name s
        let s ← dive e.n s
        orFail (dest.cd [46, 46] s)
      else if k = 0x8000 then importFile dest image name child s
      else .error .failed
    let mode ← get16 image child
    orFail (dest.mode name mode s)

/-- The records of a block from `off` on. -/
def recordLoop (dive : Nat → σ → Checked σ) (data : Place) (off : Nat) (s : σ) : Checked σ :=
  if off < 1024 then
    match entryAt image (data.add off) with
    | .error stop => .error stop
    | .ok e =>
      if he : e.Fits off then
        match importEntry dest image h dive (data.add off) e s with
        | .error stop => .error stop
        | .ok s => recordLoop dive data (off + e.length) s
      else .error .failed
  else .ok s
termination_by 1024 - off
decreasing_by
  have hlength := he.1
  omega

def importBlockOf (dive : Nat → σ → Checked σ) (node : Place) (s : σ) (i : Nat) : Checked σ := do
  let data ← importFileBlock image node i
  match data with
  | none => .error .failed
  | some data => recordLoop dest image h dive data 0 s

/-- `import_directory`, `remaining` levels above the deepest. -/
def importDirectory : (remaining : Nat) → Nat → σ → Checked σ
  | remaining, ino, s =>
    match importInode h ino with
    | none => .error .failed
    | some node => do
      let k ← kind image node
      if k ≠ 0x4000 then .error .failed
      else
        match remaining with
        | 0 => .error .failed
        | remaining + 1 => do
          let size ← get32 image (node.add 4)
          if 12288 < size ∨ size % 1024 ≠ 0 then .error .failed
          else (List.range (size / 1024)).foldlM (importBlockOf dest image h (importDirectory remaining) node) s

/-- The part of `fs_import_template` that reads the superblock. -/
def importHeader : Checked Header := do
  let sb : Place := .image 1024
  let magic ← get16 image (sb.add 56)
  if magic ≠ 0xef53 then .error .failed
  else do
    let blockShift ← get32 image (sb.add 24)
    let blocks ← get32 image (sb.add 4)
    let perGroup ← get32 image (sb.add 32)
    let features ← get32 image (sb.add 96)
    if blockShift ≠ 0 ∨ 2048 < blocks ∨ perGroup < (blocks + 4294967295) % 4294967296 ∨ features &&& 0xfffffffd ≠ 0 then .error .failed
    else do
      let revision ← get32 image (sb.add 76)
      let inodeSize ← if revision ≠ 0 then get16 image (sb.add 88) else .ok 128
      let inodes ← get32 image sb
      let table ← get32 image (.image (2048 + 8))
      let h : Header := ⟨inodeSize, inodes, table⟩
      if (inodeSize ≠ 128 ∧ inodeSize ≠ 256) ∨ 8192 < inodes ∨ inodes = 0 ∨ 2048 ≤ table ∨ importInode h inodes = none then .error .failed
      else .ok h

/-- `fs_import_template`; the root is directory 2, and 16 is the deepest level. -/
def importTemplate (s : σ) : Checked σ := do
  let h ← importHeader image
  let s ← orFail (dest.init s)
  importDirectory dest image h 17 2 s

end Barnix.Import
