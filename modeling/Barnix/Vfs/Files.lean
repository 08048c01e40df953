import Barnix.Vfs.Permissions
/-!
# File operations

The public operations of `vfs.inc`: each one checks a right, routes the name to
its volume and hands it to the engine there. Before the namespace is active the
name goes to the engine as it is.
-/

namespace Barnix.Vfs

variable {ε : Type} [Engine ε]

def fsInit : StateM (Space ε) Bool := do
  modify ({ · with active := false, activeVolume := none, working := [slash] })
  onEngine Engine.extInit

/-! ## One name -/

def fsSize (name : Name) : StateM (Space ε) Int := checked name modeR (-13) (plainSize name)

def fsExecCheck (name : Name) : StateM (Space ε) Int :=
  checked name modeX (-13) (routed name false (-1) Engine.extExecCheck)

def fsStat {ε : Type} [ListingEngine ε] (name : Name) : StateM (Space ε) (Except Int (Nat × Nat)) :=
  checked name modeR (.error (-13)) (routed name false (.error (-1)) fun n => do
    return match ← ListingEngine.extStat n with
      | none => .error (-1)
      | some st => .ok st)

def fsTouch (name : Name) : StateM (Space ε) Int := checked name modeW (-13) (routed name true (-1) Engine.extTouch)

def fsMkdir (name : Name) : StateM (Space ε) Int := checked name modeW (-13) (routed name true (-1) Engine.extMkdir)

def fsIsDir (name : Name) : StateM (Space ε) Bool := checked name modeX false (plainIsDir name)

/-- `fs_rm` and `fs_rmdir` refuse mount points and the working directory. -/
def unprotected (name : Name) (op : Name → StateM ε Int) : StateM (Space ε) Int := do
  let s ← get
  if s.active && protectsMount s.mounts s.working name then return -1
  routed name true (-1) op

def fsRm (name : Name) : StateM (Space ε) Int := checked name modeW (-13) (unprotected name Engine.extRm)

def fsRmdir (name : Name) : StateM (Space ε) Int := checked name modeW (-13) (unprotected name Engine.extRmdir)

def fsRead (name : Name) (offset size : Nat) : StateM (Space ε) (Except Int (List UInt8)) :=
  checked name modeR (.error (-13)) do
    return match ← plainRead name offset size with
      | none => .error (-1)
      | some data => .ok data

def fsGetdents {ε : Type} [ListingEngine ε] (name : Name) (capacity position : Nat) :
    StateM (Space ε) (Int × List UInt8 × Nat) :=
  checked name modeR (-13, [], position) (routed name false (-1, [], position) fun n =>
    ListingEngine.extGetdents n capacity position)

def fsWrite (name : Name) (data : List UInt8) : StateM (Space ε) Int := checked name modeW (-13) (plainWrite name data)

def fsAppend (name : Name) (data : List UInt8) : StateM (Space ε) Int :=
  checked name modeW (-13) (routed name true (-1) fun n => Engine.extAppend n data)

def fsCd (name : Name) : StateM (Space ε) Int := checked name modeX (-13) do
  let s ← get
  if !s.active then onEngine (Engine.extCd name)
  else
    match normalize s.working name with
    | none => return -1
    | some path =>
      if !(← fsIsDir path) then return -1
      modify ({ · with working := path })
      return 0

/-- `fs_getcwd`: the path written, or the error code. -/
def fsGetcwd (capacity : Nat) : StateM (Space ε) (Except Int Name) := do
  let s ← get
  if !s.active then onEngine (Engine.extGetcwd capacity)
  else return if capacity < s.working.length + 1 then .error (-34) else .ok s.working

/-! ## For the loader and the system calls -/

/-- The size of a program, or why it is none. -/
def programSize (name : Name) : StateM (Space ε) Int := do
  let result ← routed name false (-1) Engine.extExecCheck
  if result ≠ 0 then return result
  plainSize name

/-- `fs_load_executable`: the content of a program, under the `x` right alone. -/
def fsLoadExecutable (name : Name) (capacity : Nat) : StateM (Space ε) (Except Int (List UInt8)) :=
  checked name modeX (.error (-13)) do
    let n ← programSize name
    if n < 0 then return .error n
    if (capacity : Int) < n then return .error (-5)
    match ← plainRead name 0 n.toNat with
    | some data => return if data.length = n.toNat then .ok data else .error (-5)
    | none => return .error (-5)

def anyRight (name : Name) : StateM (Space ε) Bool := do
  if ← checkPermission name modeR then return true
  if ← checkPermission name modeW then return true
  checkPermission name modeX

/-- `fs_file_size`: any one right is enough. -/
def fsFileSize (name : Name) : StateM (Space ε) Int := do
  if !(← anyRight name) then return -13
  plainSize name

/-- `FS_MAX_FILE_SIZE` -/
def maxFileSize : Nat := (12 + 256) * 1024

/-- `data` with `bytes` at `position`, behind zeros if it is too short. -/
def patched (data : List UInt8) (position : Nat) (bytes : List UInt8) : List UInt8 :=
  let whole := data ++ List.replicate (position + bytes.length - data.length) 0
  whole.take position ++ bytes ++ whole.drop (position + bytes.length)

/-- `fs_pwrite`: reads the whole file, changes it and writes it back. -/
def fsPwrite (name : Name) (position : Nat) (bytes : List UInt8) (append : Bool) : StateM (Space ε) Int :=
  checked name modeW (-13) do
    let size ← plainSize name
    if size < 0 then return -5
    let position := if append then size.toNat else position
    if maxFileSize < position ∨ maxFileSize - position < bytes.length then return -27
    match ← plainRead name 0 size.toNat with
    | none => return -5
    | some data =>
      if data.length ≠ size.toNat then return -5
      let result ← plainWrite name (patched data position bytes)
      return if result ≠ 0 then -5 else position + bytes.length

/-! ## Two names -/

def fsCp (source dest : Name) : StateM (Space ε) Int :=
  checked source modeR (-13) <| checked dest modeW (-13) do
    if !(← get).active then onEngine (Engine.extCp source dest)
    else
      let size ← fsSize source
      if size < 0 then return -1
      if 0 ≤ (← fsSize dest) then return -1
      if ← fsIsDir dest then return -1
      match ← fsRead source 0 size.toNat with
      | .error _ => return -1
      | .ok data => if data.length ≠ size.toNat then return -1 else fsWrite dest data

/-- The rename itself: the engine's working directory is chosen again, since
publishing the guard has moved it. -/
def renameEntry (source dst : Name) : StateM (Space ε) Int := do
  match ← route source true with
  | none => return -1
  | some src =>
    let result ← onEngine (Engine.extMv src dst)
    if result = 0 then permissionsMoveFinish
    return result

/-- The part of `fs_mv` after the checks: both names must be in one directory of
one volume, and the guard goes out before the rename. -/
def moveEntry (source dest : Name) : StateM (Space ε) Int := do
  let s ← get
  if protectsMount s.mounts s.working source then return -1
  match normalize s.working source, normalize s.working dest with
  | some a, some b =>
    if volumeFor s.mounts a ≠ volumeFor s.mounts b then return -1
    if (← route source true) = none then return -1
    let parent := Engine.cwd (← get).engine
    match ← route dest true with
    | none => return -1
    | some dst =>
      if Engine.cwd (← get).engine ≠ parent then return -1
      if (← permissionsMoveCommit) ≠ 0 then return -1
      renameEntry source dst
  | _, _ => return -1

def fsMv (source dest : Name) : StateM (Space ε) Int :=
  checked source modeW (-13) <| checked dest modeW (-13) do
    if (← permissionsMovePrepare source dest) ≠ 0 then return -13
    if !(← get).active then onEngine (Engine.extMv source dest)
    else moveEntry source dest

/-! ## Mounts -/

/-- `fs_sync`: every mounted volume, with the number that failed. -/
def syncLoop : List (Fin 8) → StateM (Space ε) Int
  | [] => return 0
  | i :: rest => do
    let failed ←
      if ((← get).mounts i).used then
        if !(← activate (some i)) then pure true
        else pure ((← onEngine (ε := ε) Engine.extSync) != 0)
      else pure false
    let result ← syncLoop rest
    return if failed then -1 else result

def fsSync : StateM (Space ε) Int := do
  if !(← get).active then onEngine Engine.extSync else syncLoop (List.finRange 8)

/-- The slot `fs_mount` uses for `path`: the first free one, or for `/` the one
mounted there; `none` when `path` is taken or no slot is free. -/
def mountSlot (mounts : Fin 8 → Mount) (path : Name) : List (Fin 8) → Option (Fin 8) → Option (Fin 8)
  | [], slot => slot
  | i :: rest, slot =>
    if (mounts i).used ∧ (mounts i).path = path then (if path = [slash] then some i else none)
    else mountSlot mounts path rest (if (mounts i).used then slot else slot.or (some i))

def fsMount (device mountpoint : Name) : StateM (Space ε) Int := do
  if (← get).user ≠ root then return -13
  namespaceStart
  let s ← get
  match normalize s.working mountpoint with
  | none => return -1
  | some path =>
    match mountSlot s.mounts path (List.finRange 8) none with
    | none => return -1
    | some slot =>
      if path ≠ [slash] then
        if !(← fsIsDir path) then return -1
      else if (List.finRange 8).any fun i => (s.mounts i).used && (s.mounts i).path != [slash] then return -1
      if !(← onEngine (Engine.diskSelect (ε := ε) false device)) then return -1
      let next := Engine.diskSelection (← get).engine
      modify ({ · with activeVolume := none })
      if (List.finRange 8).any fun i => (s.mounts i).used && i != slot && (s.mounts i).disk.id == next.id &&
          (s.mounts i).disk.offset == next.offset then return -1
      if !(← onEngine (ε := ε) Engine.extInit) then return -1
      modify fun s => { s with
        mounts := Function.update s.mounts slot ⟨true, next, path⟩
        activeVolume := some slot
        working := if path = [slash] then [slash] else s.working }
      return 0

/-- `fs_unmount_path`; `none` is the volume of the working directory. -/
def fsUnmountPath (name : Option Name) : StateM (Space ε) Int := do
  if (← get).user ≠ root then return -13
  namespaceStart
  let s ← get
  match normalize s.working (name.getD s.working) with
  | none => return -1
  | some path =>
    match volumeFor s.mounts path with
    | none => return -1
    | some v =>
      if name.isSome ∧ path ≠ (s.mounts v).path then return -1
      if (List.finRange 8).any fun i => i != v && (s.mounts i).used && beneath (s.mounts i).path (s.mounts v).path then
        return -1
      onEngine (Engine.diskRestore (ε := ε) (s.mounts v).disk)
      modify ({ · with activeVolume := none })
      if ← onEngine (ε := ε) Engine.diskPresent then
        if !(← activate (some v)) then return -1
        if (← onEngine (ε := ε) Engine.extSync) ≠ 0 then return -1
      modify fun s => { s with mounts := Function.update s.mounts v { s.mounts v with used := false }, activeVolume := none }
      onEngine (ε := ε) Engine.unmount
      onEngine (ε := ε) Engine.diskDeselect
      modify fun s => { s with working := if beneath s.working (s.mounts v).path then [slash] else s.working }
      return 0

/-- `fs_format`: a device no mounted volume overlaps. -/
def fsFormat (device : Name) : StateM (Space ε) Int := do
  if (← get).user ≠ root then return -13
  namespaceStart
  if !(← onEngine (Engine.diskSelect (ε := ε) true device)) then return -1
  let s ← get
  let target := Engine.diskSelection s.engine
  modify ({ · with activeVolume := none })
  if (List.finRange 8).any fun i => (s.mounts i).used && (s.mounts i).disk.id == target.id &&
      target.offset < (s.mounts i).disk.offset + (s.mounts i).disk.sectors &&
      (s.mounts i).disk.offset < target.offset + target.sectors then return -1
  return if ← onEngine (ε := ε) Engine.formatSelected then 0 else -1

end Barnix.Vfs
