import Barnix.Lib.Program
import Barnix.Path
import Mathlib.Data.List.FinRange
import Mathlib.Logic.Function.Basic
/-!
# The namespace

The mount table and the routing of names to mounted volumes (`vfs.inc`), over
any engine: what the namespace uses of the disk layer and of the ext2 engine is
the class `Engine`.
-/

namespace Barnix.Vfs

/-- `DiskSelection`: a device, and the part of it that is used. -/
structure DiskSelection where
  id : Nat
  offset : Nat
  sectors : Nat
  generation : Nat
deriving DecidableEq

/-- The disk layer's selection and the ext2 engine working on it. `Dir` names
the engine's working directory. -/
class Engine (ε : Type) where
  Dir : Type
  dirEq : DecidableEq Dir
  diskSelection : ε → DiskSelection
  diskRestore : DiskSelection → StateM ε Unit
  diskDeselect : StateM ε Unit
  /-- `disk_select`, or `disk_select_raw`. -/
  diskSelect : (raw : Bool) → Name → StateM ε Bool
  diskPresent : StateM ε Bool
  engineReady : StateM ε Bool
  /-- `mounted = 0`. -/
  unmount : StateM ε Unit
  cwd : ε → Dir
  /-- `cwd = ROOT_INO`. -/
  cwdRoot : StateM ε Unit
  extInit : StateM ε Bool
  extSize : Name → StateM ε Int
  extExecCheck : Name → StateM ε Int
  extIsDir : Name → StateM ε Bool
  extRead : Name → Nat → Nat → StateM ε (Option (List UInt8))
  extCd : Name → StateM ε Int
  extGetcwd : Nat → StateM ε (Except Int Name)
  extTouch : Name → StateM ε Int
  extMkdir : Name → StateM ε Int
  extWrite : Name → List UInt8 → StateM ε Int
  extAppend : Name → List UInt8 → StateM ε Int
  extCp : Name → Name → StateM ε Int
  extMv : Name → Name → StateM ε Int
  extRm : Name → StateM ε Int
  extRmdir : Name → StateM ε Int
  extSync : StateM ε Int
  /-- The step of `set_file_permissions` that adds the mode bits 0111. -/
  markExecutable : Name → StateM ε Int
  /-- `fs_format_selected`. -/
  formatSelected : StateM ε Bool

/-- The engine's reports on inodes and directories. -/
class ListingEngine (ε : Type) extends Engine ε where
  extStat : Name → StateM ε (Option (Nat × Nat))
  extGetdents : Name → Nat → Nat → StateM ε (Int × List UInt8 × Nat)

instance (ε : Type) [Engine ε] : DecidableEq (Engine.Dir ε) := Engine.dirEq

structure Mount where
  used : Bool
  disk : DiskSelection
  path : Name
deriving DecidableEq

/-- The namespace's static data. `renamedAcl`, `renameGuard` and
`renamedAclNeeded` are staged by a rename. -/
structure Space (ε : Type) where
  mounts : Fin 8 → Mount
  working : Name
  active : Bool
  activeVolume : Option (Fin 8)
  user : Name
  renamedAcl : Name
  renameGuard : Name
  renamedAclNeeded : Bool
  engine : ε

variable {ε α : Type} [Engine ε]

def onEngine (x : StateM ε α) : StateM (Space ε) α := zoom Space.engine (fun e s => { s with engine := e }) x

def noDisk : DiskSelection := ⟨0, 0, 0, 0⟩

def namespaceStart : StateM (Space ε) Unit := do
  if (← get).active then return
  let ready ← onEngine (ε := ε) Engine.engineReady
  let disk := Engine.diskSelection (← get).engine
  let cwd ← onEngine (Engine.extGetcwd (ε := ε) pathCap)
  modify fun s => { s with
    mounts := fun i => if i = 0 then ⟨ready, disk, [slash]⟩ else ⟨false, noDisk, []⟩
    working := match cwd with
      | .ok path => path
      | .error _ => [slash]
    activeVolume := if ready then some 0 else none
    active := true }

/-- One round of the search of `volume_for`. -/
def closer (mounts : Fin 8 → Mount) (path : Name) (best : Option (Fin 8)) (i : Fin 8) : Option (Fin 8) :=
  if (mounts i).used && beneath path (mounts i).path &&
      (best.all fun b => (mounts b).path.length < (mounts i).path.length) then some i
  else best

def volumeFor (mounts : Fin 8 → Mount) (path : Name) : Option (Fin 8) :=
  (List.finRange 8).foldl (closer mounts path) none

def activate (index : Option (Fin 8)) : StateM (Space ε) Bool := do
  match index with
  | none => return false
  | some v =>
    let s ← get
    if s.activeVolume ≠ some v then
      onEngine (Engine.diskRestore (ε := ε) (s.mounts v).disk)
      modify ({ · with activeVolume := none })
      if !(← onEngine (ε := ε) Engine.extInit) then return false
      modify ({ · with activeVolume := some v })
    onEngine Engine.engineReady

/-- The path inside the volume mounted at `mount`. -/
def localPath (mount path : Name) : Name :=
  let rest := if mount = [slash] then path else path.drop mount.length
  if rest = [] then [slash] else rest

/-- `route`: activates the volume of `name` and leaves its engine in the root,
or in the parent of `name` when `parent` is set; the name to use there. -/
def route (name : Name) (parent : Bool) : StateM (Space ε) (Option Name) := do
  let s ← get
  match normalize s.working name with
  | none => return none
  | some path =>
    let v := volumeFor s.mounts path
    if !(← activate v) then return none
    let loc := localPath ((v.map fun v => (s.mounts v).path).getD []) path
    onEngine (ε := ε) Engine.cwdRoot
    if !parent then return some loc
    if baseName loc = [] then return none
    if (← onEngine (Engine.extCd (ε := ε) (parentName loc))) ≠ 0 then return none
    return some (baseName loc)

/-- `protects_mount`: a mount point or the working directory is at or beneath `name`. -/
def protectsMount (mounts : Fin 8 → Mount) (working name : Name) : Bool :=
  match normalize working name with
  | none => true
  | some path => (List.finRange 8).any (fun i => (mounts i).used && beneath (mounts i).path path) || beneath working path

/-- A file operation without its permission check, as the kernel's own calls
(`permission_internal`) run it. -/
def routed (name : Name) (parent : Bool) (bad : α) (op : Name → StateM ε α) : StateM (Space ε) α := do
  if !(← get).active then onEngine (op name)
  else
    match ← route name parent with
    | none => return bad
    | some loc => onEngine (op loc)

def plainSize (name : Name) : StateM (Space ε) Int := routed name false (-1) Engine.extSize
def plainIsDir (name : Name) : StateM (Space ε) Bool := routed name false false Engine.extIsDir
def plainRead (name : Name) (offset size : Nat) : StateM (Space ε) (Option (List UInt8)) :=
  routed name false none fun n => Engine.extRead n offset size
def plainWrite (name : Name) (data : List UInt8) : StateM (Space ε) Int :=
  routed name true (-1) fun n => Engine.extWrite n data

end Barnix.Vfs
