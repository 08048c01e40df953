import Barnix.Lib.Bytes
import Barnix.Lib.Clients
import Barnix.Vfs.Passages
/-!
# An engine on a disk layer

The engine under the namespace as the disk layer sees it: a driver that gives
one command after another, whatever they are, for the volume it has loaded. The
selection it loaded the volume from is recorded, and so is, in the layer, for
which volume the commands are given.
-/

namespace Barnix.Vfs

abbrev Sector := Buf 512

/-- `disk_read_many`, `disk_write` and `disk_flush`. -/
inductive DiskCommand where
  | read (lba count : Nat)
  | write (lba : Nat) (data : Sector)
  | flush

def DiskCommand.Answer : DiskCommand → Type
  | read _ _ => Option (List Sector)
  | write _ _ => Bool
  | flush => Bool

def DiskCommand.Reads : DiskCommand → Prop
  | read _ _ => True
  | write _ _ | flush => False

/-- The functions of `disk.c`. `client` is the volume that commands are given for. -/
class Layer (δ : Type) where
  selection : δ → DiskSelection
  client : δ → Option DiskSelection
  serve : Option DiskSelection → StateM δ Unit
  select : (raw : Bool) → Name → StateM δ Bool
  restore : DiskSelection → StateM δ Unit
  deselect : StateM δ Unit
  present : StateM δ Bool
  command : (c : DiskCommand) → StateM δ c.Answer

abbrev DiskClient := Client DiskCommand DiskCommand.Answer

/-- The engine's programs, over its own data `κ`. Loading a volume only reads; a
request may end with the volume unmounted. -/
structure Driver (κ : Type) where
  dir : κ → Nat
  toRoot : κ → κ
  load : Sector → κ → DiskClient (κ × Bool)
  load_reads : ∀ low image, (load low image).Only DiskCommand.Reads
  perform : {α : Type} → Request α → κ → DiskClient (α × κ × Bool)
  format : κ → DiskClient (κ × Bool)

structure Machine (δ : Type) {κ : Type} (D : Driver κ) where
  disk : δ
  mounted : Bool
  loaded : Option DiskSelection
  image : κ

/-- The answer of an engine without a volume. -/
def Request.refused {α : Type} (request : Request α) : α :=
  match request with
  | .execCheck _ => -5
  | .isDir _ => false
  | .stat _ => none
  | .read _ _ _ => none
  | .getdents _ _ position => (-1, [], position)
  | .getcwd _ => .error (-5)
  | .size _ | .cd _ | .touch _ | .mkdir _ | .write _ _ | .append _ _ | .cp _ _ | .mv _ _ | .rm _ | .rmdir _ | .sync
  | .markExecutable _ => -1

namespace Machine

variable {δ κ α : Type} [Layer δ] {D : Driver κ}

def onDisk (x : StateM δ α) : StateM (Machine δ D) α := zoom Machine.disk (fun d m => { m with disk := d }) x

def engineReady : StateM (Machine δ D) Bool := do
  if (← get).mounted then
    if !(← onDisk (Layer.present (δ := δ))) then modify ({ · with mounted := false })
  return (← get).mounted

/-- An operation of the engine: it looks whether its device is still there, and runs. -/
def perform (request : Request α) : StateM (Machine δ D) α := do
  if !(← engineReady) then return request.refused
  let m ← get
  onDisk (Layer.serve m.loaded)
  let (a, image, keep) ← onDisk ((D.perform request m.image).run Layer.command)
  onDisk (Layer.serve none)
  modify fun m => { m with image := image, mounted := m.mounted && keep }
  return a

/-- The part of `ext_init` after its first command. -/
def loadVolume (first : Option (List Sector)) : StateM (Machine δ D) Bool := do
  match first with
  | some (low :: _) =>
    let (image, ok) ← onDisk ((D.load low (← get).image).run Layer.command)
    modify fun m => { m with image := image, mounted := ok, loaded := if ok then some (Layer.selection m.disk) else none }
    return ok
  | _ => return false

/-- `ext_init`: the first command reads the first half of the superblock. -/
def extInit : StateM (Machine δ D) Bool := do
  modify ({ · with mounted := false, loaded := none })
  loadVolume (← onDisk (Layer.command (δ := δ) (.read 2 1)))

/-- `fs_format_selected` -/
def formatSelected : StateM (Machine δ D) Bool := do
  let m ← get
  if (Layer.selection m.disk).sectors < 4096 then return false
  modify ({ · with mounted := false })
  let (image, ok) ← onDisk ((D.format m.image).run Layer.command)
  modify ({ · with image := image })
  return ok

instance : ListingEngine (Machine δ D) where
  Dir := Nat
  dirEq := inferInstance
  diskSelection m := Layer.selection m.disk
  diskRestore selection := onDisk (Layer.restore selection)
  diskDeselect := onDisk Layer.deselect
  diskSelect raw name := onDisk (Layer.select raw name)
  diskPresent := onDisk Layer.present
  engineReady := engineReady
  unmount := modify ({ · with mounted := false })
  cwd m := D.dir m.image
  cwdRoot := modify fun m => { m with image := D.toRoot m.image }
  extInit := extInit
  extSize name := perform (.size name)
  extExecCheck name := perform (.execCheck name)
  extIsDir name := perform (.isDir name)
  extRead name offset size := perform (.read name offset size)
  extCd name := perform (.cd name)
  extGetcwd capacity := perform (.getcwd capacity)
  extTouch name := perform (.touch name)
  extMkdir name := perform (.mkdir name)
  extWrite name data := perform (.write name data)
  extAppend name data := perform (.append name data)
  extCp source dest := perform (.cp source dest)
  extMv source dest := perform (.mv source dest)
  extRm name := perform (.rm name)
  extRmdir name := perform (.rmdir name)
  extSync := perform .sync
  markExecutable name := perform (.markExecutable name)
  formatSelected := formatSelected
  extStat name := perform (.stat name)
  extGetdents name capacity position := perform (.getdents name capacity position)

theorem ask_eq (request : Request α) : (request.ask : StateM (Machine δ D) α) = perform request := by
  cases request <;> rfl

end Machine

end Barnix.Vfs
