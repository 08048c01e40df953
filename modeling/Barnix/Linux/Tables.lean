import Barnix.Linux.State
/-!
# Descriptors and pipes

The functions of `linux_syscall.c` that work on the descriptor tables and on
pipes, as functions on `Tables`.
-/

namespace Barnix.Linux

namespace Tables

/-- `files[fd]` -/
def file (t : Tables) (fd : Fd) : Option Description := t.taskFiles t.fileTask fd

def getFile (t : Tables) (fd : Nat) : Option Description := if h : fd < 16 then t.file ⟨fd, h⟩ else none

/-- `free_fd`: the first free descriptor from `minimum` on. -/
def freeFd (t : Tables) (minimum : Nat) : Option Fd :=
  (List.finRange 16).find? fun i => minimum ≤ i.val && (t.file i).isNone

/-- The first description that no descriptor refers to. -/
def freeDescription (t : Tables) : Option Description := (List.finRange 48).find? fun d => (t.descriptions d).refs == 0

def setDescription (t : Tables) (d : Description) (file : OpenFile) : Tables :=
  { t with descriptions := Function.update t.descriptions d file }

def note (t : Tables) (e : Traffic) : Tables := { t with traffic := e :: t.traffic }

def setPipe (t : Tables) (p : PipeId) (pipe : Pipe) : Tables := { t with pipes := Function.update t.pipes p pipe }

/-- `task_files[slot][fd] = file; task_flags[slot][fd] = flags`. -/
def setFd (t : Tables) (slot : Slot) (fd : Fd) (file : Option Description) (flags : Nat) : Tables :=
  { t with
    taskFiles := Function.update t.taskFiles slot (Function.update (t.taskFiles slot) fd file)
    taskFlags := Function.update t.taskFlags slot (Function.update (t.taskFlags slot) fd flags) }

/-- One reader or writer less, by the kind of the description that goes. -/
def Pipe.drop (pipe : Pipe) (flags : Nat) : Pipe :=
  if flags &&& oAccmode ≠ 0 then { pipe with writers := pipe.writers - 1 } else { pipe with readers := pipe.readers - 1 }

/-- One reference less, and with the last one also the pipe end. -/
def release (t : Tables) (d : Description) : Tables :=
  let file := t.descriptions d
  let t := t.setDescription d { file with refs := file.refs - 1 }
  if file.refs - 1 = 0 then
    match file.pipe with
    | none => t
    | some p => t.setPipe p (Pipe.drop (t.pipes p) file.flags)
  else t

/-- `close_fd` of an open descriptor of `slot`. -/
def closeFd (t : Tables) (slot : Slot) (fd : Fd) : Tables :=
  match t.taskFiles slot fd with
  | none => t
  | some d => (t.release d).setFd slot fd none 0

/-- The loop of `linux_syscall_exec`. -/
def syscallExec (t : Tables) : Tables :=
  (List.finRange 16).foldl (fun t fd => if t.taskFlags t.fileTask fd &&& 1 ≠ 0 then t.closeFd t.fileTask fd else t) t

/-- `linux_files_exit` -/
def filesExit (t : Tables) (slot : Slot) : Tables :=
  (List.finRange 16).foldl (fun t fd => t.closeFd slot fd)
    { t with pending := Function.update t.pending slot { t.pending slot with active := false } }

/-- One more reference to what `fd` of the parent refers to, for the child. -/
def shareFd (parent child : Slot) (t : Tables) (fd : Fd) : Tables :=
  let t' := t.setFd child fd (t.taskFiles parent fd) (t.taskFlags parent fd)
  match t.taskFiles parent fd with
  | none => t'
  | some d => t'.setDescription d { t.descriptions d with refs := (t.descriptions d).refs + 1 }

/-- `linux_files_fork` -/
def filesFork (t : Tables) (parent child : Slot) : Tables :=
  (List.finRange 16).foldl (shareFd parent child)
    { t with pending := Function.update t.pending child { t.pending child with active := false } }

/-- `files[fd] = file; file->refs++`. -/
def share (t : Tables) (fd : Fd) (d : Description) : Tables :=
  (t.setFd t.fileTask fd (some d) 0).setDescription d { t.descriptions d with refs := (t.descriptions d).refs + 1 }

/-- The first two of a list. -/
def two {α : Type} : List α → Option (α × α)
  | a :: b :: _ => some (a, b)
  | _ => none

/-- One end of a new pipe at `fd`. -/
def openEnd (t : Tables) (fd : Fd) (d : Description) (p : PipeId) (mode flags : Nat) : Tables :=
  (t.setDescription d { (default : OpenFile) with refs := 1, pipe := some p, flags := mode ||| (flags &&& oNonblock) }).setFd
    t.fileTask fd (some d) (if flags &&& oCloexec ≠ 0 then 1 else 0)

/-- The empty pipe, with its two ends to be opened. -/
def newPipe (t : Tables) (p : PipeId) : Tables :=
  (t.setPipe p { t.pipes p with head := 0, used := 0, readers := 1, writers := 1 }).note (.created p)

/-- `create_pipe` after its checks of the arguments: the two descriptors. -/
def createPipe (t : Tables) (flags : Nat) : Except Int (Fd × Fd × Tables) :=
  match two ((List.finRange 16).filter fun i => (t.file i).isNone) with
  | none => .error (-24)
  | some (fd₀, fd₁) =>
    match two ((List.finRange 48).filter fun d => (t.descriptions d).refs == 0) with
    | none => .error (-23)
    | some (d₀, d₁) =>
      match (List.finRange 24).find? fun p => (t.pipes p).readers == 0 && (t.pipes p).writers == 0 with
      | none => .error (-23)
      | some p =>
        .ok (fd₀, fd₁, ((t.newPipe p).openEnd fd₀ d₀ p 0 flags).openEnd fd₁ d₁ p oWronly flags)

/-- `linux_syscall_reset` -/
def reset : Tables where
  pipes := fun _ => default
  pending := fun _ => default
  descriptions := fun d =>
    if d.val < 3 then { (default : OpenFile) with refs := 1, terminal := true, flags := if d.val = 0 then 0 else oWronly }
    else default
  taskFiles := fun slot fd => if slot = 0 ∧ fd.val < 3 then some (fd.castLE (by decide)) else none
  taskFlags := fun _ _ => 0
  fileTask := 0
  traffic := []

end Tables

/-! ## Transfers on pipes -/

/-- The pipe and the transfer on it, with the user's memory. `bytes` records what is
moved. -/
structure Ring where
  pipe : Pipe
  io : PipeIo
  memory : Memory
  bytes : List UInt8

namespace Ring

/-- The bytes that the next step moves: up to the end of the vector entry, of what is
`available`, and of the buffer. -/
def chunk (r : Ring) (v : IoVector) (available : Nat) : Nat :=
  let position := if r.io.writing then (r.pipe.head + r.pipe.used) % pipeSize else r.pipe.head
  min (min (v.length - r.io.offset) available) (pipeSize - position)

/-- One `memcpy` between the buffer and the vector entry `v`. -/
def copy (r : Ring) (v : IoVector) (n : Nat) : Ring :=
  let address := v.address + r.io.offset
  let io := { r.io with offset := r.io.offset + n, total := r.io.total + n }
  if r.io.writing then
    let position := (r.pipe.head + r.pipe.used) % pipeSize
    { r with
      io := io
      bytes := r.bytes ++ r.memory.load address n
      pipe := { r.pipe with data := r.pipe.data.write position (r.memory.load address n), used := r.pipe.used + n } }
  else
    { io := io
      bytes := r.bytes ++ r.pipe.data.read r.pipe.head n
      memory := r.memory.store address (r.pipe.data.read r.pipe.head n)
      pipe := { r.pipe with used := r.pipe.used - n, head := (r.pipe.head + n) % pipeSize } }

/-- The loop of `linux_io_resume`. Every round passes a vector entry or moves a byte. -/
def loop (r : Ring) : Nat → Nat → Ring
  | 0, _ => r
  | rounds + 1, available =>
    if available = 0 then r
    else
      match r.io.vectors[r.io.index]? with
      | none => r
      | some v =>
        if r.io.offset = v.length then loop { r with io := { r.io with index := r.io.index + 1, offset := 0 } } rounds available
        else loop (r.copy v (r.chunk v available)) rounds (available - r.chunk v available)

/-- The bytes, or the free bytes, of the pipe. -/
def available (r : Ring) : Nat := if r.io.writing then pipeSize - r.pipe.used else r.pipe.used

/-- Nothing can be moved now: the pipe is empty, or full, or has too little room for a
write that must not be split. -/
def blocked (r : Ring) : Bool :=
  r.available == 0 || (r.io.writing && r.io.length ≤ pipeSize && r.available < r.io.length)

/-- After the loop, with as much moved as possible. -/
def moved (r : Ring) : Ring :=
  let amount := min r.available (r.io.length - r.io.total)
  r.loop (amount + r.io.vectors.length) amount

def deactivate (r : Ring) : Ring := { r with io := { r.io with active := false } }

/-- `linux_io_resume` on the pipe of a description with these flags. -/
def resume (r : Ring) (flags : Nat) : Result × Ring :=
  if r.io.writing ∧ r.pipe.readers = 0 then (.sigpipe, r.deactivate)
  else if ¬r.io.writing ∧ r.pipe.used = 0 ∧ r.pipe.writers = 0 then (.value 0, r.deactivate)
  else if r.blocked then
    if flags &&& oNonblock = 0 then (.wait, r)
    else (.value (if r.io.total ≠ 0 then r.io.total else -11), r.deactivate)
  else if r.moved.io.writing ∧ r.moved.io.total < r.moved.io.length ∧ flags &&& oNonblock = 0 then (.wait, r.moved)
  else (.value r.moved.io.total, r.moved.deactivate)

end Ring

/-- The pipe that the blocked or new transfer of `slot` is on. -/
def Tables.ioPipe (t : Tables) (slot : Slot) : Option (PipeId × Nat) := do
  let fd := (t.pending slot).fd
  let d ← if h : fd < 16 then t.taskFiles slot ⟨fd, h⟩ else none
  let p ← (t.descriptions d).pipe
  return (p, (t.descriptions d).flags)

/-- `linux_io_ready` -/
def Tables.ioReady (t : Tables) (slot : Slot) : Bool :=
  let io := t.pending slot
  io.active &&
    match t.ioPipe slot with
    | none => false
    | some (p, flags) =>
      let pipe := t.pipes p
      if flags &&& oNonblock ≠ 0 then true
      else if !io.writing then pipe.used ≠ 0 || pipe.writers == 0
      else pipe.readers == 0 || (if io.length ≤ pipeSize then io.length else 1) ≤ pipeSize - pipe.used

/-- All bytes of the vector entries. -/
def PipeIo.payload (io : PipeIo) (m : Memory) : List UInt8 := io.vectors.flatMap fun v => m.load v.address v.length

/-- What one turn of a transfer adds to the record. -/
def turn (slot : Slot) (p : PipeId) (writing : Bool) (offered bytes : List UInt8) (result : Result) : List Traffic :=
  (if result = .wait then [] else [.answered slot result]) ++
    if bytes = [] then [] else [.moved slot p writing offered bytes]

/-- `linux_io_resume` of the current task. -/
def Tables.ioResume (t : Tables) (m : Memory) : Result × Tables × Memory :=
  let io := t.pending t.fileTask
  match t.ioPipe t.fileTask with
  | none => (.value 0, t, m)
  | some (p, flags) =>
    match Ring.resume ⟨t.pipes p, io, m, []⟩ flags with
    | (result, r) =>
      (result, { t with
        pipes := Function.update t.pipes p r.pipe
        pending := Function.update t.pending t.fileTask r.io
        traffic := turn t.fileTask p io.writing (io.payload m) r.bytes result ++ t.traffic }, r.memory)

/-- The entries of a vector list in user memory. -/
def vectorsAt (m : Memory) (address count : Nat) : List IoVector :=
  (List.range count).map fun i => ⟨m.word (address + 8 * i), m.word (address + 8 * i + 4)⟩

/-- The checks of the vector entries: the summed length, or the error. -/
def checkVectors (m : Memory) : List IoVector → Nat → Except Int Nat
  | [], length => .ok length
  | v :: rest, length =>
    if 0x7fffffff - length < v.length then .error (-22)
    else if v.length ≠ 0 ∧ !m.userRange v.address v.length then .error (-14)
    else checkVectors m rest (length + v.length)

/-- A description with these flags cannot be read, or written. -/
def wrongMode (flags : Nat) (writing : Bool) : Bool :=
  if writing then flags &&& oAccmode == 0 else flags &&& oAccmode == oWronly

/-- The transfer that `pipe_transfer` sets up. -/
def newIo (old : PipeIo) (fd count : Nat) (writing vectored : Bool) : PipeIo :=
  { old with
    active := false, fd := fd, writing := writing, count := if vectored then count else 1
    index := 0, offset := 0, total := 0, length := 0 }

def Tables.setIo (t : Tables) (io : PipeIo) : Tables := { t with pending := Function.update t.pending t.fileTask io }

/-- A transfer starts. -/
def Tables.beginIo (t : Tables) (io : PipeIo) : Tables := (t.setIo io).note (.called t.fileTask io.writing io.length)

/-- A transfer ends before it moves anything. -/
def Tables.refuse (t : Tables) (io : PipeIo) (n : Int) : Tables :=
  (t.beginIo io).note (.answered t.fileTask (.value n))

/-- `pipe_transfer` on a description with these flags. -/
def Tables.pipeTransfer (t : Tables) (m : Memory) (flags fd address count : Nat) (writing vectored : Bool) :
    Result × Tables × Memory :=
  if wrongMode flags writing then (.value (-9), t, m)
  else
    let io := newIo (t.pending t.fileTask) fd count writing vectored
    if vectored ∧ iovMax < count then (.value (-22), t.refuse io (-22), m)
    else if vectored ∧ count ≠ 0 ∧ !m.userRange address (count * 8) then (.value (-14), t.refuse io (-14), m)
    else
      let vectors := if vectored then vectorsAt m address count else [⟨address, count⟩]
      match checkVectors m vectors 0 with
      | .error e => (.value e, t.refuse { io with vectors := vectors } e, m)
      | .ok length =>
        if length = 0 then (.value 0, t.refuse { io with vectors := vectors } 0, m)
        else (t.beginIo { io with vectors := vectors, active := true, length := length }).ioResume m

end Barnix.Linux
