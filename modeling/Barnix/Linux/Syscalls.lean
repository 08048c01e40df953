import Barnix.Linux.Exec
/-!
# System calls

`linux_syscall_dispatch`: the calls that work on descriptors, files and the
task's own memory. Every call ends with a value, or asleep or killed on a pipe.
-/

namespace Barnix.Linux

open Vfs (Space ListingEngine)

variable {ε : Type} [ListingEngine ε]

def withTables (f : Tables → Tables) : StateM (Machine ε) Unit := modify fun m => { m with tables := f m.tables }

def storeUser (address : Nat) (bytes : List UInt8) : StateM (Machine ε) Unit :=
  modify fun m => { m with memory := m.memory.store address bytes }

/-- `copy_path` -/
def copyPath (m : Memory) (address : Nat) : Except Int Name :=
  match stagePath m pathSize address [] with
  | .ok [] => .error (-2)
  | other => other

/-! ## Reading and writing -/

/-- A transfer on a pipe runs on the tables and the user's memory. -/
def onPipe (flags fd address count : Nat) (writing vectored : Bool) : StateM (Machine ε) Result := modifyGet fun m =>
  match m.tables.pipeTransfer m.memory flags fd address count writing vectored with
  | (result, tables, memory) => (result, { m with tables := tables, memory := memory })

def setPosition (d : Description) (position : Nat) : StateM (Machine ε) Unit :=
  withTables fun t => t.setDescription d { t.descriptions d with position := position }

/-- The terminal reads one key, and prints everything. -/
def terminalTransfer (address count : Nat) (writing : Bool) : StateM (Machine ε) Int := modifyGet fun m =>
  if writing then (count, { m with screen := m.screen ++ m.memory.load address count })
  else (1, { m with memory := m.memory.store address [m.keys m.pressed], pressed := m.pressed + 1 })

/-- A transfer between a file and checked user memory. -/
def fileTransfer (d : Description) (file : OpenFile) (address count : Nat) (writing : Bool) : StateM (Machine ε) Int := do
  if !writing then
    match ← onSpace (Vfs.fsRead (ε := ε) file.name file.position count) with
    | .error _ => return -5
    | .ok data =>
      storeUser address data
      setPosition d (file.position + data.length)
      return data.length
  else
    let bytes := (← get).memory.load address count
    let finish ← onSpace (Vfs.fsPwrite (ε := ε) file.name file.position bytes (file.flags &&& oAppend != 0))
    if finish < 0 then return finish
    setPosition d finish.toNat
    return count

def transfer (fd address count : Nat) (writing : Bool) : StateM (Machine ε) Result := do
  let m ← get
  match m.tables.getFile fd with
  | none => return .value (-9)
  | some d =>
    let file := m.tables.descriptions d
    if wrongMode file.flags writing then return .value (-9)
    if file.directory then return .value (-21)
    if file.pipe.isSome then onPipe file.flags fd address count writing false
    else if count = 0 then return .value 0
    else if !m.memory.userRange address count then return .value (-14)
    else if file.terminal then return .value (← terminalTransfer address count writing)
    else return .value (← fileTransfer d file address count writing)

/-- The first loop of `readv` and `writev`: the summed length must stay below 2^31. -/
def vectorSum : List IoVector → Nat → Option Nat
  | [], sum => some sum
  | v :: rest, sum => if 0x7fffffff - sum < v.length then none else vectorSum rest (sum + v.length)

/-- The second loop, which reads each entry again when it comes to it. -/
def vectorLoop (fd address : Nat) (writing : Bool) : List Nat → Nat → StateM (Machine ε) Result
  | [], total => return .value total
  | i :: rest, total => do
    let m ← get
    let length := m.memory.word (address + 8 * i + 4)
    match ← transfer fd (m.memory.word (address + 8 * i)) length writing with
    | .value n =>
      if n < 0 then return .value (if total ≠ 0 then total else n)
      if n < (← get).memory.word (address + 8 * i + 4) then return .value (total + n)
      vectorLoop fd address writing rest (total + n.toNat)
    | other => return other

def sysVector (fd address count : Nat) (writing : Bool) : StateM (Machine ε) Result := do
  let m ← get
  match m.tables.getFile fd with
  | none => return .value (-9)
  | some d =>
    let file := m.tables.descriptions d
    if file.pipe.isSome then onPipe file.flags fd address count writing true
    else if 1024 < count then return .value (-22)
    else if count = 0 then return .value 0
    else if !m.memory.userRange address (count * 8) then return .value (-14)
    else
      match vectorSum (vectorsAt m.memory address count) 0 with
      | none => return .value (-22)
      | some _ => vectorLoop fd address writing (List.range count) 0

/-! ## Descriptors -/

def sysPipe (address flags : Nat) : StateM (Machine ε) Int := do
  let m ← get
  if !within flags (oNonblock ||| oCloexec) then return -22
  if !m.memory.userRange address 8 then return -14
  match m.tables.createPipe flags with
  | .error e => return e
  | .ok (fd₀, fd₁, tables) =>
    set { m with tables := tables, memory := m.memory.store address (wordBytes fd₀ ++ wordBytes fd₁) }
    return 0

def sysClose (fd : Nat) : StateM (Machine ε) Int := do
  let t := (← get).tables
  if h : fd < 16 then
    if (t.file ⟨fd, h⟩).isNone then return -9
    withTables fun t => t.closeFd t.fileTask ⟨fd, h⟩
    return 0
  else return -9

/-- The path of `open`: a relative one is put behind the working directory. -/
def openPath (path : Name) : StateM (Machine ε) (Except Int Name) := do
  if path.head? = some slash then return .ok path
  match ← onSpace (Vfs.fsGetcwd (ε := ε) pathSize) with
  | .error e => return .error e
  | .ok cwd =>
    let start := if 1 < cwd.length then cwd ++ [slash] else cwd
    if pathSize ≤ start.length + path.length then return .error (-36)
    return .ok (start ++ path)

/-- The checks of `open` on the file itself, and what they create or truncate; true for
a directory. -/
def openFile (path : Name) (b : Nat) : StateM (Space ε) (Except Int Bool) := do
  if b &&& oAccmode ≠ 1 then
    if !(← Vfs.checkPermission path Vfs.modeR) then return .error (-13)
  if b &&& oAccmode ≠ 0 then
    if !(← Vfs.checkPermission path Vfs.modeW) then return .error (-13)
  let directory ← Vfs.fsIsDir path
  if directory ∧ (b &&& oAccmode ≠ 0 ∨ b &&& (oCreat ||| oTrunc) ≠ 0) then return .error (-21)
  let size ← if directory then pure 0 else Vfs.fsFileSize path
  if b &&& oDirectory ≠ 0 ∧ !directory then return .error (if size < 0 then -2 else -20)
  if 0 ≤ size ∧ b &&& oCreat ≠ 0 ∧ b &&& oExcl ≠ 0 then return .error (-17)
  if size < 0 then
    if b &&& oCreat = 0 then return .error (-2)
    if (← Vfs.fsWrite path []) ≠ 0 then return .error (-5)
  if b &&& oTrunc ≠ 0 ∧ b &&& oAccmode ≠ 0 then
    if (← Vfs.fsWrite path []) ≠ 0 then return .error (-5)
  return .ok directory

/-- The new description of `open`. -/
def openedFile (path : Name) (b : Nat) (directory : Bool) : OpenFile :=
  { (default : OpenFile) with
    refs := 1
    flags := b &&& (oAccmode ||| oAppend ||| oNonblock ||| oDirectory)
    directory := directory
    name := path }

def sysOpen (address b : Nat) : StateM (Machine ε) Int := do
  match copyPath (← get).memory address with
  | .error e => return e
  | .ok path =>
    match ← openPath path with
    | .error e => return e
    | .ok path =>
      if b &&& oAccmode = 3 then return -22
      if !within b (oAccmode ||| oCreat ||| oExcl ||| oTrunc ||| oAppend ||| oNonblock ||| oDirectory ||| oCloexec) then
        return -22
      let t := (← get).tables
      match t.freeFd 0, t.freeDescription with
      | some fd, some d =>
        match ← onSpace (openFile path b) with
        | .error e => return e
        | .ok directory =>
          withTables fun t => (t.setDescription d (openedFile path b directory)).setFd t.fileTask fd (some d)
            (if b &&& oCloexec ≠ 0 then 1 else 0)
          return fd.val
      | _, _ => return -24

def sysDup (fd : Nat) : StateM (Machine ε) Int := do
  let t := (← get).tables
  match t.getFile fd with
  | none => return -9
  | some d =>
    match t.freeFd 0 with
    | none => return -24
    | some new =>
      withTables fun t => t.share new d
      return new.val

def sysDup2 (fd new : Nat) : StateM (Machine ε) Int := do
  let t := (← get).tables
  match t.getFile fd with
  | none => return -9
  | some d =>
    if h : new < 16 then
      if new = fd then return new
      withTables fun t => (t.closeFd t.fileTask ⟨new, h⟩).share ⟨new, h⟩ d
      return new
    else return -9

def sysFcntl (fd b c : Nat) : StateM (Machine ε) Int := do
  let t := (← get).tables
  match t.getFile fd with
  | none => return -9
  | some d =>
    let file := t.descriptions d
    if b = 0 then
      if 16 ≤ c then return -22
      match t.freeFd c with
      | none => return -24
      | some new =>
        withTables fun t => t.share new d
        return new.val
    else if b = 1 then return t.taskFlags t.fileTask (Fin.ofNat 16 fd)
    else if b = 2 then
      withTables fun t => t.setFd t.fileTask (Fin.ofNat 16 fd) (some d) (c &&& 1)
      return 0
    else if b = 3 then return file.flags
    else if b = 4 then
      if !within c (oAccmode ||| oAppend ||| oNonblock ||| oDirectory) then return -22
      if file.terminal ∧ c &&& oNonblock ≠ 0 then return -22
      withTables fun t => t.setDescription d { file with
        flags := (file.flags &&& (oAccmode ||| oDirectory)) ||| (c &&& (oAppend ||| oNonblock)) }
      return 0
    else if b = 1032 ∧ file.pipe.isSome then return pipeSize
    else return -22

/-! ## Positions, directories and the rest -/

def sysLseek (fd b c : Nat) : StateM (Machine ε) Int := do
  let t := (← get).tables
  match t.getFile fd with
  | none => return -9
  | some d =>
    let file := t.descriptions d
    if file.terminal ∨ file.pipe.isSome then return -29
    if 2 < c then return -22
    let size ← onSpace (Vfs.fsFileSize (ε := ε) file.name)
    if size < 0 then return -5
    let start : Int := if c = 2 then size else if c = 1 then file.position else 0
    let position := start + signed b
    if position < 0 then return -22
    if 0x7fffffff < position then return -75
    setPosition d position.toNat
    return position

def sysGetdents (fd address capacity : Nat) : StateM (Machine ε) Int := do
  let m ← get
  match m.tables.getFile fd with
  | none => return -9
  | some d =>
    let file := m.tables.descriptions d
    if !file.directory then return -20
    if !m.memory.userRange address capacity then return -14
    let (result, bytes, position) ← onSpace (Vfs.fsGetdents file.name capacity file.position)
    storeUser address bytes
    setPosition d position
    return result

def sysGetcwd (address capacity : Nat) : StateM (Machine ε) Int := do
  if capacity = 0 then return -22
  if !(← get).memory.userRange address capacity then return -14
  match ← onSpace (Vfs.fsGetcwd (ε := ε) capacity) with
  | .error e => return e
  | .ok path =>
    storeUser address (path ++ [0])
    return path.length + 1

def sysChdir (address : Nat) : StateM (Machine ε) Int := do
  match copyPath (← get).memory address with
  | .error e => return e
  | .ok path => return if (← onSpace (Vfs.fsCd (ε := ε) path)) ≠ 0 then -2 else 0

def accessRight (mode : UInt8) (asked : Bool) (path : Name) : StateM (Space ε) Bool :=
  if asked then Vfs.checkPermission path mode else return true

def sysAccess (address b : Nat) : StateM (Machine ε) Int := do
  match copyPath (← get).memory address with
  | .error e => return e
  | .ok path =>
    if !within b 7 then return -22
    if !(← onSpace (accessRight (ε := ε) Vfs.modeR (b &&& 4 != 0) path)) then return -13
    if !(← onSpace (accessRight (ε := ε) Vfs.modeW (b &&& 2 != 0) path)) then return -13
    if !(← onSpace (accessRight (ε := ε) Vfs.modeX (b &&& 1 != 0) path)) then return -13
    if 0 ≤ (← onSpace (Vfs.fsFileSize (ε := ε) path)) then return 0
    return if ← onSpace (Vfs.fsIsDir (ε := ε) path) then 0 else -2

def sysIoctl (fd b address : Nat) : StateM (Machine ε) Int := do
  let m ← get
  match m.tables.getFile fd with
  | none => return -9
  | some d =>
    match (m.tables.descriptions d).pipe with
    | none => return -25
    | some p =>
      if b ≠ 0x541b then return -25
      if !m.memory.userRange address 4 then return -14
      storeUser address (wordBytes (m.tables.pipes p).used)
      return 0

/-- The six fields of `uname`. -/
def unameFields : List String := ["Barnix", "barnix", "0.1", "Linux ABI experimental", "i686", ""]

def sysUname (address : Nat) : StateM (Machine ε) Int := do
  if !(← get).memory.userRange address (6 * 65) then return -14
  storeUser address (unameFields.flatMap fun s =>
    let bytes := s.toUTF8.toList
    bytes ++ List.replicate (65 - bytes.length) 0)
  return 0

def sysBrk (requested : Nat) : StateM (Machine ε) Int := do
  modify fun m => { m with memory := m.memory.brk requested }
  return (← get).memory.heapBreak

/-- `linux_syscall_dispatch`, with the arguments of the frame. The calls that
`linux_task_syscall` answers do not get here. -/
def linuxSyscallDispatch (number a b c : Nat) : StateM (Machine ε) Result := do
  match number with
  | 11 => return .value (← linuxExecve a b c)
  | 45 => return .value (← sysBrk a)
  | 65 => return .value 1
  | 24 | 49 | 47 | 50 | 199 | 200 | 201 | 202 => return .value (← onSpace (Vfs.permissionsUid (ε := ε)))
  | 3 => transfer a b c false
  | 4 => transfer a b c true
  | 42 => return .value (← sysPipe a 0)
  | 331 => return .value (← sysPipe a b)
  | 6 => return .value (← sysClose a)
  | 5 => return .value (← sysOpen a b)
  | 41 => return .value (← sysDup a)
  | 63 => return .value (← sysDup2 a b)
  | 55 => return .value (← sysFcntl a b c)
  | 19 => return .value (← sysLseek a b c)
  | 141 => return .value (← sysGetdents a b c)
  | 183 => return .value (← sysGetcwd a b)
  | 12 => return .value (← sysChdir a)
  | 33 => return .value (← sysAccess a b)
  | 54 => return .value (← sysIoctl a b c)
  | 122 => return .value (← sysUname a)
  | 145 => sysVector a b c false
  | 146 => sysVector a b c true
  | _ => return .value (-38)

end Barnix.Linux
