import Barnix.Linux.Elf
import Barnix.Linux.Tables
/-!
# Starting a program

`linux_execve`: the arguments are copied out of the old address space, the file
is checked, and then the arena is filled with the new program and its stack
(`linux_exec.c`).
-/

namespace Barnix.Linux

open Vfs (Space fsExecCheck fsLoadExecutable maxFileSize permissionsUid)

/-- `STRING_MAX` -/
def stringMax : Nat := 8192
/-- `VECTOR_MAX` -/
def vectorMax : Nat := 64

/-- The strings copied so far, and where each one starts. -/
structure Staged where
  strings : List UInt8
  argv : List Nat
  envp : List Nat

/-- `stage_string` from user memory: the buffer with the string behind it. `room` is
what is left of the buffer. -/
def stageString (m : Memory) : Nat → Nat → List UInt8 → Except Int (List UInt8)
  | 0, _, _ => .error (-7)
  | room + 1, address, strings =>
    if !m.userRange address 1 then .error (-14)
    else if m.peek address = 0 then .ok (strings ++ [0])
    else stageString m room (address + 1) (strings ++ [m.peek address])

/-- The loop of `stage_vector`, with `left` entries still allowed. -/
def stageLoop (m : Memory) : Nat → Nat → List UInt8 → List Nat → Except Int (List UInt8 × List Nat)
  | left, address, strings, offsets =>
    if !m.userRange address 4 then .error (-14)
    else if m.word address = 0 then .ok (strings, offsets)
    else
      match left with
      | 0 => .error (-7)
      | left + 1 =>
        match stageString m (stringMax - strings.length) (m.word address) strings with
        | .error e => .error e
        | .ok longer => stageLoop m left (address + 4) longer (offsets ++ [strings.length])

/-- `stage_vector`; a null pointer is an empty vector. -/
def stageVector (m : Memory) (address : Nat) (strings : List UInt8) : Except Int (List UInt8 × List Nat) :=
  if address = 0 then .ok (strings, []) else stageLoop m vectorMax address strings []

/-- Both vectors; an empty argument list becomes one empty string. -/
def stageVectors (m : Memory) (argv envp : Nat) : Except Int Staged := do
  let (strings, args) ← stageVector m argv []
  let (strings, envs) ← stageVector m envp strings
  if args = [] then
    if stringMax ≤ strings.length then .error (-7) else .ok ⟨strings ++ [0], [strings.length], envs⟩
  else .ok ⟨strings, args, envs⟩

/-- The path of `linux_execve`. -/
def stagePath (m : Memory) : Nat → Nat → List UInt8 → Except Int Name
  | 0, _, _ => .error (-36)
  | room + 1, address, path =>
    if !m.userRange address 1 then .error (-14)
    else if m.peek address = 0 then .ok path
    else stagePath m room (address + 1) (path ++ [m.peek address])

/-! ## The new address space -/

/-- The arena with the file parts of the segments. -/
def loadSegments (plan : ElfPlan) (image : List UInt8) : Arena :=
  plan.segments.foldl (fun a s => a.put (s.address - plan.base) ((image.drop s.offset).take s.fileSize)) fun _ => 0

/-- `auxv` -/
def auxv (plan : ElfPlan) (phdr uid execfn : Nat) : List Nat :=
  [3, phdr, 4, 32, 5, plan.phnum, 6, 4096, 7, 0, 8, 0, 9, plan.entry, 11, uid, 12, uid, 13, uid, 14, uid, 23, 0,
    31, execfn, 0, 0]

/-- The words of the new stack: the count, the pointers to the strings, which start at
`strings`, and the auxiliary vector. -/
def stackWords (staged : Staged) (strings : Nat) (aux : List Nat) : List Nat :=
  staged.argv.length :: staged.argv.map (strings + ·) ++ 0 :: staged.envp.map (strings + ·) ++ 0 :: aux

/-- Where the parts of the stack lie, as offsets into the arena. -/
structure Layout where
  strings : Nat
  path : Nat
  /-- The copy of the program headers; none when a segment already holds them. -/
  headers : Option Nat
  stack : Nat

def layout (plan : ElfPlan) (staged : Staged) (path : Name) : Layout :=
  let strings := arenaSize - staged.strings.length
  let p := strings - (path.length + 1)
  let headers := if plan.phdr ≠ 0 then none else some ((p - plan.phnum * 32) / 4 * 4)
  let words := 1 + staged.argv.length + 1 + staged.envp.length + 1 + 28
  ⟨strings, p, headers, (headers.getD p - words * 4) / 16 * 16⟩

/-- The first address behind every segment. -/
def imageEnd (plan : ElfPlan) : Nat := plan.segments.foldl (fun e s => max e (s.address + s.memorySize)) plan.base

/-- `install_image`: the new address space and its stack pointer. -/
def installImage (plan : ElfPlan) (image : List UInt8) (staged : Staged) (path : Name) (uid : Nat) : Memory × Nat :=
  let l := layout plan staged path
  let phdr := (l.headers.map (· + plan.base)).getD plan.phdr
  let words := stackWords staged (l.strings + plan.base) (auxv plan phdr uid (l.path + plan.base))
  let arena := (loadSegments plan image).put l.strings staged.strings
  let arena := arena.put l.path (path ++ [0])
  let arena := match l.headers with
    | none => arena
    | some at_ => arena.put at_ ((image.drop plan.phoff).take (plan.phnum * 32))
  let heap := (imageEnd plan + 4095) / 4096 * 4096
  (⟨⟨plan.base, heap, heap⟩, arena.put l.stack (words.flatMap wordBytes)⟩, l.stack + plan.base)

/-! ## The system call -/

variable {ε : Type} [Vfs.Engine ε]

/-- Runs a file operation of the machine. -/
def onSpace {α : Type} (x : StateM (Space ε) α) : StateM (Machine ε) α :=
  zoom Machine.space (fun s m => { m with space := s }) x

/-- The point of no return: nothing below fails. -/
def execInstall (plan : ElfPlan) (image : List UInt8) (staged : Staged) (path : Name) : StateM (Machine ε) Unit := do
  let uid ← onSpace (ε := ε) permissionsUid
  let (memory, stack) := installImage plan image staged path uid
  modify fun m => { m with
    memory := memory
    pendingEntry := plan.entry
    pendingStack := stack
    tables := m.tables.syscallExec }

def linuxExecve (path argv envp : Nat) : StateM (Machine ε) Int := do
  let memory := (← get).memory
  match stagePath memory pathSize path [] with
  | .error e => return e
  | .ok name =>
    let checked ← onSpace (fsExecCheck (ε := ε) name)
    if checked ≠ 0 then return checked
    match ← onSpace (fsLoadExecutable (ε := ε) name maxFileSize) with
    | .error e => return e
    | .ok image =>
      match elfValidate image with
      | .error _ => return -8
      | .ok plan =>
        if plan.legacy then return -8
        match stageVectors memory argv envp with
        | .error e => return e
        | .ok staged =>
          execInstall plan image staged name
          return 0

end Barnix.Linux
