import Barnix.Lib.Bytes
import Barnix.Vfs.Files
import Mathlib.Data.Fintype.Card
import Mathlib.Data.Fintype.Prod
/-!
# Linux processes

The data of the Linux personality: descriptors, pipes and blocked transfers
(`linux_syscall.c`), task slots (`linux_task.c`) and the one address space that
the tasks take turns in (`linux_memory.c`).
-/

namespace Barnix.Linux

open Vfs (Space)

/-- A descriptor number below `FD_COUNT`. -/
abbrev Fd := Fin 16
/-- A task slot below `LINUX_TASK_LIMIT`. -/
abbrev Slot := Fin 3

instance slots_nonempty : NeZero 3 := ⟨by decide⟩

/-- An index of `descriptions`. -/
abbrev Description := Fin 48
/-- An index of `pipes`. -/
abbrev PipeId := Fin 24

def pipeSize : Nat := 4096
/-- `IOV_MAX` -/
def iovMax : Nat := 1024
/-- `PATH_SIZE` -/
def pathSize : Nat := 128

def oAccmode : Nat := 3
def oWronly : Nat := 1
def oCreat : Nat := 64
def oExcl : Nat := 128
def oTrunc : Nat := 512
def oAppend : Nat := 1024
def oNonblock : Nat := 2048
def oDirectory : Nat := 65536
def oCloexec : Nat := 0o2000000

structure Pipe where
  readers : Nat
  writers : Nat
  head : Nat
  used : Nat
  data : Buf 4096
deriving Inhabited

structure OpenFile where
  refs : Nat
  position : Nat
  flags : Nat
  terminal : Bool
  directory : Bool
  pipe : Option PipeId
  name : Name
deriving Inhabited

structure IoVector where
  address : Nat
  length : Nat
deriving DecidableEq, Inhabited

/-- A transfer on a pipe that may be waiting: `vectors` holds the first `count`
entries of the array, `index` and `offset` say how far the transfer is. -/
structure PipeIo where
  active : Bool
  writing : Bool
  fd : Nat
  count : Nat
  index : Nat
  offset : Nat
  total : Nat
  length : Nat
  vectors : List IoVector
deriving Inhabited

/-- How a system call ends: with a value, asleep on a pipe, or killed. The code
returns `LINUX_IO_WAIT` and `LINUX_IO_SIGPIPE` for the last two. -/
inductive Result where
  | value (n : Int)
  | wait
  | sigpipe
deriving DecidableEq

/-- What happens on pipes: a new pipe, a transfer of `length` bytes that starts, bytes that
it moves, of all that it `offered` in user memory, and how it ends. -/
inductive Traffic where
  | created (p : PipeId)
  | called (slot : Slot) (writing : Bool) (length : Nat)
  | moved (slot : Slot) (p : PipeId) (writing : Bool) (offered bytes : List UInt8)
  | answered (slot : Slot) (result : Result)
deriving DecidableEq

/-- The static data of `linux_syscall.c`. `fileTask` is the slot whose row of
`taskFiles` and `taskFlags` is in use. `traffic` is no part of the code: it records
what happens on the pipes, the last thing first. -/
structure Tables where
  pipes : PipeId → Pipe
  pending : Slot → PipeIo
  descriptions : Description → OpenFile
  taskFiles : Slot → Fd → Option Description
  taskFlags : Slot → Fd → Nat
  fileTask : Slot
  traffic : List Traffic

/-- `LinuxTrapFrame` -/
structure TrapFrame where
  edi : Nat
  esi : Nat
  ebp : Nat
  savedEsp : Nat
  ebx : Nat
  edx : Nat
  ecx : Nat
  eax : Nat
  gs : Nat
  fs : Nat
  es : Nat
  ds : Nat
  eip : Nat
  cs : Nat
  eflags : Nat
  userEsp : Nat
  ss : Nat
deriving DecidableEq, Inhabited

/-- `LinuxMemoryState` -/
structure MemoryState where
  base : Nat
  heapBase : Nat
  heapBreak : Nat
deriving DecidableEq, Inhabited

/-- `APP_STACK_TOP - APP_LOAD_MIN` -/
def arenaSize : Nat := 0x400000
/-- `APP_STACK_SIZE` -/
def stackSize : Nat := 0x10000
/-- `APP_LOAD_MIN` -/
def loadMin : Nat := 0x1000000

/-- The bytes of the arena by their offset. -/
abbrev Arena := Nat → UInt8

/-- `memcpy` of a list of bytes to `offset`. -/
def Arena.put (a : Arena) (offset : Nat) (bytes : List UInt8) : Arena := fun k =>
  if offset ≤ k ∧ k < offset + bytes.length then bytes.getD (k - offset) 0 else a k

/-- The address space: the arena is seen from `base` on. -/
structure Memory extends MemoryState where
  arena : Arena

inductive TaskState where
  | unused
  | running
  | ready
  | waiting
  | ioWaiting
  | zombie
deriving DecidableEq, Inhabited

structure Task where
  state : TaskState
  pid : Nat
  parent : Nat
  status : Nat
  waitPid : Int
  waitStatus : Nat
  frame : TrapFrame
  memory : MemoryState
  cwd : Name
deriving Inhabited

/-- How a launch ends. `hung` stands for a scheduler that never returns. -/
inductive Outcome where
  | left (status : Nat)
  | panicSave
  | panicRestore
  | hung
deriving DecidableEq

/-- The whole machine. `keys` are the keys that will be pressed, `screen` what was
printed, `reaped` every task that a parent has waited for, as parent, pid and status. -/
structure Machine (ε : Type) where
  tables : Tables
  memory : Memory
  frame : TrapFrame
  tasks : Slot → Task
  current : Slot
  nextPid : Nat
  rootStatus : Nat
  snapshots : Slot → Arena
  outcome : Option Outcome
  pendingEntry : Nat
  pendingStack : Nat
  keys : Nat → UInt8
  pressed : Nat
  screen : List UInt8
  reaped : List (Nat × Nat × Nat)
  space : Space ε

/-- A signed result in a register. -/
def register (n : Int) : Nat := (n % 2 ^ 32).toNat

/-- A register read as a signed number. -/
def signed (n : Nat) : Int := if n % 2 ^ 32 < 2 ^ 31 then (n % 2 ^ 32 : Nat) else (n % 2 ^ 32 : Nat) - 2 ^ 32

/-- `n` has no bit outside `mask`. -/
def within (n mask : Nat) : Bool := n &&& mask == n

/-! ## User memory -/

namespace Memory

def top (m : Memory) : Nat := m.base + arenaSize

/-- `linux_user_range` -/
def userRange (m : Memory) (address size : Nat) : Bool :=
  m.base ≤ address && address ≤ m.top && size ≤ m.top - address

def peek (m : Memory) (address : Nat) : UInt8 := m.arena (address - m.base)

/-- `size` bytes from `address` on. -/
def load (m : Memory) (address size : Nat) : List UInt8 := (List.range size).map fun i => m.peek (address + i)

def store (m : Memory) (address : Nat) (bytes : List UInt8) : Memory :=
  { m with arena := m.arena.put (address - m.base) bytes }

/-- The word at `address`. -/
def word (m : Memory) (address : Nat) : Nat :=
  (m.peek address).toNat + 256 * (m.peek (address + 1)).toNat + 65536 * (m.peek (address + 2)).toNat +
    16777216 * (m.peek (address + 3)).toNat

/-- `linux_memory_brk` -/
def brk (m : Memory) (requested : Nat) : Memory :=
  if m.heapBase ≤ requested ∧ requested ≤ m.top - stackSize then
    { if m.heapBreak < requested then m.store m.heapBreak (List.replicate (requested - m.heapBreak) 0) else m with
      heapBreak := requested }
  else m

end Memory

/-- The four bytes of a word. -/
def wordBytes (n : Nat) : List UInt8 :=
  [UInt8.ofNat n, UInt8.ofNat (n / 256), UInt8.ofNat (n / 65536), UInt8.ofNat (n / 16777216)]

end Barnix.Linux
