import Barnix.Linux.Syscalls
/-!
# Tasks

`linux_task.c`: three task slots, of which one runs in the arena while the
others wait in snapshots. A trap of the running task is a system call or a
fault; the scheduler runs inside it and returns to the task it has chosen.
-/

namespace Barnix.Linux

open Vfs (Space ListingEngine)

variable {ε : Type} [ListingEngine ε]

namespace Machine

def setTask (m : Machine ε) (slot : Slot) (task : Task) : Machine ε := { m with tasks := Function.update m.tasks slot task }

def task (m : Machine ε) : Task := m.tasks m.current

end Machine

/-- `matches` -/
def isChild (parent child : Task) (pid : Int) : Bool :=
  child.state != .unused && child.parent == parent.pid && (pid ≤ 0 || (child.pid : Int) == pid)

def panic (outcome : Outcome) : StateM (Machine ε) Unit := modify ({ · with outcome := some outcome })

/-- `save_current`; false when it panics. -/
def saveCurrent : StateM (Machine ε) Bool := do
  match ← onSpace (Vfs.fsGetcwd (ε := ε) 4096) with
  | .error _ =>
    panic .panicSave
    return false
  | .ok cwd =>
    modify fun m => { m.setTask m.current { m.task with frame := m.frame, memory := m.memory.toMemoryState, cwd := cwd } with
      snapshots := Function.update m.snapshots m.current m.memory.arena }
    return true

/-! ## The scheduler -/

/-- The child that a waiting task is woken by. -/
def zombieFor (m : Machine ε) (slot : Slot) : Option Slot :=
  (List.finRange 3).find? fun j => (m.tasks j).state == .zombie && isChild (m.tasks slot) (m.tasks j) (m.tasks slot).waitPid

/-- One round of `wake_waiters`: the status goes into the snapshot of the sleeping parent. -/
def wakeWaiter (m : Machine ε) (slot : Slot) : Machine ε :=
  if (m.tasks slot).state ≠ .waiting then m
  else
    match zombieFor m slot with
    | none => m
    | some j =>
      let parent := m.tasks slot
      let child := m.tasks j
      let m := { m with
        snapshots := if parent.waitStatus ≠ 0 then
            Function.update m.snapshots slot
              ((m.snapshots slot).put (parent.waitStatus - parent.memory.base) (wordBytes child.status))
          else m.snapshots
        reaped := m.reaped ++ [(parent.pid, child.pid, child.status)] }
      (m.setTask slot { parent with state := .ready, frame := { parent.frame with eax := child.pid } }).setTask j
        { child with state := .unused }

def wakeWaiters (m : Machine ε) : Machine ε := (List.finRange 3).foldl wakeWaiter m

/-- A task that can be switched to. -/
def runnable (m : Machine ε) (slot : Slot) : Bool :=
  (m.tasks slot).state == .ready || ((m.tasks slot).state == .ioWaiting && m.tables.ioReady slot)

/-- The next runnable task after the current one. -/
def nextTask (m : Machine ε) : Option Slot := [1, 2, 3].map (fun step => m.current + Fin.ofNat 3 step) |>.find? (runnable m)

/-- `linux_memory_resume` -/
def memoryResume (state : MemoryState) (arena : Arena) : Memory :=
  ⟨⟨state.base, (state.heapBase + 4095) / 4096 * 4096, state.heapBreak⟩, arena⟩

/-- The switch to a task; false when it panics. -/
def switchTo (slot : Slot) : StateM (Machine ε) Bool := do
  modify fun m => { m with memory := memoryResume (m.tasks slot).memory (m.snapshots slot) }
  if (← onSpace (Vfs.fsCd (ε := ε) ((← get).tasks slot).cwd)) ≠ 0 then
    panic .panicRestore
    return false
  modify fun m => { m.setTask slot { m.tasks slot with state := .running } with
    current := slot
    tables := { m.tables with fileTask := slot }
    frame := (m.tasks slot).frame }
  return true

/-- The blocked transfer of the current task goes on. -/
def resumeIo : StateM (Machine ε) Result := modifyGet fun m =>
  match m.tables.ioResume m.memory with
  | (result, tables, memory) => (result, { m with tables := tables, memory := memory })

/-- `exit_task` up to the scheduler: the task is a zombie, its children go to the first
task while that lives, and its descriptors are closed. -/
def retire (status : Nat) (m : Machine ε) : Machine ε :=
  let pid := m.task.pid
  let m := { m.setTask m.current { m.task with status := status, state := .zombie } with
    rootStatus := if m.current = 0 then (if status % 128 ≠ 0 then 128 + status % 128 else status / 256) else m.rootStatus }
  { m with
    tasks := fun i =>
      if i ≠ 0 ∧ (m.tasks i).state ≠ .unused ∧ (m.tasks i).parent = pid then
        { m.tasks i with parent := if (m.tasks 0).state ≠ .zombie then 1 else 0 }
      else m.tasks i
    tables := m.tables.filesExit m.current }

/-- No task can run: the launch ends, with 125 when some task is left asleep. -/
def leaveAll (m : Machine ε) : Machine ε :=
  let stuck := (List.finRange 3).any fun i => (m.tasks i).state == .ioWaiting || (m.tasks i).state == .waiting
  let status := if stuck then 125 else m.rootStatus
  { m with
    rootStatus := status
    tables := (List.finRange 3).foldl Tables.filesExit m.tables
    outcome := some (.left status) }

def setEax (n : Int) : StateM (Machine ε) Unit := modify fun m => { m with frame := { m.frame with eax := register n } }

/-- `schedule`, in at most this many rounds. -/
def scheduleIn : Nat → StateM (Machine ε) Unit
  | 0 => panic .hung
  | rounds + 1 => do
    modify wakeWaiters
    let m ← get
    match nextTask m with
    | none => modify leaveAll
    | some slot =>
      let io := (m.tasks slot).state == .ioWaiting
      if ← switchTo slot then
        if io then
          match ← resumeIo with
          | .wait =>
            modify fun m => m.setTask slot { m.tasks slot with state := .ioWaiting }
            scheduleIn rounds
          | .sigpipe =>
            modify (retire 13)
            scheduleIn rounds
          | .value n => setEax n

/-- Every round kills a task or fills a pipe by at least one byte. -/
def scheduleRounds : Nat := 4 + 24 * pipeSize

def schedule : StateM (Machine ε) Unit := scheduleIn scheduleRounds

def exitTask (status : Nat) : StateM (Machine ε) Unit := do
  modify (retire status)
  schedule

/-! ## Traps -/

/-- `fork_task` -/
def forkTask : StateM (Machine ε) Unit := do
  let m ← get
  match (List.finRange 3).find? fun i => (m.tasks i).state == .unused with
  | none => setEax (-11)
  | some child =>
    if m.nextPid = 0x7fffffff then setEax (-11)
    else
      modify ({ · with nextPid := m.nextPid + 1 })
      setEax m.nextPid
      if ← saveCurrent then
        modify fun s =>
          let parent := s.task
          let s := s.setTask s.current { parent with state := .ready }
          { s.setTask child { (default : Task) with state := .running, pid := m.nextPid, parent := parent.pid } with
            tables := { s.tables.filesFork s.current child with fileTask := child }
            current := child
            frame := { s.frame with eax := 0 } }

/-- The first of the children with this pid that has exited, and whether there are any. -/
def findChild (m : Machine ε) (pid : Int) : Option Slot × Bool :=
  ((List.finRange 3).find? fun i => isChild m.task (m.tasks i) pid && (m.tasks i).state == .zombie,
    (List.finRange 3).any fun i => isChild m.task (m.tasks i) pid)

/-- `wait_task` -/
def waitTask : StateM (Machine ε) Unit := do
  let m ← get
  let pid := signed m.frame.ebx
  if !within m.frame.edx 1 then setEax (-22)
  else if pid < -1 then setEax (-38)
  else if m.frame.ecx ≠ 0 ∧ !m.memory.userRange m.frame.ecx 4 then setEax (-14)
  else
    match findChild m pid with
    | (some i, _) =>
      let child := m.tasks i
      modify fun m => { m.setTask i { child with state := .unused } with
        memory := if m.frame.ecx ≠ 0 then m.memory.store m.frame.ecx (wordBytes child.status) else m.memory
        reaped := m.reaped ++ [(m.task.pid, child.pid, child.status)] }
      setEax child.pid
    | (none, false) => setEax (-10)
    | (none, true) =>
      if m.frame.edx ≠ 0 then setEax 0
      else
        modify fun m => m.setTask m.current { m.task with waitPid := pid, waitStatus := m.frame.ecx }
        if ← saveCurrent then
          modify fun m => m.setTask m.current { m.task with state := .waiting }
          schedule

/-- `linux_task_io_result` for a task that goes to sleep. -/
def sleepOnPipe : StateM (Machine ε) Unit := do
  if ← saveCurrent then
    modify fun m => m.setTask m.current { m.task with state := .ioWaiting }
    schedule

def schedYield : StateM (Machine ε) Unit := do
  setEax 0
  if ← saveCurrent then
    modify fun m => m.setTask m.current { m.task with state := .ready }
    schedule

/-- The registers that a program starts with. -/
def entryFrame (entry stack : Nat) : TrapFrame :=
  { (default : TrapFrame) with
    ds := 0x23, es := 0x23, fs := 0x23, gs := 0x23, eip := entry, cs := 0x1b, eflags := 2, userEsp := stack, ss := 0x23 }

/-- `linux_exec_apply` -/
def execApply : StateM (Machine ε) Unit := modify fun m =>
  if m.pendingEntry = 0 then m else { m with frame := entryFrame m.pendingEntry m.pendingStack, pendingEntry := 0 }

/-- `linux_syscall_from_regs` -/
def syscallFromRegs : StateM (Machine ε) Unit := do
  let m ← get
  match m.frame.eax with
  | 2 => forkTask
  | 7 => waitTask
  | 1 | 252 => exitTask (m.frame.ebx % 256 * 256)
  | 20 => setEax m.task.pid
  | 64 => setEax m.task.parent
  | 158 => schedYield
  | number =>
    match ← linuxSyscallDispatch number m.frame.ebx m.frame.ecx m.frame.edx with
    | .wait => sleepOnPipe
    | .sigpipe => exitTask 13
    | .value n =>
      setEax n
      execApply

/-! ## Runs -/

/-- What the running task does: it computes, which may leave any bytes in its arena and
any values in its registers, or it traps. -/
inductive Event where
  | compute (arena : Arena) (frame : TrapFrame)
  | syscall
  | fault

def Event.run : Event → StateM (Machine ε) Unit
  | compute arena frame => modify fun m => { m with memory := { m.memory with arena := arena }, frame := frame }
  | syscall => syscallFromRegs
  | fault => exitTask 11

/-- One event, unless the launch is over. -/
def step (e : Event) : StateM (Machine ε) Unit := do
  if (← get).outcome.isNone then e.run

def runEvents (m : Machine ε) (es : List Event) : Machine ε := es.foldl (fun m e => (exec (step e) m).2) m

/-- `linux_task_init` -/
def taskInit : Slot → Task := fun i => if i = 0 then { (default : Task) with state := .running, pid := 1 } else default

/-- The start of `linux_run_image`, with the new address space. -/
def launch (m : Machine ε) (memory : Memory) (entry stack : Nat) : Machine ε := { m with
  tables := .reset
  memory := memory
  frame := entryFrame entry stack
  tasks := taskInit
  current := 0
  nextPid := 2
  rootStatus := 0
  outcome := none
  pendingEntry := 0
  reaped := [] }

/-- A launch of a checked program. -/
structure Launched (m : Machine ε) : Prop where
  program : ∃ m₀ image plan staged path uid, elfValidate image = .ok plan ∧
    m = launch m₀ (installImage plan image staged path uid).1 plan.entry (installImage plan image staged path uid).2

end Barnix.Linux
