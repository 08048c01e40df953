import Barnix.Linux.Calls
import Barnix.Linux.Tasks
/-!
# The scheduler

What saving and switching tasks does to the machine, and a traversal of the
scheduler for relations between tables.
-/

namespace Barnix.Linux

open Vfs (Space ListingEngine)

variable {ε : Type} [ListingEngine ε]

/-! ## Saving and switching -/

theorem state_setTask (m : Machine ε) (slot i : Slot) (task : Task) :
    ((m.setTask slot task).tasks i) = if i = slot then task else m.tasks i := by
  unfold Machine.setTask
  by_cases h : i = slot
  · subst h
    simp
  · simp [h]

theorem tables_wakeWaiters (m : Machine ε) : (wakeWaiters m).tables = m.tables := by
  unfold wakeWaiters
  generalize List.finRange 3 = slots
  induction slots generalizing m with
  | nil => rfl
  | cons i slots ih =>
    rw [List.foldl_cons, ih]
    unfold wakeWaiter
    split
    · rfl
    · cases zombieFor m i <;> rfl

/-- The machine after a switch. -/
def switched (m : Machine ε) (slot : Slot) : Machine ε :=
  { m.setTask slot { m.tasks slot with state := .running } with
    memory := memoryResume (m.tasks slot).memory (m.snapshots slot)
    space := (exec (Vfs.fsCd (ε := ε) (m.tasks slot).cwd) m.space).2
    current := slot
    tables := { m.tables with fileTask := slot }
    frame := (m.tasks slot).frame }

theorem exec_switchTo (slot : Slot) (m : Machine ε) :
    exec (switchTo slot) m =
      if (exec (Vfs.fsCd (ε := ε) (m.tasks slot).cwd) m.space).1 = 0 then (true, switched m slot)
      else (false, { m with
        memory := memoryResume (m.tasks slot).memory (m.snapshots slot)
        space := (exec (Vfs.fsCd (ε := ε) (m.tasks slot).cwd) m.space).2
        outcome := some .panicRestore }) := by
  unfold switchTo
  simp only [exec_bind, exec_modify, exec_get]
  split
  · rename_i h
    rw [if_neg (show ¬(exec (Vfs.fsCd (ε := ε) (m.tasks slot).cwd) m.space).1 = 0 from h)]
    rfl
  · rename_i h
    rw [if_pos (show (exec (Vfs.fsCd (ε := ε) (m.tasks slot).cwd) m.space).1 = 0 from not_not.1 h)]
    rfl
theorem exec_saveCurrent (m : Machine ε) :
    exec (saveCurrent (ε := ε)) m = match exec (Vfs.fsGetcwd (ε := ε) 4096) m.space with
      | (.error _, s) => (false, { m with space := s, outcome := some .panicSave })
      | (.ok cwd, s) => (true, { m.setTask m.current { m.task with frame := m.frame, memory := m.memory.toMemoryState, cwd := cwd } with
          snapshots := Function.update m.snapshots m.current m.memory.arena
          space := s }) := by
  unfold saveCurrent onSpace
  rw [exec_bind, exec_zoom]
  cases exec (Vfs.fsGetcwd (ε := ε) 4096) m.space with
  | mk r s =>
    cases r with
    | error e => rfl
    | ok cwd => rfl
/-! ## The tables under the scheduler -/

/-- What the scheduler does to the tables moves along `R`. -/
structure Scheduling (R : Tables → Tables → Prop) : Prop where
  use : ∀ t slot, R t { t with fileTask := slot }
  exit : ∀ t slot, R t (t.filesExit slot)
  resume : ∀ t m, t.ioReady t.fileTask = true → R t (t.ioResume m).2.1

namespace Scheduling

variable {R : Tables → Tables → Prop} [Std.Refl R] [IsTrans Tables R]

theorem exits (h : Scheduling R) (slots : List Slot) (t : Tables) : R t (slots.foldl Tables.filesExit t) := by
  induction slots generalizing t with
  | nil => exact refl_of R t
  | cons slot slots ih => exact trans_of R (h.exit t slot) (ih _)

theorem scheduleIn (h : Scheduling R) (rounds : Nat) : Moves (OnTables (ε := ε) R) (scheduleIn rounds) := by
  induction rounds with
  | zero => exact fun m => refl_of R m.tables
  | succ rounds ih =>
    intro m
    unfold Linux.scheduleIn OnTables
    rw [exec_bind, exec_modify, exec_bind, exec_get, ← tables_wakeWaiters m]
    generalize wakeWaiters m = n
    dsimp only
    cases hnext : nextTask n with
    | none => exact h.exits _ n.tables
    | some slot =>
      dsimp only
      rw [exec_bind, exec_switchTo]
      split
      · rw [if_pos rfl]
        refine trans_of R (h.use n.tables slot) ?_
        split
        · rename_i hio
          -- a task that waits on a pipe is chosen when its transfer can go on
          have hready : (switched n slot).tables.ioReady (switched n slot).tables.fileTask = true := by
            have hrun : runnable n slot = true := List.find?_some hnext
            unfold runnable at hrun
            rw [beq_iff_eq.1 hio] at hrun
            exact (show n.tables.ioReady slot = true by simpa using hrun)
          rw [exec_bind]
          have hstep : R (switched n slot).tables (exec (resumeIo (ε := ε)) (switched n slot)).2.tables :=
            h.resume _ (switched n slot).memory hready
          refine trans_of R hstep ?_
          generalize exec (resumeIo (ε := ε)) (switched n slot) = r
          obtain ⟨result, k⟩ := r
          cases result with
          | wait => exact ih (k.setTask slot { k.tasks slot with state := .ioWaiting })
          | sigpipe => exact trans_of R (h.exit k.tables k.current) (ih (retire 13 k))
          | value v => exact refl_of R k.tables
        · exact refl_of R (switched n slot).tables
      · exact refl_of R n.tables

theorem exitTask (h : Scheduling R) (status : Nat) : Moves (OnTables (ε := ε) R) (exitTask status) :=
  .bind (fun m => h.exit m.tables m.current) fun _ => h.scheduleIn _

/-- A task goes to sleep, or stays ready, and the scheduler runs. -/
theorem sleep (h : Scheduling R) (f : Machine ε → Task) :
    Moves (OnTables (ε := ε) R) (do if ← saveCurrent then modify (fun m => m.setTask m.current (f m)); schedule) := by
  refine .bind (fun m => ?_) fun ok => .ite (.bind (fun m => refl_of R m.tables) fun _ => h.scheduleIn _) (.pure _)
  unfold OnTables
  rw [exec_saveCurrent]
  cases exec (Vfs.fsGetcwd (ε := ε) 4096) m.space with
  | mk r s => cases r <;> exact refl_of R m.tables

end Scheduling

end Barnix.Linux
