import Barnix.Linux.Scheduler
import Barnix.Vfs.Trees
/-!
# Reference counts over whole runs

What the scheduler and the end of a task do to the counts, and that they are
right in every state that a launch reaches.
-/

namespace Barnix.Linux

open Vfs (Space ListingEngine)
open Tables (Steady Bound Tied Uses Unspoiled)

variable {ε : Type} [ListingEngine ε]

/-! ## The scheduler -/

/-- A free slot and a zombie have no descriptors. -/
def Idle (m : Machine ε) : Prop :=
  ∀ slot, (m.tasks slot).state = .unused ∨ (m.tasks slot).state = .zombie → ∀ fd, m.tables.taskFiles slot fd = none

/-- The counts are right, also while the scheduler works. -/
structure Settled (m : Machine ε) : Prop where
  counted : m.tables.Counted
  idle : Idle m

/-- The current task runs, and its row is the one in use. -/
structure Running (m : Machine ε) : Prop where
  fileTask : m.tables.fileTask = m.current
  state : (m.tasks m.current).state = .running

theorem Settled.of_tasks {m m' : Machine ε} (h : Settled m) (ht : m'.tables = m.tables)
    (hs : ∀ slot, (m'.tasks slot).state = .unused ∨ (m'.tasks slot).state = .zombie →
      (m.tasks slot).state = .unused ∨ (m.tasks slot).state = .zombie) : Settled m' :=
  ⟨ht ▸ h.counted, fun slot hstate => ht ▸ h.idle slot (hs slot hstate)⟩

theorem settled_setTask {m : Machine ε} (h : Settled m) (slot : Slot) {task : Task}
    (hs : task.state ≠ .unused ∧ task.state ≠ .zombie) : Settled (m.setTask slot task) := by
  refine h.of_tasks rfl fun i hi => ?_
  rw [state_setTask] at hi
  split at hi
  · exact absurd hi (by simp [hs.1, hs.2])
  · exact hi

theorem settled_wakeWaiter {m : Machine ε} (h : Settled m) (slot : Slot) : Settled (wakeWaiter m slot) := by
  unfold wakeWaiter
  split
  · exact h
  · cases hz : zombieFor m slot with
    | none => exact h
    | some j =>
      have hj := List.find?_some hz
      simp only [Bool.and_eq_true, beq_iff_eq] at hj
      refine h.of_tasks rfl fun i hi => ?_
      dsimp only at hi
      rw [state_setTask] at hi
      split at hi
      · rename_i he
        exact .inr (he ▸ hj.1)
      · rw [state_setTask] at hi
        split at hi
        · exact absurd hi (by simp)
        · exact hi

theorem settled_wakeWaiters {m : Machine ε} (h : Settled m) : Settled (wakeWaiters m) := by
  unfold wakeWaiters
  generalize List.finRange 3 = slots
  induction slots generalizing m with
  | nil => exact h
  | cons i slots ih => exact ih (settled_wakeWaiter h i)

theorem settled_retire {m : Machine ε} (h : Settled m) (status : Nat) : Settled (retire status m) := by
  obtain ⟨hc, hnone⟩ := Tables.filesExit_spec m.tables m.current
  refine ⟨hc.counted h.counted, fun slot hstate fd => ?_⟩
  by_cases hs : slot = m.current
  · subst hs
    exact hnone fd
  · have hold : (m.tasks slot).state = .unused ∨ (m.tasks slot).state = .zombie := by
      unfold retire at hstate
      dsimp only at hstate
      split at hstate <;> simpa [Machine.setTask, hs] using hstate
    show (m.tables.filesExit m.current).taskFiles slot fd = none
    rw [hc.rows slot hs]
    exact h.idle slot hold fd

theorem closes_leaveAll (t : Tables) : t.Counted → ((List.finRange 3).foldl Tables.filesExit t).Counted := by
  generalize List.finRange 3 = slots
  induction slots generalizing t with
  | nil => exact id
  | cons i slots ih => exact fun h => ih _ ((Tables.filesExit_spec t i).1.counted h)

theorem idle_leaveAll (t : Tables) (slot : Slot) (fd : Fd) : ((List.finRange 3).foldl Tables.filesExit t).taskFiles slot fd = none := by
  suffices h : ∀ (slots : List Slot) (t : Tables), slot ∈ slots ∨ t.taskFiles slot fd = none →
      (slots.foldl Tables.filesExit t).taskFiles slot fd = none from h _ t (.inl (List.mem_finRange slot))
  intro slots
  induction slots with
  | nil =>
    intro t h
    simpa using h
  | cons i slots ih =>
    intro t h
    apply ih
    obtain ⟨hc, hnone⟩ := Tables.filesExit_spec t i
    by_cases hi : slot = i
    · subst hi
      exact .inr (hnone fd)
    · rcases h with h | h
      · exact .inl ((List.mem_cons.1 h).resolve_left hi)
      · exact .inr (by rw [hc.rows slot hi]; exact h)

theorem settled_leaveAll {m : Machine ε} (h : Settled m) : Settled (leaveAll m) :=
  ⟨closes_leaveAll m.tables h.counted, fun slot _ fd => idle_leaveAll m.tables slot fd⟩

theorem settled_resumeIo {m : Machine ε} (h : Settled m) : Settled (exec (resumeIo (ε := ε)) m).2 := by
  have hs : Steady m.tables (exec (resumeIo (ε := ε)) m).2.tables := Tables.steady_ioResume m.tables m.memory
  exact ⟨h.counted.steady hs, fun slot hstate fd => by rw [hs.files]; exact h.idle slot hstate fd⟩

theorem settled_switched {m : Machine ε} (h : Settled m) (slot : Slot) : Settled (switched m slot) := by
  have hset := @settled_setTask ε _ m h slot { m.tasks slot with state := .running } ⟨nofun, nofun⟩
  exact ⟨hset.counted.use slot, hset.idle⟩

theorem running_switched (m : Machine ε) (slot : Slot) : Running (switched m slot) := by
  refine ⟨rfl, ?_⟩
  show ((m.setTask slot { m.tasks slot with state := .running }).tasks slot).state = .running
  rw [state_setTask, if_pos rfl]

theorem ioWaiting_lives : TaskState.ioWaiting ≠ .unused ∧ TaskState.ioWaiting ≠ .zombie := by decide

/-- The counts are right when the scheduler is done, and a task runs unless the launch
is over. -/
theorem settled_scheduleIn (rounds : Nat) :
    Ends (Settled (ε := ε)) (scheduleIn rounds) fun _ m => Settled m ∧ (m.outcome = none → Running m) := by
  induction rounds with
  | zero =>
    intro m hm
    refine ⟨hm.of_tasks rfl fun i hi => hi, fun ho => ?_⟩
    cases ho
  | succ rounds ih =>
    intro m hm
    have hn := settled_wakeWaiters hm
    unfold scheduleIn
    rw [exec_bind, exec_modify, exec_bind, exec_get]
    generalize wakeWaiters m = n at hn
    dsimp only
    cases nextTask n with
    | none =>
      refine ⟨settled_leaveAll hn, fun ho => ?_⟩
      cases ho
    | some slot =>
      dsimp only
      rw [exec_bind, exec_switchTo]
      split
      · rw [if_pos rfl]
        have hk := settled_switched hn slot
        have hr := running_switched n slot
        split
        · rw [exec_bind]
          have hs : Steady (switched n slot).tables (exec (resumeIo (ε := ε)) (switched n slot)).2.tables :=
            Tables.steady_ioResume _ _
          have hsettled := settled_resumeIo hk
          have hcurrent : (exec (resumeIo (ε := ε)) (switched n slot)).2.current = slot := rfl
          have hstate : ((exec (resumeIo (ε := ε)) (switched n slot)).2.tasks slot).state = .running := hr.state
          have hfile := hs.fileTask
          generalize exec (resumeIo (ε := ε)) (switched n slot) = answer at hsettled hcurrent hstate hfile
          obtain ⟨result, k⟩ := answer
          dsimp only at hsettled hcurrent hstate hfile ⊢
          cases result with
          | wait => exact ih _ (settled_setTask hsettled slot ioWaiting_lives)
          | sigpipe => exact ih _ (settled_retire hsettled 13)
          | value v =>
            refine ⟨hsettled.of_tasks rfl fun i hi => hi, fun _ => ⟨?_, ?_⟩⟩
            · exact hfile.trans hcurrent.symm
            · show (k.tasks k.current).state = .running
              rw [hcurrent]
              exact hstate
        · exact ⟨hk, fun _ => hr⟩
      · refine ⟨hn.of_tasks rfl fun i hi => hi, fun ho => ?_⟩
        cases ho

theorem settled_exitTask (status : Nat) :
    Ends (Settled (ε := ε)) (exitTask status) fun _ m => Settled m ∧ (m.outcome = none → Running m) :=
  Ends.bind (Q := fun _ => Settled) (fun m hm => settled_retire hm status) fun _ => settled_scheduleIn _

/-! ## Every event -/

/-- The machine between two events. -/
structure Accounted (m : Machine ε) : Prop extends Settled m where
  running : m.outcome = none → Running m

/-- What `save_current` leaves: the same states, or a panic. -/
theorem saveCurrent_spec (m : Machine ε) :
    (exec (saveCurrent (ε := ε)) m).2.tables = m.tables ∧
    (∀ i, ((exec (saveCurrent (ε := ε)) m).2.tasks i).state = (m.tasks i).state) ∧
    (exec (saveCurrent (ε := ε)) m).2.current = m.current ∧
    ((exec (saveCurrent (ε := ε)) m).1 = false → (exec (saveCurrent (ε := ε)) m).2.outcome ≠ none) := by
  unfold saveCurrent
  rw [exec_bind]
  have hsame : ∀ (x : StateM (Space ε) (Except Int Name)), (exec (onSpace x) m).2.tables = m.tables ∧
      (exec (onSpace x) m).2.tasks = m.tasks ∧ (exec (onSpace x) m).2.current = m.current := fun x => ⟨rfl, rfl, rfl⟩
  obtain ⟨h1, h2, h3⟩ := hsame (Vfs.fsGetcwd 4096)
  generalize exec (onSpace (Vfs.fsGetcwd (ε := ε) 4096)) m = r at h1 h2 h3
  obtain ⟨r, n⟩ := r
  dsimp only at h1 h2 h3 ⊢
  cases r with
  | error e => exact ⟨h1, fun i => by rw [← h2]; rfl, h3, fun _ => nofun⟩
  | ok cwd =>
    refine ⟨h1, fun i => ?_, h3, nofun⟩
    show ((n.setTask n.current { n.task with frame := n.frame, memory := n.memory.toMemoryState, cwd := cwd }).tasks i).state = _
    rw [state_setTask, ← h2]
    split
    · rename_i he
      rw [he]
      rfl
    · rfl

theorem settled_saveCurrent :
    Ends (Settled (ε := ε)) saveCurrent fun ok m => Settled m ∧ (ok = false → m.outcome ≠ none) := by
  intro m hm
  obtain ⟨h1, h2, -, h4⟩ := saveCurrent_spec m
  exact ⟨hm.of_tasks h1 fun i hi => by rw [h2] at hi; exact hi, h4⟩

/-- A task goes to sleep, or stays ready, and the scheduler runs. -/
theorem settled_sleep (f : Machine ε → Task) (hf : ∀ m, (f m).state ≠ .unused ∧ (f m).state ≠ .zombie) :
    Ends (Settled (ε := ε)) (do if ← saveCurrent then modify (fun m => m.setTask m.current (f m)); schedule) fun _ m =>
      Settled m ∧ (m.outcome = none → Running m) := by
  refine settled_saveCurrent.bind fun ok => Ends.ite (fun _ => ?_) fun hok => ?_
  · exact Ends.bind (Q := fun _ => Settled) (fun m hm => settled_setTask hm.1 _ (hf m)) fun _ => settled_scheduleIn _
  · exact fun m hm => ⟨hm.1, fun ho => absurd ho (hm.2 (by simpa using hok))⟩

/-- Nothing that the scheduler does makes a description referenced. -/
theorem bound : Scheduling Bound where
  use := fun _ slot => ⟨fun h => h.use slot, fun _ => rfl, fun _ _ => id⟩
  exit := fun t slot => (Tables.filesExit_spec t slot).1.bound
  resume := fun t m _ => (Tables.steady_ioResume t m).tied.toBound

/-- The result of an event from a machine between two events. -/
structure Good (m m' : Machine ε) : Prop where
  accounted : Accounted m'
  unspoiled : Unspoiled m.tables m'.tables

theorem good_of_bound {m m' : Machine ε} (hm : Accounted m) (hb : Bound m.tables m'.tables)
    (hs : Settled m' ∧ (m'.outcome = none → Running m')) : Good m m' := ⟨⟨hs.1, hs.2⟩, hb.unspoiled hm.counted⟩

theorem good_setEax {m : Machine ε} (hm : Accounted m) (n : Int) : Good m (exec (setEax (ε := ε) n) m).2 :=
  good_of_bound hm (refl_of Bound m.tables) ⟨hm.toSettled.of_tasks rfl fun _ h => h, fun h => ⟨(hm.running h).1, (hm.running h).2⟩⟩

/-- The child's row is a copy of the parent's. -/
theorem good_forkTask {m : Machine ε} (hm : Accounted m) (ho : m.outcome = none) : Good m (exec (forkTask (ε := ε)) m).2 := by
  have hrun := hm.running ho
  unfold forkTask
  rw [exec_bind, exec_get]
  dsimp only
  cases hchild : (List.finRange 3).find? fun i => (m.tasks i).state == .unused with
  | none => exact good_setEax hm _
  | some child =>
    have hunused : (m.tasks child).state = .unused := by simpa using List.find?_some hchild
    have hne : m.current ≠ child := by
      intro he
      rw [← he, hrun.state] at hunused
      cases hunused
    dsimp only
    split
    · exact good_setEax hm _
    · simp only [exec_bind, exec_modify, setEax]
      generalize hstart : ({ m with nextPid := m.nextPid + 1, frame := { m.frame with eax := register m.nextPid } } : Machine ε) = n
      have hn : n.tables = m.tables ∧ n.tasks = m.tasks ∧ n.current = m.current := by rw [← hstart]; exact ⟨rfl, rfl, rfl⟩
      obtain ⟨h1, h2, h3, h4⟩ := saveCurrent_spec n
      generalize exec (saveCurrent (ε := ε)) n = r at h1 h2 h3 h4
      obtain ⟨ok, s⟩ := r
      dsimp only at h1 h2 h3 h4 ⊢
      have hs : Settled s := by
        refine hm.toSettled.of_tasks (h1.trans hn.1) fun i hi => ?_
        rwa [h2, hn.2.1] at hi
      have hb : Bound m.tables s.tables := by
        rw [h1, hn.1]
        exact refl_of Bound m.tables
      cases ok with
      | false => exact good_of_bound hm hb ⟨hs, fun ho => absurd ho (h4 rfl)⟩
      | true =>
        have hcur : s.current = m.current := h3.trans hn.2.2
        have hempty : ∀ fd, s.tables.taskFiles child fd = none :=
          hs.idle child (.inl (by rw [h2, hn.2.1]; exact hunused))
        have hshared := hs.counted.filesFork (hcur.symm ▸ hne) hempty
        rw [if_pos rfl, exec_modify]
        refine good_of_bound hm (trans_of Bound hb ⟨fun _ => hshared.counted.use child, hshared.identity, fun hc d hd => ?_⟩)
          ⟨⟨hshared.counted.use child, fun slot hstate fd => ?_⟩, fun _ => ⟨rfl, ?_⟩⟩
        · -- a reference of the child is one of its parent
          rw [hc.refs d, ← Nat.pos_iff_ne_zero, card_fiber_pos]
          have hpos := Nat.pos_of_ne_zero hd
          change 0 < ((s.tables.filesFork s.current child).descriptions d).refs at hpos
          rw [hshared.counted.refs d, card_fiber_pos] at hpos
          obtain ⟨⟨slot, fd⟩, hi⟩ := hpos
          by_cases hslot : slot = child
          · subst hslot
            exact ⟨(s.current, fd), (hshared.done fd (by simp)).1.symm.trans hi⟩
          · exact ⟨(slot, fd), (congrFun (hshared.rows slot hslot).1 fd).symm.trans hi⟩
        · have hslot : slot ≠ child := by
            rintro rfl
            simp [state_setTask] at hstate
          have hslot' : slot ≠ s.current := by
            rintro rfl
            simp [state_setTask, hslot] at hstate
          have hold : (s.tasks slot).state = .unused ∨ (s.tasks slot).state = .zombie := by
            simpa [state_setTask, hslot, hslot'] using hstate
          show (s.tables.filesFork s.current child).taskFiles slot fd = none
          rw [(hshared.rows slot hslot).1]
          exact hs.idle slot hold fd
        · simp [state_setTask]

theorem good_waitTask {m : Machine ε} (hm : Accounted m) (ho : m.outcome = none) : Good m (exec (waitTask (ε := ε)) m).2 := by
  have hrun := hm.running ho
  unfold waitTask
  rw [exec_bind, exec_get]
  dsimp only
  split
  · exact good_setEax hm _
  split
  · exact good_setEax hm _
  split
  · exact good_setEax hm _
  cases hfind : findChild m (signed m.frame.ebx) with
  | mk found any =>
    cases found with
    | some i =>
      have hi := List.find?_some (congrArg Prod.fst hfind)
      simp only [Bool.and_eq_true, beq_iff_eq] at hi
      have hne : m.current ≠ i := by
        intro he
        rw [← he, hrun.state] at hi
        cases hi.2
      refine good_of_bound hm (refl_of Bound m.tables) ⟨hm.toSettled.of_tasks rfl fun j hj => ?_, fun _ => ⟨hrun.fileTask, ?_⟩⟩
      · change ((m.setTask i { m.tasks i with state := .unused }).tasks j).state = _ ∨
          ((m.setTask i { m.tasks i with state := .unused }).tasks j).state = _ at hj
        rw [state_setTask] at hj
        split at hj
        · rename_i he
          exact .inr (he ▸ hi.2)
        · exact hj
      · show ((m.setTask i { m.tasks i with state := .unused }).tasks m.current).state = _
        rw [state_setTask, if_neg hne]
        exact hrun.state
    | none =>
      cases any with
      | false => exact good_setEax hm _
      | true =>
        dsimp only
        split
        · exact good_setEax hm _
        · rw [exec_bind, exec_modify]
          have hs : Settled (m.setTask m.current { m.task with waitPid := signed m.frame.ebx, waitStatus := m.frame.ecx }) :=
            settled_setTask hm.toSettled _ (by
              have : m.task.state = .running := hrun.state
              exact ⟨by simp [this], by simp [this]⟩)
          have hb := bound.sleep (fun m => { m.task with state := .waiting })
            (m.setTask m.current { m.task with waitPid := signed m.frame.ebx, waitStatus := m.frame.ecx })
          exact good_of_bound hm hb (settled_sleep (fun m => { m.task with state := .waiting }) (fun _ => ⟨nofun, nofun⟩) _ hs)

/-- A call of the current task leaves the other rows alone, so the counts stay settled. -/
theorem settled_dispatch {m : Machine ε} (hm : Accounted m) (ho : m.outcome = none) (number a b c : Nat) :
    Settled (exec (linuxSyscallDispatch (ε := ε) number a b c) m).2 := by
  have hu := uses_dispatch number a b c m
  have hrun := hm.running ho
  refine ⟨hu.counted hm.counted, fun slot hstate fd => ?_⟩
  rw [(apart.dispatch number a b c m).tasks] at hstate
  have hne : slot ≠ m.tables.fileTask := by
    rw [hrun.fileTask]
    rintro rfl
    rw [hrun.state] at hstate
    rcases hstate with h | h <;> cases h
  rw [hu.rows slot hne]
  exact hm.idle slot hstate fd

/-- After a call of the dispatcher, the frame gets its result. -/
theorem good_answer {m m' : Machine ε} (hm : Good m m') (n : Int) :
    Good m (exec (do setEax (ε := ε) n; execApply) m').2 := by
  have hsame : ∀ s : Machine ε, (exec (execApply (ε := ε)) s).2.tables = s.tables ∧ (exec (execApply (ε := ε)) s).2.tasks = s.tasks ∧
      (exec (execApply (ε := ε)) s).2.current = s.current ∧ (exec (execApply (ε := ε)) s).2.outcome = s.outcome := by
    intro s
    unfold execApply
    rw [exec_modify]
    split <;> exact ⟨rfl, rfl, rfl, rfl⟩
  obtain ⟨h1, h2, h3, h4⟩ := hsame (exec (setEax (ε := ε) n) m').2
  have hset := (good_setEax hm.accounted n).accounted
  rw [exec_bind]
  refine ⟨⟨hset.toSettled.of_tasks h1 fun i hi => by rwa [h2] at hi, fun ho => ⟨?_, ?_⟩⟩, ?_⟩
  · rw [h1, h3]
    exact (hset.running (h4 ▸ ho)).fileTask
  · rw [h2, h3]
    exact (hset.running (h4 ▸ ho)).state
  · rw [h1]
    exact hm.unspoiled

theorem good_syscallFromRegs {m : Machine ε} (hm : Accounted m) (ho : m.outcome = none) :
    Good m (exec (syscallFromRegs (ε := ε)) m).2 := by
  unfold syscallFromRegs
  rw [exec_bind, exec_get]
  dsimp only
  split
  · exact good_forkTask hm ho
  · exact good_waitTask hm ho
  iterate 2 exact good_of_bound hm (bound.exitTask _ m) (settled_exitTask _ m hm.toSettled)
  · exact good_setEax hm _
  · exact good_setEax hm _
  · have hset := good_setEax hm 0
    unfold schedYield
    rw [exec_bind]
    have hb := bound.sleep (fun m => { m.task with state := .ready }) (exec (setEax (ε := ε) 0) m).2
    exact good_of_bound hm hb (settled_sleep (fun m => { m.task with state := .ready }) (fun _ => ⟨nofun, nofun⟩) _ hset.accounted.toSettled)
  · rw [exec_bind]
    have hs := settled_dispatch hm ho m.frame.eax m.frame.ebx m.frame.ecx m.frame.edx
    have hu := uses_dispatch m.frame.eax m.frame.ebx m.frame.ecx m.frame.edx m
    have ha := apart.dispatch m.frame.eax m.frame.ebx m.frame.ecx m.frame.edx m
    generalize exec (linuxSyscallDispatch (ε := ε) m.frame.eax m.frame.ebx m.frame.ecx m.frame.edx) m = r at hs hu ha
    obtain ⟨result, n⟩ := r
    dsimp only at hs hu ha ⊢
    -- what runs after the call closes descriptors at most
    have later : ∀ {x : StateM (Machine ε) Unit}, Moves (OnTables Bound) x →
        Ends Settled x (fun _ m => Settled m ∧ (m.outcome = none → Running m)) → Good m (exec x n).2 :=
      fun hb hx => ⟨⟨(hx n hs).1, (hx n hs).2⟩, (hu.unspoiled hm.counted).bound (hb n) hs.counted⟩
    cases result with
    | wait =>
      exact later (bound.sleep fun m => { m.task with state := .ioWaiting })
        (settled_sleep (fun m => { m.task with state := .ioWaiting }) fun _ => ⟨nofun, nofun⟩)
    | sigpipe => exact later (bound.exitTask 13) (settled_exitTask 13)
    | value v =>
      have hrun := hm.running ho
      refine good_answer ⟨⟨hs, fun _ => ⟨?_, ?_⟩⟩, hu.unspoiled hm.counted⟩ v
      · rw [hu.fileTask, ha.current]
        exact hrun.fileTask
      · rw [ha.tasks, ha.current]
        exact hrun.state

theorem good_step (e : Event) {m : Machine ε} (hm : Accounted m) : Good m (exec (step (ε := ε) e) m).2 := by
  unfold step
  rw [exec_bind, exec_get]
  dsimp only
  split
  · rename_i ho
    have ho : m.outcome = none := by simpa using ho
    cases e with
    | compute arena frame =>
      exact good_of_bound hm (refl_of Bound m.tables) ⟨hm.toSettled.of_tasks rfl fun _ h => h, fun _ => ⟨(hm.running ho).1, (hm.running ho).2⟩⟩
    | syscall => exact good_syscallFromRegs hm ho
    | fault => exact good_of_bound hm (bound.exitTask 11 m) (settled_exitTask 11 m hm.toSettled)
  · exact ⟨hm, (refl_of Bound m.tables).unspoiled hm.counted⟩

/-! ## Whole runs -/

theorem accounted_launch (m : Machine ε) (memory : Memory) (entry stack : Nat) : Accounted (launch m memory entry stack) := by
  refine ⟨⟨Tables.counted_reset, fun slot hstate fd => ?_⟩, fun _ => ⟨rfl, rfl⟩⟩
  have hslot : slot ≠ 0 := by
    rintro rfl
    rcases hstate with h | h <;> cases h
  show Tables.reset.taskFiles slot fd = none
  unfold Tables.reset
  simp [hslot]

theorem Launched.accounted {m : Machine ε} (h : Launched m) : Accounted m := by
  obtain ⟨m₀, image, plan, staged, path, uid, -, rfl⟩ := h.program
  exact accounted_launch ..

theorem accounted_runEvents {m : Machine ε} (hm : Accounted m) (es : List Event) : Accounted (runEvents m es) := by
  induction es generalizing m with
  | nil => exact hm
  | cons e es ih => exact ih (good_step e hm).accounted

/-- The calls on descriptors: `fork`, `open`, `close`, `execve`, `dup`, `pipe`, `fcntl`, `dup2` and `pipe2`. -/
def descriptorCalls : List Nat := [2, 5, 6, 11, 41, 42, 55, 63, 331]

theorem signed_register {n : Int} (h : 0 ≤ n) (hn : n < 2 ^ 31) : 0 ≤ signed (register n) := by
  unfold signed register
  split <;> omega

/-- When a call with these results ends with an error in `eax`, the tables are as before. -/
theorem Outright.answer {R : Tables → Tables → Prop} {x : StateM (Machine ε) Int} (h : Outright R x) (m : Machine ε)
    (hneg : signed (exec (do setEax (ε := ε) (← x); execApply) m).2.frame.eax < 0) :
    (exec (do setEax (ε := ε) (← x); execApply) m).2.tables = m.tables := by
  have hafter : ∀ (n : Int) (s : Machine ε),
      (exec (do setEax (ε := ε) n; execApply) s).2.tables = s.tables ∧
      ((exec (do setEax (ε := ε) n; execApply) s).2.frame.eax = register n ∨
        (exec (do setEax (ε := ε) n; execApply) s).2.frame.eax = 0) := by
    intro n s
    unfold setEax execApply
    rw [exec_bind, exec_modify, exec_modify]
    dsimp only
    split
    · exact ⟨rfl, .inl rfl⟩
    · exact ⟨rfl, .inr rfl⟩
  rw [exec_bind] at hneg ⊢
  obtain ⟨htables, heax⟩ := hafter (exec x m).1 (exec x m).2
  rw [htables]
  rcases h m with he | ⟨h0, hlt, -⟩
  · exact he
  · -- a result that is not negative is not an error
    exfalso
    rcases heax with he | he
    · rw [he] at hneg
      have := signed_register h0 hlt
      omega
    · rw [he] at hneg
      exact absurd hneg (by decide)

theorem forkTask_failing (m : Machine ε) (hneg : signed (exec (forkTask (ε := ε)) m).2.frame.eax < 0) :
    (exec (forkTask (ε := ε)) m).2.tables = m.tables := by
  unfold forkTask at hneg ⊢
  rw [exec_bind, exec_get] at hneg ⊢
  dsimp only at hneg ⊢
  cases hchild : (List.finRange 3).find? fun i => (m.tasks i).state == .unused with
  | none => rfl
  | some child =>
    rw [hchild] at hneg
    dsimp only at hneg ⊢
    split
    · rfl
    · rename_i hpid
      rw [if_neg hpid] at hneg
      simp only [exec_bind, exec_modify, setEax] at hneg ⊢
      have hsave := (saveCurrent_spec
        ({ m with nextPid := m.nextPid + 1, frame := { m.frame with eax := register m.nextPid } } : Machine ε)).1
      generalize exec (saveCurrent (ε := ε))
        { m with nextPid := m.nextPid + 1, frame := { m.frame with eax := register m.nextPid } } = r at hsave hneg ⊢
      obtain ⟨ok, s⟩ := r
      cases ok with
      | false => exact hsave
      | true =>
        change signed 0 < 0 at hneg
        exact absurd hneg (by decide)

/-- A call that the dispatcher answers with the result of `x`. -/
theorem syscallFromRegs_value {m : Machine ε} {x : StateM (Machine ε) Int}
    (hn : m.frame.eax ∉ [2, 7, 1, 252, 20, 64, 158])
    (hx : linuxSyscallDispatch m.frame.eax m.frame.ebx m.frame.ecx m.frame.edx = (do return .value (← x))) :
    exec (syscallFromRegs (ε := ε)) m = exec (do setEax (ε := ε) (← x); execApply) m := by
  unfold syscallFromRegs
  rw [exec_bind, exec_get]
  dsimp only
  split
  iterate 7 exact absurd (by simp [*]) hn
  rw [hx]
  rfl

/-- An error in `eax` after a call on descriptors: the tables are as before. -/
theorem syscallFromRegs_failing (m : Machine ε) (hcall : m.frame.eax ∈ descriptorCalls)
    (hneg : signed (exec (syscallFromRegs (ε := ε)) m).2.frame.eax < 0) :
    (exec (syscallFromRegs (ε := ε)) m).2.tables = m.tables := by
  have value : ∀ {R : Tables → Tables → Prop} {x : StateM (Machine ε) Int}, Outright R x →
      m.frame.eax ∉ [2, 7, 1, 252, 20, 64, 158] →
      linuxSyscallDispatch m.frame.eax m.frame.ebx m.frame.ecx m.frame.edx = (do return .value (← x)) →
      (exec (syscallFromRegs (ε := ε)) m).2.tables = m.tables := by
    intro R x h hn hx
    rw [syscallFromRegs_value hn hx] at hneg ⊢
    exact h.answer m hneg
  simp only [descriptorCalls, List.mem_cons, List.not_mem_nil, or_false] at hcall
  rcases hcall with h | h | h | h | h | h | h | h | h
  · have hfork : exec (syscallFromRegs (ε := ε)) m = exec (forkTask (ε := ε)) m := by
      unfold syscallFromRegs
      rw [exec_bind, exec_get, h]
      rfl
    rw [hfork] at hneg ⊢
    exact forkTask_failing m hneg
  · exact value (uses_sysOpen m.frame.ebx m.frame.ecx) (by simp [h]) (by rw [h]; rfl)
  · exact value (uses_sysClose m.frame.ebx) (by simp [h]) (by rw [h]; rfl)
  · exact value (uses_linuxExecve m.frame.ebx m.frame.ecx m.frame.edx) (by simp [h]) (by rw [h]; rfl)
  · exact value (uses_sysDup m.frame.ebx) (by simp [h]) (by rw [h]; rfl)
  · exact value (uses_sysPipe m.frame.ebx 0) (by simp [h]) (by rw [h]; rfl)
  · exact value (uses_sysFcntl m.frame.ebx m.frame.ecx m.frame.edx) (by simp [h]) (by rw [h]; rfl)
  · exact value (uses_sysDup2 m.frame.ebx m.frame.ecx) (by simp [h]) (by rw [h]; rfl)
  · exact value (uses_sysPipe m.frame.ebx m.frame.ecx) (by simp [h]) (by rw [h]; rfl)

/-- In every state that a launch reaches: every count is right, no descriptor leads to a
description that is not referenced, no event gives away a referenced description or a
pipe with ends, and a call on descriptors that fails leaves the tables unchanged. -/
theorem references_counted {m : Machine ε} (hm : Launched m) (es : List Event) :
    (runEvents m es).tables.Counted ∧
    (∀ slot fd d, (runEvents m es).tables.taskFiles slot fd = some d → ((runEvents m es).tables.descriptions d).refs ≠ 0) ∧
    (∀ e, Unspoiled (runEvents m es).tables (exec (step e) (runEvents m es)).2.tables) ∧
    ((runEvents m es).frame.eax ∈ descriptorCalls →
      signed (exec (step .syscall) (runEvents m es)).2.frame.eax < 0 →
      (exec (step .syscall) (runEvents m es)).2.tables = (runEvents m es).tables) := by
  have h := accounted_runEvents hm.accounted es
  generalize runEvents m es = n at h ⊢
  refine ⟨h.counted, fun slot fd d hd => Nat.ne_of_gt (h.counted.refs_pos hd), fun e => (good_step e h).unspoiled,
    fun hcall hneg => ?_⟩
  unfold step at hneg ⊢
  rw [exec_bind, exec_get] at hneg ⊢
  dsimp only at hneg ⊢
  split
  · rename_i ho
    rw [if_pos ho] at hneg
    exact syscallFromRegs_failing n hcall hneg
  · rfl

/-! ## A small program -/

/-- Trees that report nothing about inodes. -/
abbrev quietTrees : ListingEngine Vfs.Trees := Vfs.reporting (fun _ _ => none) fun _ _ _ position => (-1, [], position)

/-- An engine with one volume, and a namespace that is not in use. -/
def plainSpace (tree : Vfs.Tree) (cwd : List Name) : Space Vfs.Trees where
  mounts := fun _ => ⟨false, Vfs.noDisk, []⟩
  working := [slash]
  active := false
  activeVolume := none
  user := "root".toUTF8.toList
  renamedAcl := []
  renameGuard := []
  renamedAclNeeded := false
  engine :=
    { volumes := fun _ => some tree
      probe := fun _ _ sel => (sel, false)
      selected := Vfs.noDisk
      mounted := true
      cwd := cwd
      refuses := fun _ => false
      clock := 0 }

/-- The launch of the small program with one argument, in this space. -/
def tinyLaunch (space : Space Vfs.Trees) : Machine Vfs.Trees :=
  launch
    { tables := .reset
      memory := ⟨default, fun _ => 0⟩
      frame := default
      tasks := taskInit
      current := 0
      nextPid := 2
      rootStatus := 0
      snapshots := fun _ _ => 0
      outcome := none
      pendingEntry := 0
      pendingStack := 0
      keys := fun _ => 0
      pressed := 0
      screen := []
      reaped := []
      space := space }
    (installImage tinyPlan tinyImage ⟨[116, 0], [0], []⟩ [116] 0).1 tinyPlan.entry
    (installImage tinyPlan tinyImage ⟨[116, 0], [0], []⟩ [116] 0).2

theorem launched_tiny (space : Space Vfs.Trees) : Launched (tinyLaunch space) :=
  ⟨_, tinyImage, tinyPlan, ⟨[116, 0], [0], []⟩, [116], 0, elfValidate_tinyImage, rfl⟩

/-- The small program calls `dup` with a descriptor that is not open. -/
theorem references_counted_dup : let _ := quietTrees
    let n := runEvents (tinyLaunch (plainSpace ⟨[]⟩ [])) [.compute (fun _ => 0) { (default : TrapFrame) with eax := 41, ebx := 9 }]
    n.tables.Counted ∧ (exec (step .syscall) n).2.tables = n.tables := by
  intro _ n
  obtain ⟨h1, -, -, h4⟩ := references_counted (launched_tiny (plainSpace ⟨[]⟩ []))
    [.compute (fun _ => 0) { (default : TrapFrame) with eax := 41, ebx := 9 }]
  exact ⟨h1, h4 (by decide) (by decide)⟩

end Barnix.Linux
