import Barnix.Linux.Readiness
/-!
# Scheduling makes progress

The scheduler goes on after a transfer that waits again, but only while there
is room in the pipes, so it comes to an end; and when it finds nothing to run,
nothing can go on.
-/

namespace Barnix.Linux

open Vfs (Space ListingEngine)

/-! ## Parents that wait -/

section
variable {ε : Type}

/-- No two processes have the same number, and a task that waits for a child has one. -/
structure Family (m : Machine ε) : Prop where
  pids : ∀ i j, (m.tasks i).state ≠ .unused → (m.tasks j).state ≠ .unused → (m.tasks i).pid = (m.tasks j).pid → i = j
  bound : ∀ i, (m.tasks i).state ≠ .unused → (m.tasks i).pid < m.nextPid
  waits : ∀ i, (m.tasks i).state = .waiting → ∃ j, isChild (m.tasks i) (m.tasks j) (m.tasks i).waitPid = true

/-- A task stays the same process. -/
structure SameKin (task task' : Task) : Prop where
  used : task'.state = .unused ↔ task.state = .unused
  pid : task'.pid = task.pid
  parent : task'.parent = task.parent

/-- It does not start to wait either. -/
structure SameProcess (task task' : Task) : Prop extends SameKin task task' where
  waiting : task'.state = .waiting → task.state = .waiting ∧ task'.waitPid = task.waitPid

theorem SameProcess.refl (task : Task) : SameProcess task task := ⟨⟨Iff.rfl, rfl, rfl⟩, fun h => ⟨h, rfl⟩⟩

theorem isChild_iff (parent child : Task) (pid : Int) : isChild parent child pid = true ↔
    child.state ≠ .unused ∧ child.parent = parent.pid ∧ (pid ≤ 0 ∨ (child.pid : Int) = pid) := by
  unfold isChild
  simp [and_assoc]

theorem Family.kin {m m' : Machine ε} (h : Family m) (hn : m'.nextPid = m.nextPid) (hs : ∀ i, SameKin (m.tasks i) (m'.tasks i))
    (hw : ∀ i, (m'.tasks i).state = .waiting → ∃ j, isChild (m.tasks i) (m.tasks j) (m'.tasks i).waitPid = true) : Family m' := by
  refine ⟨fun i j hi hj he => ?_, fun i hi => ?_, fun i hi => ?_⟩
  · rw [(hs i).pid, (hs j).pid] at he
    exact h.pids i j (fun h => hi ((hs i).used.2 h)) (fun h => hj ((hs j).used.2 h)) he
  · rw [(hs i).pid, hn]
    exact h.bound i fun h => hi ((hs i).used.2 h)
  · obtain ⟨j, hj⟩ := hw i hi
    refine ⟨j, ?_⟩
    rw [isChild_iff] at hj ⊢
    rw [(hs i).pid, (hs j).pid, (hs j).parent]
    exact ⟨fun h => hj.1 ((hs j).used.1 h), hj.2⟩

theorem Family.same {m m' : Machine ε} (h : Family m) (hn : m'.nextPid = m.nextPid)
    (hs : ∀ i, SameProcess (m.tasks i) (m'.tasks i)) : Family m' := by
  refine h.kin hn (fun i => (hs i).toSameKin) fun i hi => ?_
  obtain ⟨hwait, hpid⟩ := (hs i).waiting hi
  rw [hpid]
  exact h.waits i hwait

/-- `slot` is woken by its child `j`, which goes. -/
structure Woken (m : Machine ε) (slot j : Slot) (m' : Machine ε) : Prop where
  asleep : (m.tasks slot).state = .waiting
  zombie : (m.tasks j).state = .zombie
  parent : (m.tasks j).parent = (m.tasks slot).pid
  same : ∀ i, (m'.tasks i).pid = (m.tasks i).pid ∧ (m'.tasks i).parent = (m.tasks i).parent ∧ (m'.tasks i).waitPid = (m.tasks i).waitPid
  state : ∀ i, (m'.tasks i).state = if i = j then .unused else if i = slot then .ready else (m.tasks i).state
  rest : m'.tables = m.tables ∧ m'.nextPid = m.nextPid ∧ m'.current = m.current ∧ m'.outcome = m.outcome

theorem Woken.waiting {m m' : Machine ε} {slot j i : Slot} (h : Woken m slot j m') (hi : (m'.tasks i).state = .waiting) :
    (m.tasks i).state = .waiting ∧ i ≠ slot := by
  rw [h.state] at hi
  split at hi
  · cases hi
  split at hi
  · cases hi
  · exact ⟨hi, ‹_›⟩

/-- Only the child of the woken task goes, so the others keep theirs. -/
theorem Family.woken {m m' : Machine ε} (h : Family m) {slot j : Slot} (hw : Woken m slot j m') : Family m' := by
  have hused : ∀ i, (m'.tasks i).state ≠ .unused → (m.tasks i).state ≠ .unused := by
    intro i hi hu
    rw [hw.state, hu] at hi
    split at hi
    · exact hi rfl
    split at hi
    · rename_i his
      rw [his, hw.asleep] at hu
      cases hu
    · exact hi rfl
  refine ⟨fun a b ha hb he => ?_, fun a ha => ?_, fun a ha => ?_⟩
  · rw [(hw.same a).1, (hw.same b).1] at he
    exact h.pids a b (hused a ha) (hused b hb) he
  · rw [(hw.same a).1, hw.rest.2.1]
    exact h.bound a (hused a ha)
  · obtain ⟨hold, hne⟩ := hw.waiting ha
    obtain ⟨c, hc⟩ := h.waits a hold
    refine ⟨c, ?_⟩
    rw [isChild_iff] at hc ⊢
    rw [(hw.same a).2.2, (hw.same a).1, (hw.same c).1, (hw.same c).2.1, hw.state]
    refine ⟨?_, hc.2⟩
    -- the child that goes has another parent
    have hcj : c ≠ j := by
      rintro rfl
      refine hne (h.pids a slot (by rw [hold]; exact nofun) (by rw [hw.asleep]; exact nofun) ?_)
      rw [← hc.2.1, hw.parent]
    rw [if_neg hcj]
    split
    · exact nofun
    · exact hc.1

/-! ## Tasks that sleep on pipes -/

/-- The tasks that sleep on a pipe. -/
def sleepers (m : Machine ε) : Nat := (Finset.univ.filter fun s => (m.tasks s).state = .ioWaiting).card

theorem sleepers_le {m m' : Machine ε} (h : ∀ i, (m'.tasks i).state = .ioWaiting → (m.tasks i).state = .ioWaiting) :
    sleepers m' ≤ sleepers m :=
  Finset.card_le_card fun i hi => by
    rw [Finset.mem_filter] at hi ⊢
    exact ⟨hi.1, h i hi.2⟩

theorem sleepers_lt {m m' : Machine ε} (h : ∀ i, (m'.tasks i).state = .ioWaiting → (m.tasks i).state = .ioWaiting) {slot : Slot}
    (hslot : (m.tasks slot).state = .ioWaiting) (hslot' : (m'.tasks slot).state ≠ .ioWaiting) : sleepers m' < sleepers m := by
  apply Finset.card_lt_card
  rw [Finset.ssubset_iff_of_subset]
  · exact ⟨slot, by simpa using hslot, by simpa using hslot'⟩
  · intro i hi
    rw [Finset.mem_filter] at hi ⊢
    exact ⟨hi.1, h i hi.2⟩

/-- The chosen task is one that can run. -/
theorem nextTask_runnable {n : Machine ε} {slot : Slot} (h : nextTask n = some slot) :
    (n.tasks slot).state = .ready ∨ ((n.tasks slot).state = .ioWaiting ∧ n.tables.ioReady slot = true) := by
  have hrun : runnable n slot = true := List.find?_some h
  unfold runnable at hrun
  simpa using hrun

end

variable {ε : Type} [ListingEngine ε]

open Tables (Undisturbed Beside)

theorem Family.setTask {m : Machine ε} (h : Family m) {slot : Slot} {task : Task} (hs : SameProcess (m.tasks slot) task) :
    Family (m.setTask slot task) := by
  refine h.same rfl fun i => ?_
  rw [state_setTask]
  split
  · rename_i he
    exact he ▸ hs
  · exact SameProcess.refl _

theorem wakeWaiter_cases (m : Machine ε) (slot : Slot) :
    (wakeWaiter m slot = m ∧ ((m.tasks slot).state = .waiting → zombieFor m slot = none)) ∨ ∃ j, Woken m slot j (wakeWaiter m slot) := by
  unfold wakeWaiter
  split
  · rename_i h
    exact .inl ⟨rfl, fun hw => absurd hw h⟩
  rename_i hstate
  cases hz : zombieFor m slot with
  | none => exact .inl ⟨rfl, fun _ => rfl⟩
  | some j =>
    have hj := List.find?_some hz
    rw [Bool.and_eq_true, beq_iff_eq, isChild_iff] at hj
    refine .inr ⟨j, not_not.1 hstate, hj.1, hj.2.2.1, fun i => ?_, fun i => ?_, rfl, rfl, rfl, rfl⟩
    all_goals
      dsimp only
      rw [state_setTask]
      by_cases hij : i = j
      · subst hij
        simp
      · rw [if_neg hij, state_setTask]
        by_cases his : i = slot
        · subst his
          simp [hij]
        · simp [hij, his]

theorem Family.wakeWaiters {m : Machine ε} (h : Family m) : Family (wakeWaiters m) := by
  unfold Linux.wakeWaiters
  generalize List.finRange 3 = slots
  induction slots generalizing m with
  | nil => exact h
  | cons slot slots ih =>
    apply ih
    rcases wakeWaiter_cases m slot with ⟨he, -⟩ | ⟨j, hw⟩
    · rw [he]
      exact h
    · exact h.woken hw

/-- After `wake_waiters` no child that is waited for has exited. -/
theorem wakeWaiters_done (m : Machine ε) (i j : Slot) (hi : ((wakeWaiters m).tasks i).state = .waiting)
    (hj : isChild ((wakeWaiters m).tasks i) ((wakeWaiters m).tasks j) ((wakeWaiters m).tasks i).waitPid = true) :
    ((wakeWaiters m).tasks j).state ≠ .zombie := by
  suffices h : ∀ (slots : List Slot) (m : Machine ε), (i ∈ slots ∨ ((m.tasks i).state = .waiting → zombieFor m i = none)) →
      ((slots.foldl wakeWaiter m).tasks i).state = .waiting → zombieFor (slots.foldl wakeWaiter m) i = none by
    intro hz
    have hnone := h (List.finRange 3) m (.inl (List.mem_finRange i)) hi
    unfold zombieFor at hnone
    rw [List.find?_eq_none] at hnone
    refine hnone j (List.mem_finRange j) ?_
    rw [Bool.and_eq_true, beq_iff_eq]
    exact ⟨hz, hj⟩
  intro slots
  induction slots with
  | nil =>
    intro m h hi
    exact h.resolve_left List.not_mem_nil hi
  | cons slot slots ih =>
    intro m h
    apply ih
    by_cases hmem : i ∈ slots
    · exact .inl hmem
    right
    intro hwait
    rcases wakeWaiter_cases m slot with ⟨he, hnone⟩ | ⟨j, hw⟩
    · rw [he] at hwait ⊢
      rcases h with h | h
      · obtain rfl := (List.mem_cons.1 h).resolve_right hmem
        exact hnone hwait
      · exact h hwait
    · obtain ⟨hold, hne⟩ := hw.waiting hwait
      have hnone := h.resolve_left (fun h => (List.mem_cons.1 h).elim hne hmem) hold
      unfold zombieFor at hnone ⊢
      rw [List.find?_eq_none] at hnone ⊢
      intro c hc hfound
      refine hnone c hc ?_
      rw [Bool.and_eq_true, beq_iff_eq, isChild_iff] at hfound ⊢
      rw [(hw.same i).2.2, (hw.same i).1, (hw.same c).1, (hw.same c).2.1] at hfound
      have hstate := hfound.1
      rw [hw.state] at hstate
      split at hstate
      · cases hstate
      split at hstate
      · cases hstate
      · exact ⟨hstate, by rw [hstate]; exact nofun, hfound.2.2⟩

/-- What the end of a task does to the slots. -/
theorem tasks_retire (status : Nat) (m : Machine ε) (i : Slot) :
    ((retire status m).tasks i).state = (if i = m.current then .zombie else (m.tasks i).state) ∧
    ((retire status m).tasks i).pid = (m.tasks i).pid ∧ ((retire status m).tasks i).waitPid = (m.tasks i).waitPid ∧
    ((m.tasks i).parent ≠ m.task.pid → ((retire status m).tasks i).parent = (m.tasks i).parent) := by
  have hset : ∀ task : Task, ((m.setTask m.current { m.task with status := status, state := .zombie }).tasks i) = task →
      task.state = (if i = m.current then .zombie else (m.tasks i).state) ∧ task.pid = (m.tasks i).pid ∧
      task.waitPid = (m.tasks i).waitPid ∧ task.parent = (m.tasks i).parent := by
    rintro _ rfl
    rw [state_setTask]
    split
    · rename_i hi
      rw [hi]
      exact ⟨rfl, rfl, rfl, rfl⟩
    · exact ⟨rfl, rfl, rfl, rfl⟩
  unfold retire
  dsimp only
  obtain ⟨h1, h2, h3, h4⟩ := hset _ rfl
  split
  · rename_i hif
    exact ⟨h1, h2, h3, fun hne => absurd (h4.symm.trans hif.2.2) hne⟩
  · exact ⟨h1, h2, h3, fun _ => h4⟩

/-- The children of a task that exits are not those of a task that waits. -/
theorem Family.retired {m : Machine ε} (h : Family m) (hused : (m.tasks m.current).state ≠ .unused) (status : Nat) :
    Family (retire status m) := by
  have hold : ∀ i, ((retire status m).tasks i).state ≠ .unused → (m.tasks i).state ≠ .unused := by
    intro i hi
    rw [(tasks_retire status m i).1] at hi
    split at hi
    · rename_i he
      exact he ▸ hused
    · exact hi
  refine ⟨fun a b ha hb he => ?_, fun a ha => ?_, fun a ha => ?_⟩
  · rw [(tasks_retire status m a).2.1, (tasks_retire status m b).2.1] at he
    exact h.pids a b (hold a ha) (hold b hb) he
  · rw [(tasks_retire status m a).2.1]
    exact h.bound a (hold a ha)
  · obtain ⟨hstate, hpid, hwait, -⟩ := tasks_retire status m a
    rw [hstate] at ha
    split at ha
    · cases ha
    rename_i hne
    obtain ⟨c, hc⟩ := h.waits a ha
    obtain ⟨hstate', hpid', -, hparent'⟩ := tasks_retire status m c
    refine ⟨c, ?_⟩
    rw [isChild_iff] at hc ⊢
    have hother : (m.tasks c).parent ≠ m.task.pid := by
      rw [hc.2.1]
      exact fun he => hne (h.pids a m.current (by rw [ha]; exact nofun) hused he)
    rw [hpid, hwait, hpid', hparent' hother, hstate']
    refine ⟨?_, hc.2⟩
    split
    · exact nofun
    · exact hc.1

/-! ## Rounds of the scheduler -/

/-- The transfer of `slot`, which is chosen in `n`, has a turn with this result. -/
structure Turns (n : Machine ε) (slot : Slot) (result : Result) (k : Machine ε) : Prop where
  next : nextTask n = some slot
  asleep : (n.tasks slot).state = .ioWaiting
  restored : (exec (switchTo slot) n).1 = true
  turn : exec (resumeIo (ε := ε)) (exec (switchTo slot) n).2 = (result, k)

/-- The scheduler looks for another task after `n`: a write has filled its pipe again, or
has killed its task. -/
inductive Again (n : Machine ε) : Machine ε → Prop where
  | filled {slot : Slot} {k : Machine ε} : Turns n slot .wait k → Again n (k.setTask slot { k.tasks slot with state := .ioWaiting })
  | killed {slot : Slot} {k : Machine ε} : Turns n slot .sigpipe k → Again n (retire 13 k)

/-- The machines in which a `schedule` that is called in `m` looks for the next task. -/
inductive Rounds (m : Machine ε) : Machine ε → Prop where
  | first : Rounds m (wakeWaiters m)
  | again {n k : Machine ε} : Rounds m n → Again n k → Rounds m (wakeWaiters k)

theorem Rounds.prepend {m k n : Machine ε} (h : Again (wakeWaiters m) k) (hn : Rounds k n) : Rounds m n := by
  induction hn with
  | first => exact .again .first h
  | again _ hk ih => exact .again ih hk

/-- One round: the launch ends, a task runs, or the scheduler goes on. -/
theorem scheduleIn_round (rounds : Nat) (m : Machine ε) :
    (nextTask (wakeWaiters m) = none ∧ (exec (scheduleIn (rounds + 1)) m).2 = leaveAll (wakeWaiters m)) ∨
    (exec (scheduleIn (rounds + 1)) m).2.outcome = some .panicRestore ∨
    (∃ slot, nextTask (wakeWaiters m) = some slot ∧ (exec (scheduleIn (rounds + 1)) m).2 = switched (wakeWaiters m) slot) ∨
    (∃ slot v k, Turns (wakeWaiters m) slot (.value v) k ∧ (exec (scheduleIn (rounds + 1)) m).2 = (exec (setEax v) k).2) ∨
    ∃ k, Again (wakeWaiters m) k ∧ (exec (scheduleIn (rounds + 1)) m).2 = (exec (scheduleIn rounds) k).2 := by
  rw [scheduleIn, exec_bind, exec_modify, exec_bind, exec_get]
  generalize wakeWaiters m = n
  dsimp only
  cases hnext : nextTask n with
  | none => exact .inl ⟨rfl, rfl⟩
  | some slot =>
    right
    dsimp only
    rw [exec_bind]
    have hswitch := exec_switchTo slot n
    by_cases hcd : (exec (Vfs.fsCd (ε := ε) (n.tasks slot).cwd) n.space).1 = 0
    · rw [if_pos hcd] at hswitch
      rw [hswitch, if_pos rfl]
      right
      by_cases hio : (n.tasks slot).state = .ioWaiting
      · rw [if_pos (beq_iff_eq.2 hio), exec_bind]
        right
        have hturn : ∀ result k, exec (resumeIo (ε := ε)) (switched n slot) = (result, k) → Turns n slot result k :=
          fun result k h => ⟨hnext, hio, by rw [hswitch], by rw [hswitch]; exact h⟩
        generalize exec (resumeIo (ε := ε)) (switched n slot) = r at hturn
        obtain ⟨result, k⟩ := r
        have hk := hturn result k rfl
        cases result with
        | wait => exact .inr ⟨_, .filled hk, rfl⟩
        | sigpipe => exact .inr ⟨_, .killed hk, rfl⟩
        | value v => exact .inl ⟨slot, v, k, hk, rfl⟩
      · rw [if_neg (by simpa using hio)]
        exact .inl ⟨slot, rfl, rfl⟩
    · rw [if_neg hcd] at hswitch
      rw [hswitch, if_neg nofun]
      exact .inl rfl

/-! ## The order that the scheduler keeps -/

/-- What the scheduler relies on. -/
structure Orderly (m : Machine ε) : Prop extends Settled m where
  streams : Streams m.tables
  asleep : ∀ s, (m.tasks s).state = .ioWaiting → m.tables.Waits s
  family : Family m

theorem wakeWaiters_rest (m : Machine ε) : (∀ i, ((wakeWaiters m).tasks i).state = .ioWaiting → (m.tasks i).state = .ioWaiting) ∧
    (wakeWaiters m).outcome = m.outcome := by
  unfold wakeWaiters
  generalize List.finRange 3 = slots
  induction slots generalizing m with
  | nil => exact ⟨fun _ h => h, rfl⟩
  | cons slot slots ih =>
    obtain ⟨h1, h2⟩ := ih (wakeWaiter m slot)
    rcases wakeWaiter_cases m slot with ⟨he, -⟩ | ⟨j, hw⟩
    · rw [List.foldl_cons]
      rw [he] at h1 h2 ⊢
      exact ⟨h1, h2⟩
    · refine ⟨fun i hi => ?_, h2.trans hw.rest.2.2.2⟩
      have hstate := h1 i hi
      rw [hw.state] at hstate
      split at hstate
      · cases hstate
      split at hstate
      · cases hstate
      · exact hstate

theorem Orderly.wakeWaiters {m : Machine ε} (h : Orderly m) : Orderly (wakeWaiters m) := by
  refine ⟨settled_wakeWaiters h.toSettled, ?_, fun s hs => ?_, h.family.wakeWaiters⟩
  · rw [tables_wakeWaiters]
    exact h.streams
  · rw [tables_wakeWaiters]
    exact h.asleep s ((wakeWaiters_rest m).1 s hs)

theorem Orderly.retired {m : Machine ε} (h : Orderly m) (hused : (m.tasks m.current).state ≠ .unused) (status : Nat) :
    Orderly (retire status m) := by
  refine ⟨settled_retire h.toSettled status, flowing_scheduler.exit m.tables m.current h.streams, fun s hs => ?_,
    h.family.retired hused status⟩
  rw [(tasks_retire status m s).1] at hs
  split at hs
  · cases hs
  · exact (h.asleep s hs).beside (Tables.beside_filesExit m.tables ‹_›) h.counted

/-- A task of a machine in order that changes only its state, and does not fall asleep. -/
theorem Orderly.setTask {m : Machine ε} (h : Orderly m) {slot : Slot} {task : Task} (hs : SameProcess (m.tasks slot) task)
    (hstate : task.state ≠ .unused ∧ task.state ≠ .zombie) (hio : task.state = .ioWaiting → m.tables.Waits slot) :
    Orderly (m.setTask slot task) := by
  refine ⟨settled_setTask h.toSettled slot hstate, h.streams, fun s hs' => ?_, h.family.setTask hs⟩
  rw [state_setTask] at hs'
  split at hs'
  · rename_i he
    exact he ▸ hio hs'
  · exact h.asleep s hs'

theorem Orderly.switched {n : Machine ε} (h : Orderly n) {slot : Slot} (hnext : nextTask n = some slot) :
    Orderly (switched n slot) := by
  have hstate : (n.tasks slot).state ≠ .unused := by
    rcases nextTask_runnable hnext with hs | ⟨hs, -⟩ <;> rw [hs] <;> exact nofun
  have hset := @Orderly.setTask ε _ n h slot { n.tasks slot with state := .running }
    ⟨⟨⟨nofun, fun hu => absurd hu hstate⟩, rfl, rfl⟩, nofun⟩ ⟨nofun, nofun⟩ nofun
  exact ⟨settled_switched h.toSettled slot, flowing_scheduler.use n.tables slot h.streams, hset.asleep,
    hset.family.same rfl fun _ => SameProcess.refl _⟩

/-- What a turn of the scheduler leaves. -/
structure Turned (n : Machine ε) (slot : Slot) (result : Result) (k : Machine ε) : Prop where
  ready : n.tables.ioReady slot = true
  turn : ∃ memory, (n.tables.resumed slot memory).1 = result ∧ k.tables = (n.tables.resumed slot memory).2.1
  rest : k.tasks = (switched n slot).tasks ∧ k.current = slot ∧ k.nextPid = n.nextPid ∧ k.outcome = n.outcome

theorem Turns.turned {n k : Machine ε} {slot : Slot} {result : Result} (h : Turns n slot result k) : Turned n slot result k := by
  have hready : n.tables.ioReady slot = true := by
    rcases nextTask_runnable h.next with hs | ⟨-, hs⟩
    · rw [h.asleep] at hs
      cases hs
    · exact hs
  have hrestored := h.restored
  have hturn := h.turn
  rw [exec_switchTo] at hrestored hturn
  split at hrestored
  · rename_i hcd
    rw [if_pos hcd] at hturn
    cases hturn
    exact ⟨hready, ⟨(switched n slot).memory, rfl, rfl⟩, rfl, rfl, rfl, rfl⟩
  · cases hrestored

theorem switched_ioWaiting (n : Machine ε) (slot : Slot) {i : Slot} (hi : ((switched n slot).tasks i).state = .ioWaiting) :
    i ≠ slot ∧ (n.tasks i).state = .ioWaiting := by
  change ((n.setTask slot { n.tasks slot with state := .running }).tasks i).state = _ at hi
  rw [state_setTask] at hi
  split at hi
  · cases hi
  · exact ⟨‹_›, hi⟩

/-- After a turn the machine is in order, but for the task that had it. -/
theorem Orderly.turned {n k : Machine ε} (h : Orderly n) {slot : Slot} {result : Result} (hk : Turns n slot result k) :
    Orderly k ∧ (result = .wait → k.tables.Waits slot) ∧ (k.tasks slot).state = .running := by
  obtain ⟨hready, ⟨memory, hresult, htables⟩, htasks, -, hpid, -⟩ := hk.turned
  have hsw := h.switched hk.next
  have hrun : ((Linux.switched n slot).tasks slot).state = .running := (running_switched n slot).state
  have hsteady : Tables.Steady { n.tables with fileTask := slot } k.tables := by
    rw [htables]
    exact Tables.steady_ioResume _ memory
  refine ⟨⟨⟨?_, fun s hs fd => ?_⟩, ?_, fun s hs => ?_, hsw.family.same hpid fun i => ?_⟩, fun hw => ?_, ?_⟩
  · exact (h.counted.use slot).steady hsteady
  · rw [hsteady.files]
    rw [htasks] at hs
    exact hsw.idle s hs fd
  · rw [htables]
    exact flowing_scheduler.resume _ memory hready (flowing_scheduler.use n.tables slot h.streams)
  · rw [htasks] at hs
    obtain ⟨hne, hold⟩ := switched_ioWaiting n slot hs
    rw [htables]
    exact (h.asleep s hold).beside (Tables.beside_resumed n.tables hne memory) h.counted
  · rw [htasks]
    exact SameProcess.refl _
  · rw [htables]
    exact (h.asleep slot hk.asleep).resumed (hresult.trans hw)
  · rw [htasks]
    exact hrun

/-- Every further round leaves less room in the pipes, or fewer tasks that sleep. -/
theorem Orderly.again {n k : Machine ε} (h : Orderly n) (hk : Again n k) :
    Orderly k ∧ k.tables.room + sleepers k < n.tables.room + sleepers n ∧ k.outcome = n.outcome := by
  cases hk with
  | filled hturn =>
    rename_i slot k
    obtain ⟨hord, hwaits, hrun⟩ := h.turned hturn
    obtain ⟨hready, ⟨memory, hresult, htables⟩, htasks, -, -, hout⟩ := hturn.turned
    refine ⟨hord.setTask ⟨⟨⟨nofun, fun hu => ?_⟩, rfl, rfl⟩, nofun⟩ ioWaiting_lives fun _ => hwaits rfl, ?_, hout⟩
    · rw [hrun] at hu
      cases hu
    · have hroom : k.tables.room < n.tables.room := by
        rw [htables]
        exact Tables.room_resumed h.streams hready hresult
      refine Nat.add_lt_add_of_lt_of_le hroom (sleepers_le fun i hi => ?_)
      rw [state_setTask] at hi
      split at hi
      · rename_i he
        exact he ▸ hturn.asleep
      · rw [htasks] at hi
        exact (switched_ioWaiting n slot hi).2
  | killed hturn =>
    rename_i slot k
    obtain ⟨hord, -, hrun⟩ := h.turned hturn
    obtain ⟨hready, ⟨memory, hresult, htables⟩, htasks, hcur, -, hout⟩ := hturn.turned
    refine ⟨hord.retired (by rw [hcur, hrun]; exact nofun) 13, ?_, hout⟩
    have hroom : (retire 13 k).tables.room ≤ n.tables.room := by
      have hexit : (retire 13 k).tables.room = k.tables.room :=
        Tables.room_congr fun p => ((Tables.calm_filesExit k.tables k.current).pipes p).2.1
      rw [hexit, htables, Tables.room_killed hresult]
    have hfewer : sleepers (retire 13 k) < sleepers n := by
      refine sleepers_lt (fun i hi => ?_) hturn.asleep ?_
      · rw [(tasks_retire 13 k i).1] at hi
        split at hi
        · cases hi
        · rw [htasks] at hi
          exact (switched_ioWaiting n slot hi).2
      · rw [(tasks_retire 13 k slot).1, if_pos hcur.symm]
        exact nofun
    exact Nat.add_lt_add_of_le_of_lt hroom hfewer

theorem Orderly.congr {m m' : Machine ε} (h : Orderly m) (ht : m'.tables = m.tables) (hs : m'.tasks = m.tasks)
    (hn : m'.nextPid = m.nextPid) : Orderly m' := by
  refine ⟨⟨ht ▸ h.counted, fun slot hstate fd => ?_⟩, ht ▸ h.streams, fun s hstate => ?_, h.family.same hn fun i => ?_⟩
  · rw [hs] at hstate
    rw [ht]
    exact h.idle slot hstate fd
  · rw [hs] at hstate
    rw [ht]
    exact h.asleep s hstate
  · rw [hs]
    exact SameProcess.refl _

theorem Rounds.orderly {m n : Machine ε} (h : Orderly m) (hn : Rounds m n) : Orderly n := by
  induction hn with
  | first => exact h.wakeWaiters
  | again _ hk ih => exact (ih.again hk).1.wakeWaiters

/-- The scheduler ends before its rounds run out. -/
theorem scheduleIn_ends {rounds : Nat} {m : Machine ε} (h : Orderly m) (ho : m.outcome = none)
    (hrounds : m.tables.room + sleepers m < rounds) :
    (∃ n, Rounds m n ∧ nextTask n = none ∧ (exec (scheduleIn rounds) m).2 = leaveAll n) ∨
    (exec (scheduleIn rounds) m).2.outcome = some .panicRestore ∨
    ((exec (scheduleIn rounds) m).2.outcome = none ∧ Orderly (exec (scheduleIn rounds) m).2) := by
  induction rounds generalizing m with
  | zero => exact absurd hrounds (Nat.not_lt_zero _)
  | succ rounds ih =>
    have hn := h.wakeWaiters
    have hout := (wakeWaiters_rest m).2.trans ho
    rcases scheduleIn_round rounds m with ⟨hnone, he⟩ | hp | ⟨slot, hnext, he⟩ | ⟨slot, v, k, hk, he⟩ | ⟨k, hk, he⟩
    · exact .inl ⟨_, .first, hnone, he⟩
    · exact .inr (.inl hp)
    · rw [he]
      exact .inr (.inr ⟨hout, hn.switched hnext⟩)
    · rw [he]
      exact .inr (.inr ⟨hk.turned.rest.2.2.2.trans hout, (hn.turned hk).1.congr rfl rfl rfl⟩)
    · obtain ⟨hord, hless, hout'⟩ := hn.again hk
      have hwake : (wakeWaiters m).tables.room + sleepers (wakeWaiters m) ≤ m.tables.room + sleepers m := by
        rw [tables_wakeWaiters]
        exact Nat.add_le_add_left (sleepers_le (wakeWaiters_rest m).1) _
      rw [he]
      rcases ih hord (hout'.trans hout) (by omega) with ⟨n, hr, hend⟩ | hrest
      · exact .inl ⟨n, hr.prepend hk, hend⟩
      · exact .inr hrest

/-- The rounds that the scheduler is given are enough. -/
theorem schedule_ends {m : Machine ε} (h : Orderly m) (ho : m.outcome = none) :
    (∃ n, Rounds m n ∧ nextTask n = none ∧ (exec schedule m).2 = leaveAll n) ∨
    (exec schedule m).2.outcome = some .panicRestore ∨ ((exec schedule m).2.outcome = none ∧ Orderly (exec schedule m).2) := by
  refine scheduleIn_ends h ho ?_
  have hroom := m.tables.room_le
  have hsleep : sleepers m ≤ 3 := (Finset.card_filter_le _ _).trans (le_of_eq (by simp))
  unfold scheduleRounds
  omega

/-! ## Calls of the scheduler -/

/-- The numbers that `linux_task_syscall` answers. -/
def taskCalls : List Nat := [2, 7, 1, 252, 20, 64, 158]

/-- `waitpid` finds children, none of which has exited, and may sleep. -/
def WaitSleeps (m : Machine ε) : Prop :=
  within m.frame.edx 1 = true ∧ -1 ≤ signed m.frame.ebx ∧ (m.frame.ecx ≠ 0 → m.memory.userRange m.frame.ecx 4 = true) ∧
    findChild m (signed m.frame.ebx) = (none, true) ∧ m.frame.edx = 0

/-- `waitpid` notes what it waits for. -/
def noteWait (m : Machine ε) : Machine ε :=
  m.setTask m.current { m.task with waitPid := signed m.frame.ebx, waitStatus := m.frame.ecx }

/-- `save_current` succeeds, and the task gets this state. -/
def Slept (m : Machine ε) (state : TaskState) (k : Machine ε) : Prop :=
  ∃ s, exec (saveCurrent (ε := ε)) m = (true, s) ∧ k = s.setTask s.current { s.task with state := state }

/-- The event calls `schedule` in the second machine. -/
inductive Schedules : Event → Machine ε → Machine ε → Prop where
  | fault {m : Machine ε} : Schedules .fault m (retire 11 m)
  | exit {m : Machine ε} : m.frame.eax = 1 ∨ m.frame.eax = 252 → Schedules .syscall m (retire (m.frame.ebx % 256 * 256) m)
  | yield {m k : Machine ε} : m.frame.eax = 158 → Slept (exec (setEax (ε := ε) 0) m).2 .ready k → Schedules .syscall m k
  | wait {m k : Machine ε} : m.frame.eax = 7 → WaitSleeps m → Slept (noteWait m) .waiting k → Schedules .syscall m k
  | pipe {m n k : Machine ε} : m.frame.eax ∉ taskCalls →
    exec (linuxSyscallDispatch (ε := ε) m.frame.eax m.frame.ebx m.frame.ecx m.frame.edx) m = (.wait, n) → Slept n .ioWaiting k →
    Schedules .syscall m k
  | killed {m n : Machine ε} : m.frame.eax ∉ taskCalls →
    exec (linuxSyscallDispatch (ε := ε) m.frame.eax m.frame.ebx m.frame.ecx m.frame.edx) m = (.sigpipe, n) →
    Schedules .syscall m (retire 13 n)

/-! ## Every event -/

/-- What going to sleep, or yielding, leaves. -/
theorem Slept.spec {m k : Machine ε} {state : TaskState} (h : Slept m state k) :
    k.tables = m.tables ∧ k.nextPid = m.nextPid ∧ k.outcome = m.outcome ∧ k.current = m.current ∧
    (∀ i, (k.tasks i).state = if i = m.current then state else (m.tasks i).state) ∧
    ∀ i, (k.tasks i).pid = (m.tasks i).pid ∧ (k.tasks i).parent = (m.tasks i).parent ∧ (k.tasks i).waitPid = (m.tasks i).waitPid := by
  obtain ⟨s, hs, rfl⟩ := h
  rw [exec_saveCurrent] at hs
  cases hcwd : exec (Vfs.fsGetcwd (ε := ε) 4096) m.space with
  | mk r space =>
    rw [hcwd] at hs
    cases r with
    | error e => cases hs
    | ok cwd =>
      cases hs
      refine ⟨rfl, rfl, rfl, rfl, fun i => ?_, fun i => ?_⟩
      all_goals
        unfold Machine.setTask Machine.task
        by_cases hi : i = m.current
        · subst hi
          simp
        · simp [hi]

theorem Orderly.slept {m k : Machine ε} (h : Orderly m) {state : TaskState} (hk : Slept m state k)
    (hused : (m.tasks m.current).state ≠ .unused) (hstate : state ≠ .unused ∧ state ≠ .zombie)
    (hio : state = .ioWaiting → m.tables.Waits m.current)
    (hwait : state = .waiting → ∃ j, isChild m.task (m.tasks j) m.task.waitPid = true) : Orderly k := by
  obtain ⟨ht, hn, -, -, hst, hsame⟩ := hk.spec
  have hlive : ∀ slot, (k.tasks slot).state = .unused ∨ (k.tasks slot).state = .zombie →
      (m.tasks slot).state = .unused ∨ (m.tasks slot).state = .zombie := by
    intro slot hs
    rw [hst] at hs
    split at hs
    · exact absurd hs (by simp [hstate.1, hstate.2])
    · exact hs
  refine ⟨h.toSettled.of_tasks ht hlive, ht ▸ h.streams, fun s hs => ?_, h.family.kin hn (fun i => ⟨?_, (hsame i).1, (hsame i).2.1⟩) ?_⟩
  · rw [ht]
    rw [hst] at hs
    split at hs
    · rename_i he
      exact he ▸ hio hs
    · exact h.asleep s hs
  · rw [hst]
    split
    · rename_i he
      rw [he]
      exact ⟨fun hu => absurd hu hstate.1, fun hu => absurd hu hused⟩
    · exact Iff.rfl
  · intro i hi
    rw [(hsame i).2.2]
    rw [hst] at hi
    split at hi
    · rename_i he
      exact he ▸ hwait hi
    · exact h.family.waits i hi

/-- A call of the current task keeps the order, and leaves a transfer under way when it sleeps. -/
theorem Orderly.dispatch {m n : Machine ε} (h : Orderly m) (hrun : Running m) {number a b c : Nat} {result : Result}
    (hn : exec (linuxSyscallDispatch (ε := ε) number a b c) m = (result, n)) :
    Orderly n ∧ (result = .wait → n.tables.Waits n.current) ∧ (n.tasks n.current).state = .running ∧ n.outcome = m.outcome := by
  have hu := uses_dispatch (ε := ε) number a b c m
  have ha := apart.dispatch (ε := ε) number a b c m
  have hd : Undisturbed m.tables _ := undisturbed.dispatch (ε := ε) number a b c m
  have hf := flowing.dispatch (ε := ε) number a b c m h.streams
  have hw := Sleeps.dispatch (ε := ε) number a b c m
  rw [hn] at hu ha hd hf hw
  dsimp only at hu ha hd hf hw
  have hother : ∀ s, (n.tasks s).state ≠ .running → s ≠ m.tables.fileTask := by
    rintro s hs rfl
    rw [ha.tasks, hrun.fileTask] at hs
    exact hs hrun.state
  refine ⟨⟨⟨hu.counted h.counted, fun slot hs fd => ?_⟩, hf, fun s hs => ?_, h.family.same ha.nextPid fun i => ?_⟩, fun hr => ?_, ?_, ha.outcome⟩
  · have hne := hother slot (by rcases hs with hs | hs <;> rw [hs] <;> exact nofun)
    rw [hu.rows slot hne]
    rw [ha.tasks] at hs
    exact h.idle slot hs fd
  · have hne := hother s (by rw [hs]; exact nofun)
    rw [ha.tasks] at hs
    exact (h.asleep s hs).beside ⟨hd.2 s hne, hu.rows s hne, (hu.unspoiled h.counted).descriptions⟩ h.counted
  · rw [ha.tasks]
    exact SameProcess.refl _
  · have hfile := hw hr
    rw [hu.fileTask, hrun.fileTask, ← ha.current] at hfile
    exact hfile
  · rw [ha.tasks, ha.current]
    exact hrun.state

/-- The scheduler is called in machines that are in order. -/
theorem Schedules.orderly {e : Event} {m k : Machine ε} (hs : Schedules e m k) (h : Orderly m) (hrun : Running m) :
    Orderly k ∧ k.outcome = m.outcome := by
  have hused : (m.tasks m.current).state ≠ .unused := by
    rw [hrun.state]
    exact nofun
  cases hs with
  | fault => exact ⟨h.retired hused 11, rfl⟩
  | exit _ => exact ⟨h.retired hused _, rfl⟩
  | yield _ hk =>
    have hm : Orderly (exec (setEax (ε := ε) 0) m).2 := h.congr rfl rfl rfl
    exact ⟨hm.slept hk hused ⟨nofun, nofun⟩ nofun nofun, hk.spec.2.2.1⟩
  | wait _ hsleep hk =>
    obtain ⟨-, -, -, hfind, -⟩ := hsleep
    have hstate : ((noteWait m).tasks m.current).state = .running := by
      unfold noteWait
      rw [state_setTask, if_pos rfl]
      exact hrun.state
    have hm : Orderly (noteWait m) := by
      refine h.setTask ⟨⟨Iff.rfl, rfl, rfl⟩, fun hw => ?_⟩ ?_ fun hio => ?_
      · exact absurd (hrun.state.symm.trans hw) nofun
      · rw [show m.task.state = .running from hrun.state]
        exact ⟨nofun, nofun⟩
      · exact absurd (hrun.state.symm.trans hio) nofun
    refine ⟨hm.slept hk (by rw [show (noteWait m).current = m.current from rfl, hstate]; exact nofun) ⟨nofun, nofun⟩ nofun fun _ => ?_,
      hk.spec.2.2.1⟩
    have hany : ((List.finRange 3).any fun i => isChild m.task (m.tasks i) (signed m.frame.ebx)) = true :=
      congrArg Prod.snd hfind
    rw [List.any_eq_true] at hany
    obtain ⟨j, -, hj⟩ := hany
    have hself : (noteWait m).task = { m.task with waitPid := signed m.frame.ebx, waitStatus := m.frame.ecx } := by
      unfold noteWait Machine.task
      exact (state_setTask ..).trans (if_pos rfl)
    refine ⟨j, ?_⟩
    rw [hself]
    rw [isChild_iff] at hj ⊢
    unfold noteWait
    rw [state_setTask]
    split
    · rename_i he
      rw [he] at hj
      exact hj
    · exact hj
  | pipe _ hn hk =>
    obtain ⟨hord, hwaits, hstate, hout⟩ := h.dispatch hrun hn
    exact ⟨hord.slept hk (by rw [hstate]; exact nofun) ⟨nofun, nofun⟩ (fun _ => hwaits rfl) nofun, hk.spec.2.2.1.trans hout⟩
  | killed _ hn =>
    obtain ⟨hord, -, hstate, hout⟩ := h.dispatch hrun hn
    exact ⟨hord.retired (by rw [hstate]; exact nofun) 13, hout⟩

/-- How a call of the dispatcher ends. -/
def concluded : Result → StateM (Machine ε) Unit
  | .wait => sleepOnPipe
  | .sigpipe => exitTask 13
  | .value n => do
    setEax n
    execApply

theorem exec_syscallFromRegs {m n : Machine ε} {result : Result} (h : m.frame.eax ∉ taskCalls)
    (hn : exec (linuxSyscallDispatch (ε := ε) m.frame.eax m.frame.ebx m.frame.ecx m.frame.edx) m = (result, n)) :
    exec (syscallFromRegs (ε := ε)) m = exec (concluded result) n := by
  unfold syscallFromRegs
  rw [exec_bind, exec_get]
  dsimp only
  unfold taskCalls at h
  simp only [List.mem_cons, List.not_mem_nil, or_false, not_or] at h
  obtain ⟨h1, h2, h3, h4, h5, h6, h7⟩ := h
  split
  · exact absurd ‹_› h1
  · exact absurd ‹_› h2
  · exact absurd ‹_› h3
  · exact absurd ‹_› h4
  · exact absurd ‹_› h5
  · exact absurd ‹_› h6
  · exact absurd ‹_› h7
  · rw [exec_bind, hn]
    cases result <;> rfl

/-- What the calls of `linux_task_syscall` do. -/
theorem taskCall_cases {m : Machine ε} (h : m.frame.eax ∈ taskCalls) :
    (m.frame.eax = 2 ∧ exec (syscallFromRegs (ε := ε)) m = exec forkTask m) ∨
    (m.frame.eax = 7 ∧ exec (syscallFromRegs (ε := ε)) m = exec waitTask m) ∨
    ((m.frame.eax = 1 ∨ m.frame.eax = 252) ∧ exec (syscallFromRegs (ε := ε)) m = exec (exitTask (m.frame.ebx % 256 * 256)) m) ∨
    (m.frame.eax = 20 ∧ exec (syscallFromRegs (ε := ε)) m = exec (setEax m.task.pid) m) ∨
    (m.frame.eax = 64 ∧ exec (syscallFromRegs (ε := ε)) m = exec (setEax m.task.parent) m) ∨
    (m.frame.eax = 158 ∧ exec (syscallFromRegs (ε := ε)) m = exec schedYield m) := by
  unfold taskCalls at h
  simp only [List.mem_cons, List.not_mem_nil, or_false] at h
  unfold syscallFromRegs
  rw [exec_bind, exec_get]
  dsimp only
  rcases h with he | he | he | he | he | he | he <;> rw [he]
  · exact .inl ⟨rfl, rfl⟩
  · exact .inr (.inl ⟨rfl, rfl⟩)
  · exact .inr (.inr (.inl ⟨.inl rfl, rfl⟩))
  · exact .inr (.inr (.inl ⟨.inr rfl, rfl⟩))
  · exact .inr (.inr (.inr (.inl ⟨rfl, rfl⟩)))
  · exact .inr (.inr (.inr (.inr (.inl ⟨rfl, rfl⟩))))
  · exact .inr (.inr (.inr (.inr (.inr ⟨rfl, rfl⟩))))

theorem exec_step {m : Machine ε} (ho : m.outcome = none) (e : Event) : exec (step (ε := ε) e) m = exec e.run m := by
  unfold step
  rw [exec_bind, exec_get]
  dsimp only
  rw [ho]
  rfl

/-- A task that is saved, put to sleep, and left. -/
theorem Slept.schedule {n k : Machine ε} {state : TaskState} (h : Slept n state k) :
    (exec (do if ← saveCurrent (ε := ε) then modify (fun m => m.setTask m.current { m.task with state := state }); schedule) n).2 =
      (exec Linux.schedule k).2 := by
  obtain ⟨s, hs, rfl⟩ := h
  rw [exec_bind, hs]
  rfl

/-- `waitpid` of a task that finds only children that still run. -/
theorem exec_waitTask {m : Machine ε} (h : WaitSleeps m) : exec (waitTask (ε := ε)) m =
    exec (do if ← saveCurrent then modify (fun m => m.setTask m.current { m.task with state := .waiting }); schedule) (noteWait m) := by
  obtain ⟨hedx, hpid, hecx, hfind, hflag⟩ := h
  unfold waitTask
  rw [exec_bind, exec_get]
  dsimp only
  rw [if_neg (by simp [hedx]), if_neg (by omega), if_neg (fun h => by simp [hecx h.1] at h), hfind]
  dsimp only
  rw [if_neg (by simp [hflag])]
  rfl

/-- The event does what the scheduler does that it calls. -/
theorem Schedules.step {e : Event} {m k : Machine ε} (hs : Schedules e m k) (ho : m.outcome = none) :
    (exec (step (ε := ε) e) m).2 = (exec schedule k).2 := by
  rw [exec_step ho]
  cases hs with
  | fault => rfl
  | exit he =>
    have hcall : exec (syscallFromRegs (ε := ε)) m = exec (exitTask (m.frame.ebx % 256 * 256)) m := by
      have hmem : m.frame.eax ∈ taskCalls := by rcases he with he | he <;> rw [he] <;> decide
      rcases taskCall_cases hmem with ⟨h, -⟩ | ⟨h, -⟩ | ⟨-, hx⟩ | ⟨h, -⟩ | ⟨h, -⟩ | ⟨h, -⟩
      on_goal 3 => exact hx
      all_goals omega
    rw [show exec Event.syscall.run m = exec (syscallFromRegs (ε := ε)) m from rfl, hcall]
    unfold exitTask
    rw [exec_bind, exec_modify]
  | yield he hk =>
    have hcall : exec (syscallFromRegs (ε := ε)) m = exec schedYield m := by
      rcases taskCall_cases (by rw [he]; decide) with ⟨h, -⟩ | ⟨h, -⟩ | ⟨h, -⟩ | ⟨h, -⟩ | ⟨h, -⟩ | ⟨-, hx⟩
      on_goal 6 => exact hx
      all_goals omega
    rw [← hk.schedule, show exec Event.syscall.run m = exec (syscallFromRegs (ε := ε)) m from rfl, hcall]
    unfold schedYield
    rw [exec_bind]
  | wait he hsleep hk =>
    have hcall : exec (syscallFromRegs (ε := ε)) m = exec waitTask m := by
      rcases taskCall_cases (by rw [he]; decide) with ⟨h, -⟩ | ⟨-, hx⟩ | ⟨h, -⟩ | ⟨h, -⟩ | ⟨h, -⟩ | ⟨h, -⟩
      on_goal 2 => exact hx
      all_goals omega
    rw [← hk.schedule, ← exec_waitTask hsleep, ← hcall]
    unfold Event.run
    dsimp only
  | pipe he hn hk =>
    rw [← hk.schedule, show exec Event.syscall.run m = exec (syscallFromRegs (ε := ε)) m from rfl, exec_syscallFromRegs he hn]
    unfold concluded sleepOnPipe
    dsimp only
  | killed he hn =>
    rw [show exec Event.syscall.run m = exec (syscallFromRegs (ε := ε)) m from rfl, exec_syscallFromRegs he hn]
    unfold concluded exitTask
    dsimp only
    rw [exec_bind, exec_modify]

/-- What is left of the order when an event does not call the scheduler. -/
structure Tended (m : Machine ε) : Prop where
  outcome : m.outcome = none
  asleep : ∀ s, (m.tasks s).state = .ioWaiting → m.tables.Waits s
  family : Family m

theorem Orderly.tended {m m' : Machine ε} (h : Orderly m) (ho : m'.outcome = none) (ht : m'.tables = m.tables)
    (hs : m'.tasks = m.tasks) (hn : m'.nextPid = m.nextPid) : Tended m' :=
  ⟨ho, (h.congr ht hs hn).asleep, (h.congr ht hs hn).family⟩

/-- The process in `child` is new, and the current one is its parent. -/
structure Forked (m : Machine ε) (child : Slot) (k : Machine ε) : Prop where
  outcome : k.outcome = m.outcome
  tables : k.tables = { m.tables.filesFork m.current child with fileTask := child }
  nextPid : k.nextPid = m.nextPid + 1
  state : ∀ i, (k.tasks i).state = if i = child then .running else if i = m.current then .ready else (m.tasks i).state
  pid : (k.tasks child).pid = m.nextPid
  same : ∀ i, i ≠ child →
    (k.tasks i).pid = (m.tasks i).pid ∧ (k.tasks i).parent = (m.tasks i).parent ∧ (k.tasks i).waitPid = (m.tasks i).waitPid

theorem forkTask_cases (m : Machine ε) :
    let k := (exec (forkTask (ε := ε)) m).2
    k.outcome = some .panicSave ∨
    (k.outcome = m.outcome ∧ k.tables = m.tables ∧ k.tasks = m.tasks ∧ k.nextPid = m.nextPid) ∨
    ∃ child, (m.tasks child).state = .unused ∧ Forked m child k := by
  unfold forkTask
  rw [exec_bind, exec_get]
  dsimp only
  cases hchild : (List.finRange 3).find? fun i => (m.tasks i).state == .unused with
  | none => exact .inr (.inl ⟨rfl, rfl, rfl, rfl⟩)
  | some child =>
    have hunused : (m.tasks child).state = .unused := by simpa using List.find?_some hchild
    dsimp only
    split
    · exact .inr (.inl ⟨rfl, rfl, rfl, rfl⟩)
    rw [exec_bind, exec_modify, exec_bind, exec_bind]
    unfold setEax
    rw [exec_modify, exec_saveCurrent]
    dsimp only
    cases exec (Vfs.fsGetcwd (ε := ε) 4096) m.space with
    | mk r space =>
      cases r with
      | error e => exact .inl rfl
      | ok cwd =>
        dsimp only
        rw [if_pos rfl, exec_modify]
        refine .inr (.inr ⟨child, hunused, rfl, rfl, rfl, fun i => ?_, ?_, fun i hi => ?_⟩)
        · unfold Machine.setTask Machine.task
          dsimp only
          by_cases hi : i = child
          · subst hi
            simp
          · by_cases hc : i = m.current
            · subst hc
              simp [hi]
            · simp [hi, hc]
        · unfold Machine.setTask
          simp
        · unfold Machine.setTask Machine.task
          dsimp only
          by_cases hc : i = m.current
          · subst hc
            simp [hi]
          · simp [hi, hc]

/-- The new process gets a new number, and the others stay what they are. -/
theorem Forked.tended {m k : Machine ε} {child : Slot} (hk : Forked m child k) (h : Orderly m) (hrun : Running m)
    (ho : m.outcome = none) (hunused : (m.tasks child).state = .unused) : Tended k := by
  have hne : m.current ≠ child := by
    intro he
    rw [← he, hrun.state] at hunused
    cases hunused
  have hused : ∀ i, i ≠ child → (k.tasks i).state ≠ .unused → (m.tasks i).state ≠ .unused := by
    intro i hi hs
    rw [hk.state, if_neg hi] at hs
    split at hs
    · rename_i he
      rw [he, hrun.state]
      exact nofun
    · exact hs
  refine ⟨hk.outcome.trans ho, fun s hs => ?_, fun i j hi hj he => ?_, fun i hi => ?_, fun i hi => ?_⟩
  · rw [hk.state] at hs
    split at hs
    · cases hs
    split at hs
    · cases hs
    · rename_i hsc _
      have hwaits : (m.tables.filesFork m.current child).Waits s :=
        (h.asleep s hs).beside (Tables.beside_filesFork h.counted hne (h.idle child (.inl hunused)) hsc) h.counted
      rw [hk.tables]
      exact hwaits
  · -- the new number is above all others
    by_cases hic : i = child
    · by_cases hjc : j = child
      · rw [hic, hjc]
      · have hlt := h.family.bound j (hused j hjc hj)
        rw [hic, hk.pid, (hk.same j hjc).1] at he
        omega
    · by_cases hjc : j = child
      · have hlt := h.family.bound i (hused i hic hi)
        rw [hjc, hk.pid, (hk.same i hic).1] at he
        omega
      · rw [(hk.same i hic).1, (hk.same j hjc).1] at he
        exact h.family.pids i j (hused i hic hi) (hused j hjc hj) he
  · rw [hk.nextPid]
    by_cases hic : i = child
    · rw [hic, hk.pid]
      exact Nat.lt_succ_self _
    · rw [(hk.same i hic).1]
      exact Nat.lt_succ_of_lt (h.family.bound i (hused i hic hi))
  · rw [hk.state] at hi
    split at hi
    · cases hi
    split at hi
    · cases hi
    · rename_i hic _
      obtain ⟨j, hj⟩ := h.family.waits i hi
      refine ⟨j, ?_⟩
      rw [isChild_iff] at hj ⊢
      have hjc : j ≠ child := by
        rintro rfl
        exact hj.1 hunused
      rw [(hk.same i hic).2.2, (hk.same i hic).1, (hk.same j hjc).1, (hk.same j hjc).2.1, hk.state, if_neg hjc]
      refine ⟨?_, hj.2⟩
      split
      · exact nofun
      · exact hj.1

/-- A child that has exited is freed; no task sleeps for it. -/
theorem Family.reaped {m m' : Machine ε} (h : Family m) {child : Slot} (hused : (m.tasks m.current).state ≠ .unused)
    (hrun : (m.tasks m.current).state ≠ .waiting) (hchild : (m.tasks child).parent = m.task.pid) (hn : m'.nextPid = m.nextPid)
    (hs : ∀ i, m'.tasks i = if i = child then { m.tasks child with state := .unused } else m.tasks i) : Family m' := by
  have hsame : ∀ i, (m'.tasks i).state ≠ .unused → i ≠ child ∧ m'.tasks i = m.tasks i := by
    intro i hi
    have hic : i ≠ child := by
      rintro rfl
      rw [hs, if_pos rfl] at hi
      exact hi rfl
    rw [hs, if_neg hic]
    exact ⟨hic, rfl⟩
  refine ⟨fun i j hi hj he => ?_, fun i hi => ?_, fun i hi => ?_⟩
  · have hi' := (hsame i hi).2
    have hj' := (hsame j hj).2
    rw [hi'] at hi he
    rw [hj'] at hj he
    exact h.pids i j hi hj he
  · have hi' := (hsame i hi).2
    rw [hi'] at hi ⊢
    rw [hn]
    exact h.bound i hi
  · have hlive := hsame i (by rw [hi]; exact nofun)
    rw [hlive.2] at hi ⊢
    obtain ⟨j, hj⟩ := h.waits i hi
    refine ⟨j, ?_⟩
    have hjc : j ≠ child := by
      rintro rfl
      rw [isChild_iff] at hj
      have he := h.pids i m.current (by rw [hi]; exact nofun) hused (hj.2.1.symm.trans hchild)
      rw [he] at hi
      exact hrun hi
    rw [hs, if_neg hjc]
    exact hj

/-- `waitpid` answers at once, or sleeps. -/
theorem waitTask_cases {m : Machine ε} (h : Orderly m) (hrun : Running m) (ho : m.outcome = none) :
    Tended (exec (waitTask (ε := ε)) m).2 ∨ WaitSleeps m := by
  unfold waitTask
  rw [exec_bind, exec_get]
  dsimp only
  by_cases h1 : within m.frame.edx 1 = true
  swap
  · rw [if_pos (by simpa using h1)]
    exact .inl (h.tended ho rfl rfl rfl)
  rw [if_neg (by simpa using h1)]
  by_cases h2 : signed m.frame.ebx < -1
  · rw [if_pos h2]
    exact .inl (h.tended ho rfl rfl rfl)
  rw [if_neg h2]
  by_cases h3 : m.frame.ecx ≠ 0 ∧ !m.memory.userRange m.frame.ecx 4
  · rw [if_pos h3]
    exact .inl (h.tended ho rfl rfl rfl)
  rw [if_neg h3]
  cases hfind : findChild m (signed m.frame.ebx) with
  | mk found any =>
    cases found with
    | some i =>
      have hi := List.find?_some (congrArg Prod.fst hfind)
      rw [Bool.and_eq_true, beq_iff_eq, isChild_iff] at hi
      obtain ⟨⟨-, hparent, -⟩, hzombie⟩ := hi
      have hused : (m.tasks m.current).state ≠ .unused := by
        rw [hrun.state]
        exact nofun
      refine .inl ⟨ho, fun s hs => ?_, h.family.reaped hused (by rw [hrun.state]; exact nofun) hparent rfl fun j => state_setTask m i j _⟩
      change ((m.setTask i { m.tasks i with state := .unused }).tasks s).state = _ at hs
      rw [state_setTask] at hs
      split at hs
      · cases hs
      · exact h.asleep s hs
    | none =>
      cases any with
      | false => exact .inl (h.tended ho rfl rfl rfl)
      | true =>
        dsimp only
        by_cases h4 : m.frame.edx = 0
        · refine .inr ⟨h1, by omega, fun hne => ?_, hfind, h4⟩
          by_contra hrange
          exact h3 ⟨hne, by simpa using hrange⟩
        · rw [if_pos h4]
          exact .inl (h.tended ho rfl rfl rfl)

/-- A task that is to sleep is saved, or the kernel panics. -/
theorem slept_cases (n : Machine ε) (state : TaskState) :
    (∃ k, Slept n state k) ∨
    (exec (do if ← saveCurrent (ε := ε) then modify (fun m => m.setTask m.current { m.task with state := state }); schedule) n).2.outcome =
      some .panicSave := by
  rw [exec_bind]
  cases hs : exec (saveCurrent (ε := ε)) n with
  | mk ok s =>
    cases ok with
    | true => exact .inl ⟨_, s, hs, rfl⟩
    | false =>
      right
      rw [exec_saveCurrent] at hs
      cases hcwd : exec (Vfs.fsGetcwd (ε := ε) 4096) n.space with
      | mk r space =>
        rw [hcwd] at hs
        cases r with
        | error e =>
          cases hs
          rfl
        | ok cwd => cases hs

/-- An event calls the scheduler, panics, or leaves the other tasks in order. -/
theorem step_cases (e : Event) {m : Machine ε} (h : Orderly m) (hrun : Running m) (ho : m.outcome = none) :
    (∃ k, Schedules e m k) ∨ (exec (step (ε := ε) e) m).2.outcome = some .panicSave ∨ Tended (exec (step (ε := ε) e) m).2 := by
  rw [exec_step ho]
  cases e with
  | compute arena frame => exact .inr (.inr (h.tended ho rfl rfl rfl))
  | fault => exact .inl ⟨_, .fault⟩
  | syscall =>
    rw [show exec Event.syscall.run m = exec (syscallFromRegs (ε := ε)) m from rfl]
    by_cases hcall : m.frame.eax ∈ taskCalls
    · rcases taskCall_cases hcall with ⟨-, hx⟩ | ⟨he, hx⟩ | ⟨he, -⟩ | ⟨-, hx⟩ | ⟨-, hx⟩ | ⟨he, hx⟩
      · right
        rw [hx]
        rcases forkTask_cases m with hp | ⟨hout, ht, hs, hn⟩ | ⟨child, hunused, hk⟩
        · exact .inl hp
        · exact .inr (h.tended (hout.trans ho) ht hs hn)
        · exact .inr (hk.tended h hrun ho hunused)
      · rcases waitTask_cases h hrun ho with hw | hw
        · rw [hx]
          exact .inr (.inr hw)
        · rcases slept_cases (noteWait m) .waiting with ⟨k, hk⟩ | hp
          · exact .inl ⟨k, .wait he hw hk⟩
          · rw [hx, exec_waitTask hw]
            exact .inr (.inl hp)
      · exact .inl ⟨_, .exit he⟩
      · rw [hx]
        exact .inr (.inr (h.tended ho rfl rfl rfl))
      · rw [hx]
        exact .inr (.inr (h.tended ho rfl rfl rfl))
      · rcases slept_cases (exec (setEax (ε := ε) 0) m).2 .ready with ⟨k, hk⟩ | hp
        · exact .inl ⟨k, .yield he hk⟩
        · rw [hx]
          unfold schedYield
          rw [exec_bind]
          exact .inr (.inl hp)
    · cases hn : exec (linuxSyscallDispatch (ε := ε) m.frame.eax m.frame.ebx m.frame.ecx m.frame.edx) m with
      | mk result n =>
        obtain ⟨hord, -, -, hout⟩ := h.dispatch hrun hn
        rw [exec_syscallFromRegs hcall hn]
        cases result with
        | sigpipe => exact .inl ⟨_, .killed hcall hn⟩
        | wait =>
          rcases slept_cases n .ioWaiting with ⟨k, hk⟩ | hp
          · exact .inl ⟨k, .pipe hcall hn hk⟩
          · exact .inr (.inl hp)
        | value v =>
          right
          right
          have hset : Tended (exec (setEax (ε := ε) v) n).2 := hord.tended (hout.trans ho) rfl rfl rfl
          unfold concluded execApply
          dsimp only
          rw [exec_bind, exec_modify]
          split
          · exact hset
          · exact ⟨hset.outcome, hset.asleep, hord.family.same rfl fun _ => SameProcess.refl _⟩

/-! ## Whole runs -/

theorem orderly_launch (m : Machine ε) (memory : Memory) (entry stack : Nat) : Orderly (launch m memory entry stack) := by
  have hstate : ∀ i, ((launch m memory entry stack).tasks i).state = if i = 0 then .running else .unused := by
    intro i
    unfold launch taskInit
    dsimp only
    split <;> rfl
  have hused : ∀ i, ((launch m memory entry stack).tasks i).state ≠ .unused → i = 0 := by
    intro i hi
    rw [hstate] at hi
    split at hi
    · assumption
    · exact absurd rfl hi
  refine ⟨(accounted_launch m memory entry stack).toSettled, streams_reset, fun s hs => ?_, fun i j hi hj _ => ?_, fun i hi => ?_,
    fun i hi => ?_⟩
  · rw [hstate] at hs
    split at hs <;> cases hs
  · rw [hused i hi, hused j hj]
  · rw [hused i hi]
    exact (by decide : 1 < 2)
  · rw [hstate] at hi
    split at hi <;> cases hi

/-- Every event keeps the machine in order, unless it ends the launch. -/
theorem orderly_step (e : Event) {m : Machine ε} (hm : Accounted m) (h : m.outcome = none → Orderly m)
    (ho : (exec (step (ε := ε) e) m).2.outcome = none) : Orderly (exec (step (ε := ε) e) m).2 := by
  by_cases hout : m.outcome = none
  · have hord := h hout
    rcases step_cases e hord (hm.running hout) hout with ⟨k, hk⟩ | hp | ht
    · obtain ⟨hok, hko⟩ := hk.orderly hord (hm.running hout)
      rw [hk.step hout] at ho ⊢
      rcases schedule_ends hok (hko.trans hout) with ⟨n, -, -, he⟩ | hp | ⟨-, hend⟩
      · rw [he] at ho
        cases ho
      · rw [hp] at ho
        cases ho
      · exact hend
    · rw [hp] at ho
      cases ho
    · exact ⟨(good_step e hm).accounted.toSettled, flow_step e m hord.streams, ht.asleep, ht.family⟩
  · have hsame : exec (step (ε := ε) e) m = ((), m) := by
      unfold step
      rw [exec_bind, exec_get]
      dsimp only
      rw [if_neg (by simpa using hout)]
      rfl
    rw [hsame] at ho
    exact absurd ho hout

theorem orderly_runEvents {m : Machine ε} (hm : Accounted m) (h : m.outcome = none → Orderly m) (es : List Event)
    (ho : (runEvents m es).outcome = none) : Orderly (runEvents m es) := by
  induction es generalizing m with
  | nil => exact h ho
  | cons e es ih => exact ih (good_step e hm).accounted (orderly_step e hm h) ho

theorem Launched.orderly {m : Machine ε} (h : Launched m) : Orderly m := by
  obtain ⟨m₀, image, plan, staged, path, uid, -, rfl⟩ := h.program
  exact orderly_launch ..

/-- When the scheduler finds no task, none can run. -/
theorem nextTask_none {n : Machine ε} (h : nextTask n = none) (slot : Slot) : runnable n slot = false := by
  have hall : ∀ current slot : Slot, ∃ step ∈ [1, 2, 3], current + Fin.ofNat 3 step = slot := by decide
  obtain ⟨step, hstep, he⟩ := hall n.current slot
  unfold nextTask at h
  rw [List.find?_eq_none] at h
  have hno := h slot (List.mem_map.2 ⟨step, hstep, he⟩)
  simpa using hno

/-- No task is ready; the transfers that tasks sleep on can only wait, without moving a
byte; and the tasks that wait for children have some, of which none has exited. -/
structure Stopped (n : Machine ε) : Prop where
  ready : ∀ slot, (n.tasks slot).state ≠ .ready
  transfers : ∀ slot, (n.tasks slot).state = .ioWaiting →
    ∀ memory, n.tables.resumed slot memory = (.wait, { n.tables with fileTask := slot }, memory)
  children : ∀ slot, (n.tasks slot).state = .waiting →
    (∃ j, isChild (n.tasks slot) (n.tasks j) (n.tasks slot).waitPid = true) ∧
    ∀ j, isChild (n.tasks slot) (n.tasks j) (n.tasks slot).waitPid = true → (n.tasks j).state ≠ .zombie

theorem Rounds.stopped {m n : Machine ε} (h : Orderly m) (hn : Rounds m n) (hnone : nextTask n = none) : Stopped n := by
  have hord := hn.orderly h
  have hno := nextTask_none hnone
  refine ⟨fun slot hs => ?_, fun slot hs memory => ?_, fun slot hs => ⟨hord.family.waits slot hs, fun j hj => ?_⟩⟩
  · have hrun := hno slot
    unfold runnable at hrun
    rw [hs] at hrun
    cases hrun
  · have hready : n.tables.ioReady slot = false := by
      have hrun := hno slot
      unfold runnable at hrun
      rw [hs] at hrun
      simpa using hrun
    exact hord.streams.stuck (hord.asleep slot hs) hready memory
  · cases hn with
    | first => exact wakeWaiters_done m slot j hs hj
    | again _ _ => exact wakeWaiters_done _ slot j hs hj

end Barnix.Linux
