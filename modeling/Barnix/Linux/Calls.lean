import Barnix.Linux.References
/-!
# What the system calls change

A call changes the current task's row of the tables and what it refers to, in
one of few ways, and nothing that belongs to the task slots.
-/

namespace Barnix.Linux

open Vfs (Space ListingEngine)

/-! ## What a step may do to the tables -/

namespace Tables

/-- Descriptions stay what they are, and none becomes referenced. -/
structure Bound (t t' : Tables) : Prop where
  counted : t.Counted → t'.Counted
  identity : ∀ d, (t'.descriptions d).identity = (t.descriptions d).identity
  live : t.Counted → ∀ d, (t'.descriptions d).refs ≠ 0 → (t.descriptions d).refs ≠ 0

instance : Std.Refl Bound := ⟨fun _ => ⟨id, fun _ => rfl, fun _ _ => id⟩⟩

instance : IsTrans Tables Bound := ⟨fun _ _ _ h h' => ⟨h'.1 ∘ h.1, fun d => (h'.2 d).trans (h.2 d),
  fun hc d hd => h.3 hc d (h'.3 (h.1 hc) d hd)⟩⟩

/-- Besides, the current task's row is the only one that changes. -/
structure Tied (t t' : Tables) : Prop extends Bound t t' where
  rows : ∀ s, s ≠ t.fileTask → t'.taskFiles s = t.taskFiles s
  fileTask : t'.fileTask = t.fileTask

instance : Std.Refl Tied := ⟨fun t => ⟨refl_of Bound t, fun _ _ => rfl, rfl⟩⟩

instance : IsTrans Tables Tied := ⟨fun _ _ _ h h' => ⟨trans_of Bound h.1 h'.1,
  fun s hs => (h'.2 s (h.fileTask.symm ▸ hs)).trans (h.2 s hs), h'.3.trans h.3⟩⟩

theorem Steady.tied {t t' : Tables} (h : Steady t t') : Tied t t' :=
  ⟨⟨fun hc => hc.steady h, h.identity, fun _ d hd => h.refs d ▸ hd⟩, fun s _ => congrFun h.files s, h.fileTask⟩

theorem Closes.bound {slot : Slot} {t t' : Tables} (h : Closes slot t t') : Bound t t' :=
  ⟨h.counted, h.identity, fun _ d hd => by have := h.refs d; omega⟩

theorem Closes.tied {t t' : Tables} (h : Closes t.fileTask t t') : Tied t t' := ⟨h.bound, h.rows, h.fileTask⟩

/-- What is referenced is not given away: a referenced description stays what it is,
and a pipe with an end gets no new ones. -/
structure Unspoiled (t t' : Tables) : Prop where
  descriptions : ∀ d, (t.descriptions d).refs ≠ 0 → (t'.descriptions d).identity = (t.descriptions d).identity
  pipes : ∀ p, (∃ d w, t.ends d = some (p, w)) → ∀ d w, t'.ends d = some (p, w) → t.ends d = some (p, w)

/-- No description becomes an end of a pipe. -/
theorem Bound.ends {t t' : Tables} (h : Bound t t') (hc : t.Counted) {d : Description} {e : PipeId × Bool}
    (he : t'.ends d = some e) : t.ends d = some e := by
  have hid := h.identity d
  unfold OpenFile.identity at hid
  simp only [Prod.mk.injEq] at hid
  unfold Tables.ends OpenFile.ending at he ⊢
  by_cases h0 : (t'.descriptions d).refs = 0
  · rw [if_pos h0] at he
    cases he
  · rw [if_neg h0] at he
    rw [if_neg (h.live hc d h0), ← hid.2.2.1, ← hid.2.2.2.2]
    exact he

theorem Bound.unspoiled {t t' : Tables} (h : Bound t t') (hc : t.Counted) : Unspoiled t t' :=
  ⟨fun d _ => h.identity d, fun _ _ _ _ he => h.ends hc he⟩

theorem Unspoiled.bound {t t' t'' : Tables} (h : Unspoiled t t') (hb : Bound t' t'') (hc : t'.Counted) : Unspoiled t t'' :=
  ⟨fun d hd => (hb.identity d).trans (h.descriptions d hd), fun p hp d w he => h.pipes p hp d w (hb.ends hc he)⟩

/-- One call of the current task. -/
structure Uses (t t' : Tables) : Prop where
  counted : t.Counted → t'.Counted
  rows : ∀ s, s ≠ t.fileTask → t'.taskFiles s = t.taskFiles s
  fileTask : t'.fileTask = t.fileTask
  unspoiled : t.Counted → Unspoiled t t'

theorem Tied.uses {t t' : Tables} (h : Tied t t') : Uses t t' :=
  ⟨h.counted, h.rows, h.fileTask, h.toBound.unspoiled⟩

theorem Counted.use {t : Tables} (h : t.Counted) (slot : Slot) : ({ t with fileTask := slot } : Tables).Counted :=
  ⟨h.refs, h.readers, h.writers, h.modes⟩

theorem setFd_rows (t : Tables) (slot : Slot) (fd : Fd) (file : Option Description) (flags : Nat) {s : Slot} (hs : s ≠ slot) :
    (t.setFd slot fd file flags).taskFiles s = t.taskFiles s := by
  unfold setFd
  exact Function.update_of_ne hs ..

/-- A second descriptor for an open description. -/
theorem tied_share {t : Tables} {fd fd' : Fd} {d : Description} (hfree : t.file fd = none) (hd : t.file fd' = some d) :
    Tied t (t.share fd d) := by
  have hlive : t.Counted → (t.descriptions d).refs ≠ 0 := fun h => Nat.ne_of_gt (h.refs_pos hd)
  have hdesc : (t.share fd d).descriptions =
      Function.update t.descriptions d { t.descriptions d with refs := (t.descriptions d).refs + 1 } := rfl
  refine ⟨⟨fun h => h.gain hfree (hlive h) 0, fun d' => ?_, fun hc d' hd' => ?_⟩, fun s hs => setFd_rows t _ fd (some d) 0 hs, rfl⟩
  · rw [hdesc]
    by_cases hdd : d' = d
    · subst hdd
      rw [Function.update_self]
      rfl
    · rw [Function.update_of_ne hdd]
  · rw [hdesc] at hd'
    by_cases hdd : d' = d
    · subst hdd
      exact hlive hc
    · rwa [Function.update_of_ne hdd] at hd'

/-- The old reference of `new` goes before `dup2` adds its own. -/
theorem tied_dup2 {t : Tables} {fd new : Fd} {d : Description} (hne : new ≠ fd) (hd : t.file fd = some d) :
    Tied t ((t.closeFd t.fileTask new).share new d) := by
  have hclose := closes_closeFd t t.fileTask new
  have hrow := taskFiles_closeFd t t.fileTask new
  have hfree : (t.closeFd t.fileTask new).file new = none := by
    unfold file
    rw [hrow, fileTask_closeFd, Function.update_self, Function.update_self]
  have hkept : (t.closeFd t.fileTask new).file fd = some d := by
    unfold file
    rw [hrow, fileTask_closeFd, Function.update_self, Function.update_of_ne (Ne.symm hne)]
    exact hd
  exact trans_of Tied hclose.tied (tied_share hfree hkept)

/-- A fresh description, at a free descriptor. -/
theorem uses_open {t : Tables} {fd : Fd} {d : Description} (hfree : t.file fd = none) (hd : (t.descriptions d).refs = 0)
    {file : OpenFile} (hrefs : file.refs = 1) (hpipe : file.pipe = none) (flags : Nat) :
    Uses t ((t.setDescription d file).setFd t.fileTask fd (some d) flags) := by
  refine ⟨fun h => h.fresh hfree hd hrefs hpipe flags, fun s hs => setFd_rows _ _ fd (some d) flags hs, rfl,
    fun _ => ⟨fun d' hd' => ?_, fun p _ d' w he => ?_⟩⟩
  · have hdd : d' ≠ d := by
      rintro rfl
      exact hd' hd
    rw [descriptions_setFd, descriptions_setDescription, Function.update_of_ne hdd]
  · rw [ends_setFd, ends_setDescription] at he
    by_cases hdd : d' = d
    · subst hdd
      rw [Function.update_self] at he
      unfold OpenFile.ending at he
      rw [hpipe, Option.map_none, ite_self] at he
      cases he
    · rwa [Function.update_of_ne hdd] at he

theorem openEnd_rows (t : Tables) (fd : Fd) (d : Description) (p : PipeId) (mode flags : Nat) {s : Slot} (hs : s ≠ t.fileTask) :
    (t.openEnd fd d p mode flags).taskFiles s = t.taskFiles s := by
  unfold openEnd
  exact Function.update_of_ne hs ..

/-- A new pipe. -/
theorem uses_createPipe {t t' : Tables} {flags : Nat} {fd₀ fd₁ : Fd} (hok : t.createPipe flags = .ok (fd₀, fd₁, t')) :
    Uses t t' := by
  have hcounted : t.Counted → t'.Counted := fun h => h.createPipe hok
  obtain ⟨d₀, d₁, p, hf₀, hf₁, hf, hd₀, hd₁, hd, hr, hw, rfl⟩ := createPipe_cases hok
  refine ⟨hcounted, fun s hs => ?_, rfl, fun h => ⟨fun d' hd' => ?_, fun q hq d' w he => ?_⟩⟩
  · rw [openEnd_rows (Tables.openEnd _ fd₀ d₀ p 0 flags) fd₁ d₁ p oWronly flags (by exact hs),
      openEnd_rows (t.newPipe p) fd₀ d₀ p 0 flags (by exact hs)]
    rfl
  · have h0 : d' ≠ d₀ := by
      rintro rfl
      exact hd' hd₀
    have h1 : d' ≠ d₁ := by
      rintro rfl
      exact hd' hd₁
    unfold openEnd
    rw [descriptions_setFd, descriptions_setDescription, Function.update_of_ne h1, descriptions_setFd,
      descriptions_setDescription, Function.update_of_ne h0]
    rfl
  · -- the pipe that was taken had no ends
    have hpq : q ≠ p := by
      rintro rfl
      obtain ⟨d, w, hdw⟩ := hq
      cases w
      · exact card_fiber_eq_zero.1 ((h.readers q).symm.trans hr) d hdw
      · exact card_fiber_eq_zero.1 ((h.writers q).symm.trans hw) d hdw
    unfold openEnd at he
    rw [ends_setFd, ends_setDescription, ends_setFd, ends_setDescription] at he
    by_cases h1 : d' = d₁
    · subst h1
      rw [Function.update_self] at he
      cases he
      exact absurd rfl hpq
    · rw [Function.update_of_ne h1] at he
      by_cases h0 : d' = d₀
      · subst h0
        rw [Function.update_self] at he
        cases he
        exact absurd rfl hpq
      · rwa [Function.update_of_ne h0] at he

end Tables

/-! ## Transfers keep every reference -/

theorem Ring.loop_counts (rounds available : Nat) (r : Ring) :
    (r.loop rounds available).pipe.readers = r.pipe.readers ∧ (r.loop rounds available).pipe.writers = r.pipe.writers := by
  induction rounds generalizing available r with
  | zero => exact ⟨rfl, rfl⟩
  | succ rounds ih =>
    unfold Ring.loop
    split
    · exact ⟨rfl, rfl⟩
    · split
      · exact ⟨rfl, rfl⟩
      · split
        · exact ih _ _
        · rename_i v _ _
          have hcopy : (r.copy v (r.chunk v available)).pipe.readers = r.pipe.readers ∧
              (r.copy v (r.chunk v available)).pipe.writers = r.pipe.writers := by
            unfold Ring.copy
            dsimp only
            split <;> exact ⟨rfl, rfl⟩
          obtain ⟨h1, h2⟩ := ih (available - r.chunk v available) (r.copy v (r.chunk v available))
          exact ⟨h1.trans hcopy.1, h2.trans hcopy.2⟩

theorem Ring.resume_counts (r : Ring) (flags : Nat) :
    (r.resume flags).2.pipe.readers = r.pipe.readers ∧ (r.resume flags).2.pipe.writers = r.pipe.writers := by
  have hmoved : r.moved.pipe.readers = r.pipe.readers ∧ r.moved.pipe.writers = r.pipe.writers := Ring.loop_counts _ _ r
  unfold Ring.resume
  split
  · exact ⟨rfl, rfl⟩
  split
  · exact ⟨rfl, rfl⟩
  split
  · split <;> exact ⟨rfl, rfl⟩
  · split <;> exact hmoved

namespace Tables

theorem steady_ioResume (t : Tables) (m : Memory) : Steady t (t.ioResume m).2.1 := by
  unfold ioResume
  split
  · exact refl_of _ _
  · rename_i p flags _
    obtain ⟨hr, hw⟩ := Ring.resume_counts ⟨t.pipes p, t.pending t.fileTask, m, []⟩ flags
    refine ⟨rfl, rfl, fun _ => rfl, fun _ => rfl, fun q => ?_, fun q => ?_⟩
    all_goals
      dsimp only
      by_cases hq : q = p
      · subst hq
        rw [Function.update_self]
        assumption
      · rw [Function.update_of_ne hq]

theorem steady_beginIo (t : Tables) (io : PipeIo) : Steady t (t.beginIo io) :=
  ⟨rfl, rfl, fun _ => rfl, fun _ => rfl, fun _ => rfl, fun _ => rfl⟩

theorem steady_refuse (t : Tables) (io : PipeIo) (n : Int) : Steady t (t.refuse io n) :=
  ⟨rfl, rfl, fun _ => rfl, fun _ => rfl, fun _ => rfl, fun _ => rfl⟩

theorem steady_pipeTransfer (t : Tables) (m : Memory) (flags fd address count : Nat) (writing vectored : Bool) :
    Steady t (t.pipeTransfer m flags fd address count writing vectored).2.1 := by
  unfold pipeTransfer
  split
  · exact refl_of Steady t
  dsimp only
  split
  · exact steady_refuse t _ _
  split
  · exact steady_refuse t _ _
  cases checkVectors m (if vectored then vectorsAt m address count else [⟨address, count⟩]) 0 with
  | error e => exact steady_refuse t _ _
  | ok length =>
    dsimp only
    split
    · exact steady_refuse t _ _
    · exact trans_of Steady (steady_beginIo t _) (steady_ioResume _ m)

end Tables

/-! ## The calls -/

variable {ε : Type} [ListingEngine ε]

/-- `R` between the tables of two machines. -/
def OnTables (R : Tables → Tables → Prop) (m m' : Machine ε) : Prop := R m.tables m'.tables

instance (R : Tables → Tables → Prop) [Std.Refl R] : Std.Refl (OnTables (ε := ε) R) := ⟨fun m => refl_of R m.tables⟩

instance (R : Tables → Tables → Prop) [IsTrans Tables R] : IsTrans (Machine ε) (OnTables R) :=
  ⟨fun _ _ _ h h' => trans_of R h h'⟩

/-- The steps of the calls that open and close nothing move along `R`. -/
structure Passive (R : Machine ε → Machine ε → Prop) : Prop where
  space : ∀ {α : Type} (x : StateM (Space ε) α), Moves R (onSpace x)
  store : ∀ address bytes, Moves R (storeUser address bytes)
  position : ∀ d position, Moves R (setPosition d position)
  pipe : ∀ flags fd address count writing vectored, Moves R (onPipe flags fd address count writing vectored)
  terminal : ∀ address count writing, Moves R (terminalTransfer address count writing)

namespace Passive

variable {R : Machine ε → Machine ε → Prop} [Std.Refl R] [IsTrans (Machine ε) R]

theorem fileTransfer (h : Passive R) (d : Description) (file : OpenFile) (address count : Nat) (writing : Bool) :
    Moves R (fileTransfer d file address count writing) := by
  unfold Linux.fileTransfer
  refine .ite ((h.space _).bind fun r => ?_) (.bind .get fun m => (h.space _).bind fun finish => ?_)
  · cases r with
    | error e => exact .pure _
    | ok data => exact (h.store _ _).bind fun _ => (h.position _ _).bind fun _ => .pure _
  · exact .ite (.pure _) ((h.position _ _).bind fun _ => .pure _)

theorem transfer (h : Passive R) (fd address count : Nat) (writing : Bool) : Moves R (transfer fd address count writing) := by
  unfold Linux.transfer
  refine .bind .get fun m => ?_
  cases m.tables.getFile fd with
  | none => exact .pure _
  | some d =>
    refine .ite (.pure _) (.ite (.pure _) (.ite (h.pipe _ _ _ _ _ _) (.ite (.pure _) (.ite (.pure _) (.ite ?_ ?_)))))
    · exact (h.terminal _ _ _).bind fun _ => .pure _
    · exact (h.fileTransfer _ _ _ _ _).bind fun _ => .pure _

theorem vectorLoop (h : Passive R) (fd address : Nat) (writing : Bool) (is : List Nat) (total : Nat) :
    Moves R (vectorLoop fd address writing is total) := by
  induction is generalizing total with
  | nil => exact .pure _
  | cons i is ih =>
    unfold Linux.vectorLoop
    refine .bind .get fun m => (h.transfer _ _ _ _).bind fun r => ?_
    cases r with
    | value n => exact .ite (.pure _) (.bind .get fun _ => .ite (.pure _) (ih _))
    | wait => exact .pure _
    | sigpipe => exact .pure _

theorem sysVector (h : Passive R) (fd address count : Nat) (writing : Bool) : Moves R (sysVector fd address count writing) := by
  unfold Linux.sysVector
  refine .bind .get fun m => ?_
  cases m.tables.getFile fd with
  | none => exact .pure _
  | some d =>
    refine .ite (h.pipe _ _ _ _ _ _) (.ite (.pure _) (.ite (.pure _) (.ite (.pure _) ?_)))
    cases vectorSum (vectorsAt m.memory address count) 0 with
    | none => exact .pure _
    | some sum => exact h.vectorLoop _ _ _ _ _

theorem sysLseek (h : Passive R) (fd b c : Nat) : Moves R (sysLseek fd b c) := by
  unfold Linux.sysLseek
  refine .bind .get fun m => ?_
  dsimp only
  cases m.tables.getFile fd with
  | none => exact .pure _
  | some d =>
    refine .ite (.pure _) (.ite (.pure _) ((h.space _).bind fun size => .ite (.pure _) (.ite (.pure _) (.ite (.pure _) ?_))))
    exact (h.position _ _).bind fun _ => .pure _

theorem sysGetdents (h : Passive R) (fd address capacity : Nat) : Moves R (sysGetdents fd address capacity) := by
  unfold Linux.sysGetdents
  refine .bind .get fun m => ?_
  cases m.tables.getFile fd with
  | none => exact .pure _
  | some d =>
    refine .ite (.pure _) (.ite (.pure _) ((h.space _).bind fun r => ?_))
    exact (h.store _ _).bind fun _ => (h.position _ _).bind fun _ => .pure _

theorem sysGetcwd (h : Passive R) (address capacity : Nat) : Moves R (sysGetcwd address capacity) := by
  unfold Linux.sysGetcwd
  refine .ite (.pure _) (.bind .get fun m => .ite (.pure _) ((h.space _).bind fun r => ?_))
  cases r with
  | error e => exact .pure _
  | ok path => exact (h.store _ _).bind fun _ => .pure _

theorem sysChdir (h : Passive R) (address : Nat) : Moves R (sysChdir address) := by
  unfold Linux.sysChdir
  refine .bind .get fun m => ?_
  cases copyPath m.memory address with
  | error e => exact .pure _
  | ok path => exact (h.space _).bind fun _ => .pure _

theorem sysAccess (h : Passive R) (address b : Nat) : Moves R (sysAccess address b) := by
  unfold Linux.sysAccess
  refine .bind .get fun m => ?_
  cases copyPath m.memory address with
  | error e => exact .pure _
  | ok path =>
    refine .ite (.pure _) ((h.space _).bind fun _ => .ite (.pure _) ?_)
    refine (h.space _).bind fun _ => .ite (.pure _) ((h.space _).bind fun _ => .ite (.pure _) ?_)
    exact (h.space _).bind fun _ => .ite (.pure _) ((h.space _).bind fun _ => .pure _)

theorem sysIoctl (h : Passive R) (fd b address : Nat) : Moves R (sysIoctl fd b address) := by
  unfold Linux.sysIoctl
  refine .bind .get fun m => ?_
  cases m.tables.getFile fd with
  | none => exact .pure _
  | some d =>
    dsimp only
    cases (m.tables.descriptions d).pipe with
    | none => exact .pure _
    | some p => exact .ite (.pure _) (.ite (.pure _) ((h.store _ _).bind fun _ => .pure _))

theorem sysUname (h : Passive R) (address : Nat) : Moves R (sysUname address) := by
  unfold Linux.sysUname
  exact .bind .get fun m => .ite (.pure _) ((h.store _ _).bind fun _ => .pure _)

theorem openPath (h : Passive R) (path : Name) : Moves R (openPath path) := by
  unfold Linux.openPath
  refine .ite (.pure _) ((h.space _).bind fun r => ?_)
  cases r with
  | error e => exact .pure _
  | ok cwd => exact .ite (.pure _) (.pure _)

end Passive

open Tables (Steady Bound Tied Uses Unspoiled)

theorem tables_onSpace {R : Tables → Tables → Prop} [Std.Refl R] {α : Type} (x : StateM (Space ε) α) :
    Moves (OnTables R) (onSpace x) := fun m => refl_of R m.tables

theorem steady : Passive (OnTables (ε := ε) Steady) where
  space := tables_onSpace
  store := fun _ _ m => refl_of Steady m.tables
  position := fun d _ m => Tables.steady_setDescription m.tables d rfl rfl
  pipe := fun flags fd address count writing vectored m =>
    Tables.steady_pipeTransfer m.tables m.memory flags fd address count writing vectored
  terminal := by
    intro address count writing m
    unfold terminalTransfer
    rw [exec_modifyGet]
    split <;> exact refl_of Steady m.tables

theorem Tables.getFile_eq {t : Tables} {fd : Nat} {d : Description} (h : t.getFile fd = some d) :
    ∃ hfd : fd < 16, t.file ⟨fd, hfd⟩ = some d := by
  unfold Tables.getFile at h
  split at h
  · exact ⟨‹_›, h⟩
  · cases h

theorem Tables.freeFd_free {t : Tables} {minimum : Nat} {fd : Fd} (h : t.freeFd minimum = some fd) : t.file fd = none := by
  have := List.find?_some h
  simp only [Bool.and_eq_true, Option.isNone_iff_eq_none] at this
  exact this.2

theorem Tables.freeDescription_free {t : Tables} {d : Description} (h : t.freeDescription = some d) :
    (t.descriptions d).refs = 0 := by
  simpa using List.find?_some h

/-- The result of a call, and what it did to the tables: a negative result, nothing. -/
def Outright (R : Tables → Tables → Prop) (x : StateM (Machine ε) Int) : Prop :=
  ∀ m, (exec x m).2.tables = m.tables ∨ (0 ≤ (exec x m).1 ∧ (exec x m).1 < 2 ^ 31 ∧ R m.tables (exec x m).2.tables)

theorem Outright.moves {R : Tables → Tables → Prop} [Std.Refl R] {x : StateM (Machine ε) Int} (h : Outright R x) :
    Moves (OnTables R) x := by
  intro m
  rcases h m with he | ⟨-, -, hr⟩
  · unfold OnTables
    rw [he]
    exact refl_of R m.tables
  · exact hr

theorem zero_small : (0 : Int) < 2 ^ 31 := by decide

theorem uses_sysClose (fd : Nat) : Outright (ε := ε) Tied (sysClose fd) := by
  intro m
  unfold sysClose
  rw [exec_bind, exec_get]
  dsimp only
  split
  · rename_i hfd
    split
    · exact .inl rfl
    · exact .inr ⟨Int.le_refl 0, zero_small, (Tables.closes_closeFd m.tables _ _).tied⟩
  · exact .inl rfl

theorem uses_sysDup (fd : Nat) : Outright (ε := ε) Tied (sysDup fd) := by
  intro m
  unfold sysDup
  rw [exec_bind, exec_get]
  dsimp only
  cases hd : m.tables.getFile fd with
  | none => exact .inl rfl
  | some d =>
    dsimp only
    cases hnew : m.tables.freeFd 0 with
    | none => exact .inl rfl
    | some new =>
      obtain ⟨hfd, hfile⟩ := Tables.getFile_eq hd
      refine .inr ⟨Int.natCast_nonneg _, ?_, Tables.tied_share (Tables.freeFd_free hnew) hfile⟩
      show (new.val : Int) < _
      omega

theorem uses_sysDup2 (fd new : Nat) : Outright (ε := ε) Tied (sysDup2 fd new) := by
  intro m
  unfold sysDup2
  rw [exec_bind, exec_get]
  dsimp only
  cases hd : m.tables.getFile fd with
  | none => exact .inl rfl
  | some d =>
    dsimp only
    split
    · rename_i hnew
      split
      · exact .inl rfl
      · rename_i hne
        obtain ⟨hfd, hfile⟩ := Tables.getFile_eq hd
        refine .inr ⟨Int.natCast_nonneg _, ?_, Tables.tied_dup2 (fun he => hne (congrArg Fin.val he)) hfile⟩
        show (new : Int) < _
        omega
    · exact .inl rfl

theorem uses_sysFcntl (fd b c : Nat) : Outright (ε := ε) Tied (sysFcntl fd b c) := by
  intro m
  unfold sysFcntl
  rw [exec_bind, exec_get]
  dsimp only
  cases hd : m.tables.getFile fd with
  | none => exact .inl rfl
  | some d =>
    obtain ⟨hfd, hfile⟩ := Tables.getFile_eq hd
    dsimp only
    split
    · split
      · exact .inl rfl
      · cases hnew : m.tables.freeFd c with
        | none => exact .inl rfl
        | some new =>
          refine .inr ⟨Int.natCast_nonneg _, ?_, Tables.tied_share (Tables.freeFd_free hnew) hfile⟩
          show (new.val : Int) < _
          omega
    split
    · exact .inl rfl
    split
    · refine .inr ⟨Int.le_refl 0, zero_small, Steady.tied ?_⟩
      have hself : Fin.ofNat 16 fd = ⟨fd, hfd⟩ := Fin.ext (Nat.mod_eq_of_lt hfd)
      refine ⟨?_, rfl, fun _ => rfl, fun _ => rfl, fun _ => rfl, fun _ => rfl⟩
      show (m.tables.setFd m.tables.fileTask (Fin.ofNat 16 fd) (some d) (c &&& 1)).taskFiles = m.tables.taskFiles
      unfold Tables.setFd
      dsimp only
      rw [hself, ← hfile, Tables.file, Function.update_eq_self, Function.update_eq_self]
    split
    · exact .inl rfl
    split
    · split
      · exact .inl rfl
      · split
        · exact .inl rfl
        · refine .inr ⟨Int.le_refl 0, zero_small, Steady.tied (Tables.steady_setDescription m.tables d rfl ?_)⟩
          unfold OpenFile.identity
          dsimp only
          rw [Tables.setfl_mode]
    · split <;> exact .inl rfl

theorem uses_sysPipe (address flags : Nat) : Outright (ε := ε) Uses (sysPipe address flags) := by
  intro m
  unfold sysPipe
  rw [exec_bind, exec_get]
  dsimp only
  split
  · exact .inl rfl
  split
  · exact .inl rfl
  cases hok : m.tables.createPipe flags with
  | error e => exact .inl rfl
  | ok r =>
    obtain ⟨fd₀, fd₁, t⟩ := r
    exact .inr ⟨Int.le_refl 0, zero_small, Tables.uses_createPipe hok⟩

theorem tables_openPath (path : Name) : Moves (OnTables (ε := ε) Eq) (openPath path) := by
  unfold openPath
  refine .ite (.pure _) ((tables_onSpace _).bind fun r => ?_)
  cases r with
  | error e => exact .pure _
  | ok cwd => exact .ite (.pure _) (.pure _)

theorem uses_sysOpen (address b : Nat) : Outright (ε := ε) Uses (sysOpen address b) := by
  intro m
  unfold sysOpen
  rw [exec_bind, exec_get]
  dsimp only
  cases copyPath m.memory address with
  | error e => exact .inl rfl
  | ok path =>
    dsimp only
    rw [exec_bind]
    have hpath : m.tables = (exec (openPath (ε := ε) path) m).2.tables := tables_openPath path m
    generalize exec (openPath (ε := ε) path) m = r at hpath
    obtain ⟨r, m₁⟩ := r
    dsimp only at hpath ⊢
    rw [hpath]
    cases r with
    | error e => exact .inl rfl
    | ok path =>
      dsimp only
      split
      · exact .inl rfl
      split
      · exact .inl rfl
      rw [exec_bind, exec_get]
      dsimp only
      cases hfd : m₁.tables.freeFd 0 with
      | none => exact .inl rfl
      | some fd =>
        cases hd : m₁.tables.freeDescription with
        | none => exact .inl rfl
        | some d =>
          dsimp only
          rw [exec_bind]
          have hopen : (exec (onSpace (openFile (ε := ε) path b)) m₁).2.tables = m₁.tables := rfl
          generalize exec (onSpace (openFile (ε := ε) path b)) m₁ = r at hopen
          obtain ⟨r, m₂⟩ := r
          dsimp only at hopen ⊢
          rw [← hopen]
          cases r with
          | error e => exact .inl rfl
          | ok directory =>
            rw [← hopen] at hfd hd
            refine .inr ⟨Int.natCast_nonneg _, ?_, Tables.uses_open (Tables.freeFd_free hfd) (Tables.freeDescription_free hd) rfl rfl _⟩
            show (fd.val : Int) < _
            omega

/-- What `execve` does to the tables when it succeeds. -/
theorem uses_linuxExecve (path argv envp : Nat) : Outright (ε := ε) Tied (linuxExecve path argv envp) := by
  intro m
  unfold linuxExecve
  rw [exec_bind, exec_get]
  dsimp only
  cases stagePath m.memory pathSize path [] with
  | error e => exact .inl rfl
  | ok name =>
    dsimp only
    rw [exec_bind]
    have h₁ : (exec (onSpace (Vfs.fsExecCheck (ε := ε) name)) m).2.tables = m.tables := rfl
    generalize exec (onSpace (Vfs.fsExecCheck (ε := ε) name)) m = r at h₁
    obtain ⟨checked, m₁⟩ := r
    dsimp only at h₁ ⊢
    rw [← h₁]
    split
    · exact .inl rfl
    rw [exec_bind]
    have h₂ : (exec (onSpace (Vfs.fsLoadExecutable (ε := ε) name Vfs.maxFileSize)) m₁).2.tables = m₁.tables := rfl
    generalize exec (onSpace (Vfs.fsLoadExecutable (ε := ε) name Vfs.maxFileSize)) m₁ = r at h₂
    obtain ⟨r, m₂⟩ := r
    dsimp only at h₂ ⊢
    rw [← h₂]
    cases r with
    | error e => exact .inl rfl
    | ok image =>
      dsimp only
      cases elfValidate image with
      | error e => exact .inl rfl
      | ok plan =>
        dsimp only
        split
        · exact .inl rfl
        cases stageVectors m.memory argv envp with
        | error e => exact .inl rfl
        | ok staged => exact .inr ⟨Int.le_refl 0, zero_small, (Tables.closes_syscallExec m₂.tables).tied⟩

/-- Every call that does not end a task is a use of the tables. -/
theorem uses_dispatch (number a b c : Nat) (m : Machine ε) :
    Uses m.tables (exec (linuxSyscallDispatch number a b c) m).2.tables := by
  have tied : ∀ {α β : Type} {x : StateM (Machine ε) α} (f : α → β), Moves (OnTables Tied) x →
      Uses m.tables (exec (do let r ← x; return f r) m).2.tables := fun f h => (h m).uses
  have uses : ∀ {x : StateM (Machine ε) Int} {f : Int → Result}, Outright Uses x →
      Uses m.tables (exec (do let r ← x; return f r) m).2.tables := by
    intro x f h
    rcases h m with he | ⟨-, -, hr⟩
    · show Uses m.tables (exec x m).2.tables
      rw [he]
      exact (refl_of Tied m.tables).uses
    · exact hr
  have tie : ∀ {α : Type} {x : StateM (Machine ε) α}, Moves (OnTables Steady) x → Moves (OnTables Tied) x :=
    fun h m => (h m).tied
  have uid : Moves (OnTables Tied) (onSpace (Vfs.permissionsUid (ε := ε))) := tables_onSpace _
  unfold linuxSyscallDispatch
  split
  · exact tied _ (uses_linuxExecve a b c).moves
  · exact (refl_of Tied m.tables).uses
  · exact (refl_of Tied m.tables).uses
  iterate 8 exact tied _ uid
  · exact (steady.transfer a b c false m).tied.uses
  · exact (steady.transfer a b c true m).tied.uses
  · exact uses (uses_sysPipe a 0)
  · exact uses (uses_sysPipe a b)
  · exact tied _ (uses_sysClose a).moves
  · exact uses (uses_sysOpen a b)
  · exact tied _ (uses_sysDup a).moves
  · exact tied _ (uses_sysDup2 a b).moves
  · exact tied _ (uses_sysFcntl a b c).moves
  · exact tied _ (tie (steady.sysLseek a b c))
  · exact tied _ (tie (steady.sysGetdents a b c))
  · exact tied _ (tie (steady.sysGetcwd a b))
  · exact tied _ (tie (steady.sysChdir a))
  · exact tied _ (tie (steady.sysAccess a b))
  · exact tied _ (tie (steady.sysIoctl a b c))
  · exact tied _ (tie (steady.sysUname a))
  · exact (steady.sysVector a b c false m).tied.uses
  · exact (steady.sysVector a b c true m).tied.uses
  · exact (refl_of Tied m.tables).uses

/-! ## All calls -/

/-- The changes of the tables that the calls on descriptors make. -/
inductive Edit : (Tables → Tables) → Prop where
  | opened (d : Description) (file : OpenFile) (fd : Fd) (flags : Nat) :
    Edit fun t => (t.setDescription d file).setFd t.fileTask fd (some d) flags
  | shared (fd : Fd) (d : Description) : Edit fun t => t.share fd d
  | closed (fd : Fd) : Edit fun t => t.closeFd t.fileTask fd
  | replaced (fd : Fd) (d : Description) : Edit fun t => (t.closeFd t.fileTask fd).share fd d
  | flagged (fd : Fd) (d : Description) (flags : Nat) : Edit fun t => t.setFd t.fileTask fd (some d) flags
  | described (d : Description) (file : OpenFile) : Edit fun t => t.setDescription d file

/-- The steps of all calls move along `R`. -/
structure Calling (R : Machine ε → Machine ε → Prop) : Prop extends Passive R where
  edit : ∀ {f : Tables → Tables}, Edit f → Moves R (withTables f)
  create : ∀ {m : Machine ε} {flags : Nat} {fd₀ fd₁ : Fd} {tables : Tables} (address : Nat),
    m.tables.createPipe flags = .ok (fd₀, fd₁, tables) →
    R m { m with tables := tables, memory := m.memory.store address (wordBytes fd₀ ++ wordBytes fd₁) }
  install : ∀ plan image staged path, Moves R (execInstall plan image staged path)
  brk : ∀ requested, Moves R (sysBrk requested)

namespace Calling

variable {R : Machine ε → Machine ε → Prop} [Std.Refl R] [IsTrans (Machine ε) R]

theorem sysOpen (h : Calling R) (address b : Nat) : Moves R (sysOpen address b) := by
  unfold Linux.sysOpen
  refine .bind .get fun m => ?_
  cases copyPath m.memory address with
  | error e => exact .pure _
  | ok path =>
    refine (h.openPath path).bind fun r => ?_
    cases r with
    | error e => exact .pure _
    | ok path =>
      refine .ite (.pure _) (.ite (.pure _) (.bind .get fun n => ?_))
      dsimp only
      cases n.tables.freeFd 0 with
      | none => exact .pure _
      | some fd =>
        cases n.tables.freeDescription with
        | none => exact .pure _
        | some d =>
          refine (h.space _).bind fun r => ?_
          cases r with
          | error e => exact .pure _
          | ok directory => exact (h.edit (.opened d _ fd _)).bind fun _ => .pure _

theorem sysFcntl (h : Calling R) (fd b c : Nat) : Moves R (sysFcntl fd b c) := by
  unfold Linux.sysFcntl
  refine .bind .get fun m => ?_
  dsimp only
  cases m.tables.getFile fd with
  | none => exact .pure _
  | some d =>
    refine .ite (.ite (.pure _) ?_) (.ite (.pure _) (.ite ?_ (.ite (.pure _) (.ite (.ite (.pure _) (.ite (.pure _) ?_)) ?_))))
    · cases m.tables.freeFd c with
      | none => exact .pure _
      | some new => exact (h.edit (.shared new d)).bind fun _ => .pure _
    · exact (h.edit (.flagged _ d _)).bind fun _ => .pure _
    · exact (h.edit (.described d _)).bind fun _ => .pure _
    · exact .ite (.pure _) (.pure _)

theorem linuxExecve (h : Calling R) (path argv envp : Nat) : Moves R (linuxExecve path argv envp) := by
  unfold Linux.linuxExecve
  refine .bind .get fun m => ?_
  dsimp only
  cases stagePath m.memory pathSize path [] with
  | error e => exact .pure _
  | ok name =>
    refine (h.space _).bind fun checked => .ite (.pure _) ((h.space _).bind fun r => ?_)
    cases r with
    | error e => exact .pure _
    | ok image =>
      dsimp only
      cases elfValidate image with
      | error e => exact .pure _
      | ok plan =>
        refine .ite (.pure _) ?_
        cases stageVectors m.memory argv envp with
        | error e => exact .pure _
        | ok staged => exact (h.install plan image staged name).bind fun _ => .pure _

theorem sysPipe (h : Calling R) (address flags : Nat) : Moves R (sysPipe address flags) := by
  intro m
  unfold Linux.sysPipe
  rw [exec_bind, exec_get]
  dsimp only
  split
  · exact refl_of R m
  split
  · exact refl_of R m
  cases hok : m.tables.createPipe flags with
  | error e => exact refl_of R m
  | ok r => exact h.create address hok

theorem sysClose (h : Calling R) (fd : Nat) : Moves R (sysClose fd) := by
  unfold Linux.sysClose
  refine .bind .get fun m => ?_
  dsimp only
  split
  · exact .ite (.pure _) ((h.edit (.closed _)).bind fun _ => .pure _)
  · exact .pure _

theorem sysDup (h : Calling R) (fd : Nat) : Moves R (sysDup fd) := by
  unfold Linux.sysDup
  refine .bind .get fun m => ?_
  dsimp only
  cases m.tables.getFile fd with
  | none => exact .pure _
  | some d =>
    cases m.tables.freeFd 0 with
    | none => exact .pure _
    | some new => exact (h.edit (.shared new d)).bind fun _ => .pure _

theorem sysDup2 (h : Calling R) (fd new : Nat) : Moves R (sysDup2 fd new) := by
  unfold Linux.sysDup2
  refine .bind .get fun m => ?_
  dsimp only
  cases m.tables.getFile fd with
  | none => exact .pure _
  | some d =>
    dsimp only
    split
    · exact .ite (.pure _) ((h.edit (.replaced _ d)).bind fun _ => .pure _)
    · exact .pure _

/-- Every call moves along `R`. -/
theorem dispatch (h : Calling R) (number a b c : Nat) : Moves R (linuxSyscallDispatch number a b c) := by
  have value : ∀ {α : Type} {x : StateM (Machine ε) α} (f : α → Result), Moves R x →
      Moves R (do let r ← x; return f r) := fun f h => h.bind fun _ => .pure _
  unfold linuxSyscallDispatch
  split
  · exact value _ (h.linuxExecve a b c)
  · exact value _ (h.brk a)
  · exact .pure _
  iterate 8 exact value _ (h.space _)
  · exact h.transfer a b c false
  · exact h.transfer a b c true
  · exact value _ (h.sysPipe a 0)
  · exact value _ (h.sysPipe a b)
  · exact value _ (h.sysClose a)
  · exact value _ (h.sysOpen a b)
  · exact value _ (h.sysDup a)
  · exact value _ (h.sysDup2 a b)
  · exact value _ (h.sysFcntl a b c)
  · exact value _ (h.sysLseek a b c)
  · exact value _ (h.sysGetdents a b c)
  · exact value _ (h.sysGetcwd a b)
  · exact value _ (h.sysChdir a)
  · exact value _ (h.sysAccess a b)
  · exact value _ (h.sysIoctl a b c)
  · exact value _ (h.sysUname a)
  · exact h.sysVector a b c false
  · exact h.sysVector a b c true
  · exact .pure _

end Calling

/-! ## What the calls leave alone -/

/-- What the calls leave alone: everything about tasks. -/
structure Apart (m m' : Machine ε) : Prop where
  tasks : m'.tasks = m.tasks
  current : m'.current = m.current
  outcome : m'.outcome = m.outcome
  frame : m'.frame = m.frame
  nextPid : m'.nextPid = m.nextPid
  snapshots : m'.snapshots = m.snapshots
  reaped : m'.reaped = m.reaped

instance : Std.Refl (Apart (ε := ε)) := ⟨fun _ => ⟨rfl, rfl, rfl, rfl, rfl, rfl, rfl⟩⟩

instance : IsTrans (Machine ε) Apart := ⟨fun _ _ _ h h' => ⟨h'.1.trans h.1, h'.2.trans h.2, h'.3.trans h.3, h'.4.trans h.4,
  h'.5.trans h.5, h'.6.trans h.6, h'.7.trans h.7⟩⟩

/-- No call touches the task slots. -/
theorem apart : Calling (Apart (ε := ε)) where
  space := fun _ _ => ⟨rfl, rfl, rfl, rfl, rfl, rfl, rfl⟩
  store := fun _ _ _ => ⟨rfl, rfl, rfl, rfl, rfl, rfl, rfl⟩
  position := fun _ _ _ => ⟨rfl, rfl, rfl, rfl, rfl, rfl, rfl⟩
  pipe := fun _ _ _ _ _ _ _ => ⟨rfl, rfl, rfl, rfl, rfl, rfl, rfl⟩
  terminal := by
    intro address count writing m
    unfold terminalTransfer
    rw [exec_modifyGet]
    split <;> exact ⟨rfl, rfl, rfl, rfl, rfl, rfl, rfl⟩
  edit := fun _ _ => ⟨rfl, rfl, rfl, rfl, rfl, rfl, rfl⟩
  create := fun _ _ => ⟨rfl, rfl, rfl, rfl, rfl, rfl, rfl⟩
  install := fun _ _ _ _ _ => ⟨rfl, rfl, rfl, rfl, rfl, rfl, rfl⟩
  brk := fun _ _ => ⟨rfl, rfl, rfl, rfl, rfl, rfl, rfl⟩

end Barnix.Linux
