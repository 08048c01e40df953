import Barnix.Lib.WriteBack
import Barnix.Ext2.View
/-!
# Committing

What `finish` asks of the disk, what is there when it succeeds, and what it does to the
engine's state in each of its outcomes.
-/

namespace Barnix.Ext2

/-- An event, as a request to a store of sectors. -/
def Event.request : Event → WriteBack.Request Nat Sector
  | .write lba data => .put lba data
  | .flush => .flush

/-! ## Commands in a row -/

/-- From `d` on, the disk was asked for `plan` until something failed; `done` says that nothing did. -/
structure Tried (plan : List Event) (d d' : Disk) (done : Bool) : Prop where
  size : d'.size = d.size
  present : d'.present = d.present
  faults : d'.faults = d.faults
  log : ∃ es, es <+: plan ∧ d'.log = d.log ++ es
  done : done = true → d'.log = d.log ++ plan ∧ d'.sectors = WriteBack.Request.apply (plan.map Event.request) d.sectors

namespace Tried

variable {plan plan' : List Event} {d d' d'' : Disk} {done : Bool}

theorem nil (d : Disk) : Tried [] d d true :=
  ⟨rfl, rfl, rfl, ⟨[], List.prefix_refl _, (List.append_nil _).symm⟩, fun _ => ⟨(List.append_nil _).symm, rfl⟩⟩

theorem andThen (h : Tried plan d d' true) (h' : Tried plan' d' d'' done) : Tried (plan ++ plan') d d'' done := by
  obtain ⟨hlog, hsectors⟩ := h.done rfl
  refine ⟨h'.size.trans h.size, h'.present.trans h.present, h'.faults.trans h.faults, ?_, fun hdone => ?_⟩
  · obtain ⟨es, hes, hlog'⟩ := h'.log
    refine ⟨plan ++ es, (List.prefix_append_right_inj plan).2 hes, ?_⟩
    rw [hlog', hlog, List.append_assoc]
  · obtain ⟨hlog', hsectors'⟩ := h'.done hdone
    rw [hlog', hlog, List.append_assoc, hsectors', hsectors, List.map_append, WriteBack.Request.apply_append]
    exact ⟨rfl, rfl⟩

theorem stop (h : Tried plan d d' false) : Tried (plan ++ plan') d d' false := by
  obtain ⟨es, hes, hlog⟩ := h.log
  exact ⟨h.size, h.present, h.faults, ⟨es, hes.trans (List.prefix_append _ _), hlog⟩, nofun⟩

end Tried

theorem tried_diskWrite (lba : Nat) (data : Sector) (d : Disk) :
    Tried [.write lba data] d (exec (diskWrite lba data) d).2 (exec (diskWrite lba data) d).1 := by
  unfold diskWrite
  rw [exec_modifyGet]
  split
  · exact ⟨rfl, rfl, rfl, ⟨[], List.nil_prefix, (List.append_nil _).symm⟩, nofun⟩
  split
  · exact ⟨rfl, rfl, rfl, ⟨_, List.prefix_refl _, rfl⟩, nofun⟩
  · refine ⟨rfl, rfl, rfl, ⟨_, List.prefix_refl _, rfl⟩, fun _ => ⟨rfl, ?_⟩⟩
    funext l
    exact (Function.update_apply ..).symm

theorem tried_diskFlush (d : Disk) : Tried [.flush] d (exec diskFlush d).2 (exec diskFlush d).1 := by
  unfold diskFlush
  rw [exec_modifyGet]
  split
  · exact ⟨rfl, rfl, rfl, ⟨[], List.nil_prefix, (List.append_nil _).symm⟩, nofun⟩
  split
  · exact ⟨rfl, rfl, rfl, ⟨[], List.nil_prefix, (List.append_nil _).symm⟩, nofun⟩
  · exact ⟨rfl, rfl, rfl, ⟨_, List.prefix_refl _, rfl⟩, fun _ => ⟨rfl, rfl⟩⟩

/-- The writes of a list of sectors. -/
def writes (l : List (Nat × Sector)) : List Event := l.map fun p => .write p.1 p.2

theorem request_writes (l : List (Nat × Sector)) : (writes l).map Event.request = WriteBack.Request.puts l := by
  unfold writes WriteBack.Request.puts
  rw [List.map_map]
  rfl

theorem tried_writeSectors (l : List (Nat × Sector)) (d : Disk) :
    Tried (writes l) d (exec (writeSectors l) d).2 (exec (writeSectors l) d).1 := by
  induction l generalizing d with
  | nil => exact .nil d
  | cons p l ih =>
    obtain ⟨lba, data⟩ := p
    have hfirst := tried_diskWrite lba data d
    unfold writeSectors
    rw [exec_bind]
    cases hdone : (exec (diskWrite lba data) d).1 with
    | false =>
      rw [hdone] at hfirst
      exact hfirst.stop
    | true =>
      rw [hdone] at hfirst
      exact hfirst.andThen (ih _)

/-! ## The commands of `commit` -/

/-- `put16(SB + 58, n)` -/
def Ext.stamp (s : Ext) (n : Nat) : Ext := { s with vol := { s.vol with superblock := s.vol.superblock.put16 58 n } }

@[simp] theorem Ext.stamp_stamp (s : Ext) (m n : Nat) : (s.stamp m).stamp n = s.stamp n := by
  unfold stamp
  rw [Buf.put16_put16]

theorem exec_putState (n : Nat) (s : Ext) : exec (putState n) s = ((), s.stamp n) := rfl

/-- The sectors that changed, in the order they are written. -/
def Ext.updates (s : Ext) : List (Nat × Sector) := dirtyCache s.cache ++ dirtyDesc s ++ dirtySuper s

/-- The first half of the superblock with the volume's state. -/
def Ext.head (s : Ext) : Sector := half s.vol.superblock 0

/-- What `commit` asks of the disk. -/
def Ext.committing (s : Ext) : List Event :=
  .write 2 (s.stamp 2).head :: .flush ::
    (writes (s.stamp 1).updates ++ .flush :: .write 2 (s.stamp 1).head :: [.flush])

theorem request_committing (s : Ext) : s.committing.map Event.request =
    WriteBack.Request.marked 2 (s.stamp 2).head (s.stamp 1).head (s.stamp 1).updates := by
  unfold Ext.committing WriteBack.Request.marked
  rw [List.map_cons, List.map_cons, List.map_append, request_writes]
  rfl

/-- `if !(← x) return false` before `y`. -/
theorem exec_unless {τ : Type} (x y : StateM τ Bool) (s : τ) :
    exec (x >>= fun done => if !done then pure false else y) s = bif (exec x s).1 then exec y (exec x s).2 else (false, (exec x s).2) := by
  rw [exec_bind]
  cases (exec x s).1 with
  | false => rfl
  | true => rfl

/-- The part of `commit` behind the mark. -/
def commitMarked : StateM Ext Bool := do
  let s ← get
  if !(← onDisk (writeSectors s.updates)) then return false
  if !(← onDisk diskFlush) then return false
  if !(← onDisk (diskWrite 2 s.head)) then return false
  onDisk diskFlush

theorem commit_eq : commit = (do
    putState 2
    let s ← get
    if !(← onDisk (diskWrite 2 s.head)) then return false
    if !(← onDisk diskFlush) then return false
    putState 1
    commitMarked) := rfl

theorem exec_commitMarked (t : Ext) : ∃ d, (exec commitMarked t).2 = { t with disk := d } ∧
    Tried (writes t.updates ++ [.flush] ++ [.write 2 t.head] ++ [.flush]) t.disk d (exec commitMarked t).1 := by
  unfold commitMarked
  rw [exec_bind, exec_get, exec_unless, exec_onDisk]
  have hbody := tried_writeSectors t.updates t.disk
  generalize exec (writeSectors t.updates) t.disk = r at hbody ⊢
  obtain ⟨done, d₁⟩ := r
  cases done with
  | false => exact ⟨d₁, rfl, hbody.stop.stop.stop⟩
  | true =>
  rw [cond_true, exec_unless, exec_onDisk]
  have hflush := tried_diskFlush d₁
  generalize exec diskFlush d₁ = r at hflush ⊢
  obtain ⟨done, d₂⟩ := r
  cases done with
  | false => exact ⟨d₂, rfl, (hbody.andThen hflush).stop.stop⟩
  | true =>
  rw [cond_true, exec_unless, exec_onDisk]
  have hclean := tried_diskWrite 2 t.head d₂
  generalize exec (diskWrite 2 t.head) d₂ = r at hclean ⊢
  obtain ⟨done, d₃⟩ := r
  cases done with
  | false => exact ⟨d₃, rfl, ((hbody.andThen hflush).andThen hclean).stop⟩
  | true =>
  rw [cond_true, exec_onDisk]
  exact ⟨_, rfl, ((hbody.andThen hflush).andThen hclean).andThen (tried_diskFlush d₃)⟩

/-- The engine's state while and after a commit: only the disk and the volume's state change. -/
theorem exec_commit (s : Ext) : ∃ d, Tried s.committing s.disk d (exec commit s).1 ∧
    ((exec commit s).2 = { s.stamp 1 with disk := d } ∨
      (exec commit s).1 = false ∧ (exec commit s).2 = { s.stamp 2 with disk := d }) := by
  rw [commit_eq, exec_bind, exec_putState, exec_bind, exec_get, exec_unless, exec_onDisk]
  have hmark := tried_diskWrite 2 (s.stamp 2).head s.disk
  rw [show (s.stamp 2).disk = s.disk from rfl]
  generalize exec (diskWrite 2 (s.stamp 2).head) s.disk = r at hmark ⊢
  obtain ⟨done, d₁⟩ := r
  cases done with
  | false => exact ⟨d₁, hmark.stop, .inr ⟨rfl, rfl⟩⟩
  | true =>
  rw [cond_true, exec_unless, exec_onDisk]
  have hflush := tried_diskFlush d₁
  generalize exec diskFlush d₁ = r at hflush ⊢
  obtain ⟨done, d₂⟩ := r
  cases done with
  | false => exact ⟨d₂, (hmark.andThen hflush).stop, .inr ⟨rfl, rfl⟩⟩
  | true =>
  -- from here on the superblock in memory says clean again
  rw [cond_true, exec_bind, exec_putState]
  have hstamp : ({ s.stamp 2 with disk := d₂ } : Ext).stamp 1 = { s.stamp 1 with disk := d₂ } := by
    rw [← Ext.stamp_stamp s 2 1]
    rfl
  rw [hstamp]
  obtain ⟨d, hstate, htried⟩ := exec_commitMarked { s.stamp 1 with disk := d₂ }
  refine ⟨d, ?_, .inl hstate⟩
  have hplan : s.committing = [.write 2 (s.stamp 2).head] ++ [.flush] ++ (writes (s.stamp 1).updates ++ [.flush] ++
      [.write 2 (s.stamp 1).head] ++ [.flush]) := by
    simp [Ext.committing]
  rw [hplan]
  exact (hmark.andThen hflush).andThen htried

/-! ## The outcomes of `finish` -/

/-- What `finish` does: a failed body is taken back, a body that changed nothing is left at that, and what
changed is committed, unmounting the volume when the device fails. -/
theorem exec_finish (ok : Bool) (s : Ext) :
    ((ok = false ∨ s.cacheError = true) ∧ exec (finish ok) s = (-1, s.rollback)) ∨
    (ok = true ∧ s.cacheError = false ∧ s.changed = false ∧ exec (finish ok) s = (0, s)) ∨
    (ok = true ∧ s.cacheError = false ∧ s.changed = true ∧ ∃ d, Tried s.committing s.disk d true ∧
      exec (finish ok) s = (0, { s.stamp 1 with disk := d })) ∨
    (ok = true ∧ s.cacheError = false ∧ s.changed = true ∧ ∃ d, ∃ n, Tried s.committing s.disk d false ∧
      exec (finish ok) s = (-1, { s.stamp n with disk := d, mounted := false })) := by
  unfold finish
  rw [exec_bind, exec_get]
  dsimp only
  by_cases hbad : (!ok || s.cacheError) = true
  · rw [if_pos hbad]
    left
    refine ⟨?_, rfl⟩
    cases ok with
    | false => exact .inl rfl
    | true => exact .inr hbad
  rw [if_neg hbad]
  obtain ⟨rfl, herror⟩ : ok = true ∧ s.cacheError = false := by
    cases ok with
    | false => exact absurd rfl hbad
    | true => exact ⟨rfl, by simpa using hbad⟩
  right
  by_cases hchanged : s.changed = true
  · rw [if_neg (by rw [hchanged]; decide), exec_bind]
    right
    obtain ⟨d, htried, hstate⟩ := exec_commit s
    cases hdone : (exec commit s).1 with
    | true =>
      left
      rw [hdone] at htried
      rcases hstate with hstate | ⟨hfalse, -⟩
      · exact ⟨rfl, herror, hchanged, d, htried, by rw [hstate]; rfl⟩
      · rw [hdone] at hfalse
        cases hfalse
    | false =>
      right
      rw [hdone] at htried
      rcases hstate with hstate | ⟨-, hstate⟩
      · refine ⟨rfl, herror, hchanged, d, 1, htried, ?_⟩
        rw [hstate]
        rfl
      · exact ⟨rfl, herror, hchanged, d, 2, htried, by rw [hstate]; rfl⟩
  · left
    have hsame : s.changed = false := by simpa using hchanged
    rw [if_pos (by rw [hsame]; rfl)]
    exact ⟨rfl, herror, hsame, rfl⟩

end Barnix.Ext2
