import Barnix.Acl.Policy
/-!
# What the locks guard

A lock on a path is meant to guard everything below it. The scan of
`set_file_permissions` compares path bytes itself instead of calling `beneath`,
and there `/` is no ancestor of `/home`: a lock on `/` guards `/` alone. As long
as nobody puts one there, the locks guard what they should.
-/

namespace Barnix.Acl

open Vfs

/-- The record with the lock for a path: on the path itself or nearest above it,
`/` included; among equals the one written last. -/
def lockAbove (rs : List Record) (ps : List Name) : Option Record :=
  nearest Record.depth (fun r => r.parts.isPrefixOf ps && r.lock ≠ []) rs

/-- Root puts a lock on `/`. -/
def LocksRoot (s : Space Trees) (user name password : Name) : Prop :=
  user = root ∧ normalize s.working name = some [slash] ∧ password ≠ []

/-- A call on a name that is a C string: it has no zero byte, nor has the path it stands for. -/
def CString (s : Space Trees) (name : Name) : Prop := ∀ path, normalize s.working name = some path → 0 ∉ path

/-- The states after calls of `set_file_permissions`, successful or not, from an
empty access list, without a lock on `/`. -/
inductive Locked : Space Trees → Prop
  | init {s : Space Trees} : Sound s → (start s).acl.getD [] = [] → Locked (start s)
  | call {s : Space Trees} (user name spec password : Name) : Locked s → CString s name →
      ¬ LocksRoot s user name password → Locked (exec (setFilePermissions name spec password) (s.as user)).2

/-- No record on `/` has a lock. -/
def RootFree (rs : List Record) : Prop := ∀ r ∈ rs, r.parts = [] → r.lock = []

theorem RootFree.lockFor_root {rs : List Record} (h : RootFree rs) : lockFor rs [] = [] := by
  have hnone : nearest Record.depth (guards []) rs = none := by
    apply nearest_eq_none.2
    intro r hr
    by_cases hp : r.parts = []
    · simp [guards, h r hr hp]
    · simp [guards, hp]
  rw [lockFor, hnone]

/-- Without a lock on `/`, the scan finds the lock it should. -/
theorem RootFree.lockFor_eq {rs : List Record} (h : RootFree rs) (ps : List Name) :
    lockFor rs ps = ((lockAbove rs ps).map Record.lock).getD [] := by
  have hsame : nearest Record.depth (guards ps) rs = lockAbove rs ps := by
    unfold lockAbove
    apply nearest_congr
    intro r hr
    by_cases hp : r.parts = []
    · simp [guards, h r hr hp]
    · simp [guards, hp]
  rw [lockFor, hsame]
  cases lockAbove rs ps <;> rfl

theorem lockAbove_locked {rs : List Record} {ps : List Name} {r : Record} (h : lockAbove rs ps = some r) :
    r ∈ rs ∧ r.parts <+: ps ∧ r.lock ≠ [] := by
  obtain ⟨hr, hc, -⟩ := nearest_spec h
  simp only [Bool.and_eq_true, List.isPrefixOf_iff_prefix, decide_eq_true_eq] at hc
  exact ⟨hr, hc⟩

/-- The lock of a new record on `/`. -/
theorem newLock_root {s : Space Trees} {user name password lock : Name} (hn : normalize s.working name = some [slash])
    (hnot : ¬ LocksRoot s user name password) (h : newLock user [slash] password [] = .ok lock) : lock = [] := by
  unfold newLock at h
  by_cases hu : user = root
  · have hp : password = [] := by
      by_contra hp
      exact hnot ⟨hu, hn, hp⟩
    rw [if_pos hu, if_pos hp] at h
    exact (Except.ok.inj h).symm
  · rw [if_neg hu] at h
    split at h
    · simp at h
    by_cases hif : (if ([] : Name) ≠ [] then passwordMatches password [] else beneath [slash] (home user)) = true
    · rw [if_pos hif] at h
      exact (Except.ok.inj h).symm
    · rw [if_neg hif] at h
      simp at h

theorem Locked.spec {s : Space Trees} (h : Locked s) : ∃ rs, Holds rs s ∧ RootFree rs := by
  induction h with
  | init hs hnone => exact ⟨[], ⟨hs.start, hnone, by simp, by decide⟩, by simp [RootFree]⟩
  | @call s user name spec password _ hnul hnot ih =>
    obtain ⟨rs, hrs, hfree⟩ := ih
    have hrs' := hrs.as user
    obtain ⟨r, t, he, hf, -, ⟨-, hacl, -⟩ | ⟨ps, acct, rights, lock, hreq, -, hacl, -⟩⟩ :=
      exec_setFilePermissions hrs'.settled name spec password
    · rw [he]
      exact ⟨rs, ⟨hf.settled, by rw [hacl]; exact hrs.acl, hrs.clean, hrs.short⟩, hfree⟩
    · rw [he]
      refine ⟨_, hrs'.set hreq (hnul _ hreq.name) hf.settled hacl, fun q hq hparts => ?_⟩
      rcases List.mem_append.1 hq with hq | hq
      · exact hfree q (List.mem_filter.1 hq).1 hparts
      · -- the new record is on `/`, where the scan finds no lock to inherit
        obtain rfl := List.mem_singleton.1 hq
        obtain rfl : ps = [] := hparts
        obtain ⟨old, hold, hlock⟩ := hreq.unlocked
        rw [listText_eq hrs'.acl hrs'.clean hrs'.short, lockOf_text hreq.normal hrs'.clean, hfree.lockFor_root] at hold
        obtain rfl := Option.some.inj hold
        exact newLock_root (s := s) hreq.name hnot hlock

/-- Who may change the rights on a path: who knows the password of the lock
above it, or without one, whoever's home it is in. -/
def MayChange (rs : List Record) (user : Name) (ps : List Name) (password : Name) : Prop :=
  match lockAbove rs ps with
  | some r => passwordMatches password r.lock = true
  | none => beneath (render ps) (home user) = true

/-- The volume of `sample` with an empty access list. -/
def listed : Space Trees :=
  { sample with engine := { sample.engine with
      volumes := fun d => (sample.engine.volumes d).map fun t => t.put accessParts (.file false []) } }

theorem sound_listed : Sound listed := fun h => by simp [listed, sample] at h

/-- `listed` after a call of root for `u` on `/home/u/a`, without a password. -/
def unlocked : Space Trees :=
  (exec (setFilePermissions [47, 104, 111, 109, 101, 47, 117, 47, 97] [117, 61, 114] []) ((start listed).as root)).2

/-- The lock with the password `k` on `/`. -/
@[irreducible] def rootLock : Name := passwordEncode [107] (lockSalt [slash])

theorem lockText_rootLock : LockText rootLock := by
  rw [rootLock]
  exact lockText_passwordEncode _ (lockSalt_spec _).1 (lockSalt_spec _).2

theorem rootLock_ne_nil : rootLock ≠ [] := by
  simp [rootLock, passwordEncode, passwordMark]

/-- Sixty-four bytes match no encoded password. -/
theorem passwordMatches_long {password : Name} (h : 63 < password.length) : passwordMatches password rootLock = false := by
  have hmark : passwordMark.isPrefixOf rootLock = true := by
    rw [List.isPrefixOf_iff_prefix, rootLock, passwordEncode, List.append_assoc, List.append_assoc]
    exact List.prefix_append _ _
  unfold passwordMatches
  rw [hmark, Bool.not_true, if_neg (by simp), if_pos (.inr (.inr h))]

/-- `listed` after root has put the lock on `/`. -/
@[irreducible] def rootLocked : Space Trees := (exec (setFilePermissions [slash] [117, 61, 114] [107]) ((start listed).as root)).2

/-- The record of root's call. -/
def rootRecord : Record := ⟨[], [117], [114], rootLock⟩

theorem clean_rootRecord : rootRecord.Clean := by
  refine ⟨⟨by simp [rootRecord], by decide⟩, ?_, ?_, ?_, lockText_rootLock.1, lockText_rootLock.2⟩
  all_goals
    unfold Plain
    decide +kernel

theorem length_rootRecord : rootRecord.line.length < 110 := by
  have := lockText_rootLock.2
  simp only [Record.line, Record.path, rootRecord, List.length_append, List.length_cons, List.length_nil]
  have : (render []).length = 1 := rfl
  omega

/-- Root's call on `/` writes its record. -/
theorem holds_rootLocked : Holds [rootRecord] rootLocked ∧
    (rootLocked.node [[104, 111, 109, 101], [117], [97]]).isSome ∧ rootLocked.engine.refuses = fun _ => false := by
  have hs : Settled ((start listed).as root) := sound_listed.start.as root
  have hacl : ((start listed).as root).acl = some [] := by decide +kernel
  have hlist : listText ((start listed).as root) = [] := by rw [listText, hacl]; rfl
  have hlen := length_rootRecord
  have hline : newText [] [117] [114] rootLock [] = rootRecord.line := rfl
  have hreq : Request ((start listed).as root) [slash] [117, 61, 114] [107] [] [117] [114] rootLock := by
    refine ⟨by decide +kernel, ⟨by simp, by decide⟩, by decide, by decide, ⟨by decide, by decide, by decide⟩, by decide,
      ⟨by decide, by decide⟩, ⟨[], by rw [hlist]; rfl, ?_⟩, by decide +kernel, ?_⟩
    · have huser : ((start listed).as root).user = root := rfl
      unfold newLock
      rw [huser, if_pos rfl, if_neg (by decide), if_neg (by decide), rootLock, render_nil]
    · unfold NewFits
      rw [hlist, hline]
      have : aclCap = 8192 := rfl
      omega
  obtain ⟨r, t, he, hf, hnode, ⟨-, -, hwhy⟩ | ⟨ps, acct, rights, lock, hreq', -, hnew, -⟩⟩ :=
    exec_setFilePermissions hs [slash] [117, 61, 114] [107]
  · have := hwhy (by simp [hacl]) _ _ _ _ hreq
    have hno : ((start listed).as root).engine.refuses ((start listed).as root).engine.clock = false := by decide +kernel
    simp [hno] at this
  have hlocked : rootLocked = t := by
    unfold rootLocked
    rw [he]
  obtain rfl : ps = [] := render_inj hreq'.normal.1 (by simp) (Option.some.inj (hreq'.name.symm.trans hreq.name))
  obtain rfl : acct = [117] := hreq'.spec.2.1.trans hreq.spec.2.1.symm
  obtain rfl : rights = [114] := hreq'.spec.2.2.trans hreq.spec.2.2.symm
  obtain ⟨old, hold, hlock⟩ := hreq.unlocked
  obtain ⟨old', hold', hlock'⟩ := hreq'.unlocked
  obtain rfl := Option.some.inj (hold.symm.trans hold')
  obtain rfl := Except.ok.inj (hlock'.symm.trans hlock)
  rw [hlocked]
  refine ⟨⟨hf.settled, ?_, by simpa using clean_rootRecord, ?_⟩, ?_, ?_⟩
  · rw [hnew, hlist, Option.getD_some, text_cons, text_nil, List.append_nil, hline]
  · rw [text_cons, text_nil, List.append_nil]
    have : aclCap = 8192 := rfl
    omega
  · rw [hnode [] hreq.name _ hreq.normal ⟨by decide, by decide⟩ (by decide) (by decide)]
    decide +kernel
  · rw [hf.refuses]
    rfl

end Barnix.Acl
