import Barnix.Vfs.Changes
import Barnix.Vfs.Table
/-!
# Runs over the mount table

Root and other users mount, unmount, change the working directory, remove and
rename, and the disks may hold anything between two calls. The mount table keeps
its order, and no removal touches a mount point, the working directory, or a
directory on the way to one.
-/

namespace Barnix.Vfs

/-! ## Runs -/

inductive Removal where
  | rm (name : Name)
  | rmdir (name : Name)
  | mv (source dest : Name)

namespace Removal

/-- The name that disappears. -/
def target : Removal → Name
  | rm name => name
  | rmdir name => name
  | mv source _ => source

def run : Removal → StateM (Space Trees) Int
  | rm name => fsRm name
  | rmdir name => fsRmdir name
  | mv source dest => fsMv source dest

end Removal

inductive TableOp where
  | mount (device mountpoint : Name)
  | unmount (name : Option Name)
  | cd (name : Name)
  | remove (removal : Removal)
  | init

def TableOp.after : TableOp → Space Trees → Space Trees
  | mount device mountpoint, s => (exec (fsMount device mountpoint) s).2
  | unmount name, s => (exec (fsUnmountPath name) s).2
  | cd name, s => (exec (fsCd name) s).2
  | remove removal, s => (exec removal.run s).2
  | init, s => (exec fsInit s).2

/-- The states of a kernel that has started with nothing mounted. Between two calls
another user may log in, and the disks and their files may change in any way. -/
inductive Reached : Space Trees → Prop
  | boot {s : Space Trees} : s.active = false → (∀ i, (s.mounts i).used = false) →
      (∀ c ∈ s.engine.cwd, validName c = true) → Reached s
  | world {s : Space Trees} (engine : Trees) : Reached s → (∀ c ∈ engine.cwd, validName c = true) →
      Reached { s with engine := engine }
  | login {s : Space Trees} (user : Name) : Reached s → Reached (s.as user)
  | step {s : Space Trees} (op : TableOp) : Reached s → Reached (op.after s)

/-! ## The invariant -/

structure Ordered (s : Space Trees) : Prop where
  table : Table s.mounts
  working : s.active = true → ∃ ws, Normal ws ∧ s.working = render ws
  cwd : s.active = false → ∀ c ∈ s.engine.cwd, validName c = true

/-- The namespace starts in the engine's working directory, spelled in less than `pathCap`
bytes, or in the root. -/
theorem start_working {s : Space Trees} (hw : s.active = true → ∃ ws, Normal ws ∧ s.working = render ws)
    (hc : s.active = false → ∀ c ∈ s.engine.cwd, validName c = true) : ∃ ws, Normal ws ∧ (start s).working = render ws := by
  cases ha : s.active with
  | true =>
    rw [start_of_active ha]
    exact hw ha
  | false =>
    cases hcwd : s.engine.getcwd pathCap with
    | error e =>
      have hworking : (start s).working = [slash] := by
        simp [start, namespaceStart, ha, exec_onEngine, Engine.engineReady, Engine.extGetcwd, hcwd]
      exact ⟨[], ⟨by simp, by decide⟩, hworking⟩
    | ok path =>
      have hworking : (start s).working = path := by
        simp [start, namespaceStart, ha, exec_onEngine, Engine.engineReady, Engine.extGetcwd, hcwd]
      rw [hworking]
      unfold Trees.getcwd at hcwd
      repeat' split at hcwd
      all_goals try simp at hcwd
      rename_i hlen
      subst hcwd
      exact ⟨s.engine.cwd, ⟨hc ha, Nat.lt_of_not_le hlen⟩, rfl⟩

namespace Ordered

variable {s t : Space Trees}

theorem sameTable (h : Ordered s) (ha : s.active = true) (hst : SameTable s t) : Ordered t := by
  obtain ⟨hact, hm, hw⟩ := hst.2 ha
  refine ⟨hm ▸ h.table, fun _ => hw ▸ h.working ha, fun hno => ?_⟩
  simp [hact] at hno

theorem start (h : Ordered s) : Ordered (Vfs.start s) := by
  have hact : (Vfs.start s).active = true := active_namespaceStart s
  exact ⟨h.table.start, fun _ => start_working h.working h.cwd, fun hno => by simp [hact] at hno⟩

end Ordered

/-- The places that path names lead to are paths of names. -/
theorem Tree.follow_valid {t : Tree} {p l q : List Name} (hp : ∀ c ∈ p, validName c = true)
    (hl : ∀ c ∈ l, c ≠ [] ∧ slash ∉ c) (h : t.follow p l = some q) : ∀ c ∈ q, validName c = true := by
  induction l generalizing p with
  | nil =>
    obtain rfl : p = q := by simpa [follow] using h
    exact hp
  | cons part l ih =>
    have ih := fun p (hp : ∀ c ∈ p, validName c = true) h => ih (p := p) hp (fun c hc => hl c (by simp [hc])) h
    rw [follow] at h
    split at h
    · simp at h
    rename_i hlen
    split at h
    · exact ih p hp h
    rename_i hdot
    split at h
    · simp at h
    split at h
    · exact ih _ (fun c hc => hp c ((List.dropLast_prefix p).subset hc)) h
    rename_i hdotdot
    split at h
    · refine ih _ (fun c hc => ?_) h
      rcases List.mem_append.1 hc with hc | hc
      · exact hp c hc
      · obtain rfl : c = part := by simpa using hc
        obtain ⟨hne, hs⟩ := hl c (by simp)
        exact validName_iff.2 ⟨hne, Nat.le_of_not_lt hlen, hs, hdot, hdotdot⟩
    · simp at h

/-- Root's checks do nothing. -/
theorem exec_checked_root {α : Type} {s : Space Trees} (hu : s.user = root) (name : Name) (mode : UInt8) (denied : α)
    (x : StateM (Space Trees) α) : exec (checked name mode denied x) s = exec x s := by
  simp [checked, checkPermission, hu]

@[simp] theorem Trees.cwd_change (e : Trees) (next : Option Tree) : (e.change next).2.cwd = e.cwd := by
  unfold change
  cases next with
  | none => rfl
  | some t =>
    dsimp only
    split <;> rfl

/-- A removal before the namespace is active goes to the engine as it is. -/
theorem exec_unprotected_inactive {s : Space Trees} (ha : s.active = false) (name : Name) (op : Name → StateM Trees Int) :
    exec (unprotected name op) s = exec (onEngine (op name)) s := by
  simp [unprotected, routed, ha]

theorem exec_namespaceStart_start (s : Space Trees) : exec namespaceStart (start s) = ((), start s) := by
  have hact : (start s).active = true := active_namespaceStart s
  simp [namespaceStart, hact]

/-- Every rename starts the namespace. -/
theorem exec_fsMv_start (s : Space Trees) (source dest : Name) :
    exec (fsMv source dest) s = exec (fsMv source dest) (start s) := by
  by_cases hu : s.user = root
  · have hprep : exec (permissionsMovePrepare source dest) s = exec (permissionsMovePrepare source dest) (start s) := by
      have hfirst : exec namespaceStart s = ((), start s) := rfl
      simp only [permissionsMovePrepare, exec_bind, hfirst, exec_namespaceStart_start]
    have hu' : (start s).user = root := by simpa using hu
    rw [fsMv, exec_checked_root hu, exec_checked_root hu, exec_checked_root hu', exec_checked_root hu', exec_bind,
      exec_bind, hprep]
  · exact exec_checked_start s hu source modeW (-13) _

namespace Ordered

variable {s t : Space Trees}

/-- A checked operation of an active namespace, or of a user other than root, which starts it. -/
theorem checked {α : Type} (h : Ordered s) {name : Name} {mode : UInt8} {denied : α} {x : StateM (Space Trees) α}
    (hx : ∀ t, t.active = true → Ordered t → Ordered (exec x t).2)
    (hroot : s.active = false → s.user = root → Ordered (exec x s).2) : Ordered (exec (Vfs.checked name mode denied x) s).2 := by
  have hactive : ∀ t, t.active = true → Ordered t → Ordered (exec (Vfs.checked name mode denied x) t).2 := by
    intro t ha ht
    have hcheck := sameTable_checkPermission name mode t
    rw [Vfs.checked, exec_bind]
    split
    · exact ht.sameTable ha hcheck
    · exact hx _ (hcheck.2 ha).1 (ht.sameTable ha hcheck)
  cases ha : s.active with
  | true => exact hactive s ha h
  | false =>
    by_cases hu : s.user = root
    · rw [exec_checked_root hu]
      exact hroot ha hu
    · rw [exec_checked_start s hu]
      exact hactive _ (active_namespaceStart s) h.start

/-- Before the namespace is active, the engine's changes leave its working directory. -/
theorem change (h : Ordered s) (ha : s.active = false) (g : Trees → Option Tree) :
    Ordered (exec (onEngine (modifyGet fun e : Trees => e.change (g e))) s).2 := by
  refine ⟨h.table, fun hact => ?_, fun _ => ?_⟩
  · have : s.active = true := hact
    simp [ha] at this
  · simpa [exec_onEngine] using h.cwd ha

theorem remove (h : Ordered s) (removal : Removal) : Ordered (exec removal.run s).2 := by
  cases removal with
  | rm name =>
    refine h.checked (fun t ha ht => ht.sameTable ha (sameTable_unprotected _ _ _)) fun ha _ => ?_
    rw [exec_unprotected_inactive ha]
    exact h.change ha fun e => e.removed name false
  | rmdir name =>
    refine h.checked (fun t ha ht => ht.sameTable ha (sameTable_unprotected _ _ _)) fun ha _ => ?_
    rw [exec_unprotected_inactive ha]
    exact h.change ha fun e => e.removed name true
  | mv source dest =>
    rw [show Removal.run (.mv source dest) = fsMv source dest from rfl, exec_fsMv_start]
    exact h.start.sameTable (active_namespaceStart s) (sameTable_fsMv source dest _)

theorem cd (h : Ordered s) (name : Name) : Ordered (exec (fsCd name) s).2 := by
  refine h.checked (fun t ha ht => ?_) fun ha _ => ?_
  · simp only [exec_bind, exec_get, ha, Bool.not_true, Bool.false_eq_true, if_false]
    cases hn : normalize t.working name with
    | none => exact ht
    | some path =>
      obtain ⟨ps, rfl, hps⟩ := normalize_spec hn
      have hu := ht.sameTable ha (sameTable_fsIsDir (render ps) t)
      dsimp only
      rw [exec_bind]
      split
      · exact hu
      · exact ⟨hu.table, fun _ => ⟨ps, hps, rfl⟩, hu.cwd⟩
  · simp only [exec_bind, exec_get, ha, Bool.not_false, if_true]
    have hcd : ∀ c ∈ (s.engine.cd name).2.cwd, validName c = true := by
      unfold Trees.cd
      cases hf : s.engine.find name with
      | none => exact h.cwd ha
      | some p =>
        dsimp only
        split
        swap
        · exact h.cwd ha
        unfold Trees.find at hf
        split at hf
        · simp at hf
        · refine Tree.follow_valid ?_ (components_spec name) hf
          split
          · simp
          · exact h.cwd ha
    refine ⟨h.table, fun hact => ?_, fun _ => hcd⟩
    have : s.active = true := hact
    simp [ha] at this

theorem mount (h : Ordered s) (device mountpoint : Name) : Ordered (exec (fsMount device mountpoint) s).2 := by
  have htable := h.table.fsMount device mountpoint
  rcases fsMount_made device mountpoint s with ⟨he, -⟩ | ⟨t, ht, he⟩
  · rw [he]
    exact h
  have hord : Ordered t := h.start.sameTable (active_namespaceStart s) ht
  have hact := (ht.2 (active_namespaceStart s)).1
  rcases he with he | ⟨ms, slot, -, -, -, -, ha, -, ⟨-, hw⟩ | ⟨disk, -, -, hw⟩⟩
  · rw [he]
    exact hord
  · refine ⟨htable, fun _ => hw ▸ hord.working hact, fun hno => ?_⟩
    simp [ha, hact] at hno
  · refine ⟨htable, fun _ => ?_, fun hno => by simp [ha, hact] at hno⟩
    rw [hw]
    split
    · exact ⟨[], ⟨by simp, by decide⟩, rfl⟩
    · exact hord.working hact

theorem unmount (h : Ordered s) (name : Option Name) : Ordered (exec (fsUnmountPath name) s).2 := by
  have htable := h.table.fsUnmountPath name
  have hact := active_namespaceStart s
  rcases fsUnmountPath_gone name s with ⟨he, -⟩ | ⟨ha, -, hcases⟩
  · rw [he]
    exact h
  refine ⟨htable, fun _ => ?_, fun hno => by simp [ha, hact] at hno⟩
  rcases hcases with ⟨-, hw⟩ | ⟨v, -, -, -, hw⟩
  · rw [hw]
    exact h.start.working hact
  · rw [hw]
    split
    · exact ⟨[], ⟨by simp, by decide⟩, rfl⟩
    · exact h.start.working hact

theorem init (h : Ordered s) : Ordered (exec fsInit s).2 := by
  refine ⟨h.table, fun hact => ?_, fun _ => ?_⟩
  · simp [fsInit, exec_onEngine] at hact
  · simp [fsInit, exec_onEngine, Engine.extInit]

theorem step (h : Ordered s) (op : TableOp) : Ordered (op.after s) := by
  cases op with
  | mount device mountpoint => exact h.mount device mountpoint
  | unmount name => exact h.unmount name
  | cd name => exact h.cd name
  | remove removal => exact h.remove removal
  | init => exact h.init

end Ordered

theorem Reached.ordered {s : Space Trees} (h : Reached s) : Ordered s := by
  induction h with
  | @boot s ha hu hc =>
    have hno : ∀ v, ¬ (s.mounts v).used = true := fun v hv => by simp [hu v] at hv
    refine ⟨⟨fun v hv => absurd hv (hno v), fun v _ _ hv _ => absurd hv.used (hno v), fun v _ hv => absurd hv (hno v),
      fun v _ hv => absurd hv.used (hno v)⟩, fun hact => by simp [ha] at hact, fun _ => hc⟩
  | world engine _ hc ih => exact ⟨ih.table, ih.working, fun _ => hc⟩
  | login user _ ih => exact ⟨ih.table, ih.working, ih.cwd⟩
  | step op _ ih => exact ih.step op

/-! ## Held places -/

/-- `ps` is a mount point or the working directory, or above one. -/
def Held (mounts : Fin 8 → Mount) (working : Name) (ps : List Name) : Prop :=
  (∃ v ms, Mounted mounts v ms ∧ ps <+: ms) ∨ ∃ ws, Normal ws ∧ working = render ws ∧ ps <+: ws

theorem Held.of_prefix {mounts : Fin 8 → Mount} {working : Name} {ps qs : List Name} (h : Held mounts working qs)
    (hp : ps <+: qs) : Held mounts working ps := by
  rcases h with ⟨v, ms, hv, hm⟩ | ⟨ws, hws, hw, hm⟩
  · exact .inl ⟨v, ms, hv, hp.trans hm⟩
  · exact .inr ⟨ws, hws, hw, hp.trans hm⟩

theorem Held.valid {mounts : Fin 8 → Mount} {working : Name} {ps : List Name} (h : Held mounts working ps) :
    ∀ c ∈ ps, validName c = true := by
  rcases h with ⟨v, ms, hv, hm⟩ | ⟨ws, hws, -, hm⟩
  · exact fun c hc => hv.normal.1 c (hm.subset hc)
  · exact fun c hc => hws.1 c (hm.subset hc)

/-- The guard of the removals covers the held places. -/
theorem protectsMount_of_held {mounts : Fin 8 → Mount} {working name : Name} {ps : List Name} (hps : Normal ps)
    (hn : normalize working name = some (render ps)) (h : Held mounts working ps) :
    protectsMount mounts working name = true := by
  unfold protectsMount
  rw [hn]
  dsimp only
  rw [Bool.or_eq_true]
  rcases h with ⟨v, ms, hv, hm⟩ | ⟨ws, hws, hw, hm⟩
  · left
    rw [List.any_eq_true]
    refine ⟨v, by simp, ?_⟩
    rw [hv.used, Bool.true_and, hv.path]
    exact (beneath_render hv.normal.1 hps.1).2 hm
  · right
    rw [hw]
    exact (beneath_render hws.1 hps.1).2 hm

/-- What passes the guard has a path, and it is not held. -/
theorem path_of_unprotected {mounts : Fin 8 → Mount} {working name : Name} (h : protectsMount mounts working name = false) :
    ∃ ps, Normal ps ∧ normalize working name = some (render ps) ∧ ¬ Held mounts working ps := by
  cases hn : normalize working name with
  | none => simp [protectsMount, hn] at h
  | some path =>
    obtain ⟨ps, rfl, hps⟩ := normalize_spec hn
    refine ⟨ps, hps, rfl, fun hheld => ?_⟩
    have := protectsMount_of_held hps hn hheld
    simp [this] at h

/-- A protected name is not removed or renamed. -/
theorem removal_refused {s : Space Trees} (ha : s.active = true) (removal : Removal)
    (hp : protectsMount s.mounts s.working removal.target = true) : (exec removal.run s).1 ≠ 0 := by
  let P : Space Trees → Prop := SameTable s
  have hmove : ∀ {α : Type} {x : StateM (Space Trees) α}, Moves SameTable x → Ends P x fun _ => P :=
    fun hx t ht => trans_of SameTable ht (hx t)
  have hchecked : ∀ {name mode} {x : StateM (Space Trees) Int}, Ends P x (fun r _ => r ≠ 0) →
      Ends P (checked name mode (-13) x) fun r _ => r ≠ 0 := fun {name mode x} hx =>
    Ends.bind (hmove (sameTable_checkPermission name mode)) fun _ => .ite (fun _ => .pure fun _ _ => by simp) fun _ => hx
  have hunprotected : ∀ name op, protectsMount s.mounts s.working name = true →
      Ends P (unprotected name op) fun r _ => r ≠ 0 := by
    intro name op hp t ht
    obtain ⟨hact, hm, hw⟩ := ht.2 ha
    have : exec (unprotected name op) t = (-1, t) := by simp [unprotected, hact, hm, hw, hp]
    rw [this]
    simp
  cases removal with
  | rm name => exact hchecked (hunprotected name _ hp) s (refl_of SameTable s)
  | rmdir name => exact hchecked (hunprotected name _ hp) s (refl_of SameTable s)
  | mv source dest =>
    refine hchecked (hchecked ?_) s (refl_of SameTable s)
    refine Ends.bind (hmove (sameTable_permissionsMovePrepare source dest)) fun r => ?_
    refine .ite (fun _ => .pure fun _ _ => by simp) fun _ t ht => ?_
    obtain ⟨hact, hm, hw⟩ := ht.2 ha
    have : exec (moveEntry source dest) t = (-1, t) := by
      rw [moveEntry, exec_bind, exec_get, hm, hw, if_pos (show protectsMount s.mounts s.working source = true from hp)]
      rfl
    simp only [exec_bind, exec_get, hact, Bool.not_true, Bool.false_eq_true, if_false, this]
    simp

/-! ## Directories on the way to held places -/

/-- `l` is a directory of the tree. -/
def Tree.Dir (t : Tree) (l : List Name) : Prop := t.follow [] l = some l ∧ t.get l = some .dir

theorem Tree.Dir.congr {t u : Tree} {l : List Name} (h : t.Dir l) (hl : ∀ c ∈ l, validName c = true)
    (hget : ∀ r, r <+: l → u.get r = t.get r) : u.Dir l := by
  refine ⟨?_, (hget l List.prefix_rfl).trans h.2⟩
  exact (Tree.follow_congr hl fun r hr => by simpa using hget r hr).trans h.1

/-- Every place on the way to a directory is there. -/
theorem Tree.Dir.on_way {t : Tree} {l r : List Name} (h : t.Dir l) (hl : ∀ c ∈ l, validName c = true) (hr : r <+: l) :
    t.get r = some .dir := by
  by_contra hne
  obtain ⟨rest, rfl⟩ := hr
  cases rest with
  | nil => exact hne (by simpa using h.2)
  | cons c rest =>
    have := Tree.follow_below (t := t) (p := []) hl (by simpa using hne)
    rw [h.1] at this
    simp at this

/-- `l` is a directory of volume `v`. -/
def Space.Dir (s : Space Trees) (v : Fin 8) (l : List Name) : Prop :=
  ∃ tree, s.engine.volumes (s.mounts v).disk = some tree ∧ tree.Dir l

/-- The directories at and above mount points and the working directory are still there. -/
def Upholds (s t : Space Trees) : Prop :=
  Settled s → Settled t ∧ t.mounts = s.mounts ∧ t.working = s.working ∧
    ∀ v ms l, Mounted s.mounts v ms → Held s.mounts s.working (ms ++ l) → s.Dir v l → t.Dir v l

instance : Std.Refl Upholds := ⟨fun _ hs => ⟨hs, rfl, rfl, fun _ _ _ _ _ h => h⟩⟩

instance : IsTrans (Space Trees) Upholds := ⟨fun s t u h h' hs => by
  obtain ⟨ht, hm, hw, hd⟩ := h hs
  obtain ⟨hu, hm', hw', hd'⟩ := h' ht
  refine ⟨hu, hm'.trans hm, hw'.trans hw, fun v ms l hv hheld hdir => ?_⟩
  exact hd' v ms l (hm ▸ hv) (by rw [hm, hw]; exact hheld) (hd v ms l hv hheld hdir)⟩

theorem Upholds.of_volumes {s t : Space Trees} (h : Settled s → Settled t ∧ t.mounts = s.mounts ∧ t.working = s.working ∧
    t.engine.volumes = s.engine.volumes) : Upholds s t := by
  intro hs
  obtain ⟨ht, hm, hw, hv⟩ := h hs
  refine ⟨ht, hm, hw, fun v ms l _ _ hdir => ?_⟩
  rw [Space.Dir, hm, hv]
  exact hdir

theorem Upholds.of_kept {s t : Space Trees} (h : Settled s → Kept s t) : Upholds s t :=
  .of_volumes fun hs => ⟨(h hs).settled, (h hs).mounts, (h hs).working, (h hs).volumes⟩

theorem upholds_checkPermission (name : Name) (mode : UInt8) : Moves Upholds (checkPermission (ε := Trees) name mode) := by
  intro s hs
  obtain ⟨t, ht, h⟩ := exec_checkPermission hs name mode
  rw [h]
  exact Upholds.of_kept (fun _ => ht.kept) hs

theorem upholds_stage (f g : Space Trees → Name) (needed : Space Trees → Bool) : Moves Upholds (modify fun s : Space Trees =>
    { s with renamedAcl := f s, renameGuard := g s, renamedAclNeeded := needed s }) :=
  .modify fun s => .of_kept fun hs => hs.stage (f s) (g s) (needed s)

theorem upholds_moveLoop (src dst : Name) (rounds : Nat) (p : Name) (size : Nat) :
    Moves Upholds (moveLoop (ε := Trees) src dst rounds p size) := by
  induction rounds generalizing p size with
  | zero => exact .pure _
  | succ rounds ih =>
    unfold moveLoop
    refine .ite (.pure _) ?_
    rcases p.span fun c => c ≠ bar ∧ c ≠ newline with ⟨start, _ | ⟨c, p⟩⟩
    · exact .pure _
    · refine .ite (.pure _) (.ite ?_ ?_)
      · refine (upholds_checkPermission _ _).bind fun ok => .ite (.pure _) (.ite (.pure _) ?_)
        refine (upholds_stage _ _ _).bind fun _ => .ite (.pure _) ((upholds_stage _ _ _).bind fun _ => ?_)
        exact .bind .get fun s => .ite (.pure _) ((upholds_stage _ _ _).bind fun _ => ih _ _)
      · exact .bind .get fun s => .ite (.pure _) ((upholds_stage _ _ _).bind fun _ => ih _ _)

theorem upholds_permissionsMovePrepare (source dest : Name) :
    Moves Upholds (permissionsMovePrepare (ε := Trees) source dest) := by
  have hstart : Moves Upholds (namespaceStart (ε := Trees)) := by
    intro s hs
    rw [exec_namespaceStart hs]
    exact refl_of Upholds s hs
  have hread : Moves Upholds (privateRead (ε := Trees) accessCfg aclCap) := by
    intro s hs
    obtain ⟨t, ht, h⟩ := exec_privateRead hs normal_accessParts (normalize_accessCfg s.working) aclCap
    rw [h]
    exact Upholds.of_kept (fun _ => ht.kept) hs
  unfold permissionsMovePrepare
  refine hstart.bind fun _ => (upholds_stage _ _ _).bind fun _ => .bind .get fun s => ?_
  cases normalize s.working source with
  | none => exact .pure _
  | some src =>
    cases normalize s.working dest with
    | none => exact .pure _
    | some dst =>
      refine hread.bind fun data => ?_
      cases data with
      | none => exact .pure _
      | some data => exact (upholds_stage _ _ _).bind fun _ => upholds_moveLoop _ _ _ _ _

/-- The access list is a file, so publishing it takes no directory away. -/
theorem upholds_plainWrite_access (data : Name) : Moves Upholds (plainWrite (ε := Trees) accessCfg data) := by
  intro s hs
  obtain ⟨u, hu, ⟨h, hvol, -⟩ | ⟨h, -, -, -, -, hdirs⟩⟩ := exec_plainWrite_access hs data
  · rw [h]
    exact Upholds.of_volumes (fun _ => ⟨hu.settled, hu.mounts, hu.working, hvol⟩) hs
  · rw [h]
    refine ⟨hu.settled, hu.mounts, hu.working, fun v ms l hv hheld ⟨old, hold, hdir⟩ => ?_⟩
    obtain ⟨new, hnew, hentry⟩ := hdirs v old hv.used hold
    have hvalid : ∀ c ∈ l, validName c = true := fun c hc => hheld.valid c (by simp [hc])
    obtain ⟨-, hfollow, hget⟩ := hentry (l ++ [[]]) l [] hvalid ⟨rfl, hdir⟩
    exact ⟨new, by rw [hu.mounts]; exact hnew, hfollow, hget⟩

theorem upholds_permissionsMoveCommit : Moves Upholds (permissionsMoveCommit (ε := Trees)) :=
  .bind .get fun _ => .ite (.pure _) (upholds_plainWrite_access _)

theorem upholds_permissionsMoveFinish : Moves Upholds (permissionsMoveFinish (ε := Trees)) :=
  .bind .get fun _ => .ite ((upholds_plainWrite_access _).bind fun _ => upholds_stage _ _ _) (.pure _)

theorem upholds_route_parent (name : Name) : Moves Upholds (route (ε := Trees) name true) := by
  intro s hs
  cases hn : normalize s.working name with
  | none =>
    have : exec (route name true) s = (none, s) := by simp [route, hn]
    rw [this]
    exact refl_of Upholds s hs
  | some path =>
    obtain ⟨ps, rfl, hps⟩ := normalize_spec hn
    cases hv : volumeFor s.mounts (render ps) with
    | none =>
      rw [exec_route_none true hn hv]
      exact refl_of Upholds s hs
    | some v =>
      obtain ⟨l, hl⟩ := hs.located hps hv
      obtain ⟨t, hload, ⟨h, -⟩ | ⟨p, c, -, h, -⟩⟩ := exec_route_parent hs hps hn hl <;>
      · rw [h]
        exact Upholds.of_kept (fun _ => hload.toSteady.kept) hs

/-- A changed volume keeps its held directories when the change keeps what is on the way to them. -/
theorem Replaced.upholds {s u : Space Trees} {v : Fin 8} {old tree : Tree} (h : Replaced s v tree u) (hs : Settled s)
    (hv : (s.mounts v).used = true) (hold : s.engine.volumes (s.mounts v).disk = some old)
    (hkeep : ∀ ms l, Mounted s.mounts v ms → Held s.mounts s.working (ms ++ l) → old.Dir l → tree.Dir l) : Upholds s u := by
  refine fun _ => ⟨h.1.settled, h.1.mounts, h.1.working, fun w ms l hw hheld ⟨old', hold', hdir⟩ => ?_⟩
  by_cases hwv : w = v
  · subst hwv
    obtain rfl : old = old' := by simpa [hold] using hold'
    exact ⟨tree, by rw [h.1.mounts, h.2, Function.update_self], hkeep ms l hw hheld hdir⟩
  · have hne : (s.mounts w).disk ≠ (s.mounts v).disk := fun e => hwv (hs.disks w v hw.used hv e)
    exact ⟨old', by rw [h.1.mounts, h.2, Function.update_of_ne hne, hold'], hdir⟩

/-- The place of an unheld path is not on the way to a held one. -/
theorem Located.not_held {s : Space Trees} {ps k l ms : List Name} {v : Fin 8} (hl : Located s ps v k)
    (hno : ¬ Held s.mounts s.working ps) (hv : Mounted s.mounts v ms) (hheld : Held s.mounts s.working (ms ++ l)) :
    ¬ k <+: l := by
  intro hp
  obtain ⟨ms', hms', hm', rfl⟩ := hl.split
  obtain rfl := render_inj hms'.1 hv.normal.1 (hm'.symm.trans hv.path)
  exact hno (hheld.of_prefix ((List.prefix_append_right_inj ms').2 hp))

theorem upholds_unprotected (name : Name) (dir : Bool) :
    Moves Upholds (unprotected name fun n => modifyGet fun e : Trees => e.change (e.removed n dir)) := by
  intro s hs
  rw [unprotected, exec_bind, exec_get]
  cases hp : protectsMount s.mounts s.working name with
  | true =>
    rw [if_pos (by simp [hs.active])]
    exact refl_of Upholds s hs
  | false =>
    rw [if_neg (by simp)]
    obtain ⟨ps, hps, hn, hno⟩ := path_of_unprotected hp
    obtain ⟨u, hu, ⟨h, hvol, -⟩ | ⟨v, k, p, c, t, tree, hl, hload, hentry, hcwd, hg, h, hrep, -⟩⟩ :=
      exec_routed_change hs hps hn fun e n => e.removed n dir
    · rw [h]
      exact Upholds.of_volumes (fun _ => ⟨hu.settled, hu.mounts, hu.working, hvol⟩) hs
    · rw [h]
      refine hrep.upholds hs hl.used hload.tree (fun ms l hv hheld hdir => ?_) hs
      obtain ⟨rfl, -⟩ := hentry
      simp only [Trees.removed, Option.ite_none_right_eq_some, Option.some.injEq] at hg
      rw [← hg.2, hcwd]
      refine hdir.congr (fun d hd => hheld.valid d (by simp [hd])) fun r hr => ?_
      rw [Tree.get_del _ (by simp), if_neg]
      rintro rfl
      exact hl.not_held hno hv hheld hr

theorem upholds_renameEntry {s : Space Trees} {source : Name} (hp : protectsMount s.mounts s.working source = false)
    (dst : Name) : Upholds s (exec (renameEntry source dst) s).2 := by
  intro hs
  obtain ⟨ps, hps, hn, hno⟩ := path_of_unprotected hp
  have hrefused : ∀ t, exec (route source true) s = (none, t) → Kept s t → Upholds s (exec (renameEntry source dst) s).2 := by
    intro t ht hk
    have : exec (renameEntry source dst) s = (-1, t) := by simp [renameEntry, ht]
    rw [this]
    exact .of_kept fun _ => hk
  cases hv : volumeFor s.mounts (render ps) with
  | none => exact hrefused s (exec_route_none true hn hv) (.refl hs) hs
  | some v =>
  obtain ⟨k, hl⟩ := hs.located hps hv
  obtain ⟨t, hload, ⟨h, -⟩ | ⟨p, c, hentry, h, hcwd⟩⟩ := exec_route_parent hs hps hn hl
  · exact hrefused t h hload.toSteady.kept hs
  obtain ⟨u, hu, hcases⟩ := exec_extChange hload (t.engine.renamed c dst)
  have hupholds : Upholds s u := by
    rcases hcases with ⟨-, hvol, -⟩ | ⟨tree, hg, -, -, hrep, -⟩
    · exact .of_volumes fun _ => ⟨hu.settled, hu.mounts, hu.working, hvol⟩
    refine hrep.upholds hs hl.used hload.tree fun ms l hv hheld hdir => ?_
    obtain ⟨rfl, -⟩ := hentry
    have hvalid : ∀ d ∈ l, validName d = true := fun d hd => hheld.valid d (by simp [hd])
    unfold Trees.renamed at hg
    split at hg
    swap
    · simp at hg
    rename_i hc
    rw [← Option.some.inj hg, hcwd]
    rw [hcwd] at hc
    refine hdir.congr hvalid fun r hr => Tree.get_move _ (fun hk => ?_) fun hk => ?_
    · exact hl.not_held hno hv hheld (hk.trans hr)
    · -- the new name was free
      have := hdir.on_way hvalid (hk.trans hr)
      simp [hc.2.2.2.2] at this
  have hrun : exec (onEngine (Engine.extMv c dst)) t = ((exec (onEngine (Engine.extMv c dst)) t).1, u) := by
    rcases hcases with ⟨he, -⟩ | ⟨tree, -, -, he, -⟩ <;>
    · rw [show exec (onEngine (Engine.extMv c dst)) t = _ from he]
  rw [renameEntry, exec_bind, h]
  simp only [exec_bind]
  rw [hrun]
  have hfinish := upholds_permissionsMoveFinish u
  split
  · exact trans_of Upholds hupholds hfinish hs
  · exact hupholds hs

theorem upholds_moveEntry (source dest : Name) : Moves Upholds (moveEntry (ε := Trees) source dest) := by
  intro s hs
  rw [moveEntry, exec_bind, exec_get]
  cases hp : protectsMount s.mounts s.working source with
  | true => exact refl_of Upholds s hs
  | false =>
    let P : Space Trees → Prop := fun t => Settled t ∧ Upholds s t ∧ protectsMount t.mounts t.working source = false
    have hmove : ∀ {α : Type} {x : StateM (Space Trees) α}, Moves Upholds x → Ends P x fun _ => P := by
      intro α x hx t ⟨hst, hup, hprot⟩
      obtain ⟨hsu, hm, hw, -⟩ := hx t hst
      exact ⟨hsu, trans_of Upholds hup (hx t), by rw [hm, hw]; exact hprot⟩
    have hstop : ∀ r : Int, Ends P (pure r) fun _ t => Upholds s t := fun r => .pure fun _ h => h.2.1
    rw [if_neg (by simp)]
    cases normalize s.working source with
    | none => exact refl_of Upholds s hs
    | some a =>
      cases normalize s.working dest with
      | none => exact refl_of Upholds s hs
      | some b =>
        dsimp only
        split
        · exact refl_of Upholds s hs
        · refine (?_ : Ends P _ fun _ t => Upholds s t) s ⟨hs, refl_of Upholds s, hp⟩ hs
          refine Ends.bind (hmove (upholds_route_parent source)) fun src => .ite (fun _ => hstop _) fun _ => ?_
          refine Ends.bind (Q := fun _ => P) (fun _ h => h) fun t => ?_
          refine Ends.bind (hmove (upholds_route_parent dest)) fun dst => ?_
          cases dst with
          | none => exact hstop _
          | some dst =>
            refine Ends.bind (Q := fun _ => P) (fun _ h => h) fun u => .ite (fun _ => hstop _) fun _ => ?_
            refine Ends.bind (hmove upholds_permissionsMoveCommit) fun r => .ite (fun _ => hstop _) fun _ => ?_
            exact fun w hw => trans_of Upholds hw.2.1 (upholds_renameEntry hw.2.2 dst)

/-- No removal takes away a directory at or above a mount point or the working directory. -/
theorem upholds_removal (removal : Removal) : Moves Upholds removal.run := by
  have hchecked : ∀ {name mode} {x : StateM (Space Trees) Int}, Moves Upholds x → Moves Upholds (checked name mode (-13) x) :=
    fun {name mode x} hx => (upholds_checkPermission name mode).bind fun _ => .ite (.pure _) hx
  cases removal with
  | rm name => exact hchecked (upholds_unprotected name false)
  | rmdir name => exact hchecked (upholds_unprotected name true)
  | mv source dest =>
    refine hchecked (hchecked ((upholds_permissionsMovePrepare source dest).bind fun r => .ite (.pure _) ?_))
    intro s hs
    simp only [exec_bind, exec_get, hs.active, Bool.not_true, Bool.false_eq_true, if_false]
    exact upholds_moveEntry source dest s hs

/-! ## The mount table over runs -/

/-- What a removal from `s`, with result `r`, leaves in `t`. In an active namespace a name
at or above a mount point or the working directory is refused, and while the loaded
volume is the active one the directories there stay. Before that there is one volume, with
the engine's working directory. -/
structure Spared (s : Space Trees) (removal : Removal) (r : Int) (t : Space Trees) : Prop where
  table : t.active = true → t.mounts = (start s).mounts ∧ t.working = (start s).working
  refused : t.active = true → r = 0 →
    ∃ ps, Normal ps ∧ normalize t.working removal.target = some (render ps) ∧ ¬ Held t.mounts t.working ps
  kept : t.active = true → Settled (start s) →
    ∀ v ms l, Mounted t.mounts v ms → Held t.mounts t.working (ms ++ l) → (start s).Dir v l → t.Dir v l
  early : t.active = false → s.active = false ∧ t.engine.cwd = s.engine.cwd ∧
    ∀ l, l <+: t.engine.cwd → s.engine.tree.Dir l → t.engine.tree.Dir l

/-- A removal runs in an active namespace, or is root's before there is one. -/
theorem exec_removal_cases (s : Space Trees) (removal : Removal) :
    exec removal.run s = exec removal.run (start s) ∨ s.active = false ∧ ∃ name dir,
      exec removal.run s = exec (onEngine (modifyGet fun e : Trees => e.change (e.removed name dir))) s := by
  by_cases hu : s.user = root
  swap
  · left
    cases removal with
    | rm name => exact exec_checked_start s hu name modeW (-13) _
    | rmdir name => exact exec_checked_start s hu name modeW (-13) _
    | mv source dest => exact exec_fsMv_start s source dest
  cases ha : s.active with
  | true => rw [start_of_active ha]; exact .inl rfl
  | false =>
    cases removal with
    | rm name =>
      refine .inr ⟨rfl, name, false, ?_⟩
      rw [Removal.run, fsRm, exec_checked_root hu, exec_unprotected_inactive ha]
      rfl
    | rmdir name =>
      refine .inr ⟨rfl, name, true, ?_⟩
      rw [Removal.run, fsRmdir, exec_checked_root hu, exec_unprotected_inactive ha]
      rfl
    | mv source dest => exact .inl (exec_fsMv_start s source dest)

/-- An entry of the working directory is not on the way to it. -/
theorem dir_change_removed (e : Trees) (name : Name) (dir : Bool) (hc : ∀ c ∈ e.cwd, validName c = true) {l : List Name}
    (hl : l <+: e.cwd) (h : e.tree.Dir l) : (e.change (e.removed name dir)).2.tree.Dir l := by
  cases hg : e.removed name dir with
  | none => exact h
  | some tree =>
    unfold Trees.change
    dsimp only
    split
    · exact h
    · have htree : Trees.tree { e with clock := e.clock + 1, volumes := Function.update e.volumes e.selected (some tree) } = tree := by
        simp [Trees.tree]
      rw [htree]
      simp only [Trees.removed, Option.ite_none_right_eq_some, Option.some.injEq] at hg
      rw [← hg.2]
      refine h.congr (fun c hcl => hc c (hl.subset hcl)) fun r hr => ?_
      rw [Tree.get_del _ (by simp), if_neg]
      rintro rfl
      have := (hr.trans hl).length_le
      simp only [List.length_append, List.length_singleton] at this
      omega

theorem spared {s : Space Trees} (h : Ordered s) (removal : Removal) :
    Spared s removal (exec removal.run s).1 (exec removal.run s).2 := by
  rcases exec_removal_cases s removal with hrun | ⟨ha, name, dir, hrun⟩
  · have hact : (start s).active = true := active_namespaceStart s
    have hsame : SameTable (start s) (exec removal.run s).2 := by
      rw [hrun]
      cases removal with
      | rm name => exact sameTable_fsRm name _
      | rmdir name => exact sameTable_fsRmdir name _
      | mv source dest => exact sameTable_fsMv source dest _
    obtain ⟨hact', hm, hw⟩ := hsame.2 hact
    refine ⟨fun _ => ⟨hm, hw⟩, fun _ hr => ?_, fun _ hs => ?_, fun hno => by simp [hact'] at hno⟩
    · rw [hm, hw]
      refine path_of_unprotected ?_
      by_contra hp
      rw [hrun] at hr
      exact removal_refused hact removal (by simpa using hp) hr
    · rw [hm, hw, hrun]
      exact (upholds_removal removal (start s) hs).2.2.2
  · have hact : (exec removal.run s).2.active = false := by
      rw [hrun]
      exact ha
    refine ⟨fun hno => by simp [hact] at hno, fun hno => by simp [hact] at hno, fun hno => by simp [hact] at hno,
      fun _ => ⟨ha, ?_, fun l hl hdir => ?_⟩⟩
    · rw [hrun]
      exact Trees.cwd_change _ _
    · rw [hrun] at hl ⊢
      have hcwd : (exec (onEngine (modifyGet fun e : Trees => e.change (e.removed name dir))) s).2.engine.cwd =
          s.engine.cwd := Trees.cwd_change _ _
      rw [hcwd] at hl
      exact dir_change_removed s.engine name dir (h.cwd ha) hl hdir

/-- In every reachable state the mount table is ordered, the search of `volume_for`
finds the volume with the longest path, and removals spare mount points and the working
directory. -/
theorem mount_table_ordered {s : Space Trees} (h : Reached s) :
    Table s.mounts ∧
      (∀ ps, Normal ps → (∀ v, volumeFor s.mounts (render ps) = some v ↔ Longest s.mounts ps v) ∧
        (volumeFor s.mounts (render ps) = none ↔ ∀ v ms, Mounted s.mounts v ms → ¬ ms <+: ps)) ∧
      ∀ removal : Removal, Spared s removal (exec removal.run s).1 (exec removal.run s).2 :=
  ⟨h.ordered.table, fun _ hps => ⟨h.ordered.table.volumeFor_eq_some hps, h.ordered.table.volumeFor_eq_none hps⟩,
    spared h.ordered⟩

/-- Two disks, and a directory `m` on the first. -/
def twoDisks : Space Trees where
  mounts _ := ⟨false, noDisk, []⟩
  working := [slash]
  active := false
  activeVolume := none
  user := root
  renamedAcl := []
  renameGuard := []
  renamedAclNeeded := false
  engine := {
    volumes := fun d => if d.id = 1 then some ⟨[([[109]], .dir)]⟩ else if d.id = 2 then some ⟨[([[100]], .dir)]⟩ else none
    probe := fun _ name d => if name = [97] then (⟨1, 0, 64, 1⟩, true) else if name = [98] then (⟨2, 0, 64, 1⟩, true) else (d, false)
    selected := noDisk
    mounted := false
    cwd := []
    refuses := fun _ => false
    clock := 0 }

/-- `twoDisks` with the first disk at `/` and the second one at `/m`. -/
def nested : Space Trees := (TableOp.mount [98] [109]).after ((TableOp.mount [97] [47]).after twoDisks)

theorem mount_table_ordered_nested : Table nested.mounts ∧ volumeFor nested.mounts [47, 109, 47, 100] = some 1 ∧
    (exec (Removal.rmdir [109]).run nested).1 ≠ 0 := by
  have hreached : Reached nested := .step _ (.step _ (.boot rfl (fun _ => rfl) (by simp [twoDisks])))
  obtain ⟨htable, hvol, hspared⟩ := mount_table_ordered hreached
  have hm : Mounted nested.mounts 1 [[109]] := ⟨by decide, ⟨by decide, by decide⟩, by decide⟩
  refine ⟨htable, by decide, fun h0 => ?_⟩
  obtain ⟨ps, hps, hn, hno⟩ := (hspared (.rmdir [109])).refused (by decide) h0
  obtain ⟨htm, htw⟩ := (hspared (.rmdir [109])).table (by decide)
  rw [htm, htw, start_of_active (by decide)] at hno
  rw [htw, start_of_active (by decide)] at hn
  obtain rfl : ps = [[109]] := render_inj hps.1 (by decide) (Option.some.inj (hn.symm.trans (by decide)))
  exact hno (.inl ⟨1, _, hm, List.prefix_rfl⟩)

end Barnix.Vfs
