import Barnix.Acl.Runs
/-!
# The confinement of `/etc`

For a user other than root every operation on a name beneath `/etc` fails before
the engine is asked for the file, whatever the engine and the access list hold.
Over runs, the user's operations change nothing beneath `/etc` but the access
list, and that only by `set_file_permissions` and by a rename.
-/

namespace Barnix.Acl

open Vfs

/-! ## Any engine -/

section
variable {ε α : Type}

/-- The user stays, and so does the working directory of an active namespace. -/
def SamePlace (s t : Space ε) : Prop := t.user = s.user ∧ (s.active = true → t.active = true ∧ t.working = s.working)

instance : Std.Refl (SamePlace (ε := ε)) := ⟨fun _ => ⟨rfl, fun h => ⟨h, rfl⟩⟩⟩

instance : IsTrans (Space ε) SamePlace := ⟨fun s t u h h' => by
  refine ⟨h'.1.trans h.1, fun ha => ?_⟩
  obtain ⟨ht, hw⟩ := h.2 ha
  obtain ⟨hu, hw'⟩ := h'.2 ht
  exact ⟨hu, hw'.trans hw⟩⟩

theorem samePlace_onEngine (x : StateM ε α) : Moves SamePlace (onEngine x) := fun _ => ⟨rfl, fun h => ⟨h, rfl⟩⟩

variable [Engine ε]

theorem samePlace_activate (index : Option (Fin 8)) : Moves SamePlace (activate (ε := ε) index) := by
  cases index with
  | none => exact .pure _
  | some v =>
    have hclear : ∀ w, Moves SamePlace (modify fun s : Space ε => { s with activeVolume := w }) :=
      fun w => .modify fun _ => ⟨rfl, fun h => ⟨h, rfl⟩⟩
    unfold activate
    refine .bind .get fun s => .ite ?_ ?_
    · refine (samePlace_onEngine _).bind fun _ => (hclear none).bind fun _ => (samePlace_onEngine _).bind fun ok => ?_
      exact .ite (.pure _) ((hclear (some v)).bind fun _ => samePlace_onEngine _)
    · exact samePlace_onEngine _

theorem samePlace_route (name : Name) (parent : Bool) : Moves SamePlace (route (ε := ε) name parent) := by
  unfold route
  refine .bind .get fun s => ?_
  cases normalize s.working name with
  | none => exact .pure _
  | some path =>
    refine (samePlace_activate _).bind fun ok => .ite (.pure _) ?_
    refine (samePlace_onEngine _).bind fun _ => .ite (.pure _) (.ite (.pure _) ?_)
    exact (samePlace_onEngine _).bind fun _ => .ite (.pure _) (.pure _)

theorem samePlace_routed (name : Name) (parent : Bool) (bad : α) (op : Name → StateM ε α) :
    Moves SamePlace (routed name parent bad op) := by
  unfold routed
  refine .bind .get fun s => .ite (samePlace_onEngine _) ((samePlace_route name parent).bind fun loc => ?_)
  cases loc with
  | none => exact .pure _
  | some loc => exact samePlace_onEngine _

theorem samePlace_privateRead (path : Name) (cap : Nat) : Moves SamePlace (privateRead (ε := ε) path cap) := by
  unfold privateRead
  refine (samePlace_routed _ _ _ _).bind fun n => .ite (.pure _) ((samePlace_routed _ _ _ _).bind fun data => ?_)
  cases data <;> exact .pure _

theorem samePlace_namespaceStart : Moves SamePlace (namespaceStart (ε := ε)) := by
  intro s
  cases ha : s.active with
  | true =>
    have : exec namespaceStart s = ((), s) := by simp [namespaceStart, ha]
    rw [this]
    exact refl_of SamePlace s
  | false =>
    refine ⟨?_, fun h => absurd (ha.symm.trans h) Bool.false_ne_true⟩
    simp [namespaceStart, ha, onEngine]

theorem samePlace_checkPermission (name : Name) (mode : UInt8) : Moves SamePlace (checkPermission (ε := ε) name mode) := by
  unfold checkPermission
  refine .bind .get fun s => .ite (.pure _) (samePlace_namespaceStart.bind fun _ => .bind .get fun t => ?_)
  cases normalize t.working name with
  | none => exact .pure _
  | some path =>
    refine .ite (.pure _) ((samePlace_privateRead _ _).bind fun data => ?_)
    cases data with
    | some data => exact .pure _
    | none => exact (samePlace_routed _ _ _ _).bind fun n => .ite (.pure _) (.pure _)

/-- The state once the namespace is active. -/
def started (s : Space ε) : Space ε := (exec namespaceStart s).2

theorem started_active (s : Space ε) : (started s).active = true := by
  cases ha : s.active <;> simp [started, namespaceStart, ha, onEngine]

theorem started_of_active {s : Space ε} (h : s.active = true) : started s = s := by
  simp [started, namespaceStart, h]

/-- The user is another than root, and the name stands for a path beneath `/etc`. -/
structure UnderEtc (s : Space ε) (name : Name) : Prop where
  user : s.user ≠ root
  path : ∃ path, normalize (started s).working name = some path ∧ beneath path etc = true

theorem UnderEtc.of_samePlace {s t : Space ε} {name : Name} (h : UnderEtc s name) (hst : SamePlace (started s) t) :
    UnderEtc t name := by
  have huser : (started s).user = s.user := (samePlace_namespaceStart s).1
  obtain ⟨ha, hw⟩ := hst.2 (started_active s)
  refine ⟨by rw [hst.1, huser]; exact h.user, ?_⟩
  rw [started_of_active ha, hw]
  exact h.path

theorem exec_checkPermission_etc {s : Space ε} {name : Name} (h : UnderEtc s name) (mode : UInt8) :
    exec (checkPermission name mode) s = (false, started s) := by
  obtain ⟨path, hn, hp⟩ := h.path
  have hstart : exec namespaceStart s = ((), started s) := rfl
  simp [checkPermission, h.user, hstart, hn, hp]

theorem exec_checked_etc {s : Space ε} {name : Name} (h : UnderEtc s name) (mode : UInt8) (denied : α)
    (x : StateM (Space ε) α) : exec (checked name mode denied x) s = (denied, started s) := by
  simp [checked, exec_checkPermission_etc h]

/-- A check of another name comes first. -/
theorem exec_checked_then_etc {s : Space ε} {first name : Name} (h : UnderEtc s name) (mode mode' : UInt8) (denied : α)
    (x : StateM (Space ε) α) : (exec (checked first mode denied (checked name mode' denied x)) s).1 = denied := by
  have hmove : SamePlace (started s) (exec (checkPermission first mode) s).2 := by
    have hstart : exec (checkPermission first mode) s = exec (checkPermission first mode) (started s) := by
      have h1 : exec namespaceStart s = ((), started s) := rfl
      have h2 : exec namespaceStart (started s) = ((), started s) := by
        simp [namespaceStart, started_active]
      have huser : (started s).user ≠ root := by
        rw [show (started s).user = s.user from (samePlace_namespaceStart s).1]
        exact h.user
      have hs := h.user
      simp only [checkPermission, exec_bind, exec_get, hs, huser, if_false, h1, h2]
    rw [hstart]
    exact samePlace_checkPermission first mode (started s)
  unfold checked
  rw [exec_bind]
  split
  · rfl
  · have := exec_checked_etc (h.of_samePlace hmove) mode' denied x
    unfold checked at this
    rw [this]

/-- `set_file_permissions` reads the list and fails. -/
theorem exec_setFilePermissions_etc {s : Space ε} {name : Name} (h : UnderEtc s name) (spec password : Name) :
    ∃ r t, exec (setFilePermissions name spec password) s = (r, t) ∧ r < 0 ∧
      (t = started s ∨ t = (exec (privateRead accessCfg aclCap) (started s)).2) := by
  obtain ⟨path, hn, hp⟩ := h.path
  have hstart : exec namespaceStart s = ((), started s) := rfl
  have huser : (started s).user ≠ root := by
    rw [show (started s).user = s.user from (samePlace_namespaceStart s).1]
    exact h.user
  simp only [setFilePermissions, exec_bind, exec_get, hstart, hn]
  split
  · exact ⟨-1, _, rfl, by decide, .inl rfl⟩
  split
  · exact ⟨-1, _, rfl, by decide, .inl rfl⟩
  split
  · exact ⟨-1, _, rfl, by decide, .inl rfl⟩
  rw [exec_bind]
  cases lockOf path (cstr ((exec (privateRead accessCfg aclCap) (started s)).1.getD [])) with
  | none => exact ⟨-1, _, rfl, by decide, .inr rfl⟩
  | some lock =>
    have herror : newLock (started s).user path password lock = .error (-13) := by
      rw [newLock, if_neg huser, if_pos hp]
    simp only [herror]
    exact ⟨-13, _, rfl, by decide, .inr rfl⟩

end

/-- No operation on the name does anything for the user. -/
structure Denied {ε : Type} [ListingEngine ε] (s : Space ε) (p : Name) : Prop where
  size : (exec (fsSize p) s).1 = -13
  execCheck : (exec (fsExecCheck p) s).1 = -13
  stat : (exec (fsStat p) s).1 = .error (-13)
  touch : (exec (fsTouch p) s).1 = -13
  mkdir : (exec (fsMkdir p) s).1 = -13
  isDir : (exec (fsIsDir p) s).1 = false
  rm : (exec (fsRm p) s).1 = -13
  rmdir : (exec (fsRmdir p) s).1 = -13
  read : ∀ offset size, (exec (fsRead p offset size) s).1 = .error (-13)
  getdents : ∀ capacity position, (exec (fsGetdents p capacity position) s).1 = (-13, [], position)
  write : ∀ data, (exec (fsWrite p data) s).1 = -13
  append : ∀ data, (exec (fsAppend p data) s).1 = -13
  cd : (exec (fsCd p) s).1 = -13
  cpSource : ∀ dest, (exec (fsCp p dest) s).1 = -13
  cpDest : ∀ source, (exec (fsCp source p) s).1 = -13
  mvSource : ∀ dest, (exec (fsMv p dest) s).1 = -13
  mvDest : ∀ source, (exec (fsMv source p) s).1 = -13
  load : ∀ capacity, (exec (fsLoadExecutable p capacity) s).1 = .error (-13)
  fileSize : (exec (fsFileSize p) s).1 = -13
  pwrite : ∀ position bytes append, (exec (fsPwrite p position bytes append) s).1 = -13
  setPermissions : ∀ spec password, (exec (setFilePermissions p spec password) s).1 < 0

theorem denied_of_underEtc {ε : Type} [ListingEngine ε] {s : Space ε} {p : Name} (h : UnderEtc s p) : Denied s p := by
  have hone : ∀ {α : Type} (mode : UInt8) (denied : α) (x : StateM (Space ε) α),
      (exec (checked p mode denied x) s).1 = denied := fun mode denied x => by rw [exec_checked_etc h]
  have htwice : UnderEtc (started s) p := h.of_samePlace (refl_of SamePlace _)
  refine ⟨hone _ _ _, hone _ _ _, hone _ _ _, hone _ _ _, hone _ _ _, hone _ _ _, hone _ _ _, hone _ _ _, fun _ _ => hone _ _ _,
    fun _ _ => hone _ _ _, fun _ => hone _ _ _, fun _ => hone _ _ _, hone _ _ _, fun _ => hone _ _ _,
    fun _ => exec_checked_then_etc h _ _ _ _, fun _ => hone _ _ _, fun _ => exec_checked_then_etc h _ _ _ _,
    fun _ => hone _ _ _, ?_, fun _ _ _ => hone _ _ _, fun spec password => ?_⟩
  · simp [fsFileSize, anyRight, exec_checkPermission_etc h, exec_checkPermission_etc htwice, started_of_active (started_active s)]
  · obtain ⟨r, t, he, hr, -⟩ := exec_setFilePermissions_etc h spec password
    rw [he]
    exact hr

/-! ## Operations that leave `/etc` alone -/

/-- Looking at the engine changes no file. -/
theorem sealed_read {α : Type} (name : Name) (bad : α) (f : Trees → Name → α) :
    Moves Sealed (routed name false bad fun n => modifyGet fun e : Trees => (f e n, e)) := by
  intro s hs hu
  cases hn : normalize s.working name with
  | none =>
    have : exec (routed name false bad fun n => modifyGet fun e : Trees => (f e n, e)) s = (bad, s) := by
      simp [routed, route, hs.active, hn]
    rw [this]
    exact refl_of Sealed s hs hu
  | some path =>
    obtain ⟨ps, rfl, hps⟩ := normalize_spec hn
    rcases exec_routed_read hs hps hn f bad with ⟨-, h⟩ | ⟨v, l, t, -, hload, h⟩
    · rw [h]
      exact refl_of Sealed s hs hu
    · rw [h]
      exact Sealed.of_steady (fun _ => hload.toSteady) hs hu

theorem sealed_plainSize (name : Name) : Moves Sealed (plainSize (ε := Trees) name) := sealed_read name (-1) Trees.size

theorem sealed_plainRead (name : Name) (offset size : Nat) : Moves Sealed (plainRead (ε := Trees) name offset size) :=
  sealed_read name none fun e n => e.read n offset size

theorem sealed_checkPermission (name : Name) (mode : UInt8) : Moves Sealed (checkPermission (ε := Trees) name mode) := by
  intro s hs hu
  obtain ⟨t, ht, he⟩ := exec_checkPermission hs name mode
  rw [he]
  exact Sealed.of_steady (fun _ => ht) hs hu

theorem sealed_fsExecCheck (name : Name) : Moves Sealed (fsExecCheck (ε := Trees) name) :=
  sealed_checked_of (sealed_read name (-1) Trees.execCheck)

theorem sealed_fsLoadExecutable (name : Name) (capacity : Nat) :
    Moves Sealed (fsLoadExecutable (ε := Trees) name capacity) := by
  have hsize : Moves Sealed (programSize (ε := Trees) name) :=
    (sealed_read name (-1) Trees.execCheck).bind fun result => .ite (.pure _) (sealed_plainSize name)
  refine sealed_checked_of (hsize.bind fun n => .ite (.pure _) (.ite (.pure _) ((sealed_plainRead name 0 _).bind fun data => ?_)))
  cases data <;> exact .pure _

theorem sealed_fsFileSize (name : Name) : Moves Sealed (fsFileSize (ε := Trees) name) := by
  have hany : Moves Sealed (anyRight (ε := Trees) name) :=
    (sealed_checkPermission name modeR).bind fun _ => .ite (.pure _)
      ((sealed_checkPermission name modeW).bind fun _ => .ite (.pure _) (sealed_checkPermission name modeX))
  exact hany.bind fun _ => .ite (.pure _) (sealed_plainSize name)

theorem sealed_fsPwrite (name : Name) (position : Nat) (bytes : List UInt8) (append : Bool) :
    Moves Sealed (fsPwrite (ε := Trees) name position bytes append) := by
  refine sealed_checked fun s hs hu ⟨ps, hps, hn, he⟩ => ?_
  obtain ⟨t, ht, hsize⟩ := exec_plainSize hs hps hn
  refine trans_of Sealed (Sealed.of_steady fun _ => ht) ?_
  simp only [exec_bind, hsize]
  generalize (s.file ps).elim (-1) (fun d => (d.length : Int)) = size
  generalize (if append then size.toNat else position) = position
  split
  · exact refl_of Sealed t
  split
  · exact refl_of Sealed t
  obtain ⟨u, hu, hread⟩ := exec_plainRead ht.settled hps (ht.working ▸ hn) size.toNat
  refine trans_of Sealed (Sealed.of_steady fun _ => hu) ?_
  simp only [exec_bind, hread]
  cases (t.file ps).map (·.take size.toNat) with
  | none => exact refl_of Sealed u
  | some data =>
    dsimp only
    split
    · exact refl_of Sealed u
    · have hout : Outside u name := ⟨ps, hps, by rw [hu.working, ht.working]; exact hn, he⟩
      exact sealed_change hu.settled hout (fun e n => e.writtenPath n _) fun _ _ _ _ hc h hq => get_writtenPath hc h hq

theorem sealed_syncLoop (l : List (Fin 8)) : Moves Sealed (syncLoop (ε := Trees) l) := by
  induction l with
  | nil => exact .pure _
  | cons i rest ih =>
    intro s hs hu
    cases hused : (s.mounts i).used with
    | false =>
      have hstep : (exec (syncLoop (i :: rest)) s).2 = (exec (syncLoop rest) s).2 := by simp [syncLoop, hused]
      rw [hstep]
      exact ih s hs hu
    | true =>
      obtain ⟨t, ht, hload⟩ := exec_activate hs hused
      have hstep : (exec (syncLoop (i :: rest)) s).2 = (exec (syncLoop rest) t).2 := by
        simp [syncLoop, hused, ht, exec_onEngine, Engine.extSync]
      rw [hstep]
      exact trans_of Sealed (Sealed.of_steady fun _ => hload.toSteady) (ih t) hs hu

theorem sealed_fsSync : Moves Sealed (fsSync (ε := Trees)) := by
  intro s hs hu
  have hstep : (exec fsSync s).2 = (exec (syncLoop (List.finRange 8)) s).2 := by simp [fsSync, hs.active]
  rw [hstep]
  exact sealed_syncLoop _ s hs hu

theorem sealed_fsGetcwd (capacity : Nat) : Moves Sealed (fsGetcwd (ε := Trees) capacity) := by
  intro s hs hu
  have : (exec (fsGetcwd capacity) s).2 = s := by simp [fsGetcwd, hs.active]
  rw [this]
  exact refl_of Sealed s hs hu

/-! ## All operations -/

/-- The public operations. -/
inductive PublicOp where
  | file (op : FileOp)
  | size (name : Name)
  | execCheck (name : Name)
  | stat (name : Name)
  | isDir (name : Name)
  | read (name : Name) (offset n : Nat)
  | getdents (name : Name) (capacity position : Nat)
  | getcwd (capacity : Nat)
  | loadExecutable (name : Name) (capacity : Nat)
  | fileSize (name : Name)
  | pwrite (name : Name) (position : Nat) (bytes : List UInt8) (append : Bool)
  | setPermissions (name spec password : Name)
  | sync
  | mount (device mountpoint : Name)
  | unmount (name : Option Name)
  | format (device : Name)

section
variable (inodes : Trees → Name → Option (Nat × Nat)) (entries : Trees → Name → Nat → Nat → Int × List UInt8 × Nat)

/-- The state after the operation. -/
def PublicOp.after : PublicOp → Space Trees → Space Trees
  | file op, s => (exec op.run s).2
  | size name, s => (exec (fsSize name) s).2
  | execCheck name, s => (exec (fsExecCheck name) s).2
  | stat name, s => (exec (@fsStat Trees (reporting inodes entries) name) s).2
  | isDir name, s => (exec (fsIsDir name) s).2
  | read name offset n, s => (exec (fsRead name offset n) s).2
  | getdents name capacity position, s => (exec (@fsGetdents Trees (reporting inodes entries) name capacity position) s).2
  | getcwd capacity, s => (exec (fsGetcwd capacity) s).2
  | loadExecutable name capacity, s => (exec (fsLoadExecutable name capacity) s).2
  | fileSize name, s => (exec (fsFileSize name) s).2
  | pwrite name position bytes append, s => (exec (fsPwrite name position bytes append) s).2
  | setPermissions name spec password, s => (exec (setFilePermissions name spec password) s).2
  | sync, s => (exec fsSync s).2
  | mount device mountpoint, s => (exec (fsMount device mountpoint) s).2
  | unmount name, s => (exec (fsUnmountPath name) s).2
  | format device, s => (exec (fsFormat device) s).2

/-- The operation may write the access list. -/
def PublicOp.lists : PublicOp → Bool
  | file (.mv _ _) => true
  | setPermissions _ _ _ => true
  | _ => false

theorem node_of_fsMv {s t : Space Trees} (hs : Settled s) (hu : s.user ≠ root) {source dest : Name} {r : Int}
    (he : exec (fsMv source dest) s = (r, t)) {qs : List Name} (hqs : Normal qs) (hetc : etcParts <+: qs)
    (hqa : qs ≠ accessParts) : t.node qs = s.node qs := by
  obtain ⟨r', t', he', -, hm, -, -, hspare, hout⟩ := exec_fsMv hs source dest
  obtain ⟨-, rfl⟩ := Prod.mk.inj (he'.symm.trans he)
  rcases hout with ⟨-, hvol, -⟩ | ⟨a, b, w, hn, hmay, hk, -, hout⟩
  · exact node_congr hm hvol qs
  -- the names the user may write are outside `/etc`
  have hbeside : ∀ {l d : List Name} {x : Name}, judge s.acl s.user (some (render l)) modeW = true → Normal l →
      l = d ++ [x] → ¬ l <+: qs := by
    intro l d x hj hl hne
    have hj' : judge s.acl s.user (normalize s.working (render l)) modeW = true := by rwa [normalize_render _ hl]
    obtain ⟨ps, hps, hp, hout⟩ := outside_of_judge hu hj'
    rw [normalize_render _ hl] at hp
    rw [← Option.some.inj hp] at hout
    exact not_prefix_beneath_etc hl hout (by simp [hne]) hetc
  cases hout with
  | refused _ hvol _ => rw [node_congr (hm.trans hk.mounts.symm) hvol, hk.node]
  | guarded d x y _ had hbd _ _ _ _ =>
    exact hspare a b hn qs hqs (hbeside hmay.1 hn.normalSource had) (hbeside hmay.2 hn.normalDest hbd) hqa
  | renamed d x y had hbd _ _ =>
    exact hspare a b hn qs hqs (hbeside hmay.1 hn.normalSource had) (hbeside hmay.2 hn.normalDest hbd) hqa

theorem node_of_setFilePermissions {s t : Space Trees} (hs : Settled s) (hu : s.user ≠ root) {name spec password : Name}
    {r : Int} (he : exec (setFilePermissions name spec password) s = (r, t)) {qs : List Name} (hqs : Normal qs)
    (hetc : etcParts <+: qs) (hqa : qs ≠ accessParts) : t.node qs = s.node qs := by
  cases hn : normalize s.working name with
  | none =>
    have : exec (setFilePermissions name spec password) s = (-1, s) := by
      simp [setFilePermissions, exec_namespaceStart hs, hn]
    obtain ⟨-, rfl⟩ := Prod.mk.inj (this.symm.trans he)
    rfl
  | some path =>
    obtain ⟨ps, rfl, hps⟩ := normalize_spec hn
    by_cases hbelow : beneath (render ps) etc = true
    · -- the call only reads the list
      have hstarted : started s = s := started_of_active hs.active
      have hunder : UnderEtc s name := ⟨hu, render ps, by rw [hstarted]; exact hn, hbelow⟩
      obtain ⟨r', t', he', -, ht⟩ := exec_setFilePermissions_etc hunder spec password
      obtain ⟨-, rfl⟩ := Prod.mk.inj (he'.symm.trans he)
      obtain ⟨u, hu', hread⟩ := exec_privateRead hs normal_accessParts (normalize_accessCfg s.working) aclCap
      rw [hstarted, hread] at ht
      rcases ht with rfl | rfl
      · rfl
      · exact hu'.node qs
    · obtain ⟨r', t', he', -, hnode, -⟩ := exec_setFilePermissions hs name spec password
      obtain ⟨-, rfl⟩ := Prod.mk.inj (he'.symm.trans he)
      refine hnode ps hn qs hps hqs hqa ?_
      rintro rfl
      exact hbelow ((beneath_render (q := etcParts) hqs.1 (by decide)).2 hetc)

/-- One step leaves everything beneath `/etc` alone, except that a rename and
`set_file_permissions` may write the access list. -/
theorem PublicOp.step {s : Space Trees} (hs : Settled s) (hu : s.user ≠ root) (op : PublicOp) :
    Settled (op.after inodes entries s) ∧ (op.after inodes entries s).user = s.user ∧
      ∀ qs, Normal qs → etcParts <+: qs → qs ≠ accessParts ∨ op.lists = false →
        (op.after inodes entries s).node qs = s.node qs := by
  have hsealed : ∀ {t : Space Trees}, Sealed s t → Settled t ∧ t.user = s.user ∧
      ∀ qs, Normal qs → etcParts <+: qs → qs ≠ accessParts ∨ op.lists = false → t.node qs = s.node qs := by
    intro t ht
    obtain ⟨h1, h2, h3⟩ := ht hs hu
    exact ⟨h1, h2, fun qs hqs he _ => h3 qs hqs he⟩
  cases op with
  | file op =>
    by_cases hmv : ∃ source dest, op = .mv source dest
    swap
    · exact hsealed (sealed_run (fun source dest h => hmv ⟨source, dest, h⟩) s)
    obtain ⟨source, dest, rfl⟩ := hmv
    obtain ⟨r, t, he, hst, -, -, hut, hspare, hout⟩ := exec_fsMv hs source dest
    have hafter : (PublicOp.file (.mv source dest)).after inodes entries s = t := by
      simp [PublicOp.after, FileOp.run, he]
    rw [hafter]
    refine ⟨hst, hut, fun qs hqs hetc hlist => ?_⟩
    have hqa : qs ≠ accessParts := hlist.resolve_right (by simp [PublicOp.lists])
    exact node_of_fsMv hs hu he hqs hetc hqa
  | size name => exact hsealed (sealed_fsSize name s)
  | execCheck name => exact hsealed (sealed_fsExecCheck name s)
  | stat name => exact hsealed (sealed_checked_of (sealed_read name _ _) s)
  | isDir name => exact hsealed (sealed_fsIsDir name s)
  | read name offset n => exact hsealed (sealed_fsRead name offset n s)
  | getdents name capacity position =>
    exact hsealed (sealed_checked_of (sealed_read name _ fun e n => entries e n capacity position) s)
  | getcwd capacity => exact hsealed (sealed_fsGetcwd capacity s)
  | loadExecutable name capacity => exact hsealed (sealed_fsLoadExecutable name capacity s)
  | fileSize name => exact hsealed (sealed_fsFileSize name s)
  | pwrite name position bytes append => exact hsealed (sealed_fsPwrite name position bytes append s)
  | setPermissions name spec password =>
    obtain ⟨r, t, he, hf, hnode, hout⟩ := exec_setFilePermissions hs name spec password
    have hafter : (PublicOp.setPermissions name spec password).after inodes entries s = t := by simp [PublicOp.after, he]
    rw [hafter]
    refine ⟨hf.settled, hf.user, fun qs hqs hetc hlist => ?_⟩
    have hqa : qs ≠ accessParts := hlist.resolve_right (by simp [PublicOp.lists])
    exact node_of_setFilePermissions hs hu he hqs hetc hqa
  | sync => exact hsealed (sealed_fsSync s)
  | mount device mountpoint =>
    have hsame : (PublicOp.mount device mountpoint).after inodes entries s = s := by simp [PublicOp.after, fsMount, hu]
    rw [hsame]
    exact hsealed (refl_of Sealed s)
  | unmount name =>
    have hsame : (PublicOp.unmount name).after inodes entries s = s := by simp [PublicOp.after, fsUnmountPath, hu]
    rw [hsame]
    exact hsealed (refl_of Sealed s)
  | format device =>
    have hsame : (PublicOp.format device).after inodes entries s = s := by simp [PublicOp.after, fsFormat, hu]
    rw [hsame]
    exact hsealed (refl_of Sealed s)

def runPublic : List PublicOp → Space Trees → Space Trees
  | [], s => s
  | op :: ops, s => runPublic ops (op.after inodes entries s)

theorem runPublic_etc {s : Space Trees} (hs : Settled s) (hu : s.user ≠ root) (ops : List PublicOp) :
    Settled (runPublic inodes entries ops s) ∧ (runPublic inodes entries ops s).user ≠ root ∧
      ∀ qs, Normal qs → etcParts <+: qs → qs ≠ accessParts → (runPublic inodes entries ops s).node qs = s.node qs := by
  induction ops generalizing s with
  | nil => exact ⟨hs, hu, fun _ _ _ _ => rfl⟩
  | cons op ops ih =>
    obtain ⟨hst, hut, hnode⟩ := op.step inodes entries hs hu
    obtain ⟨hfin, hufin, hrest⟩ := ih hst (hut ▸ hu)
    exact ⟨hfin, hufin, fun qs hqs he hqa => (hrest qs hqs he hqa).trans (hnode qs hqs he (.inl hqa))⟩

end

end Barnix.Acl
