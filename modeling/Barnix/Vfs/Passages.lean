import Barnix.Vfs.Files
/-!
# What passes through the namespace

Everything the namespace does to an engine is one of a few steps: it starts, it
activates a volume, and it hands an active engine one request. A relation that
these steps keep is kept by every file operation.
-/

namespace Barnix.Vfs

/-- What a file operation asks of the engine. -/
inductive Request : Type → Type where
  | size (name : Name) : Request Int
  | execCheck (name : Name) : Request Int
  | isDir (name : Name) : Request Bool
  | stat (name : Name) : Request (Option (Nat × Nat))
  | read (name : Name) (offset size : Nat) : Request (Option (List UInt8))
  | getdents (name : Name) (capacity position : Nat) : Request (Int × List UInt8 × Nat)
  | cd (name : Name) : Request Int
  | getcwd (capacity : Nat) : Request (Except Int Name)
  | touch (name : Name) : Request Int
  | mkdir (name : Name) : Request Int
  | write (name : Name) (data : List UInt8) : Request Int
  | append (name : Name) (data : List UInt8) : Request Int
  | cp (source dest : Name) : Request Int
  | mv (source dest : Name) : Request Int
  | rm (name : Name) : Request Int
  | rmdir (name : Name) : Request Int
  | sync : Request Int
  | markExecutable (name : Name) : Request Int

variable {ε α : Type} [ListingEngine ε]

def Request.ask (request : Request α) : StateM ε α :=
  match request with
  | .size name => Engine.extSize name
  | .execCheck name => Engine.extExecCheck name
  | .isDir name => Engine.extIsDir name
  | .stat name => ListingEngine.extStat name
  | .read name offset count => Engine.extRead name offset count
  | .getdents name capacity position => ListingEngine.extGetdents name capacity position
  | .cd name => Engine.extCd name
  | .getcwd capacity => Engine.extGetcwd capacity
  | .touch name => Engine.extTouch name
  | .mkdir name => Engine.extMkdir name
  | .write name data => Engine.extWrite name data
  | .append name data => Engine.extAppend name data
  | .cp source dest => Engine.extCp source dest
  | .mv source dest => Engine.extMv source dest
  | .rm name => Engine.extRm name
  | .rmdir name => Engine.extRmdir name
  | .sync => Engine.extSync
  | .markExecutable name => Engine.markExecutable name

/-- `R` is kept by every step of the namespace, as long as the engine is only asked in
the states `on`, which activating a volume leads to. -/
structure Passage (R : Space ε → Space ε → Prop) (on : Space ε → Prop) : Prop where
  start : Moves R (namespaceStart (ε := ε))
  activate : ∀ index s, R s (exec (activate index) s).2 ∧ ((exec (activate index) s).1 = true → on (exec (activate index) s).2)
  toRoot : ∀ s, on s → R s (exec (onEngine Engine.cwdRoot) s).2 ∧ on (exec (onEngine Engine.cwdRoot) s).2
  ask : ∀ {α : Type} (request : Request α) s, on s →
    R s (exec (onEngine request.ask) s).2 ∧ on (exec (onEngine request.ask) s).2
  idle : ∀ s, s.active = false → on s
  staged : ∀ (f g : Space ε → Name) (needed : Space ε → Bool), Moves R (modify fun s : Space ε =>
    { s with renamedAcl := f s, renameGuard := g s, renamedAclNeeded := needed s })

namespace Passage

variable {R : Space ε → Space ε → Prop} [Std.Refl R] [IsTrans (Space ε) R] {on : Space ε → Prop}

/-- A request in a state where the engine may be asked. -/
theorem asked (h : Passage R on) {s t : Space ε} (hs : R s t ∧ on t) (request : Request α) :
    R s (exec (onEngine request.ask) t).2 ∧ on (exec (onEngine request.ask) t).2 :=
  ⟨trans_of R hs.1 (h.ask request t hs.2).1, (h.ask request t hs.2).2⟩

/-- A name that was routed leads to an engine that may be asked. -/
theorem routing (h : Passage R on) (name : Name) (parent : Bool) (s : Space ε) :
    R s (exec (route name parent) s).2 ∧ ((exec (route name parent) s).1 ≠ none → on (exec (route name parent) s).2) := by
  have key : Ends (R s) (route name parent) fun loc t => R s t ∧ (loc ≠ none → on t) := by
    unfold route
    refine .bind (.get (Q := fun _ => R s) fun _ ht => ht) fun t => ?_
    cases normalize t.working name with
    | none => exact .pure fun _ ht => ⟨ht, fun hne => absurd rfl hne⟩
    | some path =>
      refine .bind (Q := fun ok u => R s u ∧ (ok = true → on u)) (fun u hu => ?_) fun ok => .ite (fun _ => ?_) fun hok => ?_
      · obtain ⟨hr, hon⟩ := h.activate (volumeFor t.mounts path) u
        exact ⟨trans_of R hu hr, hon⟩
      · exact .pure fun _ hu => ⟨hu.1, fun hne => absurd rfl hne⟩
      · refine .bind (Q := fun _ u => R s u ∧ on u) (fun u hu => ?_) fun _ => ?_
        · have hon := hu.2 (by simpa using hok)
          exact ⟨trans_of R hu.1 (h.toRoot u hon).1, (h.toRoot u hon).2⟩
        refine .ite (fun _ => .pure fun _ hu => ⟨hu.1, fun _ => hu.2⟩) fun _ => ?_
        refine .ite (fun _ => .pure fun _ hu => ⟨hu.1, fun _ => hu.2⟩) fun _ => ?_
        refine .bind (Q := fun _ u => R s u ∧ on u) (fun u hu => h.asked hu (.cd (parentName
          (localPath ((Option.map (fun v => (t.mounts v).path) (volumeFor t.mounts path)).getD []) path)))) fun _ => ?_
        exact .ite (fun _ => .pure fun _ hu => ⟨hu.1, fun _ => hu.2⟩) fun _ => .pure fun _ hu => ⟨hu.1, fun _ => hu.2⟩
  exact key s (refl_of R s)

theorem route (h : Passage R on) (name : Name) (parent : Bool) : Moves R (route (ε := ε) name parent) :=
  fun s => (h.routing name parent s).1

theorem routed (h : Passage R on) (name : Name) (parent : Bool) (bad : α) {op : Name → StateM ε α}
    (hop : ∀ n t, on t → R t (exec (onEngine (op n)) t).2) : Moves R (routed name parent bad op) := by
  intro s
  unfold Vfs.routed
  rw [exec_bind, exec_get]
  split
  · rename_i hact
    exact hop name s (h.idle s (by simpa using hact))
  · obtain ⟨hr, hon⟩ := h.routing name parent s
    rw [exec_bind]
    cases hloc : (exec (Vfs.route name parent) s).1 with
    | none => exact hr
    | some loc => exact trans_of R hr (hop loc _ (hon (by rw [hloc]; simp)))

theorem plainSize (h : Passage R on) (name : Name) : Moves R (plainSize (ε := ε) name) :=
  h.routed _ _ _ fun n t ht => (h.ask (.size n) t ht).1

theorem plainIsDir (h : Passage R on) (name : Name) : Moves R (plainIsDir (ε := ε) name) :=
  h.routed _ _ _ fun n t ht => (h.ask (.isDir n) t ht).1

theorem plainRead (h : Passage R on) (name : Name) (offset size : Nat) : Moves R (plainRead (ε := ε) name offset size) :=
  h.routed _ _ _ fun n t ht => (h.ask (.read n offset size) t ht).1

theorem plainWrite (h : Passage R on) (name : Name) (data : List UInt8) : Moves R (plainWrite (ε := ε) name data) :=
  h.routed _ _ _ fun n t ht => (h.ask (.write n data) t ht).1

/-! ## Permissions -/

theorem privateRead (h : Passage R on) (path : Name) (cap : Nat) : Moves R (privateRead (ε := ε) path cap) := by
  refine (h.plainSize path).bind fun n => .ite (.pure _) ((h.plainRead path 0 _).bind fun data => ?_)
  cases data with
  | none => exact .pure _
  | some data => exact .pure _

theorem checkPermission (h : Passage R on) (name : Name) (mode : UInt8) : Moves R (checkPermission (ε := ε) name mode) := by
  refine .bind .get fun s => .ite (.pure _) (h.start.bind fun _ => .bind .get fun t => ?_)
  cases normalize t.working name with
  | none => exact .pure _
  | some path =>
    refine .ite (.pure _) ((h.privateRead _ _).bind fun data => ?_)
    cases data with
    | some data => exact .pure _
    | none => exact (h.plainSize _).bind fun n => .ite (.pure _) (.pure _)

theorem checked (h : Passage R on) (name : Name) (mode : UInt8) (denied : α) {x : StateM (Space ε) α} (hx : Moves R x) :
    Moves R (checked name mode denied x) :=
  (h.checkPermission name mode).bind fun _ => .ite (.pure _) hx

/-! ## One name -/

/-- The file operations that check one right and hand the engine one request. -/
theorem single (h : Passage R on) (name : Name) (mode : UInt8) (denied bad : α) (parent : Bool) {op : Name → StateM ε α}
    (hop : ∀ n t, on t → R t (exec (onEngine (op n)) t).2) : Moves R (Vfs.checked name mode denied (Vfs.routed name parent bad op)) :=
  h.checked _ _ _ (h.routed _ _ _ hop)

theorem fsSize (h : Passage R on) (name : Name) : Moves R (fsSize (ε := ε) name) :=
  h.single _ _ _ _ _ fun n t ht => (h.ask (.size n) t ht).1

theorem fsIsDir (h : Passage R on) (name : Name) : Moves R (fsIsDir (ε := ε) name) :=
  h.single _ _ _ _ _ fun n t ht => (h.ask (.isDir n) t ht).1

theorem fsStat (h : Passage R on) (name : Name) : Moves R (fsStat (ε := ε) name) :=
  h.single _ _ _ _ _ fun n t ht => (h.ask (.stat n) t ht).1

theorem fsRead (h : Passage R on) (name : Name) (offset size : Nat) : Moves R (fsRead (ε := ε) name offset size) := by
  refine h.checked _ _ _ ((h.plainRead name offset size).bind fun data => ?_)
  cases data with
  | none => exact .pure _
  | some data => exact .pure _

theorem unprotected (h : Passage R on) (name : Name) {op : Name → StateM ε Int}
    (hop : ∀ n t, on t → R t (exec (onEngine (op n)) t).2) : Moves R (unprotected name op) :=
  .bind .get fun _ => .ite (.pure _) (h.routed _ _ _ hop)

theorem fsWrite (h : Passage R on) (name : Name) (data : List UInt8) : Moves R (fsWrite (ε := ε) name data) :=
  h.checked _ _ _ (h.plainWrite name data)

theorem fsCd (h : Passage R on) (hw : ∀ path : Name, Moves R (modify fun s : Space ε => { s with working := path })) (name : Name) :
    Moves R (fsCd (ε := ε) name) := by
  refine h.checked _ _ _ fun s => ?_
  rw [exec_bind, exec_get]
  split
  · rename_i hact
    exact (h.ask (.cd name) s (h.idle s (by simpa using hact))).1
  · refine (?_ : Moves R _) s
    cases normalize s.working name with
    | none => exact .pure _
    | some path => exact (h.fsIsDir path).bind fun _ => .ite (.pure _) ((hw path).bind fun _ => .pure _)

theorem fsGetcwd (h : Passage R on) (capacity : Nat) : Moves R (fsGetcwd (ε := ε) capacity) := by
  intro s
  unfold Vfs.fsGetcwd
  rw [exec_bind, exec_get]
  split
  · rename_i hact
    exact (h.ask (.getcwd capacity) s (h.idle s (by simpa using hact))).1
  · exact refl_of R s

theorem programSize (h : Passage R on) (name : Name) : Moves R (programSize (ε := ε) name) :=
  (h.routed _ _ _ fun n t ht => (h.ask (.execCheck n) t ht).1).bind fun _ => .ite (.pure _) (h.plainSize name)

theorem fsLoadExecutable (h : Passage R on) (name : Name) (capacity : Nat) :
    Moves R (fsLoadExecutable (ε := ε) name capacity) := by
  refine h.checked _ _ _ ((h.programSize name).bind fun n => .ite (.pure _) (.ite (.pure _) ?_))
  refine (h.plainRead name 0 _).bind fun data => ?_
  cases data with
  | none => exact .pure _
  | some data => exact .pure _

theorem anyRight (h : Passage R on) (name : Name) : Moves R (anyRight (ε := ε) name) :=
  (h.checkPermission _ _).bind fun _ => .ite (.pure _) ((h.checkPermission _ _).bind fun _ => .ite (.pure _) (h.checkPermission _ _))

theorem fsFileSize (h : Passage R on) (name : Name) : Moves R (fsFileSize (ε := ε) name) :=
  (h.anyRight name).bind fun _ => .ite (.pure _) (h.plainSize name)

theorem fsPwrite (h : Passage R on) (name : Name) (position : Nat) (bytes : List UInt8) (append : Bool) :
    Moves R (fsPwrite (ε := ε) name position bytes append) := by
  refine h.checked _ _ _ ((h.plainSize name).bind fun n => .ite (.pure _) (.ite (.pure _) ?_))
  refine (h.plainRead name 0 _).bind fun data => ?_
  cases data with
  | none => exact .pure _
  | some data => exact .ite (.pure _) ((h.plainWrite _ _).bind fun _ => .pure _)

theorem setFilePermissions (h : Passage R on) (name spec password : Name) :
    Moves R (setFilePermissions (ε := ε) name spec password) := by
  have hfound : ∀ path, Moves R (pathFound (ε := ε) path) := fun path =>
    (h.plainSize path).bind fun _ => .ite (.pure _) (h.plainIsDir path)
  have hexec : ∀ path, Moves R (makeExecutable (ε := ε) path) := by
    intro path s
    obtain ⟨hr, hon⟩ := h.routing path false s
    unfold makeExecutable
    rw [exec_bind]
    cases hloc : (exec (Vfs.route path false) s).1 with
    | none => exact hr
    | some loc => exact trans_of R hr (h.ask (.markExecutable loc) _ (hon (by rw [hloc]; simp))).1
  have hreplace : ∀ path user rights encoded data, Moves R (replaceRecord (ε := ε) path user rights spec encoded data) := by
    intro path user rights encoded data
    refine (hfound path).bind fun _ => .ite (.pure _) (.ite (.pure _) ((h.plainWrite _ _).bind fun _ => ?_))
    exact .ite (hexec path) (.pure _)
  refine h.start.bind fun _ => .bind .get fun s => ?_
  cases normalize s.working name with
  | none => exact .pure _
  | some path =>
    refine .ite (.pure _) (.ite (.pure _) (.ite (.pure _) ((h.privateRead _ _).bind fun text => ?_)))
    dsimp only
    cases lockOf path (cstr (text.getD [])) with
    | none => exact .pure _
    | some lock =>
      dsimp only
      cases newLock s.user path password lock with
      | error e => exact .pure _
      | ok encoded => exact hreplace _ _ _ _ _

/-! ## Two names -/

theorem fsCp (h : Passage R on) (source dest : Name) : Moves R (fsCp (ε := ε) source dest) := by
  refine h.checked _ _ _ (h.checked _ _ _ fun s => ?_)
  rw [exec_bind, exec_get]
  split
  · rename_i hact
    exact (h.ask (.cp source dest) s (h.idle s (by simpa using hact))).1
  · refine (?_ : Moves R _) s
    refine (h.fsSize source).bind fun n => .ite (.pure _) ((h.fsSize dest).bind fun m => .ite (.pure _) ?_)
    refine (h.fsIsDir dest).bind fun _ => .ite (.pure _) ((h.fsRead source 0 _).bind fun data => ?_)
    cases data with
    | error e => exact .pure _
    | ok data => exact .ite (.pure _) (h.fsWrite dest data)

theorem moveLoop (h : Passage R on) (src dst : Name) (rounds : Nat) (p : Name) (size : Nat) :
    Moves R (moveLoop (ε := ε) src dst rounds p size) := by
  induction rounds generalizing p size with
  | zero => exact .pure _
  | succ rounds ih =>
    unfold Vfs.moveLoop
    refine .ite (.pure _) ?_
    rcases p.span fun c => c ≠ bar ∧ c ≠ newline with ⟨start, _ | ⟨c, p⟩⟩
    · exact .pure _
    · refine .ite (.pure _) (.ite ?_ ?_)
      · refine (h.checkPermission _ _).bind fun ok => .ite (.pure _) (.ite (.pure _) ?_)
        refine (h.staged _ _ _).bind fun _ => .ite (.pure _) ((h.staged _ _ _).bind fun _ => ?_)
        exact .bind .get fun s => .ite (.pure _) ((h.staged _ _ _).bind fun _ => ih _ _)
      · exact .bind .get fun s => .ite (.pure _) ((h.staged _ _ _).bind fun _ => ih _ _)

theorem permissionsMovePrepare (h : Passage R on) (source dest : Name) :
    Moves R (permissionsMovePrepare (ε := ε) source dest) := by
  refine h.start.bind fun _ => (h.staged _ _ _).bind fun _ => .bind .get fun s => ?_
  cases normalize s.working source with
  | none => exact .pure _
  | some src =>
    cases normalize s.working dest with
    | none => exact .pure _
    | some dst =>
      refine (h.privateRead _ _).bind fun data => ?_
      cases data with
      | none => exact .pure _
      | some data => exact (h.staged _ _ _).bind fun _ => h.moveLoop _ _ _ _ _

theorem permissionsMoveCommit (h : Passage R on) : Moves R (permissionsMoveCommit (ε := ε)) :=
  .bind .get fun _ => .ite (.pure _) (h.plainWrite _ _)

theorem permissionsMoveFinish (h : Passage R on) : Moves R (permissionsMoveFinish (ε := ε)) :=
  .bind .get fun _ => .ite ((h.plainWrite _ _).bind fun _ => h.staged _ _ _) (.pure _)

theorem renameEntry (h : Passage R on) (source dst : Name) : Moves R (renameEntry (ε := ε) source dst) := by
  intro s
  obtain ⟨hr, hon⟩ := h.routing source true s
  unfold Vfs.renameEntry
  rw [exec_bind]
  cases hloc : (exec (Vfs.route source true) s).1 with
  | none => exact hr
  | some src =>
    have hask := (h.ask (.mv src dst) _ (hon (by rw [hloc]; simp))).1
    have hfinish : ∀ r : Int, Moves R (do
        if r = 0 then Vfs.permissionsMoveFinish
        return r : StateM (Space ε) Int) := fun r => .ite (h.permissionsMoveFinish.bind fun _ => .pure _) (.pure _)
    exact trans_of R (trans_of R hr hask) (hfinish _ _)

theorem moveEntry (h : Passage R on) (source dest : Name) : Moves R (moveEntry (ε := ε) source dest) := by
  refine .bind .get fun s => .ite (.pure _) ?_
  cases normalize s.working source with
  | none => exact .pure _
  | some a =>
    cases normalize s.working dest with
    | none => exact .pure _
    | some b =>
      refine .ite (.pure _) ((h.route _ _).bind fun src => .ite (.pure _) (.bind .get fun t => ?_))
      refine (h.route _ _).bind fun dst => ?_
      cases dst with
      | none => exact .pure _
      | some dst =>
        refine .bind .get fun u => .ite (.pure _) (h.permissionsMoveCommit.bind fun r => .ite (.pure _) ?_)
        exact h.renameEntry _ _

theorem fsMv (h : Passage R on) (source dest : Name) : Moves R (fsMv (ε := ε) source dest) := by
  refine h.checked _ _ _ (h.checked _ _ _ ((h.permissionsMovePrepare source dest).bind fun r => .ite (.pure _) fun s => ?_))
  rw [exec_bind, exec_get]
  split
  · rename_i hact
    exact (h.ask (.mv source dest) s (h.idle s (by simpa using hact))).1
  · exact h.moveEntry source dest s

/-! ## All volumes -/

theorem syncLoop (h : Passage R on) (volumes : List (Fin 8)) : Moves R (syncLoop (ε := ε) volumes) := by
  induction volumes with
  | nil => exact .pure _
  | cons i volumes ih =>
    have hrest : ∀ failed : Bool, Moves R (do
        let result ← Vfs.syncLoop volumes
        return if failed then -1 else result : StateM (Space ε) Int) := fun _ => ih.bind fun _ => .pure _
    refine .bind .get fun s => .ite (fun s => ?_) (hrest false)
    obtain ⟨hr, hon⟩ := h.activate (some i) s
    rw [exec_bind]
    split
    · exact trans_of R hr (hrest true _)
    · rename_i hok
      exact trans_of R (trans_of R hr (h.ask .sync _ (hon (by simpa using hok))).1) (hrest _ _)

theorem fsSync (h : Passage R on) : Moves R (fsSync (ε := ε)) := by
  intro s
  unfold Vfs.fsSync
  rw [exec_bind, exec_get]
  split
  · rename_i hact
    exact (h.ask .sync s (h.idle s (by simpa using hact))).1
  · exact h.syncLoop _ s

end Passage

end Barnix.Vfs
