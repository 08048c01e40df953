import Barnix.Vfs.Passages
/-!
# Calls, and dead volumes

The file operations as one list of calls, each with whether it reports success.
A call about a name whose volume can no longer be activated reports a failure,
whatever engine there is.
-/

namespace Barnix.Vfs

inductive Call where
  | size (name : Name)
  | fileSize (name : Name)
  | execCheck (name : Name)
  | loadExecutable (name : Name) (capacity : Nat)
  | stat (name : Name)
  | isDir (name : Name)
  | read (name : Name) (offset count : Nat)
  | getdents (name : Name) (capacity position : Nat)
  | cd (name : Name)
  | touch (name : Name)
  | mkdir (name : Name)
  | write (name : Name) (data : List UInt8)
  | append (name : Name) (data : List UInt8)
  | pwrite (name : Name) (position : Nat) (bytes : List UInt8) (atEnd : Bool)
  | chmod (name spec password : Name)
  | rm (name : Name)
  | rmdir (name : Name)
  | cp (source dest : Name)
  | mv (source dest : Name)
  | sync

variable {ε α : Type} [ListingEngine ε]

/-- Runs a call; true when it reports success. -/
def Call.run : Call → StateM (Space ε) Bool
  | size name => return 0 ≤ (← fsSize name)
  | fileSize name => return 0 ≤ (← fsFileSize name)
  | execCheck name => return (← fsExecCheck name) == 0
  | loadExecutable name capacity => return (← fsLoadExecutable name capacity).toBool
  | stat name => return (← fsStat name).toBool
  | isDir name => fsIsDir name
  | read name offset count => return (← fsRead name offset count).toBool
  | getdents name capacity position => return 0 ≤ (← fsGetdents name capacity position).1
  | cd name => return (← fsCd name) == 0
  | touch name => return (← fsTouch name) == 0
  | mkdir name => return (← fsMkdir name) == 0
  | write name data => return (← fsWrite name data) == 0
  | append name data => return (← fsAppend name data) == 0
  | pwrite name position bytes atEnd => return 0 ≤ (← fsPwrite name position bytes atEnd)
  | chmod name spec password => return (← setFilePermissions name spec password) == 0
  | rm name => return (← fsRm name) == 0
  | rmdir name => return (← fsRmdir name) == 0
  | cp source dest => return (← fsCp source dest) == 0
  | mv source dest => return (← fsMv source dest) == 0
  | sync => return (← fsSync) == 0

/-- A relation that the namespace keeps, and that lets the working directory change, is kept
by every call. -/
theorem Passage.call {R : Space ε → Space ε → Prop} [Std.Refl R] [IsTrans (Space ε) R] {on : Space ε → Prop} (h : Passage R on)
    (hw : ∀ path : Name, Moves R (modify fun s : Space ε => { s with working := path })) (call : Call) :
    Moves R (call.run (ε := ε)) := by
  cases call with
  | size name => exact (h.fsSize name).bind fun _ => .pure _
  | fileSize name => exact (h.fsFileSize name).bind fun _ => .pure _
  | execCheck name => exact (h.single _ _ _ _ _ fun n t ht => (h.ask (.execCheck n) t ht).1).bind fun _ => .pure _
  | loadExecutable name capacity => exact (h.fsLoadExecutable name capacity).bind fun _ => .pure _
  | stat name => exact (h.fsStat name).bind fun _ => .pure _
  | isDir name => exact h.fsIsDir name
  | read name offset count => exact (h.fsRead name offset count).bind fun _ => .pure _
  | getdents name capacity position =>
    exact (h.single _ _ _ _ _ fun n t ht => (h.ask (.getdents n capacity position) t ht).1).bind fun _ => .pure _
  | cd name => exact (h.fsCd hw name).bind fun _ => .pure _
  | touch name => exact (h.single _ _ _ _ _ fun n t ht => (h.ask (.touch n) t ht).1).bind fun _ => .pure _
  | mkdir name => exact (h.single _ _ _ _ _ fun n t ht => (h.ask (.mkdir n) t ht).1).bind fun _ => .pure _
  | write name data => exact (h.fsWrite name data).bind fun _ => .pure _
  | append name data => exact (h.single _ _ _ _ _ fun n t ht => (h.ask (.append n data) t ht).1).bind fun _ => .pure _
  | pwrite name position bytes atEnd => exact (h.fsPwrite name position bytes atEnd).bind fun _ => .pure _
  | chmod name spec password => exact (h.setFilePermissions name spec password).bind fun _ => .pure _
  | rm name =>
    exact (h.checked _ _ _ (h.unprotected _ fun n t ht => (h.ask (.rm n) t ht).1)).bind fun _ => .pure _
  | rmdir name =>
    exact (h.checked _ _ _ (h.unprotected _ fun n t ht => (h.ask (.rmdir n) t ht).1)).bind fun _ => .pure _
  | cp source dest => exact (h.fsCp source dest).bind fun _ => .pure _
  | mv source dest => exact (h.fsMv source dest).bind fun _ => .pure _
  | sync => exact h.fsSync.bind fun _ => .pure _

/-! ## Dead volumes -/

/-- `D` stays true. -/
def Keeps (D : Space ε → Prop) (s t : Space ε) : Prop := D s → D t

instance (D : Space ε → Prop) : Std.Refl (Keeps D) := ⟨fun _ h => h⟩

instance (D : Space ε → Prop) : IsTrans (Space ε) (Keeps D) := ⟨fun _ _ _ h h' hd => h' (h hd)⟩

/-- While `D` is true, the table and the working directory are these, and volume `v` cannot
be activated. -/
structure Dead (v : Fin 8) (mounts : Fin 8 → Mount) (working : Name) (D on : Space ε → Prop) : Prop where
  passage : Passage (Keeps D) on
  table : ∀ s, D s → s.active = true ∧ s.mounts = mounts ∧ s.working = working
  fails : ∀ s, D s → (exec (activate (some v)) s).1 = false

/-- The name leads to volume `v`. -/
def Leads (mounts : Fin 8 → Mount) (working : Name) (v : Fin 8) (name : Name) : Prop :=
  ∃ path, normalize working name = some path ∧ volumeFor mounts path = some v

/-- The call is about volume `v`. -/
def Call.About (mounts : Fin 8 → Mount) (working : Name) (v : Fin 8) : Call → Prop
  | cp source dest | mv source dest => Leads mounts working v source ∨ Leads mounts working v dest
  | sync => (mounts v).used = true
  | size name | fileSize name | execCheck name | loadExecutable name _ | stat name | isDir name | read name _ _
  | getdents name _ _ | cd name | touch name | mkdir name | write name _ | append name _ | pwrite name _ _ _
  | chmod name _ _ | rm name | rmdir name => Leads mounts working v name

namespace Dead

variable {v : Fin 8} {mounts : Fin 8 → Mount} {working : Name} {D on : Space ε → Prop} {s : Space ε} {name : Name}

theorem route (h : Dead v mounts working D on) (hn : Leads mounts working v name) (parent : Bool) (hd : D s) :
    (exec (route name parent) s).1 = none := by
  obtain ⟨path, hpath, hvol⟩ := hn
  obtain ⟨-, hm, hw⟩ := h.table s hd
  have hfail := h.fails s hd
  simp [Vfs.route, hm, hw, hpath, hvol, hfail]

theorem routed (h : Dead v mounts working D on) (hn : Leads mounts working v name) (parent : Bool) (bad : α)
    (op : Name → StateM ε α) (hd : D s) : (exec (routed name parent bad op) s).1 = bad := by
  simp [Vfs.routed, (h.table s hd).1, h.route hn parent hd]

/-- A checked operation is denied, or does what it does in a state where the volume is dead. -/
theorem checked (h : Dead v mounts working D on) (n : Name) (mode : UInt8) (denied : α) (x : StateM (Space ε) α) {P : α → Prop}
    (hdenied : P denied) (hx : ∀ t, D t → P (exec x t).1) (hd : D s) : P (exec (checked n mode denied x) s).1 := by
  unfold Vfs.checked
  rw [exec_bind]
  split
  · exact hdenied
  · exact hx _ (h.passage.checkPermission n mode s hd)

theorem single (h : Dead v mounts working D on) (hn : Leads mounts working v name) (mode : UInt8) (denied bad : α) (parent : Bool)
    (op : Name → StateM ε α) (hd : D s) :
    (exec (Vfs.checked name mode denied (Vfs.routed name parent bad op)) s).1 = denied ∨
      (exec (Vfs.checked name mode denied (Vfs.routed name parent bad op)) s).1 = bad :=
  h.checked name mode denied _ (P := fun a => a = denied ∨ a = bad) (.inl rfl)
    (fun _ ht => .inr (h.routed hn parent bad op ht)) hd

theorem fsSize (h : Dead v mounts working D on) (hn : Leads mounts working v name) (hd : D s) :
    (exec (fsSize name) s).1 < 0 := by
  rcases h.single hn modeR (-13) (-1) false Engine.extSize hd with hr | hr <;>
  · unfold Vfs.fsSize plainSize
    rw [hr]
    decide

theorem fsIsDir (h : Dead v mounts working D on) (hn : Leads mounts working v name) (hd : D s) :
    (exec (fsIsDir name) s).1 = false := by
  rcases h.single hn modeX false false false Engine.extIsDir hd with hr | hr <;> exact hr

theorem fsWrite (h : Dead v mounts working D on) (hn : Leads mounts working v name) (data : List UInt8) (hd : D s) :
    (exec (fsWrite name data) s).1 ≠ 0 := by
  rcases h.single hn modeW (-13) (-1) true (fun n => Engine.extWrite n data) hd with hr | hr <;>
  · unfold Vfs.fsWrite plainWrite
    rw [hr]
    decide

theorem plainSize (h : Dead v mounts working D on) (hn : Leads mounts working v name) (hd : D s) :
    (exec (plainSize name) s).1 = -1 := h.routed hn false (-1) Engine.extSize hd

theorem fsLoadExecutable (h : Dead v mounts working D on) (hn : Leads mounts working v name) (capacity : Nat) (hd : D s) :
    (exec (fsLoadExecutable name capacity) s).1.toBool = false := by
  refine h.checked name modeX _ _ rfl (P := fun r : Except Int _ => r.toBool = false) (fun t ht => ?_) hd
  have hcheck : (exec (programSize name) t).1 = -1 := by
    simp [programSize, h.routed hn false (-1) Engine.extExecCheck ht]
  rw [exec_bind, hcheck]
  rfl

theorem fsRead (h : Dead v mounts working D on) (hn : Leads mounts working v name) (offset count : Nat) (hd : D s) :
    (exec (fsRead name offset count) s).1.toBool = false := by
  refine h.checked name modeR _ _ rfl (P := fun r : Except Int _ => r.toBool = false) (fun t ht => ?_) hd
  have hread : (exec (plainRead name offset count) t).1 = none :=
    h.routed hn false none (fun n => Engine.extRead n offset count) ht
  rw [exec_bind, hread]
  rfl

theorem fsStat (h : Dead v mounts working D on) (hn : Leads mounts working v name) (hd : D s) :
    (exec (fsStat name) s).1.toBool = false := by
  refine h.checked name modeR _ _ rfl (P := fun r : Except Int _ => r.toBool = false) (fun t ht => ?_) hd
  have hbad : ∀ r : Except Int (Nat × Nat), r = .error (-1) → r.toBool = false := fun r hr => by rw [hr]; rfl
  exact hbad _ (h.routed hn false (Except.error (-1) : Except Int (Nat × Nat)) _ ht)

theorem fsCd (h : Dead v mounts working D on) (hn : Leads mounts working v name) (hd : D s) : (exec (fsCd name) s).1 ≠ 0 := by
  refine h.checked name modeX _ _ (by decide) (P := fun r => r ≠ 0) (fun t ht => ?_) hd
  obtain ⟨hact, hm, hw⟩ := h.table t ht
  obtain ⟨path, hpath, hvol⟩ := hn
  -- the path is absolute and leads where the name does
  obtain ⟨ps, rfl, hps⟩ := normalize_spec hpath
  have hdir : (exec (Vfs.fsIsDir (render ps)) t).1 = false := h.fsIsDir ⟨_, normalize_render working hps, hvol⟩ ht
  simp [hact, hw, hpath, hdir]

theorem fsPwrite (h : Dead v mounts working D on) (hn : Leads mounts working v name) (position : Nat) (bytes : List UInt8)
    (atEnd : Bool) (hd : D s) : (exec (fsPwrite name position bytes atEnd) s).1 < 0 := by
  refine h.checked name modeW _ _ (by decide) (P := fun r => r < 0) (fun t ht => ?_) hd
  simp [h.plainSize hn ht]

theorem unprotected (h : Dead v mounts working D on) (hn : Leads mounts working v name) (op : Name → StateM ε Int) (hd : D s) :
    (exec (Vfs.checked name modeW (-13) (Vfs.unprotected name op)) s).1 ≠ 0 := by
  refine h.checked name modeW _ _ (by decide) (P := fun r => r ≠ 0) (fun t ht => ?_) hd
  unfold Vfs.unprotected
  rw [exec_bind, exec_get]
  split
  · exact (by decide : (-1 : Int) ≠ 0)
  · rw [h.routed hn true (-1) op ht]
    decide

theorem fsFileSize (h : Dead v mounts working D on) (hn : Leads mounts working v name) (hd : D s) :
    (exec (fsFileSize name) s).1 < 0 := by
  unfold Vfs.fsFileSize
  rw [exec_bind]
  split
  · exact (by decide : (-13 : Int) < 0)
  · rw [h.plainSize hn (h.passage.anyRight name s hd)]
    decide

theorem setFilePermissions (h : Dead v mounts working D on) (hn : Leads mounts working v name) (spec password : Name) (hd : D s) :
    (exec (setFilePermissions name spec password) s).1 ≠ 0 := by
  obtain ⟨path, hpath, hvol⟩ := hn
  obtain ⟨ps, rfl, hps⟩ := normalize_spec hpath
  have hleads : Leads mounts working v (render ps) := ⟨_, normalize_render working hps, hvol⟩
  have hfound : ∀ t, D t → (exec (pathFound (render ps)) t).1 = false := by
    intro t ht
    have hsize := h.plainSize hleads ht
    have hdir : (exec (plainIsDir (render ps)) (exec (Vfs.plainSize (render ps)) t).2).1 = false :=
      h.routed hleads false false Engine.extIsDir (h.passage.plainSize _ t ht)
    simp [pathFound, hsize, hdir]
  have hwrong : ∀ r : Int, r ≠ 0 → Ends D (Pure.pure r : StateM (Space ε) Int) fun r _ => r ≠ 0 := fun r hr => .pure fun _ _ => hr
  have key : Ends D (Vfs.setFilePermissions name spec password) fun r _ => r ≠ 0 := by
    refine .bind (.of_moves h.passage.start fun _ _ hk ht => hk ht) fun _ => ?_
    refine .bind (.get (Q := fun a t => D t ∧ a.working = working) fun t ht => ⟨ht, (h.table t ht).2.2⟩) fun t => ?_
    rintro u ⟨hu, hw⟩
    rw [hw, hpath]
    refine (?_ : Ends D _ fun (r : Int) _ => r ≠ 0) u hu
    refine .ite (fun _ => hwrong _ (by decide)) fun _ => .ite (fun _ => hwrong _ (by decide)) fun _ => ?_
    refine .ite (fun _ => hwrong _ (by decide)) fun _ => ?_
    refine .bind (.of_moves (h.passage.privateRead _ _) fun _ _ hk ht => hk ht) fun text => ?_
    dsimp only
    cases lockOf (render ps) (cstr (text.getD [])) with
    | none => exact hwrong _ (by decide)
    | some lock =>
      dsimp only
      cases hlock : newLock t.user (render ps) password lock with
      | error e =>
        refine hwrong _ fun he => ?_
        subst he
        unfold newLock at hlock
        repeat' split at hlock
        all_goals simp at hlock
      | ok encoded =>
        intro w hd'
        dsimp only
        unfold replaceRecord
        rw [exec_bind, hfound w hd', if_pos (by decide)]
        exact (by decide : (-1 : Int) ≠ 0)
  exact key s hd

/-! ## Two names, and all volumes -/

theorem fsCp (h : Dead v mounts working D on) {source dest : Name}
    (hn : Leads mounts working v source ∨ Leads mounts working v dest) (hd : D s) : (exec (fsCp source dest) s).1 ≠ 0 := by
  refine h.checked source modeR _ _ (by decide) (P := fun r => r ≠ 0) (fun t ht => ?_) hd
  refine h.checked dest modeW _ _ (by decide) (P := fun r => r ≠ 0) (fun u hu => ?_) ht
  rw [exec_bind, exec_get, if_neg (by simp [(h.table u hu).1])]
  have hmove : ∀ {β : Type} {x : StateM (Space ε) β}, Moves (Keeps D) x → Ends D x fun _ => D :=
    fun hx => .of_moves hx fun _ _ hk ht => hk ht
  have hstop : Ends D (Pure.pure (-1) : StateM (Space ε) Int) fun r _ => r ≠ 0 := .pure fun _ _ => by decide
  rcases hn with hn | hn
  · rw [exec_bind, if_pos (h.fsSize hn hu)]
    exact (by decide : (-1 : Int) ≠ 0)
  · refine (?_ : Ends D _ fun (r : Int) _ => r ≠ 0) u hu
    refine .bind (hmove (h.passage.fsSize source)) fun n => .ite (fun _ => hstop) fun _ => ?_
    refine .bind (hmove (h.passage.fsSize dest)) fun m => .ite (fun _ => hstop) fun _ => ?_
    refine .bind (hmove (h.passage.fsIsDir dest)) fun _ => .ite (fun _ => hstop) fun _ => ?_
    refine .bind (hmove (h.passage.fsRead source 0 n.toNat)) fun data => ?_
    cases data with
    | error e => exact hstop
    | ok data => exact .ite (fun _ => hstop) fun _ => fun w hw => h.fsWrite hn data hw

theorem fsMv (h : Dead v mounts working D on) {source dest : Name}
    (hn : Leads mounts working v source ∨ Leads mounts working v dest) (hd : D s) : (exec (fsMv source dest) s).1 ≠ 0 := by
  refine h.checked source modeW _ _ (by decide) (P := fun r => r ≠ 0) (fun t ht => ?_) hd
  refine h.checked dest modeW _ _ (by decide) (P := fun r => r ≠ 0) (fun u hu => ?_) ht
  have hu := h.passage.permissionsMovePrepare source dest u hu
  rw [exec_bind]
  split
  · exact (by decide : (-13 : Int) ≠ 0)
  generalize (exec (permissionsMovePrepare source dest) u).2 = w at hu
  obtain ⟨hact, hm, hw⟩ := h.table w hu
  rw [exec_bind, exec_get, if_neg (by simp [hact]), moveEntry, exec_bind, exec_get]
  have hstop : ∀ y : Space ε, (exec (Pure.pure (-1) : StateM (Space ε) Int) y).1 ≠ 0 := fun _ => (by decide : (-1 : Int) ≠ 0)
  split
  · exact hstop _
  rw [hm, hw]
  cases ha : normalize working source with
  | none => exact hstop _
  | some a =>
    cases hb : normalize working dest with
    | none => exact hstop _
    | some b =>
      dsimp only
      split
      · exact hstop _
      rename_i hsame
      simp only [ne_eq, not_not] at hsame
      -- both names lead to the volume, if one of them does
      have hsource : Leads mounts working v source := by
        rcases hn with hn | ⟨path, hpath, hvol⟩
        · exact hn
        · obtain rfl := Option.some.inj (hb.symm.trans hpath)
          exact ⟨a, ha, hsame.trans hvol⟩
      rw [exec_bind, h.route hsource true hu, if_pos rfl]
      exact hstop _

theorem syncLoop (h : Dead v mounts working D on) (hused : (mounts v).used = true) (volumes : List (Fin 8)) (hv : v ∈ volumes)
    (hd : D s) : (exec (syncLoop volumes) s).1 ≠ 0 := by
  induction volumes generalizing s with
  | nil => simp at hv
  | cons i volumes ih =>
    have hm := (h.table s hd).2.1
    have hrest : ∀ (failed : Bool) t, D t → (failed = true ∨ v ∈ volumes) → (exec (do
        let result ← Vfs.syncLoop volumes
        return if failed then -1 else result : StateM (Space ε) Int) t).1 ≠ 0 := by
      intro failed t ht hor
      cases failed with
      | true => exact (by decide : (-1 : Int) ≠ 0)
      | false => exact ih (by simpa using hor) ht
    unfold Vfs.syncLoop
    rw [exec_bind, exec_get]
    split
    · rw [exec_bind]
      have hact := (h.passage.activate (some i) s).1 hd
      split
      · exact hrest true _ hact (.inl rfl)
      · rename_i hok
        have hne : v ≠ i := by
          rintro rfl
          simp [h.fails s hd] at hok
        have hon := (h.passage.activate (some i) s).2 (by simpa using hok)
        exact hrest _ _ ((h.passage.ask .sync _ hon).1 hact) (.inr (by simpa [hne] using hv))
    · rename_i hunused
      have hne : v ≠ i := by
        rintro rfl
        exact hunused (by rw [hm]; exact hused)
      exact hrest false _ hd (.inr (by simpa [hne] using hv))

/-- A call about a dead volume reports a failure. -/
theorem call (h : Dead v mounts working D on) {call : Call} (habout : call.About mounts working v) (hd : D s) :
    (exec call.run s).1 = false := by
  cases call with
  | size name => simpa [Call.run] using h.fsSize habout hd
  | fileSize name => simpa [Call.run] using h.fsFileSize habout hd
  | execCheck name =>
    rcases h.single habout modeX (-13) (-1) false Engine.extExecCheck hd with hr | hr <;>
    · simp only [Call.run, fsExecCheck, exec_bind, exec_pure, hr]
      rfl
  | loadExecutable name capacity => simpa [Call.run] using h.fsLoadExecutable habout capacity hd
  | stat name => simpa [Call.run] using h.fsStat habout hd
  | isDir name => exact h.fsIsDir habout hd
  | read name offset count => simpa [Call.run] using h.fsRead habout offset count hd
  | getdents name capacity position =>
    rcases h.single habout modeR (-13, [], position) (-1, [], position) false
      (fun n => ListingEngine.extGetdents n capacity position) hd with hr | hr <;>
    · simp only [Call.run, fsGetdents, exec_bind, exec_pure, hr]
      rfl
  | cd name => simpa [Call.run] using h.fsCd habout hd
  | touch name =>
    rcases h.single habout modeW (-13) (-1) true Engine.extTouch hd with hr | hr <;>
    · simp only [Call.run, fsTouch, exec_bind, exec_pure, hr]
      rfl
  | mkdir name =>
    rcases h.single habout modeW (-13) (-1) true Engine.extMkdir hd with hr | hr <;>
    · simp only [Call.run, fsMkdir, exec_bind, exec_pure, hr]
      rfl
  | write name data => simpa [Call.run] using h.fsWrite habout data hd
  | append name data =>
    rcases h.single habout modeW (-13) (-1) true (fun n => Engine.extAppend n data) hd with hr | hr <;>
    · simp only [Call.run, fsAppend, exec_bind, exec_pure, hr]
      rfl
  | pwrite name position bytes atEnd => simpa [Call.run] using h.fsPwrite habout position bytes atEnd hd
  | chmod name spec password => simpa [Call.run] using h.setFilePermissions habout spec password hd
  | rm name => simpa [Call.run, fsRm] using h.unprotected habout Engine.extRm hd
  | rmdir name => simpa [Call.run, fsRmdir] using h.unprotected habout Engine.extRmdir hd
  | cp source dest => simpa [Call.run] using h.fsCp habout hd
  | mv source dest => simpa [Call.run] using h.fsMv habout hd
  | sync =>
    have hsync : (exec Vfs.fsSync s).1 ≠ 0 := by
      unfold Vfs.fsSync
      rw [exec_bind, exec_get, if_neg (by simp [(h.table s hd).1])]
      exact h.syncLoop habout _ (by simp) hd
    simpa [Call.run] using hsync

end Dead

end Barnix.Vfs
