import Barnix.Vfs.Matched
/-!
# Mounting on a disk layer

`fs_mount`, `fs_unmount_path`, `fs_format` and `fs_init` on a machine, and what
the other functions of the kernel do to the disk layer. They keep the active
volume matched, unless `disk_select` fails after it has selected another disk:
`fs_mount` and `fs_format` then return without saying that no volume is active.
-/

namespace Barnix.Vfs

/-! ## Where a mount selects its device -/

section
variable {ε : Type} [ListingEngine ε]

/-- The state in which `fs_mount` calls `disk_select`, if it gets that far. -/
def mountSelects (mountpoint : Name) (s : Space ε) : Option (Space ε) :=
  if s.user ≠ root then none
  else
    let started := (exec namespaceStart s).2
    match normalize started.working mountpoint with
    | none => none
    | some path =>
      if (mountSlot started.mounts path (List.finRange 8) none).isNone then none
      else if path ≠ [slash] then
        if (exec (fsIsDir path) started).1 then some (exec (fsIsDir path) started).2 else none
      else if (List.finRange 8).any fun i => (started.mounts i).used && (started.mounts i).path != [slash] then none
      else some started

/-- `fs_mount` ends before it selects anything, or goes on with `mountOn` where it does. -/
theorem fsMount_selects (device mountpoint : Name) (s : Space ε) :
    (mountSelects mountpoint s = none ∧ ((exec (fsMount device mountpoint) s).2 = s ∨
        (exec (fsMount device mountpoint) s).2 = (exec namespaceStart s).2 ∨
        ∃ path, (exec (fsMount device mountpoint) s).2 = (exec (fsIsDir path) (exec namespaceStart s).2).2)) ∨
      ∃ t path slot, mountSelects mountpoint s = some t ∧
        (t = (exec namespaceStart s).2 ∨ t = (exec (fsIsDir path) (exec namespaceStart s).2).2) ∧
        (exec (fsMount device mountpoint) s).2 = (exec (mountOn device path slot (exec namespaceStart s).2.mounts) t).2 := by
  by_cases hu : s.user = root
  swap
  · exact .inl ⟨by simp [mountSelects, hu], .inl (by simp [fsMount, hu])⟩
  generalize hs1 : (exec namespaceStart s).2 = s₁
  cases hn : normalize s₁.working mountpoint with
  | none => exact .inl ⟨by simp [mountSelects, hu, hs1, hn], .inr (.inl (by simp [fsMount, hu, hs1, hn]))⟩
  | some path =>
  cases hslot : mountSlot s₁.mounts path (List.finRange 8) none with
  | none => exact .inl ⟨by simp [mountSelects, hu, hs1, hn, hslot], .inr (.inl (by simp [fsMount, hu, hs1, hn, hslot]))⟩
  | some slot =>
  have hrun : exec (fsMount device mountpoint) s = exec (
      if path ≠ [slash] then do
        if !(← fsIsDir path) then return -1
        mountOn device path slot s₁.mounts
      else if (List.finRange 8).any fun i => (s₁.mounts i).used && (s₁.mounts i).path != [slash] then return -1
      else mountOn device path slot s₁.mounts : StateM (Space ε) Int) s₁ := by
    unfold fsMount
    simp only [exec_bind, exec_get, hu, ne_eq, not_true_eq_false, if_false, hs1, hn, hslot]
    rfl
  have hselects : mountSelects mountpoint s = (
      if path ≠ [slash] then if (exec (fsIsDir path) s₁).1 then some (exec (fsIsDir path) s₁).2 else none
      else if (List.finRange 8).any fun i => (s₁.mounts i).used && (s₁.mounts i).path != [slash] then none
      else some s₁) := by
    simp [mountSelects, hu, hs1, hn, hslot]
  rw [hrun, hselects]
  by_cases hroot : path ≠ [slash]
  · rw [if_pos hroot, if_pos hroot, exec_bind]
    cases hd : (exec (fsIsDir path) s₁).1 with
    | false => exact .inl ⟨rfl, .inr (.inr ⟨path, rfl⟩)⟩
    | true => exact .inr ⟨_, path, slot, rfl, .inr rfl, rfl⟩
  · rw [if_neg hroot, if_neg hroot]
    split
    · exact .inl ⟨rfl, .inr (.inl rfl)⟩
    · exact .inr ⟨s₁, path, slot, rfl, .inl rfl, rfl⟩

end

/-! ## On a machine -/

section
variable {δ κ α : Type} [Layer δ] {D : Driver κ} {later : δ → δ → Prop}

/-- `disk_select` goes on along `later` too. -/
structure Selecting (later : δ → δ → Prop) : Prop extends Sturdy later where
  select : ∀ raw name d, later d (exec (Layer.select raw name) d).2 ∧
    Layer.client (exec (Layer.select raw name) d).2 = Layer.client d

/-- `disk_select` fails, and yet another disk is selected. -/
def Strays (raw : Bool) (name : Name) (d : δ) : Prop :=
  (exec (Layer.select raw name) d).1 = false ∧ Layer.selection (exec (Layer.select raw name) d).2 ≠ Layer.selection d

/-- So does the engine, with a volume mounted that is the active one. -/
def Space.Strays (raw : Bool) (name : Name) (s : Space (Machine δ D)) : Prop :=
  s.engine.mounted = true ∧ s.activeVolume ≠ none ∧ Vfs.Strays raw name s.engine.disk

/-- No volume is active, so it does not matter what is selected. -/
structure Resting (later : δ → δ → Prop) (s t : Space (Machine δ D)) : Prop where
  active : t.active = true
  volume : t.activeVolume = none
  idle : Layer.client t.engine.disk = none
  later : later s.engine.disk t.engine.disk

theorem Resting.matched {s t : Space (Machine δ D)} (h : Resting later s t) : Matched t ∧ later s.engine.disk t.engine.disk := by
  refine ⟨⟨h.idle, fun hon => ?_, fun _ _ v hv => ?_⟩, h.later⟩
  · rcases hon with hon | hon
    · simp [h.active] at hon
    · exact absurd h.volume hon
  · simp [h.volume] at hv

variable [Std.Refl later] [IsTrans δ later]

theorem active_moves {s : Space (Machine δ D)} (ha : s.active = true) {x : StateM (Space (Machine δ D)) α}
    (hx : Moves SameTable x) : (exec x s).2.active = true := ((hx s).2 ha).1

/-- A selection that fails, and does not stray. -/
theorem goes_failed (h : Selecting later) {raw : Bool} {device : Name} {s : Space (Machine δ D)} (ha : s.active = true)
    (hno : ¬ s.Strays raw device) (hok : (exec (onEngine (Engine.diskSelect (ε := Machine δ D) raw device)) s).1 = false) :
    Goes later s (exec (onEngine (Engine.diskSelect (ε := Machine δ D) raw device)) s).2 := by
  intro hs
  obtain ⟨hlater, hclient⟩ := h.select raw device s.engine.disk
  -- where a volume is mounted and active the selection is the old one
  have hsel : s.engine.mounted = true → s.activeVolume ≠ none →
      Layer.selection (exec (Layer.select raw device) s.engine.disk).2 = Layer.selection s.engine.disk := by
    intro hmt hv
    by_contra hne
    exact hno ⟨hmt, hv, hok, hne⟩
  refine ⟨⟨hclient.trans hs.idle, fun hon => ⟨hclient.trans hs.idle, fun hmt => ?_⟩, fun hact hmt v hv => ?_⟩, hlater⟩
  · have hv : s.activeVolume ≠ none := by
      rcases hon with hon | hon
      · exact absurd (ha.symm.trans hon) (by simp)
      · exact hon
    exact ((hs.fit (.inr hv)).loaded hmt).trans (congrArg some (hsel hmt hv).symm)
  · have hv' : s.activeVolume = some v := hv
    exact (hsel hmt (by simp [hv'])).trans (hs.selected hact hmt v hv)

theorem goes_mountOn (h : Selecting later) {device : Name} {s : Space (Machine δ D)} (ha : s.active = true)
    (hno : ¬ s.Strays false device) (path : Name) (slot : Fin 8) (mounts : Fin 8 → Mount) :
    Goes later s (exec (mountOn device path slot mounts) s).2 := by
  intro hs
  obtain ⟨hlater, hclient⟩ := h.select false device s.engine.disk
  unfold mountOn
  rw [exec_bind]
  cases hok : (exec (onEngine (Engine.diskSelect (ε := Machine δ D) false device)) s).1 with
  | false =>
    exact goes_failed h ha hno hok hs
  | true =>
    have key : Ends (fun t => t.active = true ∧ Layer.client t.engine.disk = none ∧ later s.engine.disk t.engine.disk) (do
        let next := Engine.diskSelection (← get).engine
        modify ({ · with activeVolume := none })
        if (List.finRange 8).any fun i => (mounts i).used && i != slot && (mounts i).disk.id == next.id &&
            (mounts i).disk.offset == next.offset then return -1
        if !(← onEngine (ε := Machine δ D) Engine.extInit) then return -1
        modify fun s => { s with
          mounts := Function.update s.mounts slot ⟨true, next, path⟩
          activeVolume := some slot
          working := if path = [slash] then [slash] else s.working }
        return 0 : StateM (Space (Machine δ D)) Int) fun _ t => Matched t ∧ later s.engine.disk t.engine.disk := by
      refine .bind (Q := fun u t => u = t ∧ t.active = true ∧ Layer.client t.engine.disk = none ∧
        later s.engine.disk t.engine.disk) (fun t ht => ⟨rfl, ht⟩) fun u => ?_
      refine .bind (Q := fun _ t => Resting later s t ∧ Layer.selection t.engine.disk = Layer.selection u.engine.disk)
        (fun t ht => ?_) fun _ => .ite (fun _ => .pure fun t ht => ht.1.matched) fun _ => ?_
      · obtain ⟨rfl, hact, hidle, hl⟩ := ht
        exact ⟨⟨hact, rfl, hidle, hl⟩, rfl⟩
      refine .bind (Q := fun _ t => Resting later s t ∧ Fit t.engine ∧
        Layer.selection t.engine.disk = Layer.selection u.engine.disk) (fun t ht => ?_) fun ok => ?_
      · have hinit := worked_extInit h.toSturdy ht.1.idle
        exact ⟨⟨ht.1.active, ht.1.volume, hinit.fit.idle, trans_of later ht.1.later hinit.later⟩, hinit.fit,
          hinit.selection.trans ht.2⟩
      refine .ite (fun _ => .pure fun t ht => ht.1.matched) fun _ => .bind (Q := fun _ t => Matched t ∧
        later s.engine.disk t.engine.disk) (fun t ht => ?_) fun _ => .pure fun _ ht => ht
      refine ⟨⟨ht.1.idle, fun _ => ht.2.1, fun _ _ v hv => ?_⟩, ht.1.later⟩
      obtain rfl := Option.some.inj hv
      show _ = (Function.update t.mounts slot _ slot).disk
      rw [Function.update_self]
      exact ht.2.2
    rw [if_neg (by simp)]
    exact key _ ⟨ha, hclient.trans hs.idle, hlater⟩

theorem goes_fsMount (h : Selecting later) (device mountpoint : Name) {s : Space (Machine δ D)}
    (hno : ∀ t, mountSelects mountpoint s = some t → ¬ t.Strays false device) :
    Goes later s (exec (fsMount device mountpoint) s).2 := by
  have hpassage := passage_goes (D := D) h.toSturdy
  have hstart := hpassage.start s
  have hdir : ∀ path, Goes later s (exec (fsIsDir path) (exec namespaceStart s).2).2 :=
    fun path => trans_of (Goes later) hstart (hpassage.fsIsDir path _)
  have hactive := active_namespaceStart s
  rcases fsMount_selects device mountpoint s with ⟨-, he | he | ⟨path, he⟩⟩ | ⟨t, path, slot, hselects, ht, he⟩
  · rw [he]
    exact refl_of (Goes later) s
  · rw [he]
    exact hstart
  · rw [he]
    exact hdir path
  · rw [he]
    have hgo : Goes later s t ∧ t.active = true := by
      rcases ht with rfl | rfl
      · exact ⟨hstart, hactive⟩
      · exact ⟨hdir path, active_moves hactive (sameTable_fsIsDir path)⟩
    exact trans_of (Goes later) hgo.1 (goes_mountOn h hgo.2 (hno t hselects) path slot _)

theorem resting_forget (h : Sturdy later) (v : Fin 8) {s t : Space (Machine δ D)} (ht : t.active = true)
    (hidle : Layer.client t.engine.disk = none) (hlater : later s.engine.disk t.engine.disk) :
    Resting later s (exec (forget v) t).2 := by
  obtain ⟨hd, hclient⟩ := h.deselect t.engine.disk
  exact ⟨ht, rfl, hclient.trans hidle, trans_of later hlater hd⟩

theorem goes_release (h : Sturdy later) (v : Fin 8) {s : Space (Machine δ D)} (ha : s.active = true) :
    Goes later s (exec (release v (s.mounts v).disk) s).2 := by
  intro hs
  have hforget : Ends (fun t => t.active = true ∧ Matched t ∧ later s.engine.disk t.engine.disk) (forget v)
      fun _ t => Matched t ∧ later s.engine.disk t.engine.disk :=
    fun t ht => (resting_forget h v ht.1 ht.2.1.idle ht.2.2).matched
  have key : Ends (Choosing later v s) (do
      if ← onEngine (ε := Machine δ D) Engine.diskPresent then
        if !(← activate (some v)) then return -1
        if (← onEngine (ε := Machine δ D) Engine.extSync) ≠ 0 then return -1
        forget v
      else forget v : StateM (Space (Machine δ D)) Int) fun _ t => Matched t ∧ later s.engine.disk t.engine.disk := by
    refine .bind (Q := fun _ t => Resting later s t) (fun t ht => ?_) fun present => .ite (fun _ => ?_) fun _ => ?_
    · have hp := h.present t.engine.disk
      exact ⟨ht.active.trans ha, ht.volume, hp.client.trans ht.idle, trans_of later ht.later hp.later⟩
    · refine .bind (Q := fun ok t => (t.active = true ∧ Matched t ∧ later s.engine.disk t.engine.disk) ∧ (ok = true → t.On))
        (fun t ht => ?_) fun ok => .ite (fun _ => .pure fun t ht => ht.1.2) fun hok => ?_
      · obtain ⟨hgo, hon⟩ := goes_activate h (some v) t
        obtain ⟨hm, hl⟩ := hgo ht.matched.1
        exact ⟨⟨active_moves ht.active (sameTable_activate _), hm, trans_of later ht.later hl⟩, hon⟩
      refine .bind (Q := fun _ t => t.active = true ∧ Matched t ∧ later s.engine.disk t.engine.disk) (fun t ht => ?_) fun _ => ?_
      · obtain ⟨hm, hl⟩ := ((passage_goes h).ask .sync t (ht.2 (by simpa using hok))).1 ht.1.2.1
        exact ⟨ht.1.1, hm, trans_of later ht.1.2.2 hl⟩
      · exact .ite (fun _ => .pure fun t ht => ht.2) fun _ => hforget
    · exact .weaken (fun t ht => ⟨ht.active, ht.matched⟩) hforget
  exact key _ (choosing_restore h v hs)

theorem goes_fsUnmountPath (h : Sturdy later) (name : Option Name) (s : Space (Machine δ D)) :
    Goes later s (exec (fsUnmountPath name) s).2 := by
  by_cases hu : s.user = root
  swap
  · have hrun : (exec (fsUnmountPath name) s).2 = s := by simp [fsUnmountPath, hu]
    rw [hrun]
    exact refl_of (Goes later) s
  have hstart := (passage_goes (D := D) h).start s
  have hactive := active_namespaceStart s
  rcases fsUnmountPath_cases name hu with he | ⟨v, -, -, he⟩
  · rw [he]
    exact hstart
  · rw [he]
    exact trans_of (Goes later) hstart (goes_release h v hactive)

theorem goes_fsFormat (h : Selecting later) (device : Name) {s : Space (Machine δ D)}
    (hno : s.user = root → ¬ (exec namespaceStart s).2.Strays true device) :
    Goes later s (exec (fsFormat device) s).2 := by
  by_cases hu : s.user = root
  swap
  · have hrun : (exec (fsFormat device) s).2 = s := by simp [fsFormat, hu]
    rw [hrun]
    exact refl_of (Goes later) s
  have hstart := (passage_goes (D := D) h.toSturdy).start s
  have hactive := active_namespaceStart s
  have hno := hno hu
  refine trans_of (Goes later) hstart ?_
  unfold fsFormat
  rw [exec_bind, exec_get, if_neg (by simp [hu]), exec_bind]
  generalize (exec namespaceStart s).2 = t at hactive hno ⊢
  intro ht
  obtain ⟨hlater, hclient⟩ := h.select true device t.engine.disk
  rw [exec_bind]
  cases hok : (exec (onEngine (Engine.diskSelect (ε := Machine δ D) true device)) t).1 with
  | false =>
    exact goes_failed h hactive hno hok ht
  | true =>
    rw [if_neg (by simp), exec_bind, exec_get, exec_bind]
    have hrest : Resting later t { (exec (onEngine (Engine.diskSelect (ε := Machine δ D) true device)) t).2 with
        activeVolume := none } := ⟨hactive, rfl, hclient.trans ht.idle, hlater⟩
    split
    · exact hrest.matched
    · obtain ⟨hformat, hidle⟩ := later_formatSelected (D := D) h.toSturdy hrest.idle
      rw [exec_bind]
      have hend : Resting later t { (exec (onEngine (Engine.diskSelect (ε := Machine δ D) true device)) t).2 with
          activeVolume := none
          engine := (exec Machine.formatSelected (exec (onEngine (Engine.diskSelect (ε := Machine δ D) true device)) t).2.engine).2 } :=
        ⟨hactive, rfl, hidle, trans_of later hlater hformat⟩
      split <;> exact hend.matched

theorem goes_fsInit (h : Sturdy later) (s : Space (Machine δ D)) : Goes later s (exec fsInit s).2 := by
  intro hs
  have hinit := worked_extInit h (m := s.engine) hs.idle
  exact ⟨⟨hinit.fit.idle, fun _ => hinit.fit, fun hact => by simp [fsInit, onEngine] at hact⟩, hinit.later⟩

/-! ## The kernel's calls -/

inductive LayerCommand where
  | select (raw : Bool) (name : Name)
  | restore (selection : DiskSelection)
  | command (c : DiskCommand)

def LayerCommand.Answer : LayerCommand → Type
  | select _ _ => Bool
  | restore _ => Unit
  | command c => c.Answer

def LayerCommand.serve : (c : LayerCommand) → StateM δ c.Answer
  | select raw name => Layer.select raw name
  | restore selection => Layer.restore selection
  | command c => Layer.command c

/-- A function that uses the disk layer and puts the selection back: `disk_device_count`,
`disk_list`, `fs_lsblk`, `fs_mount_info`, `fs_fdisk`. -/
def aside (x : Client LayerCommand LayerCommand.Answer Unit) : StateM (Space (Machine δ D)) Unit := do
  let previous := Engine.diskSelection (← get).engine
  onEngine (Machine.onDisk (x.run LayerCommand.serve))
  onEngine (Engine.diskRestore (ε := Machine δ D) previous)

/-- What the kernel does with the namespace. `start` is the beginning of `fs_mount_info` and
`fs_fdisk`, `login` is another user. -/
inductive Act where
  | call (c : Call)
  | mount (device mountpoint : Name)
  | unmount (name : Option Name)
  | format (device : Name)
  | init
  | start
  | aside (x : Client LayerCommand LayerCommand.Answer Unit)
  | login (user : Name)

def Act.run : Act → StateM (Space (Machine δ D)) Unit
  | call c => do let _ ← c.run
  | mount device mountpoint => do let _ ← fsMount device mountpoint
  | unmount name => do let _ ← fsUnmountPath name
  | format device => do let _ ← fsFormat device
  | init => do let _ ← fsInit
  | start => namespaceStart
  | aside x => Vfs.aside x
  | login user => modify ({ · with user := user })

/-- The act is a mount or a format whose `disk_select` fails after it has selected another disk,
while a volume is mounted and active. -/
def Act.Slips (act : Act) (s : Space (Machine δ D)) : Prop :=
  match act with
  | mount device mountpoint => ∃ t, mountSelects mountpoint s = some t ∧ t.Strays false device
  | format device => s.user = root ∧ (exec namespaceStart s).2.Strays true device
  | call _ | unmount _ | init | start | aside _ | login _ => False

theorem goes_aside (h : Selecting later) (x : Client LayerCommand LayerCommand.Answer Unit) :
    Moves (Goes (D := D) later) (aside x) := by
  intro s hs
  -- commands for nobody keep it that they are for nobody
  let R : δ → δ → Prop := fun d e => Layer.client d = none → later d e ∧ Layer.client e = none
  have hrefl : Std.Refl R := ⟨fun d hd => ⟨refl_of later d, hd⟩⟩
  have htrans : IsTrans δ R := ⟨fun _ _ _ hd he hc => ⟨trans_of later (hd hc).1 (he (hd hc).2).1, (he (hd hc).2).2⟩⟩
  have hserve : ∀ c, True → Moves R (LayerCommand.serve (δ := δ) c) := by
    intro c _ d hd
    cases c with
    | select raw name => exact ⟨(h.select raw name d).1, (h.select raw name d).2.trans hd⟩
    | restore selection => exact ⟨(h.restore selection d).1, (h.restore selection d).2.2.trans hd⟩
    | command c =>
      have hc := h.command c d (.inr (.inl hd))
      exact ⟨hc.later, hc.client.trans hd⟩
  obtain ⟨hlater, hidle⟩ := Client.moves_run hserve (Client.only_true x) s.engine.disk hs.idle
  obtain ⟨hback, hsel, hclient⟩ := h.restore (Layer.selection s.engine.disk) (exec (x.run LayerCommand.serve) s.engine.disk).2
  have hwork : Layer.client (exec (Layer.restore (Layer.selection s.engine.disk))
      (exec (x.run LayerCommand.serve) s.engine.disk).2).2 = none := hclient.trans hidle
  refine ⟨⟨hwork, fun hon => ⟨hwork, fun hmt => ?_⟩, fun hact hmt v hv => ?_⟩, trans_of later hlater hback⟩
  · exact ((hs.fit hon).loaded hmt).trans (congrArg some hsel.symm)
  · exact hsel.trans (hs.selected hact hmt v hv)

/-- Every act that does not slip keeps the active volume matched. -/
theorem goes_act (h : Selecting later) {act : Act} {s : Space (Machine δ D)} (hno : ¬ act.Slips s) :
    Goes later s (exec act.run s).2 := by
  cases act with
  | call c => exact goes_call h.toSturdy c s
  | mount device mountpoint => exact goes_fsMount h device mountpoint fun t ht hstray => hno ⟨t, ht, hstray⟩
  | unmount name => exact goes_fsUnmountPath h.toSturdy name s
  | format device => exact goes_fsFormat h device fun hu hstray => hno ⟨hu, hstray⟩
  | init => exact goes_fsInit h.toSturdy s
  | start => exact (passage_goes h.toSturdy).start s
  | aside x => exact goes_aside h x s
  | login user => exact fun hs => ⟨⟨hs.idle, hs.fit, hs.selected⟩, refl_of later _⟩

end

end Barnix.Vfs
