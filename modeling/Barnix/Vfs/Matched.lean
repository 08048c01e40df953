import Barnix.Vfs.Calls
import Barnix.Vfs.Machine
import Barnix.Vfs.Table
/-!
# The volume that is active

The namespace trusts that its active volume is the one the engine has loaded, and
that the disk layer still has it selected. Every file operation keeps that. A
mount or a format keeps it unless it fails after it has selected another disk.
-/

namespace Barnix.Vfs

variable {δ κ α : Type} [Layer δ] {D : Driver κ}

/-- `later` is kept, and nothing else is selected. -/
structure Unmoved (later : δ → δ → Prop) (d e : δ) : Prop where
  later : later d e
  selection : Layer.selection e = Layer.selection d
  client : Layer.client e = Layer.client d

/-- The functions of the layer go on along `later`, if commands are given for nobody or for
the volume that is selected. -/
structure Sturdy (later : δ → δ → Prop) : Prop where
  present : Moves (Unmoved later) (Layer.present (δ := δ))
  command : ∀ c d, c.Reads ∨ Layer.client d = none ∨ Layer.client d = some (Layer.selection d) →
    Unmoved later d (exec (Layer.command c) d).2
  serve : ∀ v d, later d (exec (Layer.serve v) d).2 ∧
    Layer.selection (exec (Layer.serve v) d).2 = Layer.selection d ∧ Layer.client (exec (Layer.serve v) d).2 = v
  restore : ∀ selection d, later d (exec (Layer.restore selection) d).2 ∧
    Layer.selection (exec (Layer.restore selection) d).2 = selection ∧
    Layer.client (exec (Layer.restore selection) d).2 = Layer.client d
  deselect : ∀ d : δ, later d (exec Layer.deselect d).2 ∧ Layer.client (exec Layer.deselect d).2 = Layer.client d

section
variable {later : δ → δ → Prop} [Std.Refl later] [IsTrans δ later]

instance : Std.Refl (Unmoved later) := ⟨fun d => ⟨refl_of later d, rfl, rfl⟩⟩

instance : IsTrans δ (Unmoved later) := ⟨fun _ _ _ h h' =>
  ⟨trans_of later h.later h'.later, h'.selection.trans h.selection, h'.client.trans h.client⟩⟩

/-- A client that only reads, or whose commands are given for nobody. -/
theorem Sturdy.reads (h : Sturdy later) {x : DiskClient α} (hx : x.Only DiskCommand.Reads) :
    Moves (Unmoved later) (x.run Layer.command) :=
  Client.moves_run (fun c hc d => h.command c d (.inl hc)) hx

/-- Commands are given for nobody, or for the volume that is selected. -/
def Giving (d : δ) : Prop := Layer.client d = none ∨ Layer.client d = some (Layer.selection d)

/-- `Unmoved`, while commands are given so. -/
def UnmovedGiving (later : δ → δ → Prop) (d e : δ) : Prop := Giving d → Unmoved later d e

instance : Std.Refl (UnmovedGiving later) := ⟨fun d _ => refl_of (Unmoved later) d⟩

instance : IsTrans δ (UnmovedGiving later) := ⟨fun d e f h h' hd =>
  trans_of (Unmoved later) (h hd) (h' (by rw [Giving, (h hd).client, (h hd).selection]; exact hd))⟩

theorem Sturdy.run (h : Sturdy later) (x : DiskClient α) : Moves (UnmovedGiving later) (x.run Layer.command) := by
  have hserve : ∀ c, True → Moves (UnmovedGiving later) (Layer.command (δ := δ) c) := fun c _ d hd => h.command c d (.inr hd)
  exact Client.moves_run hserve (Client.only_true x)

/-! ## The engine -/

/-- No command is being given, and what is mounted was loaded from what is selected. -/
structure Fit (m : Machine δ D) : Prop where
  idle : Layer.client m.disk = none
  loaded : m.mounted = true → m.loaded = some (Layer.selection m.disk)

/-- The engine has worked on the disk that is selected. -/
structure Worked (later : δ → δ → Prop) (m n : Machine δ D) : Prop where
  fit : Fit n
  later : later m.disk n.disk
  selection : Layer.selection n.disk = Layer.selection m.disk

theorem Worked.trans {m n o : Machine δ D} (h : Worked later m n) (h' : Worked later n o) : Worked later m o :=
  ⟨h'.fit, trans_of later h.later h'.later, h'.selection.trans h.selection⟩

theorem Fit.worked {m : Machine δ D} (h : Fit m) : Worked later m m := ⟨h, refl_of later _, rfl⟩

theorem worked_ready (h : Sturdy later) {m : Machine δ D} (hm : Fit m) : Worked later m (exec Machine.engineReady m).2 := by
  have hp := h.present m.disk
  unfold Machine.engineReady
  rw [exec_bind, exec_get]
  split
  swap
  · exact hm.worked
  rw [exec_bind]
  have hstay : Worked later m { m with disk := (exec Layer.present m.disk).2 } :=
    ⟨⟨hp.client.trans hm.idle, fun hmt => (hm.loaded hmt).trans (congrArg some hp.selection.symm)⟩, hp.later, hp.selection⟩
  split
  · exact ⟨⟨hstay.fit.idle, fun hmt => by simp at hmt⟩, hp.later, hp.selection⟩
  · exact hstay

/-- A ready engine is mounted. -/
theorem mounted_ready (m : Machine δ D) : (exec Machine.engineReady m).1 = (exec Machine.engineReady m).2.mounted := by
  unfold Machine.engineReady
  rw [exec_bind, exec_get]
  split
  · rw [exec_bind]
    split <;> rfl
  · rfl

/-- Looking whether an engine is ready mounts nothing. -/
theorem mounted_of_ready (m : Machine δ D) (h : (exec Machine.engineReady m).2.mounted = true) : m.mounted = true := by
  unfold Machine.engineReady at h
  rw [exec_bind, exec_get] at h
  split at h
  · assumption
  · exact h

theorem mounted_of_perform (request : Request α) (m : Machine δ D) (h : (exec (Machine.perform request) m).2.mounted = true) :
    m.mounted = true := by
  refine mounted_of_ready m ?_
  unfold Machine.perform at h
  rw [exec_bind] at h
  split at h
  · exact h
  · exact (Bool.and_eq_true_iff.1 h).1

/-- Without its device no engine is ready. -/
theorem ready_absent {m : Machine δ D} (h : (exec Layer.present m.disk).1 = false) : (exec Machine.engineReady m).1 = false := by
  have habsent : (exec (Machine.onDisk (D := D) (Layer.present (δ := δ))) m).1 = false := h
  unfold Machine.engineReady
  rw [exec_bind, exec_get]
  split
  · rw [exec_bind, habsent]
    rfl
  · rename_i hmt
    exact Bool.eq_false_iff.2 hmt

/-- Nothing is loaded when the first command is refused. -/
theorem extInit_absent {m : Machine δ D} (h : (exec (Layer.command (.read 2 1)) m.disk).1 = (none : Option (List Sector))) :
    (exec Machine.extInit m).1 = false := by
  have hread : (exec (Machine.onDisk (D := D) (Layer.command (δ := δ) (.read 2 1)))
      { m with mounted := false, loaded := none }).1 = (none : Option (List Sector)) := h
  unfold Machine.extInit
  rw [exec_bind, exec_bind]
  exact congrArg (fun first => (exec (Machine.loadVolume first) _).1) hread

theorem worked_perform (h : Sturdy later) {m : Machine δ D} (hm : Fit m) (request : Request α) :
    Worked later m (exec (Machine.perform request) m).2 := by
  have hready := worked_ready h hm
  unfold Machine.perform
  rw [exec_bind]
  split
  · exact hready
  rename_i hok
  rw [Bool.not_eq_true', Bool.not_eq_false, mounted_ready] at hok
  generalize (exec Machine.engineReady m).2 = n at hready hok
  refine hready.trans ?_
  -- the commands are given for the selection the volume was loaded from
  have hloaded := hready.fit.loaded hok
  obtain ⟨hserve, hsel, hclient⟩ := h.serve n.loaded n.disk
  have hrun := h.run (D.perform request n.image) (exec (Layer.serve n.loaded) n.disk).2
    (.inr (by rw [hclient, hsel, hloaded]))
  obtain ⟨hend, hsel', hclient'⟩ := h.serve none (exec ((D.perform request n.image).run Layer.command)
    (exec (Layer.serve n.loaded) n.disk).2).2
  refine ⟨⟨hclient', fun hmt => ?_⟩, trans_of later (trans_of later hserve hrun.later) hend,
    hsel'.trans (hrun.selection.trans hsel)⟩
  exact hloaded.trans (congrArg some (hsel'.trans (hrun.selection.trans hsel)).symm)

theorem worked_loadVolume (h : Sturdy later) {m : Machine δ D} (hm : Fit m) (first : Option (List Sector)) :
    Worked later m (exec (Machine.loadVolume first) m).2 := by
  unfold Machine.loadVolume
  split
  · rename_i low rest
    have hload := h.reads (D.load_reads low m.image) m.disk
    exact ⟨⟨hload.client.trans hm.idle, fun hmt => if_pos hmt⟩, hload.later, hload.selection⟩
  · exact hm.worked

theorem worked_extInit (h : Sturdy later) {m : Machine δ D} (hm : Layer.client m.disk = none) :
    Worked later m (exec Machine.extInit m).2 := by
  have hread := h.command (.read 2 1) m.disk (.inl trivial)
  have hfirst : Worked later m { m with mounted := false, loaded := none, disk := (exec (Layer.command (.read 2 1)) m.disk).2 } :=
    ⟨⟨hread.client.trans hm, fun hmt => by simp at hmt⟩, hread.later, hread.selection⟩
  exact hfirst.trans (worked_loadVolume h hfirst.fit _)

theorem later_formatSelected (h : Sturdy later) {m : Machine δ D} (hm : Layer.client m.disk = none) :
    later m.disk (exec Machine.formatSelected m).2.disk ∧ Layer.client (exec Machine.formatSelected m).2.disk = none := by
  unfold Machine.formatSelected
  rw [exec_bind, exec_get]
  split
  · exact ⟨refl_of later _, hm⟩
  · have hrun := h.run (D.format m.image) m.disk (.inl hm)
    exact ⟨hrun.later, hrun.client.trans hm⟩

/-! ## The namespace -/

/-- The engine may be asked. -/
def Space.On (s : Space (Machine δ D)) : Prop := s.active = false ∨ s.activeVolume ≠ none

/-- The engine fits where it may be asked, and the volume that is active is the one the disk
layer has selected, if the engine has it mounted. -/
structure Matched (s : Space (Machine δ D)) : Prop where
  idle : Layer.client s.engine.disk = none
  fit : s.On → Fit s.engine
  selected : s.active = true → s.engine.mounted = true → ∀ v, s.activeVolume = some v →
    Layer.selection s.engine.disk = (s.mounts v).disk

/-- A matched state goes on to a matched state. -/
def Goes (later : δ → δ → Prop) (s t : Space (Machine δ D)) : Prop :=
  Matched s → Matched t ∧ later s.engine.disk t.engine.disk

instance : Std.Refl (Goes (D := D) later) := ⟨fun _ h => ⟨h, refl_of later _⟩⟩

instance : IsTrans (Space (Machine δ D)) (Goes later) := ⟨fun _ _ _ h h' hs =>
  ⟨(h' (h hs).1).1, trans_of later (h hs).2 (h' (h hs).1).2⟩⟩

/-- The engine has worked, and nothing else has changed. -/
theorem Matched.worked {s : Space (Machine δ D)} (h : Matched s) {m : Machine δ D} (hm : Worked later s.engine m)
    (hmt : m.mounted = true → s.engine.mounted = true) : Matched { s with engine := m } :=
  ⟨hm.fit.idle, fun _ => hm.fit, fun ha hmt' v hv => hm.selection.trans (h.selected ha (hmt hmt') v hv)⟩

theorem goes_onEngine {x : StateM (Machine δ D) α} (hx : ∀ m, Fit m → Worked later m (exec x m).2)
    (hmt : ∀ m, (exec x m).2.mounted = true → m.mounted = true) {s : Space (Machine δ D)} (hs : s.On) :
    Goes later s (exec (onEngine x) s).2 :=
  fun h => ⟨h.worked (hx s.engine (h.fit hs)) (hmt s.engine), (hx s.engine (h.fit hs)).later⟩

/-- The disk of volume `v` is selected, and no volume is active. -/
structure Choosing (later : δ → δ → Prop) (v : Fin 8) (s t : Space (Machine δ D)) : Prop where
  active : t.active = s.active
  mounts : t.mounts = s.mounts
  volume : t.activeVolume = none
  idle : Layer.client t.engine.disk = none
  later : later s.engine.disk t.engine.disk
  selection : Layer.selection t.engine.disk = (s.mounts v).disk

theorem Choosing.goes {v : Fin 8} {s t : Space (Machine δ D)} (h : Choosing later v s t) (hfit : Fit t.engine) :
    Matched t ∧ later s.engine.disk t.engine.disk :=
  ⟨⟨h.idle, fun _ => hfit, fun _ _ w hw => by simp [h.volume] at hw⟩, h.later⟩

theorem choosing_restore (h : Sturdy later) (v : Fin 8) {s : Space (Machine δ D)} (hs : Matched s) :
    Choosing later v s { s with
      activeVolume := none
      engine := { s.engine with disk := (exec (Layer.restore (s.mounts v).disk) s.engine.disk).2 } } := by
  obtain ⟨hrestore, hsel, hclient⟩ := h.restore (s.mounts v).disk s.engine.disk
  exact ⟨rfl, rfl, rfl, hclient.trans hs.idle, hrestore, hsel⟩

/-- After the volume is loaded from `v`'s disk, it is the active one. -/
theorem goes_activate (h : Sturdy later) (index : Option (Fin 8)) (s : Space (Machine δ D)) :
    Goes later s (exec (activate index) s).2 ∧ ((exec (activate index) s).1 = true → (exec (activate index) s).2.On) := by
  cases index with
  | none => exact ⟨refl_of (Goes later) s, fun he => by simp [activate] at he⟩
  | some v =>
    by_cases hv : s.activeVolume = some v
    · have hrun : exec (activate (some v)) s = exec (onEngine Engine.engineReady) s := by
        simp [activate, hv]
      rw [hrun]
      exact ⟨goes_onEngine (fun _ => worked_ready h) mounted_of_ready (.inr (by simp [hv])), fun _ => .inr (by simp [onEngine, hv])⟩
    constructor
    · intro hs
      have key : Ends (Choosing later v s) (do
          if !(← onEngine (ε := Machine δ D) Engine.extInit) then return false
          modify ({ · with activeVolume := some v })
          onEngine Engine.engineReady : StateM (Space (Machine δ D)) Bool)
          fun _ t => Matched t ∧ later s.engine.disk t.engine.disk := by
        refine .bind (Q := fun _ t => Choosing later v s t ∧ Fit t.engine) (fun t ht => ?_) fun ok => ?_
        · have hinit := worked_extInit h ht.idle
          exact ⟨⟨ht.active, ht.mounts, ht.volume, hinit.fit.idle, trans_of later ht.later hinit.later,
            hinit.selection.trans ht.selection⟩, hinit.fit⟩
        refine .ite (fun _ => .pure fun t ht => ht.1.goes ht.2) fun _ => ?_
        refine .bind (Q := fun _ t => (Matched t ∧ later s.engine.disk t.engine.disk) ∧ t.On) (fun t ht => ?_) fun _ => fun t ht => ?_
        · refine ⟨⟨⟨ht.1.idle, fun _ => ht.2, fun _ _ w hw => ?_⟩, ht.1.later⟩, .inr (by simp)⟩
          obtain rfl := Option.some.inj hw
          exact ht.1.selection.trans (by rw [← ht.1.mounts]; rfl)
        · have hready := goes_onEngine (fun _ => worked_ready h) mounted_of_ready ht.2 ht.1.1
          exact ⟨hready.1, trans_of later ht.1.2 hready.2⟩
      have hrun : exec (activate (some v)) s = exec (do
          if !(← onEngine (ε := Machine δ D) Engine.extInit) then return false
          modify ({ · with activeVolume := some v })
          onEngine Engine.engineReady : StateM (Space (Machine δ D)) Bool) { s with
            activeVolume := none
            engine := { s.engine with disk := (exec (Layer.restore (s.mounts v).disk) s.engine.disk).2 } } := by
        unfold activate
        rw [exec_bind, exec_get, if_pos hv]
        rfl
      rw [hrun]
      exact key _ (choosing_restore h v hs)
    · intro hok
      refine .inr ?_
      unfold activate at hok ⊢
      rw [exec_bind, exec_get, if_pos hv, exec_bind, exec_bind, exec_bind] at hok ⊢
      split at hok
      · simp at hok
      · rename_i hinit
        rw [if_neg hinit]
        simp [onEngine]

/-- The namespace moves along `Goes`. -/
theorem passage_goes (h : Sturdy later) : Passage (Goes (D := D) later) Space.On where
  start := by
    intro s hs
    cases ha : s.active with
    | true =>
      have hrun : exec namespaceStart s = ((), s) := by simp [namespaceStart, ha]
      rw [hrun]
      exact ⟨hs, refl_of later _⟩
    | false =>
      have hready := worked_ready h (hs.fit (.inl ha))
      have hcwd := worked_perform h hready.fit (.getcwd pathCap)
      have hboth := hready.trans hcwd
      unfold namespaceStart
      rw [exec_bind, exec_get, if_neg (by simp [ha])]
      refine ⟨⟨hcwd.fit.idle, fun _ => hcwd.fit, fun _ _ v hv => ?_⟩, hboth.later⟩
      -- volume 0 is what was selected
      simp only [exec_bind, exec_modify, exec_get] at hv ⊢
      split at hv
      · obtain rfl := Option.some.inj hv
        exact hcwd.selection
      · simp at hv
  activate := goes_activate h
  toRoot s hs := ⟨fun hm => ⟨⟨hm.idle, fun _ => ⟨hm.idle, (hm.fit hs).loaded⟩, hm.selected⟩, refl_of later _⟩, hs⟩
  ask request s hs := by
    rw [Machine.ask_eq]
    exact ⟨goes_onEngine (fun _ hm => worked_perform h hm request) (mounted_of_perform request) hs, hs⟩
  idle _ ha := .inl ha
  staged _ _ _ _ := fun hs => ⟨⟨hs.idle, hs.fit, hs.selected⟩, refl_of later _⟩

theorem goes_working (path : Name) : Moves (Goes (D := D) later)
    (modify fun s : Space (Machine δ D) => { s with working := path }) :=
  .modify fun _ hs => ⟨⟨hs.idle, hs.fit, hs.selected⟩, refl_of later _⟩

/-- Every file operation keeps the active volume matched. -/
theorem goes_call (h : Sturdy later) (call : Call) : Moves (Goes (D := D) later) call.run :=
  (passage_goes h).call goes_working call

end

end Barnix.Vfs
