import Barnix.Vfs.Mounting
/-!
# Selections that were made

Whatever is mounted was selected once: the selections in the table, the one that
is loaded and the one of the disk layer are all selections that the layer knows.
-/

namespace Barnix.Vfs

variable {δ κ α : Type} [Layer δ] {D : Driver κ} {known : δ → DiskSelection → Prop} {tidy : δ → Prop}

/-- What is known stays known, and what is tidy stays tidy. -/
structure Recalls (known : δ → DiskSelection → Prop) (tidy : δ → Prop) (d e : δ) : Prop where
  known : ∀ selection, known d selection → known e selection
  tidy : tidy d → tidy e

instance : Std.Refl (Recalls known tidy) := ⟨fun _ => ⟨fun _ h => h, fun h => h⟩⟩

instance : IsTrans δ (Recalls known tidy) := ⟨fun _ _ _ h h' => ⟨fun x hx => h'.known x (h.known x hx), fun ht => h'.tidy (h.tidy ht)⟩⟩

/-- Nothing else is selected either. -/
structure Still (known : δ → DiskSelection → Prop) (tidy : δ → Prop) (d e : δ) : Prop extends Recalls known tidy d e where
  selection : Layer.selection e = Layer.selection d

instance : Std.Refl (Still known tidy) := ⟨fun d => ⟨refl_of (Recalls known tidy) d, rfl⟩⟩

instance : IsTrans δ (Still known tidy) := ⟨fun _ _ _ h h' =>
  ⟨trans_of (Recalls known tidy) h.toRecalls h'.toRecalls, h'.selection.trans h.selection⟩⟩

/-- A layer that knows what it selects. Commands are given for what is known. -/
structure Remembers (known : δ → DiskSelection → Prop) (tidy : δ → Prop) : Prop where
  none : ∀ d, known d noDisk
  present : Moves (Still known tidy) (Layer.present (δ := δ))
  command : ∀ c, Moves (Still known tidy) (Layer.command (δ := δ) c)
  serve : ∀ v d, (∀ selection, v = some selection → known d selection) → Still known tidy d (exec (Layer.serve v) d).2
  restore : ∀ selection d, Recalls known tidy d (exec (Layer.restore selection) d).2 ∧
    Layer.selection (exec (Layer.restore selection) d).2 = selection
  select : ∀ raw name d, Recalls known tidy d (exec (Layer.select raw name) d).2 ∧
    (known d (Layer.selection d) → known (exec (Layer.select raw name) d).2 (Layer.selection (exec (Layer.select raw name) d).2))
  deselect : ∀ d, Recalls known tidy d (exec Layer.deselect d).2 ∧ Layer.selection (exec Layer.deselect d).2 = noDisk

theorem Remembers.run (h : Remembers known tidy) (x : DiskClient α) : Moves (Still known tidy) (x.run Layer.command) :=
  Client.moves_run (fun c _ => h.command c) (Client.only_true x)

/-! ## The engine -/

/-- What is selected, and what is loaded, is known. -/
structure Known (known : δ → DiskSelection → Prop) (tidy : δ → Prop) (m : Machine δ D) : Prop where
  tidy : tidy m.disk
  selected : known m.disk (Layer.selection m.disk)
  loaded : ∀ selection, m.loaded = some selection → known m.disk selection

/-- The engine keeps what is known. -/
def Tells (known : δ → DiskSelection → Prop) (tidy : δ → Prop) (m n : Machine δ D) : Prop :=
  Known known tidy m → Known known tidy n ∧ ∀ selection, known m.disk selection → known n.disk selection

instance : Std.Refl (Tells (D := D) known tidy) := ⟨fun _ h => ⟨h, fun _ hx => hx⟩⟩

instance : IsTrans (Machine δ D) (Tells known tidy) := ⟨fun _ _ _ h h' hm =>
  ⟨(h' (h hm).1).1, fun x hx => (h' (h hm).1).2 x ((h hm).2 x hx)⟩⟩

theorem tells_onDisk {x : StateM δ α} (hx : Moves (Still known tidy) x) : Moves (Tells (D := D) known tidy) (Machine.onDisk x) := by
  intro m hm
  have hs := hx m.disk
  refine ⟨⟨hs.tidy hm.tidy, ?_, fun selection hl => hs.known _ (hm.loaded selection hl)⟩, hs.known⟩
  have hsel := hs.known _ hm.selected
  rw [← hs.selection] at hsel
  exact hsel

/-- The rest of the engine's data may be anything. -/
theorem tells_modify {f : Machine δ D → Machine δ D} (hd : ∀ m, (f m).disk = m.disk)
    (hl : ∀ m, (f m).loaded = m.loaded ∨ (f m).loaded = none ∨ (f m).loaded = some (Layer.selection m.disk)) :
    Moves (Tells known tidy) (modify f) := by
  refine .modify fun m hm => ?_
  have hdisk := hd m
  refine ⟨⟨by rw [hdisk]; exact hm.tidy, by rw [hdisk]; exact hm.selected, fun selection hs => ?_⟩, fun x hx => by rw [hdisk]; exact hx⟩
  rw [hdisk]
  rcases hl m with he | he | he <;> rw [he] at hs
  · exact hm.loaded selection hs
  · simp at hs
  · obtain rfl := Option.some.inj hs
    exact hm.selected

theorem tells_ready (h : Remembers known tidy) : Moves (Tells (D := D) known tidy) Machine.engineReady := by
  have hlast : Moves (Tells (D := D) known tidy) (do return (← get).mounted : StateM (Machine δ D) Bool) :=
    .bind .get fun _ => .pure _
  refine .bind .get fun m => .ite ((tells_onDisk h.present).bind fun _ => .ite ?_ hlast) hlast
  exact .bind (tells_modify (fun _ => rfl) fun _ => .inl rfl) fun _ => hlast

theorem tells_perform (h : Remembers known tidy) (request : Request α) :
    Moves (Tells (D := D) known tidy) (Machine.perform request) := by
  refine (tells_ready h).bind fun _ => .ite (.pure _) fun m hm => ?_
  have hserve : Tells known tidy m (exec (Machine.onDisk (Layer.serve m.loaded)) m).2 := by
    have hs := h.serve m.loaded m.disk hm.loaded
    refine fun _ => ⟨⟨hs.tidy hm.tidy, ?_, fun selection hl => hs.known _ (hm.loaded selection hl)⟩, hs.known⟩
    have hsel := hs.known _ hm.selected
    rw [← hs.selection] at hsel
    exact hsel
  have hnobody : Moves (Still known tidy) (Layer.serve (δ := δ) none) := fun d => h.serve none d fun x hx => by simp at hx
  rw [exec_bind, exec_get, exec_bind]
  refine trans_of (Tells known tidy) hserve ?_ hm
  refine (?_ : Moves (Tells known tidy) _) _
  refine (tells_onDisk (h.run _)).bind fun result => (tells_onDisk hnobody).bind fun _ => ?_
  exact .bind (tells_modify (fun _ => rfl) fun _ => .inl rfl) fun _ => .pure _

theorem tells_extInit (h : Remembers known tidy) : Moves (Tells (D := D) known tidy) Machine.extInit := by
  refine .bind (tells_modify (fun _ => rfl) fun _ => .inr (.inl rfl)) fun _ => (tells_onDisk (h.command _)).bind fun first => ?_
  change Option (List Sector) at first
  rcases first with _ | _ | ⟨low, rest⟩
  · exact .pure _
  · exact .pure _
  · refine .bind .get fun m => (tells_onDisk (h.run _)).bind fun result => .bind (tells_modify (fun _ => rfl) fun m => ?_) fun _ => .pure _
    -- a volume that was not loaded leaves nothing loaded
    cases result.2 with
    | true => exact .inr (.inr rfl)
    | false => exact .inr (.inl rfl)

theorem tells_formatSelected (h : Remembers known tidy) : Moves (Tells (D := D) known tidy) Machine.formatSelected := by
  refine .bind .get fun m => .ite (.pure _) (.bind (tells_modify (fun _ => rfl) fun _ => .inl rfl) fun _ => ?_)
  refine (tells_onDisk (h.run _)).bind fun result => ?_
  exact .bind (tells_modify (fun _ => rfl) fun _ => .inl rfl) fun _ => .pure _

/-! ## The namespace -/

structure Recorded (known : δ → DiskSelection → Prop) (tidy : δ → Prop) (s : Space (Machine δ D)) : Prop where
  engine : Known known tidy s.engine
  table : ∀ v, known s.engine.disk (s.mounts v).disk

def Records (known : δ → DiskSelection → Prop) (tidy : δ → Prop) (s t : Space (Machine δ D)) : Prop :=
  Recorded known tidy s → Recorded known tidy t

instance : Std.Refl (Records (D := D) known tidy) := ⟨fun _ h => h⟩

instance : IsTrans (Space (Machine δ D)) (Records known tidy) := ⟨fun _ _ _ h h' hs => h' (h hs)⟩

theorem records_onEngine {x : StateM (Machine δ D) α} (hx : Moves (Tells known tidy) x) : Moves (Records known tidy) (onEngine x) :=
  fun s hs => ⟨(hx s.engine hs.engine).1, fun v => (hx s.engine hs.engine).2 _ (hs.table v)⟩

/-- Neither the engine nor the table changes. -/
theorem records_modify {f : Space (Machine δ D) → Space (Machine δ D)} (he : ∀ s, (f s).engine = s.engine)
    (hm : ∀ s, (f s).mounts = s.mounts) : Moves (Records known tidy) (modify f) :=
  .modify fun s hs => ⟨by rw [he]; exact hs.engine, fun v => by rw [he, hm]; exact hs.table v⟩

/-- The disk of a volume is selected. -/
theorem records_restore (h : Remembers known tidy) (v : Fin 8) (s : Space (Machine δ D)) :
    Records known tidy s (exec (onEngine (Engine.diskRestore (ε := Machine δ D) (s.mounts v).disk)) s).2 := by
  intro hs
  obtain ⟨hrecalls, hsel⟩ := h.restore (s.mounts v).disk s.engine.disk
  refine ⟨⟨hrecalls.tidy hs.engine.tidy, ?_, fun x hx => hrecalls.known x (hs.engine.loaded x hx)⟩,
    fun w => hrecalls.known _ (hs.table w)⟩
  show known _ (Layer.selection (exec (Layer.restore (s.mounts v).disk) s.engine.disk).2)
  rw [hsel]
  exact hrecalls.known _ (hs.table v)

theorem records_activate (h : Remembers known tidy) (index : Option (Fin 8)) :
    Moves (Records (D := D) known tidy) (activate index) := by
  cases index with
  | none => exact .pure _
  | some v =>
    intro s
    unfold activate
    rw [exec_bind, exec_get]
    have hready : Moves (Records (D := D) known tidy) (onEngine Engine.engineReady) := records_onEngine (tells_ready h)
    split
    · rw [exec_bind]
      refine trans_of (Records known tidy) (records_restore h v s) ?_
      refine (?_ : Moves (Records known tidy) _) _
      refine .bind (records_modify (fun _ => rfl) fun _ => rfl) fun _ => ?_
      refine (records_onEngine (tells_extInit h)).bind fun ok => .ite (.pure _) ?_
      exact .bind (records_modify (fun _ => rfl) fun _ => rfl) fun _ => hready
    · exact hready s

theorem passage_records (h : Remembers known tidy) : Passage (Records (D := D) known tidy) fun _ => True where
  start := by
    have hready : Moves (Records (D := D) known tidy) (onEngine Engine.engineReady) := records_onEngine (tells_ready h)
    have hcwd : Moves (Records (D := D) known tidy) (onEngine (Engine.extGetcwd pathCap)) :=
      records_onEngine (tells_perform h (.getcwd pathCap))
    intro s hs
    unfold namespaceStart
    rw [exec_bind, exec_get]
    split
    · exact hs
    have hcwd := hcwd _ (hready s hs)
    refine ⟨hcwd.engine, fun v => ?_⟩
    simp only [exec_bind, exec_modify, exec_get]
    -- volume 0 is what is selected
    split
    · have hmid := (hready s hs).engine
      exact (tells_perform h (.getcwd pathCap) _ hmid).2 _ hmid.selected
    · exact h.none _
  activate index s := ⟨records_activate h index s, fun _ => trivial⟩
  toRoot s _ := ⟨fun hs => ⟨⟨hs.engine.tidy, hs.engine.selected, hs.engine.loaded⟩, hs.table⟩, trivial⟩
  ask request s _ := by
    rw [Machine.ask_eq]
    exact ⟨records_onEngine (tells_perform h request) s, trivial⟩
  idle _ _ := trivial
  staged _ _ _ := records_modify (fun _ => rfl) fun _ => rfl

/-! ## Mounting -/

/-- A selection, whether it fails or not. -/
theorem records_select (h : Remembers known tidy) (raw : Bool) (device : Name) :
    Moves (Records (D := D) known tidy) (onEngine (Engine.diskSelect raw device)) := by
  intro s hs
  obtain ⟨hrecalls, hsel⟩ := h.select raw device s.engine.disk
  exact ⟨⟨hrecalls.tidy hs.engine.tidy, hsel hs.engine.selected, fun x hx => hrecalls.known x (hs.engine.loaded x hx)⟩,
    fun v => hrecalls.known _ (hs.table v)⟩

theorem records_mountOn (h : Remembers known tidy) (device path : Name) (slot : Fin 8) (mounts : Fin 8 → Mount) :
    Moves (Records (D := D) known tidy) (mountOn device path slot mounts) := by
  refine (records_select h false device).bind fun _ => .ite (.pure _) ?_
  intro s hs
  have key : Ends (fun t => Recorded known tidy t ∧ known t.engine.disk (Layer.selection s.engine.disk)) (do
      modify fun t : Space (Machine δ D) => { t with activeVolume := none }
      if (List.finRange 8).any fun i => (mounts i).used && i != slot && (mounts i).disk.id == (Layer.selection s.engine.disk).id &&
          (mounts i).disk.offset == (Layer.selection s.engine.disk).offset then return -1
      if !(← onEngine (ε := Machine δ D) Engine.extInit) then return -1
      modify fun t => { t with
        mounts := Function.update t.mounts slot ⟨true, Layer.selection s.engine.disk, path⟩
        activeVolume := some slot
        working := if path = [slash] then [slash] else t.working }
      return 0 : StateM (Space (Machine δ D)) Int) fun _ t => Recorded known tidy t := by
    refine .bind (Q := fun _ t => Recorded known tidy t ∧ known t.engine.disk (Layer.selection s.engine.disk)) (fun t ht => ?_) fun _ => ?_
    · exact ⟨⟨ht.1.engine, ht.1.table⟩, ht.2⟩
    refine .ite (fun _ => .pure fun t ht => ht.1) fun _ => ?_
    refine .bind (Q := fun _ t => Recorded known tidy t ∧ known t.engine.disk (Layer.selection s.engine.disk)) (fun t ht => ?_) fun ok => ?_
    · obtain ⟨hknown, hall⟩ := tells_extInit h t.engine ht.1.engine
      exact ⟨⟨hknown, fun v => hall _ (ht.1.table v)⟩, hall _ ht.2⟩
    refine .ite (fun _ => .pure fun t ht => ht.1) fun _ => .bind (Q := fun _ t => Recorded known tidy t) (fun t ht => ?_) fun _ => .pure fun _ ht => ht
    refine ⟨ht.1.engine, fun v => ?_⟩
    show known t.engine.disk (Function.update t.mounts slot _ v).disk
    by_cases hv : v = slot
    · rw [hv, Function.update_self]
      exact ht.2
    · rw [Function.update_of_ne hv]
      exact ht.1.table v
  exact key s ⟨hs, hs.engine.selected⟩

theorem records_fsMount (h : Remembers known tidy) (device mountpoint : Name) :
    Moves (Records (D := D) known tidy) (fsMount device mountpoint) := by
  intro s
  have hstart := (passage_records (D := D) h).start s
  have hdir : ∀ path, Records known tidy s (exec (fsIsDir path) (exec namespaceStart s).2).2 :=
    fun path => trans_of (Records known tidy) hstart ((passage_records h).fsIsDir path _)
  rcases fsMount_selects device mountpoint s with ⟨-, he | he | ⟨path, he⟩⟩ | ⟨t, path, slot, -, ht, he⟩
  · rw [he]
    exact refl_of (Records known tidy) s
  · rw [he]
    exact hstart
  · rw [he]
    exact hdir path
  · rw [he]
    have hgo : Records known tidy s t := by
      rcases ht with rfl | rfl
      · exact hstart
      · exact hdir path
    exact trans_of (Records known tidy) hgo (records_mountOn h device path slot _ t)

theorem records_forget (h : Remembers known tidy) (v : Fin 8) : Moves (Records (D := D) known tidy) (forget v) := by
  intro s hs
  obtain ⟨hrecalls, hsel⟩ := h.deselect s.engine.disk
  refine ⟨⟨hrecalls.tidy hs.engine.tidy, ?_, fun x hx => hrecalls.known x (hs.engine.loaded x hx)⟩, fun w => ?_⟩
  · show known _ (Layer.selection (exec Layer.deselect s.engine.disk).2)
    rw [hsel]
    exact h.none _
  · show known (exec Layer.deselect s.engine.disk).2 (Function.update s.mounts v _ w).disk
    refine hrecalls.known _ ?_
    by_cases hw : w = v
    · rw [hw, Function.update_self]
      exact hs.table v
    · rw [Function.update_of_ne hw]
      exact hs.table w

theorem records_release (h : Remembers known tidy) (v : Fin 8) (s : Space (Machine δ D)) :
    Records known tidy s (exec (release v (s.mounts v).disk) s).2 := by
  unfold release
  rw [exec_bind]
  refine trans_of (Records known tidy) (records_restore h v s) ?_
  have hpassage := passage_records (D := D) h
  refine (?_ : Moves (Records known tidy) _) _
  refine .bind (records_modify (fun _ => rfl) fun _ => rfl) fun _ => (records_onEngine (tells_onDisk h.present)).bind fun _ => ?_
  refine .ite ((records_activate h _).bind fun _ => .ite (.pure _) ?_) (records_forget h v)
  exact .bind (fun t => (hpassage.ask .sync t trivial).1) fun _ => .ite (.pure _) (records_forget h v)

theorem records_fsUnmountPath (h : Remembers known tidy) (name : Option Name) :
    Moves (Records (D := D) known tidy) (fsUnmountPath name) := by
  intro s
  by_cases hu : s.user = root
  swap
  · have hrun : (exec (fsUnmountPath name) s).2 = s := by simp [fsUnmountPath, hu]
    rw [hrun]
    exact refl_of (Records known tidy) s
  have hstart := (passage_records (D := D) h).start s
  rcases fsUnmountPath_cases name hu with he | ⟨v, -, -, he⟩
  · rw [he]
    exact hstart
  · rw [he]
    exact trans_of (Records known tidy) hstart (records_release h v _)

theorem records_fsFormat (h : Remembers known tidy) (device : Name) :
    Moves (Records (D := D) known tidy) (fsFormat device) := by
  refine .bind .get fun s => .ite (.pure _) ((passage_records h).start.bind fun _ => ?_)
  refine (records_select h true device).bind fun _ => .ite (.pure _) (.bind .get fun s => ?_)
  refine .bind (records_modify (fun _ => rfl) fun _ => rfl) fun _ => .ite (.pure _) ?_
  exact (records_onEngine (tells_formatSelected h)).bind fun _ => .pure _

theorem records_aside (h : Remembers known tidy) (x : Client LayerCommand LayerCommand.Answer Unit) :
    Moves (Records (D := D) known tidy) (aside x) := by
  intro s hs
  have hserve : ∀ c, True → Moves (Recalls known tidy) (LayerCommand.serve (δ := δ) c) := by
    intro c _ d
    cases c with
    | select raw name => exact (h.select raw name d).1
    | restore selection => exact (h.restore selection d).1
    | command c => exact (h.command c d).toRecalls
  have hrun := Client.moves_run hserve (Client.only_true x) s.engine.disk
  obtain ⟨hback, hsel⟩ := h.restore (Layer.selection s.engine.disk) (exec (x.run LayerCommand.serve) s.engine.disk).2
  have hall := trans_of (Recalls known tidy) hrun hback
  refine ⟨⟨hall.tidy hs.engine.tidy, ?_, fun y hy => hall.known y (hs.engine.loaded y hy)⟩, fun v => hall.known _ (hs.table v)⟩
  show known _ (Layer.selection (exec (Layer.restore (Layer.selection s.engine.disk)) (exec (x.run LayerCommand.serve) s.engine.disk).2).2)
  rw [hsel]
  exact hall.known _ hs.engine.selected

/-- Every act keeps it that what is mounted was selected. -/
theorem records_act (h : Remembers known tidy) (act : Act) : Moves (Records (D := D) known tidy) act.run := by
  cases act with
  | call c => exact ((passage_records h).call (fun _ => records_modify (fun _ => rfl) fun _ => rfl) c).bind fun _ => .pure _
  | mount device mountpoint => exact (records_fsMount h device mountpoint).bind fun _ => .pure _
  | unmount name => exact (records_fsUnmountPath h name).bind fun _ => .pure _
  | format device => exact (records_fsFormat h device).bind fun _ => .pure _
  | init =>
    refine .bind (.bind (records_modify (fun _ => rfl) fun _ => rfl) fun _ => ?_) fun _ => .pure _
    exact records_onEngine (tells_extInit h)
  | start => exact (passage_records h).start
  | aside x => exact records_aside h x
  | login user => exact records_modify (fun _ => rfl) fun _ => rfl

end Barnix.Vfs
