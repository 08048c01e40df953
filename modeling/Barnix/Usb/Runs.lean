import Barnix.Usb.Safety
import Barnix.Vfs.Remembering
/-!
# Sticks that come and go

Runs of the kernel while sticks are pulled out and put in: what is done with the
namespace and the mouse poll, in any order. Unless a `disk_select` strays, a
write for a volume reaches the medium that was enumerated last when its
selection was made. When another has been enumerated, every call about the
volume fails.
-/

namespace Barnix.Usb

open Vfs (DiskSelection DiskCommand Layer Machine Driver Space Engine Act Call Goes Matched Fit noDisk Sturdy Passage Keeps Dead SameTable
  Request)
open Disk (isUsb usbId unitOfUsb)

variable {κ : Type} {D : Driver κ}

abbrev Kernel (D : Driver κ) := Space (Machine Hub D)

/-- Nothing has been enumerated, selected or mounted. -/
structure PowerOn (s : Kernel D) : Prop where
  active : s.active = false
  mounts : ∀ v, (s.mounts v).disk = noDisk
  mounted : s.engine.mounted = false
  loaded : s.engine.loaded = none
  selected : s.engine.disk.selected = noDisk
  made : s.engine.disk.made = []
  client : s.engine.disk.bus.client = none
  log : s.engine.disk.bus.log = []
  media : ∀ u, s.engine.disk.bus.media u = []
  devices : ∀ u, (s.engine.disk.bus.devices u).ready = false ∧ (s.engine.disk.bus.devices u).generation = 0

/-- Runs from `s`, with the acts that `ok` allows. What happens on the ports meanwhile is in
the script. `boot` is the search for the device that the kernel starts from. -/
inductive Run (ok : Act → Kernel D → Prop) (s : Kernel D) : Kernel D → Prop
  | nil : Run ok s s
  | boot {t} (raw : Bool) (name : Name) : Run ok s t → t.active = false → t.engine.mounted = false →
      Run ok s (exec (Vfs.onEngine (Engine.diskSelect (ε := Machine Hub D) raw name)) t).2
  | act {t} (act : Act) : Run ok s t → ok act t → Run ok s (exec act.run t).2
  | poll {t} : Run ok s t → Run ok s (exec (Vfs.onEngine (Machine.onDisk (Hub.onBus mousePoll))) t).2

/-- No mount and no format whose `disk_select` fails after it has selected another disk, while a
volume is mounted and active. -/
def Careful (act : Act) (s : Kernel D) : Prop := ¬ act.Slips s

theorem PowerOn.matched {s : Kernel D} (h : PowerOn s) : Matched s :=
  ⟨h.client, fun _ => ⟨h.client, fun hm => by simp [h.mounted] at hm⟩, fun ha => by simp [h.active] at ha⟩

theorem PowerOn.good {s : Kernel D} (h : PowerOn s) : Good s.engine.disk := by
  refine ⟨⟨fun u hr => ?_, fun u => ?_⟩, fun r hr => ?_, fun p hp => ?_⟩
  · simp [(h.devices u).1] at hr
  · simp [(h.devices u).2, h.media u, word]
  · simp [h.log] at hr
  · simp [h.made] at hp

/-- A step of a run keeps what is active matched, and what is known of the media. -/
theorem Run.goes {s t : Kernel D} (h : Run Careful s t) : Goes Onwards s t := by
  induction h with
  | nil => exact refl_of (Goes Onwards) s
  | @boot t raw name _ ha hmt ih =>
    refine trans_of (Goes Onwards) ih fun hm => ?_
    obtain ⟨hl, hc⟩ := selecting_onwards.select raw name t.engine.disk
    exact ⟨⟨hc.trans hm.idle, fun _ => ⟨hc.trans hm.idle, fun hmt' => absurd (hmt.symm.trans hmt') (by simp)⟩,
      fun ha' => absurd (ha.symm.trans ha') (by simp)⟩, hl⟩
  | @act t act _ hok ih => exact trans_of (Goes Onwards) ih (Vfs.goes_act selecting_onwards hok)
  | @poll t _ ih =>
    refine trans_of (Goes Onwards) ih fun hm => ?_
    have hc : (exec mousePoll t.engine.disk.bus).2.client = t.engine.disk.bus.client := (sameClient_mousePoll _).client
    exact ⟨⟨hc.trans hm.idle, fun hon => ⟨hc.trans hm.idle, (hm.fit hon).loaded⟩, hm.selected⟩, onwards_onBus onward_mousePoll _⟩

/-! ## Selections are made -/

/-- The selection was made, if it is one of a stick. -/
def Made (h : Hub) (selection : DiskSelection) : Prop := isUsb selection.id = true → ∃ count, (selection, count) ∈ h.made

/-- Commands were given for selections that were made. -/
structure Logged (h : Hub) : Prop where
  client : ∀ selection, h.bus.client = some selection → Made h selection
  log : ∀ r ∈ h.bus.log, r.kind.changes = true → ∀ selection, r.client = some selection → Made h selection

theorem still_onBus {α : Type} {x : StateM (Bus (Option DiskSelection)) α} (hx : Moves SameClient x) :
    Moves (Vfs.Still Made Logged) (Hub.onBus x) := by
  intro h
  obtain ⟨hclient, hlog⟩ := hx h.bus
  refine ⟨⟨fun _ hmade => hmade, fun ht => ⟨fun selection hs => ht.client selection ?_, fun r hr hc selection hs => ?_⟩⟩, rfl⟩
  · rw [← hclient]
    exact hs
  · rcases hlog r hr hc with hr | hr
    · exact ht.log r hr hc selection hs
    · exact ht.client selection (by rw [← hr]; exact hs)

/-- A selection of what is known leads to another. -/
def Picks (h k : Hub) : Prop := Vfs.Recalls Made Logged h k ∧ (Made h h.selected → Made k k.selected)

instance : Std.Refl Picks := ⟨fun h => ⟨refl_of (Vfs.Recalls Made Logged) h, fun hm => hm⟩⟩

instance : IsTrans Hub Picks := ⟨fun _ _ _ h h' => ⟨trans_of (Vfs.Recalls Made Logged) h.1 h'.1, fun hm => h'.2 (h.2 hm)⟩⟩

theorem picks_of_still {α : Type} {x : StateM Hub α} (hx : Moves (Vfs.Still Made Logged) x) : Moves Picks x := by
  intro h
  refine ⟨(hx h).toRecalls, fun hm => ?_⟩
  have hsel : (exec x h).2.selected = h.selected := (hx h).selection
  rw [hsel]
  exact (hx h).known _ hm

theorem picks_choose (next : DiskSelection) : Moves Picks (Hub.choose next) := by
  refine .modify fun h => ⟨⟨fun x hx husb => ?_, fun ht => ⟨fun x hx husb => ?_, fun r hr hc x hx husb => ?_⟩⟩, fun _ _ => ?_⟩
  · exact (hx husb).imp fun count hc => List.mem_cons_of_mem _ hc
  · exact (ht.client x hx husb).imp fun count hc => List.mem_cons_of_mem _ hc
  · exact (ht.log r hr hc x hx husb).imp fun count hc => List.mem_cons_of_mem _ hc
  · exact ⟨_, List.mem_cons_self⟩

theorem remembers_made : Vfs.Remembers Made Logged where
  none _ husb := by simp [noDisk, isUsb] at husb
  present := Hub.moves_diskPresent still_onBus
  command := Hub.moves_diskCommand still_onBus
  serve v h hv := ⟨⟨fun _ hm => hm, fun ht => ⟨hv, ht.log⟩⟩, rfl⟩
  restore selection h := ⟨⟨fun _ hm => hm, fun ht => ⟨ht.client, ht.log⟩⟩, rfl⟩
  select raw name h := Hub.moves_selectNamed (fun hx => picks_of_still (still_onBus hx)) picks_choose raw name h
  deselect h := ⟨⟨fun _ hm => hm, fun ht => ⟨ht.client, ht.log⟩⟩, rfl⟩

/-! ## Volumes whose medium has been replaced -/

/-- The namespace is active with this table, and the medium of volume `v` has been replaced. -/
structure Replaced (v : Fin 8) (mounts : Fin 8 → Vfs.Mount) (working : Name) (s : Kernel D) : Prop where
  table : s.active = true ∧ s.mounts = mounts ∧ s.working = working
  matched : Matched s
  good : Good s.engine.disk
  stale : Stale s.engine.disk (mounts v).disk

variable {v : Fin 8} {mounts : Fin 8 → Vfs.Mount} {working : Name}

theorem keeps_replaced {s t : Kernel D} (hgo : Goes Settling s t) (hsame : SameTable s t) :
    Keeps (Replaced v mounts working) s t := by
  rintro ⟨⟨ha, hm, hw⟩, hmatched, hgood, hstale⟩
  obtain ⟨ha', hm', hw'⟩ := hsame.2 ha
  obtain ⟨hmatched', hlater⟩ := hgo hmatched
  have hsettled := hlater hgood
  exact ⟨⟨ha', hm'.trans hm, hw'.trans hw⟩, hmatched', hsettled.good, hstale.settled hsettled⟩

theorem passage_replaced : Passage (Keeps (Replaced (D := D) v mounts working)) Space.On := by
  have h := Vfs.passage_goes (D := D) sturdy_settling
  refine ⟨?_, ?_, ?_, ?_, h.idle, ?_⟩
  · exact fun s => keeps_replaced (h.start s) (Vfs.sameTable_namespaceStart s)
  · exact fun index s => ⟨keeps_replaced (h.activate index s).1 (Vfs.sameTable_activate index s), (h.activate index s).2⟩
  · exact fun s hs => ⟨keeps_replaced (h.toRoot s hs).1 (Vfs.sameTable_onEngine _ s), (h.toRoot s hs).2⟩
  · exact fun request s hs => ⟨keeps_replaced (h.ask request s hs).1 (Vfs.sameTable_onEngine _ s), (h.ask request s hs).2⟩
  · exact fun f g needed s => keeps_replaced (h.staged f g needed s) (Vfs.sameTable_staged f g needed s)

/-- A volume whose medium has been replaced cannot be activated. -/
theorem activate_replaced {s : Kernel D} (h : Replaced v mounts working s) : (exec (Vfs.activate (some v)) s).1 = false := by
  obtain ⟨⟨ha, rfl, rfl⟩, hmatched, hgood, hstale⟩ := h
  by_cases hv : s.activeVolume = some v
  · have hrun : exec (Vfs.activate (some v)) s = exec (Vfs.onEngine Engine.engineReady) s := by
      simp [Vfs.activate, hv]
    rw [hrun]
    by_cases hmt : s.engine.mounted = true
    · have hsel : s.engine.disk.selected = (s.mounts v).disk := hmatched.selected ha hmt v hv
      exact Vfs.ready_absent (present_stale hgood (by rw [hsel]; exact hstale))
    · have hready : (exec Machine.engineReady s.engine).1 = false := by
        rw [Vfs.mounted_ready]
        by_contra hno
        exact hmt (Vfs.mounted_of_ready s.engine (by simpa using hno))
      exact hready
  · let h : Hub := { s.engine.disk with selected := (s.mounts v).disk }
    have hsettled := hgood.same (s.mounts v).disk s.engine.disk.bus.client
    have hgone : (exec Hub.diskPresent h).1 = false := present_stale hsettled.good (hstale.settled hsettled)
    have hread : (exec (Hub.diskReadMany 2 1) h).1 = none := by
      unfold Hub.diskReadMany
      rw [exec_bind, hgone]
      rfl
    let m : Machine Hub D := { s.engine with disk := h }
    have hinit : (exec Machine.extInit m).1 = false := Vfs.extInit_absent hread
    unfold Vfs.activate
    rw [exec_bind, exec_get, if_pos hv, exec_bind, exec_bind, exec_bind]
    have hfail : (exec (Vfs.onEngine (Engine.extInit (ε := Machine Hub D))) { s with
        activeVolume := none, engine := m }).1 = false := hinit
    exact (congrArg (fun ok : Bool => (exec (if !ok then pure false else do
      modify fun s : Kernel D => { s with activeVolume := some v }
      Vfs.onEngine Engine.engineReady) _).1) hfail).trans rfl

theorem dead_replaced : Dead v mounts working (Replaced (D := D) v mounts working) Space.On where
  passage := passage_replaced
  table _ h := h.table
  fails _ h := activate_replaced h

/-! ## Runs -/

theorem Run.records {ok : Act → Kernel D → Prop} {s t : Kernel D} (h : Run ok s t) : Vfs.Records Made Logged s t := by
  induction h with
  | nil => exact refl_of (Vfs.Records Made Logged) s
  | @boot t raw name _ _ _ ih => exact trans_of (Vfs.Records Made Logged) ih (Vfs.records_select remembers_made raw name t)
  | @act t act _ _ ih => exact trans_of (Vfs.Records Made Logged) ih (Vfs.records_act remembers_made act t)
  | @poll t _ ih =>
    refine trans_of (Vfs.Records Made Logged) ih (Vfs.records_onEngine (Vfs.tells_onDisk (still_onBus sameClient_mousePoll)) t)

theorem PowerOn.recorded {s : Kernel D} (h : PowerOn s) : Vfs.Recorded Made Logged s := by
  have hnone : ∀ h : Hub, Made h noDisk := remembers_made.none
  refine ⟨⟨⟨fun x hx => ?_, fun r hr => ?_⟩, ?_, fun x hx => ?_⟩, fun v => ?_⟩
  · simp [h.client] at hx
  · simp [h.log] at hr
  · show Made s.engine.disk s.engine.disk.selected
    rw [h.selected]
    exact hnone _
  · simp [h.loaded] at hx
  · rw [h.mounts]
    exact hnone _

/-- The states that a run without slips leads to. -/
theorem Run.kept {s₀ s : Kernel D} (h₀ : PowerOn s₀) (h : Run Careful s₀ s) : Matched s ∧ Good s.engine.disk :=
  ⟨(h.goes h₀.matched).1, ((h.goes h₀.matched).2 h₀.good).good⟩

/-- A command that changes a medium was given for a selection that had been made, and reached
the medium enumerated last when it was. -/
theorem delivered {h : Hub} (hg : Good h) (hl : Logged h) (hfew : ∀ u, u < h.bus.deviceCount → (h.bus.media u).length < word) {r : Reach (Option DiskSelection)}
    (hr : r ∈ h.bus.log) (hc : r.kind.changes = true) {selection : DiskSelection} (hs : r.client = some selection) :
    r.unit = unitOfUsb selection.id ∧ EnumeratedAs h r.unit r.count r.medium ∧ (∃ count, (selection, count) ∈ h.made) ∧
      ∀ count, (selection, count) ∈ h.made → r.count = count := by
  have hown := hg.own r hr hc selection hs
  refine ⟨hown.unit, hown.medium, hl.log r hr hc selection hs hown.usb, fun count hmade => ?_⟩
  obtain ⟨hgen, hle⟩ := hg.made _ hmade hown.usb (by rw [← hown.unit]; exact hown.unit_lt)
  have hfew := hfew r.unit hown.unit_lt
  have hcount := Nat.lt_of_le_of_lt hown.medium.le hfew
  rw [← hown.unit] at hle
  have hmod := hown.generation.trans hgen
  rwa [Nat.mod_eq_of_lt hcount, Nat.mod_eq_of_lt (Nat.lt_of_le_of_lt hle hfew)] at hmod

/-- In a run without slips every command for a mounted volume reaches the medium that was
enumerated last when the volume was selected; once another has been enumerated, every call
about the volume fails as long as it stays in the table. -/
theorem removable_safe {s₀ s : Kernel D} (h₀ : PowerOn s₀) (hrun : Run Careful s₀ s)
    (hfew : ∀ u, u < s.engine.disk.bus.deviceCount → (s.engine.disk.bus.media u).length < word) :
    (∀ r ∈ s.engine.disk.bus.log, r.kind.changes = true → ∀ selection, r.client = some selection →
      r.unit = unitOfUsb selection.id ∧ EnumeratedAs s.engine.disk r.unit r.count r.medium ∧
        (∃ count, (selection, count) ∈ s.engine.disk.made) ∧
        ∀ count, (selection, count) ∈ s.engine.disk.made → r.count = count) ∧
    (s.active = true → s.engine.mounted = true → ∀ v, s.activeVolume = some v → s.engine.loaded = some (s.mounts v).disk) ∧
    (s.active = false → s.engine.mounted = true → ∀ selection, s.engine.loaded = some selection → Stale s.engine.disk selection →
      ∀ {α : Type} (request : Request α), (exec (Machine.perform request) s.engine).1 = request.refused) ∧
    ∀ v count, ((s.mounts v).disk, count) ∈ s.engine.disk.made → isUsb (s.mounts v).disk.id = true →
      unitOfUsb (s.mounts v).disk.id < s.engine.disk.bus.deviceCount →
      count < (s.engine.disk.bus.media (unitOfUsb (s.mounts v).disk.id)).length →
      ∀ t, Run Careful s t → (∀ u, u < t.engine.disk.bus.deviceCount → (t.engine.disk.bus.media u).length < word) → t.active = true →
        (t.mounts v).disk = (s.mounts v).disk → ∀ call : Call, call.About t.mounts t.working v → (exec call.run t).1 = false := by
  obtain ⟨hmatched, hgood⟩ := hrun.kept h₀
  have hlogged := (hrun.records h₀.recorded).engine.tidy
  refine ⟨fun r hr hc selection hs => delivered hgood hlogged hfew hr hc hs, fun ha hm v hv => ?_, fun ha hm selection hl hs α request => ?_,
    fun v count hmade husb hu hlt t ht htfew hta hdisk call habout => ?_⟩
  · rw [← hmatched.selected ha hm v hv]
    exact (hmatched.fit (.inr (by simp [hv]))).loaded hm
  · have hsel := (hmatched.fit (.inl ha)).loaded hm
    obtain rfl := Option.some.inj (hl.symm.trans hsel)
    have hready := Vfs.ready_absent (D := D) (present_stale hgood hs)
    unfold Machine.perform
    rw [exec_bind, hready]
    rfl
  · obtain ⟨htmatched, hgrown⟩ := ht.goes hmatched
    have hgrown := hgrown hgood
    refine dead_replaced.call habout ⟨⟨hta, rfl, rfl⟩, htmatched, hgrown.good, ?_⟩
    rw [hdisk]
    have hu' : unitOfUsb (s.mounts v).disk.id < t.engine.disk.bus.deviceCount := by
      rw [hgrown.deviceCount]
      exact hu
    refine ⟨husb, hu', ⟨count, ?_, ?_⟩, htfew _ hu'⟩
    · exact List.IsSuffix.mem hmade hgrown.made
    · exact Nat.lt_of_lt_of_le hlt (hgrown.media _).length_le

/-! ## A stick that is exchanged -/

/-- A driver that gives one command for a write, and has directories of any name. -/
def oneSector : Driver Unit where
  dir _ := 0
  toRoot image := image
  load _ image := .done (image, true)
  load_reads _ _ := trivial
  perform request image := match request with
    | .write _ _ => .ask (.write 2 default) fun (ok : Bool) => .done (if ok then 0 else -1, image, true)
    | .cd _ => .done (0, image, true)
    | .isDir _ => .done (true, image, true)
    | .getcwd _ => .done (.ok [slash], image, true)
    | request => .done (request.refused, image, true)
  format image := .done (image, false)

/-- Stick 1 is in unit 0, and after 25 looks at the hardware stick 2 is there. Sector 2 of both
has the magic number of ext2, and neither has a boot record. -/
def exchanged : Kernel oneSector where
  mounts _ := ⟨false, noDisk, []⟩
  working := [slash]
  active := false
  activeVolume := none
  user := Vfs.root
  renamedAcl := []
  renameGuard := []
  renamedAclNeeded := false
  engine := {
    disk := {
      bus := {
        ports := fun u => if u = 0 then ⟨some 1, true, false⟩ else ⟨none, false, false⟩
        devices := fun _ => ⟨0, 0, false, false, false, false⟩
        deviceCount := 2
        unit := 0
        xhciUnit := none
        outside := {
          events := fun time => if time = 25 then [.unplug 0, .plug 0 2] else []
          answers := fun _ => true
          found := fun _ => .storage 64
          exchanges := fun _ => 0
          xhci := fun _ => (0, 0)
          data := fun _ lba i => if lba = 2 ∧ i = 56 then 0x53 else if lba = 2 ∧ i = 57 then 0xef else 0 }
        clock := 0
        media := fun _ => []
        client := none
        log := [] }
      selected := noDisk
      others := fun _ _ => none
      made := [] }
    mounted := false
    loaded := none
    image := () }

theorem powerOn_exchanged : PowerOn exchanged := ⟨rfl, fun _ => rfl, rfl, rfl, rfl, rfl, rfl, rfl, fun _ => rfl, fun _ => ⟨rfl, rfl⟩⟩

/-- `exchanged` with `usb0` at `/`. -/
def stickMounted : Kernel oneSector :=
  (exec (Act.run .start) (exec (Act.run .init)
    (exec (Vfs.onEngine (Engine.diskSelect (ε := Machine Hub oneSector) false [117, 115, 98, 48])) exchanged).2).2).2

theorem run_stickMounted {ok : Act → Kernel oneSector → Prop} (hinit : ∀ s, ok .init s) (hstart : ∀ s, ok .start s) :
    Run ok exchanged stickMounted :=
  .act _ (.act _ (.boot _ _ .nil rfl rfl) (hinit _)) (hstart _)

/-- The write of `/f`. -/
def writeF : Call := .write [slash, 102] []

/-- `stickMounted` after the mouse was polled. -/
def polled : Kernel oneSector := (exec (Vfs.onEngine (Machine.onDisk (Hub.onBus mousePoll))) stickMounted).2

theorem removable_safe_polled : polled.engine.disk.bus.media 0 = [2, 1] ∧ (exec writeF.run polled).1 = false := by
  have hrun : Run Careful exchanged polled := .poll (run_stickMounted (fun _ h => h) fun _ h => h)
  have hfew : ∀ u, u < polled.engine.disk.bus.deviceCount → (polled.engine.disk.bus.media u).length < word := by decide +kernel
  refine ⟨by decide +kernel, ?_⟩
  obtain ⟨-, -, -, hfails⟩ := removable_safe powerOn_exchanged hrun hfew
  exact hfails 0 1 (by decide +kernel) (by decide +kernel) (by decide +kernel) (by decide +kernel) polled .nil hfew
    (by decide +kernel) rfl writeF ⟨[slash, 102], by decide +kernel, by decide +kernel⟩

/-- `stickMounted` after `fs_mount("usb0p1", "/")`, which fails. -/
def strayed : Kernel oneSector := (exec (Act.run (.mount [117, 115, 98, 48, 112, 49] [slash])) stickMounted).2

/-- After a mount that failed, a write for the volume of stick 1 succeeds, and is on stick 2. -/
theorem failed_mount_writes_other_stick :
    PowerOn exchanged ∧ Run (fun _ _ => True) exchanged (exec (Act.run (.call writeF)) strayed).2 ∧
      writeF.About strayed.mounts strayed.working 0 ∧ ((strayed.mounts 0).disk, 1) ∈ strayed.engine.disk.made ∧
      strayed.engine.disk.bus.media 0 = [2, 1] ∧ (exec writeF.run strayed).1 = true ∧
      ∃ r ∈ (exec (Act.run (.call writeF)) strayed).2.engine.disk.bus.log, r.kind.changes = true ∧ r.medium = 2 ∧
        r.client = some (strayed.mounts 0).disk ∧ r.count = 2 := by
  refine ⟨powerOn_exchanged, .act _ (.act _ (run_stickMounted (fun _ => trivial) fun _ => trivial) trivial) trivial,
    ⟨[slash, 102], by decide +kernel, by decide +kernel⟩, by decide +kernel, by decide +kernel, by decide +kernel, ?_⟩
  have hlog : ((exec (Act.run (.call writeF)) strayed).2.engine.disk.bus.log.any fun r => r.kind.changes && r.medium == 2 &&
      r.client == some (strayed.mounts 0).disk && r.count == 2) = true := by decide +kernel
  obtain ⟨r, hr, hall⟩ := List.any_eq_true.1 hlog
  simp only [Bool.and_eq_true, beq_iff_eq] at hall
  exact ⟨r, hr, hall.1.1.1, hall.1.1.2, hall.1.2, hall.2⟩

end Barnix.Usb
