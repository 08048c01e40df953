import Barnix.Usb.Hub
import Barnix.Vfs.Mounting
/-!
# What a command of the disk layer reaches

Before every command the layer compares the generation of the selection with the
unit's. So a write given for the volume that is selected reaches the medium that
was the last one enumerated when the selection was made.
-/

namespace Barnix.Usb

open Vfs (DiskSelection DiskCommand Layer Sector Unmoved Sturdy Selecting noDisk)
open Disk (isUsb usbId unitOfUsb)

variable {h k : Hub}

/-- The medium `m` was the `n`-th enumerated on unit `u`. -/
def EnumeratedAs (h : Hub) (u n : Nat) (m : Medium) : Prop :=
  ∃ later earlier, h.bus.media u = later ++ m :: earlier ∧ earlier.length + 1 = n

/-- The transfer reached what the selection was made from. -/
structure Own (h : Hub) (selection : DiskSelection) (r : Reach (Option DiskSelection)) : Prop where
  usb : isUsb selection.id = true
  unit : r.unit = unitOfUsb selection.id
  unit_lt : r.unit < h.bus.deviceCount
  generation : r.count % word = selection.generation
  medium : EnumeratedAs h r.unit r.count r.medium

structure Good (h : Hub) : Prop where
  current : Current h.bus
  own : ∀ r ∈ h.bus.log, r.kind.changes = true → ∀ selection, r.client = some selection → Own h selection r
  made : ∀ p ∈ h.made, isUsb p.1.id = true → unitOfUsb p.1.id < h.bus.deviceCount →
    p.1.generation = p.2 % word ∧ p.2 ≤ (h.bus.media (unitOfUsb p.1.id)).length

theorem EnumeratedAs.mono {u n : Nat} {m : Medium} (hm : EnumeratedAs h u n m) (hsuf : h.bus.media u <:+ k.bus.media u) :
    EnumeratedAs k u n m := by
  obtain ⟨later, earlier, he, hn⟩ := hm
  obtain ⟨pre, hpre⟩ := hsuf
  exact ⟨pre ++ later, earlier, by rw [← hpre, he, List.append_assoc], hn⟩

theorem EnumeratedAs.le {u n : Nat} {m : Medium} (hm : EnumeratedAs h u n m) : n ≤ (h.bus.media u).length := by
  obtain ⟨later, earlier, he, rfl⟩ := hm
  rw [he, List.length_append, List.length_cons]
  omega

/-- More media may have been enumerated; what is known of the old ones stays. -/
structure Grown (h k : Hub) : Prop where
  good : Good k
  deviceCount : k.bus.deviceCount = h.bus.deviceCount
  media : ∀ u, h.bus.media u <:+ k.bus.media u
  made : h.made <:+ k.made

def Onwards (h k : Hub) : Prop := Good h → Grown h k

/-- No more media have been enumerated. -/
structure Settled (h k : Hub) : Prop where
  good : Good k
  deviceCount : k.bus.deviceCount = h.bus.deviceCount
  media : k.bus.media = h.bus.media
  made : k.made = h.made

def Settling (h k : Hub) : Prop := Good h → Settled h k

theorem Settling.onwards (hs : Settling h k) : Onwards h k := fun hg =>
  ⟨(hs hg).good, (hs hg).deviceCount, fun u => by rw [(hs hg).media], by rw [(hs hg).made]⟩

instance : Std.Refl Onwards := ⟨fun _ hg => ⟨hg, rfl, fun _ => List.suffix_refl _, List.suffix_refl _⟩⟩

instance : IsTrans Hub Onwards := ⟨fun _ _ _ h h' hg =>
  ⟨(h' (h hg).good).good, (h' (h hg).good).deviceCount.trans (h hg).deviceCount,
    fun u => ((h hg).media u).trans ((h' (h hg).good).media u), (h hg).made.trans (h' (h hg).good).made⟩⟩

instance : Std.Refl Settling := ⟨fun _ hg => ⟨hg, rfl, rfl, rfl⟩⟩

instance : IsTrans Hub Settling := ⟨fun _ _ _ h h' hg =>
  ⟨(h' (h hg).good).good, (h' (h hg).good).deviceCount.trans (h hg).deviceCount,
    (h' (h hg).good).media.trans (h hg).media, (h' (h hg).good).made.trans (h hg).made⟩⟩

/-- The bus went on without a command that changes a medium. -/
theorem Good.grown (hg : Good h) {b : Bus (Option DiskSelection)} (hb : After h.bus b) : Grown h { h with bus := b } := by
  refine ⟨⟨hb.current, fun r hr hc sel hsel => ?_, fun p hp husb hu => ?_⟩, hb.deviceCount, hb.media, List.suffix_refl _⟩
  · have hown := hg.own r (hb.log r hr hc) hc sel hsel
    exact ⟨hown.usb, hown.unit, by rw [hb.deviceCount]; exact hown.unit_lt, hown.generation, hown.medium.mono (hb.media _)⟩
  · obtain ⟨hgen, hle⟩ := hg.made p hp husb (by rw [← hb.deviceCount]; exact hu)
    exact ⟨hgen, hle.trans (hb.media _).length_le⟩

theorem Good.settled (hg : Good h) {b : Bus (Option DiskSelection)} (hb : Calm h.bus b) : Settled h { h with bus := b } :=
  ⟨(hg.grown (Quietly.onward (fun _ => hb) hg.current)).good, hb.deviceCount, hb.media, rfl⟩

/-! ## Functions on the bus -/

theorem settling_onBus {α : Type} {x : StateM (Bus (Option DiskSelection)) α} (hx : Moves Quietly x) :
    Moves Settling (Hub.onBus x) := fun h hg => hg.settled (hx h.bus hg.current)

theorem onwards_onBus {α : Type} {x : StateM (Bus (Option DiskSelection)) α} (hx : Moves Onward x) :
    Moves Onwards (Hub.onBus x) := fun h hg => hg.grown (hx h.bus hg.current)

/-- The functions of the driver change neither the selection nor for whom commands are given. -/
theorem unmoved_onBus {α : Type} {x : StateM (Bus (Option DiskSelection)) α} (hx : Moves Quietly x)
    (hclient : Moves SameClient x) : Moves (Unmoved Settling) (Hub.onBus x) :=
  fun h => ⟨settling_onBus hx h, rfl, (hclient h.bus).client⟩

/-! ## What is aimed at -/

/-- The current unit is the one of the selection, and the medium enumerated there last is
the one selected. -/
structure Aimed (h : Hub) : Prop where
  usb : isUsb h.selected.id = true
  unit : h.bus.unit = unitOfUsb h.selected.id
  unit_lt : h.bus.unit < h.bus.deviceCount
  generation : h.selected.generation = (h.bus.media h.bus.unit).length % word

/-- A unit that is present with the generation that was selected. -/
theorem aimed_present (hg : Good h) (husb : isUsb h.selected.id = true) (hok : (exec Hub.diskPresent h).1 = true) :
    (h.bus.deviceCount ≤ unitOfUsb h.selected.id ∧ (exec Hub.diskPresent h).2.bus.xhciUnit ≠ none) ∨
      (unitOfUsb h.selected.id < h.bus.deviceCount ∧ Aimed (exec Hub.diskPresent h).2) := by
  have hselect := unmoved_onBus (quietly_storageSelect (unitOfUsb h.selected.id)) (sameClient_storageSelect _) h
  have hunit := storageSelect_unit (unitOfUsb h.selected.id) h.bus
  unfold Hub.diskPresent at hok ⊢
  rw [exec_bind, exec_get, if_pos husb, exec_bind] at hok ⊢
  cases hfound : (exec (Hub.onBus (storageSelect (unitOfUsb h.selected.id))) h).1 with
  | false => simp [hfound] at hok
  | true =>
    rw [hfound, if_neg (by simp), exec_bind] at hok
    rw [if_neg (by simp), exec_bind]
    have hgood := (hselect.later hg).good
    have hcount : (exec (Hub.onBus (storageSelect (unitOfUsb h.selected.id))) h).2.bus.deviceCount = h.bus.deviceCount :=
      (hselect.later hg).deviceCount
    have hunit : (h.bus.deviceCount ≤ unitOfUsb h.selected.id ∧
        (exec (Hub.onBus (storageSelect (unitOfUsb h.selected.id))) h).2.bus.xhciUnit ≠ none) ∨
        (unitOfUsb h.selected.id < h.bus.deviceCount ∧
          (exec (Hub.onBus (storageSelect (unitOfUsb h.selected.id))) h).2.bus.xhciUnit = none ∧
          (exec (Hub.onBus (storageSelect (unitOfUsb h.selected.id))) h).2.bus.unit = unitOfUsb h.selected.id) := hunit hfound
    have hsel : (exec (Hub.onBus (storageSelect (unitOfUsb h.selected.id))) h).2.selected = h.selected := hselect.selection
    generalize (exec (Hub.onBus (storageSelect (unitOfUsb h.selected.id))) h).2 = k at hok hgood hcount hunit hsel ⊢
    cases hthere : (exec (Hub.onBus storagePresent) k).1 with
    | false => simp [hthere] at hok
    | true =>
      rw [hthere, if_neg (by simp)] at hok
      rw [if_neg (by simp)]
      rcases hunit with ⟨hle, hx⟩ | ⟨hlt, hx, hu⟩
      · refine .inl ⟨hle, fun hn => hx ?_⟩
        rw [← (steady_storagePresent k.bus).xhciUnit, ← (looks_storageGeneration (exec storagePresent k.bus).2).xhciUnit]
        exact hn
      · obtain ⟨hlook, hgen⟩ := generation_present hgood.current hx hthere
        have heq : (exec storageGeneration (exec storagePresent k.bus).2).1 = h.selected.generation := eq_of_beq hok
        refine .inr ⟨hlt, ?_, ?_, ?_, ?_⟩
        · exact (congrArg (fun d : DiskSelection => isUsb d.id) hsel).trans husb
        · exact hlook.unit.trans (hu.trans (congrArg (fun d : DiskSelection => unitOfUsb d.id) hsel.symm))
        · show (exec storageGeneration (exec storagePresent k.bus).2).2.unit <
            (exec storageGeneration (exec storagePresent k.bus).2).2.deviceCount
          rw [hlook.unit, hlook.deviceCount, hu, hcount]
          exact hlt
        · show k.selected.generation = (_ : List Medium).length % word
          rw [← hlook.unit, ← hlook.media] at hgen
          exact (congrArg DiskSelection.generation hsel).trans (heq.symm.trans hgen)

/-! ## Commands -/

/-- What a command for the current unit leaves. -/
theorem Good.sent (hg : Good h) {b : Bus (Option DiskSelection)} (hb : Sent h.bus b)
    (haim : h.bus.client = none ∨ (h.bus.client = some h.selected ∧ Aimed h)) : Settled h { h with bus := b } := by
  refine ⟨⟨hb.current, fun r hr hc selection hsel => ?_, fun p hp husb hu => ?_⟩, hb.deviceCount, hb.media, rfl⟩
  · rcases hb.log r hr hc with hr | hr
    · have hown := hg.own r hr hc selection hsel
      refine ⟨hown.usb, hown.unit, by rw [hb.deviceCount]; exact hown.unit_lt, hown.generation, hown.medium.mono ?_⟩
      rw [hb.media]
    rcases haim with hnone | ⟨hclient, haim⟩
    · rw [hr.client, hnone] at hsel
      simp at hsel
    · rw [hr.client, hclient] at hsel
      obtain rfl := Option.some.inj hsel
      refine ⟨haim.usb, hr.unit.trans haim.unit, ?_, by rw [hr.count, haim.generation], [], (h.bus.media h.bus.unit).tail, ?_, ?_⟩
      · show r.unit < b.deviceCount
        rw [hr.unit, hb.deviceCount]
        exact haim.unit_lt
      all_goals
        have hmedia := List.eq_cons_of_mem_head? hr.medium.symm
      · show b.media r.unit = _
        rw [hb.media, hr.unit]
        exact hmedia
      · rw [hr.count]
        conv_rhs => rw [hmedia]
        rfl
  · obtain ⟨hgen, hle⟩ := hg.made p hp husb (by rw [← hb.deviceCount]; exact hu)
    exact ⟨hgen, by rw [hb.media]; exact hle⟩

/-- A command given for the volume that is selected, or for nobody. -/
theorem unmoved_sent {α : Type} {x : StateM (Bus (Option DiskSelection)) α} (hsame : Moves SameClient x)
    (hx : ∀ s, Current s → s.xhciUnit = none → Sent s (exec x s).2)
    (hother : ∀ s, s.xhciUnit ≠ none → Looks s (exec x s).2) (hgiving : Vfs.Giving h)
    (haim : h.bus.xhciUnit = none → Aimed h) : Unmoved Settling h (exec (Hub.onBus x) h).2 := by
  refine ⟨fun hg => ?_, rfl, (hsame h.bus).client⟩
  by_cases hxhci : h.bus.xhciUnit = none
  · exact hg.sent (hx h.bus hg.current hxhci) (hgiving.imp_right fun hsome => ⟨hsome, haim hxhci⟩)
  · exact hg.settled ((hother h.bus hxhci).quietly hg.current)

theorem unmoved_write (hgiving : Vfs.Giving h) (haim : h.bus.xhciUnit = none → Aimed h) (lba count : Nat) :
    Unmoved Settling h (exec (Hub.onBus (sectorsCommand .write lba count)) h).2 := by
  refine unmoved_sent (sameClient_of_steady (steady_sectorsCommand _ _ _)) (fun s hs hx => sent_sectorsCommand hs hx _ _ _) (fun s hx => ?_)
    hgiving haim
  have hrun : exec (sectorsCommand .write lba count) s = exec answer s := by
    simp [sectorsCommand, Option.isSome_iff_ne_none.2 hx]
  rw [hrun]
  exact looks_answer s

theorem unmoved_flush (hgiving : Vfs.Giving h) (haim : h.bus.xhciUnit = none → Aimed h) :
    Unmoved Settling h (exec (Hub.onBus storageFlush) h).2 := by
  refine unmoved_sent (sameClient_of_steady steady_storageFlush) (fun s hs hx => sent_storageFlush hs hx) (fun s hx => ?_) hgiving haim
  have hrun : exec storageFlush s = exec answer s := by simp [storageFlush, Option.isSome_iff_ne_none.2 hx]
  rw [hrun]
  exact looks_answer s

/-! ## The layer -/

theorem unmoved_looks {α : Type} {x : StateM (Bus (Option DiskSelection)) α} (hx : Moves Looks x) :
    Moves (Unmoved Settling) (Hub.onBus x) := unmoved_onBus (quietly_of_looks hx) (sameClient_of_steady (steady_of_looks hx))

theorem unmoved_present : Moves (Unmoved Settling) Hub.diskPresent := by
  refine .bind .get fun s => .ite ?_ (unmoved_looks looks_answer)
  refine (unmoved_onBus (quietly_storageSelect _) (sameClient_storageSelect _)).bind fun _ => .ite (.pure _) ?_
  refine (unmoved_onBus quietly_storagePresent (sameClient_of_steady steady_storagePresent)).bind fun _ => .ite (.pure _) ?_
  exact (unmoved_looks looks_storageGeneration).bind fun _ => .pure _

theorem unmoved_rawRead (id lba count : Nat) : Moves (Unmoved Settling) (Hub.rawRead id lba count) := by
  have hdata : Moves (Unmoved Settling) (do
      return some (← Hub.onBus (Hub.sectorData lba count)) : StateM Hub (Option (List Sector))) :=
    (unmoved_looks (looks_look.bind fun _ => .bind .get fun _ => .pure _)).bind fun _ => .pure _
  refine .ite ?_ ((unmoved_looks looks_answer).bind fun _ => .ite (.pure _) hdata)
  refine (unmoved_onBus (quietly_storageSelect _) (sameClient_storageSelect _)).bind fun _ => .ite (.pure _) ?_
  exact (unmoved_onBus (quietly_sectorsCommand rfl _ _) (sameClient_of_steady (steady_sectorsCommand _ _ _))).bind fun _ => .ite (.pure _) hdata

theorem unmoved_readMany (lba count : Nat) : Moves (Unmoved Settling) (Hub.diskReadMany lba count) :=
  unmoved_present.bind fun _ => .ite (.pure _) (.bind .get fun _ => .ite (.pure _) (unmoved_rawRead _ _ _))

/-- `disk_write` and `disk_flush`: a look whether the device is present, and the command. -/
theorem unmoved_present_then {x : Hub → StateM (Bus (Option DiskSelection)) Bool} (hsame : ∀ k, Moves SameClient (x k))
    (hx : ∀ k, Vfs.Giving k → (k.bus.xhciUnit = none → Aimed k) → Unmoved Settling k (exec (Hub.onBus (x k)) k).2)
    {R : Hub → Prop} [DecidablePred R] (hgiving : Vfs.Giving h) : Unmoved Settling h (exec (do
      if !(← Hub.diskPresent) then return false
      let k ← get
      if R k then return false
      if isUsb k.selected.id then Hub.onBus (x k) else Hub.onBus answer : StateM Hub Bool) h).2 := by
  have hpresent := unmoved_present h
  have haim := fun hg husb => aimed_present (h := h) hg husb
  rw [exec_bind]
  split
  · exact hpresent
  rename_i hok
  rw [Bool.not_eq_true', Bool.not_eq_false] at hok
  have hgiving : Vfs.Giving (exec Hub.diskPresent h).2 := by
    rw [Vfs.Giving, hpresent.client, hpresent.selection]
    exact hgiving
  have hid : (exec Hub.diskPresent h).2.selected = h.selected := hpresent.selection
  generalize (exec Hub.diskPresent h).2 = k at hpresent haim hgiving hid ⊢
  rw [exec_bind, exec_get]
  split
  · exact hpresent
  split
  · rename_i husb
    refine ⟨fun hg => ?_, hpresent.selection, (hsame k k.bus).client.trans hpresent.client⟩
    have hdone := hx k hgiving fun hxhci => by
      rcases haim hg (by rw [← hid]; exact husb) hok with ⟨-, hne⟩ | ⟨-, haimed⟩
      · exact absurd hxhci hne
      · exact haimed
    exact (trans_of (Unmoved Settling) hpresent hdone).later hg
  · exact trans_of (Unmoved Settling) hpresent (unmoved_looks looks_answer k)

theorem unmoved_diskWrite (hgiving : Vfs.Giving h) (lba : Nat) : Unmoved Settling h (exec (Hub.diskWrite lba) h).2 :=
  unmoved_present_then (fun _ => (sameClient_of_steady (steady_sectorsCommand _ _ _))) (fun _ hk haim => unmoved_write hk haim _ _)
    (R := fun k => k.selected.sectors ≤ lba) hgiving

theorem unmoved_diskFlush (hgiving : Vfs.Giving h) : Unmoved Settling h (exec Hub.diskFlush h).2 := by
  have hrun := unmoved_present_then (x := fun _ => storageFlush) (fun _ => (sameClient_of_steady steady_storageFlush))
    (fun _ hk haim => unmoved_flush hk haim) (R := fun _ => False) hgiving
  simp only [if_false] at hrun
  exact hrun

theorem unmoved_command (c : DiskCommand) (h : Hub) (hok : c.Reads ∨ Layer.client h = none ∨ Layer.client h = some (Layer.selection h)) :
    Unmoved Settling h (exec (Layer.command c) h).2 := by
  cases c with
  | read lba count => exact unmoved_readMany lba count h
  | write lba data => exact unmoved_diskWrite (hok.resolve_left id) lba
  | flush => exact unmoved_diskFlush (hok.resolve_left id)

/-- The selection and for whom commands are given may be anything. -/
theorem Good.same (hg : Good h) (selected : DiskSelection) (client : Option DiskSelection) :
    Settled h { h with selected := selected, bus := { h.bus with client := client } } := by
  refine ⟨⟨⟨hg.current.held, hg.current.counted⟩, fun r hr hc selection hsel => ?_, hg.made⟩, rfl, rfl, rfl⟩
  have hown := hg.own r hr hc selection hsel
  exact ⟨hown.usb, hown.unit, hown.unit_lt, hown.generation, hown.medium⟩

theorem sturdy_settling : Sturdy Settling where
  present := unmoved_present
  command := unmoved_command
  serve v h := ⟨fun hg => hg.same h.selected v, rfl, rfl⟩
  restore selection h := ⟨fun hg => hg.same selection h.bus.client, rfl, rfl⟩
  deselect h := ⟨fun hg => hg.same noDisk h.bus.client, rfl⟩

theorem sturdy_onwards : Sturdy Onwards where
  present h := ⟨(unmoved_present h).later.onwards, (unmoved_present h).selection, (unmoved_present h).client⟩
  command c h hok := ⟨(unmoved_command c h hok).later.onwards, (unmoved_command c h hok).selection, (unmoved_command c h hok).client⟩
  serve v h := ⟨((sturdy_settling.serve v h).1).onwards, rfl, rfl⟩
  restore selection h := ⟨((sturdy_settling.restore selection h).1).onwards, rfl, rfl⟩
  deselect h := ⟨((sturdy_settling.deselect h).1).onwards, rfl⟩

/-! ## Media that have been replaced -/

/-- More media have been enumerated on the unit than when the selection was made. -/
structure Stale (h : Hub) (selection : DiskSelection) : Prop where
  usb : isUsb selection.id = true
  unit_lt : unitOfUsb selection.id < h.bus.deviceCount
  made : ∃ count, (selection, count) ∈ h.made ∧ count < (h.bus.media (unitOfUsb selection.id)).length
  few : (h.bus.media (unitOfUsb selection.id)).length < word

theorem Stale.settled {selection : DiskSelection} (hs : Stale h selection) (hk : Settled h k) : Stale k selection := by
  refine ⟨hs.usb, ?_, ?_, ?_⟩
  · rw [hk.deviceCount]
    exact hs.unit_lt
  · rw [hk.made, hk.media]
    exact hs.made
  · rw [hk.media]
    exact hs.few

/-- What has been replaced is not present. -/
theorem present_stale (hg : Good h) (hs : Stale h h.selected) : (exec Hub.diskPresent h).1 = false := by
  by_contra hok
  rw [Bool.not_eq_false] at hok
  have hmoved := unmoved_present h
  have hsettled := hmoved.later hg
  have hsel : (exec Hub.diskPresent h).2.selected = h.selected := hmoved.selection
  rcases aimed_present hg hs.usb hok with ⟨hle, -⟩ | ⟨-, haim⟩
  · exact absurd hs.unit_lt (Nat.not_lt.2 hle)
  obtain ⟨count, hmade, hlt⟩ := hs.made
  have hgen := haim.generation
  rw [haim.unit, hsel, hsettled.media, Nat.mod_eq_of_lt hs.few] at hgen
  obtain ⟨hcount, -⟩ := hg.made _ hmade hs.usb hs.unit_lt
  rw [Nat.mod_eq_of_lt (Nat.lt_trans hlt hs.few)] at hcount
  exact absurd (hcount.symm.trans hgen) (Nat.ne_of_lt hlt)

/-! ## Selecting -/

/-- The selection names the medium enumerated last on its unit. -/
def Chosen (next : DiskSelection) (h : Hub) : Prop := isUsb next.id = true → unitOfUsb next.id < h.bus.deviceCount →
  next.generation = (h.bus.media (unitOfUsb next.id)).length % word

theorem Chosen.of_same {next other : DiskSelection} (hc : Chosen next h) (hs : Settled h k) (hid : other.id = next.id)
    (hgen : other.generation = next.generation) : Chosen other k := by
  unfold Chosen
  rw [hid, hgen, hs.deviceCount, hs.media]
  exact hc

theorem grown_choose (hg : Good h) {next : DiskSelection} (hc : Chosen next h) : Grown h (exec (Hub.choose next) h).2 := by
  refine ⟨⟨hg.current, fun r hr hk selection hsel => ?_, fun p hp husb hu => ?_⟩, rfl, fun _ => List.suffix_refl _,
    List.suffix_cons _ _⟩
  · have hown := hg.own r hr hk selection hsel
    exact ⟨hown.usb, hown.unit, hown.unit_lt, hown.generation, hown.medium⟩
  · rcases List.mem_cons.1 hp with rfl | hp
    · exact ⟨hc husb hu, Nat.le_refl _⟩
    · exact hg.made p hp husb hu

theorem Grown.trans {l : Hub} (hk : Grown h k) (hl : Grown k l) : Grown h l :=
  ⟨hl.good, hl.deviceCount.trans hk.deviceCount, fun u => (hk.media u).trans (hl.media u), hk.made.trans hl.made⟩

theorem unitOfUsb_usbId (unit : Nat) : unitOfUsb (usbId unit) = unit := by
  unfold unitOfUsb usbId
  split <;> split <;> omega

/-- `select_device` finds what is enumerated on the unit. -/
theorem findDevice_chosen (name : Name) : Ends (Grown h) (Hub.findDevice name) fun r k =>
    Grown h k ∧ ∀ next, r = some next → Chosen next k := by
  have along : ∀ {α : Type} {x : StateM (Bus (Option DiskSelection)) α}, Moves Onward x → ∀ {k}, Grown h k →
      Grown h (exec (Hub.onBus x) k).2 := fun hx k hk => hk.trans (onwards_onBus hx k hk.good)
  unfold Hub.findDevice
  cases Disk.usbNameUnit name with
  | none =>
    refine .bind (.get fun k hk => hk) fun k => .bind (Q := fun _ => Grown h) (fun l hl => ?_) fun _ => .pure fun l hl => ⟨hl, ?_⟩
    · exact along (onward_of_quietly (quietly_of_looks looks_look)) hl
    · rintro next hnext husb
      obtain ⟨found, -, hfound⟩ := Option.bind_eq_some_iff.1 hnext
      split at hfound
      · simp at hfound
      · rename_i hno
        obtain rfl := Option.some.inj hfound
        exact absurd husb hno
  | some unit =>
    have hnone : ∀ {R : Hub → Prop}, (∀ k, R k → Grown h k) → Ends R (Pure.pure none : StateM Hub (Option DiskSelection))
        fun r k => Grown h k ∧ ∀ next, r = some next → Chosen next k :=
      fun hr => .pure fun k hk => ⟨hr k hk, fun next hnext => by simp at hnext⟩
    -- `P` says that an enumerated unit is the current one
    let P : Hub → Prop := fun k => Grown h k ∧ (unit < k.bus.deviceCount → k.bus.xhciUnit = none ∧ k.bus.unit = unit)
    have keep : ∀ {α : Type} {x : StateM (Bus (Option DiskSelection)) α}, Moves Onward x → Moves Steady x →
        Ends P (Hub.onBus x) fun _ => P := by
      intro α x hx hsteady k hk
      have hsame : (exec (Hub.onBus x) k).2.bus.deviceCount = k.bus.deviceCount := (onwards_onBus hx k hk.1.good).deviceCount
      refine ⟨along hx hk.1, fun hu => ?_⟩
      obtain ⟨hn, hunit⟩ := hk.2 (by rw [← hsame]; exact hu)
      exact ⟨(hsteady k.bus).xhciUnit.trans hn, (hsteady k.bus).unit.trans hunit⟩
    refine .bind (Q := fun ok k => Grown h k ∧ (ok = true → P k)) (fun k hk => ?_) fun ok => .ite (fun _ => hnone fun k hk => hk.1)
      fun hok => ?_
    · have hl := along (onward_of_quietly (quietly_storageSelect unit)) hk
      refine ⟨hl, fun hok => ⟨hl, fun hu => ?_⟩⟩
      have hu : unit < k.bus.deviceCount := by
        rw [hk.deviceCount, ← hl.deviceCount]
        exact hu
      rcases storageSelect_unit unit k.bus hok with ⟨hle, -⟩ | ⟨-, hunit⟩
      · exact absurd hu (Nat.not_lt.2 hle)
      · exact hunit
    refine .weaken (fun k hk => hk.2 (by simpa using hok)) ?_
    refine .bind (keep onward_storageProbe steady_storageProbe) fun _ => .ite (fun _ => hnone fun k hk => hk.1) fun _ => ?_
    refine .bind (keep (onward_of_quietly (quietly_of_looks looks_storageSectors)) (steady_of_looks looks_storageSectors))
      fun sectors => ?_
    refine .bind (Q := fun generation k => P k ∧ (unit < k.bus.deviceCount → generation = (k.bus.media unit).length % word))
      (fun k hk => ?_) fun generation => .pure fun k hk => ⟨hk.1.1, fun next hnext husb hu => ?_⟩
    · refine ⟨keep (onward_of_quietly (quietly_of_looks looks_storageGeneration)) (steady_of_looks looks_storageGeneration) k hk,
        fun hu => ?_⟩
      have hl := looks_storageGeneration k.bus
      obtain ⟨hn, hunit⟩ := hk.2 (by rw [← hl.deviceCount]; exact hu)
      have hgen : (exec storageGeneration k.bus).1 = (k.bus.devices k.bus.unit).generation := by simp [storageGeneration, hn]
      show (exec storageGeneration k.bus).1 = ((exec storageGeneration k.bus).2.media unit).length % word
      rw [hgen, hl.media, hk.1.good.current.counted, hunit]
    · obtain rfl := Option.some.inj hnext
      simp only [unitOfUsb_usbId] at hu ⊢
      exact hk.2 hu

theorem unmoved_findVolume (raw : Bool) (next : DiskSelection) : Moves (Unmoved Settling) (Hub.findVolume raw next) := by
  refine .ite (.pure _) (.ite (.pure _) ?_)
  refine ((unmoved_rawRead _ _ _).bind fun first => ?_)
  rcases first with _ | _ | ⟨super, rest⟩
  · exact .pure _
  · exact .pure _
  refine .ite (.pure _) ((unmoved_rawRead _ _ _).bind fun record => ?_)
  rcases record with _ | _ | ⟨mbr, rest⟩ <;> exact .pure _

theorem linuxPartition_same {mbr : Sector} {next other : DiskSelection} (ho : Hub.linuxPartition mbr next = some other) :
    other.id = next.id ∧ other.generation = next.generation := by
  unfold Hub.linuxPartition at ho
  repeat' split at ho
  all_goals simp only [Option.some.injEq, reduceCtorEq] at ho
  all_goals subst ho; exact ⟨rfl, rfl⟩

/-- A volume is on the device it is looked for on. -/
theorem findVolume_same {raw : Bool} {next other : DiskSelection} (ho : (exec (Hub.findVolume raw next) h).1 = some other) :
    other.id = next.id ∧ other.generation = next.generation := by
  have key : Ends (fun _ => True) (Hub.findVolume raw next) fun r _ => ∀ other, r = some other →
      other.id = next.id ∧ other.generation = next.generation := by
    have hnone : Ends (fun _ : Hub => True) (Pure.pure none : StateM Hub (Option DiskSelection)) fun r _ => ∀ other, r = some other →
        other.id = next.id ∧ other.generation = next.generation := .pure fun _ _ other ho => by simp at ho
    have hread : ∀ lba, Ends (fun _ => True) (Hub.rawRead next.id lba 1) fun _ _ => True := fun _ _ _ => trivial
    have hsame : Ends (fun _ : Hub => True) (Pure.pure (some next) : StateM Hub (Option DiskSelection)) fun r _ =>
        ∀ other, r = some other → other.id = next.id ∧ other.generation = next.generation := by
      refine .pure fun _ _ other ho => ?_
      obtain rfl := Option.some.inj ho
      exact ⟨rfl, rfl⟩
    refine .ite (fun _ => hsame) fun _ => .ite (fun _ => hnone) fun _ => .bind (hread 2) fun first => ?_
    rcases first with _ | _ | ⟨super, rest⟩
    · exact hnone
    · exact hnone
    refine .ite (fun _ => hsame) fun _ => .bind (hread 0) fun record => ?_
    rcases record with _ | _ | ⟨mbr, rest⟩
    · exact hnone
    · exact hnone
    · exact .pure fun _ _ other ho => linuxPartition_same ho
  exact key h trivial other ho

/-- What is selected in the end was enumerated last. -/
theorem selectDevice_chosen (name : Name) (raw : Bool) : Ends (Grown h) (Hub.selectDevice name raw) fun ok k =>
    Grown h k ∧ (ok = true → Chosen k.selected k) := by
  have hfalse : ∀ {R : Hub → Prop}, (∀ k, R k → Grown h k) → Ends R (Pure.pure false : StateM Hub Bool)
      fun ok k => Grown h k ∧ (ok = true → Chosen k.selected k) := fun hr => .pure fun k hk => ⟨hr k hk, fun he => by simp at he⟩
  refine .bind (findDevice_chosen name) fun found => ?_
  cases found with
  | none => exact hfalse fun k hk => hk.1
  | some next =>
    refine .bind (Q := fun r k => Grown h k ∧ ∀ other, r = some other → Chosen other k) (fun k hk => ?_) fun found => ?_
    · have hs := (unmoved_findVolume raw next k).later hk.1.good
      refine ⟨hk.1.trans ((unmoved_findVolume raw next k).later.onwards hk.1.good), fun other ho => ?_⟩
      obtain ⟨hid, hgen⟩ := findVolume_same ho
      exact (hk.2 next rfl).of_same hs hid hgen
    · cases found with
      | none => exact hfalse fun k hk => hk.1
      | some other =>
        refine .bind (Q := fun _ k => Grown h k ∧ Chosen k.selected k) (fun k hk => ?_) fun _ => .pure fun k hk => ⟨hk.1, fun _ => hk.2⟩
        exact ⟨hk.1.trans (grown_choose hk.1.good (hk.2 other rfl)), hk.2 other rfl⟩

theorem selectPartition_grown (i : Nat) : Ends (fun k => Grown h k ∧ Chosen k.selected k) (Hub.selectPartition i) fun _ => Grown h := by
  refine .bind (Q := fun _ k => Grown h k ∧ Chosen k.selected k) (fun k hk => ?_) fun record => ?_
  · have hread := unmoved_readMany 0 1 k
    have hs := hread.later hk.1.good
    have hsame : (exec (Hub.diskReadMany 0 1) k).2.selected = k.selected := hread.selection
    refine ⟨hk.1.trans (hread.later.onwards hk.1.good), ?_⟩
    rw [hsame]
    exact hk.2.of_same hs rfl rfl
  rcases record with _ | _ | ⟨mbr, rest⟩
  · exact .pure fun k hk => hk.1
  · exact .pure fun k hk => hk.1
  rintro k ⟨hk, hc⟩
  rw [exec_bind, exec_get]
  cases Hub.entryOf mbr i k.selected.sectors with
  | none => exact hk
  | some entry => exact hk.trans (grown_choose hk.good hc)

theorem onwards_select (raw : Bool) (name : Name) : Moves Onwards (Hub.selectNamed raw name) := by
  intro h hg
  have hstart : Grown h h := refl_of Onwards h hg
  unfold Hub.selectNamed
  cases Hub.partitionName name with
  | none => exact (selectDevice_chosen name raw h hstart).1
  | some base =>
    have key : Ends (Grown h) (do
        if 32 ≤ base.1.length then return false
        if !(← Hub.selectDevice base.1 true) then return false
        Hub.selectPartition base.2 : StateM Hub Bool) fun _ => Grown h := by
      refine .ite (fun _ => .pure fun k hk => hk) fun _ => .bind (selectDevice_chosen base.1 true) fun ok => ?_
      refine .ite (fun _ => .pure fun k hk => hk.1) fun hok => .weaken (fun k hk => ⟨hk.1, hk.2 ?_⟩) (selectPartition_grown base.2)
      simpa using hok
    exact key h hstart

/-- For whom commands are given stays the same. -/
def SameHubClient (h k : Hub) : Prop := Layer.client k = Layer.client h

instance : Std.Refl SameHubClient := ⟨fun _ => rfl⟩

instance : IsTrans Hub SameHubClient := ⟨fun _ _ _ h h' => h'.trans h⟩

theorem sameHubClient_select (raw : Bool) (name : Name) : Moves SameHubClient (Hub.selectNamed raw name) :=
  Hub.moves_selectNamed (fun hx h => (hx h.bus).client) (fun _ _ => rfl) raw name

theorem selecting_onwards : Selecting Onwards where
  toSturdy := sturdy_onwards
  select raw name h := ⟨onwards_select raw name h, sameHubClient_select raw name h⟩

end Barnix.Usb
