import Barnix.Usb.Ports
import Mathlib.Data.List.Infix
/-!
# The medium in a port

Why a generation stands for a medium: a unit is ready only between an
enumeration and the next change of its port, and a port is enabled only by an
enumeration. So the packets of a command for a ready unit reach the medium that
was enumerated last, and the generation is the number of those enumerated.
-/

namespace Barnix.Usb

variable {τ : Type} {s t : Bus τ}

/-- A transfer of this kind changes the medium, or tells it to keep a change. -/
def Kind.changes : Kind → Bool
  | .write | .flush => true
  | .setup | .read => false

structure Current (s : Bus τ) : Prop where
  held : ∀ u, (s.devices u).ready = true → (s.ports u).enabled = true → (s.ports u).medium = (s.media u).head?
  counted : ∀ u, (s.devices u).generation = (s.media u).length % word

/-! ## Looking -/

/-- A port that is still enabled has not been touched. -/
theorem events_enabled (events : List PortEvent) (ports : Nat → Port) (u : Nat)
    (h : (events.foldl PortEvent.on ports u).enabled = true) : events.foldl PortEvent.on ports u = ports u := by
  induction events generalizing ports with
  | nil => rfl
  | cons event events ih =>
    rw [List.foldl_cons] at h ⊢
    have hlater := ih _ h
    rw [hlater] at h ⊢
    cases event with
    | unplug unit | plug unit =>
      by_cases hu : u = unit
      · simp [PortEvent.on, hu] at h
      · simp [PortEvent.on, Function.update_of_ne hu]

/-- Nothing is done but looking at the hardware and asking devices. -/
structure Looks (s t : Bus τ) : Prop where
  devices : t.devices = s.devices
  deviceCount : t.deviceCount = s.deviceCount
  media : t.media = s.media
  client : t.client = s.client
  unit : t.unit = s.unit
  xhciUnit : t.xhciUnit = s.xhciUnit
  ports : ∀ u, (t.ports u).enabled = true → t.ports u = s.ports u
  log : ∀ r ∈ t.log, r.kind.changes = true → r ∈ s.log

instance : Std.Refl (Looks (τ := τ)) := ⟨fun _ => ⟨rfl, rfl, rfl, rfl, rfl, rfl, fun _ _ => rfl, fun _ h _ => h⟩⟩

instance : IsTrans (Bus τ) Looks := ⟨fun s t u h h' => by
  refine ⟨h'.devices.trans h.devices, h'.deviceCount.trans h.deviceCount, h'.media.trans h.media,
    h'.client.trans h.client, h'.unit.trans h.unit, h'.xhciUnit.trans h.xhciUnit, fun v hv => ?_,
    fun r hr hc => h.log r (h'.log r hr hc) hc⟩
  have := h'.ports v hv
  rw [this] at hv ⊢
  exact h.ports v hv⟩

theorem looks_look : Moves Looks (look (τ := τ)) :=
  fun _ => ⟨rfl, rfl, rfl, rfl, rfl, rfl, fun u hu => events_enabled _ _ u hu, fun _ h _ => h⟩

theorem looks_answer : Moves Looks (answer (τ := τ)) := looks_look.bind fun _ => .bind .get fun _ => .pure _

theorem looks_status : Moves Looks (status (τ := τ)) := looks_look.bind fun _ => .bind .get fun _ => .pure _

theorem looks_connected : Moves Looks (connected (τ := τ)) := looks_status.bind fun _ => .pure _

theorem looks_log (p : Port) {kind : Kind} (h : kind.changes = false) :
    Moves Looks (modify fun s : Bus τ => { s with log := s.log ++ s.reached p kind }) := by
  refine .modify fun s => ⟨rfl, rfl, rfl, rfl, rfl, rfl, fun _ _ => rfl, fun r hr hc => ?_⟩
  rcases List.mem_append.1 hr with hr | hr
  · exact hr
  · obtain ⟨m, -, rfl⟩ := List.mem_map.1 hr
    simp [h] at hc

theorem looks_transfer {kind : Kind} (h : kind.changes = false) : Moves Looks (transfer (τ := τ) kind) :=
  looks_status.bind fun p => .bind .get fun _ => .ite (.pure _) ((looks_log p h).bind fun _ => looks_answer)

theorem looks_exchange (n : Nat) : Moves Looks (exchange (τ := τ) n) := by
  induction n with
  | zero => exact .pure _
  | succ n ih => exact (looks_transfer rfl).bind fun _ => .ite (.pure _) ih

theorem looks_storageSectors : Moves Looks (storageSectors (τ := τ)) :=
  .bind .get fun _ => .ite (looks_look.bind fun _ => .pure _) (.pure _)

theorem looks_storageGeneration : Moves Looks (storageGeneration (τ := τ)) :=
  .bind .get fun _ => .ite (looks_look.bind fun _ => .pure _) (.pure _)

/-! ## Calls that enumerate nothing -/

/-- What the driver may have done between `s` and `t` without a command that changes a medium,
and without an enumeration. -/
structure Calm (s t : Bus τ) : Prop where
  current : Current t
  deviceCount : t.deviceCount = s.deviceCount
  client : t.client = s.client
  media : t.media = s.media
  log : ∀ r ∈ t.log, r.kind.changes = true → r ∈ s.log

def Quietly (s t : Bus τ) : Prop := Current s → Calm s t

theorem Calm.trans {u : Bus τ} (h : Calm s t) (h' : Calm t u) : Calm s u :=
  ⟨h'.current, h'.deviceCount.trans h.deviceCount, h'.client.trans h.client, h'.media.trans h.media,
    fun r hr hc => h.log r (h'.log r hr hc) hc⟩

instance : Std.Refl (Quietly (τ := τ)) := ⟨fun _ h => ⟨h, rfl, rfl, rfl, fun _ hr _ => hr⟩⟩

instance : IsTrans (Bus τ) Quietly := ⟨fun _ _ _ h h' hs => (h hs).trans (h' (h hs).current)⟩

theorem Looks.quietly (h : Looks s t) : Quietly s t := by
  intro hs
  refine ⟨⟨fun u hr he => ?_, fun u => ?_⟩, h.deviceCount, h.client, h.media, h.log⟩
  · have hport := h.ports u he
    rw [h.devices] at hr
    rw [hport] at he ⊢
    rw [h.media]
    exact hs.held u hr he
  · rw [h.devices, h.media]
    exact hs.counted u

theorem quietly_of_looks {α : Type} {x : StateM (Bus τ) α} (h : Moves Looks x) : Moves Quietly x := fun s => (h s).quietly

/-- A change of the current device that makes nothing ready. -/
theorem quietly_setDevice {f : UsbDevice → UsbDevice} (hr : ∀ d, (f d).ready = true → d.ready = true)
    (hg : ∀ d, (f d).generation = d.generation) : Moves Quietly (setDevice (τ := τ) f) := by
  intro s hs
  refine ⟨⟨fun u hready he => hs.held u ?_ he, fun u => ?_⟩, rfl, rfl, rfl, fun _ h _ => h⟩
  all_goals by_cases hu : u = s.unit
  · subst hu
    exact hr _ (by simpa [setDevice] using hready)
  · simpa [setDevice, Function.update_of_ne hu] using hready
  · subst hu
    simpa [setDevice, hg] using hs.counted s.unit
  · simpa [setDevice, Function.update_of_ne hu] using hs.counted u

/-- A port whose unit is not ready may be set to anything. -/
theorem quietly_setPort {f : Port → Port}
    (h : (s.devices s.unit).ready = false ∨ (f (s.ports s.unit)).enabled = false) : Quietly s (exec (setPort f) s).2 := by
  intro hs
  refine ⟨⟨fun u hready he => ?_, hs.counted⟩, rfl, rfl, rfl, fun _ h _ => h⟩
  by_cases hu : u = s.unit
  · subst hu
    rcases h with h | h
    · exact absurd (hready.symm.trans h) (by simp)
    · simp [setPort, h] at he
  · simp only [setPort, exec_modify, Function.update_of_ne hu] at he ⊢
    exact hs.held u hready he

/-! ## Enumerating -/

/-- What the driver may have done between `s` and `t` without a command that changes a medium. -/
structure After (s t : Bus τ) : Prop where
  current : Current t
  deviceCount : t.deviceCount = s.deviceCount
  client : t.client = s.client
  media : ∀ u, s.media u <:+ t.media u
  log : ∀ r ∈ t.log, r.kind.changes = true → r ∈ s.log

def Onward (s t : Bus τ) : Prop := Current s → After s t

theorem After.trans {u : Bus τ} (h : After s t) (h' : After t u) : After s u :=
  ⟨h'.current, h'.deviceCount.trans h.deviceCount, h'.client.trans h.client, fun v => (h.media v).trans (h'.media v),
    fun r hr hc => h.log r (h'.log r hr hc) hc⟩

theorem Quietly.onward (h : Quietly s t) : Onward s t := fun hs =>
  ⟨(h hs).current, (h hs).deviceCount, (h hs).client, fun u => by rw [(h hs).media], (h hs).log⟩

theorem onward_of_quietly {α : Type} {x : StateM (Bus τ) α} (h : Moves Quietly x) : Moves Onward x := fun s => (h s).onward

instance : Std.Refl (Onward (τ := τ)) := ⟨fun s => (refl_of Quietly s).onward⟩

instance : IsTrans (Bus τ) Onward := ⟨fun _ _ _ h h' hs => (h hs).trans (h' (h hs).current)⟩

/-- The state before the last step of an enumeration: nothing is ready on the unit, and
what its port holds while it stays enabled is `m`. -/
structure Holding (m : Medium) (s t : Bus τ) : Prop where
  after : After s t
  notReady : (t.devices t.unit).ready = false
  port : (t.ports t.unit).enabled = true → (t.ports t.unit).medium = some m

theorem Holding.looks {m : Medium} {u : Bus τ} (h : Holding m s t) (hl : Looks t u) : Holding m s u := by
  refine ⟨h.after.trans (hl.quietly.onward h.after.current), by rw [hl.unit, hl.devices, h.notReady], fun he => ?_⟩
  have hport := hl.ports _ he
  rw [hl.unit] at he hport ⊢
  rw [hport] at he ⊢
  exact h.port he

/-- A medium that is enumerated is the one its port holds, and the next generation. -/
theorem Holding.enumerated {m : Medium} (h : Holding m s t) (sectors : Nat) : After s (exec (enumerated sectors m) t).2 := by
  refine ⟨⟨fun u hr he => ?_, fun u => ?_⟩, h.after.deviceCount, h.after.client, fun u => ?_, h.after.log⟩
  all_goals by_cases hu : u = t.unit
  · subst hu
    simpa [Usb.enumerated, setDevice] using h.port he
  · simp only [Usb.enumerated, setDevice, exec_bind, exec_modify, Function.update_of_ne hu] at hr ⊢
    exact h.after.current.held u hr he
  · subst hu
    have := h.after.current.counted t.unit
    simp [Usb.enumerated, setDevice, this]
  · simpa [Usb.enumerated, setDevice, Function.update_of_ne hu] using h.after.current.counted u
  · subst hu
    simpa [Usb.enumerated, setDevice] using (h.after.media t.unit).trans (List.suffix_cons m _)
  · simpa [Usb.enumerated, setDevice, Function.update_of_ne hu] using h.after.media u

theorem Port.connected_medium {p : Port} (h : p.connected = true) : p.medium = some (p.medium.getD 0) := by
  cases hm : p.medium with
  | none => simp [Port.connected, hm] at h
  | some m => rfl

theorem onward_enumeratePort (h : (s.devices s.unit).ready = false) : Onward s (exec enumeratePort s).2 := by
  intro hs
  have looking : ∀ {α : Type} {x : StateM (Bus τ) α}, Moves Looks x → Ends (Looks s) x fun _ => Looks s :=
    fun hx => .of_moves hx fun _ _ ht h => trans_of Looks h ht
  have holding : ∀ {α : Type} {x : StateM (Bus τ) α} (m : Medium), Moves Looks x → Ends (Holding m s) x fun _ => Holding m s :=
    fun m hx => .of_moves hx fun _ _ ht h => h.looks ht
  let P : Bus τ → Prop := fun t => After s t ∧ (t.devices t.unit).ready = false
  have key : Ends (Looks s) enumeratePort fun _ => After s := by
    refine .bind (looking looks_status) fun p => .ite (fun _ => .pure fun _ ht => ht.quietly.onward hs) fun _ => ?_
    refine .bind (looking looks_answer) fun taken => .bind (Q := fun _ => P) (fun t ht => ?_) fun _ => ?_
    · -- the port may be enabled: nothing is ready on it
      have hnot : (t.devices t.unit).ready = false := by rw [ht.unit, ht.devices, h]
      exact ⟨(ht.quietly.onward hs).trans ((quietly_setPort (.inl hnot)).onward (ht.quietly.onward hs).current), hnot⟩
    refine .bind (Q := fun p t => P t ∧ p = t.ports t.unit) (fun t ht => ?_) fun p => ?_
    · have hl := looks_status t
      exact ⟨⟨ht.1.trans (hl.quietly.onward ht.1.current), by rw [hl.unit, hl.devices, ht.2]⟩, rfl⟩
    refine .ite (fun _ => .pure fun _ ht => ht.1.1) fun hconn => ?_
    -- from here on the port holds `p.medium`, unless it is touched and so disabled
    have hsome := Port.connected_medium (p := p) (by simpa using hconn)
    have hhold : ∀ t, P t ∧ p = t.ports t.unit → Holding (p.medium.getD 0) s t :=
      fun t ht => ⟨ht.1.1, ht.1.2, fun _ => ht.2 ▸ hsome⟩
    refine Ends.weaken hhold (.bind (holding _ looks_look) fun time => .bind (holding _ .get) fun u => ?_)
    refine .bind (holding _ (looks_exchange _)) fun ok => .ite (fun _ => .pure fun _ ht => ht.after) fun _ => ?_
    refine .bind (holding _ .get) fun v => ?_
    cases v.outside.found time with
    | nothing => exact .pure fun _ ht => ht.after
    | pointer =>
      refine .bind (Q := fun _ => After s) (fun t ht => ?_) fun _ => .pure fun _ ht => ht
      exact ht.after.trans ((quietly_setDevice (f := fun d => { d with mouse := true }) (fun _ h => h) (fun _ => rfl) t).onward ht.after.current)
    | storage sectors => exact .bind (Q := fun _ => After s) (fun t ht => ht.enumerated sectors) fun _ => .pure fun _ ht => ht
  exact key s (refl_of Looks s)

/-! ## The driver's calls -/

theorem quietly_unready : Moves Quietly (setDevice (τ := τ) ({ · with ready := false })) :=
  quietly_setDevice (fun _ h => by simp at h) (fun _ => rfl)

theorem quietly_seen : Moves Quietly (setDevice (τ := τ) ({ · with seen := true })) :=
  quietly_setDevice (fun _ h => h) (fun _ => rfl)

theorem quietly_giveUp : Moves Quietly (giveUp (τ := τ)) :=
  (quietly_of_looks looks_look).bind fun _ => .bind .get fun _ => .bind (fun _ => quietly_setPort (.inr rfl)) fun _ =>
    quietly_unready

/-- What `usb_storage_present` says of a unit that is not xHCI's. -/
theorem storagePresent_spec (hx : s.xhciUnit = none) :
    ((exec storagePresent s).1 = true ∧ Looks s (exec storagePresent s).2 ∧ (s.devices s.unit).ready = true) ∨
      ((exec storagePresent s).1 = false ∧ Quietly s (exec storagePresent s).2 ∧
        (exec storagePresent s).2.unit = s.unit ∧ (exec storagePresent s).2.xhciUnit = none ∧
        ((exec storagePresent s).2.devices s.unit).ready = false) := by
  have hlook := looks_connected s
  unfold storagePresent
  rw [exec_bind, exec_get, if_neg (by simp [hx])]
  cases hr : (s.devices s.unit).ready with
  | false =>
    refine .inr ⟨rfl, quietly_unready s, rfl, hx, ?_⟩
    simp [setDevice]
  | true =>
    rw [if_pos rfl, exec_bind]
    cases (exec connected s).1 with
    | true => exact .inl ⟨rfl, hlook, rfl⟩
    | false =>
      refine .inr ⟨rfl, trans_of Quietly hlook.quietly (quietly_unready _), hlook.unit, hlook.xhciUnit.trans hx, ?_⟩
      simp [setDevice, hlook.unit]

theorem quietly_storagePresent : Moves Quietly (storagePresent (τ := τ)) := by
  intro s
  cases hx : s.xhciUnit with
  | none =>
    rcases storagePresent_spec hx with ⟨-, h, -⟩ | ⟨-, h, -⟩
    · exact h.quietly
    · exact h
  | some unit =>
    have : exec storagePresent s = exec answer s := by simp [storagePresent, hx]
    rw [this]
    exact (looks_answer s).quietly

theorem quietly_storageSelect (index : Nat) : Moves Quietly (storageSelect (τ := τ) index) := by
  have hmodify : ∀ f : Bus τ → Bus τ, (∀ s, f s = { s with unit := (f s).unit, xhciUnit := (f s).xhciUnit }) →
      Moves Quietly (modify f) := by
    intro f hf s hs
    show Calm s (f s)
    rw [hf s]
    exact ⟨⟨hs.held, hs.counted⟩, rfl, rfl, rfl, fun _ h _ => h⟩
  refine .ite (.pure _) (.bind .get fun s => .ite ?_ ?_)
  · exact (hmodify _ fun _ => rfl).bind fun _ => (quietly_of_looks looks_answer).bind fun _ => .pure _
  · exact (hmodify _ fun _ => rfl).bind fun _ => .pure _

/-- Where `usb_storage_select` succeeds, the unit is the current one, or one of xHCI's. -/
theorem storageSelect_unit (index : Nat) (s : Bus τ) (hok : (exec (storageSelect index) s).1 = true) :
    (s.deviceCount ≤ index ∧ (exec (storageSelect index) s).2.xhciUnit ≠ none) ∨
      (index < s.deviceCount ∧ (exec (storageSelect index) s).2.xhciUnit = none ∧ (exec (storageSelect index) s).2.unit = index) := by
  by_cases hmax : usbMax ≤ index
  · simp [storageSelect, hmax] at hok
  by_cases hcount : s.deviceCount ≤ index
  · have hrun : exec (storageSelect index) s = exec answer { s with xhciUnit := some (index - s.deviceCount) } := by
      simp [storageSelect, hmax, hcount]
    have hlook := (looks_answer { s with xhciUnit := some (index - s.deviceCount) }).xhciUnit
    rw [hrun, hlook]
    exact .inl ⟨hcount, by simp⟩
  · refine .inr ⟨Nat.lt_of_not_le hcount, ?_⟩
    simp [storageSelect, hmax, hcount]

/-- The generation of a unit that is present counts the media enumerated there. -/
theorem generation_present (hs : Current s) (hx : s.xhciUnit = none)
    (hp : (exec storagePresent s).1 = true) :
    Looks s (exec storageGeneration (exec storagePresent s).2).2 ∧
      (exec storageGeneration (exec storagePresent s).2).1 = (s.media s.unit).length % word := by
  rcases storagePresent_spec hx with ⟨-, hl, -⟩ | ⟨hno, -⟩
  · refine ⟨trans_of Looks hl (looks_storageGeneration _), ?_⟩
    have hgen : (exec storageGeneration (exec storagePresent s).2).1 =
        ((exec storagePresent s).2.devices (exec storagePresent s).2.unit).generation := by
      simp [storageGeneration, hl.xhciUnit.trans hx]
    rw [hgen, hl.devices, hl.unit, hs.counted]
  · exact absurd (hp.symm.trans hno) (by simp)

theorem onward_storageProbe : Moves Onward (storageProbe (τ := τ)) := by
  intro s
  cases hx : s.xhciUnit with
  | some unit =>
    have : exec storageProbe s = exec answer s := by simp [storageProbe, hx]
    rw [this]
    exact (looks_answer s).quietly.onward
  | none =>
    intro hs
    let P : Bus τ → Prop := fun t => After s t ∧ (t.devices t.unit).ready = false
    have along : ∀ {α : Type} {x : StateM (Bus τ) α}, Moves Onward x → Ends (After s) x fun _ => After s :=
      fun hx => .of_moves hx fun _ _ ht h => h.trans (ht h.current)
    have rest : Ends P (do
        let s ← get
        if (s.devices s.unit).mouse then
          if ← connected then return false
        if s.deviceCount ≤ s.unit then return false
        let result ← enumeratePort
        setDevice ({ · with seen := true })
        if result = 0 then return true
        if result = 1 then return false
        giveUp
        return false : StateM (Bus τ) Bool) fun _ => After s := by
      have tail : Ends P (do
          let result ← enumeratePort
          setDevice ({ · with seen := true })
          if result = 0 then return true
          if result = 1 then return false
          giveUp
          return false : StateM (Bus τ) Bool) fun _ => After s := by
        refine .bind (Q := fun _ => After s) (fun t ht => ht.1.trans (onward_enumeratePort ht.2 ht.1.current)) fun result => ?_
        refine .bind (along (onward_of_quietly quietly_seen)) fun _ => .ite (fun _ => .pure fun _ h => h) fun _ => ?_
        exact .ite (fun _ => .pure fun _ h => h) fun _ => .bind (along (onward_of_quietly quietly_giveUp)) fun _ => .pure fun _ h => h
      refine .bind (.get fun t ht => ht) fun t => .ite (fun _ => ?_) fun _ => ?_
      · refine .bind (Q := fun _ => P) (fun t ht => ?_) fun ok => ?_
        · have hl := looks_connected t
          exact ⟨ht.1.trans (hl.quietly.onward ht.1.current), by rw [hl.unit, hl.devices, ht.2]⟩
        · exact .ite (fun _ => .pure fun _ h => h.1) fun _ => .ite (fun _ => .pure fun _ h => h.1) fun _ => tail
      · exact .ite (fun _ => .pure fun _ h => h.1) fun _ => tail
    unfold storageProbe
    rw [exec_bind, exec_get, if_neg (by simp [hx]), exec_bind]
    rcases storagePresent_spec hx with ⟨hok, hl, -⟩ | ⟨hok, ho, hu, -, hr⟩
    · rw [hok, if_pos rfl]
      exact hl.quietly.onward hs
    · rw [hok, if_neg (by simp)]
      exact rest _ ⟨ho.onward hs, by rw [hu, hr]⟩

/-! ## Reading -/

theorem quietly_broken : Moves Quietly (broken (τ := τ)) := quietly_unready.bind fun _ => .pure _

theorem quietly_command {kind : Kind} (h : kind.changes = false) (data : Bool) : Moves Quietly (command (τ := τ) kind data) := by
  have htransfer := quietly_of_looks (looks_transfer (τ := τ) h)
  have hlast : Moves Quietly (do
      if !(← transfer kind) then return ← broken
      return if ← answer then 0 else 1 : StateM (Bus τ) Int) :=
    htransfer.bind fun _ => .ite quietly_broken ((quietly_of_looks looks_answer).bind fun _ => .pure _)
  exact htransfer.bind fun _ => .ite quietly_broken (.ite (htransfer.bind fun _ => .ite quietly_broken hlast) hlast)

theorem quietly_sectorsCommand {kind : Kind} (h : kind.changes = false) (lba count : Nat) :
    Moves Quietly (sectorsCommand (τ := τ) kind lba count) := by
  refine .bind .get fun s => .ite (quietly_of_looks looks_answer) (quietly_storagePresent.bind fun _ => .ite (.pure _) ?_)
  exact .bind .get fun s => .ite (.pure _) ((quietly_command h true).bind fun _ => .pure _)

/-! ## The mouse poll -/

theorem onward_pollUnit : Moves Onward (pollUnit (τ := τ)) := by
  intro s hs
  have along : ∀ {α : Type} {x : StateM (Bus τ) α}, Moves Onward x → Ends (After s) x fun _ => After s :=
    fun hx => .of_moves hx fun _ _ ht h => h.trans (ht h.current)
  have hchanged : ∀ p : Port, Ends (After s) (portChanged p) fun _ => After s := by
    intro p
    refine .ite (fun _ => ?_) fun _ => .pure fun _ h => h
    refine .bind (Q := fun _ t => After s t ∧ (t.devices t.unit).ready = false) (fun t ht => ?_) fun _ => .ite (fun _ => ?_) fun _ => ?_
    · have hdown := quietly_setDevice (f := fun d => { d with mouse := false, seen := false, ready := false })
        (fun _ h => by simp at h) (fun _ => rfl) t
      exact ⟨ht.trans (hdown.onward ht.current), by simp [setDevice]⟩
    · -- the change is acknowledged while nothing is ready
      refine .bind (Q := fun _ t => After s t ∧ (t.devices t.unit).ready = false) (fun t ht => ?_) fun _ => ?_
      · have hl := looks_look t
        exact ⟨ht.1.trans (hl.quietly.onward ht.1.current), by rw [hl.unit, hl.devices, ht.2]⟩
      · exact fun t ht => ht.1.trans ((quietly_setPort (.inl ht.2)).onward ht.1.current)
    · exact .pure fun _ h => h.1
  have key : Ends (After s) pollUnit fun _ => After s := by
    have htail : Ends (After s) (do
        let s ← get
        if (s.devices s.unit).mouse then mouseReport : StateM (Bus τ) Unit) fun _ => After s := by
      refine .bind (along .get) fun t => .ite (fun _ => ?_) fun _ => .pure fun _ h => h
      refine .bind (along (onward_of_quietly (quietly_of_looks looks_answer))) fun _ =>
        .ite (fun _ => along (onward_of_quietly ?_)) fun _ => .pure fun _ h => h
      exact quietly_setDevice (fun _ h => h) (fun _ => rfl)
    refine .bind (along (onward_of_quietly (quietly_of_looks looks_status))) fun p => .bind (hchanged p) fun _ => ?_
    refine .ite (fun _ => .pure fun _ h => h) fun _ => .bind (.get (Q := fun t u => t = u ∧ After s u) fun _ h => ⟨rfl, h⟩) fun t => ?_
    refine .ite (fun hnew => ?_) fun _ => .weaken (fun _ h => h.2) htail
    have hready : (t.devices t.unit).ready = false := by
      simp only [Bool.and_eq_true, Bool.not_eq_true'] at hnew
      exact hnew.2
    refine .bind (Q := fun _ u => After s u ∧ (u.devices u.unit).ready = false) (fun u hu => ?_) fun _ => ?_
    · obtain ⟨rfl, hu⟩ := hu
      exact ⟨hu.trans ((quietly_seen t).onward hu.current), by simpa [setDevice] using hready⟩
    refine .bind (Q := fun _ => After s) (fun u hu => hu.1.trans (onward_enumeratePort hu.2 hu.1.current)) fun _ => ?_
    exact .ite (fun _ => .pure fun _ h => h) fun _ => htail
  exact key s (refl_of Onward s hs)

theorem onward_mousePoll : Moves Onward (mousePoll (τ := τ)) := by
  have hunit : ∀ n : Nat, Moves Onward (modify fun s : Bus τ => { s with unit := n }) :=
    fun n => .modify fun s hs => ⟨⟨hs.held, hs.counted⟩, rfl, rfl, fun _ => List.suffix_refl _, fun _ h _ => h⟩
  have hloop : ∀ ns, Moves Onward (pollLoop (τ := τ) ns) := by
    intro ns
    induction ns with
    | nil => exact .pure _
    | cons n ns ih => exact (hunit n).bind fun _ => onward_pollUnit.bind fun _ => ih
  exact .bind .get fun s => .ite (.pure _) ((hloop _).bind fun _ => hunit s.unit)

/-! ## Commands -/

/-- The transfer reached the medium enumerated last on the current unit. -/
structure Latest (s : Bus τ) (r : Reach τ) : Prop where
  unit : r.unit = s.unit
  count : r.count = (s.media s.unit).length
  medium : some r.medium = (s.media s.unit).head?
  client : r.client = s.client

/-- Commands for the current unit, between `s` and `t`. -/
structure Sent (s t : Bus τ) : Prop where
  current : Current t
  deviceCount : t.deviceCount = s.deviceCount
  client : t.client = s.client
  media : t.media = s.media
  unit : t.unit = s.unit
  log : ∀ r ∈ t.log, r.kind.changes = true → r ∈ s.log ∨ Latest s r

theorem Latest.of_sent {r : Reach τ} (h : Sent s t) (hl : Latest t r) : Latest s r := by
  refine ⟨hl.unit.trans h.unit, ?_, ?_, hl.client.trans h.client⟩
  · rw [hl.count, h.media, h.unit]
  · rw [hl.medium, h.media, h.unit]

theorem Sent.trans {u : Bus τ} (h : Sent s t) (h' : Sent t u) : Sent s u := by
  refine ⟨h'.current, h'.deviceCount.trans h.deviceCount, h'.client.trans h.client, h'.media.trans h.media,
    h'.unit.trans h.unit, fun r hr hc => ?_⟩
  rcases h'.log r hr hc with hr | hr
  · exact h.log r hr hc
  · exact .inr (hr.of_sent h)

theorem Looks.sent (hs : Current s) (h : Looks s t) : Sent s t :=
  ⟨(h.quietly hs).current, h.deviceCount, h.client, h.media, h.unit, fun r hr hc => .inl (h.log r hr hc)⟩

theorem Port.reachable_enabled {p : Port} {legacy : Bool} (h : p.reachable legacy = true) : p.enabled = true := by
  unfold Port.reachable Port.connected at h
  split at h <;> simp only [Bool.and_eq_true] at h
  · exact h.2
  · exact h.1.2

/-- The packets for a ready unit reach the medium enumerated last. -/
theorem sent_transfer (hs : Current s) (hr : (s.devices s.unit).ready = true) (kind : Kind) :
    Sent s (exec (transfer kind) s).2 ∧ (exec (transfer kind) s).2.devices = s.devices := by
  have hl := looks_status s
  have hp : (exec status s).1 = (exec status s).2.ports s.unit := by rw [← hl.unit]; rfl
  have hstay : Sent s (exec status s).2 := hl.sent hs
  unfold transfer
  rw [exec_bind, exec_bind, exec_get]
  split
  · exact ⟨hstay, hl.devices⟩
  rename_i hopen
  rw [exec_bind, exec_modify]
  have henabled := Port.reachable_enabled (p := (exec status s).1) (by simpa using hopen)
  have hmedium : (exec status s).1.medium = (s.media s.unit).head? := by
    rw [hp] at henabled ⊢
    have hheld := hstay.current.held s.unit (by rw [hl.devices, hr]) henabled
    rwa [hl.media] at hheld
  let u : Bus τ := { (exec status s).2 with log := (exec status s).2.log ++ (exec status s).2.reached (exec status s).1 kind }
  have hu : Sent s u := by
    refine ⟨⟨hstay.current.held, hstay.current.counted⟩, hstay.deviceCount, hstay.client, hstay.media, hstay.unit, fun r hr hc => ?_⟩
    rcases List.mem_append.1 hr with hr | hr
    · exact hstay.log r hr hc
    · obtain ⟨m, hm, rfl⟩ := List.mem_map.1 hr
      refine .inr ⟨hl.unit, ?_, ?_, hl.client⟩
      · show ((exec status s).2.media (exec status s).2.unit).length = _
        rw [hl.media, hl.unit]
      · rw [← hmedium, Option.mem_toList.1 hm]
  have hanswer := looks_answer u
  exact ⟨hu.trans (hanswer.sent hu.current), hanswer.devices.trans hl.devices⟩

theorem sent_command (hs : Current s) (hr : (s.devices s.unit).ready = true) (kind : Kind) (data : Bool) :
    Sent s (exec (command kind data) s).2 := by
  let P : Bus τ → Prop := fun t => Sent s t ∧ (t.devices t.unit).ready = true
  have htransfer : Ends P (transfer kind) fun _ => P := by
    intro t ht
    obtain ⟨ht, hready⟩ := ht
    obtain ⟨hsent, hdev⟩ := sent_transfer ht.current hready kind
    exact ⟨ht.trans hsent, by rw [hdev, hsent.unit, hready]⟩
  have hbroken : Ends P broken fun _ => Sent s := by
    intro t ht
    obtain ⟨ht, -⟩ := ht
    exact ⟨(quietly_unready t ht.current).current, ht.deviceCount, ht.client, ht.media, ht.unit, ht.log⟩
  have hlast : Ends P (do
      if !(← transfer kind) then return ← broken
      return if ← answer then 0 else 1 : StateM (Bus τ) Int) fun _ => Sent s := by
    refine .bind htransfer fun _ => .ite (fun _ => hbroken) fun _ => .bind (Q := fun _ => Sent s) (fun t ht => ?_) fun _ => ?_
    · exact ht.1.trans ((looks_answer t).sent ht.1.current)
    · exact .pure fun _ h => h
  have key : Ends P (command kind data) fun _ => Sent s := by
    refine .bind htransfer fun _ => .ite (fun _ => hbroken) fun _ => .ite (fun _ => ?_) fun _ => hlast
    exact .bind htransfer fun _ => .ite (fun _ => hbroken) fun _ => hlast
  exact key s ⟨(refl_of Looks s).sent hs, hr⟩

/-- Looking whether the unit is present, before a command. -/
theorem sent_storagePresent (hs : Current s) (hx : s.xhciUnit = none) : Sent s (exec storagePresent s).2 ∧
    ((exec storagePresent s).1 = true → ((exec storagePresent s).2.devices (exec storagePresent s).2.unit).ready = true) := by
  rcases storagePresent_spec hx with ⟨-, hl, hr⟩ | ⟨hno, hq, hu, -⟩
  · exact ⟨hl.sent hs, fun _ => by rw [hl.devices, hl.unit, hr]⟩
  · refine ⟨⟨(hq hs).current, (hq hs).deviceCount, (hq hs).client, (hq hs).media, hu, fun r hr hc => ?_⟩, fun he => ?_⟩
    · exact .inl ((hq hs).log r hr hc)
    · exact absurd (he.symm.trans hno) (by simp)

theorem sent_sectorsCommand (hs : Current s) (hx : s.xhciUnit = none) (kind : Kind) (lba count : Nat) :
    Sent s (exec (sectorsCommand kind lba count) s).2 := by
  obtain ⟨hsent, hready⟩ := sent_storagePresent hs hx
  unfold sectorsCommand
  rw [exec_bind, exec_get, if_neg (by simp [hx]), exec_bind]
  split
  · exact hsent
  rename_i hok
  rw [exec_bind, exec_get]
  dsimp only
  split
  · exact hsent
  · exact hsent.trans (sent_command hsent.current (hready (by simpa using hok)) kind true)

theorem sent_storageFlush (hs : Current s) (hx : s.xhciUnit = none) : Sent s (exec storageFlush s).2 := by
  obtain ⟨hsent, hready⟩ := sent_storagePresent hs hx
  unfold storageFlush
  rw [exec_bind, exec_get, if_neg (by simp [hx]), exec_bind]
  split
  · exact hsent
  · rename_i hok
    exact hsent.trans (sent_command hsent.current (hready (by simpa using hok)) .flush false)

/-! ## For whom commands are given -/

/-- For whom commands are given stays the same, and so they are given for nobody else. -/
structure SameClient (s t : Bus τ) : Prop where
  client : t.client = s.client
  log : ∀ r ∈ t.log, r.kind.changes = true → r ∈ s.log ∨ r.client = s.client

theorem SameClient.trans {u : Bus τ} (h : SameClient s t) (h' : SameClient t u) : SameClient s u := by
  refine ⟨h'.client.trans h.client, fun r hr hc => ?_⟩
  rcases h'.log r hr hc with hr | hr
  · exact h.log r hr hc
  · exact .inr (hr.trans h.client)

theorem sameClient_of_eq (hc : t.client = s.client) (hl : t.log = s.log) : SameClient s t :=
  ⟨hc, fun r hr _ => .inl (by rw [← hl]; exact hr)⟩

instance : Std.Refl (SameClient (τ := τ)) := ⟨fun _ => sameClient_of_eq rfl rfl⟩

instance : IsTrans (Bus τ) SameClient := ⟨fun _ _ _ h h' => h.trans h'⟩

/-- The unit that commands go to stays the same too. -/
structure Steady (s t : Bus τ) : Prop extends SameClient s t where
  unit : t.unit = s.unit
  xhciUnit : t.xhciUnit = s.xhciUnit

instance : Std.Refl (Steady (τ := τ)) := ⟨fun s => ⟨refl_of SameClient s, rfl, rfl⟩⟩

instance : IsTrans (Bus τ) Steady := ⟨fun _ _ _ h h' =>
  ⟨h.toSameClient.trans h'.toSameClient, h'.unit.trans h.unit, h'.xhciUnit.trans h.xhciUnit⟩⟩

theorem steady_of_looks {α : Type} {x : StateM (Bus τ) α} (h : Moves Looks x) : Moves Steady x :=
  fun s => ⟨⟨(h s).client, fun r hr hc => .inl ((h s).log r hr hc)⟩, (h s).unit, (h s).xhciUnit⟩

theorem steady_setDevice (f : UsbDevice → UsbDevice) : Moves Steady (setDevice (τ := τ) f) :=
  fun _ => ⟨sameClient_of_eq rfl rfl, rfl, rfl⟩

theorem steady_setPort (f : Port → Port) : Moves Steady (setPort (τ := τ) f) :=
  fun _ => ⟨sameClient_of_eq rfl rfl, rfl, rfl⟩

theorem steady_answer : Moves Steady (answer (τ := τ)) := steady_of_looks looks_answer

theorem steady_transfer (kind : Kind) : Moves Steady (transfer (τ := τ) kind) := by
  refine (steady_of_looks looks_status).bind fun p => .bind .get fun _ => .ite (.pure _) ?_
  refine .bind (.modify fun s => ⟨⟨rfl, fun r hr _ => ?_⟩, rfl, rfl⟩) fun _ => steady_answer
  rcases List.mem_append.1 hr with hr | hr
  · exact .inl hr
  · obtain ⟨m, -, rfl⟩ := List.mem_map.1 hr
    exact .inr rfl

theorem steady_broken : Moves Steady (broken (τ := τ)) := (steady_setDevice _).bind fun _ => .pure _

theorem steady_command (kind : Kind) (data : Bool) : Moves Steady (command (τ := τ) kind data) := by
  have hlast : Moves Steady (do
      if !(← transfer kind) then return ← broken
      return if ← answer then 0 else 1 : StateM (Bus τ) Int) :=
    (steady_transfer kind).bind fun _ => .ite steady_broken (steady_answer.bind fun _ => .pure _)
  refine (steady_transfer kind).bind fun _ => .ite steady_broken (.ite ?_ hlast)
  exact (steady_transfer kind).bind fun _ => .ite steady_broken hlast

theorem steady_storagePresent : Moves Steady (storagePresent (τ := τ)) := by
  have hdown : Moves Steady (do
      setDevice ({ · with ready := false })
      return false : StateM (Bus τ) Bool) := (steady_setDevice _).bind fun _ => .pure _
  refine .bind .get fun s => .ite steady_answer (.ite ?_ hdown)
  exact (steady_of_looks looks_connected).bind fun _ => .ite (.pure _) hdown

theorem steady_enumeratePort : Moves Steady (enumeratePort (τ := τ)) := by
  refine (steady_of_looks looks_status).bind fun _ => .ite (.pure _) (steady_answer.bind fun _ => ?_)
  refine (steady_setPort _).bind fun _ => (steady_of_looks looks_status).bind fun _ => .ite (.pure _) ?_
  refine (steady_of_looks looks_look).bind fun time => .bind .get fun _ => ?_
  refine (steady_of_looks (looks_exchange _)).bind fun _ => .ite (.pure _) (.bind .get fun s => ?_)
  cases s.outside.found time with
  | nothing => exact .pure _
  | pointer => exact (steady_setDevice _).bind fun _ => .pure _
  | storage sectors => exact .bind (fun _ => ⟨sameClient_of_eq rfl rfl, rfl, rfl⟩) fun _ => .pure _

theorem steady_storageProbe : Moves Steady (storageProbe (τ := τ)) := by
  have htail : Moves Steady (do
      let result ← enumeratePort
      setDevice ({ · with seen := true })
      if result = 0 then return true
      if result = 1 then return false
      giveUp
      return false : StateM (Bus τ) Bool) := by
    refine steady_enumeratePort.bind fun _ => (steady_setDevice _).bind fun _ => .ite (.pure _) (.ite (.pure _) ?_)
    refine .bind ((steady_of_looks looks_look).bind fun _ => .bind .get fun _ => ?_) fun _ => .pure _
    exact (steady_setPort _).bind fun _ => steady_setDevice _
  refine .bind .get fun s => .ite steady_answer (steady_storagePresent.bind fun _ => .ite (.pure _) (.bind .get fun s => ?_))
  refine .ite ?_ (.ite (.pure _) htail)
  exact (steady_of_looks looks_connected).bind fun _ => .ite (.pure _) (.ite (.pure _) htail)

theorem steady_sectorsCommand (kind : Kind) (lba count : Nat) : Moves Steady (sectorsCommand (τ := τ) kind lba count) := by
  refine .bind .get fun s => .ite steady_answer (steady_storagePresent.bind fun _ => .ite (.pure _) (.bind .get fun s => ?_))
  exact .ite (.pure _) ((steady_command kind true).bind fun _ => .pure _)

theorem steady_storageFlush : Moves Steady (storageFlush (τ := τ)) := by
  refine .bind .get fun s => .ite steady_answer (steady_storagePresent.bind fun _ => .ite (.pure _) ?_)
  exact (steady_command .flush false).bind fun _ => .pure _

theorem sameClient_of_steady {α : Type} {x : StateM (Bus τ) α} (h : Moves Steady x) : Moves SameClient x :=
  fun s => (h s).toSameClient

theorem sameClient_storageSelect (index : Nat) : Moves SameClient (storageSelect (τ := τ) index) := by
  have hanswer := sameClient_of_steady (steady_answer (τ := τ))
  refine .ite (.pure _) (.bind .get fun s => .ite ?_ ?_)
  · exact .bind (.modify fun _ => sameClient_of_eq rfl rfl) fun _ => hanswer.bind fun _ => .pure _
  · exact .bind (.modify fun _ => sameClient_of_eq rfl rfl) fun _ => .pure _

theorem sameClient_mousePoll : Moves SameClient (mousePoll (τ := τ)) := by
  have hset : ∀ f : UsbDevice → UsbDevice, Moves SameClient (setDevice (τ := τ) f) := fun _ _ => sameClient_of_eq rfl rfl
  have hlook := sameClient_of_steady (steady_of_looks (looks_look (τ := τ)))
  have hanswer := sameClient_of_steady (steady_answer (τ := τ))
  have hreport : Moves SameClient (mouseReport (τ := τ)) := hanswer.bind fun _ => .ite (hset _) (.pure _)
  have hchanged : ∀ p, Moves SameClient (portChanged (τ := τ) p) := fun p =>
    .ite ((hset _).bind fun _ => .ite (hlook.bind fun _ => fun _ => sameClient_of_eq rfl rfl) (.pure _)) (.pure _)
  have hunit : ∀ n : Nat, Moves SameClient (modify fun s : Bus τ => { s with unit := n }) :=
    fun n => .modify fun _ => sameClient_of_eq rfl rfl
  have htail : Moves SameClient (do
      let s ← get
      if (s.devices s.unit).mouse then mouseReport : StateM (Bus τ) Unit) := .bind .get fun _ => .ite hreport (.pure _)
  have hround : Moves SameClient (pollUnit (τ := τ)) := by
    refine (sameClient_of_steady (steady_of_looks looks_status)).bind fun p => (hchanged p).bind fun _ => .ite (.pure _) ?_
    refine .bind .get fun s => .ite ((hset _).bind fun _ => ?_) htail
    exact (sameClient_of_steady steady_enumeratePort).bind fun _ => .ite (.pure _) htail
  have hloop : ∀ ns, Moves SameClient (pollLoop (τ := τ) ns) := by
    intro ns
    induction ns with
    | nil => exact .pure _
    | cons n ns ih => exact (hunit n).bind fun _ => hround.bind fun _ => ih
  exact .bind .get fun s => .ite (.pure _) ((hloop _).bind fun _ => hunit s.unit)

end Barnix.Usb
