import Barnix.Disk.Selection
/-!
# Reading and writing the selection

Every access of the layer falls into the selected range of the selected device,
and a sector that was written is read back: on every device but the RAM disk,
whose writes leave out the offset of a partition.
-/

namespace Barnix.Disk

open Vfs (DiskSelection noDisk)

/-! ## Commands on one device -/

/-- `r` is a read of the sectors `ps` of `b`, done or failed. -/
structure Reads (b : Bay) (ps : List Nat) (s : Disks) (r : Option (List Sector) × Disks) : Prop where
  device : r.2.device = s.device
  data : ∀ list d, r.1 = some list → s.device b = some d → list = ps.map d.sectors
  trace : ∃ new, r.2.trace = s.trace ++ new ∧ ∀ e ∈ new, e.1 = b ∧ e.2 ∈ ps

/-- `r` is a write of `data` to the sector `p` of `b`, done or failed. -/
structure Writes (b : Bay) (p : Nat) (data : Sector) (s : Disks) (r : Bool × Disks) : Prop where
  device : r.1 = true → ∃ d, s.device b = some d ∧ r.2.device = Function.update s.device b (some (d.put p data))
  trace : ∃ new, r.2.trace = s.trace ++ new ∧ ∀ e ∈ new, e = (b, p)

theorem Reads.failed {b : Bay} {ps : List Nat} {s t : Disks} (hd : t.device = s.device) (ht : t.trace = s.trace) :
    Reads b ps s (none, t) := ⟨hd, nofun, [], by simp [ht], by simp⟩

theorem Writes.failed {b : Bay} {p : Nat} {data : Sector} {s t : Disks} (ht : t.trace = s.trace) :
    Writes b p data s (false, t) := ⟨nofun, [], by simp [ht], by simp⟩

theorem Reads.from {b : Bay} {ps : List Nat} {s t : Disks} {r : Option (List Sector) × Disks} (h : Reads b ps t r)
    (hd : t.device = s.device) (ht : t.trace = s.trace) : Reads b ps s r :=
  ⟨h.device.trans hd, hd ▸ h.data, ht ▸ h.trace⟩

theorem Writes.from {b : Bay} {p : Nat} {data : Sector} {s t : Disks} {r : Bool × Disks} (h : Writes b p data t r)
    (hd : t.device = s.device) (ht : t.trace = s.trace) : Writes b p data s r :=
  ⟨hd ▸ h.device, ht ▸ h.trace⟩

/-- The numbers of `count` sectors from `lba` on. -/
def span (lba count : Nat) : List Nat := (List.range count).map (lba + ·)

theorem sectorsOf_eq (d : Device) (lba count : Nat) : sectorsOf d lba count = (span lba count).map d.sectors := by
  unfold sectorsOf span
  rw [List.map_map]
  rfl

theorem mem_touched {b : Bay} {lba count : Nat} {e : Bay × Nat} (h : e ∈ touched b lba count) :
    e.1 = b ∧ e.2 ∈ span lba count := by
  obtain ⟨i, hi, rfl⟩ := List.mem_map.1 h
  exact ⟨rfl, List.mem_map_of_mem hi⟩

theorem reads_readSectors (b : Bay) (lba count : Nat) (s : Disks) :
    Reads b (span lba count) s (exec (readSectors b lba count) s) := by
  unfold readSectors
  rw [exec_modifyGet]
  cases hd : s.device b with
  | none => exact .failed rfl rfl
  | some d =>
    dsimp only
    split
    · exact .failed rfl rfl
    · refine ⟨rfl, ?_, _, rfl, fun e he => mem_touched he⟩
      intro list d' hlist hd'
      cases hd.symm.trans hd'
      split at hlist
      · cases hlist
      · cases hlist
        exact sectorsOf_eq d lba count

theorem writes_writeSector (b : Bay) (lba : Nat) (data : Sector) (s : Disks) :
    Writes b lba data s (exec (writeSector b lba data) s) := by
  unfold writeSector
  rw [exec_modifyGet]
  cases hd : s.device b with
  | none => exact .failed rfl
  | some d =>
    dsimp only
    split
    · exact .failed rfl
    · split
      · exact ⟨nofun, _, rfl, by simp⟩
      · exact ⟨fun _ => ⟨d, hd, rfl⟩, _, rfl, by simp⟩

theorem reads_ataRead (lba : Nat) (s : Disks) :
    Reads (.ata s.ataUnit) [lba] s ((exec (ataRead lba) s).1.map ([·]), (exec (ataRead lba) s).2) := by
  have h := reads_readSectors (.ata s.ataUnit) lba 1 s
  unfold ataRead
  rw [exec_bind, exec_get]
  dsimp only
  split
  · exact .failed rfl rfl
  · rw [exec_bind]
    generalize exec (readSectors (.ata s.ataUnit) lba 1) s = r at h
    obtain ⟨list, t⟩ := r
    refine ⟨?_, ?_, ?_⟩
    · dsimp only
      split <;> exact h.device
    · intro list' d hlist hd
      dsimp only at hlist
      split at hlist
      · rename_i data
        cases hlist
        simpa [span] using h.data [data] d rfl hd
      · cases hlist
    · dsimp only
      split <;> simpa [span] using h.trace

theorem ataUnit_ataRead (lba : Nat) : Moves (fun s t : Disks => t.ataUnit = s.ataUnit) (ataRead lba) := by
  unfold ataRead
  refine .bind .get fun s => .ite (.pure _) (.bind (fun t => ?_) fun data => ?_)
  · unfold readSectors
    rw [exec_modifyGet]
    cases t.device (.ata s.ataUnit) with
    | none => rfl
    | some d =>
      dsimp only
      split <;> rfl
  · split <;> exact .pure _

/-- The loop reads the sectors of its indices, in order. -/
theorem reads_ataReadLoop (lba : Nat) (is : List Nat) (s : Disks) :
    Reads (.ata s.ataUnit) (is.map (add32 lba)) s (exec (ataReadLoop lba is) s) := by
  induction is generalizing s with
  | nil => exact ⟨rfl, fun list d hlist _ => by cases hlist; rfl, [], by simp [ataReadLoop], by simp⟩
  | cons i is ih =>
    have hone := reads_ataRead (add32 lba i) s
    have hunit : (exec (ataRead (add32 lba i)) s).2.ataUnit = s.ataUnit := ataUnit_ataRead _ s
    unfold ataReadLoop
    rw [exec_bind]
    generalize exec (ataRead (add32 lba i)) s = r at hone hunit
    obtain ⟨data, t⟩ := r
    obtain ⟨new, htrace, hnew⟩ := hone.trace
    cases data with
    | none =>
      refine ⟨hone.device, nofun, new, htrace, fun e he => ?_⟩
      obtain ⟨h1, h2⟩ := hnew e he
      exact ⟨h1, by rw [List.mem_singleton.1 h2]; exact List.mem_cons_self ..⟩
    | some data =>
      have hrest := ih t
      dsimp only at hunit hone htrace
      rw [hunit] at hrest
      dsimp only
      rw [exec_bind]
      generalize exec (ataReadLoop lba is) t = r at hrest
      obtain ⟨more, u⟩ := r
      obtain ⟨new', htrace', hnew'⟩ := hrest.trace
      have hall : ∃ new, u.trace = s.trace ++ new ∧ ∀ e ∈ new, e.1 = .ata s.ataUnit ∧ e.2 ∈ (i :: is).map (add32 lba) := by
        refine ⟨new ++ new', by dsimp only at htrace'; rw [htrace', htrace, List.append_assoc], fun e he => ?_⟩
        rcases List.mem_append.1 he with he | he
        · obtain ⟨h1, h2⟩ := hnew e he
          exact ⟨h1, by rw [List.mem_singleton.1 h2]; exact List.mem_cons_self ..⟩
        · obtain ⟨h1, h2⟩ := hnew' e he
          exact ⟨h1, List.mem_cons_of_mem _ h2⟩
      cases more with
      | none => exact ⟨hrest.device.trans hone.device, nofun, hall⟩
      | some more =>
        refine ⟨hrest.device.trans hone.device, ?_, hall⟩
        intro list d hlist hd
        cases hlist
        have h1 := hone.data [data] d rfl hd
        have h2 := hrest.data more d rfl (hone.device ▸ hd)
        rw [h2, List.map_cons, List.map_cons]
        rw [List.map_cons, List.map_nil, List.cons.injEq] at h1
        rw [h1.1]

theorem add32_eq {a b : Nat} (h : a + b < word) : add32 a b = a + b := Nat.mod_eq_of_lt h

theorem map_add32 {lba count : Nat} (h : lba + count ≤ word) : (List.range count).map (add32 lba) = span lba count := by
  unfold span
  refine List.map_congr_left fun i hi => add32_eq ?_
  have := List.mem_range.1 hi
  omega

/-! ## A device by its number -/

/-- The four kinds of numbers. -/
theorem bayOf_cases {id : Nat} {b : Bay} (h : bayOf id = some b) :
    (pciBase ≤ id ∧ b = .pci (id - pciBase)) ∨
    (¬pciBase ≤ id ∧ isUsb id = true ∧ isAta id = false ∧ b = .usb (unitOfUsb id)) ∨
    (¬pciBase ≤ id ∧ isUsb id = false ∧ isAta id = true ∧ b = .ata (unitOfAta id)) ∨
    (id = 1 ∧ b = .ram) := by
  unfold bayOf at h
  by_cases h1 : pciBase ≤ id
  · rw [if_pos h1] at h
    cases h
    exact .inl ⟨h1, rfl⟩
  by_cases h2 : isUsb id = true
  · rw [if_neg h1, if_pos h2] at h
    cases h
    refine .inr (.inl ⟨h1, h2, ?_, rfl⟩)
    unfold isUsb at h2
    unfold isAta
    simp only [Bool.or_eq_true, beq_iff_eq, Bool.and_eq_true, decide_eq_true_eq, Bool.or_eq_false_iff,
      beq_eq_false_iff_ne, Bool.and_eq_false_iff, decide_eq_false_iff_not] at h2 ⊢
    omega
  by_cases h3 : isAta id = true
  · rw [if_neg h1, if_neg h2, if_pos h3] at h
    cases h
    exact .inr (.inr (.inl ⟨h1, by simpa using h2, h3, rfl⟩))
  by_cases h4 : id = 1
  · rw [if_neg h1, if_neg h2, if_neg h3, if_pos h4] at h
    cases h
    exact .inr (.inr (.inr ⟨h4, rfl⟩))
  · rw [if_neg h1, if_neg h2, if_neg h3, if_neg h4] at h
    cases h

/-- The devices and the trace are left alone. -/
structure Silent (s t : Disks) : Prop where
  device : t.device = s.device
  trace : t.trace = s.trace

instance : Std.Refl Silent := ⟨fun _ => ⟨rfl, rfl⟩⟩

instance : IsTrans Disks Silent := ⟨fun _ _ _ h h' => ⟨h'.1.trans h.1, h'.2.trans h.2⟩⟩

theorem silent_usbSelect (unit : Nat) : Moves Silent (usbSelect unit) := by
  intro s
  unfold usbSelect
  rw [exec_modifyGet]
  split <;> exact ⟨rfl, rfl⟩

theorem silent_diskPresent : Moves Silent diskPresent := by
  unfold diskPresent
  refine .bind .get fun s => .ite (.bind .get fun _ => .pure _) (.ite ?_ (.ite ?_ (.bind .get fun _ => .pure _)))
  · exact .bind (fun _ => ⟨rfl, rfl⟩) fun _ => .bind .get fun _ => .pure _
  · exact (silent_usbSelect _).bind fun ok => .ite (.pure _) (.bind .get fun _ => .pure _)

theorem usbUnit_usbSelect {unit : Nat} {s : Disks} (h : (exec (usbSelect unit) s).1 = true) :
    (exec (usbSelect unit) s).2.usbUnit = unit := by
  unfold usbSelect at h ⊢
  rw [exec_modifyGet] at h ⊢
  split at h
  · rename_i hc
    rw [if_pos hc]
  · cases h

theorem reads_usbRead (lba count : Nat) (s : Disks) :
    Reads (.usb s.usbUnit) (span lba count) s (exec (usbRead lba count) s) := by
  unfold usbRead
  rw [exec_bind, exec_get]
  dsimp only
  cases usbDevice s with
  | none => exact .failed rfl rfl
  | some d =>
    dsimp only
    split
    · exact .failed rfl rfl
    · exact reads_readSectors _ _ _ _

/-- `raw_read` reads the sectors it is asked for from the device of the number. -/
theorem reads_rawRead {id : Nat} {b : Bay} (hb : bayOf id = some b) {lba count : Nat} (hw : lba + count ≤ word) (s : Disks) :
    Reads b (span lba count) s (exec (rawRead id lba count) s) := by
  unfold rawRead
  rcases bayOf_cases hb with ⟨h1, rfl⟩ | ⟨h1, h2, -, rfl⟩ | ⟨h1, h2, h3, rfl⟩ | ⟨rfl, rfl⟩
  · rw [if_pos h1]
    unfold pciRead
    rw [exec_bind, exec_get]
    dsimp only
    split
    · exact .failed rfl rfl
    · exact reads_readSectors _ _ _ _
  · rw [if_neg h1, if_pos h2, exec_bind]
    have hs := silent_usbSelect (unitOfUsb id) s
    cases hok : (exec (usbSelect (unitOfUsb id)) s).1 with
    | false => exact .failed hs.device hs.trace
    | true =>
      have hread := reads_usbRead lba count (exec (usbSelect (unitOfUsb id)) s).2
      rw [usbUnit_usbSelect hok] at hread
      exact hread.from hs.device hs.trace
  · rw [if_neg h1, if_neg (by simp [h2]), if_pos h3, exec_bind]
    have hread := reads_ataReadLoop lba (List.range count) (exec (ataUse id) s).2
    rw [map_add32 hw] at hread
    exact hread.from rfl rfl
  · rw [if_neg (by decide), if_neg (by decide), if_neg (by decide), exec_bind, exec_get]
    dsimp only
    split
    · unfold ramRead
      rw [exec_modifyGet]
      cases hd : s.device .ram with
      | none => exact .failed rfl rfl
      | some d =>
        refine ⟨rfl, ?_, _, rfl, fun e he => mem_touched he⟩
        intro list d' hlist hd'
        cases hd.symm.trans hd'
        cases hlist
        exact sectorsOf_eq d lba count
    · exact .failed rfl rfl

/-! ## The selected range -/

/-- The sectors that the selection stands for. -/
def Owned (s : Disks) (e : Bay × Nat) : Prop :=
  bayOf s.selected.id = some e.1 ∧ s.selected.offset ≤ e.2 ∧ e.2 < s.selected.offset + s.selected.sectors

/-- Every access since `s` was to a sector of the selection. -/
def Confined (s t : Disks) : Prop := ∃ new, t.trace = s.trace ++ new ∧ ∀ e ∈ new, Owned s e

theorem Silent.confined {s t : Disks} (h : Silent s t) : Confined s t := ⟨[], by simp [h.trace], by simp⟩

/-- A selection with a sector lies inside a device. -/
theorem Inside.device {s : Disks} {sel : DiskSelection} (h : Inside s sel) (lba : Nat) (hlba : lba < sel.sectors) :
    ∃ b d, bayOf sel.id = some b ∧ s.device b = some d ∧ sel.offset + sel.sectors ≤ d.capacity ∧ sel.offset + sel.sectors < word := by
  rcases h with h | h
  · omega
  · exact h

/-- `disk_read_many` fails, or reads the sectors of the selection. -/
theorem diskReadMany_cases {s : Disks} (h : Inside s s.selected) (lba count : Nat) :
    ((exec (diskReadMany lba count) s).1 = none ∧ Silent s (exec (diskReadMany lba count) s).2) ∨
    (lba + count ≤ s.selected.sectors ∧ ∃ b, bayOf s.selected.id = some b ∧
      Reads b (span (s.selected.offset + lba) count) s (exec (diskReadMany lba count) s)) := by
  have hs := silent_diskPresent s
  have hq := quiet.diskPresent s
  unfold diskReadMany
  rw [exec_bind]
  cases hok : (exec diskPresent s).1 with
  | false => exact .inl ⟨rfl, hs⟩
  | true =>
    generalize (exec diskPresent s).2 = t at hs hq
    simp only [Bool.not_true, Bool.false_eq_true, if_false]
    rw [exec_bind, exec_get]
    dsimp only
    split
    · exact .inl ⟨rfl, hs⟩
    · rename_i hc
      rw [hq.selected] at hc ⊢
      obtain ⟨b, d, hb, hd, hcap, hword⟩ := h.device lba (by omega)
      refine .inr ⟨by omega, b, hb, ?_⟩
      rw [add32_eq (by omega), Nat.add_comm lba]
      exact (reads_rawRead hb (by omega) t).from hs.device hs.trace

theorem confined_diskReadMany {s : Disks} (h : Inside s s.selected) (lba count : Nat) :
    Confined s (exec (diskReadMany lba count) s).2 := by
  rcases diskReadMany_cases h lba count with ⟨-, hs⟩ | ⟨hle, b, hb, hr⟩
  · exact hs.confined
  · obtain ⟨new, htrace, hnew⟩ := hr.trace
    refine ⟨new, htrace, fun e he => ?_⟩
    obtain ⟨rfl, h2⟩ := hnew e he
    obtain ⟨i, hi, hp⟩ := List.mem_map.1 h2
    have := List.mem_range.1 hi
    exact ⟨hb, by omega, by omega⟩

/-- The unit that a present device's commands go to. -/
def Armed (t : Disks) : Bay → Prop
  | .ata u => t.ataUnit = u
  | .usb u => t.usbUnit = u
  | _ => True

theorem armed_diskPresent {s : Disks} {b : Bay} (hb : bayOf s.selected.id = some b) (hok : (exec diskPresent s).1 = true) :
    Armed (exec diskPresent s).2 b := by
  unfold diskPresent at hok ⊢
  rw [exec_bind, exec_get] at hok ⊢
  dsimp only at hok ⊢
  rcases bayOf_cases hb with ⟨h1, rfl⟩ | ⟨h1, h2, h3, rfl⟩ | ⟨h1, h2, h3, rfl⟩ | ⟨h1, rfl⟩
  · trivial
  · rw [if_neg h1, if_neg (by simp [h3]), if_pos h2, exec_bind] at hok ⊢
    cases hsel : (exec (usbSelect (unitOfUsb s.selected.id)) s).1 with
    | false =>
      rw [hsel] at hok
      cases hok
    | true => exact usbUnit_usbSelect hsel
  · rw [if_neg h1, if_pos h3]
    rfl
  · trivial

/-- `disk_write` fails, or writes: to the sector of the selection, or on the RAM disk
to the sector of that number. -/
theorem diskWrite_cases {s : Disks} (h : Inside s s.selected) (lba : Nat) (data : Sector) :
    ((exec (diskWrite lba data) s).1 = false ∧ Silent s (exec (diskWrite lba data) s).2) ∨
    (lba < s.selected.sectors ∧ ∃ b, bayOf s.selected.id = some b ∧
      Writes b (if s.selected.id = 1 then lba else s.selected.offset + lba) data s (exec (diskWrite lba data) s)) := by
  have hs := silent_diskPresent s
  have hq := quiet.diskPresent s
  have ha := fun b hb => armed_diskPresent (s := s) (b := b) hb
  unfold diskWrite
  rw [exec_bind]
  cases hok : (exec diskPresent s).1 with
  | false => exact .inl ⟨rfl, hs⟩
  | true =>
    generalize (exec diskPresent s).2 = t at hs hq ha
    simp only [Bool.not_true, Bool.false_eq_true, if_false]
    rw [exec_bind, exec_get]
    dsimp only
    split
    · exact .inl ⟨rfl, hs⟩
    · rename_i hc
      rw [hq.selected] at hc ⊢
      obtain ⟨b, d, hb, hd, hcap, hword⟩ := h.device lba (by omega)
      refine .inr ⟨by omega, b, hb, ?_⟩
      have harm := ha b hb hok
      rw [add32_eq (by omega), Nat.add_comm lba]
      refine Writes.from (t := t) ?_ hs.device hs.trace
      rcases bayOf_cases hb with ⟨h1, rfl⟩ | ⟨h1, h2, h3, rfl⟩ | ⟨h1, h2, h3, rfl⟩ | ⟨h1, rfl⟩
      · rw [if_pos h1, if_neg (fun hram => by rw [hram] at h1; exact absurd h1 (by decide))]
        unfold pciWrite
        rw [exec_bind, exec_get]
        dsimp only
        split
        · exact .failed rfl
        · cases t.device (.pci (s.selected.id - pciBase)) with
          | none => exact .failed rfl
          | some d =>
            dsimp only
            split
            · exact .failed rfl
            · exact writes_writeSector _ _ _ _
      · rw [if_neg h1, if_pos h2, if_neg (fun hram => by rw [hram] at h2; exact absurd h2 (by decide))]
        unfold usbWrite
        rw [exec_bind, exec_get]
        dsimp only
        cases usbDevice t with
        | none => exact .failed rfl
        | some d =>
          dsimp only
          split
          · exact .failed rfl
          · rw [show t.usbUnit = _ from harm]
            exact writes_writeSector _ _ _ _
      · rw [if_neg (fun hram => by rw [hram] at h3; exact absurd h3 (by decide)), if_neg h1, if_neg (by simp [h2]), if_pos h3]
        unfold ataWrite
        rw [exec_bind, exec_get]
        dsimp only
        split
        · exact .failed rfl
        · rw [show t.ataUnit = _ from harm]
          exact writes_writeSector _ _ _ _
      · rw [if_pos h1, h1, if_neg (by decide), if_neg (by decide), if_neg (by decide)]
        unfold ramWrite
        rw [exec_modifyGet]
        cases hd : t.device .ram with
        | none => exact .failed rfl
        | some d => exact ⟨fun _ => ⟨d, hd, rfl⟩, _, rfl, by simp⟩

/-! ## Presence -/

/-- What `disk_present` looks at is left alone, so its answer is the same. -/
theorem present_congr {s t : Disks} (hq : Quiet s t) (hk : Keeps s t) : (exec diskPresent t).1 = (exec diskPresent s).1 := by
  have hsome : ∀ b, (t.device b).isSome = (s.device b).isSome := by
    intro b
    rw [← Option.isSome_map (f := Device.shape), hk.shapes, Option.isSome_map]
  have hgen : ∀ b, (t.device b).map (·.generation) = (s.device b).map (·.generation) := by
    intro b
    have := congrArg (Option.map (·.2.2.1)) (hk.shapes b)
    rwa [Option.map_map, Option.map_map] at this
  unfold diskPresent
  rw [exec_bind, exec_bind, exec_get, exec_get]
  dsimp only
  rw [hq.selected]
  split
  · show pciPresent t _ = pciPresent s _
    unfold pciPresent
    rw [hq.pciNames, hsome]
  · split
    · simp only [exec_bind, exec_get, exec_pure, ataUse, exec_modify, hq.ataCapacity]
    · split
      · simp only [exec_bind, usbSelect, exec_modifyGet, hq.usbPort]
        split
        · simp only [Bool.not_true, Bool.false_eq_true, if_false, exec_bind, exec_get, exec_pure, usbDevice, hq.selected]
          have := hgen (.usb (unitOfUsb s.selected.id))
          cases ht : t.device (.usb (unitOfUsb s.selected.id)) with
          | none =>
            cases hs : s.device (.usb (unitOfUsb s.selected.id)) with
            | none => rfl
            | some d =>
              rw [ht, hs] at this
              cases this
          | some d' =>
            cases hs : s.device (.usb (unitOfUsb s.selected.id)) with
            | none =>
              rw [ht, hs] at this
              cases this
            | some d =>
              rw [ht, hs, Option.map_some, Option.map_some, Option.some.injEq] at this
              dsimp only
              rw [this]
        · rfl
      · simp only [exec_bind, exec_get, exec_pure, hsome]

/-- What a present device answers commands with. -/
def Ready (s : Disks) : Bay → Prop
  | .pci i => i < s.pciNames.length
  | .usb u => u < usbMax ∧ s.usbPort u = true
  | .ata u => s.ataCapacity u ≠ 0
  | .ram => True

theorem ready_of_present {s : Disks} {b : Bay} (hb : bayOf s.selected.id = some b) (hok : (exec diskPresent s).1 = true) :
    Ready s b := by
  unfold diskPresent at hok
  rw [exec_bind, exec_get] at hok
  dsimp only at hok
  rcases bayOf_cases hb with ⟨h1, rfl⟩ | ⟨h1, h2, h3, rfl⟩ | ⟨h1, h2, h3, rfl⟩ | ⟨h1, rfl⟩
  · rw [if_pos h1, exec_bind, exec_get, exec_pure] at hok
    unfold pciPresent at hok
    simp only [Bool.and_eq_true, decide_eq_true_eq] at hok
    exact hok.1
  · rw [if_neg h1, if_neg (by simp [h3]), if_pos h2, exec_bind, usbSelect, exec_modifyGet] at hok
    split at hok
    · rename_i hc
      exact hc
    · cases hok
  · rw [if_neg h1, if_pos h3] at hok
    unfold Ready
    simpa [ataUse] using hok
  · trivial

theorem readSectors_ok {s : Disks} {b : Bay} {d : Device} {lba count : Nat} (hd : s.device b = some d)
    (hcap : lba + count ≤ d.capacity) (hf : ∀ n, s.faults n = false) :
    (exec (readSectors b lba count) s).1 = some (sectorsOf d lba count) := by
  unfold readSectors
  rw [exec_modifyGet, hd]
  dsimp only
  rw [if_neg (Nat.not_lt.2 hcap), if_neg (by simp [hf])]

theorem ataRead_ok {s : Disks} {d : Device} {lba : Nat} (hd : s.device (.ata s.ataUnit) = some d) (hlba : lba < d.capacity)
    (hr : ataReaches s lba = true) (hf : ∀ n, s.faults n = false) : (exec (ataRead lba) s).1.isSome := by
  unfold ataRead
  rw [exec_bind, exec_get]
  dsimp only
  rw [if_neg (by simp [hr]), exec_bind, readSectors_ok hd hlba hf]
  rfl

/-- What one read of the loop leaves the next one with. -/
theorem ataReadLoop_ok {d : Device} {lba : Nat} {is : List Nat} (hlba : ∀ i ∈ is, add32 lba i < d.capacity) {s : Disks}
    (hd : s.device (.ata s.ataUnit) = some d) (hr : ∀ i ∈ is, ataReaches s (add32 lba i) = true)
    (hf : ∀ n, s.faults n = false) : (exec (ataReadLoop lba is) s).1.isSome := by
  induction is generalizing s with
  | nil => rfl
  | cons i is ih =>
    have hone := ataRead_ok hd (hlba i (List.mem_cons_self ..)) (hr i (List.mem_cons_self ..)) hf
    have hunit : (exec (ataRead (add32 lba i)) s).2.ataUnit = s.ataUnit := ataUnit_ataRead _ s
    have hdev := (reads_ataRead (add32 lba i) s).device
    have hq := quiet.ataRead (add32 lba i) s
    have hk := keeps.ataRead (add32 lba i) s
    unfold ataReadLoop
    rw [exec_bind]
    generalize exec (ataRead (add32 lba i)) s = r at hone hunit hdev hq hk
    obtain ⟨data, t⟩ := r
    obtain ⟨data, rfl⟩ := Option.isSome_iff_exists.1 hone
    dsimp only at hunit hdev hq hk ⊢
    have hrest : (exec (ataReadLoop lba is) t).1.isSome := by
      apply ih fun j hj => hlba j (List.mem_cons_of_mem _ hj)
      · rw [hunit, hdev]
        exact hd
      · intro j hj
        have := hr j (List.mem_cons_of_mem _ hj)
        unfold ataReaches at this ⊢
        rwa [hunit, hq.ataCapacity, hq.ataLba48]
      · rw [hk.faults]
        exact hf
    rw [exec_bind]
    obtain ⟨more, hmore⟩ := Option.isSome_iff_exists.1 hrest
    rw [hmore]
    rfl

/-- A present device reads what it has, unless a command fails. -/
theorem rawRead_ok {s : Disks} (hk : AtaKnown s) (hl : Limits s) {id : Nat} {b : Bay} (hb : bayOf id = some b)
    (hready : Ready s b) {d : Device} (hd : s.device b = some d) {lba count : Nat} (hcap : lba + count ≤ d.capacity)
    (hword : lba + count ≤ word) (h0 : 0 < count) (h8 : count ≤ 8) (hf : ∀ n, s.faults n = false) :
    (exec (rawRead id lba count) s).1.isSome := by
  unfold rawRead
  rcases bayOf_cases hb with ⟨h1, rfl⟩ | ⟨h1, h2, -, rfl⟩ | ⟨h1, h2, h3, rfl⟩ | ⟨rfl, rfl⟩
  · rw [if_pos h1]
    unfold pciRead
    rw [exec_bind, exec_get]
    dsimp only
    have hp : pciPresent s (id - pciBase) = true := by
      unfold pciPresent
      unfold Ready at hready
      rw [hd]
      simpa using hready
    have hc : ¬(!pciPresent s (id - pciBase) || count == 0 || decide (8 < count)) = true := by
      simp only [hp, Bool.not_true, Bool.false_or, Bool.or_eq_true, beq_iff_eq, decide_eq_true_eq]
      omega
    rw [if_neg hc, readSectors_ok hd hcap hf]
    rfl
  · rw [if_neg h1, if_pos h2, exec_bind]
    unfold usbSelect
    unfold Ready at hready
    rw [exec_modifyGet, if_pos hready]
    simp only [Bool.not_true, Bool.false_eq_true, if_false]
    unfold usbRead
    rw [exec_bind, exec_get]
    dsimp only
    unfold usbDevice
    dsimp only
    rw [hd]
    dsimp only
    rw [if_neg (by omega)]
    exact Option.isSome_iff_exists.2 ⟨_, readSectors_ok (s := { s with usbUnit := unitOfUsb id }) hd hcap hf⟩
  · rw [if_neg h1, if_neg (by simp [h2]), if_pos h3, exec_bind]
    obtain ⟨d', hd', hcap', h48⟩ := (hk (unitOfAta id)).resolve_left hready
    cases hd.symm.trans hd'
    have hlt : ∀ i ∈ List.range count, add32 lba i < d.capacity := by
      intro i hi
      have := List.mem_range.1 hi
      rw [add32_eq (by omega)]
      omega
    refine ataReadLoop_ok hlt hd (fun i hi => ?_) hf
    have := hlt i hi
    show (decide (add32 lba i < s.ataCapacity (unitOfAta id)) && (s.ataLba48 (unitOfAta id) || decide (add32 lba i < 2 ^ 28))) = true
    rw [hcap', h48]
    cases hlba48 : d.lba48 with
    | true => simpa using this
    | false =>
      have h28 := hl.ata _ d hd hlba48
      simp only [Bool.false_or, Bool.and_eq_true, decide_eq_true_eq]
      omega
  · rw [if_neg (by decide), if_neg (by decide), if_neg (by decide), exec_bind, exec_get]
    dsimp only
    have := hl.ram d hd
    rw [if_pos ⟨rfl, by rw [hd]; rfl, by omega, by omega⟩]
    unfold ramRead
    rw [exec_modifyGet, hd]
    rfl

/-- A present selection is read, unless a command fails. -/
theorem diskReadMany_ok {s : Disks} (hk : AtaKnown s) (hl : Limits s) (hi : Inside s s.selected)
    (hok : (exec diskPresent s).1 = true) {lba count : Nat} (h0 : 0 < count) (h8 : count ≤ 8)
    (hle : lba + count ≤ s.selected.sectors) (hf : ∀ n, s.faults n = false) :
    (exec (diskReadMany lba count) s).1.isSome := by
  have hs := silent_diskPresent s
  have hq := quiet.diskPresent s
  have hkeep := keeps.diskPresent s
  obtain ⟨b, d, hb, hd, hcap, hword⟩ := hi.device lba (by omega)
  have hready := ready_of_present hb hok
  unfold diskReadMany
  rw [exec_bind, hok]
  generalize (exec diskPresent s).2 = t at hs hq hkeep
  simp only [Bool.not_true, Bool.false_eq_true, if_false]
  rw [exec_bind, exec_get]
  dsimp only
  rw [hq.selected, if_neg (by omega), add32_eq (by omega)]
  apply rawRead_ok (hkeep.known hk) (hkeep.limits hl) hb ?_ (hs.device ▸ hd) (by omega) (by omega) h0 h8
  · rw [hkeep.faults]
    exact hf
  · cases b with
    | ram => trivial
    | ata u =>
      unfold Ready
      rw [hq.ataCapacity]
      exact hready
    | usb u =>
      unfold Ready
      rw [hq.usbPort]
      exact hready
    | pci i =>
      unfold Ready
      rw [hq.pciNames]
      exact hready

/-! ## Whole sessions -/

/-- The layer with the selections that its callers have kept. -/
structure Session where
  disks : Disks
  kept : List DiskSelection

/-- `disk_init_from_memory` -/
def diskInitFromMemory (image : Nat → Sector) : StateM Disks Unit := modify fun s =>
  { s with
    device := Function.update s.device .ram (some ⟨ramSectors, false, 0, false, image⟩)
    selected := ⟨1, 0, ramSectors, 0⟩ }

/-- A call of the layer. `keep` is `disk_selection` by a caller that will restore it. -/
inductive Call where
  | initFromMemory (image : Nat → Sector)
  | select (name : Name)
  | selectRaw (name : Name)
  | keep
  | restore (n : Nat)
  | deselect
  | read (lba count : Nat)
  | write (lba : Nat) (data : Sector)

def Session.call (s : Session) : Call → Session
  | .initFromMemory image => { s with disks := (exec (diskInitFromMemory image) s.disks).2 }
  | .select name => { s with disks := (exec (diskSelect name) s.disks).2 }
  | .selectRaw name => { s with disks := (exec (diskSelectRaw name) s.disks).2 }
  | .keep => { s with kept := s.kept ++ [s.disks.selected] }
  | .restore n => match s.kept.drop n with
    | [] => s
    | sel :: _ => { s with disks := (exec (diskRestore sel) s.disks).2 }
  | .deselect => { s with disks := (exec diskDeselect s.disks).2 }
  | .read lba count => { s with disks := (exec (diskReadMany lba count) s.disks).2 }
  | .write lba data => { s with disks := (exec (diskWrite lba data) s.disks).2 }

/-- Nothing is selected and no drive has been identified. -/
structure Fresh (s : Disks) : Prop where
  selected : s.selected = noDisk
  ata : ∀ u, s.ataCapacity u = 0
  limits : Limits s

def runCalls (s : Disks) (calls : List Call) : Session := calls.foldl Session.call ⟨s, []⟩

/-- Every selection, current or kept, is one that the layer has made. -/
structure Sound (s : Session) : Prop where
  limits : Limits s.disks
  known : AtaKnown s.disks
  selected : Chosen s.disks s.disks.selected
  kept : ∀ sel ∈ s.kept, Chosen s.disks sel

theorem chosen_noDisk (s : Disks) : Chosen s noDisk := ⟨.inl rfl, fun h => absurd rfl h⟩

theorem Sound.keeps {s : Session} (h : Sound s) {t : Disks} (hk : Keeps s.disks t) (hsel : Chosen t t.selected) :
    Sound ⟨t, s.kept⟩ :=
  ⟨hk.limits h.limits, hk.known h.known, hsel, fun sel hm => hk.chosen (h.kept sel hm)⟩

theorem Sound.named {s : Session} (h : Sound s) (name : Name) (raw : Bool) :
    Sound ⟨(exec (selectNamed name raw) s.disks).2, s.kept⟩ := by
  have hk := keeps_selectNamed name raw s.disks
  apply h.keeps hk
  rcases chosen_selectNamed s.disks.selected name raw s.disks ⟨rfl, h.limits⟩ with he | hc
  · rw [he]
    exact hk.chosen h.selected
  · exact hc

theorem Sound.init {s : Session} (h : Sound s) (image : Nat → Sector) :
    Sound ⟨(exec (diskInitFromMemory image) s.disks).2, s.kept⟩ := by
  have hram : ∃ d, (exec (diskInitFromMemory image) s.disks).2.device .ram = some d ∧ d.capacity = ramSectors :=
    ⟨⟨ramSectors, false, 0, false, image⟩, Function.update_self (Bay.ram) _ s.disks.device, rfl⟩
  have hother : ∀ b, b ≠ .ram → (exec (diskInitFromMemory image) s.disks).2.device b = s.disks.device b :=
    fun b hb => Function.update_of_ne hb ..
  have hata : (exec (diskInitFromMemory image) s.disks).2.ataCapacity = s.disks.ataCapacity ∧
      (exec (diskInitFromMemory image) s.disks).2.ataLba48 = s.disks.ataLba48 := ⟨rfl, rfl⟩
  have hsel : (exec (diskInitFromMemory image) s.disks).2.selected = ⟨1, 0, ramSectors, 0⟩ := rfl
  generalize (exec (diskInitFromMemory image) s.disks).2 = t at hram hother hata hsel
  obtain ⟨r, hr, hcapr⟩ := hram
  -- the RAM disk always has the same size, so what was inside it still is
  have hin : ∀ sel, Chosen s.disks sel → Chosen t sel := by
    intro sel hsel
    refine ⟨?_, hsel.sectors⟩
    rcases hsel.inside with h0 | ⟨b, d, hb, hd, hcap, hword⟩
    · exact .inl h0
    · by_cases hram : b = .ram
      · subst hram
        rw [h.limits.ram d hd, ← hcapr] at hcap
        exact .inr ⟨.ram, r, hb, hr, hcap, hword⟩
      · exact .inr ⟨b, d, hb, (hother b hram).trans hd, hcap, hword⟩
  refine ⟨⟨?_, ?_, ?_⟩, ?_, ?_, fun sel hm => hin sel (h.kept sel hm)⟩
  · intro d hd
    cases hr.symm.trans hd
    exact hcapr
  · exact fun u d hd => h.limits.usb u d ((hother (.usb u) nofun).symm.trans hd)
  · exact fun u d hd => h.limits.ata u d ((hother (.ata u) nofun).symm.trans hd)
  · intro u
    dsimp only
    rw [hata.1, hata.2]
    rcases h.known u with h0 | ⟨d, hd, hrest⟩
    · exact .inl h0
    · exact .inr ⟨d, (hother (.ata u) nofun).trans hd, hrest⟩
  · dsimp only
    rw [hsel]
    refine ⟨.inr ⟨.ram, r, rfl, hr, ?_, by decide⟩, fun h => absurd rfl h⟩
    rw [hcapr]
    exact Nat.le_of_eq (Nat.zero_add _)

theorem Sound.call {s : Session} (h : Sound s) (c : Call) : Sound (s.call c) := by
  cases c with
  | initFromMemory image => exact h.init image
  | select name => exact h.named name false
  | selectRaw name => exact h.named name true
  | keep =>
    refine ⟨h.limits, h.known, h.selected, fun sel hm => ?_⟩
    rcases List.mem_append.1 hm with hm | hm
    · exact h.kept sel hm
    · rw [List.mem_singleton.1 hm]
      exact h.selected
  | restore n =>
    unfold Session.call
    dsimp only
    split
    · exact h
    · rename_i sel rest hdrop
      have hm : sel ∈ s.kept := List.mem_of_mem_drop (hdrop ▸ List.mem_cons_self ..)
      have hk : Keeps s.disks (exec (diskRestore sel) s.disks).2 := .of_same rfl rfl rfl rfl
      exact h.keeps hk (hk.chosen (h.kept sel hm))
  | deselect => exact h.keeps (t := (exec diskDeselect s.disks).2) (.of_same rfl rfl rfl rfl) (chosen_noDisk _)
  | read lba count =>
    have hk := Disk.keeps.diskReadMany lba count s.disks
    apply h.keeps hk
    rw [(quiet.diskReadMany lba count s.disks).selected]
    exact hk.chosen h.selected
  | write lba data =>
    have hk := Disk.keeps.diskWrite lba data s.disks
    apply h.keeps hk
    rw [(quiet.diskWrite lba data s.disks).selected]
    exact hk.chosen h.selected

/-- Whatever is called, the selections stay sound. -/
theorem sound_runCalls {s : Disks} (h : Fresh s) (calls : List Call) : Sound (runCalls s calls) := by
  have hstart : Sound ⟨s, []⟩ :=
    ⟨h.limits, fun u => .inl (h.ata u), h.selected.symm ▸ chosen_noDisk s, by simp⟩
  unfold runCalls
  generalize (⟨s, []⟩ : Session) = session at hstart
  induction calls generalizing session with
  | nil => exact hstart
  | cons c calls ih => exact ih (session.call c) (hstart.call c)

/-! ## Read after write -/

/-- What the sector `e.2` of the device in `e.1` holds. -/
def content (s : Disks) (e : Bay × Nat) : Option Sector := (s.device e.1).map (·.sectors e.2)

/-- A write that succeeds changes the sector of the selection with that number and no
other, and reads that cover it return the data, failing only when a command fails;
no access leaves the selection. -/
structure Faithful (s : Disks) : Prop where
  writes : ∀ lba data t, lba < s.selected.sectors → exec (diskWrite lba data) s = (true, t) →
    ∃ b, bayOf s.selected.id = some b ∧
      ∀ e, content t e = if e = (b, s.selected.offset + lba) then some data else content s e
  readBack : ∀ lba data t, lba < s.selected.sectors → exec (diskWrite lba data) s = (true, t) →
    ∀ first count, first ≤ lba → lba < first + count →
      (∀ list, (exec (diskReadMany first count) t).1 = some list → list[lba - first]? = some data) ∧
      (count ≤ 8 → first + count ≤ s.selected.sectors → (∀ n, s.faults n = false) →
        (exec (diskReadMany first count) t).1.isSome)
  readOne : ∀ lba data t, lba < s.selected.sectors → exec (diskWrite lba data) s = (true, t) →
    (∀ found, (exec (diskRead lba) t).1 = some found → found = data) ∧
    ((∀ n, s.faults n = false) → (exec (diskRead lba) t).1 = some data)
  reading : ∀ lba count, Confined s (exec (diskReadMany lba count) s).2
  writing : ∀ lba data, Confined s (exec (diskWrite lba data) s).2

/-- The selection is a partition of the RAM disk. -/
def RamPartition (s : Disks) : Prop := s.selected.id = 1 ∧ s.selected.offset ≠ 0

instance (s : Disks) : Decidable (RamPartition s) := inferInstanceAs (Decidable (_ ∧ _))

section Session

variable {s : Disks} (hs : Sound ⟨s, []⟩)
include hs

/-- Away from the RAM disk's partitions a write goes where the selection says. -/
theorem diskWrite_spec (hn : ¬RamPartition s) (lba : Nat) (data : Sector) :
    ((exec (diskWrite lba data) s).1 = false ∧ Silent s (exec (diskWrite lba data) s).2) ∨
    (lba < s.selected.sectors ∧ ∃ b, bayOf s.selected.id = some b ∧
      Writes b (s.selected.offset + lba) data s (exec (diskWrite lba data) s)) := by
  have hplace : (if s.selected.id = 1 then lba else s.selected.offset + lba) = s.selected.offset + lba := by
    split
    · rename_i h1
      have : s.selected.offset = 0 := by
        by_contra h0
        exact hn ⟨h1, h0⟩
      omega
    · rfl
  have h := diskWrite_cases hs.selected.inside lba data
  rwa [hplace] at h

theorem writes_content (hn : ¬RamPartition s) {lba : Nat} {data : Sector} {t : Disks}
    (hw : exec (diskWrite lba data) s = (true, t)) :
    lba < s.selected.sectors ∧ ∃ b d, bayOf s.selected.id = some b ∧ s.device b = some d ∧
      t.device = Function.update s.device b (some (d.put (s.selected.offset + lba) data)) := by
  rcases diskWrite_spec hs hn lba data with ⟨hf, -⟩ | ⟨hlt, b, hb, h⟩
  · rw [hw] at hf
    cases hf
  · rw [hw] at h
    obtain ⟨d, hd, ht⟩ := h.device rfl
    exact ⟨hlt, b, d, hb, hd, ht⟩

/-- A read after the write. -/
theorem reads_back (hn : ¬RamPartition s) {lba : Nat} {data : Sector} {t : Disks}
    (hw : exec (diskWrite lba data) s = (true, t)) {first count : Nat} (h1 : first ≤ lba) (h2 : lba < first + count) :
    (∀ list, (exec (diskReadMany first count) t).1 = some list → list[lba - first]? = some data) ∧
    (count ≤ 8 → first + count ≤ s.selected.sectors → (∀ n, s.faults n = false) →
      (exec (diskReadMany first count) t).1.isSome) := by
  obtain ⟨hlt, b, d, hb, hd, ht⟩ := writes_content hs hn hw
  have hk : Keeps s t := by
    have := keeps.diskWrite lba data s
    rwa [hw] at this
  have hq : Quiet s t := by
    have := quiet.diskWrite lba data s
    rwa [hw] at this
  have hin : Inside t t.selected := by
    rw [hq.selected]
    exact hk.inside hs.selected.inside
  constructor
  · intro list hlist
    rcases diskReadMany_cases hin first count with ⟨hf, -⟩ | ⟨hle, b', hb', hr⟩
    · rw [hf] at hlist
      cases hlist
    · rw [hq.selected] at hb' hr
      cases hb.symm.trans hb'
      have hnew : t.device b = some (d.put (s.selected.offset + lba) data) := by rw [ht, Function.update_self]
      rw [hr.data list _ hlist hnew]
      unfold span Device.put
      have hi : lba - first < count := by omega
      have hadd : s.selected.offset + first + (lba - first) = s.selected.offset + lba := by omega
      simp [hi, hadd]
  · intro h8 hle hf
    have hok : (exec diskPresent s).1 = true := by
      by_contra hno
      unfold diskWrite at hw
      rw [exec_bind, Bool.eq_false_iff.2 hno] at hw
      cases hw
    apply diskReadMany_ok (hk.known hs.known) (hk.limits hs.limits) hin ((present_congr hq hk).trans hok) (by omega) h8
    · rwa [hq.selected]
    · rw [hk.faults]
      exact hf

theorem faithful_of (hn : ¬RamPartition s) : Faithful s := by
  refine ⟨?_, fun lba data t _ hw first count h1 h2 => reads_back hs hn hw h1 h2, ?_,
    confined_diskReadMany hs.selected.inside, ?_⟩
  · intro lba data t _ hw
    obtain ⟨-, b, d, hb, hd, ht⟩ := writes_content hs hn hw
    refine ⟨b, hb, fun e => ?_⟩
    unfold content
    rw [ht]
    obtain ⟨b', p⟩ := e
    by_cases hbb : b' = b
    · subst hbb
      rw [Function.update_self, hd]
      by_cases hp : p = s.selected.offset + lba
      · simp [hp, Device.put]
      · simp [hp, Device.put]
    · rw [Function.update_of_ne hbb, if_neg (by simp [hbb])]
  · intro lba data t hlt hw
    have hself : lba < lba + 1 := Nat.lt_succ_self lba
    obtain ⟨hdata, hok⟩ := reads_back hs hn hw (Nat.le_refl lba) hself
    have hone : ∀ found, (exec (diskRead lba) t).1 = some found → found = data := by
      intro found hfound
      obtain ⟨list, hlist, hhead⟩ := Option.bind_eq_some_iff.1 hfound
      have := hdata list hlist
      rw [Nat.sub_self, ← List.head?_eq_getElem?, hhead] at this
      exact Option.some.inj this
    refine ⟨hone, fun hf => ?_⟩
    obtain ⟨list, hlist⟩ := Option.isSome_iff_exists.1 (hok (by decide) hlt hf)
    have := hdata list hlist
    rw [Nat.sub_self, ← List.head?_eq_getElem?] at this
    show ((exec (diskReadMany lba 1) t).1.bind (·.head?)) = some data
    rw [hlist]
    exact this
  · intro lba data
    rcases diskWrite_spec hs hn lba data with ⟨-, h⟩ | ⟨hlt, b, hb, h⟩
    · exact h.confined
    · obtain ⟨new, htrace, hnew⟩ := h.trace
      refine ⟨new, htrace, fun e he => ?_⟩
      rw [hnew e he]
      exact ⟨hb, Nat.le_add_right _ _, Nat.add_lt_add_left hlt _⟩

/-- On a partition of the RAM disk the first sector is written elsewhere. -/
theorem not_faithful_of (hp : RamPartition s) : ¬Faithful s := by
  obtain ⟨hid, hoff⟩ := hp
  intro h
  have h0 : 0 < s.selected.sectors := Nat.pos_of_ne_zero (hs.selected.sectors hoff)
  obtain ⟨b, d, hb, hd, -, -⟩ := hs.selected.inside.device 0 h0
  rw [hid] at hb
  obtain rfl : b = .ram := (Option.some.inj hb).symm
  -- the data differs from what the first sector of the partition holds
  obtain ⟨data, hdata⟩ : ∃ data, data ≠ d.sectors s.selected.offset :=
    ⟨fun i => d.sectors s.selected.offset i + 1, fun he => by
      have := congrFun he ⟨0, by decide⟩
      simp at this⟩
  have hw : exec (diskWrite 0 data) s = (true, { s with
      device := Function.update s.device .ram (some (d.put 0 data)), trace := s.trace ++ [(.ram, 0)] }) := by
    have hpresent : exec diskPresent s = (true, s) := by
      unfold diskPresent
      rw [exec_bind, exec_get]
      dsimp only
      rw [hid, if_neg (by decide), if_neg (by decide), if_neg (by decide), exec_bind, exec_get]
      dsimp only
      rw [hd]
      rfl
    unfold diskWrite
    rw [exec_bind, hpresent]
    simp only [Bool.not_true, Bool.false_eq_true, if_false]
    rw [exec_bind, exec_get]
    dsimp only
    rw [if_neg (by omega), hid, if_neg (by decide), if_neg (by decide), if_neg (by decide)]
    unfold ramWrite
    rw [exec_modifyGet, hd]
  obtain ⟨b, hb', hc⟩ := h.writes 0 data _ h0 hw
  rw [hid] at hb'
  obtain rfl : b = .ram := (Option.some.inj hb').symm
  have := hc (.ram, s.selected.offset)
  rw [Nat.add_zero, if_pos rfl] at this
  unfold content Device.put at this
  simp only [Function.update_self, Option.map_some, Function.update_of_ne hoff, Option.some.injEq] at this
  exact hdata this.symm

end Session

/-- Whatever was called before, the selection is read and written faithfully unless it
is a partition of the RAM disk. -/
theorem selection_faithful_iff {s : Disks} (h : Fresh s) (calls : List Call) :
    Faithful (runCalls s calls).disks ↔ ¬RamPartition (runCalls s calls).disks := by
  have hs := sound_runCalls h calls
  have hs' : Sound ⟨(runCalls s calls).disks, []⟩ := ⟨hs.limits, hs.known, hs.selected, by simp⟩
  exact ⟨fun hf hp => not_faithful_of hs' hp hf, faithful_of hs'⟩

/-- A machine without any device. -/
def bare : Disks where
  device := fun _ => none
  usbPort := fun _ => false
  pciNames := []
  ataCapacity := fun _ => 0
  ataLba48 := fun _ => false
  ataUnit := 0
  usbUnit := 0
  selected := noDisk
  faults := fun _ => false
  clock := 0
  trace := []

theorem fresh_bare : Fresh bare := ⟨rfl, fun _ => rfl, nofun, nofun, nofun⟩

/-- A boot record whose first entry is a Linux partition of 8 sectors from sector 1 on. -/
def bootRecord : Sector :=
  (((((default : Sector).set 450 0x83).put32 454 1).put32 458 8).set 510 0x55).set 511 0xaa

/-- The RAM disk is loaded, and its first partition selected by its name `ram0p1`. -/
def ramCalls : List Call :=
  [.initFromMemory fun p => if p = 0 then bootRecord else default, .select [114, 97, 109, 48, 112, 49]]

theorem selected_ramCalls : (runCalls bare ramCalls).disks.selected = ⟨1, 1, 8, 0⟩ := by decide +kernel

/-- A whole RAM disk is read and written faithfully. -/
theorem ram_whole_faithful : Faithful (runCalls bare [.initFromMemory fun _ => default]).disks :=
  (selection_faithful_iff fresh_bare _).2 (by decide)

/-- The first partition of the RAM disk is not. -/
theorem ram_partition_unfaithful : Fresh bare ∧ ¬Faithful (runCalls bare ramCalls).disks := by
  have hp : RamPartition (runCalls bare ramCalls).disks := by
    unfold RamPartition
    rw [selected_ramCalls]
    decide
  have hs := sound_runCalls fresh_bare ramCalls
  exact ⟨fresh_bare, not_faithful_of ⟨hs.limits, hs.known, hs.selected, by simp⟩ hp⟩

end Barnix.Disk
