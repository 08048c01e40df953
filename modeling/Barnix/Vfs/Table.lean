import Barnix.Vfs.World
/-!
# The mount table

The mounted volumes have different places in the namespace and different places
on the disks, and below `/` they are mounted inside other ones. Mounting and
unmounting keep this, whatever the engine does.
-/

namespace Barnix.Vfs

/-! ## Which volume a path belongs to -/

/-- The volume in slot `v` is mounted at `ms`. -/
structure Mounted (mounts : Fin 8 → Mount) (v : Fin 8) (ms : List Name) : Prop where
  used : (mounts v).used = true
  normal : Normal ms
  path : (mounts v).path = render ms

theorem Mounted.unique {mounts : Fin 8 → Mount} {v : Fin 8} {ms ns : List Name} (h : Mounted mounts v ms)
    (h' : Mounted mounts v ns) : ms = ns := render_inj h.normal.1 h'.normal.1 (h.path.symm.trans h'.path)

theorem Mounted.beneath {mounts : Fin 8 → Mount} {v : Fin 8} {ms ps : List Name} (h : Mounted mounts v ms) (hps : Normal ps) :
    Barnix.beneath (render ps) (mounts v).path = true ↔ ms <+: ps := by
  rw [h.path]
  exact beneath_render hps.1 h.normal.1

/-- What holds of the mount table. -/
structure Table (mounts : Fin 8 → Mount) : Prop where
  paths : ∀ v, (mounts v).used = true → ∃ ms, Mounted mounts v ms
  distinct : ∀ v w ms, Mounted mounts v ms → Mounted mounts w ms → v = w
  disks : ∀ v w, (mounts v).used = true → (mounts w).used = true → (mounts v).disk.id = (mounts w).disk.id →
    (mounts v).disk.offset = (mounts w).disk.offset → v = w
  covered : ∀ v ms, Mounted mounts v ms → ms ≠ [] → ∃ w ns, Mounted mounts w ns ∧ ns <+: ms ∧ ns ≠ ms

/-- Slot `v` has the longest mounted path at or above `ps`, and no other has it. -/
def Longest (mounts : Fin 8 → Mount) (ps : List Name) (v : Fin 8) : Prop :=
  ∃ ms, Mounted mounts v ms ∧ ms <+: ps ∧
    ∀ w ns, Mounted mounts w ns → ns <+: ps → w ≠ v → (mounts w).path.length < (mounts v).path.length

/-- The search keeps the first of the longest paths. -/
theorem foldl_closer (mounts : Fin 8 → Mount) (path : Name) (l : List (Fin 8)) (best : Option (Fin 8)) :
    match l.foldl (closer mounts path) best with
    | none => best = none ∧ ∀ i ∈ l, ¬ ((mounts i).used = true ∧ beneath path (mounts i).path = true)
    | some v => (∀ b, best = some b → (mounts b).path.length ≤ (mounts v).path.length) ∧
        ∀ i ∈ l, (mounts i).used = true → beneath path (mounts i).path = true →
          (mounts i).path.length ≤ (mounts v).path.length := by
  induction l generalizing best with
  | nil =>
    cases best with
    | none => simp
    | some b => simp
  | cons i l ih =>
    rw [List.foldl_cons]
    have ih := ih (closer mounts path best i)
    have hcloser : (closer mounts path best i = none → best = none ∧
          ¬ ((mounts i).used = true ∧ beneath path (mounts i).path = true)) ∧
        ∀ b, closer mounts path best i = some b →
          (∀ b', best = some b' → (mounts b').path.length ≤ (mounts b).path.length) ∧
          ((mounts i).used = true → beneath path (mounts i).path = true → (mounts i).path.length ≤ (mounts b).path.length) := by
      unfold closer
      split
      · rename_i hc
        simp only [Bool.and_eq_true] at hc
        refine ⟨by simp, fun b hb => ?_⟩
        obtain rfl : i = b := by simpa using hb
        refine ⟨?_, fun _ _ => Nat.le_refl _⟩
        rintro b' rfl
        exact Nat.le_of_lt (by simpa using hc.2)
      · rename_i hc
        constructor
        · rintro rfl
          refine ⟨rfl, fun h => hc ?_⟩
          simp [h.1, h.2]
        · rintro b rfl
          refine ⟨?_, fun hu hb => ?_⟩
          · rintro b' hb'
            rw [Option.some.inj hb']
          · simpa [hu, hb] using hc
    cases hfold : l.foldl (closer mounts path) (closer mounts path best i) with
    | none =>
      rw [hfold] at ih
      obtain ⟨hbest, hi⟩ := hcloser.1 ih.1
      refine ⟨hbest, fun j hj => ?_⟩
      rcases List.mem_cons.1 hj with rfl | hj
      · exact hi
      · exact ih.2 j hj
    | some v =>
      rw [hfold] at ih
      cases hb : closer mounts path best i with
      | none =>
        obtain ⟨hbest, hi⟩ := hcloser.1 hb
        refine ⟨by simp [hbest], fun j hj hu hbe => ?_⟩
        rcases List.mem_cons.1 hj with rfl | hj
        · exact absurd ⟨hu, hbe⟩ hi
        · exact ih.2 j hj hu hbe
      | some b =>
        obtain ⟨hbest, hi⟩ := hcloser.2 b hb
        have hbv := ih.1 b hb
        refine ⟨fun b' hb' => (hbest b' hb').trans hbv, fun j hj hu hbe => ?_⟩
        rcases List.mem_cons.1 hj with rfl | hj
        · exact (hi hu hbe).trans hbv
        · exact ih.2 j hj hu hbe

namespace Table

variable {mounts : Fin 8 → Mount} {ps : List Name}

theorem volumeFor_eq_none (h : Table mounts) (hps : Normal ps) :
    volumeFor mounts (render ps) = none ↔ ∀ v ms, Mounted mounts v ms → ¬ ms <+: ps := by
  have hfold := foldl_closer mounts (render ps) (List.finRange 8) none
  constructor
  · intro hnone v ms hv hp
    rw [show (List.finRange 8).foldl (closer mounts (render ps)) none = none from hnone] at hfold
    exact hfold.2 v (by simp) ⟨hv.used, (hv.beneath hps).2 hp⟩
  · intro hno
    by_contra hne
    obtain ⟨v, hv⟩ := Option.ne_none_iff_exists'.1 hne
    obtain ⟨hu, hb⟩ := volumeFor_spec hv
    obtain ⟨ms, hms⟩ := h.paths v hu
    exact hno v ms hms ((hms.beneath hps).1 hb)

/-- Of two mounted paths above one path, the longer one is beneath the other. -/
theorem volumeFor_eq_some (h : Table mounts) (hps : Normal ps) (v : Fin 8) :
    volumeFor mounts (render ps) = some v ↔ Longest mounts ps v := by
  have hlongest : ∀ v, volumeFor mounts (render ps) = some v → Longest mounts ps v := by
    intro v hv
    obtain ⟨hu, hb⟩ := volumeFor_spec hv
    obtain ⟨ms, hms⟩ := h.paths v hu
    have hp := (hms.beneath hps).1 hb
    refine ⟨ms, hms, hp, fun w ns hns hn hwv => ?_⟩
    have hfold := foldl_closer mounts (render ps) (List.finRange 8) none
    rw [show (List.finRange 8).foldl (closer mounts (render ps)) none = some v from hv] at hfold
    have hle := hfold.2 w (by simp) hns.used ((hns.beneath hps).2 hn)
    refine Nat.lt_of_le_of_ne hle fun heq => hwv ?_
    -- the two are on one branch, so equally long ones are the same
    rw [hns.path, hms.path] at heq
    have hsame : ns = ms := by
      rcases List.prefix_or_prefix_of_prefix hn hp with hpre | hpre
      · by_contra hne
        have := length_render_lt hpre hne hms.normal.1
        omega
      · by_contra hne
        have := length_render_lt hpre (fun e => hne e.symm) hns.normal.1
        omega
    subst hsame
    exact h.distinct w v ns hns hms
  refine ⟨hlongest v, fun hv => ?_⟩
  obtain ⟨ms, hms, hp, hmax⟩ := hv
  cases hvol : volumeFor mounts (render ps) with
  | none => exact absurd hp ((h.volumeFor_eq_none hps).1 hvol v ms hms)
  | some w =>
    obtain ⟨ns, hns, hn, hmax'⟩ := hlongest w hvol
    by_contra hne
    have hwv : w ≠ v := fun e => hne (by rw [e])
    have h1 := hmax w ns hns hn hwv
    have h2 := hmax' v ms hms hp fun e => hwv e.symm
    omega

end Table

/-! ## Mounting and unmounting -/

theorem mounted_update {mounts : Fin 8 → Mount} {slot v : Fin 8} {m : Mount} {ms : List Name} (hv : v ≠ slot) :
    Mounted (Function.update mounts slot m) v ms ↔ Mounted mounts v ms := by
  constructor <;> intro h
  · have hused := h.used
    have hpath := h.path
    rw [Function.update_of_ne hv] at hused hpath
    exact ⟨hused, h.normal, hpath⟩
  · refine ⟨?_, h.normal, ?_⟩ <;> rw [Function.update_of_ne hv]
    · exact h.used
    · exact h.path

theorem mountSlot_spec {mounts : Fin 8 → Mount} {path : Name} {l : List (Fin 8)} {slot : Option (Fin 8)} {v : Fin 8}
    (h : mountSlot mounts path l slot = some v) (hslot : ∀ w, slot = some w → (mounts w).used = false) :
    ((mounts v).used = true ∧ (mounts v).path = path ∧ path = [slash]) ∨
      ((mounts v).used = false ∧ ∀ i ∈ l, (mounts i).used = true → (mounts i).path ≠ path) := by
  induction l generalizing slot with
  | nil => exact .inr ⟨hslot v h, by simp⟩
  | cons i l ih =>
    rw [mountSlot] at h
    split at h
    · rename_i hi
      split at h
      · rename_i hroot
        obtain rfl : i = v := by simpa using h
        exact .inl ⟨hi.1, hi.2, hroot⟩
      · simp at h
    · rename_i hi
      have hnext : ∀ w, (if (mounts i).used then slot else slot.or (some i)) = some w → (mounts w).used = false := by
        intro w hw
        cases hu : (mounts i).used with
        | true => exact hslot w (by simpa [hu] using hw)
        | false =>
          cases slot with
          | none =>
            obtain rfl : i = w := by simpa [hu] using hw
            exact hu
          | some b => exact hslot w (by simpa [hu] using hw)
      rcases ih h hnext with hroot | ⟨hfree, hother⟩
      · exact .inl hroot
      · refine .inr ⟨hfree, fun j hj hu => ?_⟩
        rcases List.mem_cons.1 hj with rfl | hj
        · exact fun e => hi ⟨hu, e⟩
        · exact hother j hj hu

namespace Table

variable {mounts : Fin 8 → Mount}

/-- Nothing is mounted, or one volume at `/`. -/
theorem single (used : Bool) (disk : DiskSelection) :
    Table fun i => if i = 0 then ⟨used, disk, [slash]⟩ else ⟨false, noDisk, []⟩ := by
  have hzero : ∀ v : Fin 8, (if v = 0 then (⟨used, disk, [slash]⟩ : Mount) else ⟨false, noDisk, []⟩).used = true → v = 0 := by
    intro v hv
    by_contra hne
    simp [hne] at hv
  have hroot : ∀ v ms, Mounted (fun i => if i = 0 then ⟨used, disk, [slash]⟩ else ⟨false, noDisk, []⟩) v ms →
      v = 0 ∧ ms = [] := by
    intro v ms h
    obtain rfl := hzero v h.used
    exact ⟨rfl, render_inj h.normal.1 (by simp) h.path.symm⟩
  refine ⟨fun v hv => ?_, fun v w ms hv hw => ?_, fun v w hv hw _ _ => ?_, fun v ms h hne => ?_⟩
  · obtain rfl := hzero v hv
    exact ⟨[], hv, ⟨by simp, by decide⟩, rfl⟩
  · rw [(hroot v ms hv).1, (hroot w ms hw).1]
  · rw [hzero v hv, hzero w hw]
  · exact absurd (hroot v ms h).2 hne

theorem mount (h : Table mounts) {ms : List Name} (hms : Normal ms) {slot : Fin 8} {disk : DiskSelection}
    (hslot : mountSlot mounts (render ms) (List.finRange 8) none = some slot)
    (hinside : ms ≠ [] → volumeFor mounts (render ms) ≠ none)
    (halone : ms = [] → ∀ i, (mounts i).used = true → (mounts i).path = [slash])
    (hdisk : ∀ i, (mounts i).used = true → i ≠ slot → (mounts i).disk.id = disk.id →
      (mounts i).disk.offset ≠ disk.offset) : Table (Function.update mounts slot ⟨true, disk, render ms⟩) := by
  have hself : Mounted (Function.update mounts slot ⟨true, disk, render ms⟩) slot ms := by
    refine ⟨?_, hms, ?_⟩ <;> rw [Function.update_self]
  have hcases := mountSlot_spec hslot (by simp)
  -- no other slot has the new path
  have hnew : ∀ v, v ≠ slot → ¬ Mounted mounts v ms := by
    intro v hne hv
    rcases hcases with ⟨hu, hp, hr⟩ | ⟨-, hother⟩
    · exact hne (h.distinct v slot ms hv ⟨hu, hms, hp⟩)
    · exact hother v (by simp) hv.used hv.path
  refine ⟨fun v hv => ?_, fun v w ns hv hw => ?_, fun v w hv hw hid hoff => ?_, fun v ns hv hne => ?_⟩
  · by_cases hvs : v = slot
    · exact ⟨ms, hvs ▸ hself⟩
    · rw [Function.update_of_ne hvs] at hv
      obtain ⟨ns, hns⟩ := h.paths v hv
      exact ⟨ns, (mounted_update hvs).2 hns⟩
  · by_cases hvs : v = slot <;> by_cases hws : w = slot
    · rw [hvs, hws]
    · subst hvs
      obtain rfl := hv.unique hself
      exact absurd ((mounted_update hws).1 hw) (hnew w hws)
    · subst hws
      obtain rfl := hw.unique hself
      exact absurd ((mounted_update hvs).1 hv) (hnew v hvs)
    · exact h.distinct v w ns ((mounted_update hvs).1 hv) ((mounted_update hws).1 hw)
  · by_cases hvs : v = slot <;> by_cases hws : w = slot
    · rw [hvs, hws]
    · subst hvs
      rw [Function.update_self] at hid hoff
      rw [Function.update_of_ne hws] at hw hid hoff
      exact absurd hoff.symm (hdisk w hw hws hid.symm)
    · subst hws
      rw [Function.update_self] at hid hoff
      rw [Function.update_of_ne hvs] at hv hid hoff
      exact absurd hoff (hdisk v hv hvs hid)
    · rw [Function.update_of_ne hvs] at hv hid hoff
      rw [Function.update_of_ne hws] at hw hid hoff
      exact h.disks v w hv hw hid hoff
  · by_cases hvs : v = slot
    · -- the new volume is inside the one its path belonged to
      subst hvs
      obtain rfl := hv.unique hself
      obtain ⟨w, hw⟩ := Option.ne_none_iff_exists'.1 (hinside hne)
      obtain ⟨ps, hps, hp, -⟩ := (h.volumeFor_eq_some hms w).1 hw
      have hwv : w ≠ v := by
        rintro rfl
        rcases hcases with ⟨-, hpath, hr⟩ | ⟨hfree, -⟩
        · exact hne (render_inj hms.1 (by simp) hr)
        · simp [hps.used] at hfree
      refine ⟨w, ps, (mounted_update hwv).2 hps, hp, ?_⟩
      rintro rfl
      exact hnew w hwv hps
    · obtain ⟨w, ps, hps, hp, hpn⟩ := h.covered v ns ((mounted_update hvs).1 hv) hne
      by_cases hws : w = slot
      · subst hws
        rcases hcases with ⟨-, hpath, hr⟩ | ⟨hfree, -⟩
        · obtain rfl := render_inj hps.normal.1 hms.1 (hps.path.symm.trans hpath)
          exact ⟨w, ps, hself, hp, hpn⟩
        · simp [hps.used] at hfree
      · exact ⟨w, ps, (mounted_update hws).2 hps, hp, hpn⟩

theorem unmount (h : Table mounts) {v : Fin 8} {disk : DiskSelection} {path : Name} {ms : List Name}
    (hv : Mounted mounts v ms) (hinner : ∀ w ns, Mounted mounts w ns → w ≠ v → ¬ ms <+: ns) :
    Table (Function.update mounts v ⟨false, disk, path⟩) := by
  have hother : ∀ w, (Function.update mounts v ⟨false, disk, path⟩ w).used = true → w ≠ v := by
    rintro w hw rfl
    simp at hw
  refine ⟨fun w hw => ?_, fun w w' ns hw hw' => ?_, fun w w' hw hw' hid hoff => ?_, fun w ns hw hne => ?_⟩
  · have hwv := hother w hw
    rw [Function.update_of_ne hwv] at hw
    obtain ⟨ns, hns⟩ := h.paths w hw
    exact ⟨ns, (mounted_update hwv).2 hns⟩
  · exact h.distinct w w' ns ((mounted_update (hother w hw.used)).1 hw) ((mounted_update (hother w' hw'.used)).1 hw')
  · have hwv := hother w hw
    have hwv' := hother w' hw'
    rw [Function.update_of_ne hwv] at hw hid hoff
    rw [Function.update_of_ne hwv'] at hw' hid hoff
    exact h.disks w w' hw hw' hid hoff
  · have hwv := hother w hw.used
    have hold := (mounted_update hwv).1 hw
    obtain ⟨w', ps, hps, hp, hpn⟩ := h.covered w ns hold hne
    have hne' : w' ≠ v := by
      rintro rfl
      obtain rfl := hps.unique hv
      exact hinner w ns hold hwv hp
    exact ⟨w', ps, (mounted_update hne').2 hps, hp, hpn⟩

end Table

/-! ## Operations that leave the table alone -/

section
variable {ε α : Type}

/-- The user stays, and so do the table and the working directory of an active namespace. -/
def SameTable (s t : Space ε) : Prop :=
  t.user = s.user ∧ (s.active = true → t.active = true ∧ t.mounts = s.mounts ∧ t.working = s.working)

instance : Std.Refl (SameTable (ε := ε)) := ⟨fun _ => ⟨rfl, fun h => ⟨h, rfl, rfl⟩⟩⟩

instance : IsTrans (Space ε) SameTable := ⟨fun s t u h h' => by
  refine ⟨h'.1.trans h.1, fun ha => ?_⟩
  obtain ⟨ht, hm, hw⟩ := h.2 ha
  obtain ⟨hu, hm', hw'⟩ := h'.2 ht
  exact ⟨hu, hm'.trans hm, hw'.trans hw⟩⟩

theorem sameTable_onEngine (x : StateM ε α) : Moves SameTable (onEngine x) := fun _ => ⟨rfl, fun h => ⟨h, rfl, rfl⟩⟩

theorem sameTable_volume (v : Option (Fin 8)) : Moves SameTable (modify fun s : Space ε => { s with activeVolume := v }) :=
  .modify fun _ => ⟨rfl, fun h => ⟨h, rfl, rfl⟩⟩

theorem sameTable_staged (f g : Space ε → Name) (needed : Space ε → Bool) : Moves SameTable (modify fun s : Space ε =>
    { s with renamedAcl := f s, renameGuard := g s, renamedAclNeeded := needed s }) :=
  .modify fun _ => ⟨rfl, fun h => ⟨h, rfl, rfl⟩⟩

variable [Engine ε]

theorem sameTable_activate (index : Option (Fin 8)) : Moves SameTable (activate (ε := ε) index) := by
  cases index with
  | none => exact .pure _
  | some v =>
    unfold activate
    refine .bind .get fun s => .ite ?_ ?_
    · refine (sameTable_onEngine _).bind fun _ => (sameTable_volume none).bind fun _ => (sameTable_onEngine _).bind fun ok => ?_
      exact .ite (.pure _) ((sameTable_volume (some v)).bind fun _ => sameTable_onEngine _)
    · exact sameTable_onEngine _

theorem sameTable_route (name : Name) (parent : Bool) : Moves SameTable (route (ε := ε) name parent) := by
  unfold route
  refine .bind .get fun s => ?_
  cases normalize s.working name with
  | none => exact .pure _
  | some path =>
    refine (sameTable_activate _).bind fun ok => .ite (.pure _) ?_
    refine (sameTable_onEngine _).bind fun _ => .ite (.pure _) (.ite (.pure _) ?_)
    exact (sameTable_onEngine _).bind fun _ => .ite (.pure _) (.pure _)

theorem sameTable_routed (name : Name) (parent : Bool) (bad : α) (op : Name → StateM ε α) :
    Moves SameTable (routed name parent bad op) := by
  unfold routed
  refine .bind .get fun s => .ite (sameTable_onEngine _) ((sameTable_route name parent).bind fun loc => ?_)
  cases loc with
  | none => exact .pure _
  | some loc => exact sameTable_onEngine _

theorem sameTable_privateRead (path : Name) (cap : Nat) : Moves SameTable (privateRead (ε := ε) path cap) := by
  unfold privateRead
  refine (sameTable_routed _ _ _ _).bind fun n => .ite (.pure _) ((sameTable_routed _ _ _ _).bind fun data => ?_)
  cases data <;> exact .pure _

theorem sameTable_namespaceStart : Moves SameTable (namespaceStart (ε := ε)) := by
  intro s
  cases ha : s.active with
  | true =>
    have : exec namespaceStart s = ((), s) := by simp [namespaceStart, ha]
    rw [this]
    exact refl_of SameTable s
  | false =>
    refine ⟨?_, fun h => absurd (ha.symm.trans h) Bool.false_ne_true⟩
    simp [namespaceStart, ha, onEngine]

/-- The namespace is active after its start. -/
theorem active_namespaceStart (s : Space ε) : (exec namespaceStart s).2.active = true := by
  cases ha : s.active <;> simp [namespaceStart, ha, onEngine]

theorem sameTable_checkPermission (name : Name) (mode : UInt8) : Moves SameTable (checkPermission (ε := ε) name mode) := by
  unfold checkPermission
  refine .bind .get fun s => .ite (.pure _) (sameTable_namespaceStart.bind fun _ => .bind .get fun t => ?_)
  cases normalize t.working name with
  | none => exact .pure _
  | some path =>
    refine .ite (.pure _) ((sameTable_privateRead _ _).bind fun data => ?_)
    cases data with
    | some data => exact .pure _
    | none => exact (sameTable_routed _ _ _ _).bind fun n => .ite (.pure _) (.pure _)

theorem sameTable_checked {name : Name} {mode : UInt8} {denied : α} {x : StateM (Space ε) α} (hx : Moves SameTable x) :
    Moves SameTable (checked name mode denied x) :=
  (sameTable_checkPermission name mode).bind fun _ => .ite (.pure _) hx

theorem sameTable_fsIsDir (name : Name) : Moves SameTable (fsIsDir (ε := ε) name) :=
  sameTable_checked (sameTable_routed _ _ _ _)

theorem sameTable_unprotected (name : Name) (op : Name → StateM ε Int) : Moves SameTable (unprotected name op) :=
  .bind .get fun _ => .ite (.pure _) (sameTable_routed _ _ _ _)

theorem sameTable_moveLoop (src dst : Name) (rounds : Nat) (p : Name) (size : Nat) :
    Moves SameTable (moveLoop (ε := ε) src dst rounds p size) := by
  induction rounds generalizing p size with
  | zero => exact .pure _
  | succ rounds ih =>
    unfold moveLoop
    refine .ite (.pure _) ?_
    rcases p.span fun c => c ≠ bar ∧ c ≠ newline with ⟨start, _ | ⟨c, p⟩⟩
    · exact .pure _
    · refine .ite (.pure _) (.ite ?_ ?_)
      · refine (sameTable_checkPermission _ _).bind fun ok => .ite (.pure _) (.ite (.pure _) ?_)
        refine (sameTable_staged _ _ _).bind fun _ => .ite (.pure _) ((sameTable_staged _ _ _).bind fun _ => ?_)
        exact .bind .get fun s => .ite (.pure _) ((sameTable_staged _ _ _).bind fun _ => ih _ _)
      · exact .bind .get fun s => .ite (.pure _) ((sameTable_staged _ _ _).bind fun _ => ih _ _)

theorem sameTable_permissionsMovePrepare (source dest : Name) :
    Moves SameTable (permissionsMovePrepare (ε := ε) source dest) := by
  unfold permissionsMovePrepare
  refine sameTable_namespaceStart.bind fun _ => (sameTable_staged _ _ _).bind fun _ => .bind .get fun s => ?_
  cases normalize s.working source with
  | none => exact .pure _
  | some src =>
    cases normalize s.working dest with
    | none => exact .pure _
    | some dst =>
      refine (sameTable_privateRead _ _).bind fun data => ?_
      cases data with
      | none => exact .pure _
      | some data => exact (sameTable_staged _ _ _).bind fun _ => sameTable_moveLoop _ _ _ _ _

theorem sameTable_permissionsMoveCommit : Moves SameTable (permissionsMoveCommit (ε := ε)) :=
  .bind .get fun _ => .ite (.pure _) (sameTable_routed _ _ _ _)

theorem sameTable_permissionsMoveFinish : Moves SameTable (permissionsMoveFinish (ε := ε)) :=
  .bind .get fun _ => .ite ((sameTable_routed _ _ _ _).bind fun _ => sameTable_staged _ _ _) (.pure _)

theorem sameTable_renameEntry (source dst : Name) : Moves SameTable (renameEntry (ε := ε) source dst) := by
  refine (sameTable_route _ _).bind fun src => ?_
  cases src with
  | none => exact .pure _
  | some src =>
    exact (sameTable_onEngine _).bind fun result => .ite (sameTable_permissionsMoveFinish.bind fun _ => .pure _) (.pure _)

theorem sameTable_moveEntry (source dest : Name) : Moves SameTable (moveEntry (ε := ε) source dest) := by
  unfold moveEntry
  refine .bind .get fun s => .ite (.pure _) ?_
  cases normalize s.working source with
  | none => exact .pure _
  | some a =>
    cases normalize s.working dest with
    | none => exact .pure _
    | some b =>
      refine .ite (.pure _) ((sameTable_route _ _).bind fun src => .ite (.pure _) (.bind .get fun t => ?_))
      refine (sameTable_route _ _).bind fun dst => ?_
      cases dst with
      | none => exact .pure _
      | some dst =>
        refine .bind .get fun u => .ite (.pure _) (sameTable_permissionsMoveCommit.bind fun r => .ite (.pure _) ?_)
        exact sameTable_renameEntry _ _

theorem sameTable_fsRm (name : Name) : Moves SameTable (fsRm (ε := ε) name) := sameTable_checked (sameTable_unprotected _ _)

theorem sameTable_fsRmdir (name : Name) : Moves SameTable (fsRmdir (ε := ε) name) :=
  sameTable_checked (sameTable_unprotected _ _)

theorem sameTable_fsMv (source dest : Name) : Moves SameTable (fsMv (ε := ε) source dest) := by
  refine sameTable_checked (sameTable_checked ((sameTable_permissionsMovePrepare source dest).bind fun r => ?_))
  exact .ite (.pure _) (.bind .get fun s => .ite (sameTable_onEngine _) (sameTable_moveEntry _ _))

/-! ## Mounting and unmounting, as operations -/

theorem Table.start {s : Space ε} (h : Table s.mounts) : Table (exec namespaceStart s).2.mounts := by
  cases ha : s.active with
  | true => simpa [namespaceStart, ha] using h
  | false =>
    have hstart : (exec namespaceStart s).2.mounts = fun i =>
        if i = 0 then ⟨(exec Engine.engineReady s.engine).1, Engine.diskSelection (exec Engine.engineReady s.engine).2, [slash]⟩
        else ⟨false, noDisk, []⟩ := by
      simp [namespaceStart, ha, onEngine]
    rw [hstart]
    exact .single _ _

/-- The part of `fs_mount` that loads the device, once the mountpoint is accepted. -/
def mountOn (device path : Name) (slot : Fin 8) (mounts : Fin 8 → Mount) : StateM (Space ε) Int := do
  if !(← onEngine (Engine.diskSelect (ε := ε) false device)) then return -1
  let next := Engine.diskSelection (← get).engine
  modify ({ · with activeVolume := none })
  if (List.finRange 8).any fun i => (mounts i).used && i != slot && (mounts i).disk.id == next.id &&
      (mounts i).disk.offset == next.offset then return -1
  if !(← onEngine (ε := ε) Engine.extInit) then return -1
  modify fun s => { s with
    mounts := Function.update s.mounts slot ⟨true, next, path⟩
    activeVolume := some slot
    working := if path = [slash] then [slash] else s.working }
  return 0

/-- A mount that was made, or none. -/
def MountMade (path : Name) (slot : Fin 8) (mounts : Fin 8 → Mount) (s t : Space ε) : Prop :=
  t.active = s.active ∧ t.user = s.user ∧ ((t.mounts = s.mounts ∧ t.working = s.working) ∨
    ∃ disk, (∀ i, (mounts i).used = true → i ≠ slot → (mounts i).disk.id = disk.id → (mounts i).disk.offset ≠ disk.offset) ∧
      t.mounts = Function.update s.mounts slot ⟨true, disk, path⟩ ∧
      t.working = if path = [slash] then [slash] else s.working)

theorem mountOn_made (device path : Name) (slot : Fin 8) (mounts : Fin 8 → Mount) (s : Space ε) :
    MountMade path slot mounts s (exec (mountOn device path slot mounts) s).2 := by
  let P : Space ε → Prop := fun t =>
    t.active = s.active ∧ t.user = s.user ∧ t.mounts = s.mounts ∧ t.working = s.working
  have hkeep : ∀ t, P t → MountMade path slot mounts s t := fun t h => ⟨h.1, h.2.1, .inl h.2.2⟩
  have key : Ends P (mountOn device path slot mounts) fun _ t => MountMade path slot mounts s t := by
    unfold mountOn
    refine Ends.bind (Q := fun _ => P) (fun t h => h) fun ok => .ite (fun _ => .pure hkeep) fun _ => ?_
    refine Ends.bind (Q := fun _ => P) (fun t h => h) fun t => .bind (Q := fun _ => P) (fun t h => h) fun _ => ?_
    refine .ite (fun _ => .pure hkeep) fun hany => ?_
    refine Ends.bind (Q := fun _ => P) (fun t h => h) fun ok => .ite (fun _ => .pure hkeep) fun _ => ?_
    refine fun u h => ⟨h.1, h.2.1, .inr ⟨Engine.diskSelection t.engine, fun i hu hne hid hoff => hany ?_, ?_, ?_⟩⟩
    · rw [List.any_eq_true]
      exact ⟨i, by simp, by simp [hu, hne, hid, hoff]⟩
    · rw [← h.2.2.1]
      rfl
    · rw [← h.2.2.2]
      rfl
  exact key s ⟨rfl, rfl, rfl, rfl⟩

/-- `fs_mount` is root's, starts the namespace, and mounts at a directory of a mounted
volume, or at `/` when nothing else is mounted. -/
theorem fsMount_made (device mountpoint : Name) (s : Space ε) :
    ((exec (fsMount device mountpoint) s).2 = s ∧ s.user ≠ root) ∨
      ∃ t, SameTable (exec namespaceStart s).2 t ∧ ((exec (fsMount device mountpoint) s).2 = t ∨
        ∃ ms slot, Normal ms ∧ mountSlot t.mounts (render ms) (List.finRange 8) none = some slot ∧
          (ms ≠ [] → volumeFor t.mounts (render ms) ≠ none) ∧
          (ms = [] → ∀ i, (t.mounts i).used = true → (t.mounts i).path = [slash]) ∧
          MountMade (render ms) slot t.mounts t (exec (fsMount device mountpoint) s).2) := by
  by_cases hu : s.user = root
  swap
  · refine .inl ⟨?_, hu⟩
    simp [fsMount, hu]
  right
  have hactive := active_namespaceStart s
  have huser : (exec namespaceStart s).2.user = root := by
    rw [(sameTable_namespaceStart s).1, hu]
  generalize hs1 : (exec namespaceStart s).2 = s₁ at *
  cases hn : normalize s₁.working mountpoint with
  | none => exact ⟨s₁, refl_of SameTable s₁, .inl (by simp [fsMount, hu, hs1, hn])⟩
  | some path =>
  obtain ⟨ms, rfl, hms⟩ := normalize_spec hn
  cases hslot : mountSlot s₁.mounts (render ms) (List.finRange 8) none with
  | none => exact ⟨s₁, refl_of SameTable s₁, .inl (by simp [fsMount, hu, hs1, hn, hslot])⟩
  | some slot =>
  have hrun : exec (fsMount device mountpoint) s = exec (
      if render ms ≠ [slash] then do
        if !(← fsIsDir (render ms)) then return -1
        mountOn device (render ms) slot s₁.mounts
      else if (List.finRange 8).any fun i => (s₁.mounts i).used && (s₁.mounts i).path != [slash] then return -1
      else mountOn device (render ms) slot s₁.mounts : StateM (Space ε) Int) s₁ := by
    unfold fsMount
    simp only [exec_bind, exec_get, hu, ne_eq, not_true_eq_false, if_false, hs1, hn, hslot]
    rfl
  by_cases hroot : ms = []
  · have hslash : render ms = [slash] := by rw [hroot, render_nil]
    rw [hslash, if_neg (by simp)] at hrun
    split at hrun
    · exact ⟨s₁, refl_of SameTable s₁, .inl (by rw [hrun]; rfl)⟩
    · rename_i hany
      refine ⟨s₁, refl_of SameTable s₁, .inr ⟨ms, slot, hms, hslot, fun h => absurd hroot h, fun _ i hi => ?_, ?_⟩⟩
      · by_contra hne
        apply hany
        rw [List.any_eq_true]
        exact ⟨i, by simp, by simp [hi, hne]⟩
      · rw [hrun, hslash]
        exact mountOn_made _ _ _ _ _
  · have hslash : render ms ≠ [slash] := fun e => hroot (render_inj hms.1 (by simp) e)
    rw [if_pos hslash, exec_bind] at hrun
    have hdir := sameTable_fsIsDir (render ms) s₁
    have htable := hdir.2 hactive
    cases hd : (exec (fsIsDir (render ms)) s₁).1 with
    | false => exact ⟨_, hdir, .inl (by rw [hrun, hd]; rfl)⟩
    | true =>
      refine ⟨_, hdir, .inr ⟨ms, slot, hms, by rw [htable.2.1]; exact hslot, fun _ hvol => ?_, fun h => absurd h hroot, ?_⟩⟩
      · -- without a volume the mountpoint is no directory
        rw [htable.2.1] at hvol
        have hnone : exec (route (render ms) false) s₁ = (none, s₁) := by
          simp [route, normalize_render s₁.working hms, hvol, activate]
        have : exec (fsIsDir (render ms)) s₁ = (false, s₁) := by
          simp [fsIsDir, checked, checkPermission, huser, plainIsDir, routed, hactive, hnone]
        simp [this] at hd
      · rw [hrun, hd, htable.2.1]
        exact mountOn_made _ _ _ _ _

/-- Mounting keeps the table. -/
theorem Table.fsMount {s : Space ε} (h : Table s.mounts) (device mountpoint : Name) :
    Table (exec (fsMount device mountpoint) s).2.mounts := by
  rcases fsMount_made device mountpoint s with ⟨he, -⟩ | ⟨t, ht, he⟩
  · rw [he]
    exact h
  have hactive := active_namespaceStart s
  have htable : Table t.mounts := (ht.2 hactive).2.1 ▸ h.start
  rcases he with rfl | ⟨ms, slot, hms, hslot, hinside, halone, -, -, ⟨hm, -⟩ | ⟨disk, hdisk, hm, -⟩⟩
  · exact htable
  · rw [hm]
    exact htable
  · rw [hm]
    exact htable.mount hms hslot hinside halone hdisk

/-- The part of `fs_unmount_path` that forgets volume `v`. -/
def forget (v : Fin 8) : StateM (Space ε) Int := do
  modify fun s => { s with mounts := Function.update s.mounts v { s.mounts v with used := false }, activeVolume := none }
  onEngine (ε := ε) Engine.unmount
  onEngine (ε := ε) Engine.diskDeselect
  modify fun s => { s with working := if beneath s.working (s.mounts v).path then [slash] else s.working }
  return 0

/-- The part of `fs_unmount_path` that runs on a volume with nothing mounted inside it. -/
def release (v : Fin 8) (disk : DiskSelection) : StateM (Space ε) Int := do
  onEngine (Engine.diskRestore (ε := ε) disk)
  modify ({ · with activeVolume := none })
  if ← onEngine (ε := ε) Engine.diskPresent then
    if !(← activate (some v)) then return -1
    if (← onEngine (ε := ε) Engine.extSync) ≠ 0 then return -1
    forget v
  else forget v

/-- A volume that was unmounted, or none. -/
def MountGone (s t : Space ε) : Prop :=
  t.active = s.active ∧ t.user = s.user ∧ ((t.mounts = s.mounts ∧ t.working = s.working) ∨
    ∃ v, (s.mounts v).used = true ∧
      (∀ i, i ≠ v → (s.mounts i).used = true → beneath (s.mounts i).path (s.mounts v).path = false) ∧
      t.mounts = Function.update s.mounts v { s.mounts v with used := false } ∧
      t.working = if beneath s.working (s.mounts v).path then [slash] else s.working)

theorem release_gone {v : Fin 8} {s : Space ε} (ha : s.active = true) (hv : (s.mounts v).used = true)
    (hinner : ∀ i, i ≠ v → (s.mounts i).used = true → beneath (s.mounts i).path (s.mounts v).path = false)
    (disk : DiskSelection) : MountGone s (exec (release v disk) s).2 := by
  let P : Space ε → Prop := SameTable s
  have hkeep : ∀ t, P t → MountGone s t := fun t h => by
    obtain ⟨hact, htable⟩ := h.2 ha
    exact ⟨hact.trans ha.symm, h.1, .inl htable⟩
  have hmove : ∀ {α : Type} {x : StateM (Space ε) α}, Moves SameTable x → Ends P x fun _ => P :=
    fun hx t ht => trans_of SameTable ht (hx t)
  have hforget : Ends P (forget v) fun _ t => MountGone s t := by
    intro t h
    obtain ⟨hact, hm, hw⟩ := h.2 ha
    refine ⟨hact.trans ha.symm, h.1, .inr ⟨v, hv, hinner, ?_, ?_⟩⟩
    · rw [← hm]
      rfl
    · rw [← hm, ← hw]
      have hpath : (Function.update t.mounts v { t.mounts v with used := false } v).path = (t.mounts v).path := by
        rw [Function.update_self]
      rw [← hpath]
      rfl
  have key : Ends P (release v disk) fun _ t => MountGone s t := by
    unfold release
    refine Ends.bind (hmove (sameTable_onEngine _)) fun _ => .bind (hmove (sameTable_volume none)) fun _ => ?_
    refine Ends.bind (hmove (sameTable_onEngine _)) fun present => .ite (fun _ => ?_) fun _ => hforget
    refine Ends.bind (hmove (sameTable_activate _)) fun ok => .ite (fun _ => .pure hkeep) fun _ => ?_
    exact Ends.bind (hmove (sameTable_onEngine _)) fun r => .ite (fun _ => .pure hkeep) fun _ => hforget
  exact key s (refl_of SameTable s)

/-- `fs_unmount_path` starts the namespace, and releases a volume that no other one is
mounted inside of, or nothing. -/
theorem fsUnmountPath_cases (name : Option Name) {s : Space ε} (hu : s.user = root) :
    (exec (fsUnmountPath name) s).2 = (exec namespaceStart s).2 ∨
      ∃ v, ((exec namespaceStart s).2.mounts v).used = true ∧
        (∀ i, i ≠ v → ((exec namespaceStart s).2.mounts i).used = true →
          beneath ((exec namespaceStart s).2.mounts i).path ((exec namespaceStart s).2.mounts v).path = false) ∧
        (exec (fsUnmountPath name) s).2 =
          (exec (release v ((exec namespaceStart s).2.mounts v).disk) (exec namespaceStart s).2).2 := by
  generalize hs1 : (exec namespaceStart s).2 = t
  cases hn : normalize t.working (name.getD t.working) with
  | none => exact .inl (by simp [fsUnmountPath, hu, hs1, hn])
  | some path =>
  cases hv : volumeFor t.mounts path with
  | none => exact .inl (by simp [fsUnmountPath, hu, hs1, hn, hv])
  | some v =>
    have hrun : exec (fsUnmountPath name) s = exec (
        if name.isSome ∧ path ≠ (t.mounts v).path then return -1
        else if (List.finRange 8).any fun i => i != v && (t.mounts i).used && beneath (t.mounts i).path (t.mounts v).path
        then return -1
        else release v (t.mounts v).disk : StateM (Space ε) Int) t := by
      unfold fsUnmountPath
      simp only [exec_bind, exec_get, hu, ne_eq, not_true_eq_false, if_false, hs1, hn, hv]
      rfl
    rw [hrun]
    split
    · exact .inl rfl
    · split
      · exact .inl rfl
      rename_i hany
      refine .inr ⟨v, (volumeFor_spec hv).1, fun i hne hi => ?_, rfl⟩
      by_contra hb
      apply hany
      rw [List.any_eq_true]
      exact ⟨i, by simp, by simpa [hne, hi] using hb⟩

theorem fsUnmountPath_gone (name : Option Name) (s : Space ε) :
    ((exec (fsUnmountPath name) s).2 = s ∧ s.user ≠ root) ∨
      MountGone (exec namespaceStart s).2 (exec (fsUnmountPath name) s).2 := by
  by_cases hu : s.user = root
  swap
  · refine .inl ⟨?_, hu⟩
    simp [fsUnmountPath, hu]
  rcases fsUnmountPath_cases name hu with he | ⟨v, hused, hinner, he⟩
  · rw [he]
    exact .inr ⟨rfl, rfl, .inl ⟨rfl, rfl⟩⟩
  · rw [he]
    exact .inr (release_gone (active_namespaceStart s) hused hinner _)

/-- Unmounting keeps the table. -/
theorem Table.fsUnmountPath {s : Space ε} (h : Table s.mounts) (name : Option Name) :
    Table (exec (fsUnmountPath name) s).2.mounts := by
  rcases fsUnmountPath_gone name s with ⟨he, -⟩ | ⟨-, -, ⟨hm, -⟩ | ⟨v, hv, hinner, hm, -⟩⟩
  · rw [he]
    exact h
  · rw [hm]
    exact h.start
  · rw [hm]
    obtain ⟨ms, hms⟩ := h.start.paths v hv
    refine h.start.unmount hms fun w ns hw hne hp => ?_
    have hb := hinner w hne hw.used
    rw [hms.path, hw.path, (beneath_render hw.normal.1 hms.normal.1).2 hp] at hb
    simp at hb

end

end Barnix.Vfs
