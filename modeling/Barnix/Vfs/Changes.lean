import Barnix.Vfs.World
/-!
# Changes of the tree

What a changing operation does to the tree of absolute paths: it replaces the
tree of one volume, and only at its own path. A write of the access list
replaces it as a whole.
-/

namespace Barnix.Vfs

/-! ## States with the same files -/

theorem node_congr {s t : Space Trees} (hm : t.mounts = s.mounts) (hv : t.engine.volumes = s.engine.volumes)
    (ps : List Name) : t.node ps = s.node ps := by
  simp only [Space.node, hm, hv]

/-- `t` has the files of `s`. -/
structure Kept (s t : Space Trees) : Prop where
  settled : Settled t
  mounts : t.mounts = s.mounts
  working : t.working = s.working
  user : t.user = s.user
  volumes : t.engine.volumes = s.engine.volumes
  refuses : t.engine.refuses = s.engine.refuses
  clock : t.engine.clock = s.engine.clock

namespace Kept

variable {s t u : Space Trees}

theorem refl (h : Settled s) : Kept s s := ⟨h, rfl, rfl, rfl, rfl, rfl, rfl⟩

theorem trans (h : Kept s t) (h' : Kept t u) : Kept s u :=
  ⟨h'.settled, h'.mounts.trans h.mounts, h'.working.trans h.working, h'.user.trans h.user, h'.volumes.trans h.volumes,
    h'.refuses.trans h.refuses, h'.clock.trans h.clock⟩

theorem symm (h : Kept s t) (hs : Settled s) : Kept t s :=
  ⟨hs, h.mounts.symm, h.working.symm, h.user.symm, h.volumes.symm, h.refuses.symm, h.clock.symm⟩

theorem node (h : Kept s t) (ps : List Name) : t.node ps = s.node ps := node_congr h.mounts h.volumes ps

theorem acl (h : Kept s t) : t.acl = s.acl := by rw [Space.acl, Space.file, h.node, Space.acl, Space.file]

theorem located (h : Kept s t) {ps l : List Name} {v : Fin 8} (hl : Located s ps v l) : Located t ps v l :=
  ⟨h.mounts ▸ hl.volume, h.mounts ▸ hl.used, h.mounts ▸ hl.split⟩

end Kept

theorem Steady.kept {s t : Space Trees} (h : Steady s t) : Kept s t := by
  obtain ⟨v, d, m, c, rfl⟩ := h.same
  exact ⟨h.settled, rfl, rfl, rfl, rfl, rfl, rfl⟩

/-- The staged texts are no files. -/
theorem Settled.stage {s : Space Trees} (h : Settled s) (acl guard : Name) (needed : Bool) :
    Kept s { s with renamedAcl := acl, renameGuard := guard, renamedAclNeeded := needed } :=
  ⟨⟨h.active, h.paths, h.disks, h.volumes, h.current⟩, rfl, rfl, rfl, rfl, rfl, rfl⟩

/-! ## Replacing a volume -/

/-- `t` is `s` with another volume loaded, and perhaps other files. -/
structure Frame (s t : Space Trees) : Prop where
  same : ∃ files v d m c k, t = { s with
    activeVolume := v
    engine := { s.engine with volumes := files, selected := d, mounted := m, cwd := c, clock := k } }
  settled : Settled t

namespace Frame

variable {s t u : Space Trees}

theorem mounts (h : Frame s t) : t.mounts = s.mounts := by obtain ⟨_, _, _, _, _, _, rfl⟩ := h.same; rfl

theorem working (h : Frame s t) : t.working = s.working := by obtain ⟨_, _, _, _, _, _, rfl⟩ := h.same; rfl

theorem user (h : Frame s t) : t.user = s.user := by obtain ⟨_, _, _, _, _, _, rfl⟩ := h.same; rfl

theorem refuses (h : Frame s t) : t.engine.refuses = s.engine.refuses := by
  obtain ⟨_, _, _, _, _, _, rfl⟩ := h.same; rfl

/-- The texts that a rename stages are left alone. -/
theorem staged (h : Frame s t) : t.renamedAcl = s.renamedAcl ∧ t.renameGuard = s.renameGuard ∧
    t.renamedAclNeeded = s.renamedAclNeeded := by
  obtain ⟨_, _, _, _, _, _, rfl⟩ := h.same; exact ⟨rfl, rfl, rfl⟩

theorem trans (h : Frame s t) (h' : Frame t u) : Frame s u := by
  refine ⟨?_, h'.settled⟩
  obtain ⟨_, _, _, _, _, _, rfl⟩ := h.same
  obtain ⟨f, v, d, m, c, k, rfl⟩ := h'.same
  exact ⟨f, v, d, m, c, k, rfl⟩

end Frame

theorem Steady.frame {s t : Space Trees} (h : Steady s t) : Frame s t := by
  refine ⟨?_, h.settled⟩
  obtain ⟨v, d, m, c, rfl⟩ := h.same
  exact ⟨s.engine.volumes, v, d, m, c, s.engine.clock, rfl⟩

/-- The volume `v` of `s` holds `tree` in `t`, and nothing else is changed. -/
def Replaced (s : Space Trees) (v : Fin 8) (tree : Tree) (t : Space Trees) : Prop :=
  Frame s t ∧ t.engine.volumes = Function.update s.engine.volumes (s.mounts v).disk (some tree)

theorem Replaced.node {s t : Space Trees} {v w : Fin 8} {tree : Tree} (h : Replaced s v tree t) {ps l : List Name}
    (hs : Settled s) (hv : (s.mounts v).used = true) (hl : Located s ps w l) :
    t.node ps = if w = v then (tree.follow [] l).bind tree.get else s.node ps := by
  have hl' : Located t ps w l := ⟨h.1.mounts ▸ hl.volume, h.1.mounts ▸ hl.used, h.1.mounts ▸ hl.split⟩
  by_cases hw : w = v
  · subst hw
    rw [if_pos rfl]
    exact hl'.node (by rw [h.2, h.1.mounts, Function.update_self])
  · obtain ⟨tr, htr⟩ := hs.volumes w hl.used
    have hne : (s.mounts w).disk ≠ (s.mounts v).disk := fun e => hw (hs.disks w v hl.used hv e)
    rw [if_neg hw, hl.node htr]
    exact hl'.node (by rw [h.2, h.1.mounts, Function.update_of_ne hne, htr])

theorem exec_extChange {s t : Space Trees} {v : Fin 8} (hload : Loaded s v t) (next : Option Tree) :
    ∃ u, Frame s u ∧
      ((exec (onEngine (modifyGet fun e : Trees => e.change next)) t = (-1, u) ∧ u.engine.volumes = s.engine.volumes ∧
          (next = none ∨ s.engine.refuses s.engine.clock = true)) ∨
        ∃ tree, next = some tree ∧ s.engine.refuses s.engine.clock = false ∧
          exec (onEngine (modifyGet fun e : Trees => e.change next)) t = (0, u) ∧ Replaced s v tree u ∧
          u.engine.clock = s.engine.clock + 1) := by
  have hset := hload.settled
  have hvol := hload.toSteady.volumes
  have hmnt := hload.toSteady.mounts
  have hsel := hload.selected
  have hrdy := hload.ready
  have hrefuse : t.engine.refuses t.engine.clock = s.engine.refuses s.engine.clock ∧ t.engine.clock = s.engine.clock := by
    obtain ⟨_, _, _, _, rfl⟩ := hload.same
    exact ⟨rfl, rfl⟩
  cases next with
  | none =>
    refine ⟨t, hload.toSteady.frame, .inl ⟨?_, hvol, .inl rfl⟩⟩
    simp [exec_onEngine, Trees.change]
  | some tree =>
    cases hr : s.engine.refuses s.engine.clock with
    | true =>
      refine ⟨{ t with engine := { t.engine with clock := t.engine.clock + 1 } }, ?_, .inl ⟨?_, hvol, .inr rfl⟩⟩
      · refine hload.toSteady.frame.trans ⟨⟨_, _, _, _, _, _, rfl⟩, ?_⟩
        exact ⟨hset.active, hset.paths, hset.disks, hset.volumes, hset.current⟩
      · simp [exec_onEngine, Trees.change, hrdy, hrefuse.1, hr]
    | false =>
      have hframe : Frame s { t with engine := { t.engine with
          clock := t.engine.clock + 1
          volumes := Function.update t.engine.volumes t.engine.selected (some tree) } } := by
        refine hload.toSteady.frame.trans ⟨⟨_, _, _, _, _, _, rfl⟩, ?_⟩
        refine ⟨hset.active, hset.paths, hset.disks, fun i hi => ?_, hset.current⟩
        by_cases he : (t.mounts i).disk = t.engine.selected
        · exact ⟨tree, by simp [he]⟩
        · obtain ⟨tr, htr⟩ := hset.volumes i hi
          exact ⟨tr, by simp [Function.update_of_ne he, htr]⟩
      refine ⟨_, hframe, .inr ⟨tree, rfl, rfl, ?_, ⟨hframe, ?_⟩, ?_⟩⟩
      · simp [exec_onEngine, Trees.change, hrdy, hrefuse.1, hr]
      · simp only [hvol, hsel]
      · simp only [hrefuse.2]

/-- Outside the changed places, a replaced volume shows the old files. -/
theorem Replaced.node_eq {s u : Space Trees} {v : Fin 8} {tree old : Tree} (h : Replaced s v tree u) (hs : Settled s)
    (hv : (s.mounts v).used = true) (hold : s.engine.volumes (s.mounts v).disk = some old) {qs : List Name} (hqs : Normal qs)
    (hagree : ∀ l, Located s qs v l → ∀ q, q <+: l → tree.get q = old.get q) : u.node qs = s.node qs := by
  cases hw : volumeFor s.mounts (render qs) with
  | none => rw [node_of_no_volume hw, node_of_no_volume (h.1.mounts ▸ hw)]
  | some w =>
    obtain ⟨l, hl⟩ := hs.located hqs hw
    rw [h.node hs hv hl]
    split
    · rename_i hwv
      subst hwv
      have hget := hagree l hl
      have hfollow : tree.follow [] l = old.follow [] l :=
        Tree.follow_congr (hl.valid hqs) fun r hr => by simpa using hget r hr
      rw [hl.node hold, hfollow]
      cases hf : old.follow [] l with
      | none => rfl
      | some q =>
        obtain rfl : q = l := by simpa using Tree.follow_eq (hl.valid hqs) hf
        simpa using hget q List.prefix_rfl
    · rfl

/-- A path of the volume that does not continue the place `p` is not changed with it. -/
theorem Located.not_prefix {s : Space Trees} {ps qs p l q : List Name} {v : Fin 8} (hp : Located s ps v p)
    (hl : Located s qs v l) (hne : ¬ ps <+: qs) (hq : q <+: l) : ¬ p <+: q := by
  intro hpq
  obtain ⟨ms, hms, hm, rfl⟩ := hp.split
  obtain ⟨ms', hms', hm', rfl⟩ := hl.split
  obtain rfl := render_inj hms.1 hms'.1 (hm.symm.trans hm')
  exact hne (by simpa using hpq.trans hq)

section
variable {s : Space Trees} {name : Name} {ps : List Name}

/-- The engine cannot make the change. -/
inductive Hindered (s : Space Trees) (ps : List Name) (g : Trees → Name → Option Tree) : Prop
  | volume : volumeFor s.mounts (render ps) = none → Hindered s ps g
  | parent {v l t} : Located s ps v l → Loaded s v t → (∀ p c, ¬ t.engine.tree.Entry l p c) → Hindered s ps g
  | change {v l p c t} : Located s ps v l → Loaded s v t → t.engine.tree.Entry l p c → t.engine.cwd = p →
      (g t.engine c = none ∨ s.engine.refuses s.engine.clock = true) → Hindered s ps g

/-- An operation that changes the directory of its name. -/
theorem exec_routed_change (hs : Settled s) (hps : Normal ps) (hn : normalize s.working name = some (render ps))
    (g : Trees → Name → Option Tree) :
    ∃ u, Frame s u ∧
      ((exec (routed name true (-1) fun n => modifyGet fun e : Trees => e.change (g e n)) s = (-1, u) ∧
          u.engine.volumes = s.engine.volumes ∧ Hindered s ps g) ∨
        ∃ v l p c t tree, Located s ps v l ∧ Loaded s v t ∧ t.engine.tree.Entry l p c ∧ t.engine.cwd = p ∧
          g t.engine c = some tree ∧
          exec (routed name true (-1) fun n => modifyGet fun e : Trees => e.change (g e n)) s = (0, u) ∧
          Replaced s v tree u ∧ u.engine.clock = s.engine.clock + 1 ∧ s.engine.refuses s.engine.clock = false) := by
  cases hv : volumeFor s.mounts (render ps) with
  | none =>
    refine ⟨s, (Steady.refl hs).frame, .inl ⟨?_, rfl, .volume hv⟩⟩
    simp [routed, hs.active, exec_route_none true hn hv]
  | some v =>
    obtain ⟨l, hl⟩ := hs.located hps hv
    obtain ⟨t, hload, ⟨hr, hno⟩ | ⟨p, c, hentry, hr, hcwd⟩⟩ := exec_route_parent hs hps hn hl
    · refine ⟨t, hload.toSteady.frame, .inl ⟨?_, hload.toSteady.volumes, .parent hl hload hno⟩⟩
      simp [routed, hs.active, hr]
    · have hrouted : exec (routed name true (-1) fun n => modifyGet fun e : Trees => e.change (g e n)) s =
          exec (onEngine (modifyGet fun e : Trees => e.change (g t.engine c))) t := by
        simp [routed, hs.active, hr, exec_onEngine]
      rw [hrouted]
      obtain ⟨u, hu, ⟨he, hvol, hwhy⟩ | ⟨tree, hg, hok, he, hrep, hclock⟩⟩ := exec_extChange hload (g t.engine c)
      · exact ⟨u, hu, .inl ⟨he, hvol, .change hl hload hentry hcwd hwhy⟩⟩
      · exact ⟨u, hu, .inr ⟨v, l, p, c, t, tree, hl, hload, hentry, hcwd, hg, he, hrep, hclock, hok⟩⟩

/-- A change at one path leaves the paths that do not continue it. -/
theorem exec_routed_change_node (hs : Settled s) (hps : Normal ps) (hn : normalize s.working name = some (render ps))
    (g : Trees → Name → Option Tree)
    (hg : ∀ e c tree q, validName c = true → g e c = some tree → ¬ (e.cwd ++ [c]) <+: q → tree.get q = e.tree.get q) :
    ∃ u r, exec (routed name true (-1) fun n => modifyGet fun e : Trees => e.change (g e n)) s = (r, u) ∧ Frame s u ∧
      ∀ qs, Normal qs → ¬ ps <+: qs → u.node qs = s.node qs := by
  obtain ⟨u, hu, ⟨he, hvol, -⟩ | ⟨v, l, p, c, t, tree, hl, hload, ⟨rfl, -⟩, rfl, hgt, he, hrep, -⟩⟩ :=
    exec_routed_change hs hps hn g
  · exact ⟨u, _, he, hu, fun qs _ _ => node_congr hu.mounts hvol qs⟩
  · refine ⟨u, _, he, hu, fun qs hqs hne => hrep.node_eq hs hl.used hload.tree hqs fun l hl' q hq => ?_⟩
    exact hg _ _ _ _ (hl.valid hps c (by simp)) hgt (hl.not_prefix hl' hne hq)

end

/-! ## Writing the access list -/

theorem Trees.written_eq {e : Trees} {p : List Name} {name : Name} {data : List UInt8} {tree : Tree}
    (h : e.written p name data = some tree) :
    e.tree.get (p ++ [name]) ≠ some .dir ∧ ∃ x, tree = e.tree.put (p ++ [name]) (.file x data) := by
  rw [written] at h
  split at h
  · split at h
    · rename_i hg
      exact ⟨by simp [hg], false, by simpa using h.symm⟩
    · rename_i hg
      exact ⟨by simp [hg], _, by simpa using h.symm⟩
    · simp at h
  · simp at h

theorem Trees.writtenPath_of_no_slash {e : Trees} {name : Name} (h : slash ∉ name) (data : List UInt8) :
    e.writtenPath name data = e.written e.cwd name data := by
  rw [writtenPath, if_neg (by simpa using h)]

/-- A file put in place of nothing or of a file is the only change. -/
theorem Replaced.node_put {s u t : Space Trees} {v : Fin 8} {ps l p : List Name} {c : Name} {x : Bool} {data : List UInt8}
    (hs : Settled s) (hps : Normal ps) (hl : Located s ps v l) (hload : Loaded s v t) (he : t.engine.tree.Entry l p c)
    (hne : t.engine.tree.get l ≠ some .dir) (hrep : Replaced s v (t.engine.tree.put l (.file x data)) u) :
    u.node ps = some (.file x data) ∧ ∀ qs, Normal qs → qs ≠ ps → u.node qs = s.node qs := by
  obtain ⟨rfl, hfollow, hdir⟩ := he
  have hvalid := hl.valid hps
  have hc := hvalid c (by simp)
  have hp : ∀ d ∈ p, validName d = true := fun d hd => hvalid d (by simp [hd])
  constructor
  · have hput : ∀ r, r <+: p → (t.engine.tree.put (p ++ [c]) (.file x data)).get r = t.engine.tree.get r := by
      intro r hr
      rw [Tree.get_put _ (by simp), if_neg]
      rintro rfl
      have := hr.length_le
      simp only [List.length_append, List.length_singleton] at this
      omega
    have hfollow' : (t.engine.tree.put (p ++ [c]) (.file x data)).follow [] (p ++ [c]) = some (p ++ [c]) := by
      have := Tree.follow_append (p := []) hp hc ((Tree.follow_congr hp fun r hr => by simpa using hput r hr).trans hfollow)
        (by simpa [hdir] using hput _ List.prefix_rfl) (by simp [Tree.get_put])
      simpa using this
    rw [hrep.node hs hl.used hl, if_pos rfl, hfollow']
    simp [Tree.get_put]
  · intro qs hqs hqp
    cases hw : volumeFor s.mounts (render qs) with
    | none => rw [node_of_no_volume hw, node_of_no_volume (hrep.1.mounts ▸ hw)]
    | some w =>
      obtain ⟨l', hl'⟩ := hs.located hqs hw
      by_cases hwv : w = v
      · subst hwv
        have hne' : l' ≠ p ++ [c] := by rintro rfl; exact hqp (hl'.inj hl)
        by_cases hpre : p ++ [c] <+: l'
        · -- both trees have no directory there, so nothing below it
          obtain ⟨r, rfl⟩ := hpre
          obtain ⟨d, r, rfl⟩ := List.exists_cons_of_ne_nil (l := r) (by rintro rfl; simp at hne')
          have hv := hl'.valid hqs
          rw [hrep.node hs hl.used hl', if_pos rfl, hl'.node hload.tree, Tree.follow_below hv (by simp [Tree.get_put]),
            Tree.follow_below hv (by simpa using hne)]
          rfl
        · refine hrep.node_eq hs hl.used hload.tree hqs fun l'' hl'' q hq => ?_
          obtain rfl : l'' = l' := hl''.place hl'
          rw [Tree.get_put _ (by simp), if_neg]
          rintro rfl
          exact hpre hq
      · rw [hrep.node hs hl.used hl', if_neg hwv]

/-- Directories stay when a file is put in place of nothing or of a file. -/
theorem Tree.Entry.put {t : Tree} {l p k : List Name} {c : Name} {x : Bool} {data : List UInt8} (h : t.Entry l p c)
    (hp : ∀ d ∈ p, validName d = true) (hne : t.get k ≠ some .dir) : (t.put k (.file x data)).Entry l p c := by
  obtain ⟨rfl, hfollow, hdir⟩ := h
  have hkp : ¬ k <+: p := by
    rintro ⟨r, rfl⟩
    cases r with
    | nil => exact hne (by simpa using hdir)
    | cons d r =>
      have := Tree.follow_below (t := t) (p := []) hp (by simpa using hne)
      simp [this] at hfollow
  have hget : ∀ r, r <+: p → (t.put k (.file x data)).get r = t.get r := by
    intro r hr
    have hk : k ≠ [] := by
      rintro rfl
      exact hkp (List.nil_prefix)
    rw [Tree.get_put _ hk, if_neg]
    rintro rfl
    exact hkp hr
  exact ⟨rfl, (Tree.follow_congr hp fun r hr => by simpa using hget r hr).trans hfollow, (hget p List.prefix_rfl).trans hdir⟩

/-- Every directory of `s` is one of `u`, on every volume. -/
def KeepsDirs (s u : Space Trees) : Prop :=
  ∀ v old, (s.mounts v).used = true → s.engine.volumes (s.mounts v).disk = some old →
    ∃ new, u.engine.volumes (s.mounts v).disk = some new ∧
      ∀ l p c, (∀ d ∈ p, validName d = true) → old.Entry l p c → new.Entry l p c

/-- A file can be written as long as nothing refuses it. -/
theorem refuses_of_hindered {s : Space Trees} {ps : List Name} (hps : Normal ps) {data : Name}
    (hsize : data.length ≤ (12 + 256) * 1024) (hfile : s.file ps ≠ none)
    (h : Hindered s ps fun e n => e.writtenPath n data) : s.engine.refuses s.engine.clock = true := by
  have hlook : ∀ {v l t}, Located s ps v l → Loaded s v t →
      ∃ x old, t.engine.tree.follow [] l = some l ∧ t.engine.tree.get l = some (.file x old) := by
    intro v l t hl hload
    rw [Space.file, hl.node hload.tree] at hfile
    cases hf : t.engine.tree.follow [] l with
    | none => simp [hf, fileData] at hfile
    | some q =>
      obtain rfl : q = l := by simpa using Tree.follow_eq (hl.valid hps) hf
      rw [hf, Option.bind_some] at hfile
      cases hg : t.engine.tree.get q with
      | none => simp [hg, fileData] at hfile
      | some n =>
        cases n with
        | dir => simp [hg, fileData] at hfile
        | file x old => exact ⟨x, old, rfl, rfl⟩
  cases h with
  | volume hv => simp [Space.file, node_of_no_volume hv, fileData] at hfile
  | @parent v l t hl hload hno =>
    obtain ⟨x, old, hf, hg⟩ := hlook hl hload
    have hne : l ≠ [] := by
      rintro rfl
      simp [Tree.get] at hg
    obtain ⟨p, c, rfl⟩ := (List.eq_nil_or_concat' l).resolve_left hne
    exact absurd (Tree.entry_of_follow (hl.valid hps) hf) (hno p c)
  | @change v l p c t hl hload hentry hcwd hwhy =>
    refine hwhy.resolve_left fun hnone => ?_
    obtain ⟨x, old, hf, hg⟩ := hlook hl hload
    obtain ⟨rfl, hfollow, hdir⟩ := hentry
    have hc := hl.valid hps c (by simp)
    rw [Trees.writtenPath_of_no_slash (validName_iff.1 hc).2.2.1, hcwd] at hnone
    simp [Trees.written, hc, hsize, hdir, hg] at hnone

/-- A file is replaced as a whole, or nothing is changed. -/
theorem exec_plainWrite {s : Space Trees} (hs : Settled s) {name : Name} {ps : List Name} (hps : Normal ps)
    (hn : normalize s.working name = some (render ps)) (data : Name) :
    ∃ u, Frame s u ∧
      ((exec (plainWrite name data) s = (-1, u) ∧ u.engine.volumes = s.engine.volumes ∧
          Hindered s ps fun e n => e.writtenPath n data) ∨
        (exec (plainWrite name data) s = (0, u) ∧ u.file ps = some data ∧ u.engine.clock = s.engine.clock + 1 ∧
          s.engine.refuses s.engine.clock = false ∧ (∀ qs, Normal qs → qs ≠ ps → u.node qs = s.node qs) ∧ KeepsDirs s u)) := by
  obtain ⟨u, hu, ⟨he, hvol, hwhy⟩ | ⟨v, l, p, c, t, tree, hl, hload, hentry, rfl, hg, he, hrep, hclock, hok⟩⟩ :=
    exec_routed_change hs hps hn fun e n => e.writtenPath n data
  · exact ⟨u, hu, .inl ⟨he, hvol, hwhy⟩⟩
  · have hc : validName c = true := hl.valid hps c (by simp [hentry.1])
    rw [Trees.writtenPath_of_no_slash (validName_iff.1 hc).2.2.1] at hg
    obtain ⟨hne, x, rfl⟩ := Trees.written_eq hg
    rw [← hentry.1] at hne hrep
    obtain ⟨hat, hother⟩ := hrep.node_put hs hps hl hload hentry hne
    refine ⟨u, hu, .inr ⟨he, by rw [Space.file, hat]; rfl, hclock, hok, hother, fun w old hw hold => ?_⟩⟩
    by_cases hwv : w = v
    · subst hwv
      obtain rfl : old = t.engine.tree := by simpa [hold] using hload.tree
      exact ⟨_, by rw [hrep.2, Function.update_self], fun l' p' c' hp' he' => he'.put hp' hne⟩
    · have hd : (s.mounts w).disk ≠ (s.mounts v).disk := fun e => hwv (hs.disks w v hw hl.used e)
      exact ⟨old, by rw [hrep.2, Function.update_of_ne hd, hold], fun _ _ _ _ he' => he'⟩

/-- The access list is replaced as a whole, or nothing is changed. -/
theorem exec_plainWrite_access {s : Space Trees} (hs : Settled s) (data : Name) :
    ∃ u, Frame s u ∧
      ((exec (plainWrite accessCfg data) s = (-1, u) ∧ u.engine.volumes = s.engine.volumes ∧
          (data.length < aclCap → s.acl ≠ none → s.engine.refuses s.engine.clock = true)) ∨
        (exec (plainWrite accessCfg data) s = (0, u) ∧ u.acl = some data ∧ u.engine.clock = s.engine.clock + 1 ∧
          s.engine.refuses s.engine.clock = false ∧ (∀ qs, Normal qs → qs ≠ accessParts → u.node qs = s.node qs) ∧ KeepsDirs s u)) := by
  obtain ⟨u, hu, ⟨he, hvol, hwhy⟩ | h⟩ := exec_plainWrite hs normal_accessParts (normalize_accessCfg s.working) data
  · refine ⟨u, hu, .inl ⟨he, hvol, fun hlen hacl => ?_⟩⟩
    exact refuses_of_hindered normal_accessParts (Nat.le_of_lt (Nat.lt_of_lt_of_le hlen (by decide))) hacl hwhy
  · exact ⟨u, hu, .inr h⟩

end Barnix.Vfs
