import Barnix.Acl.Setting
/-!
# Users other than root

No file operation of another user changes the access list, apart from a rename:
a name beneath `/etc` is refused before anything is done.
-/

namespace Barnix.Acl

open Vfs

def etcParts : List Name := [[101, 116, 99]]

/-- Run by a user other than root, the step leaves everything beneath `/etc` alone. -/
def Sealed (s t : Space Trees) : Prop :=
  Settled s → s.user ≠ root → Settled t ∧ t.user = s.user ∧ ∀ qs, Normal qs → etcParts <+: qs → t.node qs = s.node qs

/-- Run by a user other than root, the step leaves the access list alone. -/
def Calm (s t : Space Trees) : Prop :=
  Settled s → s.user ≠ root → Settled t ∧ t.user = s.user ∧ t.acl = s.acl

theorem Sealed.calm {s t : Space Trees} (h : Sealed s t) : Calm s t := by
  intro hs hu
  obtain ⟨hs', hu', hnode⟩ := h hs hu
  refine ⟨hs', hu', ?_⟩
  rw [Space.acl, Space.file, hnode _ normal_accessParts (by decide), Space.acl, Space.file]

instance : Std.Refl Sealed := ⟨fun _ h _ => ⟨h, rfl, fun _ _ _ => rfl⟩⟩

instance : IsTrans (Space Trees) Sealed := ⟨fun s t u h h' hs hu => by
  obtain ⟨hs', hu', hn'⟩ := h hs hu
  obtain ⟨hs'', hu'', hn''⟩ := h' hs' (hu' ▸ hu)
  exact ⟨hs'', hu''.trans hu', fun qs hqs he => (hn'' qs hqs he).trans (hn' qs hqs he)⟩⟩

theorem Sealed.of_steady {s t : Space Trees} (h : Settled s → Steady s t) : Sealed s t :=
  fun hs _ => ⟨(h hs).settled, (h hs).user, fun qs _ _ => (h hs).node qs⟩

theorem Sealed.of_frame {s t : Space Trees} (h : Frame s t)
    (hn : ∀ qs, Normal qs → etcParts <+: qs → t.node qs = s.node qs) : Sealed s t :=
  fun _ _ => ⟨h.settled, h.user, hn⟩

/-- The names a user other than root can be granted. -/
def Outside (s : Space Trees) (name : Name) : Prop :=
  ∃ ps, Normal ps ∧ normalize s.working name = some (render ps) ∧ beneath (render ps) etc = false

theorem outside_of_judge {s : Space Trees} {name : Name} {mode : UInt8} (hu : s.user ≠ root)
    (h : judge s.acl s.user (normalize s.working name) mode = true) : Outside s name := by
  unfold judge at h
  rw [if_neg hu] at h
  cases hn : normalize s.working name with
  | none => simp [hn] at h
  | some path =>
    obtain ⟨ps, rfl, hps⟩ := normalize_spec hn
    refine ⟨ps, hps, hn, ?_⟩
    rw [hn] at h
    dsimp only at h
    split at h
    · simp at h
    · rename_i he
      simpa using he

/-- A path outside `/etc` is above one beneath it only if it is `/`. -/
theorem not_prefix_beneath_etc {ps qs : List Name} (hps : Normal ps) (h : beneath (render ps) etc = false) (hne : ps ≠ [])
    (hqs : etcParts <+: qs) : ¬ ps <+: qs := by
  intro hp
  have hetc : etc = render etcParts := rfl
  have hcase : etcParts <+: ps := by
    rcases List.prefix_or_prefix_of_prefix hp hqs with h' | h'
    · rcases List.prefix_concat_iff.1 (show ps <+: [] ++ [[101, 116, 99]] from h') with rfl | hnil
      · exact List.prefix_rfl
      · exact absurd (List.prefix_nil.1 hnil) hne
    · exact h'
  rw [hetc, (beneath_render hps.1 (by decide)).2 hcase] at h
  simp at h

theorem not_prefix_accessParts {ps : List Name} (hps : Normal ps) (h : beneath (render ps) etc = false) (hne : ps ≠ []) :
    ¬ ps <+: accessParts := not_prefix_beneath_etc hps h hne (by decide)

theorem sealed_checked {α : Type} {name : Name} {mode : UInt8} {denied : α} {x : StateM (Space Trees) α}
    (hx : ∀ s, Settled s → s.user ≠ root → Outside s name → Sealed s (exec x s).2) :
    Moves Sealed (checked name mode denied x) := by
  intro s hs hu
  obtain ⟨t, ht, he⟩ := exec_checked hs name mode denied x
  rw [he]
  split
  · rename_i hj
    have hout := outside_of_judge hu hj
    rw [Outside, ← ht.working] at hout
    have := trans_of Sealed (Sealed.of_steady fun _ => ht) (hx t ht.settled (ht.user ▸ hu) hout)
    exact this hs hu
  · exact Sealed.of_steady (fun _ => ht) hs hu

theorem sealed_checked_of {α : Type} {name : Name} {mode : UInt8} {denied : α} {x : StateM (Space Trees) α} (hx : Moves Sealed x) :
    Moves Sealed (checked name mode denied x) := sealed_checked fun s _ _ _ => hx s

/-! ## Reading -/

theorem sealed_checked_read {α : Type} (name : Name) (mode : UInt8) (denied bad : α) (f : Trees → Name → α) :
    Moves Sealed (checked name mode denied (routed name false bad fun n => modifyGet fun e : Trees => (f e n, e))) := by
  refine sealed_checked fun s hs hu hout => ?_
  obtain ⟨ps, hps, hn, -⟩ := hout
  rcases exec_routed_read hs hps hn f bad with ⟨-, h⟩ | ⟨v, l, t, -, hload, h⟩
  · rw [h]
    exact refl_of Sealed s
  · rw [h]
    exact .of_steady fun _ => hload.toSteady

theorem sealed_fsSize (name : Name) : Moves Sealed (fsSize (ε := Trees) name) :=
  sealed_checked_read name modeR (-13) (-1) Trees.size

theorem sealed_fsIsDir (name : Name) : Moves Sealed (fsIsDir (ε := Trees) name) :=
  sealed_checked_read name modeX false false fun e n => e.findNode n == some .dir

theorem sealed_fsRead (name : Name) (offset size : Nat) : Moves Sealed (fsRead (ε := Trees) name offset size) := by
  refine sealed_checked fun s hs hu hout => ?_
  obtain ⟨ps, hps, hn, -⟩ := hout
  rcases exec_routed_read hs hps hn (fun e n => e.read n offset size) none with ⟨-, h⟩ | ⟨v, l, t, -, hload, h⟩
  · have h : exec (plainRead name offset size) s = (none, s) := h
    simp only [exec_bind, h]
    exact refl_of Sealed s
  · have h : exec (plainRead name offset size) s = (t.engine.read (render l) offset size, t) := h
    simp only [exec_bind, h]
    exact .of_steady fun _ => hload.toSteady

/-! ## Changing one name -/

theorem sealed_change {s : Space Trees} {name : Name} (hs : Settled s) (hout : Outside s name)
    (g : Trees → Name → Option Tree)
    (hg : ∀ e c tree q, validName c = true → g e c = some tree → ¬ (e.cwd ++ [c]) <+: q → tree.get q = e.tree.get q) :
    Sealed s (exec (routed name true (-1) fun n => modifyGet fun e : Trees => e.change (g e n)) s).2 := by
  obtain ⟨ps, hps, hn, he⟩ := hout
  by_cases hne : ps = []
  · -- `/` has no parent
    subst hne
    obtain ⟨u, hu, ⟨h, hvol, -⟩ | ⟨v, l, p, c, t, tree, hl, -, hentry, -⟩⟩ := exec_routed_change hs hps hn g
    · rw [h]
      exact .of_frame hu fun qs _ _ => node_congr hu.mounts hvol qs
    · obtain ⟨ms, -, -, hnil⟩ := hl.split
      rw [hentry.1] at hnil
      simp at hnil
  · intro _ _
    obtain ⟨u, r, h, hu, hnode⟩ := exec_routed_change_node hs hps hn g hg
    rw [h]
    exact ⟨hu.settled, hu.user, fun qs hqs hetc => hnode qs hqs (not_prefix_beneath_etc hps he hne hetc)⟩

theorem get_created {e : Trees} {c : Name} {n : Node} {tree : Tree} {q : List Name} (h : e.created c n = some tree)
    (hq : ¬ (e.cwd ++ [c]) <+: q) : tree.get q = e.tree.get q := by
  rw [Trees.created] at h
  split at h
  · rw [← Option.some.inj h, Tree.get_put _ (by simp), if_neg]
    rintro rfl
    exact hq List.prefix_rfl
  · simp at h

theorem get_written {e : Trees} {p : List Name} {c : Name} {data : List UInt8} {tree : Tree} {q : List Name}
    (h : e.written p c data = some tree) (hq : ¬ (p ++ [c]) <+: q) : tree.get q = e.tree.get q := by
  obtain ⟨-, x, rfl⟩ := Trees.written_eq h
  rw [Tree.get_put _ (by simp), if_neg]
  rintro rfl
  exact hq List.prefix_rfl

theorem get_writtenPath {e : Trees} {c : Name} {data : List UInt8} {tree : Tree} {q : List Name} (hc : validName c = true)
    (h : e.writtenPath c data = some tree) (hq : ¬ (e.cwd ++ [c]) <+: q) : tree.get q = e.tree.get q := by
  rw [Trees.writtenPath_of_no_slash (validName_iff.1 hc).2.2.1] at h
  exact get_written h hq

theorem get_appended {e : Trees} {c : Name} {data : List UInt8} {tree : Tree} {q : List Name} (hc : validName c = true)
    (h : e.appended c data = some tree) (hq : ¬ (e.cwd ++ [c]) <+: q) : tree.get q = e.tree.get q := by
  rw [Trees.appended] at h
  split at h
  · simp at h
  split at h
  · exact get_writtenPath hc h hq
  · simp at h
  split at h
  · simp at h
  · rw [← Option.some.inj h, Tree.get_put _ (by simp), if_neg]
    rintro rfl
    exact hq List.prefix_rfl

theorem get_removed {e : Trees} {c : Name} {dir : Bool} {tree : Tree} {q : List Name} (h : e.removed c dir = some tree)
    (hq : ¬ (e.cwd ++ [c]) <+: q) : tree.get q = e.tree.get q := by
  simp only [Trees.removed, Option.ite_none_right_eq_some, Option.some.injEq] at h
  rw [← h.2, Tree.get_del _ (by simp), if_neg]
  rintro rfl
  exact hq List.prefix_rfl

theorem sealed_fsTouch (name : Name) : Moves Sealed (fsTouch (ε := Trees) name) :=
  sealed_checked fun _ hs _ hout => sealed_change hs hout (fun e n => e.created n (.file false []))
    fun _ _ _ _ _ h hq => get_created h hq

theorem sealed_fsMkdir (name : Name) : Moves Sealed (fsMkdir (ε := Trees) name) :=
  sealed_checked fun _ hs _ hout => sealed_change hs hout (fun e n => e.created n .dir) fun _ _ _ _ _ h hq => get_created h hq

theorem sealed_fsWrite (name : Name) (data : List UInt8) : Moves Sealed (fsWrite (ε := Trees) name data) :=
  sealed_checked fun _ hs _ hout => sealed_change hs hout (fun e n => e.writtenPath n data)
    fun _ _ _ _ hc h hq => get_writtenPath hc h hq

theorem sealed_fsAppend (name : Name) (data : List UInt8) : Moves Sealed (fsAppend (ε := Trees) name data) :=
  sealed_checked fun _ hs _ hout => sealed_change hs hout (fun e n => e.appended n data)
    fun _ _ _ _ hc h hq => get_appended hc h hq

theorem sealed_unprotected {s : Space Trees} {name : Name} (hs : Settled s) (hout : Outside s name) (dir : Bool) :
    Sealed s (exec (unprotected name fun n => modifyGet fun e : Trees => e.change (e.removed n dir)) s).2 := by
  rw [unprotected, exec_bind, exec_get]
  by_cases hp : (s.active && protectsMount s.mounts s.working name) = true
  · rw [if_pos hp]
    exact refl_of Sealed s
  · rw [if_neg hp]
    exact sealed_change hs hout (fun e n => e.removed n dir) fun _ _ _ _ _ h hq => get_removed h hq

theorem sealed_fsRm (name : Name) : Moves Sealed (fsRm (ε := Trees) name) :=
  sealed_checked fun _ hs _ hout => sealed_unprotected hs hout false

theorem sealed_fsRmdir (name : Name) : Moves Sealed (fsRmdir (ε := Trees) name) :=
  sealed_checked fun _ hs _ hout => sealed_unprotected hs hout true

theorem sealed_fsCd (name : Name) : Moves Sealed (fsCd (ε := Trees) name) := by
  refine sealed_checked fun s hs hu hout => ?_
  obtain ⟨ps, hps, hn, -⟩ := hout
  simp only [exec_bind, exec_get, hs.active, hn, Bool.not_true, Bool.false_eq_true, if_false]
  have hdir := sealed_fsIsDir (render ps) s
  refine trans_of Sealed hdir ?_
  split
  · exact refl_of Sealed _
  · exact fun ht _ => ⟨⟨ht.active, ht.paths, ht.disks, ht.volumes, ht.current⟩, rfl, fun _ _ _ => rfl⟩

theorem sealed_fsCp (source dest : Name) : Moves Sealed (fsCp (ε := Trees) source dest) := by
  refine sealed_checked_of (sealed_checked fun s hs hu _ => ?_)
  rw [exec_bind, exec_get]
  simp only [hs.active, Bool.not_true, Bool.false_eq_true, if_false]
  refine Moves.bind (sealed_fsSize source) (fun size => .ite (.pure _) ((sealed_fsSize dest).bind fun found => .ite (.pure _) ?_)) s
  refine (sealed_fsIsDir dest).bind fun dir => .ite (.pure _) ((sealed_fsRead source 0 _).bind fun res => ?_)
  cases res with
  | error e => exact .pure _
  | ok data => exact .ite (.pure _) (sealed_fsWrite dest data)

/-! ## Removing by anybody -/

/-- Of a removed entry nothing is left, and nothing else is changed. -/
theorem Tree.node_del (t : Tree) {k l : List Name} (hk : k ≠ []) (hl : ∀ c ∈ l, validName c = true) :
    ((t.del k).follow [] l).bind (t.del k).get = none ∨
      ((t.del k).follow [] l).bind (t.del k).get = (t.follow [] l).bind t.get := by
  by_cases hp : k <+: l
  · left
    obtain ⟨r, rfl⟩ := hp
    have hnone : (t.del k).get k = none := by rw [Tree.get_del _ hk, if_pos rfl]
    cases r with
    | nil =>
      cases hf : (t.del k).follow [] (k ++ []) with
      | none => rfl
      | some q =>
        obtain rfl : q = k := by simpa using Tree.follow_eq hl hf
        exact hnone
    | cons c r =>
      rw [Tree.follow_below hl (by simp [hnone])]
      rfl
  · right
    have hget : ∀ r, r <+: l → (t.del k).get r = t.get r := by
      intro r hr
      rw [Tree.get_del _ hk, if_neg]
      rintro rfl
      exact hp hr
    rw [Tree.follow_congr hl fun r hr => by simpa using hget r hr]
    cases hf : t.follow [] l with
    | none => rfl
    | some q =>
      obtain rfl : q = l := by simpa using Tree.follow_eq hl hf
      exact hget q List.prefix_rfl

theorem Replaced.acl_del {s u : Space Trees} {v : Fin 8} {old : Tree} {k : List Name} (h : Replaced s v (old.del k) u)
    (hs : Settled s) (hv : (s.mounts v).used = true) (hold : s.engine.volumes (s.mounts v).disk = some old) (hk : k ≠ []) :
    u.acl = none ∨ u.acl = s.acl := by
  cases hw : volumeFor s.mounts (render accessParts) with
  | none =>
    right
    rw [Space.acl, Space.acl, Space.file, Space.file, node_of_no_volume hw, node_of_no_volume (h.1.mounts ▸ hw)]
  | some w =>
    obtain ⟨l, hl⟩ := hs.located normal_accessParts hw
    rw [Space.acl, Space.acl, Space.file, Space.file, h.node hs hv hl]
    split
    · rename_i hwv
      subst hwv
      rw [hl.node hold]
      rcases Tree.node_del old hk (hl.valid normal_accessParts) with hd | hd <;> rw [hd]
      · exact .inl rfl
      · exact .inr rfl
    · exact .inr rfl

theorem exec_fsRm {s : Space Trees} (hs : Settled s) (name : Name) :
    Settled (exec (fsRm name) s).2 ∧ (exec (fsRm name) s).2.working = s.working ∧
      ((exec (fsRm name) s).2.acl = none ∨ (exec (fsRm name) s).2.acl = s.acl) := by
  obtain ⟨t, ht, he⟩ := exec_checked hs name modeW (-13) (unprotected name (Engine.extRm (ε := Trees)))
  have he : exec (fsRm name) s = _ := he
  rw [he]
  have hsame : Settled t ∧ t.working = s.working ∧ (t.acl = none ∨ t.acl = s.acl) :=
    ⟨ht.settled, ht.working, .inr ht.acl⟩
  by_cases hj : judge s.acl s.user (normalize s.working name) modeW = true
  swap
  · rw [if_neg hj]
    exact hsame
  rw [if_pos hj, unprotected, exec_bind, exec_get]
  by_cases hp : (t.active && protectsMount t.mounts t.working name) = true
  · rw [if_pos hp]
    exact hsame
  rw [if_neg hp]
  cases hn : normalize t.working name with
  | none => simp [protectsMount, hn, ht.settled.active] at hp
  | some path =>
    obtain ⟨ps, rfl, hps⟩ := normalize_spec hn
    obtain ⟨u, hu, ⟨h, hvol, -⟩ | ⟨v, l, p, c, w, tree, hl, hload, hentry, hcwd, hg, h, hrep, -⟩⟩ :=
      exec_routed_change ht.settled hps hn fun e n => e.removed n false
    · have h : exec (routed name true (-1) (Engine.extRm (ε := Trees))) t = (-1, u) := h
      rw [h]
      refine ⟨hu.settled, hu.working.trans ht.working, .inr ?_⟩
      rw [← ht.acl, Space.acl, Space.file, node_congr hu.mounts hvol, Space.acl, Space.file]
    · have h : exec (routed name true (-1) (Engine.extRm (ε := Trees))) t = (0, u) := h
      rw [h, ← ht.acl]
      simp only [Trees.removed, Option.ite_none_right_eq_some, Option.some.injEq] at hg
      rw [← hg.2] at hrep
      exact ⟨hu.settled, hu.working.trans ht.working, Replaced.acl_del hrep ht.settled hl.used hload.tree (by simp)⟩

end Barnix.Acl
