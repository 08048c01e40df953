import Barnix.Vfs.Trees
/-!
# The namespace as one tree

Over mounted trees, the namespace behaves as one tree of absolute paths. In a
settled state the mount table can be used and the loaded volume is the active
one; every operation keeps that. `Same` relates states that differ only in which
volume is loaded.
-/

namespace Barnix.Vfs

/-! ## Trees -/

namespace Tree

theorem find_filter {p q : List Name} (h : q ≠ p) (l : List (List Name × Node)) :
    (l.filter (·.1 != p)).find? (·.1 == q) = l.find? (·.1 == q) := by
  rw [List.find?_filter]
  congr 1
  funext e
  by_cases he : e.1 = q
  · simp [he, h]
  · simp [he]

theorem get_put (t : Tree) {p : List Name} (hp : p ≠ []) (q : List Name) (n : Node) :
    (t.put p n).get q = if q = p then some n else t.get q := by
  by_cases h : q = p
  · simp [get, put, h, hp]
  · have hpq : (p == q) = false := by simpa using fun e => h e.symm
    simp [get, put, hpq, h, find_filter h]

theorem get_del (t : Tree) {p : List Name} (hp : p ≠ []) (q : List Name) :
    (t.del p).get q = if q = p then none else t.get q := by
  by_cases h : q = p
  · simp [get, del, h, hp]
  · simp [get, del, h, find_filter h]

/-- What lies beside both ends of a move stays. -/
theorem get_move (t : Tree) {a b q : List Name} (ha : ¬ a <+: q) (hb : ¬ b <+: q) : (t.move a b).get q = t.get q := by
  rw [get, get]
  congr 1
  rw [move, List.find?_map, Option.map_map]
  have hfind : ((·.1 == q) ∘ fun e : List Name × Node =>
      if a.isPrefixOf e.1 then (b ++ e.1.drop a.length, e.2) else e) = (·.1 == q) := by
    funext e
    by_cases he : a <+: e.1
    · have hb' : b ++ e.1.drop a.length ≠ q := by
        rintro rfl
        exact hb ⟨_, rfl⟩
      have ha' : e.1 ≠ q := by
        rintro rfl
        exact ha he
      simp [he, hb', ha']
    · simp [he]
  rw [hfind]
  congr 1
  funext e
  by_cases he : a <+: e.1 <;> simp [he]

/-- Nothing is left at the old name. -/
theorem get_move_source (t : Tree) {a b q : List Name} (ha : a <+: q) (hq : q ≠ []) (hb : ¬ b <+: q) :
    (t.move a b).get q = none := by
  rw [get, if_neg hq, Option.map_eq_none_iff, List.find?_eq_none]
  intro e he
  simp only [move, List.mem_map] at he
  obtain ⟨e', -, rfl⟩ := he
  have hne : (if a.isPrefixOf e'.1 then (b ++ e'.1.drop a.length, e'.2) else e').1 ≠ q := by
    rintro rfl
    by_cases h : a <+: e'.1
    · exact hb (by simp [h])
    · simp [h] at ha
  simpa using hne

theorem follow_cons (t : Tree) (p l : List Name) {c : Name} (hc : validName c = true) :
    t.follow p (c :: l) =
      if t.get p = some .dir ∧ (t.get (p ++ [c])).isSome then t.follow (p ++ [c]) l else none := by
  obtain ⟨-, hle, -, hdot, hdotdot⟩ := validName_iff.1 hc
  rw [follow, if_neg (by omega), if_neg hdot, if_neg hdotdot]
  by_cases hp : t.get p = some .dir <;> simp [hp]

theorem follow_eq {t : Tree} {p l q : List Name} (hl : ∀ c ∈ l, validName c = true) (h : t.follow p l = some q) :
    q = p ++ l := by
  induction l generalizing p with
  | nil => simpa [follow] using h.symm
  | cons c l ih =>
    rw [follow_cons t p l (hl c (by simp))] at h
    split at h
    · rw [ih (fun d hd => hl d (by simp [hd])) h]
      simp
    · simp at h

/-- Following valid names looks only at the places on the way. -/
theorem follow_congr {t t' : Tree} {p l : List Name} (hl : ∀ c ∈ l, validName c = true)
    (h : ∀ r, r <+: l → t.get (p ++ r) = t'.get (p ++ r)) : t.follow p l = t'.follow p l := by
  induction l generalizing p with
  | nil => rfl
  | cons c l ih =>
    have hp : t.get p = t'.get p := by simpa using h [] (by simp)
    have hc : t.get (p ++ [c]) = t'.get (p ++ [c]) := h [c] (by simp)
    have ih := ih (p := p ++ [c]) (fun d hd => hl d (by simp [hd])) fun r hr => by
      simpa using h (c :: r) (by simpa using hr)
    rw [follow_cons t p l (hl c (by simp)), follow_cons t' p l (hl c (by simp)), hp, hc, ih]

theorem follow_append {t : Tree} {p l : List Name} {c : Name} (hl : ∀ d ∈ l, validName d = true) (hc : validName c = true)
    (hf : t.follow p l = some (p ++ l)) (hd : t.get (p ++ l) = some .dir) (hn : (t.get (p ++ (l ++ [c]))).isSome) :
    t.follow p (l ++ [c]) = some (p ++ (l ++ [c])) := by
  induction l generalizing p with
  | nil =>
    simp only [List.append_nil, List.nil_append] at hd hn ⊢
    rw [follow_cons t p [] hc, if_pos ⟨hd, hn⟩, follow]
  | cons d l ih =>
    rw [List.cons_append, follow_cons t p _ (hl d (by simp))]
    rw [follow_cons t p l (hl d (by simp))] at hf
    split at hf
    · rename_i hd'
      rw [if_pos hd']
      have := ih (p := p ++ [d]) (fun x hx => hl x (by simp [hx])) (by simpa using hf) (by simpa using hd) (by simpa using hn)
      simpa using this
    · simp at hf

/-- Nothing lies below what is not a directory. -/
theorem follow_below {t : Tree} {p l r : List Name} {c : Name} (hl : ∀ d ∈ l ++ c :: r, validName d = true)
    (h : t.get (p ++ l) ≠ some .dir) : t.follow p (l ++ c :: r) = none := by
  induction l generalizing p with
  | nil =>
    rw [List.nil_append, follow_cons t p r (hl c (by simp)), if_neg fun e => h (by simpa using e.1)]
  | cons d l ih =>
    rw [List.cons_append, follow_cons t p _ (hl d (by simp))]
    split
    · exact ih (fun e he => hl e (by simp at he ⊢; tauto)) (by simpa using h)
    · rfl

end Tree

/-! ## Settled states -/

/-- The namespace is active, every mounted volume is there, no volume is mounted
twice, and the active volume is the loaded one. -/
structure Settled (s : Space Trees) : Prop where
  active : s.active = true
  paths : ∀ i, (s.mounts i).used = true → ∃ ms, Normal ms ∧ (s.mounts i).path = render ms
  disks : ∀ i j, (s.mounts i).used = true → (s.mounts j).used = true → (s.mounts i).disk = (s.mounts j).disk → i = j
  volumes : ∀ i, (s.mounts i).used = true → ∃ t, s.engine.volumes (s.mounts i).disk = some t
  current : ∀ v, s.activeVolume = some v →
    (s.mounts v).used = true ∧ s.engine.selected = (s.mounts v).disk ∧ s.engine.mounted = true

/-- `t` is `s` with another volume loaded. -/
def Same (s t : Space Trees) : Prop :=
  ∃ v d m c, t = { s with activeVolume := v, engine := { s.engine with selected := d, mounted := m, cwd := c } }

theorem Same.refl (s : Space Trees) : Same s s :=
  ⟨s.activeVolume, s.engine.selected, s.engine.mounted, s.engine.cwd, rfl⟩

theorem Same.trans {s t u : Space Trees} (h : Same s t) (h' : Same t u) : Same s u := by
  obtain ⟨v, d, m, c, rfl⟩ := h
  obtain ⟨v', d', m', c', rfl⟩ := h'
  exact ⟨v', d', m', c', rfl⟩

/-- An operation that only loads volumes leads from `s` to `t`. -/
structure Steady (s t : Space Trees) : Prop where
  same : Same s t
  settled : Settled t

namespace Steady

variable {s t u : Space Trees}

theorem refl (h : Settled s) : Steady s s := ⟨.refl s, h⟩

theorem trans (h : Steady s t) (h' : Steady t u) : Steady s u := ⟨h.same.trans h'.same, h'.settled⟩

theorem mounts (h : Steady s t) : t.mounts = s.mounts := by obtain ⟨_, _, _, _, rfl⟩ := h.same; rfl

theorem working (h : Steady s t) : t.working = s.working := by obtain ⟨_, _, _, _, rfl⟩ := h.same; rfl

theorem user (h : Steady s t) : t.user = s.user := by obtain ⟨_, _, _, _, rfl⟩ := h.same; rfl

theorem volumes (h : Steady s t) : t.engine.volumes = s.engine.volumes := by obtain ⟨_, _, _, _, rfl⟩ := h.same; rfl

end Steady

/-- The mount with the path `ps`, and the path inside it. -/
structure Located (s : Space Trees) (ps : List Name) (v : Fin 8) (l : List Name) : Prop where
  volume : volumeFor s.mounts (render ps) = some v
  used : (s.mounts v).used = true
  split : ∃ ms, Normal ms ∧ (s.mounts v).path = render ms ∧ ps = ms ++ l

theorem closer_spec {mounts : Fin 8 → Mount} {path : Name} {best : Option (Fin 8)} {i v : Fin 8}
    (hb : ∀ b, best = some b → (mounts b).used = true ∧ beneath path (mounts b).path = true)
    (h : closer mounts path best i = some v) : (mounts v).used = true ∧ beneath path (mounts v).path = true := by
  rw [closer] at h
  split at h
  · rename_i hc
    obtain rfl : i = v := by simpa using h
    simp only [Bool.and_eq_true] at hc
    exact hc.1
  · exact hb v h

theorem volumeFor_spec {mounts : Fin 8 → Mount} {path : Name} {v : Fin 8} (h : volumeFor mounts path = some v) :
    (mounts v).used = true ∧ beneath path (mounts v).path = true := by
  have key : ∀ (l : List (Fin 8)) (best : Option (Fin 8)),
      (∀ b, best = some b → (mounts b).used = true ∧ beneath path (mounts b).path = true) →
      ∀ v, l.foldl (closer mounts path) best = some v → (mounts v).used = true ∧ beneath path (mounts v).path = true := by
    intro l
    induction l with
    | nil => exact fun best hb v hv => hb v hv
    | cons i l ih => exact fun best hb => ih _ fun b hb' => closer_spec hb hb'
  exact key _ none (by simp) v h

theorem Settled.located {s : Space Trees} (hs : Settled s) {ps : List Name} (hps : Normal ps) {v : Fin 8}
    (h : volumeFor s.mounts (render ps) = some v) : ∃ l, Located s ps v l := by
  obtain ⟨hu, hb⟩ := volumeFor_spec h
  obtain ⟨ms, hms, hpath⟩ := hs.paths v hu
  rw [hpath] at hb
  obtain ⟨l, rfl⟩ := (beneath_render hps.1 hms.1).1 hb
  exact ⟨l, h, hu, ms, hms, hpath, rfl⟩

theorem Located.valid {s : Space Trees} {ps l : List Name} {v : Fin 8} (h : Located s ps v l) (hps : Normal ps) :
    ∀ c ∈ l, validName c = true := by
  obtain ⟨ms, -, -, rfl⟩ := h.split
  exact fun c hc => hps.1 c (by simp [hc])

theorem Located.localPath {s : Space Trees} {ps l : List Name} {v : Fin 8} (h : Located s ps v l) (hps : Normal ps) :
    localPath (s.mounts v).path (render ps) = render l := by
  obtain ⟨ms, hms, hpath, rfl⟩ := h.split
  by_cases hm : ms = []
  · subst hm
    simp [Vfs.localPath, hpath, render_ne_nil]
  · have hne : render ms ≠ [slash] := fun e => hm (render_inj hms.1 (by simp) e)
    rw [Vfs.localPath, hpath, if_neg hne, render_append hm, List.drop_left]
    cases l with
    | nil => rfl
    | cons c l => rfl

/-- Two paths of one volume with the same place in it are the same. -/
theorem Located.inj {s : Space Trees} {ps qs l : List Name} {v : Fin 8} (h : Located s ps v l) (h' : Located s qs v l) :
    ps = qs := by
  obtain ⟨ms, hms, hm, rfl⟩ := h.split
  obtain ⟨ms', hms', hm', rfl⟩ := h'.split
  rw [render_inj hms.1 hms'.1 (hm.symm.trans hm')]

theorem Located.place {s : Space Trees} {ps l l' : List Name} {v : Fin 8} (h : Located s ps v l) (h' : Located s ps v l') :
    l = l' := by
  obtain ⟨ms, hms, hm, hsplit⟩ := h.split
  obtain ⟨ms', hms', hm', hsplit'⟩ := h'.split
  obtain rfl := render_inj hms.1 hms'.1 (hm.symm.trans hm')
  exact List.append_cancel_left (hsplit.symm.trans hsplit')

/-- The node at an absolute path. -/
def Space.node (s : Space Trees) (ps : List Name) : Option Node :=
  match volumeFor s.mounts (render ps) with
  | none => none
  | some v =>
    match s.engine.volumes (s.mounts v).disk with
    | none => none
    | some t => (t.follow [] (ps.drop (components (s.mounts v).path).length)).bind t.get

theorem Located.node {s : Space Trees} {ps l : List Name} {v : Fin 8} {t : Tree} (h : Located s ps v l)
    (ht : s.engine.volumes (s.mounts v).disk = some t) : s.node ps = (t.follow [] l).bind t.get := by
  obtain ⟨ms, hms, hm, rfl⟩ := h.split
  simp only [Space.node, h.volume, ht, hm, components_render hms.1, List.drop_left]

theorem Steady.node {s t : Space Trees} (h : Steady s t) (ps : List Name) : t.node ps = s.node ps := by
  simp only [Space.node, h.mounts, h.volumes]

/-! ## Loading and routing -/

/-- `t` is `s` with volume `v` loaded. -/
structure Loaded (s : Space Trees) (v : Fin 8) (t : Space Trees) : Prop extends Steady s t where
  volume : t.activeVolume = some v

namespace Loaded

variable {s t : Space Trees} {v : Fin 8} {ps l : List Name}

theorem selected (h : Loaded s v t) : t.engine.selected = (s.mounts v).disk := by
  rw [← h.toSteady.mounts]
  exact (h.settled.current v h.volume).2.1

theorem ready (h : Loaded s v t) : t.engine.ready = true := by
  obtain ⟨hu, hsel, hm⟩ := h.settled.current v h.volume
  obtain ⟨tr, ht⟩ := h.settled.volumes v hu
  simp [Trees.ready, hm, hsel, ht]

theorem tree (h : Loaded s v t) : s.engine.volumes (s.mounts v).disk = some t.engine.tree := by
  obtain ⟨hu, hsel, hm⟩ := h.settled.current v h.volume
  obtain ⟨tr, ht⟩ := h.settled.volumes v hu
  rw [← h.toSteady.mounts, ← h.toSteady.volumes, ht, Trees.tree, hsel, ht]
  rfl

theorem find (h : Loaded s v t) (hl : ∀ c ∈ l, validName c = true) :
    t.engine.find (render l) = t.engine.tree.follow [] l := by
  rw [Trees.find, if_neg (by simp [render_ne_nil, h.ready]), if_pos (head_render l), components_render hl]

theorem findNode (h : Loaded s v t) (hps : Normal ps) (hl : Located s ps v l) :
    t.engine.findNode (render l) = s.node ps := by
  rw [Trees.findNode, h.find (hl.valid hps), hl.node h.tree]

end Loaded

theorem exec_onEngine {α : Type} (x : StateM Trees α) (s : Space Trees) :
    exec (onEngine x) s = ((exec x s.engine).1, { s with engine := (exec x s.engine).2 }) := rfl

theorem exec_activate {s : Space Trees} (hs : Settled s) {v : Fin 8} (hv : (s.mounts v).used = true) :
    ∃ t, exec (activate (some v)) s = (true, t) ∧ Loaded s v t := by
  obtain ⟨tr, htr⟩ := hs.volumes v hv
  by_cases hav : s.activeVolume = some v
  · refine ⟨s, ?_, ⟨.refl hs, hav⟩⟩
    have := (⟨.refl hs, hav⟩ : Loaded s v s).ready
    simp [activate, hav, exec_onEngine, Engine.engineReady, this]
    rw [← hav]
  · refine ⟨{ s with
      activeVolume := some v
      engine := { s.engine with selected := (s.mounts v).disk, mounted := true, cwd := [] } }, ?_, ?_⟩
    · simp [activate, hav, exec_onEngine, Engine.engineReady, Engine.diskRestore, Engine.extInit, Trees.ready, htr]
    · refine ⟨⟨⟨_, _, _, _, rfl⟩, ?_⟩, rfl⟩
      refine ⟨hs.active, hs.paths, hs.disks, hs.volumes, fun w hw => ?_⟩
      obtain rfl : v = w := by simpa using hw
      exact ⟨hv, rfl, rfl⟩

/-- `s` with the engine in the directory `c`. -/
def Space.enter (s : Space Trees) (c : List Name) : Space Trees := { s with engine := { s.engine with cwd := c } }

/-- Where the engine's working directory is does not matter. -/
theorem Loaded.enter {s t : Space Trees} {v : Fin 8} (h : Loaded s v t) (c : List Name) : Loaded s v (t.enter c) := by
  refine ⟨⟨h.same.trans ⟨_, _, _, c, rfl⟩, ?_⟩, h.volume⟩
  exact ⟨h.settled.active, h.settled.paths, h.settled.disks, h.settled.volumes, h.settled.current⟩

theorem exec_route {s : Space Trees} (hs : Settled s) {name : Name} {ps l : List Name} {v : Fin 8} (hps : Normal ps)
    (hn : normalize s.working name = some (render ps)) (hl : Located s ps v l) :
    ∃ t, exec (route name false) s = (some (render l), t) ∧ Loaded s v t ∧ t.engine.cwd = [] := by
  obtain ⟨t, ht, hload⟩ := exec_activate hs hl.used
  refine ⟨_, ?_, hload.enter [], rfl⟩
  simp [route, hn, hl.volume, ht, exec_onEngine, Engine.cwdRoot, hl.localPath hps, Space.enter]

theorem exec_route_none {s : Space Trees} {name : Name} {ps : List Name} (parent : Bool)
    (hn : normalize s.working name = some (render ps)) (hv : volumeFor s.mounts (render ps) = none) :
    exec (route name parent) s = (none, s) := by
  simp [route, hn, hv, activate]

theorem exec_extCd (s : Space Trees) (name : Name) (p : List Name) (h : s.engine.find name = some p) :
    exec (onEngine (Engine.extCd name)) s =
      if s.engine.tree.get p = some .dir then (0, s.enter p) else (-1, s) := by
  by_cases hd : s.engine.tree.get p = some .dir <;> simp [exec_onEngine, Engine.extCd, Trees.cd, h, hd, Space.enter]

theorem exec_extCd_none (s : Space Trees) (name : Name) (h : s.engine.find name = none) :
    exec (onEngine (Engine.extCd name)) s = (-1, s) := by
  simp [exec_onEngine, Engine.extCd, Trees.cd, h]

/-- `l` is a name in an existing directory of the tree. -/
def Tree.Entry (t : Tree) (l p : List Name) (c : Name) : Prop :=
  l = p ++ [c] ∧ t.follow [] p = some p ∧ t.get p = some .dir

theorem Tree.entry_of_follow {t : Tree} {p : List Name} {c : Name} (hl : ∀ d ∈ p ++ [c], validName d = true)
    (h : t.follow [] (p ++ [c]) = some (p ++ [c])) : t.Entry (p ++ [c]) p c := by
  have hdir : t.get p = some .dir := by
    by_contra hne
    rw [follow_below hl (by simpa using hne)] at h
    simp at h
  have key : ∀ (q l : List Name), (∀ d ∈ l ++ [c], validName d = true) → t.follow q (l ++ [c]) ≠ none →
      t.follow q l = some (q ++ l) := by
    intro q l
    induction l generalizing q with
    | nil => simp [follow]
    | cons d l ih =>
      intro hv hf
      rw [List.cons_append, follow_cons t q _ (hv d (by simp))] at hf
      rw [follow_cons t q _ (hv d (by simp))]
      split at hf
      · rename_i hd
        rw [if_pos hd, ih _ (fun e he => hv e (by simp at he ⊢; tauto)) hf]
        simp
      · simp at hf
  exact ⟨rfl, by simpa using key [] p hl (by simp [h]), hdir⟩

/-- What an entry of an existing directory is. -/
theorem Tree.Entry.node {t : Tree} {l p : List Name} {c : Name} (h : t.Entry l p c) (hp : ∀ d ∈ p, validName d = true)
    (hc : validName c = true) : (t.follow [] l).bind t.get = t.get l := by
  obtain ⟨rfl, hfollow, hdir⟩ := h
  cases hf : t.follow [] (p ++ [c]) with
  | some q =>
    have hl : ∀ d ∈ p ++ [c], validName d = true := by simpa [or_imp, forall_and] using ⟨hp, hc⟩
    obtain rfl : q = p ++ [c] := by simpa using Tree.follow_eq hl hf
    rfl
  | none =>
    symm
    by_contra hne
    have := Tree.follow_append (p := []) hp hc hfollow (by simpa using hdir) (Option.isSome_iff_ne_none.2 hne)
    simp [hf] at this

/-- With `parent`, the engine ends in the directory of the name, if that exists. -/
theorem exec_route_parent {s : Space Trees} (hs : Settled s) {name : Name} {ps l : List Name} {v : Fin 8}
    (hps : Normal ps) (hn : normalize s.working name = some (render ps)) (hl : Located s ps v l) :
    ∃ t, Loaded s v t ∧
      ((exec (route name true) s = (none, t) ∧ ∀ p c, ¬ t.engine.tree.Entry l p c) ∨
        ∃ p c, t.engine.tree.Entry l p c ∧ exec (route name true) s = (some c, t) ∧ t.engine.cwd = p) := by
  obtain ⟨t, ht, hload⟩ := exec_activate hs hl.used
  have hroot := hload.enter []
  have hroute : exec (route name true) s = exec (do
      if baseName (render l) = [] then return none
      if (← onEngine (Engine.extCd (ε := Trees) (parentName (render l)))) ≠ 0 then return none
      return some (baseName (render l))) (t.enter []) := by
    simp only [route, exec_bind, exec_get, hn, hl.volume, ht, exec_onEngine, Engine.cwdRoot, Option.map_some,
      Option.getD_some, hl.localPath hps, Bool.not_true, Bool.false_eq_true, if_false]
    rfl
  rcases List.eq_nil_or_concat l with rfl | ⟨p, c, rfl⟩
  · refine ⟨_, hroot, .inl ⟨by rw [hroute, render_nil, baseName_root]; rfl, ?_⟩⟩
    rintro p c ⟨h, -⟩
    simp at h
  · have hv := hl.valid hps
    obtain ⟨hne, -, hsl, -⟩ := validName_iff.1 (hv c (by simp))
    have hp : ∀ d ∈ p, validName d = true := fun d hd => hv d (by simp [hd])
    have hfind := hroot.find hp
    rw [List.concat_eq_append] at *
    rw [baseName_render p hsl, parentName_render p hsl, if_neg hne] at hroute
    have hno : ∀ {p' c'}, (t.enter []).engine.tree.Entry (p ++ [c]) p' c' → p' = p := by
      rintro p' c' ⟨he, -⟩
      exact (List.append_inj' he rfl).1.symm
    cases hf : (t.enter []).engine.tree.follow [] p with
    | none =>
      rw [hf] at hfind
      refine ⟨_, hroot, .inl ⟨by rw [hroute]; simp [exec_extCd_none _ _ hfind], ?_⟩⟩
      rintro p' c' he
      have := he.2.1
      rw [hno he, hf] at this
      simp at this
    | some q =>
      obtain rfl : q = p := by simpa using Tree.follow_eq hp hf
      rw [hf] at hfind
      by_cases hd : (t.enter []).engine.tree.get q = some .dir
      · refine ⟨_, hroot.enter q, .inr ⟨q, c, ⟨rfl, hf, hd⟩, ?_, rfl⟩⟩
        rw [hroute]
        simp [exec_extCd _ _ _ hfind, hd]
      · refine ⟨_, hroot, .inl ⟨?_, fun p' c' he => hd ?_⟩⟩
        · rw [hroute]
          simp [exec_extCd _ _ _ hfind, hd]
        · exact hno he ▸ he.2.2

/-! ## Reading -/

/-- The content of a regular file. -/
def fileData : Option Node → Option Name
  | some (.file _ data) => some data
  | _ => none

/-- The content of the regular file at an absolute path. -/
def Space.file (s : Space Trees) (ps : List Name) : Option Name := fileData (s.node ps)

theorem Steady.file {s t : Space Trees} (h : Steady s t) (ps : List Name) : t.file ps = s.file ps := by
  rw [Space.file, h.node, Space.file]

theorem node_of_no_volume {s : Space Trees} {ps : List Name} (h : volumeFor s.mounts (render ps) = none) :
    s.node ps = none := by
  simp [Space.node, h]

section
variable {s : Space Trees} {name : Name} {ps : List Name}

/-- An operation that only looks at the engine. -/
theorem exec_routed_read {α : Type} (hs : Settled s) (hps : Normal ps)
    (hn : normalize s.working name = some (render ps)) (f : Trees → Name → α) (bad : α) :
    (volumeFor s.mounts (render ps) = none ∧
      exec (routed name false bad fun n => modifyGet fun e : Trees => (f e n, e)) s = (bad, s)) ∨
    ∃ v l t, Located s ps v l ∧ Loaded s v t ∧
      exec (routed name false bad fun n => modifyGet fun e : Trees => (f e n, e)) s = (f t.engine (render l), t) := by
  cases hv : volumeFor s.mounts (render ps) with
  | none =>
    refine .inl ⟨rfl, ?_⟩
    simp [routed, hs.active, exec_route_none false hn hv]
  | some v =>
    obtain ⟨l, hl⟩ := hs.located hps hv
    obtain ⟨t, ht, hload, -⟩ := exec_route hs hps hn hl
    refine .inr ⟨v, l, t, hl, hload, ?_⟩
    simp [routed, hs.active, ht, exec_onEngine]

theorem exec_plainSize (hs : Settled s) (hps : Normal ps) (hn : normalize s.working name = some (render ps)) :
    ∃ t, Steady s t ∧
      exec (plainSize name) s = ((s.file ps).elim (-1) fun d => (d.length : Int), t) := by
  rcases exec_routed_read hs hps hn Trees.size (-1) with ⟨hv, h⟩ | ⟨v, l, t, hl, hload, h⟩
  · refine ⟨s, .refl hs, ?_⟩
    rw [Space.file, node_of_no_volume hv]
    exact h
  · refine ⟨t, hload.toSteady, h.trans ?_⟩
    rw [Trees.size, hload.findNode hps hl, Space.file]
    rcases s.node ps with _ | _ | _ <;> rfl

theorem exec_plainRead (hs : Settled s) (hps : Normal ps) (hn : normalize s.working name = some (render ps)) (n : Nat) :
    ∃ t, Steady s t ∧ exec (plainRead name 0 n) s = ((s.file ps).map (·.take n), t) := by
  rcases exec_routed_read hs hps hn (fun e m => e.read m 0 n) none with ⟨hv, h⟩ | ⟨v, l, t, hl, hload, h⟩
  · refine ⟨s, .refl hs, ?_⟩
    rw [Space.file, node_of_no_volume hv]
    exact h
  · refine ⟨t, hload.toSteady, h.trans ?_⟩
    rw [Trees.read, hload.findNode hps hl, Space.file]
    rcases s.node ps with _ | _ | _ <;> simp [fileData]

theorem exec_plainIsDir (hs : Settled s) (hps : Normal ps) (hn : normalize s.working name = some (render ps)) :
    ∃ t, Steady s t ∧ exec (plainIsDir name) s = (s.node ps == some .dir, t) := by
  rcases exec_routed_read hs hps hn (fun e m => e.findNode m == some .dir) false with ⟨hv, h⟩ | ⟨v, l, t, hl, hload, h⟩
  · refine ⟨s, .refl hs, ?_⟩
    rw [node_of_no_volume hv]
    exact h
  · refine ⟨t, hload.toSteady, h.trans ?_⟩
    rw [hload.findNode hps hl]

theorem exec_privateRead (hs : Settled s) (hps : Normal ps) (hn : normalize s.working name = some (render ps)) (cap : Nat) :
    ∃ t, Steady s t ∧
      exec (privateRead name cap) s = ((s.file ps).bind fun d => if cap ≤ d.length then none else some d, t) := by
  obtain ⟨t, ht, hsize⟩ := exec_plainSize hs hps hn
  cases hf : s.file ps with
  | none =>
    refine ⟨t, ht, ?_⟩
    rw [hf] at hsize
    simp [privateRead, hsize]
  | some d =>
    rw [hf] at hsize
    by_cases hc : cap ≤ d.length
    · refine ⟨t, ht, ?_⟩
      simp [privateRead, hsize, hc]
    · obtain ⟨u, hu, hread⟩ := exec_plainRead ht.settled hps (ht.working ▸ hn) d.length
      refine ⟨u, ht.trans hu, ?_⟩
      rw [ht.file, hf] at hread
      have hpos : ¬ (d.length : Int) < 0 := by omega
      simp [privateRead, hsize, hc, hread, hpos]

end

/-! ## Decisions -/

/-- The components of `/etc/access.cfg`. -/
def accessParts : List Name := [[101, 116, 99], [97, 99, 99, 101, 115, 115, 46, 99, 102, 103]]

theorem accessCfg_eq : accessCfg = render accessParts := rfl

theorem normal_accessParts : Normal accessParts := ⟨by decide, by decide⟩

theorem normalize_accessCfg (working : Name) : normalize working accessCfg = some (render accessParts) :=
  normalize_render working normal_accessParts

/-- The access list, if there is one. -/
def Space.acl (s : Space Trees) : Option Name := s.file accessParts

theorem Steady.acl {s t : Space Trees} (h : Steady s t) : t.acl = s.acl := h.file _

/-- What `check_permission` decides from the access list for a normalized path. -/
def judge (acl : Option Name) (user : Name) (path : Option Name) (mode : UInt8) : Bool :=
  if user = root then true
  else
    match path with
    | none => false
    | some path =>
      if beneath path etc then false
      else
        match acl with
        | none => defaultRight user path mode
        | some data => if aclCap ≤ data.length then false else textAllows user path mode (cstr data)

theorem exec_namespaceStart {s : Space Trees} (hs : Settled s) : exec namespaceStart s = ((), s) := by
  simp [namespaceStart, hs.active]

theorem exec_checkPermission {s : Space Trees} (hs : Settled s) (name : Name) (mode : UInt8) :
    ∃ t, Steady s t ∧
      exec (checkPermission name mode) s = (judge s.acl s.user (normalize s.working name) mode, t) := by
  by_cases hr : s.user = root
  · exact ⟨s, .refl hs, by simp [checkPermission, judge, hr]⟩
  cases hn : normalize s.working name with
  | none => exact ⟨s, .refl hs, by simp [checkPermission, judge, hr, hn, exec_namespaceStart hs]⟩
  | some path =>
    cases he : beneath path etc with
    | true => exact ⟨s, .refl hs, by simp [checkPermission, judge, hr, hn, he, exec_namespaceStart hs]⟩
    | false =>
      obtain ⟨t, ht, hread⟩ := exec_privateRead hs normal_accessParts (normalize_accessCfg s.working) aclCap
      cases hacl : s.file accessParts with
      | none =>
        rw [hacl] at hread
        obtain ⟨u, hu, hsize⟩ := exec_plainSize ht.settled normal_accessParts (normalize_accessCfg t.working)
        rw [ht.file, hacl] at hsize
        refine ⟨u, ht.trans hu, ?_⟩
        simp [checkPermission, judge, Space.acl, hr, hn, he, exec_namespaceStart hs, hread, hsize, hacl]
      | some d =>
        rw [hacl] at hread
        by_cases hc : aclCap ≤ d.length
        · obtain ⟨u, hu, hsize⟩ := exec_plainSize ht.settled normal_accessParts (normalize_accessCfg t.working)
          rw [ht.file, hacl] at hsize
          refine ⟨u, ht.trans hu, ?_⟩
          simp [checkPermission, judge, Space.acl, hr, hn, he, exec_namespaceStart hs, hread, hsize, hacl, hc]
        · refine ⟨t, ht, ?_⟩
          simp [checkPermission, judge, Space.acl, hr, hn, he, exec_namespaceStart hs, hread, hacl, hc]

theorem exec_checked {α : Type} {s : Space Trees} (hs : Settled s) (name : Name) (mode : UInt8) (denied : α)
    (x : StateM (Space Trees) α) :
    ∃ t, Steady s t ∧
      exec (checked name mode denied x) s =
        if judge s.acl s.user (normalize s.working name) mode then exec x t else (denied, t) := by
  obtain ⟨t, ht, hcheck⟩ := exec_checkPermission hs name mode
  refine ⟨t, ht, ?_⟩
  cases hj : judge s.acl s.user (normalize s.working name) mode <;> simp [checked, hcheck, hj]

/-! ## Before the namespace is active -/

/-- The state once the namespace is active. -/
def start (s : Space Trees) : Space Trees := (exec namespaceStart s).2

/-- What `fs_init` establishes and the file operations keep. -/
def Sound (s : Space Trees) : Prop := s.active = true → Settled s

theorem start_of_active {s : Space Trees} (h : s.active = true) : start s = s := by
  simp [start, namespaceStart, h]

@[simp] theorem start_user (s : Space Trees) : (start s).user = s.user := by
  cases h : s.active <;> simp [start, namespaceStart, h, exec_onEngine, Engine.engineReady, Engine.extGetcwd]

/-- `s` with `user` asking. -/
def Space.as (s : Space Trees) (user : Name) : Space Trees := { s with user := user }

theorem Settled.as {s : Space Trees} (h : Settled s) (user : Name) : Settled (s.as user) :=
  ⟨h.active, h.paths, h.disks, h.volumes, h.current⟩

/-- Who is asking does not matter for the start. -/
theorem start_as (s : Space Trees) (user : Name) : start (s.as user) = (start s).as user := by
  obtain ⟨_, _, active, _⟩ := s
  cases active <;> rfl

theorem Sound.start {s : Space Trees} (h : Sound s) : Settled (start s) := by
  cases ha : s.active with
  | true => rw [start_of_active ha]; exact h ha
  | false =>
    have hstart : Vfs.start s = { s with
        mounts := fun i => if i = 0 then ⟨s.engine.ready, s.engine.selected, [slash]⟩ else ⟨false, noDisk, []⟩
        working := (Vfs.start s).working
        activeVolume := if s.engine.ready then some 0 else none
        active := true } := by
      simp only [Vfs.start, namespaceStart, exec_bind, exec_get, ha]
      rfl
    have hused : ∀ i, ((Vfs.start s).mounts i).used = true → i = 0 ∧ s.engine.ready = true := by
      intro i hi
      rw [hstart] at hi
      by_cases h0 : i = 0
      · exact ⟨h0, by simpa [h0] using hi⟩
      · simp [h0] at hi
    have hready : s.engine.ready = true → s.engine.mounted = true ∧ ∃ t, s.engine.volumes s.engine.selected = some t := by
      simp only [Trees.ready, Bool.and_eq_true, Option.isSome_iff_exists]
      exact id
    refine ⟨by rw [hstart], fun i hi => ?_, fun i j hi hj _ => ?_, fun i hi => ?_, fun v hv => ?_⟩
    · obtain ⟨rfl, -⟩ := hused i hi
      exact ⟨[], ⟨by simp, by decide⟩, by rw [hstart]; rfl⟩
    · rw [(hused i hi).1, (hused j hj).1]
    · obtain ⟨rfl, hr⟩ := hused i hi
      rw [hstart]
      exact (hready hr).2
    · rw [hstart] at hv ⊢
      cases hr : s.engine.ready with
      | false => simp [hr] at hv
      | true =>
        obtain rfl : 0 = v := by simpa [hr] using hv
        exact ⟨rfl, rfl, (hready hr).1⟩

theorem exec_checkPermission_start (s : Space Trees) (hu : s.user ≠ root) (name : Name) (mode : UInt8) :
    exec (checkPermission name mode) s = exec (checkPermission name mode) (start s) := by
  cases ha : s.active with
  | true => rw [start_of_active ha]
  | false =>
    have hidem : exec namespaceStart (start s) = ((), start s) := by
      have : (start s).active = true := by
        simp [start, namespaceStart, ha]
      simp [namespaceStart, this]
    have hfirst : exec namespaceStart s = ((), start s) := rfl
    have hu' : (start s).user ≠ root := by simpa using hu
    simp only [checkPermission, exec_bind, exec_get, hu, hu', if_false, hfirst, hidem]

/-- Users other than root start the namespace with every checked operation. -/
theorem exec_checked_start {α : Type} (s : Space Trees) (hu : s.user ≠ root) (name : Name) (mode : UInt8) (denied : α)
    (x : StateM (Space Trees) α) :
    exec (checked name mode denied x) s = exec (checked name mode denied x) (start s) := by
  simp only [checked, exec_bind, exec_checkPermission_start s hu]

/-! ## Rights -/

/-- What `check_permission` answers when `user` asks. -/
def allows (s : Space Trees) (user name : Name) (mode : UInt8) : Bool :=
  (exec (checkPermission name mode) (s.as user)).1

theorem allows_eq {s : Space Trees} (hs : Sound s) (user name : Name) (mode : UInt8) :
    allows s user name mode = judge (start s).acl user (normalize (start s).working name) mode := by
  obtain ⟨t, -, ht⟩ := exec_checkPermission (hs.start.as user) name mode
  by_cases hu : user = root
  · simp [allows, checkPermission, judge, hu, Space.as]
  · rw [allows, exec_checkPermission_start _ hu, start_as, ht]
    rfl

end Barnix.Vfs
