import Barnix.Acl.Users
/-!
# Runs of file operations

The access list over whole runs: a list made by `set_file_permissions` and
renames stays well-formed as long as no rename carries records to a name with
a separator in it, and the operations of a user other than root then change
nobody's rights beside the renamed names.
-/

namespace Barnix.Acl

open Vfs

/-! ## Renames of well-formed lists -/

/-- No record is carried to a name that holds a separator of the access list. -/
def CleanMove (s : Space Trees) (source dest : Name) : Prop :=
  ∀ a b data, Names s source dest a b → s.acl = some data → carriesRecord (render a) (cstr data) = true →
    Plain (render b)

/-- How a rename of `a` to `b` can change the access list. -/
inductive ListMove (a b : List Name) : Option Name → Option Name → Prop
  | same {acl : Option Name} : (∀ rs, acl = some (text rs) → (text rs).length < aclCap → (∀ r ∈ rs, r.Clean) →
      copies a b rs = []) → ListMove a b acl acl
  | guard {rs : List Record} : (∀ r ∈ rs, r.Clean) → (text rs).length < aclCap →
      (∀ r ∈ rs ++ copies a b rs, r.Clean) → (text (rs ++ copies a b rs)).length < aclCap →
      ListMove a b (some (text rs)) (some (text (rs ++ copies a b rs)))
  | renamed {rs : List Record} : (∀ r ∈ rs, r.Clean) → (text rs).length < aclCap →
      (∀ r ∈ renamed a b rs, r.Clean) → (text (renamed a b rs)).length < aclCap →
      ListMove a b (some (text rs)) (some (text (renamed a b rs)))

theorem ListMove.wellFormed {a b : List Name} {acl acl' : Option Name} (h : ListMove a b acl acl') (hw : WellFormed acl) :
    WellFormed acl' := by
  cases h with
  | same => exact hw
  | guard _ _ hclean hlen =>
    rintro data hdata
    exact ⟨_, hclean, (Option.some.inj hdata).symm, Option.some.inj hdata ▸ hlen⟩
  | renamed _ _ hclean hlen =>
    rintro data hdata
    exact ⟨_, hclean, (Option.some.inj hdata).symm, Option.some.inj hdata ▸ hlen⟩

theorem Clean.movedTo {a b : List Name} {r : Record} (hr : r.Clean) (ha : a ≠ []) (hb : b ≠ []) (hnb : Normal b)
    (hplain : Plain (render b)) (h : a <+: r.parts) (hlen : (r.movedTo a b).path.length < pathCap) :
    (r.movedTo a b).Clean := by
  have hpath := path_movedTo ha hb h
  obtain ⟨t, ht⟩ := h
  have hparts := movedTo_below (b := b) ht.symm
  refine ⟨⟨fun c hc => ?_, hlen⟩, fun c hc => ?_, by simpa using hr.user, by simpa using hr.rights, by simpa using hr.lock,
    by simpa using hr.short⟩
  · rw [hparts] at hc
    rcases List.mem_append.1 hc with hc | hc
    · exact hnb.1 c hc
    · exact hr.normal.1 c (by rw [← ht]; simp [hc])
  · rw [hpath] at hc
    rcases List.mem_append.1 hc with hc | hc
    · exact hplain c hc
    · exact hr.path c (List.mem_of_mem_drop hc)

theorem clean_copies {a b : List Name} {rs : List Record} (hrs : ∀ r ∈ rs, r.Clean) (ha : a ≠ []) (hb : b ≠ [])
    (hnb : Normal b) (hplain : copies a b rs ≠ [] → Plain (render b)) (hlen : ∀ r ∈ copies a b rs, r.path.length < pathCap) :
    ∀ r ∈ copies a b rs, r.Clean := by
  intro r hr
  have hplain := hplain (List.ne_nil_of_mem hr)
  have hlen := hlen r hr
  obtain ⟨q, hq, t, ht, rfl⟩ := mem_copies.1 hr
  rw [← movedTo_below ht] at hlen ⊢
  exact Clean.movedTo (hrs q hq) ha hb hnb hplain ⟨t, ht.symm⟩ hlen

theorem clean_renamed {a b : List Name} {rs : List Record} (hrs : ∀ r ∈ rs, r.Clean)
    (hcopies : ∀ r ∈ copies a b rs, r.Clean) : ∀ r ∈ renamed a b rs, r.Clean := by
  intro r hr
  obtain ⟨q, hq, rfl⟩ := List.mem_map.1 hr
  by_cases h : a <+: q.parts
  · obtain ⟨t, ht⟩ := h
    exact hcopies _ (mem_copies.2 ⟨q, hq, t, ht.symm, movedTo_below ht.symm⟩)
  · rw [movedTo_beside h]
    exact hrs q hq

theorem renamed_of_copies_nil {a b : List Name} {rs : List Record} (h : copies a b rs = []) : renamed a b rs = rs := by
  rw [renamed]
  conv_rhs => rw [← List.map_id rs]
  refine List.map_congr_left fun r hr => movedTo_beside fun hp => ?_
  obtain ⟨t, ht⟩ := hp
  have : ({ r with parts := b ++ t } : Record) ∈ copies a b rs := mem_copies.2 ⟨r, hr, t, ht.symm, rfl⟩
  simp [h] at this

/-- What a staged rename can publish. -/
theorem Prepared.listMove {s w : Space Trees} {source dest : Name} {a b : List Name} (h : Prepared a b s w)
    (hw : WellFormed s.acl) (hc : CleanMove s source dest) (hn : Names s source dest a b) (ha : a ≠ []) (hb : b ≠ [])
    (hneed : w.renamedAclNeeded = true) :
    ListMove a b s.acl (some w.renameGuard) ∧ ListMove a b s.acl (some w.renamedAcl) := by
  obtain ⟨data, hacl, hlen, hcarry⟩ := h.carried hneed
  obtain ⟨rs, hrs, rfl, -⟩ := hw data hacl
  obtain ⟨hfits, hren, hguard, hcopies⟩ := h.staged rs hacl hlen hrs ha hb
  have hne : copies a b rs ≠ [] := by
    intro hnil
    simp [hnil, hneed] at hcopies
  have hclean := clean_copies hrs ha hb hn.normalDest (fun _ => hc a b _ hn hacl hcarry) hfits.paths
  have hfa := hfits.acl
  have hfg := hfits.guard hne
  rw [hacl, hren, hguard]
  refine ⟨.guard hrs hlen ?_ ?_, .renamed hrs hlen (clean_renamed hrs hclean) (by omega)⟩
  · intro r hr
    rcases List.mem_append.1 hr with hr | hr
    · exact hrs r hr
    · exact hclean r hr
  · rw [text_append, List.length_append]
    omega

/-- A rename of a well-formed list. -/
theorem exec_fsMv_list {s : Space Trees} (hs : Settled s) (hw : WellFormed s.acl) {source dest : Name}
    (hc : CleanMove s source dest) :
    ∃ r t, exec (fsMv source dest) s = (r, t) ∧ Settled t ∧ t.mounts = s.mounts ∧ t.working = s.working ∧
      t.user = s.user ∧
      (t.acl = s.acl ∧ r ≠ 0 ∨ ∃ a b d x y, Names s source dest a b ∧ MayMove s a b ∧ a = d ++ [x] ∧ b = d ++ [y] ∧
        (¬ b <+: accessParts ∨ r ≠ 0 → (a <+: accessParts ∧ t.acl = none) ∨ ListMove a b s.acl t.acl)) := by
  obtain ⟨r, t, he, hst, htm, htw, htu, -, ⟨hr, hvol, -⟩ | ⟨a, b, w, hn, hmay, hk, hp, hout⟩⟩ := exec_fsMv hs source dest
  · refine ⟨r, t, he, hst, htm, htw, htu, .inl ⟨?_, hr⟩⟩
    rw [Space.acl, Space.file, node_congr htm hvol, Space.acl, Space.file]
  refine ⟨r, t, he, hst, htm, htw, htu, ?_⟩
  cases hout with
  | refused hr hvol _ =>
    refine .inl ⟨?_, hr⟩
    rw [Space.acl, Space.file, node_congr (htm.trans hk.mounts.symm) hvol, ← Space.file, ← Space.acl, hk.acl]
  | guarded d x y hr had hbd hneed hacl _ _ =>
    refine .inr ⟨a, b, d, x, y, hn, hmay, had, hbd, fun _ => .inr ?_⟩
    rw [hacl]
    exact (hp.listMove hw hc hn (by simp [had]) (by simp [hbd]) hneed).1
  | renamed d x y had hbd _ hacl =>
    refine .inr ⟨a, b, d, x, y, hn, hmay, had, hbd, fun hlist => ?_⟩
    rcases hacl (hlist.resolve_right (by simp)) with h | ⟨hneed, h⟩ | ⟨hneed, h⟩
    · exact .inl h
    · refine .inr ?_
      rw [h, hk.acl]
      refine .same fun rs hrs hlen hclean => ?_
      obtain ⟨-, -, -, hcopies⟩ := hp.staged rs hrs hlen hclean (by simp [had]) (by simp [hbd])
      simpa [hneed] using hcopies
    · obtain ⟨hg, hr⟩ := hp.listMove hw hc hn (by simp [had]) (by simp [hbd]) hneed
      rcases h with h | h <;> rw [h]
      · exact .inr hg
      · exact .inr hr

/-! ## Lists the kernel made -/

/-- States with an access list that `set_file_permissions`, renames and removals
of any users have made. No rename puts another file in the list's place. -/
inductive Produced : Space Trees → Prop
  | init {s : Space Trees} : Sound s → (start s).acl = none → Produced (start s)
  | grant {s : Space Trees} (user name spec password : Name) : Produced s →
      (∀ path, normalize s.working name = some path → 0 ∉ path) →
      Produced (exec (setFilePermissions name spec password) (s.as user)).2
  | rename {s : Space Trees} (user source dest : Name) : Produced s → CleanMove (s.as user) source dest →
      (∀ b, normalize s.working dest = some (render b) → Normal b → ¬ b <+: accessParts) →
      Produced (exec (fsMv source dest) (s.as user)).2
  | remove {s : Space Trees} (user name : Name) : Produced s → Produced (exec (fsRm name) (s.as user)).2

theorem Produced.spec {s : Space Trees} (h : Produced s) : Settled s ∧ WellFormed s.acl := by
  have hnone : ∀ {acl : Option Name}, acl = none → WellFormed acl := by
    rintro _ rfl data hdata
    simp at hdata
  induction h with
  | init hs h => exact ⟨hs.start, hnone h⟩
  | @grant s user name spec password _ hnul ih =>
    obtain ⟨hf, hw⟩ := wellFormed_setFilePermissions (s := s.as user) (ih.1.as user) ih.2 name spec password hnul
    exact ⟨hf.settled, hw⟩
  | @rename s user source dest _ hc hlist ih =>
    obtain ⟨r, t, he, hst, -, -, -, hout⟩ := exec_fsMv_list (s := s.as user) (ih.1.as user) ih.2 hc
    rw [he]
    refine ⟨hst, ?_⟩
    rcases hout with ⟨hacl, -⟩ | ⟨a, b, d, x, y, hn, -, -, -, hmove⟩
    · exact hacl ▸ ih.2
    · rcases hmove (.inl (hlist b hn.dest hn.normalDest)) with ⟨-, h⟩ | hm
      · exact hnone h
      · exact hm.wellFormed ih.2
  | @remove s user name _ ih =>
    obtain ⟨hst, -, h | h⟩ := exec_fsRm (s := s.as user) (ih.1.as user) name
    · exact ⟨hst, hnone h⟩
    · exact ⟨hst, h ▸ ih.2⟩

/-! ## Rights beside a rename -/

/-- The decision from a list of clean records. -/
theorem judge_records {acl : Option Name} {rs : List Record} (hacl : acl.getD [] = text rs) (hrs : ∀ r ∈ rs, r.Clean)
    (hlen : (text rs).length < aclCap) {ps : List Name} (hps : Normal ps) {user : Name} {mode : UInt8} :
    judge acl user (some (render ps)) mode =
      if user = root then true else if beneath (render ps) etc then false else verdict rs user ps mode := by
  cases acl with
  | none =>
    obtain rfl : rs = [] := by
      have := length_le_text rs
      rw [← hacl] at this
      simpa using this
    rfl
  | some data =>
    obtain rfl : data = text rs := hacl
    rw [← textAllows_text mode hps hrs, judge, cstr_text hrs, if_neg (Nat.not_le.2 hlen)]

theorem ListMove.judge_beside {a b : List Name} {acl acl' : Option Name} (h : ListMove a b acl acl') {ps : List Name}
    (hps : Normal ps) (ha : ¬ a <+: ps) (hb : ¬ b <+: ps) (user : Name) (mode : UInt8) :
    judge acl' user (some (render ps)) mode = judge acl user (some (render ps)) mode := by
  cases h with
  | same => rfl
  | guard h1 h2 h3 h4 => rw [judge_records rfl h3 h4 hps, judge_records rfl h1 h2 hps, verdict_copies_beside hb]
  | renamed h1 h2 h3 h4 => rw [judge_records rfl h3 h4 hps, judge_records rfl h1 h2 hps, verdict_renamed_beside ha hb]

/-- The file operations that change something. -/
inductive FileOp where
  | touch (name : Name)
  | mkdir (name : Name)
  | write (name : Name) (data : List UInt8)
  | append (name : Name) (data : List UInt8)
  | cp (source dest : Name)
  | rm (name : Name)
  | rmdir (name : Name)
  | cd (name : Name)
  | mv (source dest : Name)

namespace FileOp

def run : FileOp → StateM (Space Trees) Int
  | touch name => fsTouch name
  | mkdir name => fsMkdir name
  | write name data => fsWrite name data
  | append name data => fsAppend name data
  | cp source dest => fsCp source dest
  | rm name => fsRm name
  | rmdir name => fsRmdir name
  | cd name => fsCd name
  | mv source dest => fsMv source dest

/-- The rename, if the operation is one, carries no record to a separator. -/
def Clean (op : FileOp) (s : Space Trees) : Prop :=
  match op with
  | mv source dest => CleanMove s source dest
  | _ => True

/-- The absolute path `p` is not at or beneath `name`. -/
def besideName (p : Name) (s : Space Trees) (name : Name) : Bool :=
  match normalize [slash] p, normalize s.working name with
  | some path, some other => !beneath path other
  | _, _ => true

/-- `p` lies beside both names of the rename, if the operation is one. -/
def beside (p : Name) (op : FileOp) (s : Space Trees) : Bool :=
  match op with
  | mv source dest => besideName p s source && besideName p s dest
  | _ => true

end FileOp

def runAll : List FileOp → Space Trees → Space Trees
  | [], s => s
  | op :: ops, s => runAll ops (exec op.run s).2

/-- `P` holds of every operation of the run, in the state before it. -/
def Along (P : FileOp → Space Trees → Prop) : List FileOp → Space Trees → Prop
  | [], _ => True
  | op :: ops, s => P op s ∧ Along P ops (exec op.run s).2

instance decidableAlong (P : FileOp → Space Trees → Prop) [∀ op s, Decidable (P op s)] :
    ∀ ops s, Decidable (Along P ops s)
  | [], _ => inferInstanceAs (Decidable True)
  | _ :: ops, _ => @instDecidableAnd _ _ _ (decidableAlong P ops _)

theorem sealed_run {op : FileOp} (h : ∀ source dest, op ≠ .mv source dest) : Moves Sealed op.run := by
  cases op with
  | touch name => exact sealed_fsTouch name
  | mkdir name => exact sealed_fsMkdir name
  | write name data => exact sealed_fsWrite name data
  | append name data => exact sealed_fsAppend name data
  | cp source dest => exact sealed_fsCp source dest
  | rm name => exact sealed_fsRm name
  | rmdir name => exact sealed_fsRmdir name
  | cd name => exact sealed_fsCd name
  | mv source dest => exact absurd rfl (h source dest)

theorem not_prefix_of_besideName {p name : Name} {s : Space Trees} {ps a : List Name} (hp : normalize [slash] p = some (render ps))
    (hn : normalize s.working name = some (render a)) (hps : Normal ps) (ha : Normal a)
    (h : FileOp.besideName p s name = true) : ¬ a <+: ps := by
  simp only [FileOp.besideName, hp, hn, Bool.not_eq_true'] at h
  intro hpre
  rw [(beneath_render hps.1 ha.1).2 hpre] at h
  simp at h

/-- One operation of a user other than root. -/
theorem step_rights {s : Space Trees} (hs : Settled s) (hw : WellFormed s.acl) (hu : s.user ≠ root) {op : FileOp}
    (hc : op.Clean s) {p : Name} (hb : op.beside p s = true) :
    Settled (exec op.run s).2 ∧ WellFormed (exec op.run s).2.acl ∧ (exec op.run s).2.user = s.user ∧
      ∀ v mode, judge (exec op.run s).2.acl v (normalize [slash] p) mode = judge s.acl v (normalize [slash] p) mode := by
  by_cases hmv : ∃ source dest, op = .mv source dest
  swap
  · obtain ⟨hst, hus, hacl⟩ := (sealed_run (fun source dest h => hmv ⟨source, dest, h⟩) s).calm hs hu
    exact ⟨hst, hacl ▸ hw, hus, fun v mode => by rw [hacl]⟩
  obtain ⟨source, dest, rfl⟩ := hmv
  obtain ⟨r, t, he, hst, -, -, hus, hout⟩ := exec_fsMv_list hs hw hc
  have he : exec (FileOp.mv source dest).run s = (r, t) := he
  rw [he]
  rcases hout with ⟨hacl, -⟩ | ⟨a, b, d, x, y, hn, hmay, had, hbd, hmove⟩
  · exact ⟨hst, hacl ▸ hw, hus, fun v mode => by rw [hacl]⟩
  -- neither name is above the list
  have hout : ∀ {l : List Name} {e : List Name} {z : Name}, judge s.acl s.user (some (render l)) modeW = true → Normal l →
      l = e ++ [z] → ¬ l <+: accessParts := by
    intro l e z hj hl hne
    refine not_prefix_accessParts hl ?_ (by simp [hne])
    have hj : judge s.acl s.user (normalize s.working (render l)) modeW = true := by rwa [normalize_render _ hl]
    obtain ⟨ps, hps, hn, he⟩ := outside_of_judge hu hj
    rw [normalize_render _ hl] at hn
    rwa [Option.some.inj hn]
  have hlist : ListMove a b s.acl t.acl :=
    (hmove (.inl (hout hmay.2 hn.normalDest hbd))).resolve_left fun h => hout hmay.1 hn.normalSource had h.1
  refine ⟨hst, hlist.wellFormed hw, hus, fun v mode => ?_⟩
  cases hp : normalize [slash] p with
  | none => rfl
  | some path =>
    obtain ⟨ps, rfl, hps⟩ := normalize_spec hp
    simp only [FileOp.beside, Bool.and_eq_true] at hb
    exact hlist.judge_beside hps (not_prefix_of_besideName hp hn.source hps hn.normalSource hb.1)
      (not_prefix_of_besideName hp hn.dest hps hn.normalDest hb.2) v mode

theorem run_rights {s : Space Trees} (hs : Settled s) (hw : WellFormed s.acl) (hu : s.user ≠ root) {ops : List FileOp}
    (hc : Along FileOp.Clean ops s) {p : Name} (hb : Along (fun op s => op.beside p s = true) ops s) :
    Settled (runAll ops s) ∧
      ∀ v mode, judge (runAll ops s).acl v (normalize [slash] p) mode = judge s.acl v (normalize [slash] p) mode := by
  induction ops generalizing s with
  | nil => exact ⟨hs, fun _ _ => rfl⟩
  | cons op ops ih =>
    obtain ⟨hst, hwt, hut, hj⟩ := step_rights hs hw hu hc.1 hb.1
    obtain ⟨hfin, hj'⟩ := ih hst hwt (hut ▸ hu) hc.2 hb.2
    exact ⟨hfin, fun v mode => (hj' v mode).trans (hj v mode)⟩

/-- A volume with `/etc`, `/bin` and the home `/home/u`, which holds the files `a`
and `c`, before the namespace is active. -/
def sample : Space Trees where
  mounts _ := ⟨false, noDisk, []⟩
  working := [slash]
  active := false
  activeVolume := none
  user := root
  renamedAcl := []
  renameGuard := []
  renamedAclNeeded := false
  engine := {
    volumes := fun d => if d = ⟨2, 0, 2048, 1⟩ then some ⟨[([[101, 116, 99]], .dir), ([[98, 105, 110]], .dir),
      ([[104, 111, 109, 101]], .dir), ([[104, 111, 109, 101], [117]], .dir),
      ([[104, 111, 109, 101], [117], [97]], .file false []), ([[104, 111, 109, 101], [117], [99]], .file false [])]⟩ else none
    probe := fun _ _ d => (d, false)
    selected := ⟨2, 0, 2048, 1⟩
    mounted := true
    cwd := []
    refuses := fun _ => false
    clock := 0 }

theorem produced_sample : Produced (start sample) := .init (fun h => by simp [sample] at h) (by decide +kernel)

/-- `sample` after root has given `u` a record for `/home/u/a`. -/
def recorded : Space Trees :=
  (exec (setFilePermissions [47, 104, 111, 109, 101, 47, 117, 47, 97] [117, 61, 114, 119, 120] []) ((start sample).as root)).2

end Barnix.Acl
