import Barnix.Acl.Carried
import Barnix.Vfs.Removals
/-!
# Failed renames

A rename that fails after its guard was published leaves copies of the carried
records for the new name. They give nobody a right exactly when the rights they
state were held at the new name anyway.
-/

namespace Barnix.Acl

open Vfs

/-- A failed rename gives nobody a right. -/
def FailSafe (s : Space Trees) (source dest : Name) : Prop :=
  (exec (fsMv source dest) s).1 ≠ 0 →
    ∀ v p mode, allows (exec (fsMv source dest) s).2 v p mode = true → allows s v p mode = true

/-- Nothing stops the rename before its guard is published in place of `data`. -/
structure Published (s : Space Trees) (source dest : Name) (a b : List Name) (data : Name) : Prop where
  names : Names s source dest a b
  acl : s.acl = some data
  short : data.length < aclCap
  carried : carriesRecord (render a) (cstr data) = true
  may : MayMove s a b
  reaches : Reaches s source a b
  fits : ∀ rs, data = text rs → (∀ r ∈ rs, r.Clean) → Fits a b rs s.acl s.user 0 data.length

/-- Once the guard is out, the engine takes the rename, or the list is well
formed and every copied right is held already or never asked for. -/
def Contained (s : Space Trees) (source dest : Name) : Prop :=
  ∀ a b data, Published s source dest a b data → Takes s a b (s.engine.clock + 1) ∨
    ∃ rs : List Record, (∀ r ∈ rs, r.Clean) ∧ data = text rs ∧ Plain (render b) ∧
      (beneath (render b) etc = true ∨ Covered rs a b)

/-- The guard of a well-formed list. -/
theorem guard_records {s w : Space Trees} {a b : List Name} {rs : List Record} (hp : Prepared a b s w) (hnb : Normal b)
    (ha : a ≠ []) (hb : b ≠ []) (hacl : s.acl = some (text rs)) (hlen : (text rs).length < aclCap)
    (hrs : ∀ r ∈ rs, r.Clean) (hplain : Plain (render b)) (hneed : w.renamedAclNeeded = true) :
    w.renameGuard = text (rs ++ copies a b rs) ∧ (∀ r ∈ rs ++ copies a b rs, r.Clean) ∧
      (text (rs ++ copies a b rs)).length < aclCap := by
  obtain ⟨hfits, -, hguard, hcopies⟩ := hp.staged rs hacl hlen hrs ha hb
  have hne : copies a b rs ≠ [] := by
    intro hnil
    simp [hnil, hneed] at hcopies
  refine ⟨hguard, fun r hr => ?_, ?_⟩
  · rcases List.mem_append.1 hr with hr | hr
    · exact hrs r hr
    · exact clean_copies hrs ha hb hnb (fun _ => hplain) hfits.paths r hr
  · have := hfits.guard hne
    rw [text_append, List.length_append]
    omega

/-- Copies that are covered, or lie beneath `/etc`, widen no decision. -/
theorem judge_guard_le {rs : List Record} {a b : List Name} (hrs : ∀ r ∈ rs, r.Clean) (hlen : (text rs).length < aclCap)
    (hall : ∀ r ∈ rs ++ copies a b rs, r.Clean) (hlen' : (text (rs ++ copies a b rs)).length < aclCap)
    (h : beneath (render b) etc = true ∨ Covered rs a b) {user : Name} {path : Option Name} {mode : UInt8}
    (hpath : ∀ p, path = some p → ∃ ps, p = render ps ∧ Normal ps)
    (hj : judge (some (text (rs ++ copies a b rs))) user path mode = true) :
    judge (some (text rs)) user path mode = true := by
  by_cases hu : user = root
  · simp [judge, hu]
  cases path with
  | none => simp [judge, hu] at hj
  | some p =>
    obtain ⟨ps, rfl, hps⟩ := hpath p rfl
    rw [judge_records rfl hall hlen' hps, if_neg hu] at hj
    rw [judge_records rfl hrs hlen hps, if_neg hu]
    split at hj
    · simp at hj
    rename_i hetc
    rw [if_neg hetc]
    rcases h with h | h
    · -- a path outside `/etc` is not beneath `b`
      have hbp : ¬ b <+: ps := fun hp => hetc (beneath_mono hp h)
      rwa [verdict_copies_beside hbp] at hj
    · exact verdict_copies_le (fun r hr => (hrs r hr).normal) h hu hps hj

theorem Reaches.kept {s w : Space Trees} {source : Name} {a b : List Name} (h : Reaches w source a b) (hk : Kept s w) :
    Reaches s source a b := by
  obtain ⟨h1, ⟨v, p, x, y, tree, ⟨hx, hy⟩, htree, hentry⟩, h3⟩ := h
  rw [hk.mounts, hk.working] at h1
  rw [hk.mounts, hk.volumes] at htree
  rw [hk.refuses, hk.clock] at h3
  exact ⟨h1, ⟨v, p, x, y, tree, ⟨⟨hk.mounts ▸ hx.volume, hk.mounts ▸ hx.used, hk.mounts ▸ hx.split⟩,
    ⟨hk.mounts ▸ hy.volume, hk.mounts ▸ hy.used, hk.mounts ▸ hy.split⟩⟩, htree, hentry⟩, h3⟩

theorem takes_kept {s w : Space Trees} {a b : List Name} (hk : Kept s w) :
    Takes w a b (w.engine.clock + 1) ↔ Takes s a b (s.engine.clock + 1) := by
  rw [Takes, Takes, hk.node, hk.node, hk.refuses, hk.clock]

theorem failSafe_of_contained {s : Space Trees} (hs : Settled s) {source dest : Name} (hc : Contained s source dest) :
    FailSafe s source dest := by
  obtain ⟨r, t, he, hst, htm, htw, htu, -, hout⟩ := exec_fsMv hs source dest
  rw [FailSafe, he]
  intro hr v p mode
  rw [allows_eq (fun _ => hst), allows_eq (fun _ => hs), start_of_active hst.active, start_of_active hs.active]
  rw [htw]
  have hsame : t.engine.volumes = s.engine.volumes → t.acl = s.acl := fun hv => by
    rw [Space.acl, Space.file, node_congr htm hv, Space.acl, Space.file]
  rcases hout with ⟨-, hvol, -⟩ | ⟨a, b, w, hn, hmay, hk, hp, hout⟩
  · rw [hsame hvol]
    exact id
  cases hout with
  | refused _ hvol _ =>
    rw [hsame (hvol.trans hk.volumes)]
    exact id
  | renamed => exact absurd rfl hr
  | guarded d x y _ had hbd hneed hacl hreach hnot =>
    obtain ⟨data, hdata, hlen, hcarry⟩ := hp.carried hneed
    have ha : a ≠ [] := by simp [had]
    have hb : b ≠ [] := by simp [hbd]
    have hpub : Published s source dest a b data := by
      refine ⟨hn, hdata, hlen, hcarry, hmay, hreach.kept hk, ?_⟩
      rintro rs rfl hrs
      exact (hp.staged rs hdata hlen hrs ha hb).1
    rcases hc a b data hpub with htakes | ⟨rs, hrs, rfl, hplain, hcov⟩
    · exact absurd ((takes_kept hk).2 htakes) (hnot (by rw [hk.acl, hdata]; simp))
    · obtain ⟨hguard, hall, hlen'⟩ := guard_records hp hn.normalDest ha hb hdata hlen hrs hplain hneed
      rw [hacl, hguard, hdata]
      exact judge_guard_le hrs hlen hall hlen' hcov fun q hq => normalize_spec hq

theorem Reaches.ne_nil {s : Space Trees} {source : Name} {a b : List Name} (h : Reaches s source a b) : a ≠ [] ∧ b ≠ [] := by
  obtain ⟨v, p, x, y, tree, hsame, -⟩ := h.directory
  obtain ⟨ms, -, -, rfl⟩ := hsame.source.split
  obtain ⟨ms', -, -, rfl⟩ := hsame.dest.split
  exact ⟨by simp, by simp⟩

/-- Below a name outside `/etc`, every path is outside `/etc`. -/
theorem not_beneath_etc {b qs : List Name} (hb : Normal b) (hqs : Normal qs) (hne : b ≠ []) (h : beneath (render b) etc = false)
    (hp : b <+: qs) : beneath (render qs) etc = false := by
  rw [Bool.eq_false_iff]
  intro he
  have hetc : [[101, 116, 99]] <+: qs := (beneath_render (q := [[101, 116, 99]]) hqs.1 (by decide)).1 he
  have hbetc : [[101, 116, 99]] <+: b := by
    rcases List.prefix_or_prefix_of_prefix hp hetc with h' | h'
    · rcases List.prefix_concat_iff.1 (show b <+: [] ++ [[101, 116, 99]] from h') with rfl | hnil
      · exact List.prefix_rfl
      · exact absurd (List.prefix_nil.1 hnil) hne
    · exact h'
  rw [show etc = render [[101, 116, 99]] from rfl, (beneath_render hb.1 (by decide)).2 hbetc] at h
  simp at h

/-- For a well-formed list and a name without separators the condition is exact. -/
theorem contained_of_failSafe {s : Space Trees} (hs : Settled s) {source dest : Name} (hw : WellFormed s.acl)
    (hplain : ∀ b, normalize s.working dest = some (render b) → Plain (render b)) (hsafe : FailSafe s source dest) :
    Contained s source dest := by
  intro a b data hpub
  by_cases htakes : Takes s a b (s.engine.clock + 1)
  · exact .inl htakes
  right
  have hn := hpub.names
  have hacl := hpub.acl
  obtain ⟨ha, hb⟩ := hpub.reaches.ne_nil
  obtain ⟨rs, hrs, rfl, hlen⟩ := hw data hacl
  have hplain := hplain b hn.dest
  refine ⟨rs, hrs, rfl, hplain, ?_⟩
  obtain ⟨r, t, he, hst, htm, htw, htu, -, ⟨-, -, hfits⟩ | ⟨a', b', w, hn', hmay, hk, hp, hout⟩⟩ := exec_fsMv hs source dest
  · exact absurd (hpub.fits rs rfl hrs) (hfits a b rs hn hpub.may ha hb hacl hrs)
  obtain ⟨rfl, rfl⟩ := hn.unique hn'
  have hcopies : copies a b rs ≠ [] := by
    have hcarry := hpub.carried
    rw [cstr_text hrs, carriesRecord_text hn.normalSource ha hrs, List.any_eq_true] at hcarry
    obtain ⟨q, hq, hpre⟩ := hcarry
    obtain ⟨l, hl⟩ := List.isPrefixOf_iff_prefix.1 hpre
    exact List.ne_nil_of_mem (mem_copies.2 ⟨q, hq, l, hl.symm, rfl⟩)
  have hneed : w.renamedAclNeeded = true := by
    rw [(hp.staged rs hacl hlen hrs ha hb).2.2.2]
    simpa using hcopies
  obtain ⟨hguard, hall, hlen'⟩ := guard_records hp hn.normalDest ha hb hacl hlen hrs hplain hneed
  have hne : w.acl ≠ none := by simp [hk.acl, hacl]
  cases hout with
  | refused _ _ hnot =>
    exact absurd (hpub.reaches.kept (hk.symm hs)) (hnot hneed (hguard ▸ hlen') hne)
  | renamed _ _ _ _ _ htake _ => exact absurd ((takes_kept hk).1 (htake hneed hne)) htakes
  | guarded d x y hr had hbd _ htacl _ _ =>
    by_cases hetc : beneath (render b) etc = true
    · exact .inl hetc
    right
    rw [FailSafe, he] at hsafe
    have hcs : ∀ r ∈ copies a b rs, Normal r.parts := fun r hr => (hall r (by simp [hr])).normal
    have hcount : rs.length < 16383 := by
      have := length_le_text rs
      have hcap : aclCap = 8192 := rfl
      omega
    refine covered_of_verdict_le (fun r hr => (hrs r hr).normal) hcs hb hcount fun user qs mode hu hqs hpre hv => ?_
    have hout := not_beneath_etc hn.normalDest hqs hb (by simpa using hetc) hpre
    have hafter := hsafe hr user (render qs) mode
    rw [allows_eq (fun _ => hst), allows_eq (fun _ => hs), start_of_active hst.active, start_of_active hs.active,
      normalize_render _ hqs, normalize_render _ hqs, htacl, hguard, hacl, judge_records rfl hall hlen' hqs,
      judge_records rfl hrs hlen hqs, if_neg hu, if_neg hu, hout] at hafter
    exact hafter hv

/-- `sample` after root has given `w` a record for `/home/u/a`. -/
def granted : Space Trees :=
  (exec (setFilePermissions [47, 104, 111, 109, 101, 47, 117, 47, 97] [119, 61, 114] []) ((start sample).as root)).2

end Barnix.Acl
