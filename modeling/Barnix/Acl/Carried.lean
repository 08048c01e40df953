import Barnix.Acl.Runs
/-!
# What a rename carries along

After a rename inside a home, the rights and locks below the new name are those
that were below the old one, unless the list holds older records for the new
name.
-/

namespace Barnix.Acl

open Vfs

/-- The list has no record at or beneath the destination. -/
def FreshMove (s : Space Trees) (source dest : Name) : Prop :=
  ∀ a b data, Names s source dest a b → s.acl = some data → carriesRecord (render b) (cstr data) = false

/-- The lock that `set_file_permissions` finds for a path. -/
def lockAt (s : Space Trees) (path : Name) : Option Name :=
  lockOf path (cstr ((exec (privateRead accessCfg aclCap) s).1.getD []))

theorem lockAt_eq {s : Space Trees} (hs : Settled s) {rs : List Record} (hacl : s.acl.getD [] = text rs)
    (hrs : ∀ r ∈ rs, r.Clean) (hlen : (text rs).length < aclCap) {ps : List Name} (hps : Normal ps) :
    lockAt s (render ps) = some (lockFor rs ps) := by
  obtain ⟨t, -, hread⟩ := exec_privateRead hs normal_accessParts (normalize_accessCfg s.working) aclCap
  have hdata : (s.acl.bind fun d => if aclCap ≤ d.length then none else some d).getD [] = text rs := by
    cases h : s.acl with
    | none => simpa [h] using hacl
    | some d =>
      obtain rfl : d = text rs := by simpa [h] using hacl
      rw [Option.bind_some, if_neg (Nat.not_le.2 hlen), Option.getD_some]
  rw [lockAt, hread, ← Space.acl, hdata, cstr_text hrs, lockOf_text hps hrs]

theorem carriesRecord_text {b : List Name} (hb : Normal b) (hne : b ≠ []) {rs : List Record} (hrs : ∀ r ∈ rs, r.Clean) :
    carriesRecord (render b) (text rs) = rs.any fun r => b.isPrefixOf r.parts := by
  induction rs with
  | nil =>
    have hroot : render b ≠ [slash] := fun e => hne (render_inj hb.1 (by simp) e)
    have hempty : (render b).isPrefixOf [] = false := Bool.eq_false_iff.2 fun h =>
      render_ne_nil b (List.prefix_nil.1 (List.isPrefixOf_iff_prefix.1 h))
    rw [text_nil, carriesRecord_last (by simp)]
    simp [beneath, hroot, hempty]
  | cons r rs ih =>
    have hr := hrs r (by simp)
    have hline : newline ∉ r.path ++ bar :: r.fields := by
      intro h
      rcases List.mem_append.1 h with h | h
      · exact (hr.path _ h).2.2 rfl
      · rcases List.mem_cons.1 h with h | h
        · exact absurd h (by decide)
        · simpa using hr.fieldsNoLine _ h
    have htext : text (r :: rs) = (r.path ++ bar :: r.fields) ++ newline :: text rs := by
      rw [text_cons, Record.line_eq]
      simp
    have hbeneath : beneath r.path (render b) = b.isPrefixOf r.parts := by
      rw [Bool.eq_iff_iff, Record.path, beneath_render hr.normal.1 hb.1, List.isPrefixOf_iff_prefix]
    rw [htext, carriesRecord_cons hline, takeWhile_stop hr.path.noBar (by decide), hbeneath,
      ih fun q hq => hrs q (by simp [hq]), List.any_cons]

/-- The components of a home. -/
def homeParts (user : Name) : List Name := [[104, 111, 109, 101], user]

theorem home_eq (user : Name) : home user = render (homeParts user) := by
  simp [home, homes, homeParts, render, slash]

theorem validName_of_validUser {user : Name} (h : validUser user = true) : validName user = true := by
  have hslash : slash ∉ user := by
    intro hs
    simp only [validUser, Bool.and_eq_true, List.all_eq_true] at h
    exact absurd (h.2 _ hs) (by decide)
  have hdot : (46 : UInt8) ∉ user := by
    intro hs
    simp only [validUser, Bool.and_eq_true, List.all_eq_true] at h
    exact absurd (h.2 _ hs) (by decide)
  simp only [validUser, Bool.and_eq_true, decide_eq_true_eq] at h
  rw [validName_iff]
  refine ⟨h.1.1.1, h.1.2, hslash, ?_, ?_⟩ <;> rintro rfl <;> simp [dot, dotdot] at hdot

theorem valid_homeParts {user : Name} (h : validUser user = true) : ∀ c ∈ homeParts user, validName c = true := by
  intro c hc
  rcases List.mem_cons.1 hc with rfl | hc
  · decide
  · rw [List.mem_singleton.1 hc]
    exact validName_of_validUser h

/-- Inside one home, nobody's default rights depend on the rest of the path. -/
theorem defaultRight_home {u v : Name} (hv : validUser v = true) {ps qs : List Name} (hps : ∀ c ∈ ps, validName c = true)
    (hqs : ∀ c ∈ qs, validName c = true) (hp : homeParts u <+: ps) (hq : homeParts u <+: qs) (mode : UInt8) :
    defaultRight v (render ps) mode = defaultRight v (render qs) mode := by
  have key : ∀ {l : List Name}, (∀ c ∈ l, validName c = true) → homeParts u <+: l →
      defaultRight v (render l) mode = decide (u = v) := by
    intro l hl hh
    have hroot : render l ≠ [slash] := by
      intro e
      obtain rfl : l = [] := render_inj hl (by simp) e
      simpa [homeParts] using hh.length_le
    have hhomes : render l ≠ homes := by
      intro e
      have hone : l = [[104, 111, 109, 101]] := render_inj hl (by decide) e
      have := hh.length_le
      simp [hone, homeParts] at this
    have hbin : beneath (render l) bin = false := by
      rw [Bool.eq_false_iff]
      intro e
      have : [[98, 105, 110]] <+: l := (beneath_render (q := [[98, 105, 110]]) hl (by decide)).1 e
      obtain ⟨r, rfl⟩ := hh
      simp [homeParts] at this
    have hhome : beneath (render l) (home v) = decide (u = v) := by
      rw [home_eq, Bool.eq_iff_iff, beneath_render hl (valid_homeParts hv), decide_eq_true_eq]
      obtain ⟨r, rfl⟩ := hh
      constructor
      · intro h
        simpa [homeParts, eq_comm] using h
      · rintro rfl
        exact List.prefix_append _ _
    simp [defaultRight, hroot, hhomes, hbin, hhome]
  rw [key hps hp, key hqs hq]

theorem ListMove.carries {d t : List Name} {x y : Name} {acl acl' : Option Name}
    (h : ListMove (d ++ [x]) (d ++ [y]) acl acl') (hw : WellFormed acl) (hnb : Normal (d ++ [y]))
    (hfree : ∀ data, acl = some data → carriesRecord (render (d ++ [y])) (cstr data) = false)
    (hx : ∀ c ∈ d ++ [x] ++ t, validName c = true) (hy : ∀ c ∈ d ++ [y] ++ t, validName c = true) :
    ∃ rs qs, acl.getD [] = text rs ∧ (∀ r ∈ rs, r.Clean) ∧ (text rs).length < aclCap ∧ acl'.getD [] = text qs ∧
      (∀ r ∈ qs, r.Clean) ∧ (text qs).length < aclCap ∧ Carries rs qs d x y t := by
  have hnone : ∀ {rs : List Record}, (∀ r ∈ rs, r.Clean) → acl = some (text rs) → ∀ r ∈ rs, ¬ d ++ [y] <+: r.parts := by
    intro rs hrs hacl r hr hp
    have hc := hfree _ hacl
    rw [cstr_text hrs, carriesRecord_text hnb (by simp) hrs, List.any_eq_false] at hc
    exact hc r hr (List.isPrefixOf_iff_prefix.2 hp)
  cases h with
  | same hcopies =>
    obtain ⟨rs, hrs, hacl, hlen⟩ := hw.records
    refine ⟨rs, rs, hacl, hrs, hlen, hacl, hrs, hlen, ?_⟩
    cases acl with
    | none =>
      obtain rfl : rs = [] := by
        have := length_le_text rs
        rw [← hacl] at this
        simpa using this
      exact carries_renamed (by simp) hx hy
    | some data =>
      obtain rfl : data = text rs := hacl
      have := carries_renamed (hnone hrs rfl) hx hy
      rwa [renamed_of_copies_nil (hcopies rs rfl hlen hrs)] at this
  | @guard rs h1 h2 h3 h4 => exact ⟨rs, _, rfl, h1, h2, rfl, h3, h4, carries_copies (hnone h1 rfl) hx hy⟩
  | @renamed rs h1 h2 h3 h4 => exact ⟨rs, _, rfl, h1, h2, rfl, h3, h4, carries_renamed (hnone h1 rfl) hx hy⟩

/-- `recorded`, but the record is for `w` on `/home/u/c`, and `u` has removed that file. -/
def stale : Space Trees :=
  (exec (fsRm [47, 104, 111, 109, 101, 47, 117, 47, 99])
    ((exec (setFilePermissions [47, 104, 111, 109, 101, 47, 117, 47, 99] [119, 61, 114] []) ((start sample).as root)).2.as
      [117])).2

end Barnix.Acl
