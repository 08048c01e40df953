import Barnix.Acl.Locks
/-!
# What a change of rights keeps

`set_file_permissions` rewrites the whole access list. It keeps every line but
the record it replaces, as long as it has read the list: a list that does not
fit in the buffer counts as an empty one, and a zero byte ends what is read.
-/

namespace Barnix.Acl

open Vfs

/-! ## Lines -/

/-- The lines of a text; the last one may lack its newline. -/
def lines : Name → List Name
  | [] => []
  | c :: p =>
    if c = newline then [] :: lines p
    else
      match lines p with
      | [] => [[c]]
      | l :: ls => (c :: l) :: ls

def unlines (ls : List Name) : Name := ls.flatMap (· ++ [newline])

theorem lines_line {l : Name} (hl : newline ∉ l) (p : Name) : lines (l ++ newline :: p) = l :: lines p := by
  induction l with
  | nil => simp [lines]
  | cons c l ih =>
    have hc : c ≠ newline := by
      rintro rfl
      simp at hl
    have hl' : newline ∉ l := fun h => hl (by simp [h])
    rw [List.cons_append, lines, if_neg hc, ih hl']

theorem lines_last {l : Name} (hl : newline ∉ l) (hne : l ≠ []) : lines l = [l] := by
  induction l with
  | nil => exact absurd rfl hne
  | cons c l ih =>
    have hc : c ≠ newline := by
      rintro rfl
      simp at hl
    rw [lines, if_neg hc]
    by_cases h : l = []
    · simp [h, lines]
    · rw [ih (fun h => hl (by simp [h])) h]

/-- What starts without a newline starts the first line. -/
theorem lines_begin {part : Name} (hpart : newline ∉ part) {c : UInt8} (hc : c ≠ newline) (rest : Name) :
    ∃ x ls, lines (part ++ c :: rest) = (part ++ c :: x) :: ls := by
  induction part with
  | nil =>
    rw [List.nil_append, lines, if_neg hc]
    cases lines rest with
    | nil => exact ⟨[], [], rfl⟩
    | cons l ls => exact ⟨l, ls, rfl⟩
  | cons d part ih =>
    have hd : d ≠ newline := by
      rintro rfl
      simp at hpart
    obtain ⟨x, ls, h⟩ := ih fun h => hpart (by simp [h])
    exact ⟨x, ls, by rw [List.cons_append, lines, if_neg hd, h]; rfl⟩

theorem lines_unlines_append {ls : List Name} (h : ∀ l ∈ ls, newline ∉ l) (p : Name) :
    lines (unlines ls ++ p) = ls ++ lines p := by
  induction ls with
  | nil => rfl
  | cons l ls ih =>
    have hsplit : unlines (l :: ls) ++ p = l ++ newline :: (unlines ls ++ p) := by simp [unlines]
    rw [hsplit, lines_line (h l (by simp)), ih fun k hk => h k (by simp [hk]), List.cons_append]

/-- A text is some whole lines and a rest without a newline. -/
theorem exists_whole_lines (p : Name) :
    ∃ ls part, (∀ l ∈ ls, newline ∉ l) ∧ newline ∉ part ∧ p = unlines ls ++ part ∧ ls.length = p.count newline := by
  induction p with
  | nil => exact ⟨[], [], by simp, by simp, rfl, rfl⟩
  | cons c p ih =>
    obtain ⟨ls, part, hls, hpart, rfl, hlen⟩ := ih
    by_cases hc : c = newline
    · subst hc
      exact ⟨[] :: ls, part, by simpa using hls, hpart, by simp [unlines], by simp [hlen]⟩
    · have hcount : (c :: (unlines ls ++ part)).count newline = (unlines ls ++ part).count newline :=
        List.count_cons_of_ne (by simpa using hc)
      cases ls with
      | nil =>
        refine ⟨[], c :: part, by simp, ?_, by simp [unlines], by rw [hcount, ← hlen]⟩
        simp [hpart, Ne.symm hc]
      | cons l ls =>
        refine ⟨(c :: l) :: ls, part, ?_, hpart, by simp [unlines], by rw [hcount, ← hlen]; rfl⟩
        intro k hk
        rcases List.mem_cons.1 hk with rfl | hk
        · simpa [Ne.symm hc] using hls l (by simp)
        · exact hls k (by simp [hk])

theorem newline_notMem_lines {p l : Name} (h : l ∈ lines p) : newline ∉ l := by
  obtain ⟨ls, part, hls, hpart, rfl, -⟩ := exists_whole_lines p
  rw [lines_unlines_append hls] at h
  rcases List.mem_append.1 h with h | h
  · exact hls l h
  · by_cases hne : part = []
    · simp [hne, lines] at h
    · rw [lines_last hpart hne, List.mem_singleton] at h
      exact h ▸ hpart

theorem isPrefixOf_line {mark l : Name} (hm : newline ∉ mark) (p : Name) :
    mark.isPrefixOf (l ++ newline :: p) = mark.isPrefixOf l := by
  induction mark generalizing l with
  | nil => simp
  | cons c mark ih =>
    have hc : c ≠ newline := by
      rintro rfl
      simp at hm
    cases l with
    | nil => simp [List.isPrefixOf, hc]
    | cons d l => simp [List.isPrefixOf, ih fun h => hm (by simp [h])]

/-- The rewritten text has every line but the marked ones. -/
theorem keepLines_eq {mark : Name} (hm : newline ∉ mark) {rounds : Nat} (p : Name) (h : p.length ≤ rounds) :
    keepLines mark rounds p = unlines ((lines p).filter fun l => !mark.isPrefixOf l) := by
  induction rounds generalizing p with
  | zero =>
    obtain rfl : p = [] := List.length_eq_zero_iff.1 (Nat.le_zero.1 h)
    rfl
  | succ rounds ih =>
    unfold keepLines
    by_cases hp : p = []
    · simp [hp, lines, unlines]
    rw [if_neg hp]
    cases hd : p.dropWhile (fun c => decide (c ≠ newline)) with
    | nil =>
      -- the last line, without a newline
      have hno : newline ∉ p := fun hmem => by
        have := List.dropWhile_eq_nil_iff.1 hd newline hmem
        simp at this
      have htake : p.takeWhile (fun c => decide (c ≠ newline)) = p := by
        have := List.takeWhile_append_dropWhile (p := fun c => decide (c ≠ newline)) (l := p)
        rwa [hd, List.append_nil] at this
      rw [lines_last hno hp, htake, List.drop_nil, ih [] (Nat.zero_le _)]
      cases hmark : mark.isPrefixOf p <;> simp [hmark, lines, unlines]
    | cons c rest =>
      have hspan : p.span (fun c => decide (c ≠ newline)) = (p.takeWhile (fun c => decide (c ≠ newline)), c :: rest) := by
        rw [List.span_eq_takeWhile_dropWhile, hd]
      obtain ⟨heq, hline, hc⟩ := span_eq hspan
      obtain rfl : c = newline := by simpa using hc
      have hno : newline ∉ p.takeWhile (fun c => decide (c ≠ newline)) := fun hmem => by simpa using hline _ hmem
      generalize p.takeWhile (fun c => decide (c ≠ newline)) = l at heq hno
      subst heq
      have hlen : rest.length ≤ rounds := by
        simp only [List.length_append, List.length_cons] at h
        omega
      rw [lines_line hno, isPrefixOf_line hm, List.drop_one, List.tail_cons, ih rest hlen]
      cases hmark : mark.isPrefixOf l <;> simp [hmark, unlines]

/-! ## The rewritten list -/

/-- What a line of the record of `user` for `path` starts with. -/
def mark (path user : Name) : Name := path ++ [bar] ++ user ++ [bar]

theorem lines_newText {ps : List Name} {user rights lock data : Name} (hm : newline ∉ mark (render ps) user)
    (hr : newline ∉ rights) (hl : newline ∉ lock) :
    lines (newText ps user rights lock data) =
      (lines data).filter (fun l => !(mark (render ps) user).isPrefixOf l) ++
        [mark (render ps) user ++ rights ++ [bar] ++ lock] := by
  have hkept : ∀ l ∈ (lines data).filter (fun l => !(mark (render ps) user).isPrefixOf l), newline ∉ l :=
    fun l h => newline_notMem_lines (List.mem_filter.1 h).1
  have hsplit : newText ps user rights lock data =
      unlines ((lines data).filter fun l => !(mark (render ps) user).isPrefixOf l) ++
        ((mark (render ps) user ++ rights ++ [bar] ++ lock) ++ newline :: []) := by
    rw [newText, show render ps ++ [bar] ++ user ++ [bar] = mark (render ps) user from rfl,
      keepLines_eq hm _ (Nat.le_refl _)]
    simp [mark]
  have hlast : newline ∉ mark (render ps) user ++ rights ++ [bar] ++ lock := by
    simp only [List.mem_append, not_or, List.mem_singleton]
    exact ⟨⟨⟨hm, hr⟩, by decide⟩, hl⟩
  rw [hsplit, lines_unlines_append hkept, lines_line hlast]
  rfl

/-- The lines from the first zero byte on; they are not read. -/
def cutLines (data : Name) : List Name := if 0 ∈ data then (lines data).drop ((cstr data).count newline) else []

theorem cstr_of_notMem {data : Name} (h : 0 ∉ data) : cstr data = data := by
  unfold cstr
  apply List.takeWhile_eq_self_iff.2
  intro c hc
  rw [decide_eq_true_eq]
  rintro rfl
  exact h hc

/-- The kept lines survive exactly when all the lines that are not read are marked. -/
theorem kept_sublist_iff {m record data : Name} (h0 : 0 ∉ m) (hrecord : m.isPrefixOf record = true) :
    ((lines data).filter fun l => !m.isPrefixOf l).Sublist (((lines (cstr data)).filter fun l => !m.isPrefixOf l) ++ [record]) ↔
      ∀ l ∈ cutLines data, m.isPrefixOf l = true := by
  by_cases hnul : 0 ∈ data
  swap
  · rw [cstr_of_notMem hnul, cutLines, if_neg hnul]
    simp
  obtain ⟨rest, hdata⟩ : ∃ rest, data = cstr data ++ 0 :: rest := by
    cases hd : data.dropWhile (fun c => decide (c ≠ 0)) with
    | nil => exact absurd (List.dropWhile_eq_nil_iff.1 hd 0 hnul) (by simp)
    | cons c rest =>
      have hspan : data.span (fun c => decide (c ≠ 0)) = (cstr data, c :: rest) := by
        rw [List.span_eq_takeWhile_dropWhile, hd]
        rfl
      obtain ⟨heq, -, hc⟩ := span_eq hspan
      obtain rfl : c = 0 := by simpa using hc
      exact ⟨rest, heq⟩
  obtain ⟨ls, part, hls, hpart, hc, hlen⟩ := exists_whole_lines (cstr data)
  obtain ⟨x, more, hcut⟩ := lines_begin hpart (c := 0) (by decide) rest
  have hold : lines data = ls ++ (part ++ 0 :: x) :: more := by
    rw [hdata, hc, List.append_assoc, lines_unlines_append hls, hcut]
  have hcutLines : cutLines data = (part ++ 0 :: x) :: more := by
    rw [cutLines, if_pos hnul, hold, ← hlen, List.drop_left]
  rw [hcutLines, hold, hc, lines_unlines_append hls, List.filter_append, List.filter_append, List.append_assoc,
    List.append_sublist_append_left]
  constructor
  · intro hsub
    have hpartLine : ∀ l ∈ lines part, l = part := by
      intro l hl
      by_cases hne : part = []
      · simp [hne, lines] at hl
      · simpa [lines_last hpart hne] using hl
    -- the line with the zero byte is longer than what is read of it
    have hfirst : m.isPrefixOf (part ++ 0 :: x) = true := by
      by_contra hno
      have hmem := hsub.subset (List.mem_filter.2 ⟨List.mem_cons_self, by rwa [Bool.not_eq_true', Bool.eq_false_iff]⟩)
      rcases List.mem_append.1 hmem with h | h
      · have := congrArg List.length (hpartLine _ (List.mem_filter.1 h).1)
        simp at this
      · rw [List.mem_singleton.1 h] at hno
        exact hno hrecord
    have hread : m <+: part := by
      rcases List.prefix_or_prefix_of_prefix (List.isPrefixOf_iff_prefix.1 hfirst) (List.prefix_append part (0 :: x)) with h | h
      · exact h
      · obtain ⟨k, rfl⟩ := h
        cases k with
        | nil => simp
        | cons b k =>
          rw [List.isPrefixOf_iff_prefix, List.prefix_append_right_inj, List.cons_prefix_cons] at hfirst
          exact absurd (by simp [hfirst.1]) h0
    have hnone : (lines part).filter (fun l => !m.isPrefixOf l) = [] := by
      rw [List.filter_eq_nil_iff]
      intro l hl
      simpa [hpartLine l hl] using hread
    rw [hnone, List.nil_append] at hsub
    intro l hl
    by_contra hno
    have hmem := hsub.subset (List.mem_filter.2 ⟨hl, by rwa [Bool.not_eq_true', Bool.eq_false_iff]⟩)
    rw [List.mem_singleton.1 hmem] at hno
    exact hno hrecord
  · intro hall
    have hnone : ((part ++ 0 :: x) :: more).filter (fun l => !m.isPrefixOf l) = [] := by
      rw [List.filter_eq_nil_iff]
      intro l hl
      simp [hall l hl]
    rw [hnone]
    exact List.nil_sublist _

/-! ## The call -/

/-- Every line that is no record of this path and user is still there after a
successful call, in the same order; a list that cannot be read makes the call
fail and stays. -/
def KeepsLines (s : Space Trees) (name spec password : Name) : Prop :=
  ∀ old, (start s).acl = some old → ∀ r t, exec (setFilePermissions name spec password) s = (r, t) →
    (r = 0 → ∀ path, normalize (start s).working name = some path →
      ((lines old).filter fun l => !(mark path (spec.takeWhile (· ≠ 61))).isPrefixOf l).Sublist (lines (t.acl.getD []))) ∧
    (aclCap ≤ old.length → r ≠ 0 ∧ t.acl = some old)

/-- When the call gets to write, it has read the whole list: the list is shorter
than the buffer, and if the call will succeed, no other record stands behind a
zero byte. -/
def ReadWhole (s : Space Trees) (name spec password : Name) : Prop :=
  ∀ old ps user rights lock, s.acl = some old → Request s name spec password ps user rights lock →
    s.engine.refuses s.engine.clock = false →
    old.length < aclCap ∧ ((rights.contains modeX = true → s.engine.refuses (s.engine.clock + 1) = false) →
      ∀ l ∈ cutLines old, (mark (render ps) user).isPrefixOf l = true)

theorem exec_setFilePermissions_start (s : Space Trees) (name spec password : Name) :
    exec (setFilePermissions name spec password) s = exec (setFilePermissions name spec password) (start s) := by
  have hfirst : exec namespaceStart s = ((), start s) := rfl
  simp only [setFilePermissions, exec_bind, hfirst, exec_namespaceStart_start]

theorem Request.mark_noLine {s : Space Trees} {name spec password user rights lock : Name} {ps : List Name}
    (h : Request s name spec password ps user rights lock) : newline ∉ mark (render ps) user := by
  have huser : newline ∉ user := fun hu => (plain_of_validUser h.account _ hu).2.2 rfl
  simp only [mark, List.mem_append, not_or, List.mem_singleton]
  exact ⟨⟨⟨h.noLine, by decide⟩, huser⟩, by decide⟩

/-- A lock is found inside a line. -/
theorem newline_notMem_scanLock {path : Name} (rounds : Nat) (p : Name) {lock found : Name} {depth : Int}
    (hlock : newline ∉ lock) (h : scanLock path rounds p lock depth = some found) : newline ∉ found := by
  induction rounds generalizing p lock depth with
  | zero =>
    obtain rfl : lock = found := by simpa [scanLock] using h
    exact hlock
  | succ rounds ih =>
    have hsecret : ∀ q : Name, newline ∉ q.takeWhile (· ≠ newline) := by
      intro q hmem
      simpa using List.mem_takeWhile_imp hmem
    unfold scanLock at h
    split at h
    · obtain rfl : lock = found := by simpa using h
      exact hlock
    dsimp only at h
    -- whether the record has a third separator, then whether its lock is taken
    split at h
    · split at h
      · split at h
        · simp at h
        · exact ih _ (hsecret _) h
      · exact ih _ hlock h
    · split at h
      · split at h
        · simp at h
        · exact ih _ (by simp) h
      · exact ih _ hlock h

theorem Request.lock_noLine {s : Space Trees} {name spec password user rights lock : Name} {ps : List Name}
    (h : Request s name spec password ps user rights lock) : newline ∉ lock := by
  obtain ⟨old, hold, hlock⟩ := h.unlocked
  have hfound : newline ∉ old := newline_notMem_scanLock _ _ (by simp) hold
  unfold newLock at hlock
  split at hlock
  · split at hlock
    · exact Except.ok.inj hlock ▸ hfound
    split at hlock
    · simp at hlock
    · rw [← Except.ok.inj hlock]
      have hsalt := lockSalt_spec (render ps)
      exact fun hmem => ((lockText_passwordEncode password hsalt.1 hsalt.2).1 _ hmem).2 rfl
  split at hlock
  · simp at hlock
  by_cases hif : (if old ≠ [] then passwordMatches password old else beneath (render ps) (home s.user)) = true
  · rw [if_pos hif] at hlock
    exact Except.ok.inj hlock ▸ hfound
  · rw [if_neg hif] at hlock
    simp at hlock

theorem Request.rights_noLine {s : Space Trees} {name spec password user rights lock : Name} {ps : List Name}
    (h : Request s name spec password ps user rights lock) : newline ∉ rights :=
  fun hmem => (plain_rights h.modes.1 _ hmem).2.2 rfl

theorem Request.unique {s : Space Trees} {name spec password user rights lock user' rights' lock' : Name} {ps ps' : List Name}
    (h : Request s name spec password ps user rights lock) (h' : Request s name spec password ps' user' rights' lock') :
    ps = ps' ∧ user = user' ∧ rights = rights' := by
  refine ⟨render_inj h.normal.1 h'.normal.1 (Option.some.inj (h.name.symm.trans h'.name)), ?_, ?_⟩
  · rw [h.spec.2.1, h'.spec.2.1]
  · rw [h.spec.2.2, h'.spec.2.2]

/-- What a written list has of the old one. -/
theorem Request.kept_iff {s : Space Trees} {name spec password user rights lock old : Name} {ps : List Name}
    (h : Request s name spec password ps user rights lock) (h0 : 0 ∉ render ps) (hacl : s.acl = some old)
    (hlen : old.length < aclCap) :
    ((lines old).filter fun l => !(mark (render ps) user).isPrefixOf l).Sublist
        (lines (newText ps user rights lock (listText s))) ↔
      ∀ l ∈ cutLines old, (mark (render ps) user).isPrefixOf l = true := by
  have hlist : listText s = cstr old := by
    rw [listText, hacl, Option.bind_some, if_neg (Nat.not_le.2 hlen)]
    rfl
  have hmark : 0 ∉ mark (render ps) user := by
    have huser : 0 ∉ user := fun hu => (plain_of_validUser h.account _ hu).1 rfl
    simp only [mark, List.mem_append, not_or, List.mem_singleton]
    exact ⟨⟨⟨h0, by decide⟩, huser⟩, by decide⟩
  rw [hlist, lines_newText h.mark_noLine h.rights_noLine h.lock_noLine]
  apply kept_sublist_iff hmark
  rw [List.append_assoc, List.append_assoc, List.isPrefixOf_iff_prefix]
  exact List.prefix_append _ _

@[irreducible] def longText : Name := List.replicate 8192 97

theorem length_longText : longText.length = 8192 := by
  rw [longText, List.length_replicate]

/-- The volume of `sample` with an access list of 8192 bytes. -/
def overlong : Space Trees :=
  { sample with engine := { sample.engine with
      volumes := fun d => (sample.engine.volumes d).map fun t => t.put accessParts (.file false longText) } }

end Barnix.Acl
