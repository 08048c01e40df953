import Barnix.Acl.Moves
import Barnix.Vfs.Changes
/-!
# Renames and the access list

What `fs_mv` does to the access list: nothing, or it leaves the guard (the old
records and copies of the carried ones), or the renamed records.
-/

namespace Barnix.Acl

open Vfs

/-! ## Staging -/

/-- Some line of the text is a record at or beneath `src`. -/
def carriesRecord (src text : Name) : Bool :=
  (text.splitOn newline).any fun line => beneath (line.takeWhile (· ≠ bar)) src

theorem span_eq {p : UInt8 → Bool} {l field rest : Name} {c : UInt8} (h : l.span p = (field, c :: rest)) :
    l = field ++ c :: rest ∧ (∀ b ∈ field, p b = true) ∧ p c = false := by
  rw [List.span_eq_takeWhile_dropWhile] at h
  obtain ⟨h1, h2⟩ := Prod.mk.inj h
  refine ⟨by rw [← h1, ← h2, List.takeWhile_append_dropWhile], ?_, ?_⟩
  · rw [← h1]
    exact fun b hb => List.mem_takeWhile_imp hb
  · have := List.dropWhile_get_zero_not p l (by rw [h2]; simp)
    simpa [h2] using this

theorem carriesRecord_last {src line : Name} (h : newline ∉ line) :
    carriesRecord src line = beneath (line.takeWhile (· ≠ bar)) src := by
  simp [carriesRecord, List.splitOn_eq_singleton h]

theorem carriesRecord_cons {src line rest : Name} (h : newline ∉ line) :
    carriesRecord src (line ++ newline :: rest) =
      (beneath (line.takeWhile (· ≠ bar)) src || carriesRecord src rest) := by
  simp [carriesRecord, List.splitOn_append_cons_self_of_not_mem h]

/-- A text is one line, or a line and what follows it. -/
theorem line_cases (p : Name) :
    (newline ∉ p ∧ (p.dropWhile (· ≠ newline)).drop 1 = []) ∨
      (newline ∉ p.takeWhile (· ≠ newline) ∧
        p = p.takeWhile (· ≠ newline) ++ newline :: (p.dropWhile (· ≠ newline)).drop 1) := by
  have hno : newline ∉ p.takeWhile (· ≠ newline) := fun h => by simpa using List.mem_takeWhile_imp h
  cases hd : p.dropWhile (· ≠ newline) with
  | nil =>
    have hp : p.takeWhile (· ≠ newline) = p := by
      have := List.takeWhile_append_dropWhile (p := fun c => decide (c ≠ newline)) (l := p)
      rwa [hd, List.append_nil] at this
    exact .inl ⟨hp ▸ hno, rfl⟩
  | cons c rest =>
    have hspan : p.span (· ≠ newline) = (p.takeWhile (· ≠ newline), c :: rest) := by
      rw [List.span_eq_takeWhile_dropWhile, hd]
    obtain ⟨hp, -, hc⟩ := span_eq hspan
    obtain rfl : c = newline := by simpa using hc
    exact .inr ⟨hno, by simpa using hp⟩

theorem carriesRecord_step {src start p : Name} (hstart : ∀ b ∈ start, decide (b ≠ bar ∧ b ≠ newline) = true)
    (h : beneath start src = true ∨
      ((p.dropWhile (· ≠ newline)).drop 1 ≠ [] ∧ carriesRecord src ((p.dropWhile (· ≠ newline)).drop 1) = true)) :
    carriesRecord src (start ++ bar :: p) = true := by
  have hbar : ∀ b ∈ start, decide (b ≠ bar) = true := fun b hb => by
    have := hstart b hb
    simp only [decide_eq_true_eq] at this
    simpa using this.1
  have hline : newline ∉ start := fun hb => by simpa using hstart newline hb
  rcases line_cases p with ⟨hno, hnext⟩ | ⟨hno, hp⟩
  · rw [carriesRecord_last (by simp [hline, hno]; decide), takeWhile_stop hbar (by decide)]
    rcases h with h | ⟨h, -⟩
    · exact h
    · exact absurd hnext h
  · generalize (p.dropWhile (· ≠ newline)).drop 1 = next at *
    generalize p.takeWhile (· ≠ newline) = fields at *
    rw [hp, show start ++ bar :: (fields ++ newline :: next) = (start ++ bar :: fields) ++ newline :: next by simp,
      carriesRecord_cons (by simp [hline, hno]; decide), takeWhile_stop hbar (by decide), Bool.or_eq_true]
    exact h.imp_right (·.2)

/-- One round of the loop. -/
theorem exec_moveLoop_line {s : Space Trees} (src dst : Name) (rounds : Nat) {start fields next q : Name} (size : Nat)
    (hstart : ∀ b ∈ start, decide (b ≠ bar ∧ b ≠ newline) = true) (hf : q.takeWhile (· ≠ newline) = fields)
    (hn : (q.dropWhile (· ≠ newline)).drop 1 = next) :
    exec (moveLoop src dst (rounds + 1) (start ++ bar :: q) size) s =
      if beneath start src then
        match exec (checkPermission start modeW) s with
        | (ok, t) =>
          let moved := dst ++ start.drop src.length
          let line := moved ++ [bar] ++ fields ++ [newline]
          let guard := if t.renameGuard.length < size then t.renameGuard else t.renameGuard ++ line
          if !ok then (-13, t)
          else if pathCap ≤ moved.length then (-1, t)
          else if aclCap ≤ size + moved.length + fields.length + 3 then (-1, { t with renamedAclNeeded := true })
          else if aclCap ≤ t.renamedAcl.length + moved.length + fields.length + 3 then
            (-1, { t with renamedAclNeeded := true, renameGuard := guard })
          else exec (moveLoop src dst rounds next (size + line.length))
            { t with renamedAclNeeded := true, renameGuard := guard, renamedAcl := t.renamedAcl ++ line }
      else if aclCap ≤ s.renamedAcl.length + start.length + fields.length + 3 then (-1, s)
      else exec (moveLoop src dst rounds next size)
        { s with renamedAcl := s.renamedAcl ++ (start ++ [bar] ++ fields ++ [newline]) } := by
  subst hf hn
  rw [moveLoop, if_neg (by simp), span_stop hstart (by decide)]
  dsimp only
  rw [if_neg (by simp)]
  split
  · rw [exec_bind]
    obtain ⟨ok, t⟩ := exec (checkPermission start modeW) s
    dsimp only
    split
    · rfl
    split
    · rfl
    rw [exec_bind, exec_modify]
    split
    · rfl
    rw [exec_bind, exec_modify]
    simp only [exec_bind, exec_get]
    split
    · rename_i h
      exact congrArg (exec · _) (if_pos h)
    · rename_i h
      exact congrArg (exec · _) (if_neg h)
  · simp only [exec_bind, exec_get]
    split
    · rename_i h
      exact congrArg (exec · _) (if_pos h)
    · rename_i h
      exact congrArg (exec · _) (if_neg h)

/-- The loop stages texts and touches no file. -/
theorem exec_moveLoop {s : Space Trees} (hs : Settled s) (src dst : Name) (rounds : Nat) (p : Name) (size : Nat) :
    ∃ r t, exec (moveLoop src dst rounds p size) s = (r, t) ∧ Kept s t ∧
      (t.renamedAclNeeded = true → s.renamedAclNeeded = true ∨ p ≠ [] ∧ carriesRecord src p = true) := by
  induction rounds generalizing s p size with
  | zero => exact ⟨0, s, rfl, .refl hs, .inl⟩
  | succ rounds ih =>
    by_cases hp : p = []
    · exact ⟨0, s, by simp [moveLoop, hp], .refl hs, .inl⟩
    cases hsp : p.span (fun c => decide (c ≠ bar ∧ c ≠ newline)) with
    | mk start rest =>
    cases rest with
    | nil => exact ⟨-1, s, by rw [moveLoop, if_neg hp, hsp]; rfl, .refl hs, .inl⟩
    | cons c q =>
    by_cases hc : c = bar
    swap
    · refine ⟨-1, s, ?_, .refl hs, .inl⟩
      rw [moveLoop, if_neg hp, hsp]
      dsimp only
      rw [if_pos hc]
      rfl
    subst hc
    obtain ⟨rfl, hstart, -⟩ := span_eq hsp
    rw [exec_moveLoop_line src dst rounds size hstart rfl rfl]
    cases hb : beneath start src with
    | true =>
      have hcarry : start ++ bar :: q ≠ [] ∧ carriesRecord src (start ++ bar :: q) = true :=
        ⟨hp, carriesRecord_step hstart (.inl hb)⟩
      obtain ⟨t, ht, hcheck⟩ := exec_checkPermission hs start modeW
      rw [if_pos rfl, hcheck]
      dsimp only
      have hkept := ht.kept
      split
      · exact ⟨_, _, rfl, hkept, fun _ => .inr hcarry⟩
      split
      · exact ⟨_, _, rfl, hkept, fun _ => .inr hcarry⟩
      split
      · exact ⟨_, _, rfl, hkept.trans (ht.settled.stage _ _ _), fun _ => .inr hcarry⟩
      split
      · exact ⟨_, _, rfl, hkept.trans (ht.settled.stage _ _ _), fun _ => .inr hcarry⟩
      · have hstage := hkept.trans (ht.settled.stage (t.renamedAcl ++ (dst ++ start.drop src.length ++ [bar] ++
          q.takeWhile (· ≠ newline) ++ [newline])) (if t.renameGuard.length < size then t.renameGuard else t.renameGuard ++
            (dst ++ start.drop src.length ++ [bar] ++ q.takeWhile (· ≠ newline) ++ [newline])) true)
        obtain ⟨r, u, he, hu, -⟩ := ih hstage.settled ((q.dropWhile (· ≠ newline)).drop 1)
          (size + (dst ++ start.drop src.length ++ [bar] ++ q.takeWhile (· ≠ newline) ++ [newline]).length)
        exact ⟨r, u, he, hstage.trans hu, fun _ => .inr hcarry⟩
    | false =>
      rw [if_neg (by simp)]
      split
      · exact ⟨_, _, rfl, .refl hs, .inl⟩
      · have hstage := hs.stage (s.renamedAcl ++ (start ++ [bar] ++ q.takeWhile (· ≠ newline) ++ [newline])) s.renameGuard
          s.renamedAclNeeded
        obtain ⟨r, u, he, hu, hneed⟩ := ih hstage.settled ((q.dropWhile (· ≠ newline)).drop 1) size
        refine ⟨r, u, he, hstage.trans hu, fun h => ?_⟩
        rcases hneed h with h | h
        · exact .inl h
        · exact .inr ⟨hp, carriesRecord_step hstart (.inr h)⟩

/-- The fields of a record after its path. -/
def Record.fields (r : Record) : Name := r.user ++ [bar] ++ r.rights ++ [bar] ++ r.lock

theorem Record.line_eq (r : Record) : r.line = r.path ++ [bar] ++ r.fields ++ [newline] := by
  simp [Record.line, Record.fields]

theorem Record.Clean.fieldsNoLine {r : Record} (h : r.Clean) : ∀ b ∈ r.fields, decide (b ≠ newline) = true := by
  intro b hb
  simp only [Record.fields, List.mem_append, List.mem_singleton] at hb
  rcases hb with (((hb | rfl) | hb) | rfl) | hb
  · exact h.user.noLine b hb
  · decide
  · exact h.rights.noLine b hb
  · decide
  · exact h.lockField b hb

theorem path_movedTo {a b : List Name} {r : Record} (ha : a ≠ []) (hb : b ≠ []) (h : a <+: r.parts) :
    (r.movedTo a b).path = render b ++ r.path.drop (render a).length := by
  obtain ⟨t, ht⟩ := h
  rw [movedTo_below ht.symm, Record.path, Record.path, ← ht, render_append hb, render_append ha, List.drop_left]

@[simp] theorem fields_movedTo {a b : List Name} (r : Record) : (r.movedTo a b).fields = r.fields := by
  simp [Record.fields]

/-- What is staged for a list of clean records. -/
structure StagedText (a b : List Name) (rs : List Record) (s t : Space Trees) : Prop where
  acl : t.renamedAcl = s.renamedAcl ++ text (renamed a b rs)
  guard : t.renameGuard = s.renameGuard ++ text (copies a b rs)
  needed : t.renamedAclNeeded = (s.renamedAclNeeded || !(copies a b rs).isEmpty)

/-- The rename of `a` to `b` may be staged: the user may write every carried
record's path, and the new records fit behind what is staged already. -/
structure Fits (a b : List Name) (rs : List Record) (acl : Option Name) (user : Name) (done guarded : Nat) : Prop where
  writable : ∀ r ∈ rs, a <+: r.parts → judge acl user (some r.path) modeW = true
  paths : ∀ r ∈ copies a b rs, r.path.length < pathCap
  acl : done + (text (renamed a b rs)).length + 1 < aclCap
  guard : copies a b rs ≠ [] → guarded + (text (copies a b rs)).length + 1 < aclCap

section
variable {a b : List Name} {r : Record} {rs : List Record}

theorem copies_cons_below (h : a <+: r.parts) : copies a b (r :: rs) = r.movedTo a b :: copies a b rs := by
  simp only [copies, List.filter_cons, List.isPrefixOf_iff_prefix.2 h, if_true, List.map_cons]

theorem copies_cons_beside (h : ¬ a <+: r.parts) : copies a b (r :: rs) = copies a b rs := by
  have : a.isPrefixOf r.parts = false := Bool.eq_false_iff.2 fun e => h (List.isPrefixOf_iff_prefix.1 e)
  simp only [copies, List.filter_cons, this, Bool.false_eq_true, if_false]

theorem length_line_movedTo (r : Record) :
    (r.movedTo a b).line.length = (r.movedTo a b).path.length + r.fields.length + 2 := by
  rw [Record.line_eq, fields_movedTo]
  simp only [List.length_append, List.length_singleton]
  omega

variable {acl : Option Name} {user : Name} {done guarded : Nat}

/-- A carried record in front. -/
theorem fits_cons_below (h : a <+: r.parts) :
    Fits a b (r :: rs) acl user done guarded ↔
      judge acl user (some r.path) modeW = true ∧ (r.movedTo a b).path.length < pathCap ∧
        guarded + (r.movedTo a b).path.length + r.fields.length + 3 < aclCap ∧
        done + (r.movedTo a b).path.length + r.fields.length + 3 < aclCap ∧
        Fits a b rs acl user (done + (r.movedTo a b).line.length) (guarded + (r.movedTo a b).line.length) := by
  have hlen := length_line_movedTo (a := a) (b := b) r
  constructor
  · rintro ⟨h1, h2, h3, h4⟩
    rw [copies_cons_below h] at h2 h4
    have h4 := h4 (by simp)
    simp only [renamed, List.map_cons, text_cons, List.length_append] at h3 h4
    refine ⟨h1 r (by simp) h, h2 _ (by simp), by omega, by omega, fun q hq => h1 q (by simp [hq]),
      fun q hq => h2 q (by simp [hq]), ?_, fun _ => by omega⟩
    rw [renamed]
    omega
  · rintro ⟨h1, h2, h3, h4, h5, h6, h7, h8⟩
    refine ⟨?_, ?_, ?_, fun _ => ?_⟩
    · intro q hq hp
      rcases List.mem_cons.1 hq with rfl | hq
      · exact h1
      · exact h5 q hq hp
    · rw [copies_cons_below h]
      intro q hq
      rcases List.mem_cons.1 hq with rfl | hq
      · exact h2
      · exact h6 q hq
    · simp only [renamed, List.map_cons, text_cons, List.length_append] at h7 ⊢
      omega
    · rw [copies_cons_below h, text_cons, List.length_append]
      by_cases hne : copies a b rs = []
      · rw [hne, text_nil, List.length_nil]
        omega
      · have := h8 hne
        omega

/-- Another record in front. -/
theorem fits_cons_beside (h : ¬ a <+: r.parts) :
    Fits a b (r :: rs) acl user done guarded ↔
      done + r.path.length + r.fields.length + 3 < aclCap ∧ Fits a b rs acl user (done + r.line.length) guarded := by
  have hmoved : r.movedTo a b = r := movedTo_beside h
  have hlen := length_line_movedTo (a := a) (b := b) r
  rw [hmoved] at hlen
  constructor
  · rintro ⟨h1, h2, h3, h4⟩
    rw [copies_cons_beside h] at h2 h4
    simp only [renamed, List.map_cons, text_cons, List.length_append, hmoved] at h3
    refine ⟨by omega, fun q hq => h1 q (by simp [hq]), h2, ?_, h4⟩
    rw [renamed]
    omega
  · rintro ⟨h1, h2, h3, h4, h5⟩
    refine ⟨?_, by rw [copies_cons_beside h]; exact h3, ?_, by rw [copies_cons_beside h]; exact h5⟩
    · intro q hq hp
      rcases List.mem_cons.1 hq with rfl | hq
      · exact absurd hp h
      · exact h2 q hq hp
    · simp only [renamed, List.map_cons, text_cons, List.length_append, hmoved] at h4 ⊢
      omega

end

theorem exec_moveLoop_text {s : Space Trees} (hs : Settled s) {a b : List Name} (hna : Normal a)
    (ha : a ≠ []) (hb : b ≠ []) {rs : List Record} (h : ∀ r ∈ rs, r.Clean) {rounds : Nat} (hn : rs.length ≤ rounds)
    (hroom : s.renamedAcl.length + 1 < aclCap) :
    ∃ r t, exec (moveLoop (render a) (render b) rounds (text rs) s.renameGuard.length) s = (r, t) ∧ Kept s t ∧
      (r = 0 ↔ Fits a b rs s.acl s.user s.renamedAcl.length s.renameGuard.length) ∧ (r = 0 → StagedText a b rs s t) := by
  induction rs generalizing s rounds with
  | nil =>
    refine ⟨0, s, ?_, .refl hs, ⟨fun _ => ⟨by simp, by simp [copies], by simpa [renamed] using hroom, by simp [copies]⟩,
      fun _ => rfl⟩, fun _ => ⟨by simp [renamed], by simp [copies], by simp [copies]⟩⟩
    cases rounds <;> simp [moveLoop]
  | cons r rs ih =>
    obtain ⟨rounds, rfl⟩ : ∃ k, rounds = k + 1 := ⟨rounds - 1, by simp at hn; omega⟩
    have hr := h r (by simp)
    have hrest : ∀ q ∈ rs, q.Clean := fun q hq => h q (by simp [hq])
    have hn' : rs.length ≤ rounds := by simpa using hn
    have htext : text (r :: rs) = r.path ++ bar :: (r.fields ++ newline :: text rs) := by
      rw [text_cons, Record.line_eq]
      simp
    have hnext : ((r.fields ++ newline :: text rs).dropWhile (· ≠ newline)).drop 1 = text rs := by
      rw [dropWhile_stop hr.fieldsNoLine (by decide), List.drop_one, List.tail_cons]
    rw [htext, exec_moveLoop_line _ _ rounds _ hr.path.field (takeWhile_stop hr.fieldsNoLine (by decide)) hnext]
    have hbeneath : beneath r.path (render a) = a.isPrefixOf r.parts := by
      rw [Bool.eq_iff_iff, Record.path, beneath_render hr.normal.1 hna.1, List.isPrefixOf_iff_prefix]
    rw [hbeneath]
    have hlen := length_line_movedTo (a := a) (b := b) r
    by_cases hpre : a <+: r.parts
    · obtain ⟨t, ht, hcheck⟩ := exec_checkPermission hs r.path modeW
      rw [show normalize s.working r.path = some r.path from normalize_render _ hr.normal] at hcheck
      have hkept := ht.kept
      have hsame : t.renamedAcl = s.renamedAcl ∧ t.renameGuard = s.renameGuard ∧
          t.renamedAclNeeded = s.renamedAclNeeded := ht.frame.staged
      have hmoved := path_movedTo ha hb hpre
      have hline : (r.movedTo a b).path ++ [bar] ++ r.fields ++ [newline] = (r.movedTo a b).line := by
        rw [Record.line_eq, fields_movedTo]
      rw [if_pos (List.isPrefixOf_iff_prefix.2 hpre), hcheck, ← hmoved]
      dsimp only
      rw [hsame.1, hsame.2.1, if_neg (Nat.lt_irrefl _), hline]
      have hstage := hkept.trans
        (ht.settled.stage (s.renamedAcl ++ (r.movedTo a b).line) (s.renameGuard ++ (r.movedTo a b).line) true)
      have hfits : Fits a b (r :: rs) s.acl s.user s.renamedAcl.length s.renameGuard.length ↔ _ := fits_cons_below hpre
      split
      · rename_i hj
        exact ⟨_, _, rfl, hkept, by simp [hfits, Bool.not_eq_true' _ ▸ hj], by simp⟩
      split
      · exact ⟨_, _, rfl, hkept, by simp [hfits]; omega, by simp⟩
      split
      · exact ⟨_, _, rfl, hkept.trans (ht.settled.stage _ _ _), by simp [hfits]; omega, by simp⟩
      split
      · exact ⟨_, _, rfl, hkept.trans (ht.settled.stage _ _ _), by simp [hfits]; omega, by simp⟩
      rename_i hj hpath hguard hacl
      obtain ⟨res, u, he, hu, hiff, hstaged⟩ := ih hstage.settled hrest hn' (by simp only [List.length_append]; omega)
      refine ⟨res, u, by rw [← he, ← List.length_append], hstage.trans hu, ?_, fun h0 => ?_⟩
      · rw [hiff, hfits, hstage.acl, hstage.user]
        simp only [List.length_append]
        exact ⟨fun e => ⟨by simpa using hj, by omega, by omega, by omega, e⟩, fun e => e.2.2.2.2⟩
      · obtain ⟨h1, h2, h3⟩ := hstaged h0
        have hcopies : copies a b (r :: rs) = _ := copies_cons_below hpre
        exact ⟨by simp [h1, renamed], by simp [h2, hcopies], by simp [h3, hcopies]⟩
    · rw [if_neg (by simpa using hpre)]
      rw [← Record.line_eq]
      have hmoved : r.movedTo a b = r := movedTo_beside hpre
      rw [hmoved] at hlen
      have hstage := hs.stage (s.renamedAcl ++ r.line) s.renameGuard s.renamedAclNeeded
      have hfits : Fits a b (r :: rs) s.acl s.user s.renamedAcl.length s.renameGuard.length ↔ _ := fits_cons_beside hpre
      split
      · exact ⟨_, _, rfl, .refl hs, by simp [hfits]; omega, by simp⟩
      rename_i hacl
      obtain ⟨res, u, he, hu, hiff, hstaged⟩ := ih hstage.settled hrest hn' (by simp only [List.length_append]; omega)
      refine ⟨res, u, he, hstage.trans hu, ?_, fun h0 => ?_⟩
      · rw [hiff, hfits, hstage.acl, hstage.user]
        simp only [List.length_append]
        exact ⟨fun e => ⟨by omega, e⟩, fun e => e.2⟩
      · obtain ⟨h1, h2, h3⟩ := hstaged h0
        have hcopies : copies a b (r :: rs) = _ := copies_cons_beside hpre
        exact ⟨by simp [h1, renamed, hmoved], by rw [hcopies]; exact h2, by rw [hcopies]; exact h3⟩

/-- The texts staged for a rename of `a` to `b`. -/
structure Prepared (a b : List Name) (s t : Space Trees) : Prop where
  carried : t.renamedAclNeeded = true →
    ∃ data, s.acl = some data ∧ data.length < aclCap ∧ carriesRecord (render a) (cstr data) = true
  staged : ∀ rs, s.acl = some (text rs) → (text rs).length < aclCap → (∀ r ∈ rs, r.Clean) → a ≠ [] → b ≠ [] →
    Fits a b rs s.acl s.user 0 (text rs).length ∧ t.renamedAcl = text (renamed a b rs) ∧
      t.renameGuard = text (rs ++ copies a b rs) ∧ t.renamedAclNeeded = !(copies a b rs).isEmpty

theorem exec_prepare {s : Space Trees} (hs : Settled s) (source dest : Name) :
    ∃ r t, exec (permissionsMovePrepare source dest) s = (r, t) ∧ Kept s t ∧
      (r = 0 → ∃ a b, Normal a ∧ Normal b ∧ normalize s.working source = some (render a) ∧
        normalize s.working dest = some (render b) ∧ Prepared a b s t) ∧
      (r ≠ 0 → ∀ a b rs, normalize s.working source = some (render a) → normalize s.working dest = some (render b) →
        Normal a → Normal b → a ≠ [] → b ≠ [] → s.acl = some (text rs) → (∀ r ∈ rs, r.Clean) →
        ¬ Fits a b rs s.acl s.user 0 (text rs).length) := by
  have hstage := hs.stage s.renamedAcl s.renameGuard false
  cases hsrc : normalize s.working source with
  | none => exact ⟨-1, _, by simp [permissionsMovePrepare, exec_namespaceStart hs, hsrc], hstage, by simp, by simp⟩
  | some src =>
  cases hdst : normalize s.working dest with
  | none => exact ⟨-1, _, by simp [permissionsMovePrepare, exec_namespaceStart hs, hsrc, hdst], hstage, by simp, by simp⟩
  | some dst =>
  obtain ⟨a, rfl, hna⟩ := normalize_spec hsrc
  obtain ⟨b, rfl, hnb⟩ := normalize_spec hdst
  obtain ⟨t, ht, hread⟩ := exec_privateRead hstage.settled normal_accessParts (normalize_accessCfg _) aclCap
  have hfile : ({ s with renamedAclNeeded := false } : Space Trees).file accessParts = s.acl := hstage.acl
  have hread : exec (privateRead accessCfg aclCap) { s with renamedAclNeeded := false } =
      (s.acl.bind fun d => if aclCap ≤ d.length then none else some d, t) := by rw [← hfile]; exact hread
  have hkept := hstage.trans ht.kept
  have hneed : t.renamedAclNeeded = false := ht.frame.staged.2.2
  cases hb : s.acl.bind fun d => if aclCap ≤ d.length then none else some d with
  | none =>
    have hprep : exec (permissionsMovePrepare source dest) s = (0, t) := by
      simp only [permissionsMovePrepare, exec_bind, exec_namespaceStart hs, exec_modify, exec_get, hsrc, hdst, hread, hb]
      rfl
    refine ⟨0, t, hprep, hkept, fun _ => ⟨a, b, hna, hnb, rfl, rfl, ⟨fun h => ?_, fun rs hrs hlen => ?_⟩⟩, by simp⟩
    · simp [hneed] at h
    · simp [hrs, Nat.not_le.2 hlen] at hb
  | some data =>
    have hprep : exec (permissionsMovePrepare source dest) s =
        exec (moveLoop (render a) (render b) (cstr data).length (cstr data) data.length)
          { t with renameGuard := cstr data, renamedAcl := [] } := by
      simp only [permissionsMovePrepare, exec_bind, exec_namespaceStart hs, exec_modify, exec_get, hsrc, hdst, hread, hb]
    obtain ⟨hacl, hlen⟩ : s.acl = some data ∧ data.length < aclCap := by
      cases hacl : s.acl with
      | none => simp [hacl] at hb
      | some d =>
        by_cases hd : aclCap ≤ d.length
        · simp [hacl, hd] at hb
        · obtain rfl : d = data := by simpa [hacl, hd] using hb
          exact ⟨rfl, Nat.lt_of_not_le hd⟩
    have hstart := hkept.trans (hkept.settled.stage [] (cstr data) t.renamedAclNeeded)
    obtain ⟨r, u, hloop, hu, hcarry⟩ := exec_moveLoop hstart.settled (render a) (render b) (cstr data).length
      (cstr data) data.length
    have htext : ∀ rs, data = text rs → (∀ r ∈ rs, r.Clean) → a ≠ [] → b ≠ [] →
        (r = 0 ↔ Fits a b rs s.acl s.user 0 (text rs).length) ∧
          (r = 0 → StagedText a b rs { t with renameGuard := text rs, renamedAcl := [] } u) := by
      rintro rs rfl hclean ha hb'
      rw [cstr_text hclean] at hloop hstart
      obtain ⟨r', u', hloop', -, hiff, hst⟩ :=
        exec_moveLoop_text hstart.settled hna ha hb' hclean (length_le_text rs) (by simp [aclCap])
      obtain ⟨rfl, rfl⟩ : r' = r ∧ u' = u := by
        have := hloop'.symm.trans hloop
        simpa using this
      rw [hstart.acl, hstart.user] at hiff
      exact ⟨hiff, hst⟩
    refine ⟨r, u, by rw [hprep]; exact hloop, hstart.trans hu, fun h0 => ⟨a, b, hna, hnb, rfl, rfl, ?_⟩, ?_⟩
    · refine ⟨fun hn => ⟨data, hacl, hlen, ?_⟩, fun rs hrs _ hclean ha hb' => ?_⟩
      · rcases hcarry hn with h | h
        · exact absurd h (by simp [hneed])
        · exact h.2
      · obtain ⟨hiff, hst⟩ := htext rs (by simpa [hacl] using hrs) hclean ha hb'
        obtain ⟨h1, h2, h3⟩ := hst h0
        exact ⟨hiff.1 h0, by simpa using h1, by simpa using h2, by simpa [hneed] using h3⟩
    · intro h0 a' b' rs ha' hb' hna' hnb' hne hne' hrs hclean
      obtain rfl := render_inj hna.1 hna'.1 (Option.some.inj ha')
      obtain rfl := render_inj hnb.1 hnb'.1 (Option.some.inj hb')
      exact fun hf => h0 ((htext rs (by simpa [hacl] using hrs) hclean hne hne').1.2 hf)

/-! ## Publishing and renaming -/

theorem exec_commit {s : Space Trees} (hs : Settled s) :
    ∃ r u, exec permissionsMoveCommit s = (r, u) ∧ Frame s u ∧
      ((r ≠ 0 ∧ u.engine.volumes = s.engine.volumes ∧
          (s.renameGuard.length < aclCap → s.acl ≠ none → s.engine.refuses s.engine.clock = true)) ∨
        (r = 0 ∧ s.renamedAclNeeded = false ∧ u = s) ∨
        (r = 0 ∧ s.renamedAclNeeded = true ∧ u.acl = some s.renameGuard ∧ u.engine.clock = s.engine.clock + 1 ∧
          s.engine.refuses s.engine.clock = false ∧ (∀ qs, Normal qs → qs ≠ accessParts → u.node qs = s.node qs) ∧ KeepsDirs s u)) := by
  cases hn : s.renamedAclNeeded with
  | false => exact ⟨0, s, by simp [permissionsMoveCommit, hn], (Steady.refl hs).frame, .inr (.inl ⟨rfl, rfl, rfl⟩)⟩
  | true =>
    have hcommit : exec permissionsMoveCommit s = exec (plainWrite accessCfg s.renameGuard) s := by
      simp [permissionsMoveCommit, hn]
    rw [hcommit]
    obtain ⟨u, hu, ⟨he, hvol, hwhy⟩ | ⟨he, hacl, hclock, hok, hnode, hdirs⟩⟩ := exec_plainWrite_access hs s.renameGuard
    · exact ⟨-1, u, he, hu, .inl ⟨by simp, hvol, hwhy⟩⟩
    · exact ⟨0, u, he, hu, .inr (.inr ⟨rfl, rfl, hacl, hclock, hok, hnode, hdirs⟩)⟩

theorem exec_finish {s : Space Trees} (hs : Settled s) :
    ∃ u, exec permissionsMoveFinish s = ((), u) ∧ Settled u ∧ u.mounts = s.mounts ∧ u.working = s.working ∧
      u.user = s.user ∧ (∀ qs, Normal qs → qs ≠ accessParts → u.node qs = s.node qs) ∧ (u.acl = s.acl ∨ s.renamedAclNeeded = true ∧ u.acl = some s.renamedAcl) := by
  cases hn : s.renamedAclNeeded with
  | false => exact ⟨s, by simp [permissionsMoveFinish, hn], hs, rfl, rfl, rfl, fun _ _ _ => rfl, .inl rfl⟩
  | true =>
    obtain ⟨u, hu, h⟩ := exec_plainWrite_access hs s.renamedAcl
    have hkept := hu.settled.stage u.renamedAcl u.renameGuard false
    refine ⟨{ u with renamedAclNeeded := false }, ?_, hkept.settled, hu.mounts, hu.working, hu.user,
      fun qs hqs hqa => ?_, ?_⟩
    · rcases h with ⟨he, -⟩ | ⟨he, -⟩ <;> simp [permissionsMoveFinish, hn, he]
    · rw [hkept.node]
      rcases h with ⟨-, hvol, -⟩ | ⟨-, -, -, -, hnode, -⟩
      · exact node_congr hu.mounts hvol qs
      · exact hnode qs hqs hqa
    · rcases h with ⟨-, hvol, -⟩ | ⟨-, hacl, -⟩
      · refine .inl (hkept.acl.trans ?_)
        rw [Space.acl, Space.file, node_congr hu.mounts hvol, Space.acl, Space.file]
      · exact .inr ⟨rfl, hkept.acl.trans hacl⟩

theorem Trees.renamed_eq {e : Trees} {src dst : Name} {tree : Tree} (h : e.renamed src dst = some tree) :
    tree = e.tree.move (e.cwd ++ [src]) (e.cwd ++ [dst]) := by
  rw [Trees.renamed] at h
  split at h
  · simpa using h.symm
  · simp at h

/-- Both names are in the same directory of volume `v`. -/
structure SameDir (s : Space Trees) (a b : List Name) (v : Fin 8) (p : List Name) (x y : Name) : Prop where
  source : Located s a v (p ++ [x])
  dest : Located s b v (p ++ [y])

/-- The engine takes the rename. -/
def Takes (s : Space Trees) (a b : List Name) (clock : Nat) : Prop :=
  (s.node a).isSome ∧ s.node b = none ∧ s.engine.refuses clock = false

/-- Apart from the access list, only what is at or below the two names is changed. -/
def Spares (a b : List Name) (s t : Space Trees) : Prop :=
  ∀ qs, Normal qs → ¬ a <+: qs → ¬ b <+: qs → qs ≠ accessParts → t.node qs = s.node qs

theorem Spares.of_volumes {a b : List Name} {s t : Space Trees} (hm : t.mounts = s.mounts)
    (hv : t.engine.volumes = s.engine.volumes) : Spares a b s t := fun qs _ _ _ _ => node_congr hm hv qs

theorem exec_renameEntry {s : Space Trees} (hs : Settled s) {source : Name} {a b p : List Name} {v : Fin 8} {x y : Name}
    (hna : Normal a) (hnb : Normal b) (hsrc : normalize s.working source = some (render a)) (hdir : SameDir s a b v p x y) :
    ∃ r t, exec (renameEntry source y) s = (r, t) ∧ Settled t ∧ t.mounts = s.mounts ∧ t.working = s.working ∧
      t.user = s.user ∧ Spares a b s t ∧
      ((r ≠ 0 ∧ t.engine.volumes = s.engine.volumes ∧
          ∀ old, s.engine.volumes (s.mounts v).disk = some old → old.Entry (p ++ [x]) p x →
            ¬ Takes s a b s.engine.clock) ∨
        (r = 0 ∧ Takes s a b s.engine.clock ∧ (¬ b <+: accessParts → a <+: accessParts ∧ t.acl = none ∨ t.acl = s.acl ∨
          s.renamedAclNeeded = true ∧ t.acl = some s.renamedAcl))) := by
  obtain ⟨t, hload, ⟨hr, hno⟩ | ⟨p', c', hentry, hr, hcwd⟩⟩ := exec_route_parent hs hna hsrc hdir.source
  · refine ⟨-1, t, by simp [renameEntry, hr], hload.settled, hload.toSteady.mounts, hload.toSteady.working,
      hload.toSteady.user, .of_volumes hload.toSteady.mounts hload.toSteady.volumes,
      .inl ⟨by simp, hload.toSteady.volumes, fun old hold he => ?_⟩⟩
    obtain rfl : old = t.engine.tree := by simpa [hold] using hload.tree
    exact absurd he (hno p x)
  obtain ⟨rfl, rfl⟩ : p' = p ∧ c' = x := by
    obtain ⟨h1, h2⟩ := List.append_inj' hentry.1 rfl
    exact ⟨h1.symm, (List.cons.inj h2).1.symm⟩
  have hrename : ∀ res u, exec (onEngine (modifyGet fun e : Trees => e.change (t.engine.renamed c' y))) t = (res, u) →
      exec (renameEntry source y) s = (res, if res = 0 then (exec permissionsMoveFinish u).2 else u) := by
    intro res u hu
    have hmv : exec (onEngine (Engine.extMv c' y)) t = (res, u) := hu
    simp only [renameEntry, exec_bind, hr, hmv]
    by_cases h0 : res = 0 <;> simp [h0]
  have hx : validName c' = true := hdir.source.valid hna c' (by simp)
  have hvalid := hdir.dest.valid hnb
  have hy : validName y = true := hvalid y (by simp)
  have hp : ∀ d ∈ p', validName d = true := fun d hd => hvalid d (by simp [hd])
  have hnodes : s.node a = t.engine.tree.get (p' ++ [c']) ∧ s.node b = t.engine.tree.get (p' ++ [y]) := by
    rw [hdir.source.node hload.tree, hdir.dest.node hload.tree]
    exact ⟨hentry.node hp hx, Tree.Entry.node ⟨rfl, hentry.2⟩ hp hy⟩
  obtain ⟨u, hu, ⟨he, hvol, hwhy⟩ | ⟨tree, hg, hok, he, hrep, -⟩⟩ := exec_extChange hload (t.engine.renamed c' y)
  · refine ⟨-1, u, by simpa using hrename _ _ he, hu.settled, hu.mounts, hu.working, hu.user,
      .of_volumes hu.mounts hvol, .inl ⟨by simp, hvol, fun _ _ _ ⟨htake, habsent, hok⟩ => ?_⟩⟩
    have hnone : t.engine.renamed c' y = none := hwhy.resolve_right (by simp [hok])
    rw [hnodes.1, hnodes.2] at *
    simp [Trees.renamed, hx, hy, hcwd, hentry.2.2, htake, habsent] at hnone
  · obtain ⟨w, hw, hws, hwm, hww, hwu, hothers, hacl⟩ := exec_finish hu.settled
    have hkeep : ∀ qs, Normal qs → (¬ a <+: qs ∨ volumeFor s.mounts (render qs) ≠ some v) → ¬ b <+: qs →
        u.node qs = s.node qs := by
      intro qs hqs ha hb
      refine hrep.node_eq hs hdir.source.used hload.tree hqs fun l hl q hq => ?_
      rw [Trees.renamed_eq hg, hcwd]
      have ha := ha.resolve_right fun h => h hl.volume
      exact Tree.get_move _ (hdir.source.not_prefix hl ha hq) (hdir.dest.not_prefix hl hb hq)
    refine ⟨0, w, by simpa [hw] using hrename _ _ he, hws, hwm.trans hu.mounts, hww.trans hu.working, hwu.trans hu.user,
      fun qs hqs ha hb hqa => (hothers qs hqs hqa).trans (hkeep qs hqs (.inl ha) hb), .inr ⟨rfl, ?_, fun hb => ?_⟩⟩
    · have hfacts := hg
      rw [Trees.renamed] at hfacts
      split at hfacts
      · rename_i hc
        rw [hcwd] at hc
        exact ⟨by rw [hnodes.1]; exact hc.2.2.2.1, by rw [hnodes.2]; exact hc.2.2.2.2, hok⟩
      · simp at hfacts
    rw [hu.staged.1, hu.staged.2.2] at hacl
    rcases hacl with hacl | hacl
    swap
    · exact .inr (.inr hacl)
    rw [hacl, Space.acl, Space.acl, Space.file, Space.file]
    by_cases ha : a <+: accessParts
    swap
    · exact .inr (.inl (by rw [hkeep _ normal_accessParts (.inl ha) hb]))
    by_cases hv : volumeFor s.mounts (render accessParts) = some v
    swap
    · exact .inr (.inl (by rw [hkeep _ normal_accessParts (.inr hv) hb]))
    -- the list itself is renamed
    obtain ⟨l, hl⟩ := hs.located normal_accessParts hv
    have hbelow : p' ++ [c'] <+: l := by
      obtain ⟨ms, hms, hm, hsplit⟩ := hdir.source.split
      obtain ⟨ms', hms', hm', hsplit'⟩ := hl.split
      obtain rfl := render_inj hms.1 hms'.1 (hm.symm.trans hm')
      rwa [hsplit, hsplit', List.prefix_append_right_inj] at ha
    have hne : l ≠ [] := by
      rintro rfl
      simpa using hbelow.length_le
    refine .inl ⟨ha, ?_⟩
    rw [hrep.node hs hdir.source.used hl, if_pos rfl, Trees.renamed_eq hg, hcwd]
    cases hf : Tree.follow _ [] l with
    | none => rfl
    | some q =>
      obtain rfl : q = l := by simpa using Tree.follow_eq (hl.valid normal_accessParts) hf
      rw [Option.bind_some, Tree.get_move_source _ hbelow hne (hdir.dest.not_prefix hl hb List.prefix_rfl)]
      rfl

/-- Nothing stops a staged rename before the engine is asked for it. -/
structure Reaches (s : Space Trees) (source : Name) (a b : List Name) : Prop where
  unprotected : protectsMount s.mounts s.working source = false
  directory : ∃ v p x y tree, SameDir s a b v p x y ∧ s.engine.volumes (s.mounts v).disk = some tree ∧
    tree.Entry (p ++ [x]) p x
  accepted : s.engine.refuses s.engine.clock = false

/-- What a rename leaves: the old files, or the guard because the engine did not
take the rename, or a renamed entry. -/
inductive Outcome (s : Space Trees) (source : Name) (a b : List Name) (t : Space Trees) : Int → Prop
  | refused {r : Int} : r ≠ 0 → t.engine.volumes = s.engine.volumes →
      (s.renamedAclNeeded = true → s.renameGuard.length < aclCap → s.acl ≠ none → ¬ Reaches s source a b) →
      Outcome s source a b t r
  | guarded {r : Int} (d : List Name) (x y : Name) : r ≠ 0 → a = d ++ [x] → b = d ++ [y] → s.renamedAclNeeded = true →
      t.acl = some s.renameGuard → Reaches s source a b → (s.acl ≠ none → ¬ Takes s a b (s.engine.clock + 1)) →
      Outcome s source a b t r
  | renamed (d : List Name) (x y : Name) : a = d ++ [x] → b = d ++ [y] →
      (s.renamedAclNeeded = true → s.acl ≠ none → Takes s a b (s.engine.clock + 1)) →
      (¬ b <+: accessParts → a <+: accessParts ∧ t.acl = none ∨ s.renamedAclNeeded = false ∧ t.acl = s.acl ∨
        s.renamedAclNeeded = true ∧ (t.acl = some s.renameGuard ∨ t.acl = some s.renamedAcl)) → Outcome s source a b t 0

/-- Publishing the guard does not change whether the engine takes the rename. -/
theorem takes_published {s u : Space Trees} {a b : List Name} (hna : Normal a) (hnb : Normal b) (hacl : s.acl ≠ none)
    (hu : u.acl ≠ none) (hframe : u.engine.refuses = s.engine.refuses) (hclock : u.engine.clock = s.engine.clock + 1)
    (hnode : ∀ qs, Normal qs → qs ≠ accessParts → u.node qs = s.node qs) :
    Takes u a b u.engine.clock ↔ Takes s a b (s.engine.clock + 1) := by
  have hsome : ∀ w : Space Trees, w.acl ≠ none → (w.node accessParts).isSome := by
    intro w hw
    rw [Space.acl, Space.file] at hw
    cases hn : w.node accessParts with
    | none => simp [hn, fileData] at hw
    | some n => rfl
  have hthere : ∀ w : Space Trees, w.acl ≠ none → w.node accessParts ≠ none := fun w hw =>
    Option.isSome_iff_ne_none.1 (hsome w hw)
  rw [Takes, Takes, hframe, hclock]
  by_cases ha : a = accessParts
  · by_cases hb : b = accessParts
    · simp [hb, hthere u hu, hthere s hacl]
    · simp [ha, hsome u hu, hsome s hacl, hnode b hnb hb]
  · by_cases hb : b = accessParts
    · simp [hb, hthere u hu, hthere s hacl]
    · rw [hnode a hna ha, hnode b hnb hb]

theorem exec_moveEntry {s : Space Trees} (hs : Settled s) {source dest : Name} {a b : List Name} (hna : Normal a)
    (hnb : Normal b) (hsrc : normalize s.working source = some (render a))
    (hdst : normalize s.working dest = some (render b)) :
    ∃ r t, exec (moveEntry source dest) s = (r, t) ∧ Settled t ∧ t.mounts = s.mounts ∧ t.working = s.working ∧
      t.user = s.user ∧ Spares a b s t ∧ Outcome s source a b t r := by
  cases hprot : protectsMount s.mounts s.working source with
  | true =>
    exact ⟨-1, s, by simp [moveEntry, hprot], hs, rfl, rfl, rfl, .of_volumes rfl rfl, .refused (by simp) rfl fun _ _ _ h => by
      simp [h.unprotected] at hprot⟩
  | false =>
  by_cases hvol : volumeFor s.mounts (render a) = volumeFor s.mounts (render b)
  swap
  · refine ⟨-1, s, by simp [moveEntry, hprot, hsrc, hdst, hvol], hs, rfl, rfl, rfl, .of_volumes rfl rfl,
      .refused (by simp) rfl fun _ _ _ h => ?_⟩
    obtain ⟨v, p, x, y, tree, hsame, -⟩ := h.directory
    exact hvol (hsame.source.volume.trans hsame.dest.volume.symm)
  cases hva : volumeFor s.mounts (render a) with
  | none =>
    refine ⟨-1, s, ?_, hs, rfl, rfl, rfl, .of_volumes rfl rfl, .refused (by simp) rfl fun _ _ _ h => ?_⟩
    · simp [moveEntry, hprot, hsrc, hdst, hvol, exec_route_none true hsrc hva]
    · obtain ⟨v, p, x, y, tree, hsame, -⟩ := h.directory
      simp [hsame.source.volume] at hva
  | some v =>
  obtain ⟨la, hla⟩ := hs.located hna hva
  obtain ⟨lb, hlb⟩ := hs.located hnb (hvol ▸ hva)
  -- the directory of a rename that reaches the engine is the one the routes find
  have hreach : Reaches s source a b → ∃ p x y tree, la = p ++ [x] ∧ lb = p ++ [y] ∧
      s.engine.volumes (s.mounts v).disk = some tree ∧ tree.Entry la p x ∧ tree.Entry lb p y := by
    rintro ⟨-, ⟨w, p, x, y, tree, hsame, htree, hentry⟩, -⟩
    obtain rfl : w = v := Option.some.inj (hsame.source.volume.symm.trans hla.volume)
    obtain rfl := hla.place hsame.source
    obtain rfl := hlb.place hsame.dest
    exact ⟨p, x, y, tree, rfl, rfl, htree, hentry, rfl, hentry.2⟩
  obtain ⟨t₁, ht₁, ⟨hr₁, hno⟩ | ⟨p, x, he₁, hr₁, hcwd₁⟩⟩ := exec_route_parent hs hna hsrc hla
  · refine ⟨-1, t₁, ?_, ht₁.settled, ht₁.toSteady.mounts, ht₁.toSteady.working, ht₁.toSteady.user,
      .of_volumes ht₁.toSteady.mounts ht₁.toSteady.volumes, .refused (by simp) ht₁.toSteady.volumes fun _ _ _ h => ?_⟩
    · simp [moveEntry, hprot, hsrc, hdst, hvol, hr₁]
    · obtain ⟨p, x, y, tree, -, -, htree, he, -⟩ := hreach h
      obtain rfl : t₁.engine.tree = tree := Option.some.inj (ht₁.tree.symm.trans htree)
      exact hno p x he
  have hk₁ := ht₁.toSteady.kept
  obtain ⟨t₂, ht₂, ⟨hr₂, hno⟩ | ⟨p', y, he₂, hr₂, hcwd₂⟩⟩ :=
    exec_route_parent ht₁.settled hnb (hk₁.working ▸ hdst) (hk₁.located hlb)
  · have hk := hk₁.trans ht₂.toSteady.kept
    refine ⟨-1, t₂, ?_, hk.settled, hk.mounts, hk.working, hk.user, .of_volumes hk.mounts hk.volumes,
      .refused (by simp) hk.volumes fun _ _ _ h => ?_⟩
    · simp [moveEntry, hprot, hsrc, hdst, hvol, hr₁, hr₂]
    · obtain ⟨p, x, y, tree, -, -, htree, -, he⟩ := hreach h
      have htree₂ := ht₂.tree
      rw [hk₁.volumes, hk₁.mounts] at htree₂
      obtain rfl : t₂.engine.tree = tree := Option.some.inj (htree₂.symm.trans htree)
      exact hno p y he
  have hk := hk₁.trans ht₂.toSteady.kept
  by_cases hpp : p' = p
  swap
  · refine ⟨-1, t₂, ?_, hk.settled, hk.mounts, hk.working, hk.user, .of_volumes hk.mounts hk.volumes,
      .refused (by simp) hk.volumes fun _ _ _ h => hpp ?_⟩
    · simp [moveEntry, hprot, hsrc, hdst, hvol, hr₁, hr₂, Engine.cwd, hcwd₁, hcwd₂, hpp]
    · obtain ⟨q, x, y, tree, -, -, -, hea, heb⟩ := hreach h
      rw [(List.append_inj' (he₂.1.symm.trans heb.1) rfl).1, (List.append_inj' (he₁.1.symm.trans hea.1) rfl).1]
  subst hpp
  obtain rfl := he₁.1
  obtain rfl := he₂.1
  have hentry : exec (moveEntry source dest) s =
      exec (permissionsMoveCommit >>= fun r => if r ≠ 0 then pure (-1) else renameEntry source y) t₂ := by
    simp [moveEntry, hprot, hsrc, hdst, hvol, hr₁, hr₂, Engine.cwd, hcwd₁, hcwd₂]
  have hstaged : t₂.renamedAcl = s.renamedAcl ∧ t₂.renameGuard = s.renameGuard ∧
      t₂.renamedAclNeeded = s.renamedAclNeeded := by
    obtain ⟨h1, h2, h3⟩ := ht₁.toSteady.frame.staged
    obtain ⟨h4, h5, h6⟩ := ht₂.toSteady.frame.staged
    exact ⟨h4.trans h1, h5.trans h2, h6.trans h3⟩
  have hparts : ∃ d, a = d ++ [x] ∧ b = d ++ [y] := by
    obtain ⟨ms, hms, hm, rfl⟩ := hla.split
    obtain ⟨ms', hms', hm', rfl⟩ := hlb.split
    obtain rfl := render_inj hms.1 hms'.1 (hm.symm.trans hm')
    exact ⟨ms ++ p', by simp, by simp⟩
  obtain ⟨d, had, hbd⟩ := hparts
  obtain ⟨rc, u, hcommit, hu, ⟨hrc, hvol', hwhy⟩ | ⟨rfl, hneed, rfl⟩ | ⟨rfl, hneed, hguard, hclock, hok, hnode, hdirs⟩⟩ :=
    exec_commit hk.settled
  · refine ⟨-1, u, ?_, hu.settled, hu.mounts.trans hk.mounts, hu.working.trans hk.working, hu.user.trans hk.user,
      .of_volumes (hu.mounts.trans hk.mounts) (hvol'.trans hk.volumes), .refused (by simp) (hvol'.trans hk.volumes) fun _ hlen hacl h => ?_⟩
    · rw [hentry]
      simp [hcommit, hrc]
    · have := hwhy (by rw [hstaged.2.1]; exact hlen) (by rw [hk.acl]; exact hacl)
      rw [hk.refuses, hk.clock, h.accepted] at this
      simp at this
  · obtain ⟨r, t, hren, hst, htm, htw, htu, hspare, ⟨hr0, htv, -⟩ | ⟨rfl, -, hacl⟩⟩ :=
      exec_renameEntry hk.settled hna hnb (hk.working ▸ hsrc) ⟨hk.located hla, hk.located hlb⟩
    all_goals have hspare : Spares a b s t := fun qs hqs ha hb hqa => (hspare qs hqs ha hb hqa).trans (hk.node qs)
    · refine ⟨r, t, ?_, hst, htm.trans hk.mounts, htw.trans hk.working, htu.trans hk.user,
        hspare, .refused hr0 (htv.trans hk.volumes) fun hn => ?_⟩
      · rw [hentry]
        simp [hcommit, hren]
      · simp [← hstaged.2.2, hneed] at hn
    · refine ⟨0, t, ?_, hst, htm.trans hk.mounts, htw.trans hk.working, htu.trans hk.user,
        hspare, .renamed d x y had hbd (fun hn => ?_) fun hb => ?_⟩
      · rw [hentry]
        simp [hcommit, hren]
      · simp [← hstaged.2.2, hneed] at hn
      · rcases hacl hb with h | h | ⟨h, -⟩
        · exact .inl h
        · exact .inr (.inl ⟨hstaged.2.2 ▸ hneed, h.trans hk.acl⟩)
        · simp [hneed] at h
  · have hsame : SameDir u a b v p' x y :=
      ⟨⟨hu.mounts ▸ (hk.located hla).volume, hu.mounts ▸ (hk.located hla).used, hu.mounts ▸ (hk.located hla).split⟩,
        ⟨hu.mounts ▸ (hk.located hlb).volume, hu.mounts ▸ (hk.located hlb).used, hu.mounts ▸ (hk.located hlb).split⟩⟩
    have hworking : u.working = s.working := hu.working.trans hk.working
    have hsame' : s.acl ≠ none → (Takes u a b u.engine.clock ↔ Takes s a b (s.engine.clock + 1)) := by
      intro hne
      rw [takes_published hna hnb (s := t₂) (by rw [hk.acl]; exact hne) (by simp [hguard]) hu.refuses hclock hnode,
        Takes, hk.node, hk.node, hk.refuses, hk.clock, Takes]
    obtain ⟨r, t, hren, hst, htm, htw, htu, hspare, ⟨hr0, htv, hnot⟩ | ⟨rfl, htakes, hacl⟩⟩ :=
      exec_renameEntry hu.settled hna hnb (hworking ▸ hsrc) hsame
    all_goals have hspare : Spares a b s t := fun qs hqs ha hb hqa =>
      (hspare qs hqs ha hb hqa).trans ((hnode qs hqs hqa).trans (hk.node qs))
    · refine ⟨r, t, ?_, hst, htm.trans (hu.mounts.trans hk.mounts), htw.trans hworking, htu.trans (hu.user.trans hk.user),
        hspare, .guarded d x y hr0 had hbd (hstaged.2.2 ▸ hneed) ?_ ?_ fun hne htakes => ?_⟩
      · rw [hentry]
        simp [hcommit, hren]
      · rw [Space.acl, Space.file, node_congr htm htv, ← hstaged.2.1]
        exact hguard
      · exact ⟨hprot, ⟨v, p', x, y, t₁.engine.tree, ⟨hla, hlb⟩, ht₁.tree, he₁⟩, by rw [← hk.refuses, ← hk.clock, hok]⟩
      · -- the directory that was there before the guard went out is still there
        obtain ⟨new, hnew, hkeep⟩ := hdirs v t₂.engine.tree (hk.located hla).used (by
          have := ht₂.tree
          rw [ht₂.toSteady.volumes, ht₂.toSteady.mounts]
          exact this)
        have htree : t₁.engine.tree = t₂.engine.tree := by
          have h1 := ht₁.tree
          have h2 := ht₂.tree
          rw [hk₁.volumes, hk₁.mounts] at h2
          exact Option.some.inj (h1.symm.trans h2)
        have hp : ∀ d ∈ p', validName d = true := fun d hd => hla.valid hna d (by simp [hd])
        refine hnot new (by rw [hu.mounts]; exact hnew) (hkeep _ _ _ hp (htree ▸ he₁)) ?_
        exact (hsame' hne).2 htakes
    · refine ⟨0, t, ?_, hst, htm.trans (hu.mounts.trans hk.mounts), htw.trans hworking, htu.trans (hu.user.trans hk.user),
        hspare, .renamed d x y had hbd (fun _ hne => (hsame' hne).1 htakes) fun hb => ?_⟩
      · rw [hentry]
        simp [hcommit, hren]
      · rw [hu.staged.1, hstaged.1] at hacl
        have hneed : s.renamedAclNeeded = true := hstaged.2.2 ▸ hneed
        rcases hacl hb with h | h | ⟨-, h⟩
        · exact .inl h
        · exact .inr (.inr ⟨hneed, .inl (by rw [h, hguard, hstaged.2.1])⟩)
        · exact .inr (.inr ⟨hneed, .inr h⟩)

/-- The normalized names of a rename. -/
structure Names (s : Space Trees) (source dest : Name) (a b : List Name) : Prop where
  source : normalize s.working source = some (render a)
  dest : normalize s.working dest = some (render b)
  normalSource : Normal a
  normalDest : Normal b

theorem Names.unique {s : Space Trees} {source dest : Name} {a b a' b' : List Name} (h : Names s source dest a b)
    (h' : Names s source dest a' b') : a = a' ∧ b = b' :=
  ⟨render_inj h.normalSource.1 h'.normalSource.1 (Option.some.inj (h.source.symm.trans h'.source)),
    render_inj h.normalDest.1 h'.normalDest.1 (Option.some.inj (h.dest.symm.trans h'.dest))⟩

/-- The user may write both names. -/
def MayMove (s : Space Trees) (a b : List Name) : Prop :=
  judge s.acl s.user (some (render a)) modeW = true ∧ judge s.acl s.user (some (render b)) modeW = true

/-- A rename that fails before anything is staged leaves every file alone; any
other one is staged in some state `w` first. -/
theorem exec_fsMv {s : Space Trees} (hs : Settled s) (source dest : Name) :
    ∃ r t, exec (fsMv source dest) s = (r, t) ∧ Settled t ∧ t.mounts = s.mounts ∧ t.working = s.working ∧
      t.user = s.user ∧ (∀ a b, Names s source dest a b → Spares a b s t) ∧
      ((r ≠ 0 ∧ t.engine.volumes = s.engine.volumes ∧
          ∀ a b rs, Names s source dest a b → MayMove s a b → a ≠ [] → b ≠ [] → s.acl = some (text rs) →
            (∀ r ∈ rs, r.Clean) → ¬ Fits a b rs s.acl s.user 0 (text rs).length) ∨
        ∃ a b w, Names s source dest a b ∧ MayMove s a b ∧ Kept s w ∧ Prepared a b s w ∧ Outcome w source a b t r) := by
  obtain ⟨t₁, ht₁, h₁⟩ := exec_checked hs source modeW (-13) (checked dest modeW (-13) do
    if (← permissionsMovePrepare source dest) ≠ 0 then return -13
    if !(← get).active then onEngine (Engine.extMv source dest)
    else moveEntry source dest : StateM (Space Trees) Int)
  have h₁ : exec (fsMv source dest) s = _ := h₁
  have hk₁ := ht₁.kept
  cases hj₁ : judge s.acl s.user (normalize s.working source) modeW with
  | false =>
    rw [hj₁] at h₁
    refine ⟨-13, t₁, h₁, hk₁.settled, hk₁.mounts, hk₁.working, hk₁.user,
      fun _ _ _ => .of_volumes hk₁.mounts hk₁.volumes, .inl ⟨by simp, hk₁.volumes, ?_⟩⟩
    intro a b rs hn hmay
    have := hmay.1
    simp [← hn.source, hj₁] at this
  | true =>
  rw [hj₁, if_pos rfl] at h₁
  obtain ⟨t₂, ht₂, h₂⟩ := exec_checked ht₁.settled dest modeW (-13) (do
    if (← permissionsMovePrepare source dest) ≠ 0 then return -13
    if !(← get).active then onEngine (Engine.extMv source dest)
    else moveEntry source dest : StateM (Space Trees) Int)
  rw [h₂, hk₁.acl, hk₁.user, hk₁.working] at h₁
  have hk₂ := hk₁.trans ht₂.kept
  cases hj₂ : judge s.acl s.user (normalize s.working dest) modeW with
  | false =>
    rw [hj₂] at h₁
    refine ⟨-13, t₂, h₁, hk₂.settled, hk₂.mounts, hk₂.working, hk₂.user,
      fun _ _ _ => .of_volumes hk₂.mounts hk₂.volumes, .inl ⟨by simp, hk₂.volumes, ?_⟩⟩
    intro a b rs hn hmay
    have := hmay.2
    simp [← hn.dest, hj₂] at this
  | true =>
  rw [hj₂, if_pos rfl] at h₁
  obtain ⟨r, w, hprep, hw, hgood, hbad⟩ := exec_prepare ht₂.settled source dest
  have hkw := hk₂.trans hw
  by_cases hr : r = 0
  swap
  · refine ⟨-13, w, ?_, hkw.settled, hkw.mounts, hkw.working, hkw.user,
      fun _ _ _ => .of_volumes hkw.mounts hkw.volumes, .inl ⟨by simp, hkw.volumes, ?_⟩⟩
    · rw [h₁]
      simp [hprep, hr]
    · intro a b rs hn hmay ha hb hacl hclean
      rw [hk₂.acl, hk₂.user, hk₂.working] at hbad
      exact hbad hr a b rs hn.source hn.dest hn.normalSource hn.normalDest ha hb hacl hclean
  · obtain ⟨a, b, hna, hnb, hsrc, hdst, hp⟩ := hgood hr
    rw [hk₂.working] at hsrc hdst
    obtain ⟨r', t, hmove, hst, htm, htw, htu, hspare, hout⟩ := exec_moveEntry hkw.settled hna hnb (hkw.working ▸ hsrc)
      (hkw.working ▸ hdst)
    refine ⟨r', t, ?_, hst, htm.trans hkw.mounts, htw.trans hkw.working, htu.trans hkw.user,
      fun a' b' hn => ?_, .inr ⟨a, b, w, ⟨hsrc, hdst, hna, hnb⟩, ⟨hsrc ▸ hj₁, hdst ▸ hj₂⟩, hkw, ⟨?_, ?_⟩, hout⟩⟩
    · rw [h₁]
      simp [hprep, hr, hkw.settled.active, hmove]
    · obtain ⟨rfl, rfl⟩ := hn.unique ⟨hsrc, hdst, hna, hnb⟩
      exact fun qs hqs ha hb hqa => (hspare qs hqs ha hb hqa).trans (hkw.node qs)
    · rw [← hk₂.acl]
      exact hp.carried
    · rw [← hk₂.acl, ← hk₂.user]
      exact hp.staged

end Barnix.Acl
