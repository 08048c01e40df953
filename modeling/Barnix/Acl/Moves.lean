import Barnix.Acl.Records
/-!
# Moving records

A rename of `a` to `b` rewrites the records at and below `a` for `b`; while it is
under way, copies of them follow the old records. This says what both lists
decide: nothing changes beside the two names, below `b` the moved records decide
as they did below `a`, and copies of rights that were held anyway grant nothing.
-/

namespace Barnix.Acl

open Vfs

/-- The record after a rename of `a` to `b`. -/
def Record.movedTo (a b : List Name) (r : Record) : Record :=
  if a.isPrefixOf r.parts then { r with parts := b ++ r.parts.drop a.length } else r

def renamed (a b : List Name) (rs : List Record) : List Record := rs.map (Record.movedTo a b)

def copies (a b : List Name) (rs : List Record) : List Record :=
  (rs.filter fun r => a.isPrefixOf r.parts).map (Record.movedTo a b)

variable {a b : List Name} {rs : List Record}

theorem movedTo_below {r : Record} {t : List Name} (h : r.parts = a ++ t) :
    r.movedTo a b = { r with parts := b ++ t } := by
  rw [Record.movedTo, if_pos (by simp [h]), h, List.drop_left]

theorem movedTo_beside {r : Record} (h : ¬ a <+: r.parts) : r.movedTo a b = r := by
  rw [Record.movedTo, if_neg (by simpa [List.isPrefixOf_iff_prefix] using h)]

@[simp] theorem movedTo_rights (r : Record) : (r.movedTo a b).rights = r.rights := by
  rw [Record.movedTo]; split <;> rfl

@[simp] theorem movedTo_user (r : Record) : (r.movedTo a b).user = r.user := by
  rw [Record.movedTo]; split <;> rfl

@[simp] theorem movedTo_lock (r : Record) : (r.movedTo a b).lock = r.lock := by
  rw [Record.movedTo]; split <;> rfl

theorem mem_copies {r : Record} : r ∈ copies a b rs ↔ ∃ q ∈ rs, ∃ t, q.parts = a ++ t ∧ r = { q with parts := b ++ t } := by
  simp only [copies, List.mem_map, List.mem_filter, List.isPrefixOf_iff_prefix]
  constructor
  · rintro ⟨q, ⟨hq, t, ht⟩, rfl⟩
    exact ⟨q, hq, t, ht.symm, movedTo_below ht.symm⟩
  · rintro ⟨q, hq, t, ht, rfl⟩
    exact ⟨q, ⟨hq, t, ht.symm⟩, movedTo_below ht⟩

/-! ## Beside the two names -/

/-- A question about `ps` that records answer whose path is above it. -/
def asks (κ : Record → Bool) (ps : List Name) (r : Record) : Bool := κ r && r.parts.isPrefixOf ps

theorem covers_asks (user : Name) (ps : List Name) : covers user ps = asks (fun r => r.user == user) ps := rfl

section
variable {κ : Record → Bool} {ps : List Name}

theorem asks_below_false (ha : ¬ a <+: ps) {r : Record} (h : a <+: r.parts) : asks κ ps r = false := by
  rw [asks, Bool.and_eq_false_iff]
  exact .inr (Bool.eq_false_iff.2 fun hp => ha (h.trans (List.isPrefixOf_iff_prefix.1 hp)))

theorem below_movedTo {r : Record} (h : a <+: r.parts) : b <+: (r.movedTo a b).parts := by
  obtain ⟨t, ht⟩ := h
  rw [movedTo_below ht.symm]
  exact List.prefix_append b t

theorem nearest_renamed_beside (ha : ¬ a <+: ps) (hb : ¬ b <+: ps) :
    nearest Record.depth (asks κ ps) (renamed a b rs) = nearest Record.depth (asks κ ps) rs := by
  have hfix : ∀ r ∈ rs, asks κ ps r = true → r.movedTo a b = r := by
    intro r _ hr
    refine movedTo_beside fun h => ?_
    rw [asks_below_false ha h] at hr
    simp at hr
  rw [renamed, nearest_map Record.depth (c := asks κ ps)]
  · cases hn : nearest Record.depth (asks κ ps) rs with
    | none => rfl
    | some r =>
      obtain ⟨hr, hc, -⟩ := nearest_spec hn
      rw [Option.map_some, hfix r hr hc]
  · intro r hr
    by_cases h : a <+: r.parts
    · rw [asks_below_false hb (below_movedTo h), asks_below_false ha h]
    · rw [movedTo_beside h]
  · intro r hr q hq hcr hcq
    rw [hfix r hr hcr, hfix q hq hcq]

theorem nearest_copies_beside (hb : ¬ b <+: ps) :
    nearest Record.depth (asks κ ps) (rs ++ copies a b rs) = nearest Record.depth (asks κ ps) rs := by
  refine nearest_append_of_false fun r hr => ?_
  simp only [copies, List.mem_map, List.mem_filter, List.isPrefixOf_iff_prefix] at hr
  obtain ⟨q, ⟨-, hq⟩, rfl⟩ := hr
  exact asks_below_false hb (below_movedTo hq)

end

theorem verdict_renamed_beside {ps : List Name} (ha : ¬ a <+: ps) (hb : ¬ b <+: ps) (user : Name) (mode : UInt8) :
    verdict (renamed a b rs) user ps mode = verdict rs user ps mode := by
  rw [verdict, covers_asks, nearest_renamed_beside ha hb, verdict, covers_asks]

theorem verdict_copies_beside {ps : List Name} (hb : ¬ b <+: ps) (user : Name) (mode : UInt8) :
    verdict (rs ++ copies a b rs) user ps mode = verdict rs user ps mode := by
  rw [verdict, covers_asks, nearest_copies_beside hb, verdict, covers_asks]

/-! ## Below the new name -/

/-- Of two ancestors of a path, the one with more components has the longer string. -/
theorem depth_le_iff {r q : Record} {ps : List Name} (hps : ∀ c ∈ ps, validName c = true) (hr : r.parts <+: ps)
    (hq : q.parts <+: ps) : r.depth ≤ q.depth ↔ r.parts.length ≤ q.parts.length := by
  rcases List.prefix_or_prefix_of_prefix hr hq with h | h
  · refine ⟨fun _ => h.length_le, fun _ => ?_⟩
    by_cases he : r.parts = q.parts
    · rw [Record.depth, Record.path, he]; exact Nat.le_refl _
    · exact Nat.le_of_lt (length_render_lt h he fun c hc => hps c (hq.subset hc))
  · by_cases he : q.parts = r.parts
    · simp [Record.depth, Record.path, he]
    · have hlt := length_render_lt h he fun c hc => hps c (hr.subset hc)
      have hlen : q.parts.length < r.parts.length :=
        Nat.lt_of_le_of_ne h.length_le fun e => he (h.eq_of_length e)
      simp only [Record.depth, Record.path]
      omega

section
variable {d t : List Name} {x y : Name} {κ : Record → Bool}

/-- A record above `d/x/t` that is not at or below `d/x` is above `d`. -/
theorem prefix_parent {l : List Name} (h : l <+: d ++ [x] ++ t) (hn : ¬ d ++ [x] <+: l) : l <+: d := by
  rcases List.prefix_or_prefix_of_prefix h (List.prefix_append (d ++ [x]) t) with h' | h'
  · rcases List.prefix_concat_iff.1 h' with rfl | h''
    · exact absurd List.prefix_rfl hn
    · exact h''
  · exact absurd h' hn

theorem prefix_of_parent {l : List Name} (h : l <+: d) : l <+: d ++ [x] ++ t :=
  h.trans (by rw [List.append_assoc]; exact List.prefix_append _ _)

/-- A rename inside a directory. -/
theorem asks_movedTo (hκ : ∀ r, κ (r.movedTo (d ++ [x]) (d ++ [y])) = κ r) {r : Record} (hr : ¬ d ++ [y] <+: r.parts) :
    asks κ (d ++ [y] ++ t) (r.movedTo (d ++ [x]) (d ++ [y])) = asks κ (d ++ [x] ++ t) r := by
  rw [asks, asks, hκ]
  congr 1
  rw [Bool.eq_iff_iff, List.isPrefixOf_iff_prefix, List.isPrefixOf_iff_prefix]
  by_cases h : d ++ [x] <+: r.parts
  · obtain ⟨u, hu⟩ := h
    rw [movedTo_below hu.symm, ← hu, List.prefix_append_right_inj, List.prefix_append_right_inj]
  · rw [movedTo_beside h]
    exact ⟨fun e => prefix_of_parent (prefix_parent e hr), fun e => prefix_of_parent (prefix_parent e h)⟩

theorem length_movedTo (r : Record) : (r.movedTo (d ++ [x]) (d ++ [y])).parts.length = r.parts.length := by
  by_cases h : d ++ [x] <+: r.parts
  · obtain ⟨u, hu⟩ := h
    rw [movedTo_below hu.symm, ← hu]
    simp
  · rw [movedTo_beside h]

theorem prefix_of_asks {r : Record} {ps : List Name} (h : asks κ ps r = true) : r.parts <+: ps := by
  rw [asks, Bool.and_eq_true] at h
  exact List.isPrefixOf_iff_prefix.1 h.2

/-- Records at or below a name are deeper than those above it. -/
theorem depth_lt_of_below {r q : Record} (hx : ∀ c ∈ d ++ [x] ++ t, validName c = true)
    (hr : asks κ (d ++ [x] ++ t) r = true) (hq : asks κ (d ++ [x] ++ t) q = true)
    (hr' : (d ++ [x]).isPrefixOf r.parts = false) (hq' : (d ++ [x]).isPrefixOf q.parts = true) : r.depth < q.depth := by
  have hrd : r.parts <+: d := prefix_parent (prefix_of_asks hr) fun h => by
    rw [List.isPrefixOf_iff_prefix.2 h] at hr'
    simp at hr'
  have hlen := (List.isPrefixOf_iff_prefix.1 hq').length_le
  have hlen' := hrd.length_le
  refine Nat.lt_of_not_le fun hle => ?_
  rw [depth_le_iff hx (prefix_of_asks hq) (prefix_of_asks hr)] at hle
  simp at hlen
  omega

theorem asks_below_eq {r : Record} (hr : ¬ d ++ [y] <+: r.parts) :
    asks κ (d ++ [y] ++ t) r = (asks κ (d ++ [x] ++ t) r && !(d ++ [x]).isPrefixOf r.parts) := by
  rw [Bool.eq_iff_iff, Bool.and_eq_true, asks, asks, Bool.and_eq_true, Bool.and_eq_true, and_assoc]
  refine and_congr_right fun _ => ?_
  simp only [List.isPrefixOf_iff_prefix, Bool.not_eq_true', Bool.eq_false_iff, ne_eq]
  constructor
  · intro h
    have hd := prefix_parent h hr
    refine ⟨prefix_of_parent hd, fun h' => ?_⟩
    have := (h'.trans hd).length_le
    simp only [List.length_append, List.length_singleton] at this
    omega
  · rintro ⟨h, hn⟩
    exact prefix_of_parent (prefix_parent h hn)

variable (hκ : ∀ r, κ (r.movedTo (d ++ [x]) (d ++ [y])) = κ r) (hfree : ∀ r ∈ rs, ¬ d ++ [y] <+: r.parts)
  (hx : ∀ c ∈ d ++ [x] ++ t, validName c = true) (hy : ∀ c ∈ d ++ [y] ++ t, validName c = true)

include hκ hfree hx hy

theorem nearest_map_moved {qs : List Record} (hqs : qs ⊆ rs) :
    nearest Record.depth (asks κ (d ++ [y] ++ t)) (qs.map (Record.movedTo (d ++ [x]) (d ++ [y]))) =
      (nearest Record.depth (asks κ (d ++ [x] ++ t)) qs).map (Record.movedTo (d ++ [x]) (d ++ [y])) := by
  have hask : ∀ r ∈ qs, asks κ (d ++ [y] ++ t) (r.movedTo (d ++ [x]) (d ++ [y])) = asks κ (d ++ [x] ++ t) r :=
    fun r hr => asks_movedTo hκ (hfree r (hqs hr))
  refine nearest_map _ _ hask fun r hr q hq hcr hcq => ?_
  have hr' := prefix_of_asks ((hask r hr).trans hcr)
  have hq' := prefix_of_asks ((hask q hq).trans hcq)
  rw [depth_le_iff hy hr' hq', depth_le_iff hx (prefix_of_asks hcr) (prefix_of_asks hcq), length_movedTo, length_movedTo]

theorem nearest_renamed :
    nearest Record.depth (asks κ (d ++ [y] ++ t)) (renamed (d ++ [x]) (d ++ [y]) rs) =
      (nearest Record.depth (asks κ (d ++ [x] ++ t)) rs).map (Record.movedTo (d ++ [x]) (d ++ [y])) :=
  nearest_map_moved hκ hfree hx hy fun _ h => h

/-- With the copies behind the old records, the copies decide first. -/
theorem nearest_copies :
    nearest Record.depth (asks κ (d ++ [y] ++ t)) (rs ++ copies (d ++ [x]) (d ++ [y]) rs) =
      (nearest Record.depth (asks κ (d ++ [x] ++ t)) rs).map (Record.movedTo (d ++ [x]) (d ++ [y])) := by
  have hcopy : ∀ r ∈ copies (d ++ [x]) (d ++ [y]) rs, (d ++ [y]).isPrefixOf r.parts = true := by
    intro r hr
    obtain ⟨q, -, u, -, rfl⟩ := mem_copies.1 hr
    simp
  have hold : ∀ r ∈ rs, (d ++ [y]).isPrefixOf r.parts = false := fun r hr =>
    Bool.eq_false_iff.2 fun e => hfree r hr (List.isPrefixOf_iff_prefix.1 e)
  rw [nearest_split (fun r => (d ++ [y]).isPrefixOf r.parts) fun r _ q _ hr hq => depth_lt_of_below hy hr hq,
    nearest_append_left fun r hr => by simp [hold r hr], nearest_append_of_false fun r hr => by simp [hcopy r hr],
    nearest_split (l := rs) (fun r => (d ++ [x]).isPrefixOf r.parts) fun r _ q _ hr hq => depth_lt_of_below hx hr hq,
    Option.map_or]
  congr 1
  · rw [nearest_congr (e := asks κ (d ++ [y] ++ t)) fun r hr => by simp [hcopy r hr], copies,
      nearest_map_moved hκ hfree hx hy (List.filter_subset_self _), nearest_filter]
  · rw [nearest_congr (e := fun r => asks κ (d ++ [x] ++ t) r && !(d ++ [x]).isPrefixOf r.parts) fun r hr => by
      simp only [hold r hr, Bool.not_false, Bool.and_true]
      exact asks_below_eq (hfree r hr)]
    cases hn : nearest Record.depth (fun r => asks κ (d ++ [x] ++ t) r && !(d ++ [x]).isPrefixOf r.parts) rs with
    | none => rfl
    | some r =>
      have hc := (nearest_spec hn).2.1
      rw [Option.map_some, movedTo_beside fun h => by simp [List.isPrefixOf_iff_prefix.2 h] at hc]

end

section
variable {d t : List Name} {x y : Name} (hfree : ∀ r ∈ rs, ¬ d ++ [y] <+: r.parts)
  (hx : ∀ c ∈ d ++ [x] ++ t, validName c = true) (hy : ∀ c ∈ d ++ [y] ++ t, validName c = true)

/-- `qs` answers below `d/y` what `rs` answers below `d/x`. -/
def Carries (rs qs : List Record) (d : List Name) (x y : Name) (t : List Name) : Prop :=
  ∀ κ : Record → Bool, (∀ r, κ (r.movedTo (d ++ [x]) (d ++ [y])) = κ r) →
    nearest Record.depth (asks κ (d ++ [y] ++ t)) qs =
      (nearest Record.depth (asks κ (d ++ [x] ++ t)) rs).map (Record.movedTo (d ++ [x]) (d ++ [y]))

include hfree hx hy

theorem carries_renamed : Carries rs (renamed (d ++ [x]) (d ++ [y]) rs) d x y t :=
  fun _ hκ => nearest_renamed hκ hfree hx hy

theorem carries_copies : Carries rs (rs ++ copies (d ++ [x]) (d ++ [y]) rs) d x y t :=
  fun _ hκ => nearest_copies hκ hfree hx hy

end

theorem Carries.verdict {qs : List Record} {d t : List Name} {x y : Name} (h : Carries rs qs d x y t) {user : Name}
    {mode : UInt8} (hdef : defaultRight user (render (d ++ [y] ++ t)) mode = defaultRight user (render (d ++ [x] ++ t)) mode) :
    verdict qs user (d ++ [y] ++ t) mode = verdict rs user (d ++ [x] ++ t) mode := by
  rw [Acl.verdict, covers_asks, h (fun r => r.user == user) fun r => by simp, Acl.verdict, covers_asks]
  cases nearest Record.depth (asks (fun r => r.user == user) (d ++ [x] ++ t)) rs with
  | none => exact hdef
  | some r => simp

theorem guards_asks {ps : List Name} (h : ps ≠ []) : guards ps = asks (fun r => r.parts ≠ [] && r.lock ≠ []) ps := by
  funext r
  simp only [guards, asks, h, decide_false, Bool.or_false]
  cases r.parts.isPrefixOf ps <;> simp

theorem Carries.lockFor {qs : List Record} {d t : List Name} {x y : Name} (h : Carries rs qs d x y t) :
    lockFor qs (d ++ [y] ++ t) = lockFor rs (d ++ [x] ++ t) := by
  have hκ : ∀ r : Record, (decide ((r.movedTo (d ++ [x]) (d ++ [y])).parts ≠ []) &&
      decide ((r.movedTo (d ++ [x]) (d ++ [y])).lock ≠ [])) = (decide (r.parts ≠ []) && decide (r.lock ≠ [])) := by
    intro r
    have := length_movedTo (d := d) (x := x) (y := y) r
    have hnil : (r.movedTo (d ++ [x]) (d ++ [y])).parts = [] ↔ r.parts = [] := by
      rw [← List.length_eq_zero_iff, this, List.length_eq_zero_iff]
    simp [hnil]
  rw [Acl.lockFor, guards_asks (by simp), h _ hκ, Acl.lockFor, guards_asks (by simp)]
  cases nearest Record.depth (asks (fun r => r.parts ≠ [] && r.lock ≠ []) (d ++ [x] ++ t)) rs <;> simp

/-! ## Copies that grant nothing -/

/-- The right a user has on a path and on everything below it. -/
def standing (rs : List Record) (user : Name) (ps : List Name) (mode : UInt8) : Bool :=
  match nearest Record.depth (covers user ps) rs with
  | some r => r.rights.contains mode
  | none => beneath (render ps) (home user) || (mode == modeX && beneath (render ps) bin)

/-- Every right in force at a place below `a` stands at the same place below `b`. -/
def Covered (rs : List Record) (a b : List Name) : Prop :=
  ∀ user t r mode, user ≠ root → nearest Record.depth (covers user (a ++ t)) rs = some r → r.parts = a ++ t →
    r.rights.contains mode = true → standing rs user (b ++ t) mode = true

theorem prefix_of_covers {user : Name} {ps : List Name} {r : Record} (h : covers user ps r = true) : r.parts <+: ps :=
  prefix_of_asks (κ := fun r => r.user == user) h

theorem covers_above {user : Name} {ps qs : List Name} {r : Record} (h : covers user ps r = true) (hp : r.parts <+: qs) :
    covers user qs r = true := by
  rw [covers, Bool.and_eq_true] at h ⊢
  exact ⟨h.1, List.isPrefixOf_iff_prefix.2 hp⟩

theorem covers_trans {user : Name} {ps qs : List Name} {r : Record} (h : covers user ps r = true) (hp : ps <+: qs) :
    covers user qs r = true := covers_above h ((prefix_of_covers h).trans hp)

theorem isPrefixOf_append_left (l u t : List Name) : (l ++ u).isPrefixOf (l ++ t) = u.isPrefixOf t := by
  rw [Bool.eq_iff_iff, List.isPrefixOf_iff_prefix, List.isPrefixOf_iff_prefix, List.prefix_append_right_inj]

theorem nearest_of_copies {user : Name} {t : List Name} (ha : ∀ c ∈ a ++ t, validName c = true)
    (hb : ∀ c ∈ b ++ t, validName c = true) :
    nearest Record.depth (covers user (b ++ t)) (copies a b rs) =
      (nearest Record.depth (fun r => covers user (a ++ t) r && a.isPrefixOf r.parts) rs).map (Record.movedTo a b) := by
  have key : ∀ r ∈ rs.filter (fun r => a.isPrefixOf r.parts), ∃ u, r.parts = a ++ u := by
    intro r hr
    obtain ⟨u, hu⟩ := List.isPrefixOf_iff_prefix.1 (List.mem_filter.1 hr).2
    exact ⟨u, hu.symm⟩
  rw [← nearest_filter, copies, nearest_map Record.depth (c := covers user (a ++ t))]
  · intro r hr
    obtain ⟨u, hu⟩ := key r hr
    rw [covers, covers, movedTo_below hu, hu, isPrefixOf_append_left, isPrefixOf_append_left]
  · intro r hr q hq hcr hcq
    obtain ⟨u, hu⟩ := key r hr
    obtain ⟨w, hw⟩ := key q hq
    have hut := prefix_of_covers hcr
    have hwt := prefix_of_covers hcq
    rw [depth_le_iff ha hut hwt, depth_le_iff hb, movedTo_below hu, movedTo_below hw, hu, hw]
    · simp
    · rw [movedTo_below hu]
      rw [hu, List.prefix_append_right_inj] at hut
      exact (List.prefix_append_right_inj b).2 hut
    · rw [movedTo_below hw]
      rw [hw, List.prefix_append_right_inj] at hwt
      exact (List.prefix_append_right_inj b).2 hwt

/-- A record at the path itself is in force there as soon as it is among the
records below `a`. -/
theorem nearest_at {user : Name} {t : List Name} {r : Record} (ha : ∀ c ∈ a ++ t, validName c = true)
    (hr : r.parts = a ++ t) :
    nearest Record.depth (fun r => covers user (a ++ t) r && a.isPrefixOf r.parts) rs = some r ↔
      nearest Record.depth (covers user (a ++ t)) rs = some r := by
  constructor
  · intro h
    obtain ⟨hm, hc, -⟩ := nearest_spec h
    rw [Bool.and_eq_true] at hc
    cases hn : nearest Record.depth (covers user (a ++ t)) rs with
    | none => simp [nearest_eq_none.1 hn r hm] at hc
    | some q =>
      obtain ⟨-, hcq, hmax⟩ := nearest_spec hn
      have hle := (depth_le_iff ha (prefix_of_covers hc.1) (prefix_of_covers hcq)).1 (hmax r hm hc.1)
      rw [hr] at hle
      have hq : q.parts = a ++ t := (prefix_of_covers hcq).eq_of_length (Nat.le_antisymm (prefix_of_covers hcq).length_le hle)
      have := nearest_of_subset (e := fun r => covers user (a ++ t) r && a.isPrefixOf r.parts) hn (by simp [hcq, hq])
        fun r _ h => by simp only [Bool.and_eq_true] at h; exact h.1
      rw [this] at h
      exact h
  · intro h
    refine nearest_of_subset h ?_ fun r _ h => by simp only [Bool.and_eq_true] at h; exact h.1
    simp [(nearest_spec h).2.1, hr]

theorem verdict_of_standing {user : Name} {ps qs : List Name} {mode : UInt8} (h : standing rs user ps mode = true)
    (hp : ps <+: qs) (hdeep : ∀ r ∈ rs, covers user qs r = true → r.parts <+: ps) : verdict rs user qs mode = true := by
  have hsame : nearest Record.depth (covers user qs) rs = nearest Record.depth (covers user ps) rs := by
    refine nearest_congr fun r hr => ?_
    rw [Bool.eq_iff_iff]
    exact ⟨fun hc => covers_above hc (hdeep r hr hc), fun hc => covers_trans hc hp⟩
  rw [standing] at h
  rw [verdict, hsame]
  cases hn : nearest Record.depth (covers user ps) rs with
  | some r => simpa [hn] using h
  | none =>
    rw [hn] at h
    simp only [Bool.or_eq_true, Bool.and_eq_true] at h
    simp only [defaultRight, Bool.or_eq_true, Bool.and_eq_true]
    rcases h with h | h
    · exact .inl (.inr (beneath_mono hp h))
    · exact .inr ⟨h.1, beneath_mono hp h.2⟩

/-- Copies of rights that stand at the new place grant nothing. -/
theorem verdict_copies_le (hrs : ∀ r ∈ rs, Normal r.parts) (hcov : Covered rs a b) {user : Name} (hu : user ≠ root)
    {qs : List Name} (hqs : Normal qs) {mode : UInt8} (h : verdict (rs ++ copies a b rs) user qs mode = true) :
    verdict rs user qs mode = true := by
  rw [verdict, nearest_append] at h
  cases hc : nearest Record.depth (covers user qs) (copies a b rs) with
  | none => rwa [hc] at h
  | some c =>
    rw [hc] at h
    dsimp only at h
    split at h
    · rename_i r hif
      split at hif
      · rename_i hall
        obtain rfl : c = r := by simpa using hif
        obtain ⟨hmem, hcov_c, -⟩ := nearest_spec hc
        obtain ⟨r, hr, t, ht, rfl⟩ := mem_copies.1 hmem
        have hbt : b ++ t <+: qs := prefix_of_covers hcov_c
        have hvb : ∀ d ∈ b ++ t, validName d = true := fun d hd => hqs.1 d (hbt.subset hd)
        have hva : ∀ d ∈ a ++ t, validName d = true := fun d hd => (hrs r hr).1 d (ht ▸ hd)
        have hat := nearest_of_subset (e := covers user (b ++ t)) hc (covers_above hcov_c List.prefix_rfl)
          fun z _ hz => covers_trans hz hbt
        rw [nearest_of_copies hva hvb] at hat
        obtain ⟨q, hq, hmv⟩ := Option.map_eq_some_iff.1 hat
        have hqa := (nearest_spec hq).2.1
        simp only [Bool.and_eq_true, List.isPrefixOf_iff_prefix] at hqa
        obtain ⟨w, hw⟩ := hqa.2
        rw [movedTo_below hw.symm] at hmv
        obtain rfl : w = t := by simpa using congrArg Record.parts hmv
        have hrights : q.rights = r.rights := by
          simp only [Record.mk.injEq] at hmv
          exact hmv.2.2.1
        have hstand := hcov user w q mode hu ((nearest_at hva hw.symm).1 hq) hw.symm (by simpa [hrights] using h)
        refine verdict_of_standing hstand hbt fun z hz hcz => ?_
        cases hn : nearest Record.depth (covers user qs) rs with
        | none => simp [nearest_eq_none.1 hn z hz] at hcz
        | some y =>
          obtain ⟨-, hcy, hmax⟩ := nearest_spec hn
          have hle : z.depth ≤ ({ r with parts := b ++ w } : Record).depth :=
            Nat.le_trans (hmax z hz hcz) (by simpa [hn] using hall)
          have hlen := (depth_le_iff hqs.1 (prefix_of_covers hcz) (q := { r with parts := b ++ w }) hbt).1 hle
          rcases List.prefix_or_prefix_of_prefix (prefix_of_covers hcz) hbt with hp | hp
          · exact hp
          · have heq := hp.eq_of_length (Nat.le_antisymm hp.length_le hlen)
            exact heq ▸ List.prefix_rfl
      · rw [verdict, hif]
        exact h
    · rename_i hif
      split at hif
      · simp at hif
      · rw [verdict, hif]
        exact h

/-! ## Rights that copies would grant -/

/-- Two letters that spell a number. -/
def spelled (k : Nat) : Name := [UInt8.ofNat (97 + k / 128), UInt8.ofNat (97 + k % 128)]

theorem spelled_inj {j k : Nat} (hj : j < 16384) (hk : k < 16384) (h : spelled j = spelled k) : j = k := by
  simp only [spelled, List.cons.injEq, and_true] at h
  have h1 := congrArg UInt8.toNat h.1
  have h2 := congrArg UInt8.toNat h.2
  simp only [UInt8.toNat_ofNat', Nat.reducePow] at h1 h2
  omega

theorem validName_spelled {k : Nat} (hk : k < 16384) : validName (spelled k) = true := by
  have hne : ∀ c ∈ spelled k, c ≠ 46 ∧ c ≠ slash := by
    have hbyte : ∀ n, 97 ≤ n → n < 256 → UInt8.ofNat n ≠ 46 ∧ UInt8.ofNat n ≠ slash := by
      intro n h1 h2
      constructor <;> intro e <;> have := congrArg UInt8.toNat e <;> simp [slash] at this <;> omega
    intro c hc
    simp only [spelled, List.mem_cons, List.not_mem_nil, or_false] at hc
    rcases hc with rfl | rfl
    · exact hbyte _ (by omega) (by omega)
    · exact hbyte _ (by omega) (by omega)
  rw [validName_iff]
  refine ⟨by simp [spelled], by simp [spelled, maxName], fun h => (hne _ h).2 rfl, ?_, ?_⟩
  · intro h
    have := congrArg List.length h
    simp [spelled, dot] at this
  · intro h
    exact (hne 46 (by rw [h]; simp [dotdot])).1 rfl

theorem exists_fresh_name {l : List Name} (h : l.length < 16384) : ∃ c, validName c = true ∧ c.length = 2 ∧ c ∉ l := by
  by_contra hno
  have hsub : (List.range 16384).map spelled ⊆ l := by
    intro c hc
    obtain ⟨k, hk, rfl⟩ := List.mem_map.1 hc
    by_contra hmem
    exact hno ⟨_, validName_spelled (List.mem_range.1 hk), rfl, hmem⟩
  have hnodup : ((List.range 16384).map spelled).Nodup := by
    refine List.Nodup.map_on (fun j hj k hk e => ?_) List.nodup_range
    exact spelled_inj (List.mem_range.1 hj) (List.mem_range.1 hk) e
  have := List.Nodup.length_le_of_subset hnodup hsub
  rw [List.length_map, List.length_range] at this
  omega

/-- The components of `/home`. -/
def homesParts : List Name := [[104, 111, 109, 101]]

theorem homes_eq : homes = render homesParts := rfl

/-- The last components of the records' paths. -/
def lastNames (rs : List Record) : List Name := rs.filterMap fun r => r.parts.getLast?

theorem not_covers_fresh {user : Name} {ps : List Name} {c : Name} {r : Record} (hr : r ∈ rs) (hc : c ∉ lastNames rs)
    (h : covers user (ps ++ [c]) r = true) : r.parts <+: ps := by
  rcases List.prefix_concat_iff.1 (prefix_of_covers h) with he | hp
  · exact absurd (List.mem_filterMap.2 ⟨r, hr, by simp [he]⟩) hc
  · exact hp

/-- A copied right on `/home` reaches a new name below it, which the default does not. -/
theorem copied_homes_widens (hlen : rs.length < 16383) {user : Name} {r : Record} {mode : UInt8}
    (hn : nearest Record.depth (covers user homesParts) rs = none)
    (hcopy : nearest Record.depth (covers user homesParts) (copies a homesParts rs) = some r)
    (hr : r.rights.contains mode = true) :
    ∃ qs, Normal qs ∧ homesParts <+: qs ∧ verdict (rs ++ copies a homesParts rs) user qs mode = true ∧
      verdict rs user qs mode = false := by
  obtain ⟨c, hvalid, hshort, hfresh⟩ := exists_fresh_name (l := user :: lastNames rs) (by
    have := List.length_filterMap_le (fun r : Record => r.parts.getLast?) rs
    simp only [lastNames, List.length_cons]
    omega)
  simp only [List.mem_cons, not_or] at hfresh
  have hcs : c ∉ lastNames (copies a homesParts rs) := by
    intro hc
    obtain ⟨q, hq, hlast⟩ := List.mem_filterMap.1 hc
    obtain ⟨p, hp, t, ht, rfl⟩ := mem_copies.1 hq
    rcases List.eq_nil_or_concat' t with rfl | ⟨t, z, rfl⟩
    · simp [homesParts] at hlast
      subst hlast
      simp at hshort
    · refine hfresh.2 (List.mem_filterMap.2 ⟨p, hp, ?_⟩)
      rw [ht, ← List.append_assoc, List.getLast?_concat]
      rwa [← List.append_assoc, List.getLast?_concat] at hlast
  have hsame : ∀ {qs : List Record}, c ∉ lastNames qs →
      nearest Record.depth (covers user (homesParts ++ [c])) qs = nearest Record.depth (covers user homesParts) qs := by
    intro qs hqs
    refine nearest_congr fun q hq => ?_
    rw [Bool.eq_iff_iff]
    exact ⟨fun h => covers_above h (not_covers_fresh hq hqs h), fun h => covers_trans h (List.prefix_append _ _)⟩
  have hnormal : Normal (homesParts ++ [c]) := by
    refine ⟨?_, ?_⟩
    · intro d hd
      rcases List.mem_append.1 hd with hd | hd
      · have : ∀ d ∈ homesParts, validName d = true := by decide
        exact this d hd
      · exact List.mem_singleton.1 hd ▸ hvalid
    · simp [homesParts, render, hshort, pathCap]
  refine ⟨homesParts ++ [c], hnormal, List.prefix_append _ _, ?_, ?_⟩
  · rw [verdict, nearest_append, hsame hcs, hcopy, hsame hfresh.2, hn]
    simpa using hr
  · have hne : homesParts ++ [c] ≠ homesParts := by simp
    have hroot : render (homesParts ++ [c]) ≠ [slash] := fun e => by
      have := render_inj (b := []) hnormal.1 (by simp) e
      simp at this
    have hhomes : render (homesParts ++ [c]) ≠ homes := fun e => hne (render_inj hnormal.1 (by decide) e)
    have hbin : beneath (render (homesParts ++ [c])) bin = false := by
      rw [Bool.eq_false_iff]
      intro e
      have := (beneath_render (q := [[98, 105, 110]]) hnormal.1 (by decide)).1 e
      simp [homesParts] at this
    have hhome : beneath (render (homesParts ++ [c])) (home user) = false := by
      rw [Bool.eq_false_iff, beneath, ne_eq, Bool.or_eq_true, Bool.and_eq_true]
      have hrender : render (homesParts ++ [c]) = homes ++ slash :: c := by simp [homesParts, render, homes, slash]
      have hslash : slash ∉ c := (validName_iff.1 hvalid).2.2.1
      rintro (h | ⟨h, htail⟩)
      · simp [home, homes] at h
      · rw [hrender, home, List.append_assoc, List.isPrefixOf_iff_prefix, List.prefix_append_right_inj,
          List.singleton_append, List.cons_prefix_cons] at h
        obtain ⟨z, rfl⟩ := h.2
        rw [hrender, home] at htail
        have hdrop : (homes ++ slash :: (user ++ z)).drop (homes ++ [slash] ++ user).length = z := by
          rw [show homes ++ slash :: (user ++ z) = (homes ++ [slash] ++ user) ++ z by simp, List.drop_left]
        rw [hdrop] at htail
        cases z with
        | nil => simp at hfresh
        | cons y z =>
          obtain rfl : y = slash := by simpa using htail
          simp at hslash
    rw [verdict, hsame hfresh.2, hn]
    simp [defaultRight, hroot, hhomes, hbin, hhome]

/-- If the copies grant nothing, the rights stood at the new place before. -/
theorem covered_of_verdict_le (hrs : ∀ r ∈ rs, Normal r.parts) (hcs : ∀ r ∈ copies a b rs, Normal r.parts) (hb : b ≠ [])
    (hlen : rs.length < 16383)
    (h : ∀ user qs mode, user ≠ root → Normal qs → b <+: qs → verdict (rs ++ copies a b rs) user qs mode = true →
      verdict rs user qs mode = true) : Covered rs a b := by
  intro user t r mode hu hn ht hr
  have hmem := (nearest_spec hn).1
  have hcopy : ({ r with parts := b ++ t } : Record) ∈ copies a b rs := mem_copies.2 ⟨r, hmem, t, ht, rfl⟩
  have hbt : Normal (b ++ t) := hcs _ hcopy
  have hva : ∀ d ∈ a ++ t, validName d = true := fun d hd => (hrs r hmem).1 d (ht ▸ hd)
  have hcn : nearest Record.depth (covers user (b ++ t)) (copies a b rs) = some { r with parts := b ++ t } := by
    rw [nearest_of_copies hva hbt.1, (nearest_at hva ht).2 hn, Option.map_some, movedTo_below ht]
  have hall : ((nearest Record.depth (covers user (b ++ t)) rs).all fun z =>
      z.depth ≤ ({ r with parts := b ++ t } : Record).depth) = true := by
    cases hz : nearest Record.depth (covers user (b ++ t)) rs with
    | none => rfl
    | some z =>
      have hcz := prefix_of_covers (nearest_spec hz).2.1
      simp only [Option.all_some, decide_eq_true_eq]
      exact (depth_le_iff hbt.1 hcz (q := { r with parts := b ++ t }) List.prefix_rfl).2 hcz.length_le
  have hverdict := h user (b ++ t) mode hu hbt (List.prefix_append b t)
    (by simpa only [verdict, nearest_append, hcn, hall, if_true] using hr)
  rw [verdict] at hverdict
  rw [standing]
  cases hz : nearest Record.depth (covers user (b ++ t)) rs with
  | some z => simpa [hz] using hverdict
  | none =>
    have hroot : render (b ++ t) ≠ [slash] := fun e =>
      hb (List.append_eq_nil_iff.1 (render_inj hbt.1 (by simp) e)).1
    by_cases hhomes : render (b ++ t) = homes
    · exfalso
      have hparts : b ++ t = homesParts := render_inj hbt.1 (by decide) (hhomes.trans homes_eq)
      obtain ⟨rfl, rfl⟩ : b = homesParts ∧ t = [] := by
        rcases List.append_eq_singleton_iff.1 hparts with ⟨rfl, -⟩ | h
        · exact absurd rfl hb
        · exact h
      rw [List.append_nil] at hz hcn
      obtain ⟨qs, hqs, hp, hafter, hbefore⟩ := copied_homes_widens hlen hz hcn hr
      rw [h user qs mode hu hqs hp hafter] at hbefore
      simp at hbefore
    · simpa [hz, defaultRight, hroot, hhomes] using hverdict

end Barnix.Acl
