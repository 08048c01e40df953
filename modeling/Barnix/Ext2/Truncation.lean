import Barnix.Ext2.Writing
/-!
# Truncating a file

`truncate_blocks` gives blocks of a file back, from the first that is not kept to the
last and then the block of indirect pointers.
-/

namespace Barnix.Ext2

section
variable {v u w : View} {b off : Nat}

namespace View

/-- A block of the file was given back. -/
structure Shed (v u : View) (b off x : Nat) : Prop where
  owned : v.Owns b off x
  used : ∀ m, u.used m = (m != x && v.used m)
  alike : v.vol.Alike u.vol
  cwd : u.cwd = v.cwd
  mem : ∀ m, m ≠ b → m ≠ v.indirect b off → (∀ g < v.vol.geo.groups, m ≠ v.vol.desc g 0) → u.mem m = v.mem m
  get : ∀ j, j < off + 28 ∨ off + 32 ≤ j ∧ j < off + 40 ∨ off + 92 ≤ j → (u.mem b).get j = (v.mem b).get j
  count : (u.mem b).get32 (off + 28) = ((v.mem b).get32 (off + 28) + 4294967294) % 4294967296

/-- The file after the block `x` was marked free. -/
theorem freed_file (h : v.InTable b off) (hh : v.Has b off maxPointers) {x : Nat} (hfreed : v.Freed w x) :
    w.indirect b off = v.indirect b off ∧ (∀ i, w.pointer b off i = v.pointer b off i) ∧ w.mem b = v.mem b := by
  have hb : w.mem b = v.mem b := hfreed.mem b fun g hg => (h.ne_map hg (.inl rfl)).symm
  have hsame : ∀ k, 40 ≤ k → k < 92 → (w.mem b).get (off + k) = (v.mem b).get (off + k) := fun _ _ _ => by rw [hb]
  have hp := pointer_congr hsame fun _ => hfreed.mem _ fun g hg => (map_ne_indirect h hh hg (.inl rfl)).symm
  exact ⟨hp.1, hp.2, hb⟩

theorem Freed.used {x : Nat} (h : v.Freed w x) (m : Nat) : w.used m = (m != x && v.used m) := by
  unfold View.used
  rw [← h.alike.dataBlock]
  cases hm : v.vol.dataBlock m with
  | true =>
    rw [Bool.true_and, Bool.true_and]
    exact h.marked m hm
  | false => rw [Bool.false_and, Bool.false_and, Bool.and_false]

namespace Shed

variable {x : Nat}

theorem used_of (hshed : v.Shed u b off x) {m : Nat} (hm : v.used m = true) (hne : m ≠ x) : u.used m = true := by
  rw [hshed.used, hm, bne_iff_ne.2 hne, Bool.true_and]

/-- Used blocks keep their content, the one that was given back too. -/
theorem mem_used (h : v.InTable b off) (hshed : v.Shed u b off x) {m : Nat} (hm : v.used m = true) (hne : m ≠ v.indirect b off) :
    u.mem m = v.mem m :=
  hshed.mem m (h.ne_data (data_of_used hm)) hne fun _ hg => (data_not_map h.laid (data_of_used hm) hg (.inl rfl)).symm

theorem within (h : v.InTable b off) (hh : v.Has b off maxPointers) (hshed : v.Shed u b off x)
    (howns : ∀ m, u.Owns b off m → v.Owns b off m) : Within b off v u := by
  refine ⟨hshed.alike, hshed.cwd, fun m hm => .inl (howns m hm), fun m hused hnot => ⟨?_, ?_⟩, fun m hm hb => ?_,
    fun j hj => hshed.get j (by omega), fun g hg => ?_⟩
  · refine mem_used h hshed hused fun heq => hnot ⟨?_, .inl heq⟩
    exact (Volume.Laid.dataBlock_lt (data_of_used hused)).1
  · refine used_of hshed hused ?_
    rintro rfl
    exact hnot hshed.owned
  · refine hshed.mem m hb ?_ fun g hg heq => h.laid.map_not_table ⟨g, hg, .inl rfl⟩ (heq ▸ hm)
    rintro rfl
    exact hh.indirect_not_table h hm
  · refine hshed.mem _ (h.ne_map hg (.inr rfl)) (map_ne_indirect h hh hg (.inr rfl)) fun g' hg' heq => ?_
    exact absurd (h.laid.map_inj hg hg' (.inr rfl) (.inl rfl) heq).2 (by decide)

/-- Without one of its blocks, a file holds the others. -/
theorem has_points (hh : v.Has b off maxPointers) {i : Nat} (hi : i < maxPointers) (hx : v.pointer b off i ≠ 0)
    (hshed : v.Shed u b off (v.pointer b off i)) (hp : v.Points u b off i 0) : u.Has b off maxPointers := by
  have hself : u.pointer b off i = 0 := by
    rw [hp.pointer i hi, if_pos rfl]
  have hother : ∀ {j}, j < maxPointers → u.pointer b off j ≠ 0 → j ≠ i ∧ u.pointer b off j = v.pointer b off j := by
    intro j hj hj0
    by_cases hji : j = i
    · rw [hji] at hj0
      exact absurd hself hj0
    · refine ⟨hji, ?_⟩
      rw [hp.pointer j hj, if_neg hji]
  refine ⟨fun hne => ?_, fun j hj hj0 => ?_, fun j hj hj0 => ?_, fun j hj k hk hj0 heq => ?_⟩
  · rw [hp.indirect] at hne ⊢
    exact hshed.used_of (hh.indirect hne) (hh.apart i hi hx).symm
  · obtain ⟨hji, hsame⟩ := hother hj hj0
    rw [hsame] at hj0 ⊢
    exact hshed.used_of (hh.used j hj hj0) fun heq => hji (hh.inj j hj i hi hj0 heq)
  · obtain ⟨-, hsame⟩ := hother hj hj0
    rw [hsame] at hj0 ⊢
    rw [hp.indirect]
    exact hh.apart j hj hj0
  · obtain ⟨-, hj'⟩ := hother hj hj0
    obtain ⟨-, hk'⟩ := hother hk (heq ▸ hj0)
    rw [hj', hk'] at heq
    exact hh.inj j hj k hk (hj' ▸ hj0) heq

/-- And counts them. -/
theorem counted_points {i : Nat} (hi : i < maxPointers) (hx : v.pointer b off i ≠ 0) (hshed : v.Shed u b off (v.pointer b off i))
    (hp : v.Points u b off i 0) (hc : v.Counted b off maxPointers) : u.Counted b off maxPointers := by
  have hself : u.pointer b off i = 0 := by
    rw [hp.pointer i hi, if_pos rfl]
  have hcard := held_eq (v := u) (u := v) hi hself hx fun j hj => show _ = if j = i then v.pointer b off i else _ by
    split
    · rename_i hji
      rw [hji]
    · rename_i hji
      rw [hp.pointer j hj, if_neg hji]
  have hle : (v.held b off maxPointers).card ≤ 268 := held_le maxPointers
  unfold Counted at hc ⊢
  rw [hshed.count, hp.indirect, hc, hcard]
  split <;> omega

theorem owns_points {i : Nat} (hp : v.Points u b off i 0) {m : Nat} (hm : u.Owns b off m) : v.Owns b off m := by
  obtain ⟨h0, hind | ⟨j, hj, hptr⟩⟩ := hm
  · exact ⟨h0, .inl (hind.trans hp.indirect)⟩
  · rw [hp.pointer j hj] at hptr
    split at hptr
    · exact absurd hptr.symm h0
    · exact ⟨h0, .inr ⟨j, hj, hptr⟩⟩

/-- The block of indirect pointers goes when there are none left. -/
theorem has_indirect (hh : v.Has b off maxPointers) (hshed : v.Shed u b off (v.indirect b off))
    (hind : u.indirect b off = 0) (hptr : ∀ j < maxPointers, u.pointer b off j = v.pointer b off j) : u.Has b off maxPointers := by
  refine ⟨fun hne => absurd hind hne, fun j hj hj0 => ?_, fun j hj hj0 => ?_, fun j hj k hk hj0 heq => ?_⟩
  · rw [hptr j hj] at hj0 ⊢
    exact hshed.used_of (hh.used j hj hj0) (hh.apart j hj hj0)
  · rw [hind]
    exact hj0
  · rw [hptr j hj] at hj0 heq
    rw [hptr k hk] at heq
    exact hh.inj j hj k hk hj0 heq

theorem counted_indirect (hx : v.indirect b off ≠ 0) (hshed : v.Shed u b off (v.indirect b off)) (hind : u.indirect b off = 0)
    (hptr : ∀ j < maxPointers, u.pointer b off j = v.pointer b off j) (hc : v.Counted b off maxPointers) : u.Counted b off maxPointers := by
  have hheld : u.held b off maxPointers = v.held b off maxPointers := by
    unfold held
    apply Finset.filter_congr
    intro j hj
    rw [hptr j (Finset.mem_range.1 hj)]
  have hle : (v.held b off maxPointers).card ≤ 268 := held_le maxPointers
  unfold Counted at hc ⊢
  rw [if_neg hx] at hc
  rw [hshed.count, hind, if_pos rfl, hheld, hc]
  omega

end Shed

/-- A block that a pointer of the file names, given back. -/
theorem shed_repoint (h : v.InTable b off) (hh : v.Has b off maxPointers) {i : Nat} (hi : i < maxPointers) (hx : v.pointer b off i ≠ 0)
    (hfreed : v.Freed w (v.pointer b off i)) : v.Shed (w.repoint b off i 0 ((v.mem b).get32 (off + 28) + 4294967294)) b off (v.pointer b off i) ∧
      v.Points (w.repoint b off i 0 ((v.mem b).get32 (off + 28) + 4294967294)) b off i 0 := by
  have hind := hh.indirect_ne h
  obtain ⟨hwind, hwptr, hwb⟩ := freed_file h hh hfreed
  have hslot : w.HasSlot b off i := by
    by_contra hno
    exact hx ((hwptr i).symm.trans (pointer_of_no_slot hno))
  obtain ⟨huind, huptr⟩ := repoint_pointer (n := (v.mem b).get32 (off + 28) + 4294967294) h.fits hi hslot (hwind ▸ hind) (Nat.succ_pos _)
  generalize hu : w.repoint b off i 0 ((v.mem b).get32 (off + 28) + 4294967294) = u at huind huptr ⊢
  have hmem : ∀ m, m ≠ b → m ≠ v.indirect b off → u.mem m = w.mem m := fun m hb hm => hu ▸ repoint_mem hb (hwind ▸ hm)
  have hget : ∀ j, j < off + 28 ∨ off + 32 ≤ j ∧ j < off + 40 ∨ off + 88 ≤ j → (u.mem b).get j = (w.mem b).get j :=
    fun j hj => hu ▸ repoint_get (hwind ▸ hind) hj
  have halike : w.vol.Alike u.vol := hu ▸ .refl _
  refine ⟨⟨⟨hx, .inr ⟨i, hi, rfl⟩⟩, fun m => ?_, hfreed.alike.trans halike, ?_, fun m hb hm hmaps => ?_, fun j hj => ?_, ?_⟩,
    huind.trans hwind, fun j hj => ?_⟩
  · rw [← hfreed.used m]
    refine used_congr (hfreed.alike.laid h.laid) halike (fun g hg => ?_) m
    have hg' : g < v.vol.geo.groups := hfreed.alike.geo ▸ hg
    rw [← hfreed.alike.desc g 0 (by decide)]
    exact hmem _ (h.ne_map hg' (.inl rfl)) (map_ne_indirect h hh hg' (.inl rfl))
  · rw [← hfreed.cwd, ← hu]
    rfl
  · rw [hmem m hb hm, hfreed.mem m hmaps]
  · rw [hget j (by omega), hwb]
  · rw [← hu]
    exact repoint_count h.fits
  · rw [huptr j hj, hwptr]

/-- The block of indirect pointers, given back. -/
theorem shed_indirect (h : v.InTable b off) (hh : v.Has b off maxPointers) (hx : v.indirect b off ≠ 0)
    (hnone : ∀ j < maxPointers, 12 ≤ j → v.pointer b off j = 0) (hfreed : v.Freed w (v.indirect b off)) :
    v.Shed (w.withIndirect b off 0 ((v.mem b).get32 (off + 28) + 4294967294)) b off (v.indirect b off) ∧
      (w.withIndirect b off 0 ((v.mem b).get32 (off + 28) + 4294967294)).indirect b off = 0 ∧
      ∀ j < maxPointers, (w.withIndirect b off 0 ((v.mem b).get32 (off + 28) + 4294967294)).pointer b off j = v.pointer b off j := by
  have hfits := h.fits
  obtain ⟨hwind, hwptr, hwb⟩ := freed_file h hh hfreed
  have hmem : ∀ m, m ≠ b → (w.withIndirect b off 0 ((v.mem b).get32 (off + 28) + 4294967294)).mem m = w.mem m := by
    intro m hm
    unfold withIndirect recount
    rw [set_mem, if_neg hm, set_mem, if_neg hm]
  have hb : (w.withIndirect b off 0 ((v.mem b).get32 (off + 28) + 4294967294)).mem b =
      ((w.mem b).put32 (off + 88) 0).put32 (off + 28) ((v.mem b).get32 (off + 28) + 4294967294) := by
    unfold withIndirect recount
    rw [set_mem_same, set_mem_same]
  have halike : w.vol.Alike (w.withIndirect b off 0 ((v.mem b).get32 (off + 28) + 4294967294)).vol := .refl _
  have hcwd : (w.withIndirect b off 0 ((v.mem b).get32 (off + 28) + 4294967294)).cwd = w.cwd := rfl
  generalize w.withIndirect b off 0 ((v.mem b).get32 (off + 28) + 4294967294) = u at hmem hb halike hcwd ⊢
  have hind : u.indirect b off = 0 := by
    unfold indirect
    rw [hb, Buf.get32_put32_ne _ _ (by omega), Buf.get32_put32 _ _ _ (by omega)]
  refine ⟨⟨⟨hx, .inl rfl⟩, fun m => ?_, hfreed.alike.trans halike, hcwd.trans hfreed.cwd, fun m hmb _ hmaps => ?_, fun j hj => ?_, ?_⟩,
    hind, fun j hj => ?_⟩
  · rw [← hfreed.used m]
    refine used_congr (hfreed.alike.laid h.laid) halike (fun g hg => ?_) m
    have hg' : g < v.vol.geo.groups := hfreed.alike.geo ▸ hg
    rw [← hfreed.alike.desc g 0 (by decide)]
    exact hmem _ (h.ne_map hg' (.inl rfl))
  · rw [hmem m hmb, hfreed.mem m hmaps]
  · rw [hb, Buf.get_put32_ne _ _ (by omega), Buf.get_put32_ne _ _ (by omega), hwb]
  · rw [hb, Buf.get32_put32 _ _ _ (by omega)]
  · by_cases hj12 : j < 12
    · unfold pointer
      rw [if_pos hj12, if_pos hj12, hb, Buf.get32_put32_ne _ _ (by omega), Buf.get32_put32_ne _ _ (by omega), hwb]
    · rw [hnone j hj (by omega)]
      unfold pointer
      rw [if_neg hj12, if_pos hind]

/-- The pointers that satisfy `P` are cleared, and the other blocks are what they were. -/
structure Cleared (v u : View) (b off : Nat) (P : Nat → Prop) : Prop where
  has : u.Has b off maxPointers
  counted : v.Counted b off maxPointers → u.Counted b off maxPointers
  within : Within b off v u
  zero : ∀ j < maxPointers, P j → u.pointer b off j = 0
  pointer : ∀ j < maxPointers, ¬P j → u.pointer b off j = v.pointer b off j
  data : ∀ j < maxPointers, u.pointer b off j ≠ 0 → u.mem (u.pointer b off j) = v.mem (v.pointer b off j)
  get : ∀ j, j < off + 28 ∨ off + 32 ≤ j ∧ j < off + 40 ∨ off + 92 ≤ j → (u.mem b).get j = (v.mem b).get j

namespace Cleared

variable {P P' : Nat → Prop}

theorem holds (h : v.Cleared u b off P) (hh : v.Holds b off maxPointers) : u.Holds b off maxPointers := ⟨h.has, h.counted hh.count⟩

theorem refl (hh : v.Has b off maxPointers) (hP : ∀ j < maxPointers, P j → v.pointer b off j = 0) : v.Cleared v b off P :=
  ⟨hh, id, .refl v, hP, fun _ _ _ => rfl, fun _ _ _ => rfl, fun _ _ => rfl⟩

theorem trans (h : v.Cleared u b off P) (h' : u.Cleared w b off P') : v.Cleared w b off fun j => P j ∨ P' j := by
  have hback : ∀ j < maxPointers, w.pointer b off j ≠ 0 → u.pointer b off j ≠ 0 := by
    intro j hj hne
    by_cases hP' : P' j
    · exact absurd (h'.zero j hj hP') hne
    · rwa [← h'.pointer j hj hP']
  refine ⟨h'.has, h'.counted ∘ h.counted, h.within.trans h'.within, fun j hj hor => ?_, fun j hj hnor => ?_, fun j hj hne => ?_,
    fun j hj => (h'.get j hj).trans (h.get j hj)⟩
  · by_contra hne
    rcases hor with hP | hP'
    · exact hback j hj hne (h.zero j hj hP)
    · exact hne (h'.zero j hj hP')
  · obtain ⟨hP, hP'⟩ := not_or.1 hnor
    exact (h'.pointer j hj hP').trans (h.pointer j hj hP)
  · exact (h'.data j hj hne).trans (h.data j hj (hback j hj hne))

theorem congr (h : v.Cleared u b off P) (hP : ∀ j < maxPointers, P j ↔ P' j) : v.Cleared u b off P' :=
  ⟨h.has, h.counted, h.within, fun j hj hj' => h.zero j hj ((hP j hj).2 hj'), fun j hj hj' => h.pointer j hj fun hj => hj' ((hP j ‹_›).1 hj),
    h.data, h.get⟩

end Cleared

/-- A pointer cleared, with its block given back. -/
theorem Shed.cleared (h : v.InTable b off) (hh : v.Has b off maxPointers) {i : Nat} (hi : i < maxPointers) (hx : v.pointer b off i ≠ 0)
    (hshed : v.Shed u b off (v.pointer b off i)) (hp : v.Points u b off i 0) : v.Cleared u b off (· = i) := by
  refine ⟨hshed.has_points hh hi hx hp, hshed.counted_points hi hx hp, hshed.within h hh fun m hm => owns_points hp hm, fun j hj hji => ?_, fun j hj hji => ?_,
    fun j hj hne => ?_, hshed.get⟩
  · rw [hp.pointer j hj, if_pos hji]
  · rw [hp.pointer j hj, if_neg hji]
  · rw [hp.pointer j hj] at hne ⊢
    split at hne
    · exact absurd rfl hne
    · rename_i hji
      rw [if_neg hji]
      exact mem_used h hshed (hh.used j hj hne) (hh.apart j hj hne)

theorem Shed.clearedIndirect (h : v.InTable b off) (hh : v.Has b off maxPointers) (hx : v.indirect b off ≠ 0)
    (hshed : v.Shed u b off (v.indirect b off)) (hind : u.indirect b off = 0)
    (hptr : ∀ j < maxPointers, u.pointer b off j = v.pointer b off j) : v.Cleared u b off fun _ => False := by
  refine ⟨hshed.has_indirect hh hind hptr, hshed.counted_indirect hx hind hptr, hshed.within h hh fun m hm => ?_, fun _ _ hno => hno.elim, fun j hj _ => hptr j hj,
    fun j hj hne => ?_, hshed.get⟩
  · obtain ⟨h0, hi | ⟨j, hj, hj'⟩⟩ := hm
    · exact absurd (hi.trans hind) h0
    · exact ⟨h0, .inr ⟨j, hj, (hptr j hj).symm.trans hj'⟩⟩
  · rw [hptr j hj] at hne ⊢
    exact mem_used h hshed (hh.used j hj hne) (hh.apart j hj hne)

end View

open View

/-- Two sectors less, as the code counts them. -/
theorem two_less (n : Nat) : n + 2 ^ 32 - 2 = n + 4294967294 := by omega

/-- A slot that holds no block is left alone. -/
theorem careful_dropBlock_zero {Q : Unit → View → Prop} {node : Ptr} {m k : Nat} (hzero : (v.mem m).get32 k = 0) (hq : Q () v) :
    (dropBlock node ⟨some m, k⟩).wp careful Q v := by
  unfold dropBlock
  simp only [Client.wp_bind, careful_rd32, careful_ite, Client.wp_pure, Nat.add_zero]
  rw [if_pos hzero]
  exact hq

/-- A slot of the file cleared, with its block given back. -/
theorem careful_dropBlock (h : v.InTable b off) (hh : v.Has b off maxPointers) {i : Nat} (hi : i < maxPointers) (hslot : v.HasSlot b off i) :
    (dropBlock ⟨some b, off⟩ ⟨some (v.slotBlock b off i), slotOff off i⟩).wp careful
      (fun _ u => v.Cleared u b off (· = i) ∧ u.indirect b off = v.indirect b off) v := by
  have hptr := pointer_eq_slot hslot
  by_cases hx : v.pointer b off i = 0
  · refine careful_dropBlock_zero (hptr ▸ hx) ⟨.refl hh fun j _ hji => ?_, rfl⟩
    rw [hji]
    exact hx
  unfold dropBlock
  simp only [Client.wp_bind, careful_rd32, careful_ite, Client.wp_pure, Nat.add_zero]
  rw [← hptr, if_neg hx]
  refine Client.wp_mono careful_mono (fun _ w hfreed => ?_) (careful_releaseBlock h.laid (data_of_used (hh.used i hi hx)))
  obtain ⟨hshed, hpoints⟩ := shed_repoint h hh hi hx hfreed
  obtain ⟨hwind, -, hwb⟩ := freed_file h hh hfreed
  have hblock : v.slotBlock b off i = w.slotBlock b off i := by
    unfold slotBlock
    rw [hwind]
  have hcount : ((w.withSlot b off i 0).mem b).get32 (off + 28) = _ := withSlot_count (hwind ▸ hh.indirect_ne h)
  rw [hwb] at hcount
  have howned : w.vol.Owned (v.slotBlock b off i) := hfreed.alike.owned.1 (owned_slot h hh hslot)
  rw [hblock] at howned ⊢
  simp only [careful_wr32, careful_rd32, Nat.add_zero]
  refine ⟨⟨howned, nofun⟩, ⟨.inr (.inl (h.alike hfreed.alike).table), nofun⟩, ?_⟩
  rw [show w.set (w.slotBlock b off i) _ = w.withSlot b off i 0 from rfl, hcount, two_less]
  exact ⟨hshed.cleared h hh hi hx hpoints, hpoints.indirect⟩

/-- The loop of `truncate_blocks`. -/
theorem careful_truncateLoop (h : v.InTable b off) (hh : v.Has b off maxPointers) {is : List Nat} (his : ∀ i ∈ is, i < maxPointers) :
    (truncateLoop ⟨some b, off⟩ is).wp careful (fun _ u => v.Cleared u b off (· ∈ is) ∧ u.indirect b off = v.indirect b off) v := by
  induction is generalizing v with
  | nil => exact ⟨.refl hh fun _ _ hj => absurd hj List.not_mem_nil, rfl⟩
  | cons i is ih =>
    have hi := his i List.mem_cons_self
    have his' : ∀ j ∈ is, j < maxPointers := fun j hj => his j (List.mem_cons_of_mem _ hj)
    -- after the slot of `i`, the rest
    have hrest : ∀ u, v.Cleared u b off (· = i) → u.indirect b off = v.indirect b off →
        (truncateLoop ⟨some b, off⟩ is).wp careful (fun _ u => v.Cleared u b off (· ∈ i :: is) ∧ u.indirect b off = v.indirect b off) u := by
      intro u hu hind
      refine Client.wp_mono careful_mono (fun _ w hw => ?_) (ih (h.alike hu.within.alike) hu.has his')
      exact ⟨(hu.trans hw.1).congr fun j _ => List.mem_cons.symm, hw.2.trans hind⟩
    unfold truncateLoop fileSlot
    rw [Client.wp_bind, careful_ite]
    split
    · rename_i hi12
      have hdrop := careful_dropBlock h hh hi (.inl hi12)
      unfold slotBlock slotOff at hdrop
      rw [if_pos hi12, if_pos hi12] at hdrop
      exact wp_then hdrop fun _ u hu => hrest u hu.1 hu.2
    rename_i hi12
    simp only [Client.wp_bind, careful_rd32, careful_ite, careful_block, Client.wp_pure, Bool.not_false, if_true]
    change if v.indirect b off ≠ 0 then _ else _
    split
    · rename_i hind
      refine ⟨owned_of_used (hh.indirect hind), ?_⟩
      have hdrop := careful_dropBlock h hh hi (.inr hind)
      unfold slotBlock slotOff at hdrop
      rw [if_neg hi12, if_neg hi12] at hdrop
      rw [Ptr.add_mk, Nat.zero_add]
      rw [← Client.wp_bind]
      exact wp_then hdrop fun _ u hu => hrest u hu.1 hu.2
    · rename_i hind
      refine hrest v (.refl hh fun j _ hji => ?_) rfl
      rw [hji]
      exact pointer_of_no_slot (not_or.2 ⟨hi12, hind⟩)

/-- `truncate_blocks`. -/
theorem careful_truncateBlocks (h : v.InTable b off) (hh : v.Has b off maxPointers) (keep : Nat) :
    (truncateBlocks ⟨some b, off⟩ keep).wp careful (fun _ u => v.Cleared u b off (keep ≤ ·)) v := by
  have hrange : ∀ i ∈ List.range' keep (268 - keep), i < maxPointers := by
    intro i hi
    rw [List.mem_range'_1] at hi
    unfold maxPointers
    omega
  unfold truncateBlocks
  refine wp_then (careful_truncateLoop h hh hrange) fun _ u hu => ?_
  have hcleared : v.Cleared u b off (keep ≤ ·) := by
    refine hu.1.congr fun j hj => ?_
    rw [List.mem_range'_1]
    unfold maxPointers at hj
    omega
  rw [careful_ite]
  split
  · rename_i hkeep
    rw [Ptr.add_mk]
    by_cases hx : u.indirect b off = 0
    · exact careful_dropBlock_zero hx hcleared
    · have hut := h.alike hcleared.within.alike
      have hnone : ∀ j < maxPointers, 12 ≤ j → u.pointer b off j = 0 := fun j hj hj12 => hcleared.zero j hj (Nat.le_trans hkeep hj12)
      unfold dropBlock
      simp only [Client.wp_bind, careful_rd32, careful_ite, Client.wp_pure, Nat.add_zero]
      change if u.indirect b off = 0 then _ else _
      rw [if_neg hx]
      refine Client.wp_mono careful_mono (fun _ w hfreed => ?_) (careful_releaseBlock hut.laid (data_of_used (hcleared.has.indirect hx)))
      obtain ⟨hshed, hind, hptr⟩ := shed_indirect hut hcleared.has hx hnone hfreed
      obtain ⟨-, -, hwb⟩ := freed_file hut hcleared.has hfreed
      have hcount : ((w.set b ((w.mem b).put32 (off + 88) 0)).mem b).get32 (off + 28) = (u.mem b).get32 (off + 28) := by
        rw [set_mem_same, Buf.get32_put32_ne _ _ (by omega), hwb]
      have hwt := (hut.alike hfreed.alike).table
      simp only [careful_wr32, careful_rd32, Nat.add_zero]
      refine ⟨⟨.inr (.inl hwt), nofun⟩, ⟨.inr (.inl hwt), nofun⟩, ?_⟩
      rw [hcount, two_less]
      refine (hcleared.trans (hshed.clearedIndirect hut hcleared.has hx hind hptr)).congr fun j _ => ?_
      rw [or_false]
  · exact hcleared

end

end Barnix.Ext2
