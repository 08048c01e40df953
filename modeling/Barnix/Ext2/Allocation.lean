import Barnix.Ext2.Inodes
/-!
# Taking and giving back blocks and inodes

What `allocate` finds and what `take` and `release` change: one bit of one bitmap, the
counters, and the bytes of what was taken.
-/

namespace Barnix.Ext2

section
variable {v : View}

/-! ## Searching -/

theorem careful_firstFree {Q : Option Nat → View → Prop} {m : Nat} {is : List Nat}
    (hq : Q (is.find? fun i => !(v.mem m).bit i) v) : (firstFree ⟨some m, 0⟩ is).wp careful Q v := by
  induction is with
  | nil => exact hq
  | cons i is ih =>
    unfold firstFree
    rw [Client.wp_bind, careful_bit, careful_ite]
    split
    · rename_i hbit
      rw [List.find?_cons_of_neg (by simp [hbit])] at hq
      exact ih hq
    · rename_i hbit
      rw [List.find?_cons_of_pos (by simp [hbit])] at hq
      exact hq

/-! ## Blocks -/

theorem Buf.edit_all {n : Nat} (b : Buf n) (f : Buf n → Buf n) : b.edit 0 n f = f b := by
  have hwindow : b.window 0 n = b := by
    refine Buf.ext_get fun j hj => ?_
    rw [Buf.get_window, if_pos hj, Nat.zero_add]
  refine Buf.ext_get fun j hj => ?_
  rw [Buf.get_edit, if_pos ⟨Nat.zero_le j, by omega, hj⟩, hwindow, Nat.sub_zero]

def zeros : Block := fun _ => 0

theorem get_zeros (i : Nat) : zeros.get i = 0 := by
  unfold Buf.get
  split <;> rfl

/-- A data block filled with zeros. -/
theorem careful_zeroBlock {Q : Unit → View → Prop} {n : Nat} (hn : v.vol.dataBlock n = true) (hq : Q () (v.set n zeros)) :
    (block n >>= fun p => store .content p blockSize fun _ _ => 0).wp careful Q v := by
  rw [Client.wp_bind, careful_block]
  refine ⟨.inr (.inr hn), (careful_store ..).mpr ⟨⟨.inr (.inr hn), fun _ => hn⟩, ?_⟩⟩
  have hedit : (v.mem n).edit 0 1024 (fun _ => zeros) = zeros := Buf.edit_all _ _
  show Q () (v.set n ((v.mem n).edit 0 1024 fun _ => zeros))
  rw [hedit]
  exact hq

namespace View

/-- Block `n` was free and is taken: marked, zeroed, and nothing else but the bitmaps changed. -/
structure Took (v v' : View) (n : Nat) : Prop where
  data : v.vol.dataBlock n = true
  free : v.marked n = false
  alike : v.vol.Alike v'.vol
  cwd : v'.cwd = v.cwd
  marked : ∀ x, v.vol.dataBlock x = true → v'.marked x = (x == n || v.marked x)
  zero : v'.mem n = zeros
  mem : ∀ m, m ≠ n → (∀ g < v.vol.geo.groups, m ≠ v.vol.desc g 0) → v'.mem m = v.mem m

/-- Block `n` is given back: unmarked, and nothing else but the bitmaps changed. -/
structure Freed (v v' : View) (n : Nat) : Prop where
  alike : v.vol.Alike v'.vol
  cwd : v'.cwd = v.cwd
  marked : ∀ x, v.vol.dataBlock x = true → v'.marked x = (x != n && v.marked x)
  mem : ∀ m, (∀ g < v.vol.geo.groups, m ≠ v.vol.desc g 0) → v'.mem m = v.mem m

/-- The bits of the block bitmaps after one of them changed in group `g`. -/
theorem marked_setbit (h : v.vol.Laid) {g i : Nat} (hg : g < v.vol.geo.groups) (hi : i < v.vol.groupSize g) (bit : Bool) {u : View}
    (halike : v.vol.Alike u.vol)
    (hmem : ∀ g' < v.vol.geo.groups, u.mem (v.vol.desc g' 0) =
      (v.set (v.vol.desc g 0) ((v.mem (v.vol.desc g 0)).setbit i bit)).mem (v.vol.desc g' 0)) {x : Nat} (hx : v.vol.dataBlock x = true) :
    u.marked x = if x = v.vol.groupStart g + i then bit else v.marked x := by
  obtain ⟨h0, hlt⟩ := Volume.Laid.dataBlock_lt hx
  have hxg := h.group_lt hlt
  obtain ⟨hle, hend⟩ := h.in_group h0 hlt
  unfold marked
  rw [← halike.geo, ← halike.desc _ 0 (by decide), ← halike.groupStart, hmem _ hxg, set_mem]
  by_cases hsame : (x - 1) / v.vol.geo.blocksPerGroup = g
  · rw [hsame] at hle hend ⊢
    rw [if_pos rfl]
    by_cases hbit : x = v.vol.groupStart g + i
    · have hindex : x - v.vol.groupStart g = i := by omega
      have hsize : i < 8192 := by
        have hper := h.perGroup_le
        have hle' := Volume.Laid.groupEnd_le_start v.vol g
        unfold Volume.groupEnd at hle'
        omega
      rw [if_pos hbit, hindex, Buf.bit_setbit_same _ _ (by omega)]
    · rw [if_neg hbit, Buf.bit_setbit_ne _ _ (by omega)]
  · have hmap : v.vol.desc ((x - 1) / v.vol.geo.blocksPerGroup) 0 ≠ v.vol.desc g 0 := fun heq =>
      hsame (h.map_inj hxg hg (.inl rfl) (.inl rfl) heq).1
    have hother : x ≠ v.vol.groupStart g + i := by
      rintro rfl
      apply hsame
      apply Volume.Laid.group_eq
      · omega
      · unfold Volume.groupEnd
        omega
    rw [if_neg hmap, if_neg hother]

end View

/-- The free counts of the volume and of group `g` set to `a` and `c`. -/
def View.counted (v : View) (isInode : Bool) (g a c : Nat) : View :=
  { v with vol := ⟨v.vol.geo, v.vol.superblock.put32 (superCount isInode) a, v.vol.descriptors.put16 (g * 32 + descCount isInode) c⟩ }

@[simp] theorem View.counted_mem (isInode : Bool) (g a c : Nat) : (v.counted isInode g a c).mem = v.mem := rfl

@[simp] theorem View.counted_cwd (isInode : Bool) (g a c : Nat) : (v.counted isInode g a c).cwd = v.cwd := rfl

theorem View.counted_alike (isInode : Bool) (g a c : Nat) : v.vol.Alike (v.counted isInode g a c).vol := by
  cases isInode with
  | true => exact (Volume.Alike.putSuper (k := 16) (by decide) a).trans (.putDesc (k := 14) (by decide) (by decide) c)
  | false => exact (Volume.Alike.putSuper (k := 12) (by decide) a).trans (.putDesc (k := 12) (by decide) (by decide) c)

theorem careful_counts {isInode : Bool} {g a c : Nat} {Q : Unit → View → Prop} (hg : g < v.vol.geo.groups)
    (hq : Q () (v.counted isInode g a c)) :
    (putSuper (superCount isInode) a).wp careful (fun _ => (putDesc (g * 32 + descCount isInode) c).wp careful Q) v := by
  rw [careful_putSuper, careful_putDesc]
  cases isInode with
  | true => exact ⟨by decide, ⟨g, 14, rfl, hg, by decide, by decide⟩, hq⟩
  | false => exact ⟨by decide, ⟨g, 12, rfl, hg, by decide, by decide⟩, hq⟩

theorem careful_takeBlock (h : v.vol.Laid) {g i : Nat} (hg : g < v.vol.geo.groups) (hi : i < v.vol.groupSize g)
    (hdata : v.vol.dataBlock (v.vol.groupStart g + i) = true) (hfree : (v.mem (v.vol.desc g 0)).bit i = false) :
    (take false g i (v.vol.groupStart g + i) ⟨some (v.vol.desc g 0), 0⟩).wp careful
      (fun _ v' => v.Took v' (v.vol.groupStart g + i)) v := by
  have hmap : v.vol.Map (v.vol.desc g 0) := ⟨g, hg, .inl rfl⟩
  have hne : ∀ g' < v.vol.geo.groups, v.vol.desc g' 0 ≠ v.vol.groupStart g + i := by
    intro g' hg' heq
    have hno := h.map_not_data ⟨g', hg', .inl rfl⟩
    rw [heq, hdata] at hno
    cases hno
  unfold take
  rw [Client.wp_bind, careful_setbit]
  refine ⟨.inl hmap, ?_⟩
  simp only [Client.wp_bind, careful_volume]
  refine careful_counts (by exact hg) ?_
  have halike := View.counted_alike (v := v.set (v.vol.desc g 0) ((v.mem (v.vol.desc g 0)).setbit i true)) false g
    (v.vol.superblock.get32 (superCount false) - 1) (v.vol.descriptors.get16 (g * 32 + descCount false) - 1)
  rw [View.set_vol] at halike ⊢
  generalize hw : (v.set (v.vol.desc g 0) ((v.mem (v.vol.desc g 0)).setbit i true)).counted false g
    (v.vol.superblock.get32 (superCount false) - 1) (v.vol.descriptors.get16 (g * 32 + descCount false) - 1) = w at halike ⊢
  have hmem : w.mem = (v.set (v.vol.desc g 0) ((v.mem (v.vol.desc g 0)).setbit i true)).mem := hw ▸ rfl
  have hcwd : w.cwd = v.cwd := hw ▸ rfl
  apply careful_zeroBlock ((halike.dataBlock _).symm.trans hdata)
  have hbit : v.marked (v.vol.groupStart g + i) = false := by
    have hend : v.vol.groupStart g + i < v.vol.groupEnd g := Nat.add_lt_add_left hi _
    unfold View.marked
    rw [Volume.Laid.group_eq _ (Nat.le_add_right _ _) hend, Nat.add_sub_cancel_left]
    exact hfree
  refine ⟨hdata, hbit, halike, hcwd, fun x hx => ?_, View.set_mem_same .., fun m hm hmaps => ?_⟩
  · refine (View.marked_setbit h hg hi true (u := w.set _ _) halike (fun g' hg' => ?_) hx).trans ?_
    · rw [View.set_mem, if_neg (hne g' hg'), hmem]
    · by_cases hx : x = v.vol.groupStart g + i
      · rw [if_pos hx, beq_iff_eq.2 hx, Bool.true_or]
      · rw [if_neg hx, beq_false_of_ne hx, Bool.false_or]
  · rw [View.set_mem, if_neg hm, hmem, View.set_mem, if_neg (hmaps g hg)]

/-! ## Inodes -/

namespace View

/-- Inode `n` was free and is taken: marked and zeroed, and nothing else but the bitmaps changed. -/
structure TookInode (v v' : View) (n : Nat) : Prop where
  pos : n ≠ 0
  le : n ≤ v.vol.geo.inodeCount
  free : v.inUse n = false
  alike : v.vol.Alike v'.vol
  cwd : v'.cwd = v.cwd
  inUse : ∀ m, m ≠ 0 → m ≤ v.vol.geo.inodeCount → v'.inUse m = (m == n || v.inUse m)
  zero : ∀ k < v.vol.geo.inodeSize, (v'.mem (v.nodeBlock n)).get (v.nodeOff n + k) = 0
  rest : ∀ j, j < v.nodeOff n ∨ v.nodeOff n + v.vol.geo.inodeSize ≤ j →
    (v'.mem (v.nodeBlock n)).get j = (v.mem (v.nodeBlock n)).get j
  mem : ∀ m, m ≠ v.nodeBlock n → (∀ g < v.vol.geo.groups, m ≠ v.vol.desc g 4) → v'.mem m = v.mem m

/-- Inode `n` is given back: unmarked, and nothing else but the bitmaps changed. -/
structure FreedInode (v v' : View) (n : Nat) : Prop where
  alike : v.vol.Alike v'.vol
  cwd : v'.cwd = v.cwd
  inUse : ∀ m, m ≠ 0 → m ≤ v.vol.geo.inodeCount → v'.inUse m = (m != n && v.inUse m)
  mem : ∀ m, (∀ g < v.vol.geo.groups, m ≠ v.vol.desc g 4) → v'.mem m = v.mem m

theorem node_alike {w : View} (h : v.vol.Alike w.vol) (n : Nat) : w.nodeBlock n = v.nodeBlock n ∧ w.nodeOff n = v.nodeOff n := by
  unfold nodeBlock nodeOff
  rw [← h.geo, ← h.desc _ 8 (by decide)]
  exact ⟨rfl, rfl⟩

/-- The inodes in use after one bit of the inode bitmaps changed in group `g`. -/
theorem inUse_setbit (h : v.vol.Laid) {g i : Nat} (hg : g < v.vol.geo.groups) (hi : i < v.vol.geo.inodesPerGroup) (bit : Bool)
    {u : View} (halike : v.vol.Alike u.vol)
    (hmem : ∀ g' < v.vol.geo.groups, u.mem (v.vol.desc g' 4) =
      (v.set (v.vol.desc g 4) ((v.mem (v.vol.desc g 4)).setbit i bit)).mem (v.vol.desc g' 4))
    {x : Nat} (hx : x ≠ 0) (hle : x ≤ v.vol.geo.inodeCount) :
    u.inUse x = if x = g * v.vol.geo.inodesPerGroup + i + 1 then bit else v.inUse x := by
  have hxg := group_lt h hx hle
  have hsize := h.inodes_le
  have hrange : (decide (x ≠ 0) && decide (x ≤ v.vol.geo.inodeCount)) = true := by simpa using ⟨hx, hle⟩
  have hdiv := Nat.div_add_mod' (x - 1) v.vol.geo.inodesPerGroup
  have hmod := Nat.mod_lt (x - 1) h.inodes
  unfold inUse
  rw [← halike.geo, ← halike.desc _ 4 (by decide), hrange, Bool.true_and, Bool.true_and, hmem _ hxg, set_mem]
  by_cases hsame : (x - 1) / v.vol.geo.inodesPerGroup = g
  · rw [hsame] at hdiv ⊢
    rw [if_pos rfl]
    by_cases hbit : x = g * v.vol.geo.inodesPerGroup + i + 1
    · have hindex : (x - 1) % v.vol.geo.inodesPerGroup = i := by omega
      rw [if_pos hbit, hindex, Buf.bit_setbit_same _ _ (by omega)]
    · rw [if_neg hbit, Buf.bit_setbit_ne _ _ (by omega)]
  · have hmap : v.vol.desc ((x - 1) / v.vol.geo.inodesPerGroup) 4 ≠ v.vol.desc g 4 := fun heq =>
      hsame (h.map_inj hxg hg (.inr rfl) (.inr rfl) heq).1
    have hother : x ≠ g * v.vol.geo.inodesPerGroup + i + 1 := by
      rintro rfl
      apply hsame
      rw [Nat.add_sub_cancel, Nat.mul_comm, Nat.mul_add_div h.inodes, Nat.div_eq_of_lt hi, Nat.add_zero]
    rw [if_neg hmap, if_neg hother]

end View

theorem edit_zero {n : Nat} (b : Buf n) (off len : Nat) (z : Buf len) (hz : ∀ i, z i = 0) : b.edit off len (fun _ => z) = b.fill off len 0 := by
  refine Buf.ext_get fun j hj => ?_
  rw [Buf.get_edit, Buf.get_fill]
  by_cases h : off ≤ j ∧ j < off + len ∧ j < n
  · rw [if_pos h, if_pos h, Buf.get_lt _ (by omega), hz]
  · rw [if_neg h, if_neg h]

/-- Bytes of an owned block filled with zeros. -/
theorem careful_zero {Q : Unit → View → Prop} {b off len : Nat} (hb : v.vol.Owned b) (hq : Q () (v.set b ((v.mem b).fill off len 0))) :
    (store .metadata ⟨some b, off⟩ len fun _ _ => 0).wp careful Q v := by
  refine (careful_store ..).mpr ⟨⟨hb, nofun⟩, ?_⟩
  exact (edit_zero (v.mem b) off len (fun _ => 0) fun _ => rfl) ▸ hq

theorem careful_takeInode (h : v.vol.Laid) {g i : Nat} (hg : g < v.vol.geo.groups) (hi : i < v.vol.geo.inodesPerGroup)
    (hfree : (v.mem (v.vol.desc g 4)).bit i = false) :
    (take true g i (g * v.vol.geo.inodesPerGroup + i + 1) ⟨some (v.vol.desc g 4), 0⟩).wp careful
      (fun _ v' => v.TookInode v' (g * v.vol.geo.inodesPerGroup + i + 1)) v := by
  have hmap : v.vol.Map (v.vol.desc g 4) := ⟨g, hg, .inr rfl⟩
  have hle : g * v.vol.geo.inodesPerGroup + i + 1 ≤ v.vol.geo.inodeCount := by
    have hmul := Nat.mul_le_mul_right v.vol.geo.inodesPerGroup (Nat.succ_le_of_lt hg)
    rw [Nat.succ_mul] at hmul
    rw [h.inodeCount]
    omega
  generalize hn : g * v.vol.geo.inodesPerGroup + i + 1 = n at hle ⊢
  have hpos : n ≠ 0 := by omega
  unfold take
  rw [Client.wp_bind, careful_setbit]
  refine ⟨.inl hmap, ?_⟩
  simp only [Client.wp_bind, careful_volume]
  refine careful_counts (by exact hg) ?_
  have halike := View.counted_alike (v := v.set (v.vol.desc g 4) ((v.mem (v.vol.desc g 4)).setbit i true)) true g
    (v.vol.superblock.get32 (superCount true) - 1) (v.vol.descriptors.get16 (g * 32 + descCount true) - 1)
  rw [View.set_vol] at halike ⊢
  generalize hw : (v.set (v.vol.desc g 4) ((v.mem (v.vol.desc g 4)).setbit i true)).counted true g
    (v.vol.superblock.get32 (superCount true) - 1) (v.vol.descriptors.get16 (g * 32 + descCount true) - 1) = w at halike ⊢
  have hmem : w.mem = (v.set (v.vol.desc g 4) ((v.mem (v.vol.desc g 4)).setbit i true)).mem := hw ▸ rfl
  have hcwd : w.cwd = v.cwd := hw ▸ rfl
  have huse : ∀ x, x ≠ 0 → x ≤ v.vol.geo.inodeCount → w.inUse x = if x = n then true else v.inUse x := by
    intro x hx hxle
    rw [View.inUse_setbit h hg hi true halike (fun _ _ => by rw [hmem]) hx hxle, hn]
  rw [if_pos trivial, Client.wp_bind]
  apply careful_inode (halike.laid h)
  rw [huse n hpos hle, if_pos rfl, if_pos rfl]
  obtain ⟨hblock, hoff⟩ := View.node_alike halike n
  obtain ⟨htable, hend⟩ := View.inode_place h hpos hle
  have hnotmap : ∀ g' < v.vol.geo.groups, v.vol.desc g' 4 ≠ v.nodeBlock n := fun g' hg' heq =>
    h.map_not_table ⟨g', hg', .inr rfl⟩ (heq ▸ htable)
  unfold View.node
  rw [hblock, hoff]
  apply careful_zero (halike.owned.1 (.inr (.inl htable)))
  have hnode : w.mem (v.nodeBlock n) = v.mem (v.nodeBlock n) := by
    rw [hmem, View.set_mem, if_neg (hnotmap g hg).symm]
  have hfreed : v.inUse n = false := by
    have hgroup : (n - 1) / v.vol.geo.inodesPerGroup = g := by
      rw [← hn, Nat.add_sub_cancel, Nat.mul_comm, Nat.mul_add_div h.inodes, Nat.div_eq_of_lt hi, Nat.add_zero]
    have hindex : (n - 1) % v.vol.geo.inodesPerGroup = i := by
      rw [← hn, Nat.add_sub_cancel, Nat.mul_comm, Nat.mul_add_mod, Nat.mod_eq_of_lt hi]
    rw [← Bool.not_eq_true, View.inUse_iff, hgroup, hindex, hfree]
    exact fun hused => nomatch hused.2
  refine ⟨hpos, hle, hfreed, halike, hcwd, fun m hm hmle => ?_, fun k hk => ?_, fun j hj => ?_, fun m hm hmaps => ?_⟩
  · refine (View.inUse_setbit h hg hi true (u := w.set _ _) halike (fun g' hg' => ?_) hm hmle).trans ?_
    · rw [View.set_mem, if_neg (hnotmap g' hg'), hmem]
    · rw [hn]
      by_cases hmn : m = n
      · rw [if_pos hmn, beq_iff_eq.2 hmn, Bool.true_or]
      · rw [if_neg hmn, beq_false_of_ne hmn, Bool.false_or]
  · rw [View.set_mem_same, Buf.get_fill, if_pos (by omega)]
  · rw [View.set_mem_same, Buf.get_fill, if_neg (by omega), hnode]
  · rw [View.set_mem, if_neg hm, hmem, View.set_mem, if_neg (hmaps g hg)]

/-! ## Giving back -/

theorem careful_releaseBlock {n : Nat} (h : v.vol.Laid) (hn : v.vol.dataBlock n = true) :
    (release n false).wp careful (fun _ v' => v.Freed v' n) v := by
  obtain ⟨h0, hlt⟩ := Volume.Laid.dataBlock_lt hn
  have hg := h.group_lt hlt
  obtain ⟨hle, hend⟩ := h.in_group h0 hlt
  unfold release
  simp only [Client.wp_bind, careful_volume, careful_block, careful_setbit, Bool.false_eq_true, if_false]
  generalize (n - 1) / v.vol.geo.blocksPerGroup = g at hg hle hend ⊢
  have hmap : v.vol.Owned (v.vol.desc g 0) := .inl ⟨g, hg, .inl rfl⟩
  have hi : n - v.vol.groupStart g < v.vol.groupSize g := by
    unfold Volume.groupEnd at hend
    omega
  have hadd : v.vol.groupStart g + (n - v.vol.groupStart g) = n := by omega
  refine ⟨hmap, hmap, ?_⟩
  refine careful_counts (by exact hg) ?_
  refine ⟨View.counted_alike (v := v.set _ _) .., rfl, fun x hx => ?_, fun m hm => ?_⟩
  · refine (View.marked_setbit h hg hi false (View.counted_alike (v := v.set _ _) ..) (fun g' hg' => rfl) hx).trans ?_
    rw [hadd]
    by_cases hx : x = n
    · rw [if_pos hx, hx, bne_self_eq_false, Bool.false_and]
    · rw [if_neg hx, bne_iff_ne.2 hx, Bool.true_and]
  · rw [View.counted_mem, View.set_mem]
    exact if_neg (hm g hg)

theorem careful_releaseInode {n : Nat} (h : v.vol.Laid) (h0 : n ≠ 0) (hle : n ≤ v.vol.geo.inodeCount) :
    (release n true).wp careful (fun _ v' => v.FreedInode v' n) v := by
  have hg := View.group_lt h h0 hle
  have hi := Nat.mod_lt (n - 1) h.inodes
  have hdiv := Nat.div_add_mod' (n - 1) v.vol.geo.inodesPerGroup
  unfold release
  simp only [Client.wp_bind, careful_volume, careful_block, careful_setbit, if_true]
  generalize (n - 1) / v.vol.geo.inodesPerGroup = g at hg hdiv ⊢
  have hmap : v.vol.Owned (v.vol.desc g 4) := .inl ⟨g, hg, .inr rfl⟩
  refine ⟨hmap, hmap, ?_⟩
  refine careful_counts (by exact hg) ?_
  refine ⟨View.counted_alike (v := v.set _ _) .., rfl, fun m hm hmle => ?_, fun m hm => ?_⟩
  · refine (View.inUse_setbit h hg hi false (View.counted_alike (v := v.set _ _) ..) (fun g' hg' => rfl) hm hmle).trans ?_
    have hadd : g * v.vol.geo.inodesPerGroup + (n - 1) % v.vol.geo.inodesPerGroup + 1 = n := by omega
    rw [hadd]
    by_cases hmn : m = n
    · rw [if_pos hmn, hmn, bne_self_eq_false, Bool.false_and]
    · rw [if_neg hmn, bne_iff_ne.2 hmn, Bool.true_and]
  · rw [View.counted_mem, View.set_mem]
    exact if_neg (hm g hg)

/-! ## The group loop -/

theorem mem_of_find {m start limit i : Nat} (h : (List.range' start (limit - start)).find? (fun i => !(v.mem m).bit i) = some i) :
    i < limit ∧ (v.mem m).bit i = false := by
  have hmem := List.mem_of_find?_eq_some h
  have hbit := List.find?_some h
  rw [List.mem_range'_1] at hmem
  exact ⟨by omega, by simpa using hbit⟩

section
variable {Q : Nat → View → Prop}

theorem careful_allocateBlock (h : v.vol.Laid) (hnone : Q 0 v) (hsome : ∀ n v', n ≠ 0 → v.Took v' n → Q n v') :
    (allocate false).wp careful Q v := by
  unfold allocate
  rw [Client.wp_bind, careful_volume]
  generalize List.range v.vol.geo.groups = steps
  induction steps with
  | nil => exact hnone
  | cons step steps ih =>
    unfold allocateGroups
    simp only [Client.wp_bind, careful_volume, careful_hint, careful_ite, careful_block, Bool.false_eq_true, if_false,
      Bool.false_and, Bool.not_false, Bool.true_and]
    have hpos : 0 < v.vol.geo.groups := h.groups ▸ Nat.succ_pos _
    have hg := Nat.mod_lt (v.hintBlock + step) hpos
    generalize (v.hintBlock + step) % v.vol.geo.groups = g at hg ⊢
    split
    · exact ih
    refine ⟨.inl ⟨g, hg, .inl rfl⟩, ?_⟩
    apply careful_firstFree
    cases hfind : (List.range' 0 (v.vol.groupSize g - 0)).find? fun i => !(v.mem (v.vol.desc g (descMap false))).bit i with
    | none => exact hnone
    | some i =>
      obtain ⟨hi, hbit⟩ := mem_of_find hfind
      simp only [Client.wp_bind, careful_cacheError, careful_ite, Client.wp_pure, Bool.or_false]
      split
      · exact hnone
      rename_i hfine
      have hdata : v.vol.dataBlock (v.vol.groupStart g + i) = true := by
        by_contra hno
        exact hfine (by simp [hno])
      refine Client.wp_mono careful_mono (fun _ v' htook => ?_) (careful_takeBlock h hg hi hdata hbit)
      rw [careful_setHint, careful_cacheError]
      exact hsome _ _ (Volume.Laid.dataBlock_lt hdata).1 ⟨htook.data, htook.free, htook.alike, htook.cwd, htook.marked, htook.zero, htook.mem⟩

theorem careful_allocateInode (h : v.vol.Laid) (hnone : Q 0 v) (hsome : ∀ n v', n ≠ 0 → v.TookInode v' n → Q n v') :
    (allocate true).wp careful Q v := by
  unfold allocate
  rw [Client.wp_bind, careful_volume]
  generalize List.range v.vol.geo.groups = steps
  induction steps with
  | nil => exact hnone
  | cons step steps ih =>
    unfold allocateGroups
    simp only [Client.wp_bind, careful_volume, careful_hint, careful_ite, careful_block, if_true,
      Bool.true_and, Bool.not_true, Bool.false_and]
    have hpos : 0 < v.vol.geo.groups := h.groups ▸ Nat.succ_pos _
    have hg := Nat.mod_lt (v.hintInode + step) hpos
    generalize (v.hintInode + step) % v.vol.geo.groups = g at hg ⊢
    split
    · exact ih
    refine ⟨.inl ⟨g, hg, .inr rfl⟩, ?_⟩
    apply careful_firstFree
    generalize (if (g == 0) = true then v.vol.geo.firstInode - 1 else 0) = start
    cases hfind : (List.range' start (v.vol.geo.inodesPerGroup - start)).find? fun i => !(v.mem (v.vol.desc g (descMap true))).bit i with
    | none => exact hnone
    | some i =>
      obtain ⟨hi, hbit⟩ := mem_of_find hfind
      simp only [Client.wp_bind, careful_cacheError, careful_ite, Client.wp_pure, Bool.or_false]
      split
      · exact hnone
      refine Client.wp_mono careful_mono (fun _ v' htook => ?_) (careful_takeInode h hg hi hbit)
      rw [careful_setHint, careful_cacheError]
      exact hsome _ _ htook.pos ⟨htook.pos, htook.le, htook.free, htook.alike, htook.cwd, htook.inUse, htook.zero, htook.rest, htook.mem⟩

end

end

end Barnix.Ext2
