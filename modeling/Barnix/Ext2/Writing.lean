import Barnix.Ext2.FileBlocks
/-!
# Writing a file

The programs that change the blocks of a file and what they leave in it: `file_slot` and the
block it makes room for, `truncate_blocks`, and the copy loop of `write_range`.
-/

namespace Barnix.Ext2

section
variable {v u w : View} {b off : Nat}

namespace View

/-- A place for a pointer was made, if there was none. -/
structure Opened (v u : View) (b off : Nat) : Prop where
  holds : u.Holds b off maxPointers
  within : Within b off v u
  pointer : ∀ j < maxPointers, u.pointer b off j = v.pointer b off j
  data : ∀ m, v.used m = true → m ≠ v.indirect b off → u.mem m = v.mem m
  get : ∀ j, j < off + 28 ∨ off + 32 ≤ j ∧ j < off + 40 ∨ off + 92 ≤ j → (u.mem b).get j = (v.mem b).get j

/-- Pointer `i` names the block `x`, which is empty if it is new. -/
structure Ready (v u : View) (b off i x : Nat) : Prop where
  holds : u.Holds b off maxPointers
  within : Within b off v u
  pos : x ≠ 0
  pointer : ∀ j < maxPointers, u.pointer b off j = if j = i then x else v.pointer b off j
  zero : v.pointer b off i = 0 → u.mem x = zeros
  old : v.pointer b off i ≠ 0 → x = v.pointer b off i
  data : ∀ j < maxPointers, v.pointer b off j ≠ 0 → u.mem (v.pointer b off j) = v.mem (v.pointer b off j)
  get : ∀ j, j < off + 28 ∨ off + 32 ≤ j ∧ j < off + 40 ∨ off + 92 ≤ j → (u.mem b).get j = (v.mem b).get j

theorem Opened.refl (hh : v.Holds b off maxPointers) : v.Opened v b off :=
  ⟨hh, .refl v, fun _ _ => rfl, fun _ _ _ => rfl, fun _ _ => rfl⟩

theorem Opened.owned (h : v.InTable b off) (ho : v.Opened u b off) : u.InTable b off := h.alike ho.within.alike

/-- The block a pointer stands in may be written. -/
theorem owned_slot (h : v.InTable b off) (hh : v.Has b off maxPointers) {i : Nat} (hslot : v.HasSlot b off i) :
    v.vol.Owned (v.slotBlock b off i) := by
  unfold slotBlock
  by_cases hi : i < 12
  · rw [if_pos hi]
    exact .inr (.inl h.table)
  · rw [if_neg hi]
    exact .inr (.inr (data_of_used (hh.indirect (hslot.resolve_left hi))))

end View

open View

theorem owned_of_used {m : Nat} (h : v.used m = true) : v.vol.Owned m := .inr (.inr (data_of_used h))

/-- `file_slot` with a block to make. -/
theorem careful_fileSlot (h : v.InTable b off) (hh : v.Holds b off maxPointers) {i : Nat} :
    (fileSlot ⟨some b, off⟩ i true).wp careful (fun slot u => u.cwd = v.cwd ∧ ∀ p, slot = some p →
      v.Opened u b off ∧ u.HasSlot b off i ∧ p = ⟨some (u.slotBlock b off i), slotOff off i⟩) v := by
  unfold fileSlot
  rw [careful_ite]
  split
  · rename_i hi
    refine ⟨rfl, fun p hp => ?_⟩
    obtain rfl := Option.some.inj hp
    refine ⟨.refl hh, .inl hi, ?_⟩
    unfold slotBlock slotOff
    rw [if_pos hi, if_pos hi]
    rfl
  rename_i hi
  simp only [Client.wp_bind, careful_rd32, careful_ite, careful_block, Client.wp_pure, Bool.not_true, Bool.false_eq_true, if_false]
  change if v.indirect b off ≠ 0 then _ else _
  split
  · rename_i hind
    refine ⟨owned_of_used (hh.indirect hind), trivial, fun p hp => ?_⟩
    obtain rfl := Option.some.inj hp
    refine ⟨.refl hh, .inr hind, ?_⟩
    unfold slotBlock slotOff
    rw [if_neg hi, if_neg hi, Ptr.add_mk, Nat.zero_add]
    rfl
  rename_i hind
  have hzero : v.indirect b off = 0 := not_not.1 hind
  refine careful_allocateBlock h.laid ?_ fun x w hx htook => ?_
  · rw [if_pos rfl]
    exact ⟨rfl, nofun⟩
  rw [if_neg hx]
  obtain ⟨hgrew, hxind, hptr⟩ := grew_withIndirect h hh.toHas hzero htook
  have hw := h.alike htook.alike
  have hcount : ((w.set b ((w.mem b).put32 (off + 88) x)).mem b).get32 (off + 28) = (v.mem b).get32 (off + 28) := by
    rw [set_mem_same, Buf.get32_put32_ne _ _ (by omega), (took_file h hh.toHas htook).2.2]
  simp only [Client.wp_bind, careful_rd32, careful_wr32, careful_block, Client.wp_pure]
  refine ⟨⟨.inr (.inl hw.table), nofun⟩, ⟨.inr (.inl hw.table), nofun⟩, ?_⟩
  rw [hcount]
  generalize hu : w.withIndirect b off x ((v.mem b).get32 (off + 28) + 2) = u at hgrew hxind hptr
  rw [show (w.set b _).set b _ = u from hu]
  refine ⟨owned_of_used hgrew.used_self, hgrew.cwd, fun p hp => ?_⟩
  obtain rfl := Option.some.inj hp
  have hwithin := hgrew.within h hh.toHas fun m hm => Grew.owns_indirect hxind hptr hm
  refine ⟨⟨hgrew.holds_indirect hh hzero hxind hptr, hwithin, hptr, fun m hm hne => hgrew.mem_used h hm hne, hgrew.get⟩,
    .inr (hxind ▸ hgrew.pos), ?_⟩
  unfold slotBlock slotOff
  rw [if_neg hi, if_neg hi, Ptr.add_mk, Nat.zero_add, hxind]

/-- The block of a file to write to, with its hole filled. -/
theorem careful_writableBlock (h : v.InTable b off) (hh : v.Holds b off maxPointers) {i : Nat} (hi : i < maxPointers) :
    (writableBlock ⟨some b, off⟩ i).wp careful (fun x u => u.cwd = v.cwd ∧ (x ≠ 0 → v.Ready u b off i x)) v := by
  unfold writableBlock
  refine wp_then (careful_fileSlot h hh) fun slot u ⟨hcwd, hslot⟩ => ?_
  cases slot with
  | none => exact ⟨hcwd, fun hne => absurd rfl hne⟩
  | some p =>
    obtain ⟨hopen, hhas, rfl⟩ := hslot p rfl
    have hu := hopen.owned h
    have hold := hopen.pointer i hi
    simp only [Client.wp_bind, careful_rd32, careful_ite, Client.wp_pure, Nat.add_zero]
    rw [← pointer_eq_slot hhas, hold]
    have hkept : ∀ j < maxPointers, v.pointer b off j ≠ 0 → u.mem (v.pointer b off j) = v.mem (v.pointer b off j) := fun j hj hj0 =>
      hopen.data _ (hh.used j hj hj0) (hh.apart j hj hj0)
    split
    · rename_i hne
      refine ⟨hcwd, fun _ => ⟨hopen.holds, hopen.within, hne, fun j hj => ?_, fun hz => absurd hz hne, fun _ => rfl, hkept, hopen.get⟩⟩
      rw [hopen.pointer j hj]
      by_cases hji : j = i
      · rw [if_pos hji, hji]
      · rw [if_neg hji]
    rename_i hzero
    have hz : u.pointer b off i = 0 := hold.trans (not_not.1 hzero)
    refine careful_allocateBlock hu.laid ?_ fun x w hx htook => ?_
    · rw [if_pos rfl]
      exact ⟨hcwd, fun hne => absurd rfl hne⟩
    rw [if_neg hx]
    obtain ⟨hgrew, hpoints⟩ := grew_repoint hu hopen.holds.toHas hi hhas htook
    obtain ⟨hwind, -, hwb⟩ := took_file hu hopen.holds.toHas htook
    have hblock : u.slotBlock b off i = w.slotBlock b off i := by
      unfold slotBlock
      rw [hwind]
    have hcount := @withSlot_count w b off i x (hwind ▸ hopen.holds.indirect_ne hu)
    rw [hwb] at hcount
    have howned : w.vol.Owned (u.slotBlock b off i) := htook.alike.owned.1 (owned_slot hu hopen.holds.toHas hhas)
    rw [hblock] at howned ⊢
    simp only [Client.wp_bind, Client.wp_pure, careful_wr32, careful_rd32, Nat.add_zero]
    rw [show w.set (w.slotBlock b off i) _ = w.withSlot b off i x from rfl, hcount]
    refine ⟨⟨howned, nofun⟩, ⟨.inr (.inl (hu.alike htook.alike).table), nofun⟩, htook.cwd.trans hcwd, fun _ => ?_⟩
    generalize hu' : w.repoint b off i x ((u.mem b).get32 (off + 28) + 2) = u' at hgrew hpoints
    rw [show (w.withSlot b off i x).set b _ = u' from hu']
    have hwithin := hgrew.within hu hopen.holds.toHas fun m hm => Grew.owns_points hpoints hm
    refine ⟨hgrew.holds_points hopen.holds hi hz hpoints, hopen.within.trans hwithin, hx, fun j hj => ?_, fun _ => hgrew.zero,
      fun hne => absurd (not_not.1 hzero) hne, fun j hj hj0 => ?_, fun j hj => (hgrew.get j hj).trans (hopen.get j hj)⟩
    · rw [hpoints.pointer j hj]
      split
      · rfl
      · exact hopen.pointer j hj
    · have hj0' : u.pointer b off j ≠ 0 := by
        rw [hopen.pointer j hj]
        exact hj0
      have hkept' := hgrew.mem_used hu (hopen.holds.used j hj hj0') (hopen.holds.apart j hj hj0')
      rw [hopen.pointer j hj] at hkept'
      exact hkept'.trans (hkept j hj hj0)

/-! ## Contents -/

/-- The bytes from `off` on replaced by `d`. -/
def patch (b : Block) (off len : Nat) (d : Nat → UInt8) : Block := b.edit off len fun _ i => d i.val

theorem get_patch (b : Block) {off len j : Nat} (d : Nat → UInt8) (h : off + len ≤ 1024) :
    (patch b off len d).get j = if off ≤ j ∧ j < off + len then d (j - off) else b.get j := by
  refine (Buf.get_edit ..).trans ?_
  by_cases hj : off ≤ j ∧ j < off + len
  · rw [if_pos hj, if_pos (by omega)]
    exact Buf.get_lt _ (by omega)
  · rw [if_neg hj, if_neg (by omega)]

namespace View

/-- Byte `k` of the file with its inode at `off` of block `b`; a hole reads as zeros. -/
def byte (v : View) (b off k : Nat) : UInt8 :=
  if v.pointer b off (k / blockSize) = 0 then 0 else (v.mem (v.pointer b off (k / blockSize))).get (k % blockSize)

/-- The file's blocks are what they were. -/
structure SameBlocks (v u : View) (b off : Nat) : Prop where
  indirect : u.indirect b off = v.indirect b off
  pointer : ∀ i, u.pointer b off i = v.pointer b off i
  used : ∀ m, u.used m = v.used m
  count : (u.mem b).get32 (off + 28) = (v.mem b).get32 (off + 28)

theorem Has.congr {limit : Nat} (hh : v.Has b off limit) (hs : v.SameBlocks u b off) : u.Has b off limit := by
  refine ⟨?_, ?_, ?_, ?_⟩
  · rw [hs.indirect, hs.used]
    exact hh.indirect
  · simp only [hs.pointer, hs.used]
    exact hh.used
  · simp only [hs.pointer, hs.indirect]
    exact hh.apart
  · simp only [hs.pointer]
    exact hh.inj

theorem Holds.congr {limit : Nat} (hh : v.Holds b off limit) (hs : v.SameBlocks u b off) : u.Holds b off limit := by
  refine ⟨hh.toHas.congr hs, ?_⟩
  have hheld : u.held b off limit = v.held b off limit := by
    unfold held
    simp only [hs.pointer]
  unfold Counted
  rw [hs.count, hs.indirect, hheld]
  exact hh.count

/-- A change that leaves the pointers, their count and the bitmaps alone. -/
theorem sameBlocks_of_bytes (hl : v.vol.Laid) (halike : v.vol.Alike u.vol)
    (hb : ∀ k, 28 ≤ k ∧ k < 32 ∨ 40 ≤ k ∧ k < 92 → (u.mem b).get (off + k) = (v.mem b).get (off + k))
    (hind : v.indirect b off ≠ 0 → u.mem (v.indirect b off) = v.mem (v.indirect b off))
    (hmaps : ∀ g < v.vol.geo.groups, u.mem (v.vol.desc g 0) = v.mem (v.vol.desc g 0)) : v.SameBlocks u b off := by
  have hpointers : ∀ k, 40 ≤ k → k < 92 → (u.mem b).get (off + k) = (v.mem b).get (off + k) := fun k hk hk' => hb k (.inr ⟨hk, hk'⟩)
  have hptr := pointer_congr hpointers hind
  refine ⟨hptr.1, hptr.2, used_congr hl halike hmaps, Buf.get32_congr fun k hk => ?_⟩
  rw [Nat.add_assoc]
  exact hb _ (by omega)

theorem SameBlocks.owns (hs : v.SameBlocks u b off) (m : Nat) : u.Owns b off m ↔ v.Owns b off m := by
  unfold Owns
  simp only [hs.pointer, hs.indirect]

/-- A change in a block of the file that holds no pointers. -/
theorem sameBlocks_set (h : v.InTable b off) {x : Nat} (hx : v.vol.dataBlock x = true)
    (hne : x ≠ v.indirect b off) (B : Block) : v.SameBlocks (v.set x B) b off := by
  refine sameBlocks_of_bytes h.laid (.refl _) (fun k _ => ?_) (fun _ => ?_) fun g hg => ?_
  · rw [set_mem, if_neg (h.ne_data hx).symm]
  · rw [set_mem, if_neg hne.symm]
  · rw [set_mem, if_neg (data_not_map h.laid hx hg (.inl rfl))]

/-- The bytes of the file from `start` on are `n` bytes of `d`, and the others are what they were. -/
structure Wrote (v u : View) (b off start : Nat) (d : Nat → UInt8) (n : Nat) : Prop where
  holds : u.Holds b off maxPointers
  within : Within b off v u
  byte : ∀ k < maxFile, u.byte b off k = if start ≤ k ∧ k < start + n then d (k - start) else v.byte b off k
  filled : ∀ i < maxPointers, v.pointer b off i ≠ 0 ∨ (∃ k, start ≤ k ∧ k < start + n ∧ k / blockSize = i) → u.pointer b off i ≠ 0
  get : ∀ j, j < off + 28 ∨ off + 32 ≤ j ∧ j < off + 40 ∨ off + 92 ≤ j → (u.mem b).get j = (v.mem b).get j

namespace Wrote

variable {start n : Nat} {d : Nat → UInt8}

theorem refl (hh : v.Holds b off maxPointers) : v.Wrote v b off start d 0 := by
  refine ⟨hh, .refl v, fun k _ => ?_, fun i _ hi => ?_, fun _ _ => rfl⟩
  · rw [if_neg (by omega)]
  · rcases hi with hi | ⟨k, hk, hk', -⟩
    · exact hi
    · omega

/-- One write after another where it ended. -/
theorem trans {m : Nat} (hv : v.Wrote u b off start d n) (hu : u.Wrote w b off (start + n) (fun k => d (n + k)) m) :
    v.Wrote w b off start d (n + m) := by
  refine ⟨hu.holds, hv.within.trans hu.within, fun k hk => ?_, fun i hi h => hu.filled i hi ?_,
    fun j hj => (hu.get j hj).trans (hv.get j hj)⟩
  · rw [hu.byte k hk, hv.byte k hk]
    by_cases hsecond : start + n ≤ k ∧ k < start + n + m
    · rw [if_pos hsecond, if_pos (by omega)]
      congr 1
      omega
    · rw [if_neg hsecond]
      by_cases hfirst : start ≤ k ∧ k < start + n
      · rw [if_pos hfirst, if_pos (by omega)]
      · rw [if_neg hfirst, if_neg (by omega)]
  · rcases h with hold | ⟨k, hk, hk', rfl⟩
    · exact .inl (hv.filled i hi (.inl hold))
    · by_cases hfirst : k < start + n
      · exact .inl (hv.filled _ hi (.inr ⟨k, hk, hfirst, rfl⟩))
      · exact .inr ⟨k, by omega, by omega, rfl⟩

end Wrote

/-- A block that a pointer names, changed. -/
theorem Ready.owns {i x : Nat} (hr : v.Ready u b off i x) (hi : i < maxPointers) : u.Owns b off x := by
  refine ⟨hr.pos, .inr ⟨i, hi, ?_⟩⟩
  rw [hr.pointer i hi, if_pos rfl]

/-- The part of a write that falls into one block. -/
theorem Ready.wrote (h : v.InTable b off) {i x at' n : Nat} (hi : i < maxPointers) (hr : v.Ready u b off i x) (hn : at' + n ≤ 1024)
    (d : Nat → UInt8) : v.Wrote (u.set x (patch (u.mem x) at' n d)) b off (i * 1024 + at') d n := by
  have hu := h.alike hr.within.alike
  have hself : u.pointer b off i = x := by
    rw [hr.pointer i hi, if_pos rfl]
  have hused : u.used x = true := by
    have := hr.holds.used i hi (hself ▸ hr.pos)
    rwa [hself] at this
  have hxind : x ≠ u.indirect b off := by
    have := hr.holds.apart i hi (hself ▸ hr.pos)
    rwa [hself] at this
  have hsame := sameBlocks_set hu (data_of_used hused) hxind (patch (u.mem x) at' n d)
  have hnode : (u.set x (patch (u.mem x) at' n d)).mem b = u.mem b := by
    rw [set_mem, if_neg (hu.ne_data (data_of_used hused)).symm]
  have hstep : Within b off u (u.set x (patch (u.mem x) at' n d)) := by
    refine within_of_mem hu rfl rfl (fun m hm => .inl ((hsame.owns m).1 hm)) (fun m _ hm => ?_) (fun m hm => hr.holds.data_of_owns hm)
      fun j _ => by rw [hnode]
    rw [set_mem, if_neg]
    rintro rfl
    exact hm (hr.owns hi)
  refine ⟨hr.holds.congr hsame, hr.within.trans hstep, fun k hk => ?_, fun j hj hold => ?_, fun j hj => ?_⟩
  · have hki : k / blockSize < maxPointers := by
      unfold maxFile at hk
      unfold blockSize maxPointers
      omega
    unfold byte
    rw [hsame.pointer, hr.pointer _ hki]
    by_cases hblock : k / blockSize = i
    · rw [if_pos hblock, if_neg hr.pos, set_mem_same, get_patch _ _ hn]
      unfold blockSize at hblock ⊢
      by_cases hin : at' ≤ k % 1024 ∧ k % 1024 < at' + n
      · rw [if_pos hin, if_pos (by omega)]
        congr 1
        omega
      · rw [if_neg hin, if_neg (by omega), hblock]
        by_cases hz : v.pointer b off i = 0
        · rw [if_pos hz, hr.zero hz]
          exact get_zeros _
        · rw [if_neg hz, hr.old hz, hr.data i hi hz]
    · rw [if_neg hblock]
      unfold blockSize at hki hblock ⊢
      have hout : ¬(i * 1024 + at' ≤ k ∧ k < i * 1024 + at' + n) := by omega
      rw [if_neg hout]
      by_cases hz : v.pointer b off (k / 1024) = 0
      · rw [if_pos hz, if_pos hz]
      · have hptr : u.pointer b off (k / 1024) = v.pointer b off (k / 1024) := by
          rw [hr.pointer _ hki, if_neg hblock]
        have hother : v.pointer b off (k / 1024) ≠ x := by
          intro heq
          exact hblock (hr.holds.inj _ hki i hi (hptr ▸ hz) (by rw [hptr, heq, hself]))
        rw [if_neg hz, if_neg hz, set_mem, if_neg hother, hr.data _ hki hz]
  · rw [hsame.pointer, hr.pointer j hj]
    split
    · exact hr.pos
    · rename_i hji
      rcases hold with hold | ⟨k, hk, hk', hkj⟩
      · exact hold
      · unfold blockSize at hkj
        omega
  · rw [hnode]
    exact hr.get j hj

end View

/-- The copy loop of `write_range`. -/
theorem careful_writeChunks {data : Nat → UInt8} {rounds start pos n : Nat} (h : v.InTable b off) (hh : v.Holds b off maxPointers)
    (hrounds : n ≤ rounds) (hend : start + n ≤ maxFile) : (writeChunks ⟨some b, off⟩ data rounds start pos n).wp careful
      (fun ok u => u.cwd = v.cwd ∧ (ok = true → v.Wrote u b off start (fun k => data (pos + k)) n)) v := by
  induction rounds generalizing v start pos n with
  | zero =>
    obtain rfl := Nat.le_zero.1 hrounds
    exact ⟨rfl, fun _ => .refl hh⟩
  | succ rounds ih =>
    unfold writeChunks
    rw [careful_ite]
    split
    · rename_i hzero
      subst hzero
      exact ⟨rfl, fun _ => .refl hh⟩
    rename_i hpos
    have hhead : start / blockSize * 1024 + start % blockSize = start := Nat.div_add_mod' ..
    have hfits : start % blockSize + min (blockSize - start % blockSize) n ≤ 1024 := by
      unfold blockSize
      omega
    have hchunk : 0 < min (blockSize - start % blockSize) n := by
      unfold blockSize
      omega
    have hsum : min (blockSize - start % blockSize) n + (n - min (blockSize - start % blockSize) n) = n := by omega
    have hi : start / blockSize < maxPointers := by
      unfold maxFile at hend
      unfold blockSize maxPointers
      omega
    refine wp_then (careful_writableBlock h hh hi) fun x u ⟨hcwd, hready⟩ => ?_
    rw [careful_ite]
    split
    · exact ⟨hcwd, nofun⟩
    rename_i hx
    have hr := hready hx
    have hused : u.used x = true := by
      have := hr.holds.used _ hi
      rw [hr.pointer _ hi, if_pos rfl] at this
      exact this hx
    have hwrote := hr.wrote h hi hfits fun k => data (pos + k)
    rw [hhead] at hwrote
    simp only [Client.wp_bind, careful_block, Ptr.add_mk, Nat.zero_add]
    refine ⟨owned_of_used hused, (careful_store ..).mpr ⟨⟨owned_of_used hused, fun _ => data_of_used hused⟩, ?_⟩⟩
    refine Client.wp_mono careful_mono (fun ok w ⟨hcwd', hok⟩ => ⟨hcwd'.trans hcwd, fun hdone => ?_⟩) (ih (h.alike hwrote.within.alike) hwrote.holds (by omega) (by omega))
    have hrest := hok hdone
    rw [← hsum]
    refine hwrote.trans ?_
    simp only [← Nat.add_assoc]
    exact hrest

/-! ## The size -/

namespace View

/-- The size of the file set. -/
def resized (v : View) (b off n : Nat) : View := v.set b ((v.mem b).put32 (off + 4) n)

theorem resized_get32 (n : Nat) (hoff : off + 128 ≤ 1024) : ((v.resized b off n).mem b).get32 (off + 4) = n % 4294967296 := by
  unfold resized
  rw [set_mem_same, Buf.get32_put32 _ _ _ (by omega)]

theorem resized_get (n : Nat) {j : Nat} (hj : j < off + 4 ∨ off + 8 ≤ j) : ((v.resized b off n).mem b).get j = (v.mem b).get j := by
  unfold resized
  rw [set_mem_same, Buf.get_put32_ne _ _ (by omega)]

theorem resized_self : v.resized b off ((v.mem b).get32 (off + 4)) = v := by
  unfold resized set
  rw [Buf.put32_get32, Function.update_eq_self]

theorem resized_mem (n : Nat) {m : Nat} (hm : m ≠ b) : (v.resized b off n).mem m = v.mem m := by
  unfold resized
  rw [set_mem, if_neg hm]

theorem sameBlocks_resized (h : v.InTable b off) (hh : v.Holds b off maxPointers) (n : Nat) : v.SameBlocks (v.resized b off n) b off := by
  refine sameBlocks_of_bytes h.laid (.refl _) (fun k hk => resized_get n (by omega)) (fun _ => ?_) fun g hg => ?_
  · exact resized_mem n (hh.indirect_ne h)
  · exact resized_mem n (h.ne_map hg (.inl rfl))

theorem within_resized (h : v.InTable b off) (hh : v.Holds b off maxPointers) (n : Nat) : Within b off v (v.resized b off n) :=
  within_of_mem h rfl rfl (fun m hm => .inl (((sameBlocks_resized h hh n).owns m).1 hm)) (fun _ hm _ => resized_mem n hm)
    (fun _ hm => hh.data_of_owns hm) fun j hj => resized_get n (by omega)

theorem byte_resized (h : v.InTable b off) (hh : v.Holds b off maxPointers) (n : Nat) {k : Nat} (hk : k < maxFile) :
    (v.resized b off n).byte b off k = v.byte b off k := by
  have hi : k / blockSize < maxPointers := by
    unfold maxFile at hk
    unfold blockSize maxPointers
    omega
  unfold byte
  rw [(sameBlocks_resized h hh n).pointer]
  by_cases hz : v.pointer b off (k / blockSize) = 0
  · rw [if_pos hz, if_pos hz]
  · rw [if_neg hz, if_neg hz, resized_mem n (h.ne_data (data_of_used (hh.used _ hi hz)))]

end View

/-- `write_range`. -/
theorem careful_writeRange {data : Nat → UInt8} {start n : Nat} (h : v.InTable b off) (hh : v.Holds b off maxPointers)
    (hend : start + n ≤ maxFile) : (writeRange ⟨some b, off⟩ start data n).wp careful
      (fun ok u => u.cwd = v.cwd ∧ (ok = true → ∃ w, v.Wrote w b off start data n ∧
        u = w.resized b off (max ((v.mem b).get32 (off + 4)) (start + n)))) v := by
  unfold writeRange
  refine wp_then (careful_writeChunks h hh (Nat.le_refl n) hend) fun ok w ⟨hcwd, hok⟩ => ?_
  rw [careful_ite]
  cases ok with
  | false => exact ⟨hcwd, nofun⟩
  | true =>
    have hw := hok rfl
    simp only [Nat.zero_add] at hw
    have hsize : (w.mem b).get32 (off + 4) = (v.mem b).get32 (off + 4) := Buf.get32_congr fun k hk => hw.get _ (by omega)
    simp only [Bool.not_true, Bool.false_eq_true, if_false, Client.wp_bind, careful_rd32, careful_ite, careful_wr32, Client.wp_pure]
    have htable := (h.alike hw.within.alike).table
    split
    · rename_i hlt
      refine ⟨⟨.inr (.inl htable), nofun⟩, hcwd, fun _ => ⟨w, hw, ?_⟩⟩
      rw [max_eq_right (by omega)]
      rfl
    · rename_i hge
      refine ⟨hcwd, fun _ => ⟨w, hw, ?_⟩⟩
      rw [max_eq_left (by omega), ← hsize, resized_self]

end

end Barnix.Ext2
