import Barnix.Ext2.Allocation
/-!
# The blocks of a file

How the block pointers of one file change: a block is added where there was none, or
given back. Each change keeps the file's blocks in use and apart, and touches nothing
outside the file but free blocks.
-/

namespace Barnix.Ext2

namespace View

/-- The number of pointers of a file. -/
def maxPointers : Nat := 268

/-- The inode at `off` of block `b` names block `m`. -/
def Owns (v : View) (b off m : Nat) : Prop := m ≠ 0 ∧ (m = v.indirect b off ∨ ∃ i < maxPointers, v.pointer b off i = m)

/-- What a change of the file with its inode at `off` of block `b` leaves alone. Blocks that are new to the file
were free. -/
structure Within (b off : Nat) (v v' : View) : Prop where
  alike : v.vol.Alike v'.vol
  cwd : v'.cwd = v.cwd
  owns : ∀ m, v'.Owns b off m → v.Owns b off m ∨ v.used m = false
  outside : ∀ m, v.used m = true → ¬v.Owns b off m → v'.mem m = v.mem m ∧ v'.used m = true
  table : ∀ m, v.vol.Table m → m ≠ b → v'.mem m = v.mem m
  node : ∀ j, j < off ∨ off + 128 ≤ j → (v'.mem b).get j = (v.mem b).get j
  imap : ∀ g < v.vol.geo.groups, v'.mem (v.vol.desc g 4) = v.mem (v.vol.desc g 4)

namespace Within

variable {b off : Nat} {v v' v'' : View}

theorem refl (v : View) : Within b off v v :=
  ⟨.refl _, rfl, fun _ h => .inl h, fun _ h _ => ⟨rfl, h⟩, fun _ _ _ => rfl, fun _ _ => rfl, fun _ _ => rfl⟩

theorem trans (h : Within b off v v') (h' : Within b off v' v'') : Within b off v v'' := by
  have hkeep : ∀ m, v.used m = true → ¬v.Owns b off m → ¬v'.Owns b off m := by
    intro m hused hnot howns
    rcases h.owns m howns with hold | hfree
    · exact hnot hold
    · rw [hused] at hfree
      cases hfree
  refine ⟨h.alike.trans h'.alike, h'.cwd.trans h.cwd, fun m hm => ?_, fun m hused hnot => ?_, fun m hm hb => ?_, fun j hj => ?_,
    fun g hg => ?_⟩
  · rcases h'.owns m hm with hmid | hfree
    · exact h.owns m hmid
    · by_cases hold : v.Owns b off m
      · exact .inl hold
      · right
        by_contra hused
        rw [Bool.not_eq_false] at hused
        rw [(h.outside m hused hold).2] at hfree
        cases hfree
  · obtain ⟨hmem, hused'⟩ := h.outside m hused hnot
    obtain ⟨hmem', hused''⟩ := h'.outside m hused' (hkeep m hused hnot)
    exact ⟨hmem'.trans hmem, hused''⟩
  · exact (h'.table m (h.alike.table.1 hm) hb).trans (h.table m hm hb)
  · exact (h'.node j hj).trans (h.node j hj)
  · have hg' : g < v'.vol.geo.groups := h.alike.geo ▸ hg
    have hstep := h'.imap g hg'
    rw [← h.alike.desc g 4 (by decide)] at hstep
    exact hstep.trans (h.imap g hg)

end Within

/-! ## Where a pointer stands -/

section
variable {v w : View} {b off : Nat}

/-- The block and the place in it where the file's pointer `i` stands. -/
def slotBlock (v : View) (b off i : Nat) : Nat := if i < 12 then b else v.indirect b off

def slotOff (off i : Nat) : Nat := if i < 12 then off + (40 + i * 4) else (i - 12) * 4

/-- There is a place for pointer `i`. -/
def HasSlot (v : View) (b off i : Nat) : Prop := i < 12 ∨ v.indirect b off ≠ 0

theorem pointer_eq_slot {i : Nat} (h : v.HasSlot b off i) :
    v.pointer b off i = (v.mem (v.slotBlock b off i)).get32 (slotOff off i) := by
  unfold pointer slotBlock slotOff
  by_cases hi : i < 12
  · simp only [if_pos hi]
  · simp only [if_neg hi, if_neg (h.resolve_left hi)]

theorem pointer_of_no_slot {i : Nat} (h : ¬v.HasSlot b off i) : v.pointer b off i = 0 := by
  obtain ⟨hi, hzero⟩ := not_or.1 h
  unfold pointer
  rw [if_neg hi, if_pos (not_not.1 hzero)]

/-- The pointers depend on the inode's words and on the indirect block. -/
theorem pointer_congr (hb : ∀ k, 40 ≤ k → k < 92 → (w.mem b).get (off + k) = (v.mem b).get (off + k))
    (hind : v.indirect b off ≠ 0 → w.mem (v.indirect b off) = v.mem (v.indirect b off)) :
    w.indirect b off = v.indirect b off ∧ ∀ i, w.pointer b off i = v.pointer b off i := by
  have h88 : w.indirect b off = v.indirect b off := Buf.get32_congr fun k hk => by
    rw [Nat.add_assoc]
    exact hb _ (by omega) (by omega)
  refine ⟨h88, fun i => ?_⟩
  unfold pointer
  rw [h88]
  by_cases hi : i < 12
  · rw [if_pos hi, if_pos hi]
    exact Buf.get32_congr fun k hk => by
      rw [Nat.add_assoc]
      exact hb _ (by omega) (by omega)
  · rw [if_neg hi, if_neg hi]
    by_cases hzero : v.indirect b off = 0
    · rw [if_pos hzero, if_pos hzero]
    · rw [if_neg hzero, if_neg hzero, hind hzero]

/-- The used blocks after a step that marked one more. -/
theorem Took.used {x : Nat} (h : v.Took w x) (m : Nat) : w.used m = (m == x || v.used m) := by
  unfold View.used
  rw [← h.alike.dataBlock]
  cases hm : v.vol.dataBlock m with
  | true =>
    rw [Bool.true_and, Bool.true_and]
    exact h.marked m hm
  | false =>
    rw [Bool.false_and, Bool.false_and, Bool.or_false]
    refine (beq_false_of_ne ?_).symm
    rintro rfl
    rw [h.data] at hm
    cases hm

theorem Took.ne_of_used {x m : Nat} (h : v.Took w x) (hm : v.used m = true) : m ≠ x := by
  rintro rfl
  unfold View.used at hm
  rw [h.free, Bool.and_false] at hm
  cases hm

/-- A used block keeps its content. -/
theorem Took.mem_used {x m : Nat} (hl : v.vol.Laid) (h : v.Took w x) (hm : v.used m = true) : w.mem m = v.mem m := by
  refine h.mem m (h.ne_of_used hm) fun g hg heq => ?_
  have hno := hl.map_not_data ⟨g, hg, .inl rfl⟩
  rw [← heq, (Bool.and_eq_true_iff.1 hm).1] at hno
  cases hno

theorem Took.mem_table {x m : Nat} (hl : v.vol.Laid) (h : v.Took w x) (hm : v.vol.Table m) : w.mem m = v.mem m := by
  refine h.mem m ?_ fun g hg heq => hl.map_not_table ⟨g, hg, .inl rfl⟩ (heq ▸ hm)
  rintro rfl
  have hno := hl.table_not_data hm
  rw [h.data] at hno
  cases hno

theorem Took.mem_imap {x g : Nat} (hl : v.vol.Laid) (h : v.Took w x) (hg : g < v.vol.geo.groups) :
    w.mem (v.vol.desc g 4) = v.mem (v.vol.desc g 4) := by
  refine h.mem _ ?_ fun g' hg' heq => ?_
  · rintro heq
    have hno := hl.map_not_data ⟨g, hg, .inr rfl⟩
    rw [heq, h.data] at hno
    cases hno
  · exact absurd (hl.map_inj hg hg' (.inr rfl) (.inl rfl) heq).2 (by decide)

/-! ## Adding a block -/

/-- The pointer `i` set to `x`, and one block more counted. -/
def withSlot (w : View) (b off i x : Nat) : View :=
  w.set (w.slotBlock b off i) ((w.mem (w.slotBlock b off i)).put32 (slotOff off i) x)

def recount (w : View) (b off n : Nat) : View := w.set b ((w.mem b).put32 (off + 28) n)

theorem slotOff_le {i : Nat} (hi : i < maxPointers) (hoff : off + 128 ≤ 1024) : slotOff off i + 4 ≤ 1024 := by
  unfold slotOff
  unfold maxPointers at hi
  split <;> omega

/-- Counting changes no pointer. -/
theorem pointer_recount (n : Nat) (hind : v.indirect b off ≠ b) : (v.recount b off n).indirect b off = v.indirect b off ∧
    ∀ i, (v.recount b off n).pointer b off i = v.pointer b off i := by
  apply pointer_congr
  · intro k hk hk'
    unfold recount
    rw [set_mem_same, Buf.get_put32_ne _ _ (by omega)]
  · intro _
    unfold recount
    rw [set_mem, if_neg hind]

/-- Setting one pointer changes no other. -/
theorem pointer_withSlot {i x : Nat} (hoff : off + 128 ≤ 1024) (hi : i < maxPointers) (hslot : v.HasSlot b off i)
    (hind : v.indirect b off ≠ b) (hx : x < 4294967296) : (v.withSlot b off i x).indirect b off = v.indirect b off ∧
      ∀ j < maxPointers, (v.withSlot b off i x).pointer b off j = if j = i then x else v.pointer b off j := by
  have hplace : slotOff off i + 4 ≤ 1024 := slotOff_le hi hoff
  have hmod : x % 4294967296 = x := Nat.mod_eq_of_lt hx
  unfold maxPointers at hi ⊢
  by_cases hdirect : i < 12
  · have hblock : v.slotBlock b off i = b := if_pos hdirect
    have hso : slotOff off i = off + (40 + i * 4) := if_pos hdirect
    rw [hso] at hplace
    have hmem : (v.withSlot b off i x).mem b = (v.mem b).put32 (off + (40 + i * 4)) x := by
      unfold withSlot
      rw [hblock, hso, set_mem_same]
    have hindirect : (v.withSlot b off i x).indirect b off = v.indirect b off := by
      unfold indirect
      rw [hmem, Buf.get32_put32_ne _ _ (by omega)]
    refine ⟨hindirect, fun j hj => ?_⟩
    unfold pointer
    rw [hindirect, hmem]
    by_cases hj12 : j < 12
    · rw [if_pos hj12, if_pos hj12]
      by_cases hji : j = i
      · subst hji
        rw [if_pos rfl, Buf.get32_put32 _ _ _ (by omega), hmod]
      · rw [if_neg hji, Buf.get32_put32_ne _ _ (by omega)]
    · have hother : (v.withSlot b off i x).mem (v.indirect b off) = v.mem (v.indirect b off) := by
        unfold withSlot
        rw [hblock, set_mem, if_neg hind]
      rw [if_neg hj12, if_neg hj12, hother, if_neg (by omega : ¬j = i)]
  · have hzero := hslot.resolve_left hdirect
    have hblock : v.slotBlock b off i = v.indirect b off := if_neg hdirect
    have hso : slotOff off i = (i - 12) * 4 := if_neg hdirect
    rw [hso] at hplace
    have hmem : (v.withSlot b off i x).mem b = v.mem b := by
      unfold withSlot
      rw [hblock, set_mem, if_neg hind.symm]
    have hindirect : (v.withSlot b off i x).indirect b off = v.indirect b off := by
      unfold indirect
      rw [hmem]
    refine ⟨hindirect, fun j hj => ?_⟩
    unfold pointer
    rw [hindirect, hmem]
    by_cases hj12 : j < 12
    · rw [if_pos hj12, if_pos hj12, if_neg (by omega : ¬j = i)]
    · have hnew : (v.withSlot b off i x).mem (v.indirect b off) = (v.mem (v.indirect b off)).put32 ((i - 12) * 4) x := by
        unfold withSlot
        rw [hblock, hso, set_mem_same]
      rw [if_neg hj12, if_neg hj12, if_neg hzero, if_neg hzero, hnew]
      by_cases hji : j = i
      · subst hji
        rw [if_pos rfl, Buf.get32_put32 _ _ _ (by omega), hmod]
      · rw [if_neg hji, Buf.get32_put32_ne _ _ (by omega)]

/-- The inode at `off` of block `b` stands in an inode table. -/
structure InTable (v : View) (b off : Nat) : Prop where
  laid : v.vol.Laid
  table : v.vol.Table b
  fits : off + 128 ≤ 1024

namespace InTable

theorem ne_data (h : v.InTable b off) {m : Nat} (hm : v.vol.dataBlock m = true) : m ≠ b := by
  rintro rfl
  have hno := h.laid.table_not_data h.table
  rw [hm] at hno
  cases hno

theorem ne_map (h : v.InTable b off) {g k : Nat} (hg : g < v.vol.geo.groups) (hk : k = 0 ∨ k = 4) : v.vol.desc g k ≠ b := by
  intro heq
  refine h.laid.map_not_table ⟨g, hg, ?_⟩ (heq ▸ h.table)
  rcases hk with rfl | rfl
  · exact .inl rfl
  · exact .inr rfl

theorem alike (h : v.InTable b off) (hw : v.vol.Alike w.vol) : w.InTable b off := ⟨hw.laid h.laid, hw.table.1 h.table, h.fits⟩

end InTable

theorem data_of_used {m : Nat} (h : v.used m = true) : v.vol.dataBlock m = true := (Bool.and_eq_true_iff.1 h).1

theorem data_not_map (hl : v.vol.Laid) {m g k : Nat} (hm : v.vol.dataBlock m = true) (hg : g < v.vol.geo.groups) (hk : k = 0 ∨ k = 4) :
    v.vol.desc g k ≠ m := by
  rintro rfl
  have hno : v.vol.dataBlock (v.vol.desc g k) = false := by
    refine hl.map_not_data ⟨g, hg, ?_⟩
    rcases hk with rfl | rfl
    · exact .inl rfl
    · exact .inr rfl
  rw [hm] at hno
  cases hno

/-- Which blocks are used is in the block bitmaps. -/
theorem used_congr (hl : v.vol.Laid) (halike : v.vol.Alike w.vol)
    (hmaps : ∀ g < v.vol.geo.groups, w.mem (v.vol.desc g 0) = v.mem (v.vol.desc g 0)) (m : Nat) : w.used m = v.used m := by
  unfold used marked
  rw [← halike.dataBlock, ← halike.geo, ← halike.desc _ 0 (by decide), ← halike.groupStart]
  cases hm : v.vol.dataBlock m with
  | false => rfl
  | true => rw [hmaps _ (hl.group_lt (Volume.Laid.dataBlock_lt hm).2)]

/-- The indirect block of a file is not in an inode table. -/
theorem Has.indirect_not_table {limit : Nat} (h : v.InTable b off) (hh : v.Has b off limit) : ¬v.vol.Table (v.indirect b off) := by
  intro htable
  by_cases hzero : v.indirect b off = 0
  · rw [hzero] at htable
    obtain ⟨g, hg, hle, -⟩ := htable
    have hplaced := (h.laid.placed g hg).table
    have hmeta := Volume.Laid.le_metadataEnd v.vol g
    have hstart := Volume.Laid.groupStart_pos v.vol g
    omega
  · have hno := h.laid.table_not_data htable
    rw [data_of_used (hh.indirect hzero)] at hno
    cases hno

theorem Has.indirect_ne {limit : Nat} (h : v.InTable b off) (hh : v.Has b off limit) : v.indirect b off ≠ b := by
  intro heq
  exact hh.indirect_not_table h (heq.symm ▸ h.table)

theorem held_eq {u : View} {limit i x : Nat} (hi : i < limit) (hzero : v.pointer b off i = 0) (hx : x ≠ 0)
    (hp : ∀ j < limit, u.pointer b off j = if j = i then x else v.pointer b off j) :
    (u.held b off limit).card = (v.held b off limit).card + 1 := by
  have hinsert : u.held b off limit = Insert.insert i (v.held b off limit) := by
    ext j
    unfold held
    rw [Finset.mem_insert, Finset.mem_filter, Finset.mem_filter, Finset.mem_range]
    constructor
    · rintro ⟨hj, hne⟩
      rw [hp j hj] at hne
      by_cases hji : j = i
      · exact .inl hji
      · rw [if_neg hji] at hne
        exact .inr ⟨hj, hne⟩
    · rintro (rfl | ⟨hj, hne⟩)
      · refine ⟨hi, ?_⟩
        rw [hp _ hi, if_pos rfl]
        exact hx
      · refine ⟨hj, ?_⟩
        rw [hp j hj]
        split
        · exact hx
        · exact hne
  rw [hinsert, Finset.card_insert_of_notMem]
  unfold held
  rw [Finset.mem_filter]
  exact fun h => h.2 hzero

theorem held_le (limit : Nat) : (v.held b off limit).card ≤ limit := by
  have := Finset.card_filter_le (Finset.range limit) fun i => v.pointer b off i ≠ 0
  rw [Finset.card_range] at this
  exact this

/-- What taking a block leaves of a file. -/
theorem took_file (h : v.InTable b off) {limit : Nat} (hh : v.Has b off limit) {x : Nat} (htook : v.Took w x) :
    w.indirect b off = v.indirect b off ∧ (∀ i, w.pointer b off i = v.pointer b off i) ∧ w.mem b = v.mem b := by
  have hb := htook.mem_table h.laid h.table
  have hsame : ∀ k, 40 ≤ k → k < 92 → (w.mem b).get (off + k) = (v.mem b).get (off + k) := fun _ _ _ => by rw [hb]
  have hp := pointer_congr hsame fun hne => htook.mem_used h.laid (hh.indirect hne)
  exact ⟨hp.1, hp.2, hb⟩

/-- A change of bytes 28 to 92 of the inode and of blocks of the file. -/
theorem within_of_mem (h : v.InTable b off) {u : View} (hvol : u.vol = v.vol) (hcwd : u.cwd = v.cwd)
    (howns : ∀ m, u.Owns b off m → v.Owns b off m ∨ v.used m = false)
    (hmem : ∀ m, m ≠ b → ¬v.Owns b off m → u.mem m = v.mem m) (hdata : ∀ m, v.Owns b off m → v.vol.dataBlock m = true)
    (hnode : ∀ j, j < off ∨ off + 128 ≤ j → (u.mem b).get j = (v.mem b).get j) : Within b off v u := by
  have halike : v.vol.Alike u.vol := hvol ▸ .refl _
  have hmap : ∀ g < v.vol.geo.groups, ∀ k, k = 0 ∨ k = 4 → u.mem (v.vol.desc g k) = v.mem (v.vol.desc g k) := fun g hg k hk =>
    hmem _ (h.ne_map hg hk) fun hno => data_not_map h.laid (hdata _ hno) hg hk rfl
  have hused := used_congr h.laid halike fun g hg => hmap g hg 0 (.inl rfl)
  refine ⟨halike, hcwd, howns, fun m hm hnot => ?_, fun m hm hb => ?_, hnode, fun g hg => hmap g hg 4 (.inr rfl)⟩
  · exact ⟨hmem m (h.ne_data (data_of_used hm)) hnot, (hused m).trans hm⟩
  · refine hmem m hb fun hno => ?_
    have hnot := h.laid.table_not_data hm
    rw [hdata m hno] at hnot
    cases hnot

theorem Has.data_of_owns {m : Nat} (hh : v.Has b off maxPointers) (hm : v.Owns b off m) : v.vol.dataBlock m = true := by
  obtain ⟨hne, rfl | ⟨i, hi, rfl⟩⟩ := hm
  · exact data_of_used (hh.indirect hne)
  · exact data_of_used (hh.used i hi hne)

/-- A pointer set, and the count of blocks changed. -/
def repoint (w : View) (b off i x n : Nat) : View := (w.withSlot b off i x).recount b off n

theorem repoint_mem {i x n m : Nat} (hb : m ≠ b) (hm : m ≠ v.indirect b off) : (v.repoint b off i x n).mem m = v.mem m := by
  have hblock : m ≠ v.slotBlock b off i := by
    unfold slotBlock
    split
    · exact hb
    · exact hm
  unfold repoint recount withSlot
  rw [set_mem, if_neg hb, set_mem, if_neg hblock]

theorem repoint_get {i x n j : Nat} (hind : v.indirect b off ≠ b) (hj : j < off + 28 ∨ off + 32 ≤ j ∧ j < off + 40 ∨ off + 88 ≤ j) :
    ((v.repoint b off i x n).mem b).get j = (v.mem b).get j := by
  unfold repoint recount
  rw [set_mem_same, Buf.get_put32_ne _ _ (by omega)]
  unfold withSlot
  rw [set_mem]
  unfold slotBlock slotOff
  by_cases hi : i < 12
  · rw [if_pos hi, if_pos hi, if_pos rfl, Buf.get_put32_ne _ _ (by omega)]
  · rw [if_neg hi, if_neg hi, if_neg hind.symm]

theorem repoint_count {i x n : Nat} (hoff : off + 128 ≤ 1024) : ((v.repoint b off i x n).mem b).get32 (off + 28) = n % 4294967296 := by
  unfold repoint recount
  rw [set_mem_same, Buf.get32_put32 _ _ _ (by omega)]

theorem withSlot_count {i x : Nat} (hind : v.indirect b off ≠ b) : ((v.withSlot b off i x).mem b).get32 (off + 28) = (v.mem b).get32 (off + 28) := by
  unfold withSlot
  rw [set_mem]
  unfold slotBlock slotOff
  by_cases hi : i < 12
  · rw [if_pos hi, if_pos hi, if_pos rfl, Buf.get32_put32_ne _ _ (by omega)]
  · rw [if_neg hi, if_neg hi, if_neg hind.symm]

theorem repoint_pointer {i x n : Nat} (hoff : off + 128 ≤ 1024) (hi : i < maxPointers) (hslot : v.HasSlot b off i)
    (hind : v.indirect b off ≠ b) (hx : x < 4294967296) : (v.repoint b off i x n).indirect b off = v.indirect b off ∧
      ∀ j < maxPointers, (v.repoint b off i x n).pointer b off j = if j = i then x else v.pointer b off j := by
  have hset := pointer_withSlot hoff hi hslot hind hx
  have hcount := pointer_recount (v := v.withSlot b off i x) n (hset.1 ▸ hind)
  refine ⟨hcount.1.trans hset.1, fun j hj => ?_⟩
  exact (hcount.2 j).trans (hset.2 j hj)

theorem map_ne_indirect (h : v.InTable b off) {limit : Nat} (hh : v.Has b off limit) {g k : Nat} (hg : g < v.vol.geo.groups)
    (hk : k = 0 ∨ k = 4) : v.vol.desc g k ≠ v.indirect b off := by
  by_cases hz : v.indirect b off = 0
  · have hplaced := h.laid.placed g hg
    have hmap := hplaced.map
    have himap := hplaced.imap
    have hle := Volume.Laid.le_metadataEnd v.vol g
    have hstart := Volume.Laid.groupStart_pos v.vol g
    rw [hz]
    rcases hk with rfl | rfl
    · omega
    · omega
  · exact data_not_map h.laid (data_of_used (hh.indirect hz)) hg hk

/-- A free block `x` became a block of the file: its pointer `i` names it, or its new indirect block. -/
structure Grew (v u : View) (b off x : Nat) : Prop where
  block : v.vol.dataBlock x = true
  free : v.used x = false
  used : ∀ m, u.used m = (m == x || v.used m)
  alike : v.vol.Alike u.vol
  cwd : u.cwd = v.cwd
  mem : ∀ m, m ≠ b → m ≠ v.indirect b off → m ≠ x → (∀ g < v.vol.geo.groups, m ≠ v.vol.desc g 0) → u.mem m = v.mem m
  zero : u.mem x = zeros
  get : ∀ j, j < off + 28 ∨ off + 32 ≤ j ∧ j < off + 40 ∨ off + 92 ≤ j → (u.mem b).get j = (v.mem b).get j
  count : (u.mem b).get32 (off + 28) = ((v.mem b).get32 (off + 28) + 2) % 4294967296

/-- The pointers after pointer `i` was set to `x`. -/
structure Points (v u : View) (b off i x : Nat) : Prop where
  indirect : u.indirect b off = v.indirect b off
  pointer : ∀ j < maxPointers, u.pointer b off j = if j = i then x else v.pointer b off j

/-- A hole of the file filled with a block that was free. -/
theorem grew_repoint (h : v.InTable b off) (hh : v.Has b off maxPointers) {i x : Nat} (hi : i < maxPointers) (hslot : v.HasSlot b off i)
    (htook : v.Took w x) : v.Grew (w.repoint b off i x ((v.mem b).get32 (off + 28) + 2)) b off x ∧
      v.Points (w.repoint b off i x ((v.mem b).get32 (off + 28) + 2)) b off i x := by
  have hind := hh.indirect_ne h
  obtain ⟨hwind, hwptr, hwb⟩ := took_file h hh htook
  have hxind : x ≠ v.indirect b off := by
    by_cases hz : v.indirect b off = 0
    · rw [hz]
      exact (Volume.Laid.dataBlock_lt htook.data).1
    · exact (htook.ne_of_used (hh.indirect hz)).symm
  have hwslot : w.HasSlot b off i := by
    unfold HasSlot
    rw [hwind]
    exact hslot
  obtain ⟨huind, huptr⟩ := repoint_pointer (n := (v.mem b).get32 (off + 28) + 2) h.fits hi hwslot (hwind ▸ hind)
    (h.laid.lt_of_dataBlock htook.data)
  have hmem : ∀ m, m ≠ b → m ≠ v.indirect b off → (w.repoint b off i x ((v.mem b).get32 (off + 28) + 2)).mem m = w.mem m :=
    fun m hb hm => repoint_mem hb (hwind ▸ hm)
  have hget : ∀ j, j < off + 28 ∨ off + 32 ≤ j ∧ j < off + 40 ∨ off + 88 ≤ j →
      ((w.repoint b off i x ((v.mem b).get32 (off + 28) + 2)).mem b).get j = (w.mem b).get j := fun j hj => repoint_get (hwind ▸ hind) hj
  have halike : w.vol.Alike (w.repoint b off i x ((v.mem b).get32 (off + 28) + 2)).vol := .refl _
  refine ⟨⟨htook.data, ?_, fun m => ?_, htook.alike, htook.cwd, fun m hb hm hmx hmaps => ?_, ?_, fun j hj => ?_, repoint_count h.fits⟩,
    huind.trans hwind, fun j hj => ?_⟩
  · unfold View.used
    rw [htook.free, Bool.and_false]
  · rw [← htook.used m]
    refine used_congr (htook.alike.laid h.laid) halike (fun g hg => ?_) m
    have hg' : g < v.vol.geo.groups := htook.alike.geo ▸ hg
    rw [← htook.alike.desc g 0 (by decide)]
    exact hmem _ (h.ne_map hg' (.inl rfl)) (map_ne_indirect h hh hg' (.inl rfl))
  · rw [hmem m hb hm, htook.mem m hmx hmaps]
  · rw [hmem x (h.ne_data htook.data) hxind, htook.zero]
  · rw [hget j (by omega), hwb]
  · rw [huptr j hj, hwptr]

namespace Grew

variable {u : View} {x : Nat}

/-- Used blocks outside the file keep their content. -/
theorem mem_used (h : v.InTable b off) (hgrew : v.Grew u b off x) {m : Nat} (hm : v.used m = true) (hne : m ≠ v.indirect b off) :
    u.mem m = v.mem m := by
  refine hgrew.mem m (h.ne_data (data_of_used hm)) hne ?_ fun g hg heq => data_not_map h.laid (data_of_used hm) hg (.inl rfl) heq.symm
  rintro rfl
  rw [hgrew.free] at hm
  cases hm

theorem within (h : v.InTable b off) (hh : v.Has b off maxPointers) (hgrew : v.Grew u b off x)
    (howns : ∀ m, u.Owns b off m → v.Owns b off m ∨ m = x) : Within b off v u := by
  refine ⟨hgrew.alike, hgrew.cwd, fun m hm => ?_, fun m hused hnot => ⟨?_, ?_⟩, fun m hm hb => ?_, fun j hj => hgrew.get j (by omega),
    fun g hg => ?_⟩
  · rcases howns m hm with hold | rfl
    · exact .inl hold
    · exact .inr hgrew.free
  · refine mem_used h hgrew hused fun heq => hnot ⟨?_, .inl heq⟩
    exact (Volume.Laid.dataBlock_lt (data_of_used hused)).1
  · rw [hgrew.used, hused, Bool.or_true]
  · have hnot := h.laid.table_not_data hm
    refine hgrew.mem m hb ?_ ?_ fun g hg heq => h.laid.map_not_table ⟨g, hg, .inl rfl⟩ (heq ▸ hm)
    · rintro rfl
      exact hh.indirect_not_table h hm
    · rintro rfl
      rw [hgrew.block] at hnot
      cases hnot
  · refine hgrew.mem _ (h.ne_map hg (.inr rfl)) (map_ne_indirect h hh hg (.inr rfl)) ?_ fun g' hg' heq => ?_
    · exact data_not_map h.laid hgrew.block hg (.inr rfl)
    · exact absurd (h.laid.map_inj hg hg' (.inr rfl) (.inl rfl) heq).2 (by decide)

theorem ne_used (hgrew : v.Grew u b off x) {m : Nat} (hm : v.used m = true) : m ≠ x := by
  rintro rfl
  rw [hgrew.free] at hm
  cases hm

theorem pos (hgrew : v.Grew u b off x) : x ≠ 0 := (Volume.Laid.dataBlock_lt hgrew.block).1

theorem used_self (hgrew : v.Grew u b off x) : u.used x = true := by
  rw [hgrew.used, beq_self_eq_true, Bool.true_or]

theorem used_of (hgrew : v.Grew u b off x) {m : Nat} (hm : v.used m = true) : u.used m = true := by
  rw [hgrew.used, hm, Bool.or_true]

/-- Filling a hole keeps the blocks of the file in use and apart. -/
theorem holds_points (hh : v.Holds b off maxPointers) {i : Nat} (hi : i < maxPointers) (hzero : v.pointer b off i = 0)
    (hgrew : v.Grew u b off x) (hp : v.Points u b off i x) : u.Holds b off maxPointers := by
  have hne : ∀ j < maxPointers, v.pointer b off j ≠ 0 → x ≠ v.pointer b off j := fun j hj hj0 =>
    (hgrew.ne_used (hh.used j hj hj0)).symm
  refine ⟨⟨fun hne0 => ?_, fun j hj hj0 => ?_, fun j hj hj0 => ?_, fun j hj k hk hj0 heq => ?_⟩, ?_⟩
  · rw [hp.indirect] at hne0 ⊢
    exact hgrew.used_of (hh.indirect hne0)
  · rw [hp.pointer j hj] at hj0 ⊢
    split at hj0
    · rename_i hji
      rw [if_pos hji]
      exact hgrew.used_self
    · rename_i hji
      rw [if_neg hji]
      exact hgrew.used_of (hh.used j hj hj0)
  · rw [hp.pointer j hj] at hj0 ⊢
    rw [hp.indirect]
    split at hj0
    · rename_i hji
      rw [if_pos hji]
      by_cases hz : v.indirect b off = 0
      · rw [hz]
        exact hgrew.pos
      · exact (hgrew.ne_used (hh.indirect hz)).symm
    · rename_i hji
      rw [if_neg hji]
      exact hh.apart j hj hj0
  · rw [hp.pointer j hj] at hj0 heq
    rw [hp.pointer k hk] at heq
    by_cases hji : j = i
    · by_cases hki : k = i
      · rw [hji, hki]
      · rw [if_pos hji, if_neg hki] at heq
        exact absurd heq (hne k hk (heq ▸ hgrew.pos))
    · rw [if_neg hji] at hj0 heq
      by_cases hki : k = i
      · rw [if_pos hki] at heq
        exact absurd heq.symm (hne j hj hj0)
      · rw [if_neg hki] at heq
        exact hh.inj j hj k hk hj0 heq
  · have hcard := held_eq hi hzero hgrew.pos hp.pointer
    have hle : (v.held b off maxPointers).card ≤ 268 := held_le maxPointers
    have hcount : (v.mem b).get32 (off + 28) = _ := hh.count
    unfold Counted
    rw [hgrew.count, hp.indirect, hcard, hcount]
    split <;> omega

theorem owns_points {i : Nat} (hp : v.Points u b off i x) {m : Nat} (hm : u.Owns b off m) : v.Owns b off m ∨ m = x := by
  obtain ⟨h0, hind | ⟨j, hj, hptr⟩⟩ := hm
  · exact .inl ⟨h0, .inl (hind.trans hp.indirect)⟩
  · rw [hp.pointer j hj] at hptr
    by_cases hji : j = i
    · rw [if_pos hji] at hptr
      exact .inr hptr.symm
    · rw [if_neg hji] at hptr
      exact .inl ⟨h0, .inr ⟨j, hj, hptr⟩⟩

/-- So does a new indirect block, which is empty. -/
theorem holds_indirect (hh : v.Holds b off maxPointers) (hzero : v.indirect b off = 0) (hgrew : v.Grew u b off x)
    (hind : u.indirect b off = x) (hptr : ∀ j < maxPointers, u.pointer b off j = v.pointer b off j) : u.Holds b off maxPointers := by
  have hheld : u.held b off maxPointers = v.held b off maxPointers := by
    unfold held
    apply Finset.filter_congr
    intro j hj
    rw [hptr j (Finset.mem_range.1 hj)]
  refine ⟨⟨fun _ => ?_, fun j hj hj0 => ?_, fun j hj hj0 => ?_, fun j hj k hk hj0 heq => ?_⟩, ?_⟩
  · rw [hind]
    exact hgrew.used_self
  · rw [hptr j hj] at hj0 ⊢
    exact hgrew.used_of (hh.used j hj hj0)
  · rw [hptr j hj] at hj0 ⊢
    rw [hind]
    exact hgrew.ne_used (hh.used j hj hj0)
  · rw [hptr j hj] at hj0 heq
    rw [hptr k hk] at heq
    exact hh.inj j hj k hk hj0 heq
  · have hle : (v.held b off maxPointers).card ≤ 268 := held_le maxPointers
    have hcount : (v.mem b).get32 (off + 28) = _ := hh.count
    rw [if_pos hzero] at hcount
    unfold Counted
    rw [hgrew.count, hind, if_neg hgrew.pos, hheld, hcount]
    omega

theorem owns_indirect (hind : u.indirect b off = x) (hptr : ∀ j < maxPointers, u.pointer b off j = v.pointer b off j) {m : Nat}
    (hm : u.Owns b off m) : v.Owns b off m ∨ m = x := by
  obtain ⟨h0, hi | ⟨j, hj, hp⟩⟩ := hm
  · exact .inr (hi.trans hind)
  · exact .inl ⟨h0, .inr ⟨j, hj, (hptr j hj).symm.trans hp⟩⟩

end Grew

/-- An indirect block for a file without one. -/
def withIndirect (w : View) (b off x n : Nat) : View := (w.set b ((w.mem b).put32 (off + 88) x)).recount b off n

theorem grew_withIndirect (h : v.InTable b off) (hh : v.Has b off maxPointers) (hzero : v.indirect b off = 0) {x : Nat}
    (htook : v.Took w x) : v.Grew (w.withIndirect b off x ((v.mem b).get32 (off + 28) + 2)) b off x ∧
      (w.withIndirect b off x ((v.mem b).get32 (off + 28) + 2)).indirect b off = x ∧
      ∀ j < maxPointers, (w.withIndirect b off x ((v.mem b).get32 (off + 28) + 2)).pointer b off j = v.pointer b off j := by
  have hfits := h.fits
  obtain ⟨hwind, hwptr, hwb⟩ := took_file h hh htook
  have hxb := h.ne_data htook.data
  have hmem : ∀ m, m ≠ b → (w.withIndirect b off x ((v.mem b).get32 (off + 28) + 2)).mem m = w.mem m := by
    intro m hm
    unfold withIndirect recount
    rw [set_mem, if_neg hm, set_mem, if_neg hm]
  have hb : (w.withIndirect b off x ((v.mem b).get32 (off + 28) + 2)).mem b =
      ((w.mem b).put32 (off + 88) x).put32 (off + 28) ((v.mem b).get32 (off + 28) + 2) := by
    unfold withIndirect recount
    rw [set_mem_same, set_mem_same]
  have hind : (w.withIndirect b off x ((v.mem b).get32 (off + 28) + 2)).indirect b off = x := by
    unfold indirect
    rw [hb, Buf.get32_put32_ne _ _ (by omega), Buf.get32_put32 _ _ _ (by omega)]
    exact Nat.mod_eq_of_lt (h.laid.lt_of_dataBlock htook.data)
  have halike : w.vol.Alike (w.withIndirect b off x ((v.mem b).get32 (off + 28) + 2)).vol := .refl _
  refine ⟨⟨htook.data, ?_, fun m => ?_, htook.alike, htook.cwd, fun m hmb _ hmx hmaps => ?_, ?_, fun j hj => ?_, ?_⟩, hind, fun j hj => ?_⟩
  · unfold View.used
    rw [htook.free, Bool.and_false]
  · rw [← htook.used m]
    refine used_congr (htook.alike.laid h.laid) halike (fun g hg => ?_) m
    have hg' : g < v.vol.geo.groups := htook.alike.geo ▸ hg
    rw [← htook.alike.desc g 0 (by decide)]
    exact hmem _ (h.ne_map hg' (.inl rfl))
  · rw [hmem m hmb, htook.mem m hmx hmaps]
  · rw [hmem x hxb, htook.zero]
  · rw [hb, Buf.get_put32_ne _ _ (by omega), Buf.get_put32_ne _ _ (by omega), hwb]
  · rw [hb, Buf.get32_put32 _ _ _ (by omega)]
  · rw [← hwptr j]
    unfold pointer
    rw [hind, hwind, hb]
    by_cases hj12 : j < 12
    · rw [if_pos hj12, if_pos hj12, Buf.get32_put32_ne _ _ (by omega), Buf.get32_put32_ne _ _ (by omega)]
    · have hzeros : (zeros).get32 ((j - 12) * 4) = 0 := by
        unfold Buf.get32 Buf.get16
        simp only [get_zeros]
        rfl
      rw [if_neg hj12, if_neg hj12, if_pos hzero, if_neg (Volume.Laid.dataBlock_lt htook.data).1, hmem x hxb, htook.zero, hzeros]

end

end View

end Barnix.Ext2
