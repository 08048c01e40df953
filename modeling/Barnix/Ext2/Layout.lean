import Barnix.Ext2.View
/-!
# Where things are on a volume

The groups of an accepted volume cut it into pieces. In each piece lie the copies of the
superblock and descriptors, the two bitmaps, the inode table and the data blocks, apart
from each other. Nothing that an operation changes in the loaded metadata moves them.
-/

namespace Barnix.Ext2

namespace Volume

/-- The numbers of a group's descriptor, as `engine_init` checks them. -/
structure Placed (v : Volume) (g : Nat) : Prop where
  ends : v.metadataEnd g ≤ v.groupEnd g
  map : v.metadataEnd g ≤ v.desc g 0
  map_lt : v.desc g 0 < v.groupEnd g
  imap : v.metadataEnd g ≤ v.desc g 4
  imap_lt : v.desc g 4 < v.groupEnd g
  ne : v.desc g 0 ≠ v.desc g 4
  table : v.metadataEnd g ≤ v.desc g 8
  table_le : v.desc g 8 + v.geo.tableBlocks ≤ v.groupEnd g
  map_table : v.desc g 0 < v.desc g 8 ∨ v.desc g 8 + v.geo.tableBlocks ≤ v.desc g 0
  imap_table : v.desc g 4 < v.desc g 8 ∨ v.desc g 8 + v.geo.tableBlocks ≤ v.desc g 4

theorem placed_of_descOk {v : Volume} {g : Nat} (h : v.descOk g = true) : v.Placed g := by
  unfold descOk at h
  simp only [Bool.and_eq_true, decide_eq_true_eq, bne_iff_ne, ne_eq, Bool.not_eq_true', Bool.and_eq_false_iff,
    decide_eq_false_iff_not] at h
  obtain ⟨⟨⟨⟨⟨⟨⟨⟨⟨⟨⟨⟨h1, h2⟩, h3⟩, h4⟩, h5⟩, h6⟩, h7⟩, h8⟩, h9⟩, h10⟩, h11⟩, -⟩, -⟩ := h
  exact ⟨h1, h2, h3, h4, h5, h6, h7, by omega, by omega, by omega⟩

/-- The volume has the geometry that `engine_init` accepts, with every group's metadata in the group. -/
structure Laid (v : Volume) : Prop where
  blocks : 16 ≤ v.geo.blocks
  blocks_le : v.geo.blocks ≤ maxBlocks
  perGroup : 0 < v.geo.blocksPerGroup
  perGroup_le : v.geo.blocksPerGroup ≤ 8192
  groups : v.geo.groups = (v.geo.blocks - 2) / v.geo.blocksPerGroup + 1
  groups_le : v.geo.groups ≤ 640
  inodes : 0 < v.geo.inodesPerGroup
  inodes_le : v.geo.inodesPerGroup ≤ 8192
  inodeSize : v.geo.inodeSize = 128 ∨ v.geo.inodeSize = 256
  table : v.geo.tableBlocks * 1024 = v.geo.inodesPerGroup * v.geo.inodeSize
  inodeCount : v.geo.inodeCount = v.geo.groups * v.geo.inodesPerGroup
  firstInode : 11 ≤ v.geo.firstInode
  descriptors : v.geo.descriptorBlocks = (v.geo.groups * 32 + 1023) / 1024
  placed : ∀ g < v.geo.groups, v.Placed g

/-- The volume's bitmaps, inode tables and everything else that is not data. -/
def Map (v : Volume) (n : Nat) : Prop := ∃ g < v.geo.groups, n = v.desc g 0 ∨ n = v.desc g 4

def Table (v : Volume) (n : Nat) : Prop := ∃ g < v.geo.groups, v.desc g 8 ≤ n ∧ n < v.desc g 8 + v.geo.tableBlocks

/-- The blocks an operation may ask for. -/
def Owned (v : Volume) (n : Nat) : Prop := v.Map n ∨ v.Table n ∨ v.dataBlock n = true

/-- The two agree in all that no operation changes. -/
structure Alike (v w : Volume) : Prop where
  geo : v.geo = w.geo
  sparse : v.superblock.get32 100 = w.superblock.get32 100
  desc : ∀ g k, k + 4 ≤ 12 → v.desc g k = w.desc g k

namespace Alike

variable {v w u : Volume}

theorem refl (v : Volume) : v.Alike v := ⟨rfl, rfl, fun _ _ _ => rfl⟩

theorem symm (h : v.Alike w) : w.Alike v := ⟨h.geo.symm, h.sparse.symm, fun g k hk => (h.desc g k hk).symm⟩

theorem trans (h : v.Alike w) (h' : w.Alike u) : v.Alike u :=
  ⟨h.geo.trans h'.geo, h.sparse.trans h'.sparse, fun g k hk => (h.desc g k hk).trans (h'.desc g k hk)⟩

theorem putSuper {k : Nat} (hk : k + 4 ≤ 100) (n : Nat) : v.Alike { v with superblock := v.superblock.put32 k n } :=
  ⟨rfl, (Buf.get32_put32_ne _ _ (by omega)).symm, fun _ _ _ => rfl⟩

/-- The counters stand behind the block numbers of a descriptor. -/
theorem putDesc {g k : Nat} (hk : 12 ≤ k) (hk' : k + 2 ≤ 32) (n : Nat) :
    v.Alike { v with descriptors := v.descriptors.put16 (g * 32 + k) n } :=
  ⟨rfl, rfl, fun _ _ _ => (Buf.get32_put16_ne _ _ (by omega)).symm⟩

theorem backupGroup (h : v.Alike w) (g : Nat) : v.backupGroup g = w.backupGroup g := by
  unfold Volume.backupGroup
  rw [h.sparse]

theorem groupStart (h : v.Alike w) (g : Nat) : v.groupStart g = w.groupStart g := by
  unfold Volume.groupStart
  rw [h.geo]

theorem groupSize (h : v.Alike w) (g : Nat) : v.groupSize g = w.groupSize g := by
  unfold Volume.groupSize
  rw [h.geo, h.groupStart]

theorem dataBlock (h : v.Alike w) (n : Nat) : v.dataBlock n = w.dataBlock n := by
  unfold Volume.dataBlock
  simp only [h.geo, h.backupGroup, h.groupStart, h.desc _ 0 (by decide), h.desc _ 4 (by decide), h.desc _ 8 (by decide)]

theorem metadataEnd (h : v.Alike w) (g : Nat) : v.metadataEnd g = w.metadataEnd g := by
  unfold Volume.metadataEnd
  rw [h.groupStart, h.backupGroup, h.geo]

theorem groupEnd (h : v.Alike w) (g : Nat) : v.groupEnd g = w.groupEnd g := by
  unfold Volume.groupEnd
  rw [h.groupStart, h.groupSize]

theorem map (h : v.Alike w) {n : Nat} : v.Map n ↔ w.Map n := by
  unfold Map
  simp only [h.geo, h.desc _ 0 (by decide), h.desc _ 4 (by decide)]

theorem table (h : v.Alike w) {n : Nat} : v.Table n ↔ w.Table n := by
  unfold Table
  simp only [h.geo, h.desc _ 8 (by decide)]

theorem owned (h : v.Alike w) {n : Nat} : v.Owned n ↔ w.Owned n := by
  unfold Owned
  rw [h.map, h.table, h.dataBlock]

theorem placed (h : v.Alike w) {g : Nat} (hg : v.Placed g) : w.Placed g := by
  obtain ⟨h1, h2, h3, h4, h5, h6, h7, h8, h9, h10⟩ := hg
  simp only [h.metadataEnd, h.groupEnd, h.geo, h.desc _ 0 (by decide), h.desc _ 4 (by decide), h.desc _ 8 (by decide)] at *
  exact ⟨h1, h2, h3, h4, h5, h6, h7, h8, h9, h10⟩

theorem laid (h : v.Alike w) (hv : v.Laid) : w.Laid := by
  obtain ⟨h1, h2, h3, h4, h5, h6, h7, h8, h9, h10, h11, h12, h13, h14⟩ := hv
  rw [h.geo] at h1 h2 h3 h4 h5 h6 h7 h8 h9 h10 h11 h12 h13 h14
  exact ⟨h1, h2, h3, h4, h5, h6, h7, h8, h9, h10, h11, h12, h13, fun g hg => h.placed (h14 g hg)⟩

end Alike

namespace Laid

variable {v w : Volume}

theorem groupEnd_eq (v : Volume) (g : Nat) :
    v.groupEnd g = v.groupStart g + min (v.geo.blocks - v.groupStart g) v.geo.blocksPerGroup := by
  unfold groupEnd groupSize
  dsimp only
  split <;> omega

theorem le_metadataEnd (v : Volume) (g : Nat) : v.groupStart g ≤ v.metadataEnd g := Nat.le_add_right ..

/-- Every group starts inside the volume. -/
theorem groupStart_lt (h : v.Laid) {g : Nat} (hg : g < v.geo.groups) : v.groupStart g < v.geo.blocks := by
  have hblocks := h.blocks
  have hle : g ≤ (v.geo.blocks - 2) / v.geo.blocksPerGroup := by
    rw [h.groups] at hg
    exact Nat.le_of_lt_succ hg
  have hmul := (Nat.le_div_iff_mul_le h.perGroup).1 hle
  unfold groupStart
  omega

theorem groupEnd_le (h : v.Laid) {g : Nat} (hg : g < v.geo.groups) : v.groupEnd g ≤ v.geo.blocks := by
  have hstart := h.groupStart_lt hg
  rw [groupEnd_eq]
  omega

theorem groupEnd_le_start (v : Volume) (g : Nat) : v.groupEnd g ≤ v.groupStart g + v.geo.blocksPerGroup := by
  rw [groupEnd_eq]
  omega

/-- The group of a block. -/
theorem group_eq (v : Volume) {g n : Nat} (hle : v.groupStart g ≤ n) (hlt : n < v.groupEnd g) : (n - 1) / v.geo.blocksPerGroup = g := by
  have hend := groupEnd_le_start v g
  unfold groupStart at hle hend
  apply Nat.div_eq_of_lt_le
  · omega
  · rw [Nat.succ_mul]
    omega

theorem group_lt (h : v.Laid) {n : Nat} (hlt : n < v.geo.blocks) : (n - 1) / v.geo.blocksPerGroup < v.geo.groups := by
  rw [h.groups, Nat.lt_succ_iff]
  apply Nat.div_le_div_right
  omega

theorem in_group (h : v.Laid) {n : Nat} (hn : n ≠ 0) (hlt : n < v.geo.blocks) :
    v.groupStart ((n - 1) / v.geo.blocksPerGroup) ≤ n ∧ n < v.groupEnd ((n - 1) / v.geo.blocksPerGroup) := by
  have hdiv := Nat.div_add_mod' (n - 1) v.geo.blocksPerGroup
  have hmod := Nat.mod_lt (n - 1) h.perGroup
  constructor
  · unfold groupStart
    omega
  · rw [groupEnd_eq]
    unfold groupStart
    omega

theorem groupStart_pos (v : Volume) (g : Nat) : 0 < v.groupStart g := by
  unfold groupStart
  omega

/-- What a data block is, seen from a group it may be in. -/
theorem dataBlock_iff {g n : Nat} (hle : v.groupStart g ≤ n) (hlt : n < v.groupEnd g) (hblocks : n < v.geo.blocks) :
    v.dataBlock n = true ↔ v.metadataEnd g ≤ n ∧ n ≠ v.desc g 0 ∧ n ≠ v.desc g 4 ∧
      ¬(v.desc g 8 ≤ n ∧ n < v.desc g 8 + v.geo.tableBlocks) := by
  have hpos := groupStart_pos v g
  have hn : ¬(n = 0 ∨ v.geo.blocks ≤ n) := by omega
  unfold dataBlock
  rw [if_neg hn, group_eq v hle hlt]
  dsimp only
  simp only [Bool.and_eq_true, Bool.not_eq_true', bne_iff_ne, ne_eq, Bool.and_eq_false_iff, decide_eq_false_iff_not]
  unfold metadataEnd
  cases v.backupGroup g with
  | false =>
    simp only [Bool.false_eq_true, if_false, Nat.add_zero, true_or, true_and, and_assoc, hle, not_and_or]
  | true =>
    simp only [Bool.true_eq_false, if_true, false_or, and_assoc, not_and_or, Nat.add_assoc, Nat.not_lt]

theorem dataBlock_lt {n : Nat} (h : v.dataBlock n = true) : n ≠ 0 ∧ n < v.geo.blocks := by
  unfold dataBlock at h
  by_cases hn : n = 0 ∨ v.geo.blocks ≤ n
  · rw [if_pos hn] at h
    cases h
  · omega

theorem lt_of_dataBlock (h : v.Laid) {n : Nat} (hn : v.dataBlock n = true) : n < 4294967296 := by
  have hlt := (dataBlock_lt hn).2
  have hmax := h.blocks_le
  unfold maxBlocks at hmax
  omega

/-- A data block behind the metadata of its group. -/
theorem le_of_dataBlock (h : v.Laid) {n : Nat} (hn : v.dataBlock n = true) : v.metadataEnd ((n - 1) / v.geo.blocksPerGroup) ≤ n := by
  obtain ⟨h0, hlt⟩ := dataBlock_lt hn
  obtain ⟨hle, hend⟩ := h.in_group h0 hlt
  exact ((dataBlock_iff hle hend hlt).1 hn).1

/-- Everything from the end of a group's copies of the metadata on lies behind those of the first group. -/
theorem first_le (h : v.Laid) {g n : Nat} (hg : g < v.geo.groups) (hn : v.metadataEnd g ≤ n) : v.geo.descriptorBlocks + 2 ≤ n := by
  have hzero : v.metadataEnd 0 = v.geo.descriptorBlocks + 2 := by
    unfold metadataEnd groupStart backupGroup
    simp
    omega
  by_cases h0 : g = 0
  · rw [h0, hzero] at hn
    exact hn
  · -- the first group ends before any other starts
    have hends := (h.placed _ (Nat.lt_of_le_of_lt (Nat.zero_le g) hg)).ends
    have hend := groupEnd_le_start v 0
    have hstart := le_metadataEnd v g
    have hmul : v.geo.blocksPerGroup ≤ g * v.geo.blocksPerGroup := Nat.le_mul_of_pos_left _ (Nat.pos_of_ne_zero h0)
    unfold groupStart at hend hstart
    omega

/-- Where an owned block is in its group. -/
theorem owned_cases (h : v.Laid) {n : Nat} (hn : v.Owned n) : ∃ g < v.geo.groups, v.metadataEnd g ≤ n ∧ n < v.groupEnd g := by
  rcases hn with ⟨g, hg, rfl | rfl⟩ | ⟨g, hg, hle, hlt⟩ | hdata
  · exact ⟨g, hg, (h.placed _ hg).map, (h.placed _ hg).map_lt⟩
  · exact ⟨g, hg, (h.placed _ hg).imap, (h.placed _ hg).imap_lt⟩
  · have hplaced := h.placed _ hg
    exact ⟨g, hg, Nat.le_trans hplaced.table hle, Nat.lt_of_lt_of_le hlt hplaced.table_le⟩
  · obtain ⟨h0, hlt⟩ := dataBlock_lt hdata
    exact ⟨_, h.group_lt hlt, h.le_of_dataBlock hdata, (h.in_group h0 hlt).2⟩

theorem owned_first (h : v.Laid) {n : Nat} (hn : v.Owned n) : v.geo.descriptorBlocks + 2 ≤ n := by
  obtain ⟨g, hg, hle, -⟩ := h.owned_cases hn
  exact h.first_le hg hle

theorem owned_lt (h : v.Laid) {n : Nat} (hn : v.Owned n) : n < v.geo.blocks := by
  obtain ⟨g, hg, -, hlt⟩ := h.owned_cases hn
  exact Nat.lt_of_lt_of_le hlt (h.groupEnd_le hg)

/-- Two places in groups that are the same are in the same group. -/
theorem same_group {g g' n : Nat} (hle : v.groupStart g ≤ n) (hlt : n < v.groupEnd g) (hle' : v.groupStart g' ≤ n)
    (hlt' : n < v.groupEnd g') : g = g' := (group_eq v hle hlt).symm.trans (group_eq v hle' hlt')

/-- A bitmap is not a data block. -/
theorem map_not_data (h : v.Laid) {n : Nat} (hn : v.Map n) : v.dataBlock n = false := by
  obtain ⟨g, hg, hn⟩ := hn
  have hplaced := h.placed _ hg
  have hmeta := le_metadataEnd v g
  have hmap := hplaced.map
  have himap := hplaced.imap
  have hmap_lt := hplaced.map_lt
  have himap_lt := hplaced.imap_lt
  have hend := h.groupEnd_le hg
  rw [← Bool.not_eq_true, dataBlock_iff (g := g) (by omega) (by omega) (by omega)]
  omega

/-- A block of an inode table is not a data block. -/
theorem table_not_data (h : v.Laid) {n : Nat} (hn : v.Table n) : v.dataBlock n = false := by
  obtain ⟨g, hg, hle, hlt⟩ := hn
  have hplaced := h.placed _ hg
  have hmeta := le_metadataEnd v g
  have htable := hplaced.table
  have hends := hplaced.table_le
  have hend := h.groupEnd_le hg
  rw [← Bool.not_eq_true, dataBlock_iff (g := g) (by omega) (by omega) (by omega)]
  omega

/-- Bitmaps and inode tables are apart. -/
theorem map_not_table (h : v.Laid) {n : Nat} (hn : v.Map n) : ¬v.Table n := by
  rintro ⟨g', hg', hle, hlt⟩
  obtain ⟨g, hg, hn⟩ := hn
  have hplaced := h.placed _ hg
  have hplaced' := h.placed _ hg'
  have hmap := hplaced.map
  have himap := hplaced.imap
  have hmap_lt := hplaced.map_lt
  have himap_lt := hplaced.imap_lt
  have htable := hplaced'.table
  have hends := hplaced'.table_le
  have hmeta := le_metadataEnd v g
  have hmeta' := le_metadataEnd v g'
  obtain rfl : g = g' := same_group (v := v) (n := n) (by omega) (by omega) (by omega) (by omega)
  have h1 := hplaced.map_table
  have h2 := hplaced.imap_table
  omega

/-- Bitmaps of different groups, and the two of one group, are different blocks. -/
theorem map_inj (h : v.Laid) {g g' : Nat} (hg : g < v.geo.groups) (hg' : g' < v.geo.groups) {k k' : Nat} (hk : k = 0 ∨ k = 4)
    (hk' : k' = 0 ∨ k' = 4) (heq : v.desc g k = v.desc g' k') : g = g' ∧ k = k' := by
  have hplaced := h.placed _ hg
  have hplaced' := h.placed _ hg'
  have hmeta := le_metadataEnd v g
  have hmeta' := le_metadataEnd v g'
  have h1 := hplaced.map
  have h2 := hplaced.imap
  have h3 := hplaced.map_lt
  have h4 := hplaced.imap_lt
  have h1' := hplaced'.map
  have h2' := hplaced'.imap
  have h3' := hplaced'.map_lt
  have h4' := hplaced'.imap_lt
  have hin : v.groupStart g ≤ v.desc g k ∧ v.desc g k < v.groupEnd g := by
    rcases hk with rfl | rfl
    · omega
    · omega
  have hin' : v.groupStart g' ≤ v.desc g' k' ∧ v.desc g' k' < v.groupEnd g' := by
    rcases hk' with rfl | rfl
    · omega
    · omega
  obtain rfl : g = g' := same_group hin.1 hin.2 (heq ▸ hin'.1) (heq ▸ hin'.2)
  refine ⟨rfl, ?_⟩
  have hne := hplaced.ne
  rcases hk with rfl | rfl
  · rcases hk' with rfl | rfl
    · rfl
    · exact absurd heq hne
  · rcases hk' with rfl | rfl
    · exact absurd heq.symm hne
    · rfl

end Laid

end Volume

end Barnix.Ext2
