import Barnix.Ext2.View
/-!
# Directories

The records that tile a directory block, and what a scan over the blocks of a
directory finds among them.
-/

namespace Barnix.Ext2

/-! ## Records -/

/-- The record at `off` of block `block`. -/
structure Rec where
  block : Nat
  off : Nat
  ino : Nat
  len : Nat
  name : Name
deriving DecidableEq

def Rec.ptr (r : Rec) : Ptr := ⟨some r.block, r.off⟩

def recordAt (n : Nat) (blk : Block) (off : Nat) : Rec :=
  ⟨n, off, blk.get32 off, blk.get16 (off + 4), blk.read (off + 8) (blk.get (off + 6)).toNat⟩

/-- The records `rs` tile block `n`, whose bytes are `blk`, from `off` on. -/
inductive Volume.Tiles (v : Volume) (n : Nat) (blk : Block) : Nat → List Rec → Prop where
  | done : Tiles v n blk blockSize []
  | next {off : Nat} {rs : List Rec} : off < blockSize → v.record blk off (blockSize - off) = true →
      Tiles v n blk (off + blk.get16 (off + 4)) rs → Tiles v n blk off (recordAt n blk off :: rs)

namespace Volume

/-- What a valid record is. -/
theorem record_iff {v : Volume} {blk : Block} {off remaining : Nat} : v.record blk off remaining = true ↔
    8 ≤ remaining ∧ 8 ≤ blk.get16 (off + 4) ∧ blk.get16 (off + 4) % 4 = 0 ∧ blk.get16 (off + 4) ≤ remaining ∧
      (blk.get (off + 6)).toNat ≤ blk.get16 (off + 4) - 8 ∧ (v.geo.filetype = true ∨ blk.get (off + 7) = 0) ∧
      blk.get32 off ≤ v.geo.inodeCount := by
  unfold record
  by_cases h : remaining < 8
  · rw [if_pos h]
    exact ⟨nofun, fun hr => absurd hr.1 (by omega)⟩
  · rw [if_neg h]
    simp only [Bool.and_eq_true, Bool.or_eq_true, beq_iff_eq, decide_eq_true_eq]
    constructor
    · rintro ⟨⟨⟨⟨⟨h1, h2⟩, h3⟩, h4⟩, h5⟩, h6⟩
      exact ⟨Nat.le_of_not_lt h, h1, h2, h3, h4, h5, h6⟩
    · rintro ⟨-, h1, h2, h3, h4, h5, h6⟩
      exact ⟨⟨⟨⟨⟨h1, h2⟩, h3⟩, h4⟩, h5⟩, h6⟩

/-- What the records of a tiling are. -/
structure Fits (v : Volume) (n : Nat) (blk : Block) (r : Rec) : Prop where
  eq : r = recordAt n blk r.off
  lt : r.off < blockSize
  ok : v.record blk r.off (blockSize - r.off) = true

namespace Tiles

variable {v : Volume} {n : Nat} {blk : Block} {off : Nat} {rs : List Rec}

theorem fits (h : v.Tiles n blk off rs) {r : Rec} (hr : r ∈ rs) : v.Fits n blk r ∧ off ≤ r.off := by
  induction h with
  | done => exact absurd hr List.not_mem_nil
  | next hlt hok _ ih =>
    rcases List.mem_cons.1 hr with rfl | hr
    · exact ⟨⟨rfl, hlt, hok⟩, Nat.le_refl _⟩
    · exact ⟨(ih hr).1, Nat.le_trans (Nat.le_add_right _ _) (ih hr).2⟩

/-- A record takes at least 8 bytes, so 128 records fill a block. -/
theorem length_le (h : v.Tiles n blk off rs) : off + 8 * rs.length ≤ blockSize := by
  induction h with
  | done => exact Nat.le_refl _
  | next hlt hok _ ih =>
    have := (record_iff.1 hok).2.1
    rw [List.length_cons]
    omega

theorem congr {blk' : Block} (h : v.Tiles n blk off rs) (hb : ∀ i, off ≤ i → i < blockSize → blk'.get i = blk.get i) :
    v.Tiles n blk' off rs := by
  induction h with
  | done => exact .done
  | next hlt hok hrest ih =>
    rename_i off rs
    obtain ⟨h1, h2, -, h4, h5, -, -⟩ := record_iff.1 hok
    have h16 : blk'.get16 (off + 4) = blk.get16 (off + 4) := Buf.get16_congr (hb _ (by omega) (by omega)) (hb _ (by omega) (by omega))
    have h32 : blk'.get32 off = blk.get32 off := Buf.get32_congr fun k hk => hb _ (by omega) (by omega)
    have hname : blk'.get (off + 6) = blk.get (off + 6) := hb _ (by omega) (by omega)
    have htype : blk'.get (off + 7) = blk.get (off + 7) := hb _ (by omega) (by omega)
    have hrec : recordAt n blk' off = recordAt n blk off := by
      unfold recordAt
      rw [h16, h32, hname]
      congr 1
      apply List.map_congr_left
      intro i hi
      rw [List.mem_range] at hi
      exact hb _ (by omega) (by omega)
    rw [← hrec]
    refine .next hlt ?_ ?_
    · rw [record_iff, h16, h32, hname, htype]
      exact record_iff.1 hok
    · rw [h16]
      exact ih fun i hi hlt => hb i (by omega) hlt

/-- The tiling of a block is determined by its bytes. -/
theorem unique {rs' : List Rec} (h : v.Tiles n blk off rs) (h' : v.Tiles n blk off rs') : rs = rs' := by
  induction h generalizing rs' with
  | done =>
    cases h' with
    | done => rfl
    | next hlt _ _ => exact absurd hlt (Nat.lt_irrefl _)
  | next hlt _ _ ih =>
    cases h' with
    | done => exact absurd hlt (Nat.lt_irrefl _)
    | next _ _ hrest => rw [ih hrest]

end Tiles

end Volume

/-! ## Reading records -/

section
variable (v : View) (b off : Nat)

@[simp] theorem wp_record (remaining : Nat) (Q : Bool → View → Prop) :
    (record ⟨some b, off⟩ remaining).wp calm Q v = Q (v.vol.record (v.mem b) off remaining) v := by
  unfold record Volume.record
  rw [wp_ite]
  split
  · rfl
  · simp [Buf.get_window]

@[simp] theorem wp_nameLength (Q : Nat → View → Prop) :
    (nameLength ⟨some b, off⟩).wp calm Q v = Q ((v.mem b).get (off + 6)).toNat v := by
  unfold nameLength
  simp [Buf.get_window]

@[simp] theorem wp_nameBytes (len : Nat) (Q : Name → View → Prop) :
    (nameBytes ⟨some b, off⟩ len).wp calm Q v = Q ((v.mem b).read (off + 8) len) v := by
  unfold nameBytes
  simp [Buf.read_window]

@[simp] theorem wp_nameEqual (name : Name) (Q : Bool → View → Prop) :
    (nameEqual ⟨some b, off⟩ name).wp calm Q v =
      Q (decide ((v.mem b).read (off + 8) ((v.mem b).get (off + 6)).toNat = name)) v := by
  unfold nameEqual
  simp only [Client.wp_bind, wp_nameLength, wp_ite, Client.wp_pure, wp_nameBytes]
  split
  · rename_i h
    rw [decide_eq_false]
    rintro rfl
    exact h (by simp [Buf.read])
  · rw [beq_eq_decide]

end

/-! ## Scans -/

section
variable {α : Type} {v : View} {bad : α} {visit : Ptr → Prog (Option α)} {f : Rec → Option α}

/-- A scan that only reads finds what the first record gives that gives something. -/
theorem reads_scanBlock {n off rounds : Nat} {rs : List Rec} (h : v.vol.Tiles n (v.mem n) off rs) (hrounds : rs.length ≤ rounds)
    (hv : ∀ r ∈ rs, Reads (visit r.ptr) v (f r)) : Reads (scanBlock ⟨some n, 0⟩ bad visit rounds off) v (rs.findSome? f) := by
  induction h generalizing rounds with
  | done =>
    cases rounds with
    | zero => exact .pure _
    | succ rounds =>
      intro Q hq
      unfold scanBlock
      rw [if_pos (Nat.le_refl _)]
      exact hq
  | next hlt hok hrest ih =>
    rename_i off rs
    cases rounds with
    | zero => exact absurd hrounds (by simp)
    | succ rounds =>
      intro Q hq
      unfold scanBlock
      rw [if_neg (Nat.not_le_of_lt hlt)]
      simp only [Client.wp_bind, Ptr.add_mk, Nat.zero_add, wp_record, hok, Bool.not_true, Bool.false_eq_true, if_false]
      apply hv _ (List.mem_cons_self ..)
      rw [List.findSome?_cons] at hq
      cases hf : f (recordAt n (v.mem n) off) with
      | some a =>
        rw [hf] at hq
        exact hq
      | none =>
        rw [hf] at hq
        simp only [Client.wp_bind, wp_rd16]
        exact ih (by simpa using hrounds) (fun r hr => hv r (List.mem_cons_of_mem _ hr)) Q hq

end

/-! ## Directories of a view -/

namespace View

/-- Where inode `n` is. -/
def nodeBlock (v : View) (n : Nat) : Nat :=
  v.vol.desc ((n - 1) / v.vol.geo.inodesPerGroup) 8 + (n - 1) % v.vol.geo.inodesPerGroup * v.vol.geo.inodeSize / blockSize

def nodeOff (v : View) (n : Nat) : Nat := (n - 1) % v.vol.geo.inodesPerGroup * v.vol.geo.inodeSize % blockSize

def node (v : View) (n : Nat) : Ptr := ⟨some (v.nodeBlock n), v.nodeOff n⟩

/-- A word of inode `n`. -/
def word (v : View) (n k : Nat) : Nat := (v.mem (v.nodeBlock n)).get32 (v.nodeOff n + k)

/-- Inode `n` exists and is not free. -/
def inUse (v : View) (n : Nat) : Bool :=
  n ≠ 0 && n ≤ v.vol.geo.inodeCount &&
    (v.mem (v.vol.desc ((n - 1) / v.vol.geo.inodesPerGroup) 4)).bit ((n - 1) % v.vol.geo.inodesPerGroup)

end View

@[simp] theorem wp_inode (v : View) (n : Nat) (Q : Option Ptr → View → Prop) :
    (inode n).wp calm Q v = Q (if v.inUse n then some (v.node n) else none) v := by
  unfold inode View.inUse
  simp only [Client.wp_bind, wp_volume, wp_ite, Client.wp_pure, wp_block, wp_bit]
  by_cases h : n = 0 ∨ v.vol.geo.inodeCount < n
  · rw [if_pos h, if_neg]
    simp only [Bool.and_eq_true, decide_eq_true_eq, ne_eq]
    omega
  · rw [if_neg h]
    have hn : (decide (n ≠ 0) && decide (n ≤ v.vol.geo.inodeCount)) = true := by
      simp only [Bool.and_eq_true, decide_eq_true_eq]
      omega
    rw [hn, Bool.true_and]
    cases (v.mem (v.vol.desc ((n - 1) / v.vol.geo.inodesPerGroup) 4)).bit ((n - 1) % v.vol.geo.inodesPerGroup) with
    | false => rfl
    | true =>
      simp only [Bool.not_true, Bool.false_eq_true, if_false, if_true]
      unfold View.node View.nodeBlock View.nodeOff
      rw [Ptr.add_mk, Nat.zero_add]

/-- The blocks of directory `n` hold these records. -/
structure View.Records (v : View) (n : Nat) (rss : List (List Rec)) : Prop where
  size : v.word n 4 / blockSize = rss.length
  tiles : List.Forall₂ (fun i rs => v.vol.Tiles (v.word n (40 + i * 4)) (v.mem (v.word n (40 + i * 4))) 0 rs)
    (List.range rss.length) rss

/-- `n` is a directory that the engine supports, with these records. -/
structure View.Dir (v : View) (n : Nat) (rss : List (List Rec)) : Prop extends v.Records n rss where
  used : v.inUse n = true
  supported : Reads (supportedNode (v.node n) dirMode) v true

section
variable {α : Type} {v : View} {n : Nat} {rss : List (List Rec)} {bad : α} {visit : Ptr → Prog (Option α)} {f : Rec → Option α}

theorem reads_scanBlocks {is : List Nat}
    (h : List.Forall₂ (fun i rs => v.vol.Tiles (v.word n (40 + i * 4)) (v.mem (v.word n (40 + i * 4))) 0 rs) is rss)
    (hv : ∀ r ∈ rss.flatten, Reads (visit r.ptr) v (f r)) :
    Reads (scanBlocks (v.node n) bad visit is) v (rss.flatten.findSome? f) := by
  induction h with
  | nil => exact .pure _
  | @cons i rs is rss htiles _ ih =>
    intro Q hq
    unfold scanBlocks
    unfold View.node
    simp only [Client.wp_bind, wp_rd32, wp_block]
    have hrounds : rs.length ≤ 129 := by
      have := htiles.length_le
      unfold blockSize at this
      omega
    refine reads_scanBlock htiles hrounds (fun r hr => hv r ?_) _ ?_
    · rw [List.flatten_cons]
      exact List.mem_append_left _ hr
    rw [List.flatten_cons, List.findSome?_append] at hq
    cases hf : rs.findSome? f with
    | some a =>
      rw [hf] at hq
      exact hq
    | none =>
      rw [hf] at hq
      refine ih (fun r hr => hv r ?_) Q hq
      rw [List.flatten_cons]
      exact List.mem_append_right _ hr

theorem reads_scanDir (h : v.Records n rss) (hv : ∀ r ∈ rss.flatten, Reads (visit r.ptr) v (f r)) :
    Reads (scanDir (v.node n) bad visit) v (rss.flatten.findSome? f) := by
  intro Q hq
  unfold scanDir
  rw [View.node, Client.wp_bind, wp_rd32]
  rw [show (v.mem (v.nodeBlock n)).get32 (v.nodeOff n + 4) / blockSize = rss.length from h.size]
  exact reads_scanBlocks h.tiles hv Q hq

end

namespace View

variable {v : View} {n : Nat} {rss : List (List Rec)}

theorem fits_of_tiles {is : List Nat}
    (h : List.Forall₂ (fun i rs => v.vol.Tiles (v.word n (40 + i * 4)) (v.mem (v.word n (40 + i * 4))) 0 rs) is rss) {r : Rec}
    (hr : r ∈ rss.flatten) : v.vol.Fits r.block (v.mem r.block) r := by
  induction h with
  | nil => exact absurd hr List.not_mem_nil
  | @cons i _ _ _ htiles _ ih =>
    rw [List.flatten_cons, List.mem_append] at hr
    rcases hr with hr | hr
    · have hfits := (htiles.fits hr).1
      have hblock : r.block = v.word n (40 + i * 4) := congrArg Rec.block hfits.eq
      rw [hblock]
      exact hfits
    · exact ih hr

/-- A record of a directory is what its bytes say. -/
theorem Records.fits (h : v.Records n rss) {r : Rec} (hr : r ∈ rss.flatten) : v.vol.Fits r.block (v.mem r.block) r :=
  fits_of_tiles h.tiles hr

end View

/-! ## Finding a name -/

/-- The record is live and has this name. -/
def Rec.named (name : Name) (r : Rec) : Bool := r.ino ≠ 0 && r.name = name

section
variable {v : View} {n : Nat} {rss : List (List Rec)} {name : Name}

theorem reads_isEntry {r : Rec} (h : v.vol.Fits r.block (v.mem r.block) r) :
    Reads (isEntry name r.ptr) v (if r.named name then some (.entry r.ino r.ptr) else none) := by
  have hino : (v.mem r.block).get32 r.off = r.ino := (congrArg Rec.ino h.eq).symm
  have hname : (v.mem r.block).read (r.off + 8) ((v.mem r.block).get (r.off + 6)).toNat = r.name := (congrArg Rec.name h.eq).symm
  intro Q hq
  unfold isEntry Rec.ptr
  unfold Rec.named Rec.ptr at hq
  simp only [Client.wp_bind, wp_rd32, Nat.add_zero, hino, wp_ite, Client.wp_pure, wp_nameEqual, hname, decide_eq_true_eq]
  by_cases hi : r.ino = 0
  · rw [if_pos hi]
    simpa [hi] using hq
  · rw [if_neg hi]
    by_cases hn : r.name = name
    · rw [if_pos hn]
      simpa [hi, hn] using hq
    · rw [if_neg hn]
      simpa [hi, hn] using hq

/-- What a search of a directory finds: its first live record of that name. -/
theorem reads_lookup (h : v.Dir n rss) : Reads (lookup n name) v
    ((rss.flatten.find? (Rec.named name)).elim .absent fun r => .entry r.ino r.ptr) := by
  intro Q hq
  unfold lookup
  simp only [Client.wp_bind, wp_inode, h.used, if_true]
  apply h.supported
  simp only [Bool.not_true, Bool.false_eq_true, if_false, Client.wp_bind]
  refine reads_scanDir h.toRecords (fun r hr => reads_isEntry (h.fits hr)) _ ?_
  have hfind : ∀ rs : List Rec, (rs.findSome? fun r => if r.named name then some (Found.entry r.ino r.ptr) else none).getD .absent =
      (rs.find? (Rec.named name)).elim .absent fun r => .entry r.ino r.ptr := by
    intro rs
    induction rs with
    | nil => rfl
    | cons r rs ih =>
      rw [List.findSome?_cons]
      by_cases hn : r.named name = true
      · rw [if_pos hn, List.find?_cons_of_pos hn]
        rfl
      · rw [if_neg hn, List.find?_cons_of_neg hn]
        exact ih
  rw [Client.wp_pure, hfind]
  exact hq

end

end Barnix.Ext2
