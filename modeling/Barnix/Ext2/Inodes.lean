import Mathlib.Data.Finset.Card
import Barnix.Ext2.Careful
import Barnix.Ext2.Directory
/-!
# Inodes

What the engine finds when it looks an inode up and checks it, as functions of the view,
and what an inode that passes the check is: blocks in use, each referenced once.
-/

namespace Barnix.Ext2

namespace View

/-- The block of indirect pointers of the inode at `off` in block `b`. -/
def indirect (v : View) (b off : Nat) : Nat := (v.mem b).get32 (off + 88)

/-- Its block pointer at `i`. -/
def pointer (v : View) (b off i : Nat) : Nat :=
  if i < 12 then (v.mem b).get32 (off + (40 + i * 4))
  else if v.indirect b off = 0 then 0
  else (v.mem (v.indirect b off)).get32 ((i - 12) * 4)

/-- The bit of block `x` in the block bitmaps. -/
def marked (v : View) (x : Nat) : Bool :=
  (v.mem (v.vol.desc ((x - 1) / v.vol.geo.blocksPerGroup) 0)).bit (x - v.vol.groupStart ((x - 1) / v.vol.geo.blocksPerGroup))

/-- A data block in use. -/
def used (v : View) (x : Nat) : Bool := v.vol.dataBlock x && v.marked x

/-- The blocks seen after the pointers `is`, all of them in use and different; `need` are the pointers that may not be
zero. -/
def refs (v : View) (b off : Nat) (need : Nat → Bool) : List Nat → List Nat → Option (List Nat)
  | [], seen => some seen
  | i :: is, seen =>
    if v.pointer b off i = 0 then if need i then none else refs v b off need is seen
    else if v.used (v.pointer b off i) && !seen.contains (v.pointer b off i) then refs v b off need is (v.pointer b off i :: seen)
    else none

/-- A field of the inode rules it out, or its size does. -/
def Odd (v : View) (b off type : Nat) : Prop :=
  kindOf ((v.mem b).get16 off) ≠ type ∨ (v.mem b).get32 (off + 32) ≠ 0 ∨ (v.mem b).get32 (off + 104) ≠ 0 ∨
    (type = fileMode ∧ (maxFile < (v.mem b).get32 (off + 4) ∨ (v.mem b).get32 (off + 108) ≠ 0)) ∨
    (v.mem b).get32 (off + 92) ≠ 0 ∨ (v.mem b).get32 (off + 96) ≠ 0

/-- The size of a directory rules it out, or an indirect block does. -/
def OddDir (v : View) (b off type : Nat) : Prop :=
  type = dirMode ∧ ((v.mem b).get32 (off + 4) = 0 ∨ 12 * blockSize < (v.mem b).get32 (off + 4) ∨
    (v.mem b).get32 (off + 4) % blockSize ≠ 0 ∨ v.indirect b off ≠ 0)

instance (v : View) (b off type : Nat) : Decidable (v.Odd b off type) := by unfold Odd; infer_instance

instance (v : View) (b off type : Nat) : Decidable (v.OddDir b off type) := by unfold OddDir; infer_instance

/-- The pointers that a directory of this size may not lack. -/
def needs (v : View) (b off type i : Nat) : Bool := type == dirMode && i < (v.mem b).get32 (off + 4) / blockSize

/-- What `supported` answers. -/
def supports (v : View) (b off type : Nat) : Bool :=
  if v.Odd b off type ∨ v.OddDir b off type then false
  else if v.indirect b off ≠ 0 ∧ v.used (v.indirect b off) = false then false
  else (v.refs b off (v.needs b off type) (List.range (blockLimit type))
      (if v.indirect b off = 0 then [] else [v.indirect b off])).elim false fun seen =>
    (v.mem b).get16 (off + 26) != 0 && (v.mem b).get32 (off + 28) == seen.length * 2

end View

/-- The end of `supported`. -/
def lastTest (node : Ptr) : Option (List Nat) → Prog Bool
  | none => return false
  | some seen => return (← rd16 node 26) ≠ 0 && (← rd32 node 28) == seen.length * 2

theorem supportedNode_eq (node : Ptr) (type : Nat) : supportedNode node type = (do
    let size ← rd32 node 4
    if (← kind node) ≠ type ∨ (← rd32 node 32) ≠ 0 ∨ (← rd32 node 104) ≠ 0 ∨
        (type = fileMode ∧ (maxFile < size ∨ (← rd32 node 108) ≠ 0)) ∨
        (← rd32 node 92) ≠ 0 ∨ (← rd32 node 96) ≠ 0 then return false
    let indirect ← rd32 node 88
    if type = dirMode ∧ (size = 0 ∨ 12 * blockSize < size ∨ size % blockSize ≠ 0 ∨ indirect ≠ 0) then return false
    if indirect ≠ 0 then
      if !(← markBlock [] indirect) then return false
    lastTest node (← supportedBlocks node type size (List.range (blockLimit type)) (if indirect = 0 then [] else [indirect]))) := rfl

section
variable {v : View} {b off : Nat}

/-! ## Looking an inode up -/

namespace View

theorem group_lt {n : Nat} (h : v.vol.Laid) (hn : n ≠ 0) (hle : n ≤ v.vol.geo.inodeCount) :
    (n - 1) / v.vol.geo.inodesPerGroup < v.vol.geo.groups := by
  rw [Nat.div_lt_iff_lt_mul h.inodes, ← h.inodeCount]
  omega

/-- The place of inode `n` in its table. -/
theorem inode_place {n : Nat} (h : v.vol.Laid) (hn : n ≠ 0) (hle : n ≤ v.vol.geo.inodeCount) :
    v.vol.Table (v.nodeBlock n) ∧ v.nodeOff n + v.vol.geo.inodeSize ≤ 1024 := by
  have hg := group_lt h hn hle
  have hindex := Nat.mod_lt (n - 1) h.inodes
  have htable := h.table
  have hsize := h.inodeSize
  constructor
  · refine ⟨_, hg, Nat.le_add_right _ _, ?_⟩
    unfold nodeBlock
    apply Nat.add_lt_add_left
    unfold blockSize
    rw [Nat.div_lt_iff_lt_mul (by decide), htable]
    exact Nat.mul_lt_mul_of_pos_right hindex (by omega)
  · unfold nodeOff blockSize
    rcases hsize with hsize | hsize
    · rw [hsize]
      omega
    · rw [hsize]
      omega

theorem inUse_iff {n : Nat} : v.inUse n = true ↔ (n ≠ 0 ∧ n ≤ v.vol.geo.inodeCount) ∧
    (v.mem (v.vol.desc ((n - 1) / v.vol.geo.inodesPerGroup) 4)).bit ((n - 1) % v.vol.geo.inodesPerGroup) = true := by
  unfold inUse
  rw [Bool.and_eq_true, Bool.and_eq_true, decide_eq_true_eq, decide_eq_true_eq]

theorem group_lt_of_inUse {n : Nat} (h : v.vol.Laid) (hn : v.inUse n = true) :
    (n - 1) / v.vol.geo.inodesPerGroup < v.vol.geo.groups := by
  obtain ⟨⟨h0, hle⟩, -⟩ := inUse_iff.1 hn
  exact group_lt h h0 hle

theorem place_of_inUse {n : Nat} (h : v.vol.Laid) (hn : v.inUse n = true) :
    v.vol.Table (v.nodeBlock n) ∧ v.nodeOff n + v.vol.geo.inodeSize ≤ 1024 := by
  obtain ⟨⟨h0, hle⟩, -⟩ := inUse_iff.1 hn
  exact inode_place h h0 hle

end View

theorem careful_inode {Q : Option Ptr → View → Prop} (h : v.vol.Laid) (n : Nat)
    (hq : Q (if v.inUse n then some (v.node n) else none) v) : (inode n).wp careful Q v := by
  unfold inode
  simp only [Client.wp_bind, careful_volume, careful_ite, Client.wp_pure, careful_block, careful_bit]
  by_cases hn : n = 0 ∨ v.vol.geo.inodeCount < n
  · have hfree : v.inUse n = false := by
      rw [← Bool.not_eq_true, View.inUse_iff]
      omega
    rw [if_pos hn]
    rw [hfree] at hq
    exact hq
  · rw [if_neg hn]
    have hg := View.group_lt h (n := n) (by omega) (by omega)
    refine ⟨.inl ⟨_, hg, .inr rfl⟩, ?_⟩
    by_cases hbit : (v.mem (v.vol.desc ((n - 1) / v.vol.geo.inodesPerGroup) 4)).bit ((n - 1) % v.vol.geo.inodesPerGroup) = true
    · have hused : v.inUse n = true := View.inUse_iff.2 ⟨by omega, hbit⟩
      rw [hbit]
      simp only [Bool.not_true, Bool.false_eq_true, if_false]
      refine ⟨.inr (.inl (View.place_of_inUse h hused).1), ?_⟩
      rw [hused, if_pos rfl] at hq
      unfold View.node View.nodeBlock View.nodeOff at hq
      rw [Ptr.add_mk, Nat.zero_add]
      exact hq
    · have hfree : v.inUse n = false := by
        rw [← Bool.not_eq_true, View.inUse_iff]
        exact fun hused => hbit hused.2
      rw [hfree] at hq
      simp only [Bool.not_eq_true] at hbit
      rw [hbit]
      exact hq

/-! ## Checking an inode -/

theorem careful_kind {Q : Nat → View → Prop} : (kind ⟨some b, off⟩).wp careful Q v = Q (kindOf ((v.mem b).get16 off)) v := by
  unfold kind
  simp

theorem careful_fileBlock {Q : Nat → View → Prop} {i : Nat} (hind : v.indirect b off = 0 ∨ v.vol.Owned (v.indirect b off))
    (hq : Q (v.pointer b off i) v) : (fileBlock ⟨some b, off⟩ i).wp careful Q v := by
  unfold fileBlock
  unfold View.pointer at hq
  rw [careful_ite]
  split
  · rename_i hi
    rw [if_pos hi] at hq
    simpa using hq
  · rename_i hi
    rw [if_neg hi] at hq
    simp only [Client.wp_bind, careful_rd32, careful_ite, Client.wp_pure, careful_block, Nat.zero_add]
    change if v.indirect b off = 0 then _ else _ ∧ _
    split
    · rename_i hzero
      rw [if_pos hzero] at hq
      exact hq
    · rename_i hzero
      rw [if_neg hzero] at hq
      exact ⟨hind.resolve_left hzero, hq⟩

theorem careful_markBlock {Q : Bool → View → Prop} (h : v.vol.Laid) {seen : List Nat} {x : Nat}
    (hq : Q (v.used x && !seen.contains x) v) : (markBlock seen x).wp careful Q v := by
  unfold markBlock
  unfold View.used View.marked at hq
  simp only [Client.wp_bind, careful_volume, careful_ite, Client.wp_pure, careful_block, careful_bit, careful_cacheError]
  by_cases hdata : v.vol.dataBlock x = true
  · rw [hdata]
    have hlt := (Volume.Laid.dataBlock_lt hdata).2
    refine ⟨.inl ⟨_, h.group_lt hlt, .inl rfl⟩, ?_⟩
    rw [hdata, Bool.true_and] at hq
    cases hbit : (v.mem (v.vol.desc ((x - 1) / v.vol.geo.blocksPerGroup) 0)).bit
        (x - v.vol.groupStart ((x - 1) / v.vol.geo.blocksPerGroup)) with
    | false =>
      rw [hbit] at hq
      exact hq
    | true =>
      rw [hbit] at hq
      cases hseen : seen.contains x with
      | true =>
        rw [hseen] at hq
        exact hq
      | false =>
        rw [hseen] at hq
        exact hq
  · simp only [Bool.not_eq_true] at hdata
    rw [hdata] at hq ⊢
    exact hq

theorem careful_supportedBlocks {Q : Option (List Nat) → View → Prop} (h : v.vol.Laid)
    (hind : v.indirect b off = 0 ∨ v.vol.Owned (v.indirect b off)) {type : Nat} {is seen : List Nat}
    (hq : Q (v.refs b off (v.needs b off type) is seen) v) :
    (supportedBlocks ⟨some b, off⟩ type ((v.mem b).get32 (off + 4)) is seen).wp careful Q v := by
  induction is generalizing seen with
  | nil => exact hq
  | cons i is ih =>
    unfold supportedBlocks
    unfold View.refs at hq
    rw [Client.wp_bind]
    apply careful_fileBlock hind
    rw [careful_ite]
    split
    · rename_i hzero
      rw [if_pos hzero] at hq
      rw [careful_ite]
      unfold View.needs at hq
      split
      · rename_i hneed
        rw [if_pos (by simpa using hneed)] at hq
        exact hq
      · rename_i hneed
        rw [if_neg (by simpa using hneed)] at hq
        exact ih hq
    · rename_i hzero
      rw [if_neg hzero] at hq
      rw [Client.wp_bind]
      apply careful_markBlock h
      cases hmark : v.used (v.pointer b off i) && !seen.contains (v.pointer b off i) with
      | false =>
        rw [hmark] at hq
        exact hq
      | true =>
        rw [hmark] at hq
        exact ih hq

/-- The last test of `supported`, on the blocks seen. -/
theorem careful_seen {Q : Bool → View → Prop} {found : Option (List Nat)}
    (hq : Q (found.elim false fun seen => (v.mem b).get16 (off + 26) != 0 && (v.mem b).get32 (off + 28) == seen.length * 2) v) :
    (lastTest ⟨some b, off⟩ found).wp careful Q v := by
  unfold lastTest
  cases found with
  | none => exact hq
  | some seen =>
    simp only [Client.wp_bind, careful_rd16, careful_rd32, Client.wp_pure]
    simpa [bne, BEq.beq] using hq

theorem careful_supportedNode {Q : Bool → View → Prop} (h : v.vol.Laid) {type : Nat} (hq : Q (v.supports b off type) v) :
    (supportedNode ⟨some b, off⟩ type).wp careful Q v := by
  rw [supportedNode_eq]
  simp only [Client.wp_bind, careful_rd32, careful_kind, careful_ite, Client.wp_pure]
  unfold View.supports at hq
  split
  · rename_i hodd
    rw [if_pos (.inl (show v.Odd b off type from hodd))] at hq
    exact hq
  rename_i hodd
  split
  · rename_i hdir
    rw [if_pos (.inr (show v.OddDir b off type from hdir))] at hq
    exact hq
  rename_i hdir
  rw [if_neg (not_or.2 ⟨show ¬v.Odd b off type from hodd, show ¬v.OddDir b off type from hdir⟩)] at hq
  change if v.indirect b off ≠ 0 then _ else _
  by_cases hzero : v.indirect b off = 0
  · rw [if_neg (not_not.2 hzero)]
    rw [if_neg fun hbad => hbad.1 hzero] at hq
    exact careful_supportedBlocks h (.inl hzero) (careful_seen hq)
  · rw [if_pos hzero]
    apply careful_markBlock h
    rw [careful_ite]
    change if (!(v.used (v.indirect b off) && true)) = true then _ else _
    by_cases hused : v.used (v.indirect b off) = true
    · rw [hused, if_neg (by decide), Client.wp_bind]
      rw [if_neg fun hbad => by rw [hused] at hbad; exact nomatch hbad.2] at hq
      exact careful_supportedBlocks h (.inr (.inr (.inr (Bool.and_eq_true_iff.1 hused).1))) (careful_seen hq)
    · rw [Bool.not_eq_true] at hused
      rw [if_pos ⟨hzero, hused⟩] at hq
      rw [hused]
      exact hq

/-! ## What the check says -/

namespace View

/-- The nonzero ones of the pointers `is`. -/
def nonzero (v : View) (b off : Nat) (is : List Nat) : List Nat :=
  (is.filter fun i => v.pointer b off i ≠ 0).map (v.pointer b off)

theorem nonzero_cons (i : Nat) (is : List Nat) : v.nonzero b off (i :: is) =
    if v.pointer b off i = 0 then v.nonzero b off is else v.pointer b off i :: v.nonzero b off is := by
  unfold nonzero
  by_cases h : v.pointer b off i = 0
  · rw [if_pos h, List.filter_cons_of_neg (by simpa using h)]
  · rw [if_neg h, List.filter_cons_of_pos (by simpa using h)]
    rfl

theorem mem_nonzero {is : List Nat} {x : Nat} : x ∈ v.nonzero b off is ↔ x ≠ 0 ∧ ∃ i ∈ is, v.pointer b off i = x := by
  unfold nonzero
  simp only [List.mem_map, List.mem_filter, decide_eq_true_eq]
  constructor
  · rintro ⟨i, ⟨hi, hne⟩, rfl⟩
    exact ⟨hne, i, hi, rfl⟩
  · rintro ⟨hne, i, hi, rfl⟩
    exact ⟨i, ⟨hi, hne⟩, rfl⟩

theorem refs_iff {need : Nat → Bool} {is seen r : List Nat} : v.refs b off need is seen = some r ↔
    r = (v.nonzero b off is).reverse ++ seen ∧ (∀ i ∈ is, v.pointer b off i = 0 → need i = false) ∧
      (∀ x ∈ v.nonzero b off is, v.used x = true ∧ x ∉ seen) ∧ (v.nonzero b off is).Nodup := by
  induction is generalizing seen with
  | nil =>
    constructor
    · intro h
      obtain rfl := Option.some.inj h
      exact ⟨rfl, nofun, nofun, List.nodup_nil⟩
    · rintro ⟨rfl, -⟩
      rfl
  | cons i is ih =>
    rw [nonzero_cons, refs]
    by_cases hzero : v.pointer b off i = 0
    · rw [if_pos hzero, if_pos hzero]
      simp only [List.forall_mem_cons, hzero, forall_true_left]
      cases hneed : need i with
      | true =>
        rw [if_pos rfl]
        exact iff_of_false nofun fun h => nomatch h.2.1.1
      | false =>
        rw [if_neg nofun, ih]
        simp only [true_and]
    · rw [if_neg hzero, if_neg hzero]
      by_cases hfine : v.used (v.pointer b off i) = true ∧ v.pointer b off i ∉ seen
      · have hcond : (v.used (v.pointer b off i) && !seen.contains (v.pointer b off i)) = true := by
          simpa using hfine
        rw [if_pos hcond, ih]
        simp only [List.forall_mem_cons, List.nodup_cons, List.reverse_cons, List.append_assoc, List.singleton_append]
        constructor
        · rintro ⟨rfl, hneed, hused, hnodup⟩
          refine ⟨rfl, ⟨fun h => absurd h hzero, hneed⟩, ⟨hfine, fun x hx => ⟨(hused x hx).1, fun hs => ?_⟩⟩, fun hmem => ?_, hnodup⟩
          · exact (hused x hx).2 (List.mem_cons_of_mem _ hs)
          · exact (hused _ hmem).2 List.mem_cons_self
        · rintro ⟨rfl, ⟨-, hneed⟩, ⟨-, hused⟩, hnot, hnodup⟩
          refine ⟨rfl, hneed, fun x hx => ⟨(hused x hx).1, fun hs => ?_⟩, hnodup⟩
          rcases List.mem_cons.1 hs with rfl | hs
          · exact hnot hx
          · exact (hused x hx).2 hs
      · have hcond : ¬(v.used (v.pointer b off i) && !seen.contains (v.pointer b off i)) = true := by
          simpa using hfine
        rw [if_neg hcond]
        exact iff_of_false nofun fun h => hfine (h.2.2.1 _ List.mem_cons_self)

/-- The nonzero pointers among the first `limit`. -/
def held (v : View) (b off limit : Nat) : Finset Nat := (Finset.range limit).filter fun i => v.pointer b off i ≠ 0

/-- The blocks an inode holds: in use, and each named once. -/
structure Has (v : View) (b off limit : Nat) : Prop where
  indirect : v.indirect b off ≠ 0 → v.used (v.indirect b off) = true
  used : ∀ i < limit, v.pointer b off i ≠ 0 → v.used (v.pointer b off i) = true
  apart : ∀ i < limit, v.pointer b off i ≠ 0 → v.pointer b off i ≠ v.indirect b off
  inj : ∀ i < limit, ∀ j < limit, v.pointer b off i ≠ 0 → v.pointer b off i = v.pointer b off j → i = j

/-- The inode counts two sectors for each of them. -/
def Counted (v : View) (b off limit : Nat) : Prop :=
  (v.mem b).get32 (off + 28) = 2 * ((if v.indirect b off = 0 then 0 else 1) + (v.held b off limit).card)

/-- An inode holds its blocks, and counts them. -/
structure Holds (v : View) (b off limit : Nat) : Prop extends v.Has b off limit where
  count : v.Counted b off limit

/-- An inode of this type that the engine supports. -/
structure Sound (v : View) (b off type : Nat) : Prop extends v.Holds b off (blockLimit type) where
  even : ¬v.Odd b off type
  evenDir : ¬v.OddDir b off type
  whole : type = dirMode → ∀ i < (v.mem b).get32 (off + 4) / blockSize, v.pointer b off i ≠ 0
  links : (v.mem b).get16 (off + 26) ≠ 0

theorem length_nonzero (limit : Nat) : (v.nonzero b off (List.range limit)).length = (v.held b off limit).card := by
  unfold nonzero
  rw [List.length_map]
  rfl

theorem nodup_nonzero {limit : Nat} : (v.nonzero b off (List.range limit)).Nodup ↔
    ∀ i < limit, ∀ j < limit, v.pointer b off i ≠ 0 → v.pointer b off i = v.pointer b off j → i = j := by
  unfold nonzero
  rw [List.nodup_map_iff_inj_on (List.nodup_range.filter _)]
  simp only [List.mem_filter, List.mem_range, decide_eq_true_eq]
  constructor
  · intro h i hi j hj hne heq
    exact h i ⟨hi, hne⟩ j ⟨hj, heq ▸ hne⟩ heq
  · rintro h i ⟨hi, hne⟩ j ⟨hj, -⟩ heq
    exact h i hi j hj hne heq

theorem supports_iff {type : Nat} : v.supports b off type = true ↔ v.Sound b off type := by
  unfold supports
  by_cases hodd : v.Odd b off type ∨ v.OddDir b off type
  · rw [if_pos hodd]
    exact iff_of_false nofun fun h => hodd.elim h.even h.evenDir
  rw [if_neg hodd]
  obtain ⟨heven, hevenDir⟩ := not_or.1 hodd
  by_cases hind : v.indirect b off ≠ 0 ∧ v.used (v.indirect b off) = false
  · rw [if_pos hind]
    refine iff_of_false nofun fun h => ?_
    have hused := h.indirect hind.1
    rw [hind.2] at hused
    cases hused
  rw [if_neg hind]
  have hindirect : v.indirect b off ≠ 0 → v.used (v.indirect b off) = true := by
    intro hne
    by_contra hused
    exact hind ⟨hne, by simpa using hused⟩
  have hseen : ∀ x, (x ∉ if v.indirect b off = 0 then [] else [v.indirect b off]) ↔ (v.indirect b off = 0 ∨ x ≠ v.indirect b off) := by
    intro x
    split
    · rename_i hzero
      exact iff_of_true List.not_mem_nil (.inl hzero)
    · rename_i hzero
      rw [List.mem_singleton]
      exact ⟨.inr, fun h => h.resolve_left hzero⟩
  have hlength : (if v.indirect b off = 0 then [] else [v.indirect b off]).length = if v.indirect b off = 0 then 0 else 1 := by
    split <;> rfl
  generalize hlist : (if v.indirect b off = 0 then [] else [v.indirect b off]) = seen at hseen hlength ⊢
  -- what the walk over the pointers asks for
  have hwalk : ((∀ i ∈ List.range (blockLimit type), v.pointer b off i = 0 → v.needs b off type i = false) ∧
      (∀ x ∈ v.nonzero b off (List.range (blockLimit type)), v.used x = true ∧ x ∉ seen) ∧
      (v.nonzero b off (List.range (blockLimit type))).Nodup) ↔
      (∀ i < blockLimit type, v.pointer b off i = 0 → v.needs b off type i = false) ∧
      (∀ i < blockLimit type, v.pointer b off i ≠ 0 → v.used (v.pointer b off i) = true) ∧
      (∀ i < blockLimit type, v.pointer b off i ≠ 0 → v.pointer b off i ≠ v.indirect b off) ∧
      ∀ i < blockLimit type, ∀ j < blockLimit type, v.pointer b off i ≠ 0 → v.pointer b off i = v.pointer b off j → i = j := by
    rw [nodup_nonzero]
    simp only [List.mem_range, mem_nonzero, hseen]
    constructor
    · rintro ⟨hneed, hused, hinj⟩
      refine ⟨hneed, fun i hi hne => (hused _ ⟨hne, i, hi, rfl⟩).1, fun i hi hne heq => ?_, hinj⟩
      rcases (hused _ ⟨hne, i, hi, rfl⟩).2 with hzero | hapart
      · exact hne (heq.trans hzero)
      · exact hapart heq
    · rintro ⟨hneed, hused, hapart, hinj⟩
      refine ⟨hneed, ?_, hinj⟩
      rintro x ⟨hne, i, hi, rfl⟩
      exact ⟨hused i hi hne, .inr (hapart i hi hne)⟩
  have hneeds : (∀ i < blockLimit type, v.pointer b off i = 0 → v.needs b off type i = false) ↔
      (type = dirMode → ∀ i < (v.mem b).get32 (off + 4) / blockSize, v.pointer b off i ≠ 0) := by
    unfold needs
    constructor
    · intro h htype i hi hzero
      subst htype
      have hlimit : i < blockLimit dirMode := by
        have hsize : ¬12 * blockSize < (v.mem b).get32 (off + 4) := fun hbig => hevenDir ⟨rfl, .inr (.inl hbig)⟩
        unfold blockSize at hi hsize
        show i < 12
        omega
      have hfalse := h i hlimit hzero
      simp only [beq_self_eq_true, Bool.true_and, decide_eq_false_iff_not] at hfalse
      exact hfalse hi
    · intro h i _ hzero
      by_cases htype : type = dirMode
      · rw [Bool.and_eq_false_iff, decide_eq_false_iff_not]
        exact .inr fun hi => h htype i hi hzero
      · rw [beq_false_of_ne htype, Bool.false_and]
  by_cases hwant : (∀ i ∈ List.range (blockLimit type), v.pointer b off i = 0 → v.needs b off type i = false) ∧
      (∀ x ∈ v.nonzero b off (List.range (blockLimit type)), v.used x = true ∧ x ∉ seen) ∧
      (v.nonzero b off (List.range (blockLimit type))).Nodup
  · rw [refs_iff.2 ⟨rfl, hwant⟩]
    obtain ⟨hneed, hused, hapart, hinj⟩ := hwalk.1 hwant
    simp only [Option.elim_some, Bool.and_eq_true, bne_iff_ne, ne_eq, beq_iff_eq, List.length_append, List.length_reverse,
      length_nonzero, hlength]
    constructor
    · rintro ⟨hlinks, hcount⟩
      refine ⟨⟨⟨hindirect, hused, hapart, hinj⟩, ?_⟩, heven, hevenDir, hneeds.1 hneed, hlinks⟩
      unfold Counted
      omega
    · intro h
      have hcount := h.count
      unfold Counted at hcount
      exact ⟨h.links, by omega⟩
  · have hnone : v.refs b off (v.needs b off type) (List.range (blockLimit type)) seen = none := by
      cases hrefs : v.refs b off (v.needs b off type) (List.range (blockLimit type)) seen with
      | none => rfl
      | some r => exact absurd (refs_iff.1 hrefs).2 hwant
    rw [hnone]
    exact iff_of_false nofun fun h => hwant (hwalk.2 ⟨hneeds.2 h.whole, h.used, h.apart, h.inj⟩)

end View

end

end Barnix.Ext2
