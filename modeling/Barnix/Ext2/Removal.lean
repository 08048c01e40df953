import Barnix.Ext2.Creation
/-!
# Renaming and removing

`engine_mv` takes a name away and inserts another; `remove_node` takes a name away and
frees the inode when it was the last one.
-/

namespace Barnix.Ext2

section
variable {v : View}

namespace View

/-- The record at `off` of block `m` dead. -/
def unnamed (v : View) (m off : Nat) : View := v.set m ((v.mem m).put32 off 0)

/-- An inode of a kind that can be named. -/
def Whole (v : View) (n : Nat) : Prop :=
  v.Sound (v.nodeBlock n) (v.nodeOff n) fileMode ∨ v.Sound (v.nodeBlock n) (v.nodeOff n) dirMode

/-- The type of inode `n`. -/
def typeOf (v : View) (n : Nat) : Nat := kindOf ((v.mem (v.nodeBlock n)).get16 (v.nodeOff n))

/-- What `engine_mv` did. -/
structure Renamed (v : View) (source destination : Name) (u : View) : Prop where
  valid : validName source = true ∧ validName destination = true
  fresh : Reads (lookup v.cwd destination) v .absent
  moved : ∃ n m off, v.Entry v.cwd source n m off ∧ v.inUse n = true ∧ v.Whole n ∧
    (v.unnamed m off).Inserted v.cwd destination n (v.typeOf n) u

/-- A file whose pointers are among those it had holds what it holds. -/
theorem Has.sub {u : View} {b off limit : Nat} (hh : v.Has b off limit) (hind : u.indirect b off = v.indirect b off)
    (hused : ∀ m, u.used m = v.used m) (hptr : ∀ i < limit, u.pointer b off i ≠ 0 → u.pointer b off i = v.pointer b off i) : u.Has b off limit := by
  refine ⟨fun hne => ?_, fun i hi hne => ?_, fun i hi hne => ?_, fun i hi j hj hne heq => ?_⟩
  · rw [hind, hused]
    exact hh.indirect (hind ▸ hne)
  · have hsame := hptr i hi hne
    rw [hused, hsame]
    exact hh.used i hi (hsame ▸ hne)
  · have hsame := hptr i hi hne
    rw [hind, hsame]
    exact hh.apart i hi (hsame ▸ hne)
  · have hsame := hptr i hi hne
    rw [hsame] at heq hne
    refine hh.inj i hi j hj hne (heq.trans (hptr j hj ?_))
    rw [← heq]
    exact hne

/-- A dead record is a pointer cleared, where the directory block is a block of indirect pointers too. -/
theorem has_unnamed {n m off : Nat} (hl : v.vol.Laid) (hn : v.inUse n = true) (hm : v.vol.dataBlock m = true) (halign : off % 4 = 0)
    (hh : v.Has (v.nodeBlock n) (v.nodeOff n) maxPointers) : (v.unnamed m off).Has (v.nodeBlock n) (v.nodeOff n) maxPointers := by
  have htable := inTable hl hn
  have hb : (v.unnamed m off).mem (v.nodeBlock n) = v.mem (v.nodeBlock n) := by
    unfold unnamed
    rw [set_mem, if_neg (htable.ne_data hm).symm]
  have hind : (v.unnamed m off).indirect (v.nodeBlock n) (v.nodeOff n) = v.indirect (v.nodeBlock n) (v.nodeOff n) := by
    unfold indirect
    rw [hb]
  refine hh.sub hind (fun x => ?_) fun i hi hne => ?_
  · refine used_congr (w := v.unnamed m off) hl (.refl _) (fun g hg => ?_) x
    unfold unnamed
    rw [set_mem, if_neg (data_not_map hl hm hg (.inl rfl))]
  · unfold pointer at hne ⊢
    rw [hb, hind] at hne ⊢
    by_cases hi12 : i < 12
    · rw [if_pos hi12, if_pos hi12]
    · rw [if_neg hi12] at hne ⊢
      rw [if_neg hi12]
      by_cases hz : v.indirect (v.nodeBlock n) (v.nodeOff n) = 0
      · rw [if_pos hz, if_pos hz]
      · rw [if_neg hz] at hne ⊢
        rw [if_neg hz]
        unfold unnamed at hne ⊢
        rw [set_mem] at hne ⊢
        split
        · rename_i hsame
          rw [if_pos hsame] at hne
          rw [hsame]
          unfold maxPointers at hi
          by_cases hoff : off = (i - 12) * 4
          · rw [hoff, Buf.get32_put32 _ _ _ (by omega)] at hne
            exact absurd rfl hne
          · exact Buf.get32_put32_ne _ _ (by omega)
        · rfl

/-- Inodes stand at multiples of 128 bytes. -/
theorem nodeOff_mod (hl : v.vol.Laid) (n : Nat) : v.nodeOff n % 128 = 0 := by
  have hsize := hl.inodeSize
  unfold nodeOff blockSize
  rcases hsize with hsize | hsize
  · rw [hsize]
    omega
  · rw [hsize]
    omega

/-- Links are no pointers, neither in this inode nor in another of the same block. -/
theorem sameBlocks_relinked {n k l : Nat} (hl : v.vol.Laid) (hn : v.inUse n = true) (hk : v.inUse k = true)
    (hh : v.Has (v.nodeBlock n) (v.nodeOff n) maxPointers) : v.SameBlocks (v.relinked k l) (v.nodeBlock n) (v.nodeOff n) := by
  have hnt := inTable hl hn
  have hkt := inTable hl hk
  have hnmod := nodeOff_mod hl n
  have hkmod := nodeOff_mod hl k
  unfold relinked
  refine sameBlocks_of_bytes hl (.refl _) (fun j hj => ?_) (fun hne => ?_) fun g hg => ?_
  · rw [set_mem]
    split
    · rename_i hsame
      rw [Buf.get_put16_ne _ _ (by omega), hsame]
    · rfl
  · rw [set_mem, if_neg (hkt.ne_data (data_of_used (hh.indirect hne)))]
  · rw [set_mem, if_neg (hkt.ne_map hg (.inl rfl))]

theorem Names.data {dir n m off : Nat} {name : Name} (h : v.Names dir name n m off) : v.vol.dataBlock m = true :=
  data_of_used (h.isDir.dirBlock h.block)

theorem Names.ne_node {dir n m off k : Nat} {name : Name} (hl : v.vol.Laid) (h : v.Names dir name n m off) (hk : v.inUse k = true) :
    v.nodeBlock k ≠ m := by
  rintro rfl
  have hno := hl.table_not_data (inTable hl hk).table
  rw [h.data] at hno
  cases hno

end View

open View

/-- `engine_mv`. -/
theorem careful_rename {source destination : Name} (h : v.vol.Laid) : (rename source destination).wp careful
    (fun ok u => u.cwd = v.cwd ∧ (ok = true → v.Renamed source destination u)) v := by
  unfold rename
  rw [Client.wp_bind, careful_workingDir, Client.wp_bind]
  refine careful_lookup h ⟨rfl, nofun⟩ (fun _ _ => ⟨rfl, nofun⟩) fun n m off hentry => ?_
  dsimp only
  rw [Client.wp_bind]
  apply careful_inode h
  by_cases hn : v.inUse n = true
  swap
  · rw [if_neg hn]
    exact ⟨rfl, nofun⟩
  rw [if_pos hn]
  dsimp only
  rw [careful_ite]
  split
  · exact ⟨rfl, nofun⟩
  rename_i hvalid
  have hvalid' : validName source = true ∧ validName destination = true := by simpa using hvalid
  -- what follows for a file and for a directory alike
  have hrest : v.Whole n → (do
      if (← lookup v.cwd destination) ≠ .absent then return false
      wr32 .content ⟨some m, off⟩ 0 0
      insert v.cwd destination n (← kind (v.node n)) : Prog Bool).wp careful
      (fun ok u => u.cwd = v.cwd ∧ (ok = true → v.Renamed source destination u)) v := by
    intro hwhole
    rw [Client.wp_bind]
    refine careful_lookup h ⟨rfl, nofun⟩ (fun _ hfresh => ?_) fun _ _ _ _ => ⟨rfl, nofun⟩
    rw [if_neg fun hno => hno rfl, Client.wp_bind, careful_wr32]
    refine ⟨⟨.inr (.inr hentry.data), fun _ => hentry.data⟩, ?_⟩
    unfold View.node
    rw [Client.wp_bind, careful_kind, set_mem, if_neg (hentry.ne_node h hn)]
    refine Client.wp_mono careful_mono (fun ok u hu => ⟨hu.1, fun hok => ?_⟩) (careful_insert (v := v.unnamed m off) h)
    exact ⟨hvalid', hfresh, n, m, off, hentry, hn, hwhole, hu.2 hok⟩
  simp only [Client.wp_bind] at hrest ⊢
  unfold View.node at hrest ⊢
  apply careful_supportedNode h
  rw [careful_ite]
  split
  · simp only [Client.wp_bind]
    apply careful_supportedNode h
    rw [careful_ite]
    split
    · exact ⟨rfl, nofun⟩
    · rename_i hdir
      rw [Client.wp_bind]
      exact hrest (.inr (supports_iff.1 (by simpa using hdir)))
  · rename_i hfile
    rw [Client.wp_bind]
    exact hrest (.inl (supports_iff.1 (by simpa using hfile)))

/-! ## Freeing an inode -/

namespace View

/-- The time at which an inode is said to be deleted: a small one would be taken for an inode number. -/
def deletedAt (v : View) : Nat :=
  if v.vol.superblock.get32 48 ≤ v.vol.geo.inodeCount then v.vol.geo.inodeCount + 1 else v.vol.superblock.get32 48

/-- The bytes of inode `n` cleared but for the time of its deletion. -/
def wiped (v : View) (n : Nat) : View :=
  v.set (v.nodeBlock n) (((v.mem (v.nodeBlock n)).fill (v.nodeOff n) v.vol.geo.inodeSize 0).put32 (v.nodeOff n + 20) v.deletedAt)

/-- The inode `n` was freed with all its blocks. -/
def Erased (v : View) (n : Nat) (u : View) : Prop :=
  ∃ w, v.Cleared w (v.nodeBlock n) (v.nodeOff n) (0 ≤ ·) ∧ (w.wiped n).FreedInode u n

theorem Erased.cwd {n : Nat} {u : View} (h : v.Erased n u) : u.cwd = v.cwd := by
  obtain ⟨w, hcleared, hfreed⟩ := h
  exact hfreed.cwd.trans hcleared.within.cwd

end View

theorem careful_freeNode {n : Nat} (h : v.vol.Laid) (hn : v.inUse n = true) (hh : v.Has (v.nodeBlock n) (v.nodeOff n) maxPointers) :
    (freeNode n (v.node n)).wp careful (fun _ u => v.Erased n u) v := by
  unfold freeNode View.node
  refine wp_then (careful_truncateBlocks (inTable h hn) hh 0) fun _ w hw => ?_
  have hl := hw.within.alike.laid h
  obtain ⟨hnb, hno⟩ := node_alike hw.within.alike n
  obtain ⟨⟨h0, hle⟩, -⟩ := inUse_iff.1 hn
  have hle' : n ≤ w.vol.geo.inodeCount := hw.within.alike.geo ▸ hle
  have howned : w.vol.Owned (w.nodeBlock n) := .inr (.inl (inode_place hl h0 hle').1)
  rw [← hnb, ← hno, Client.wp_bind, careful_volume, Client.wp_bind]
  apply careful_zero howned
  rw [Client.wp_bind, careful_wr32]
  refine ⟨⟨howned, nofun⟩, ?_⟩
  rw [set_set, set_mem_same]
  refine Client.wp_mono careful_mono (fun _ u hu => ⟨w, hw, ?_⟩) (careful_releaseInode (v := w.wiped n) hl h0 hle')
  exact hu

/-! ## Removing a name -/

namespace View

/-- Directory `n` taken out of the links of its parent and of its group's count. -/
def uncounted (v : View) (n parent : Nat) : View :=
  (v.relinked parent (v.links parent + 65535)).dirsCounted n (v.vol.descriptors.get16 (v.dirsAt n) + 65535)

/-- No record of directory `n` is live but its own two. -/
def Empty (v : View) (n : Nat) : Prop := Reads (scanDir (v.node n) false isOther) v none

end View

/-- One less, as the code counts it. -/
theorem one_less (n : Nat) : n + 65536 - 1 = n + 65535 := by omega

theorem careful_isOther {Q : Option Bool → View → Prop} {m off : Nat} (hnone : Q none v) (hother : Q (some false) v) :
    (isOther ⟨some m, off⟩).wp careful Q v := by
  unfold isOther
  simp only [Client.wp_bind, careful_rd32, careful_ite, Client.wp_pure, careful_nameEqual]
  split
  · exact hnone
  split
  · exact hnone
  split
  · exact hnone
  · exact hother

theorem looks_scanOther {n : Nat} (hn : v.Sound (v.nodeBlock n) (v.nodeOff n) dirMode) : Looks (scanDir (v.node n) false isOther) v := by
  intro Q hq
  apply careful_scanDir hn
  · exact fun m _ off _ _ => careful_isOther rfl (hq _)
  · exact hq _
  · exact hq _

theorem careful_unlinkDir {n : Nat} (h : v.vol.Laid) (hn : v.inUse n = true)
    (hsound : v.Sound (v.nodeBlock n) (v.nodeOff n) dirMode) (hcwd : v.inUse v.cwd = true) :
    (unlinkDir n (v.node n)).wp careful (fun ok u => (ok = false ∧ u = v) ∨
      (ok = true ∧ v.Empty n ∧ v.links n = 2 ∧ u = v.uncounted n v.cwd)) v := by
  unfold unlinkDir
  obtain ⟨found, hgives, -⟩ := (looks_scanOther hsound).answer (P := fun _ _ => True) (looks_scanOther hsound _ fun _ => trivial)
  rw [Client.wp_bind]
  apply hgives
  rw [careful_ite]
  split
  · exact .inl ⟨rfl, rfl⟩
  rename_i hnone
  have hempty : v.Empty n := by
    obtain rfl : found = none := by simpa using hnone
    exact hgives.reads
  unfold View.node
  rw [Client.wp_bind, careful_rd16, careful_ite]
  split
  · exact .inl ⟨rfl, rfl⟩
  rename_i hlinks
  rw [Client.wp_bind, careful_workingDir, Client.wp_bind]
  apply careful_inode h
  rw [hcwd, if_pos rfl, Client.wp_bind, careful_deref]
  unfold View.node
  simp only [Client.wp_bind, careful_rd16, careful_wr16, careful_volume, careful_putDesc, Client.wp_pure, one_less]
  refine ⟨⟨.inr (.inl (inTable h hcwd).table), nofun⟩, ⟨_, 16, rfl, group_lt_of_inUse (v := v) h hn, by decide, by decide⟩, .inr ⟨trivial, hempty, not_not.1 hlinks, ?_⟩⟩
  rfl

namespace View

/-- What `remove_node` did. -/
structure Removed (v : View) (name : Name) (type : Nat) (u : View) : Prop where
  valid : validName name = true
  gone : ∃ n m off a, v.Entry v.cwd name n m off ∧ v.inUse n = true ∧ v.vol.geo.firstInode ≤ n ∧ v.Sound (v.nodeBlock n) (v.nodeOff n) type ∧
    (type ≠ dirMode ∧ a = v ∨ type = dirMode ∧ v.Empty n ∧ v.links n = 2 ∧ a = v.uncounted n v.cwd) ∧
    ∃ l, l = (if type = dirMode then 0 else (a.unnamed m off).links n - 1) ∧
      (l = 0 ∧ ((a.unnamed m off).relinked n 0).Erased n u ∨ l ≠ 0 ∧ u = (a.unnamed m off).relinked n l)

end View

/-- The links of an inode written, and the inode freed if there are none. -/
def putLinks (n : Nat) (node : Ptr) (links : Nat) : Prog Bool := do
  wr16 .metadata node 26 links
  if links = 0 then freeNode n node
  return true

/-- The end of `remove_node`. -/
def dropName (n : Nat) (node e : Ptr) (type : Nat) : Prog Bool := do
  wr32 .content e 0 0
  let links ← if type = dirMode then pure 0 else do pure ((← rd16 node 26) - 1)
  putLinks n node links

theorem removeNode_eq (name : Name) (type : Nat) : removeNode name type = (do
    match ← lookup (← workingDir) name with
    | .entry n e =>
      match ← inode n with
      | none => return false
      | some node =>
        if !validName name || n < (← volume).geo.firstInode then return false
        if !(← supportedNode node type) then return false
        if type = dirMode then
          if !(← unlinkDir n node) then return false
        dropName n node e type
    | _ => return false) := rfl

theorem careful_putLinks {n l : Nat} (hl : v.vol.Laid) (hn : v.inUse n = true) (hh : v.Has (v.nodeBlock n) (v.nodeOff n) maxPointers) :
    (putLinks n (v.node n) l).wp careful (fun ok u => ok = true ∧ u.cwd = v.cwd ∧
      (l = 0 ∧ (v.relinked n 0).Erased n u ∨ l ≠ 0 ∧ u = v.relinked n l)) v := by
  have hhas := hh.congr (sameBlocks_relinked (k := n) (l := l) hl hn hn hh)
  have htable := (inTable hl hn).table
  have hused : (v.relinked n l).inUse n = true := (inUse_set hl (fun hmap => hl.map_not_table hmap htable) _ n).trans hn
  unfold putLinks View.node
  rw [Client.wp_bind, careful_wr16]
  refine ⟨⟨.inr (.inl htable), nofun⟩, ?_⟩
  change Client.wp careful _ _ (v.relinked n l)
  dsimp only
  by_cases hzero : l = 0
  · rw [if_pos hzero, Client.wp_bind]
    refine Client.wp_mono careful_mono (fun _ u hu => ⟨rfl, hu.cwd, .inl ⟨hzero, ?_⟩⟩) (careful_freeNode (v := v.relinked n l) hl hused hhas)
    rw [← hzero]
    exact hu
  · rw [if_neg hzero, Client.wp_pure]
    exact ⟨rfl, rfl, .inr ⟨hzero, rfl⟩⟩

theorem careful_dropName {n m off type : Nat} (hl : v.vol.Laid) (hn : v.inUse n = true) (hh : v.Has (v.nodeBlock n) (v.nodeOff n) maxPointers)
    (hm : v.vol.dataBlock m = true) (halign : off % 4 = 0) : (dropName n (v.node n) ⟨some m, off⟩ type).wp careful
      (fun ok u => ok = true ∧ u.cwd = v.cwd ∧ ∃ l, l = (if type = dirMode then 0 else (v.unnamed m off).links n - 1) ∧
        (l = 0 ∧ ((v.unnamed m off).relinked n 0).Erased n u ∨ l ≠ 0 ∧ u = (v.unnamed m off).relinked n l)) v := by
  have hused : (v.unnamed m off).inUse n = true := (inUse_set hl (not_map_of_data hl hm) _ n).trans hn
  have hhas : (v.unnamed m off).Has ((v.unnamed m off).nodeBlock n) ((v.unnamed m off).nodeOff n) maxPointers := has_unnamed hl hn hm halign hh
  have hput : ∀ l, l = (if type = dirMode then 0 else (v.unnamed m off).links n - 1) → (putLinks n (v.node n) l).wp careful
      (fun ok u => ok = true ∧ u.cwd = v.cwd ∧ ∃ l, l = (if type = dirMode then 0 else (v.unnamed m off).links n - 1) ∧
        (l = 0 ∧ ((v.unnamed m off).relinked n 0).Erased n u ∨ l ≠ 0 ∧ u = (v.unnamed m off).relinked n l)) (v.unnamed m off) := by
    intro l hl'
    refine Client.wp_mono careful_mono (fun ok u hu => ?_) (careful_putLinks (v := v.unnamed m off) (l := l) hl hused hhas)
    exact ⟨hu.1, hu.2.1, l, hl', hu.2.2⟩
  unfold dropName
  rw [Client.wp_bind, careful_wr32]
  refine ⟨⟨.inr (.inr hm), fun _ => hm⟩, ?_⟩
  change Client.wp careful _ _ (v.unnamed m off)
  dsimp only
  by_cases hdir : type = dirMode
  · rw [if_pos hdir, Client.wp_bind, Client.wp_pure]
    exact hput 0 (by rw [if_pos hdir])
  · rw [if_neg hdir]
    unfold View.node at hput ⊢
    rw [Client.wp_bind, careful_rd16, Client.wp_bind, Client.wp_pure]
    exact hput ((v.unnamed m off).links n - 1) (by rw [if_neg hdir])

/-- `remove_node`. -/
theorem careful_removeNode {name : Name} {type : Nat} (h : v.vol.Laid) (htype : type = fileMode ∨ type = dirMode) :
    (removeNode name type).wp careful (fun ok u => u.cwd = v.cwd ∧ (ok = true → v.Removed name type u)) v := by
  rw [removeNode_eq, Client.wp_bind, careful_workingDir, Client.wp_bind]
  refine careful_lookup h ⟨rfl, nofun⟩ (fun _ _ => ⟨rfl, nofun⟩) fun n m off hentry => ?_
  dsimp only
  rw [Client.wp_bind]
  apply careful_inode h
  by_cases hn : v.inUse n = true
  swap
  · rw [if_neg hn]
    exact ⟨rfl, nofun⟩
  rw [if_pos hn]
  dsimp only
  rw [Client.wp_bind, careful_volume, careful_ite]
  split
  · exact ⟨rfl, nofun⟩
  rename_i hfine
  obtain ⟨hvalid, hfirst⟩ : validName name = true ∧ v.vol.geo.firstInode ≤ n := by simpa using hfine
  rw [Client.wp_bind]
  apply careful_supportedNode h
  rw [careful_ite]
  split
  · exact ⟨rfl, nofun⟩
  rename_i hsupports
  have hsound : v.Sound (v.nodeBlock n) (v.nodeOff n) type := supports_iff.1 (by simpa using hsupports)
  have hhas := (hsound.holdsAll htype).toHas
  -- what follows, after a directory was taken out of the counts
  have hrest : ∀ a : View, v.vol.Alike a.vol → a.cwd = v.cwd → a.inUse n = true → a.Has (v.nodeBlock n) (v.nodeOff n) maxPointers →
      (type ≠ dirMode ∧ a = v ∨ type = dirMode ∧ v.Empty n ∧ v.links n = 2 ∧ a = v.uncounted n v.cwd) →
      (dropName n (v.node n) ⟨some m, off⟩ type).wp careful (fun ok u => u.cwd = v.cwd ∧ (ok = true → v.Removed name type u)) a := by
    intro a halike hacwd hused hhas hstep
    obtain ⟨hnb, hno⟩ := node_alike halike n
    have hnode : a.node n = v.node n := congrArg₂ (fun x y => (⟨some x, y⟩ : Ptr)) hnb hno
    have hdata : a.vol.dataBlock m = true := (halike.dataBlock m).symm.trans hentry.data
    rw [← hnode]
    refine Client.wp_mono careful_mono (fun ok u hu => ?_)
      (careful_dropName (halike.laid h) hused (hnb.symm ▸ hno.symm ▸ hhas) hdata hentry.aligned)
    exact ⟨hu.2.1.trans hacwd, fun _ => ⟨hvalid, n, m, off, a, hentry, hn, hfirst, hsound, hstep, hu.2.2⟩⟩
  rw [careful_ite]
  split
  · rename_i hdir
    have hcwd := hentry.isDir.used
    rw [Client.wp_bind]
    refine Client.wp_mono careful_mono (fun ok a ha => ?_) (careful_unlinkDir h hn (hdir ▸ hsound) hcwd)
    rcases ha with ⟨rfl, rfl⟩ | ⟨rfl, hempty, hlinks, rfl⟩
    · exact ⟨rfl, nofun⟩
    · have hrelinked : (v.relinked v.cwd (v.links v.cwd + 65535)).inUse n = true :=
        (inUse_set h (fun hmap => h.map_not_table hmap (inTable h hcwd).table) _ n).trans hn
      have hhas' := hhas.congr (sameBlocks_relinked (l := v.links v.cwd + 65535) h hn hcwd hhas)
      refine hrest _ (alike_dirsCounted (v := v.relinked _ _) n _) rfl ?_ ?_ (.inr ⟨hdir, hempty, hlinks, rfl⟩)
      · exact (inUse_dirsCounted (v := v.relinked _ _) h n _ n).trans hrelinked
      · exact hhas'.congr (sameBlocks_dirsCounted (v := v.relinked _ _) h n _ _ _)
  · rename_i hfile
    exact hrest v (.refl _) rfl hn hhas (.inl ⟨hfile, rfl⟩)

end

end Barnix.Ext2
