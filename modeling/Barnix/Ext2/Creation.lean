import Barnix.Ext2.Insertion
/-!
# Creating files and directories

`create` takes an inode, fills it in, makes the first block of a directory, and names the
inode in the working directory. `write_file` replaces what the named file holds.
-/

namespace Barnix.Ext2

section
variable {v w : View}

namespace View

/-- Which inodes are in use is in the inode bitmaps. -/
theorem inUse_congr (hl : v.vol.Laid) (halike : v.vol.Alike w.vol)
    (hmaps : ∀ g < v.vol.geo.groups, w.mem (v.vol.desc g 4) = v.mem (v.vol.desc g 4)) (n : Nat) : w.inUse n = v.inUse n := by
  unfold inUse
  rw [← halike.geo, ← halike.desc _ 4 (by decide)]
  by_cases hn : n ≠ 0 ∧ n ≤ v.vol.geo.inodeCount
  · rw [hmaps _ (group_lt hl hn.1 hn.2)]
  · have hrange : (decide (n ≠ 0) && decide (n ≤ v.vol.geo.inodeCount)) = false := by
      rw [Bool.and_eq_false_iff, decide_eq_false_iff_not, decide_eq_false_iff_not]
      omega
    rw [hrange, Bool.false_and, Bool.false_and]

theorem inUse_set (hl : v.vol.Laid) {m : Nat} (hm : ¬v.vol.Map m) (b : Block) (n : Nat) : (v.set m b).inUse n = v.inUse n := by
  refine inUse_congr (w := v.set m b) hl (.refl _) (fun g hg => ?_) n
  rw [set_mem, if_neg]
  rintro rfl
  exact hm ⟨g, hg, .inr rfl⟩

theorem not_map_of_data (hl : v.vol.Laid) {m : Nat} (hm : v.vol.dataBlock m = true) : ¬v.vol.Map m := by
  intro hmap
  have hno := hl.map_not_data hmap
  rw [hm] at hno
  cases hno

/-- A new inode filled in. -/
def initNode (v : View) (n type : Nat) : View :=
  v.set (v.nodeBlock n) ((((((v.mem (v.nodeBlock n)).put16 (v.nodeOff n) (type ||| (if type = dirMode then 0o755 else 0o644))).put16
    (v.nodeOff n + 26) (if type = dirMode then 2 else 1)).put32 (v.nodeOff n + 8) (v.vol.superblock.get32 48)).put32
    (v.nodeOff n + 12) (v.vol.superblock.get32 48)).put32 (v.nodeOff n + 16) (v.vol.superblock.get32 48))

/-- The first block of a directory: its own record and that of its parent. -/
def dirBytes (filetype : Bool) (blk : Block) (n parent : Nat) : Block :=
  overlay (overlay blk 0 (entryBytes filetype 12 n dot dirMode)) 12 (entryBytes filetype (blockSize - 12) parent dotdot dirMode)

/-- The inode of a new directory with its block `x`. -/
def withFirst (v : View) (n x : Nat) : View :=
  v.set (v.nodeBlock n) ((((v.mem (v.nodeBlock n)).put32 (v.nodeOff n + 4) blockSize).put32 (v.nodeOff n + 28) 2).put32 (v.nodeOff n + 40) x)

/-- And with its own two records in the block. -/
def withDots (v : View) (n x parent : Nat) : View := (v.withFirst n x).set x (dirBytes v.vol.geo.filetype (v.mem x) n parent)

/-- The links of inode `n` set. -/
def relinked (v : View) (n links : Nat) : View := v.set (v.nodeBlock n) ((v.mem (v.nodeBlock n)).put16 (v.nodeOff n + 26) links)

/-- The number of links of inode `n`. -/
def links (v : View) (n : Nat) : Nat := (v.mem (v.nodeBlock n)).get16 (v.nodeOff n + 26)

/-- Where the directories in the group of inode `n` are counted. -/
def dirsAt (v : View) (n : Nat) : Nat := (n - 1) / v.vol.geo.inodesPerGroup * 32 + 16

/-- That count set, modulo 2^16. -/
def dirsCounted (v : View) (n k : Nat) : View :=
  { v with vol := { v.vol with descriptors := v.vol.descriptors.put16 (v.dirsAt n) k } }

/-- Directory `n` with its first block `x`, in its parent's and its group's counts. -/
def madeDir (v : View) (n x parent : Nat) : View :=
  ((v.withDots n x parent).relinked parent ((v.withDots n x parent).links parent + 1)).dirsCounted n
    (v.vol.descriptors.get16 (v.dirsAt n) + 1)

theorem alike_dirsCounted (n k : Nat) : v.vol.Alike (v.dirsCounted n k).vol :=
  .putDesc (k := 16) (by decide) (by decide) _

theorem inUse_dirsCounted (hl : v.vol.Laid) (n k m : Nat) : (v.dirsCounted n k).inUse m = v.inUse m :=
  inUse_congr hl (alike_dirsCounted n k) (fun _ _ => rfl) m

theorem sameBlocks_dirsCounted (hl : v.vol.Laid) (n k b off : Nat) : v.SameBlocks (v.dirsCounted n k) b off :=
  sameBlocks_of_bytes hl (alike_dirsCounted n k) (fun _ _ => rfl) (fun _ => rfl) fun _ _ => rfl

end View

open View

theorem careful_createDir {n : Nat} (h : v.vol.Laid) (hn : v.inUse n = true) (hcwd : v.inUse v.cwd = true) :
    (createDir n (v.node n)).wp careful (fun ok u => u.cwd = v.cwd ∧ (ok = true → ∃ w x, v.Took w x ∧
      u = w.madeDir n x v.cwd ∧ (w.withDots n x v.cwd).links v.cwd < 65535)) v := by
  unfold createDir
  rw [Client.wp_bind]
  refine careful_allocateBlock h ?_ fun x w hx htook => ?_
  · rw [if_pos rfl]
    exact ⟨rfl, nofun⟩
  rw [if_neg hx]
  have hl := htook.alike.laid h
  obtain ⟨hnb, hno⟩ := node_alike htook.alike n
  have hinw : ∀ k, w.inUse k = v.inUse k := inUse_congr h htook.alike fun g hg => htook.mem_imap h hg
  have hwn := inTable hl ((hinw n).trans hn)
  have hdata : w.vol.dataBlock x = true := (htook.alike.dataBlock x).symm.trans htook.data
  have hownedn : w.vol.Owned (w.nodeBlock n) := .inr (.inl hwn.table)
  have hxn : x ≠ w.nodeBlock n := hwn.ne_data hdata
  have hfirst : (w.withDots n x v.cwd).inUse v.cwd = true := by
    unfold withDots
    rw [inUse_set (v := w.withFirst n x) hl (not_map_of_data hl hdata)]
    refine (inUse_set hl ?_ _ _).trans ((hinw _).trans hcwd)
    exact fun hmap => hl.map_not_table hmap hwn.table
  have hmemx : (w.withFirst n x).mem x = w.mem x := by
    unfold withFirst
    rw [set_mem, if_neg hxn]
  have hwcwd : w.cwd = v.cwd := htook.cwd
  unfold View.node
  rw [← hnb, ← hno]
  simp only [Client.wp_bind, careful_wr32, careful_block, set_set, set_mem_same]
  refine ⟨⟨hownedn, nofun⟩, ⟨hownedn, nofun⟩, ⟨hownedn, nofun⟩, .inr (.inr hdata), ?_⟩
  change (entrySet _ n 12 dot dirMode).wp careful _ (w.withFirst n x)
  refine careful_entrySet hdata ?_
  rw [careful_workingDir, careful_block]
  refine ⟨.inr (.inr hdata), ?_⟩
  rw [Ptr.add_mk, Nat.zero_add]
  refine careful_entrySet hdata ?_
  rw [set_set, set_mem_same, hmemx]
  change (inode w.cwd).wp careful _ (w.withDots n x w.cwd)
  rw [hwcwd]
  have hvol : (w.withDots n x v.cwd).vol = w.vol := rfl
  generalize ha : w.withDots n x v.cwd = a at hfirst hvol
  have hal : a.vol.Laid := hvol ▸ hl
  have hacwd : a.cwd = v.cwd := by
    rw [← ha]
    exact hwcwd
  apply careful_inode hal
  rw [hfirst, if_pos rfl, careful_deref]
  unfold View.node
  have htable := (inTable hal hfirst).table
  have hgroup : (n - 1) / a.vol.geo.inodesPerGroup < a.vol.geo.groups := by
    rw [hvol, ← htook.alike.geo]
    exact group_lt_of_inUse h hn
  simp only [Client.wp_bind, careful_rd16, careful_ite, careful_wr16, Client.wp_pure, careful_volume, careful_putDesc]
  split
  · exact ⟨hacwd, nofun⟩
  rename_i hlinks
  refine ⟨⟨.inr (.inl htable), nofun⟩, ⟨(n - 1) / a.vol.geo.inodesPerGroup, 16, rfl, hgroup, by decide, by decide⟩, hacwd, fun _ => ?_⟩
  refine ⟨w, x, htook, ?_, ?_⟩
  · unfold madeDir dirsAt
    rw [ha, ← hvol]
    rfl
  · rw [ha]
    exact Nat.lt_of_le_of_ne (Nat.le_of_lt_succ (Buf.get16_lt _ _)) hlinks

namespace View

/-- A file or directory was created and named in the working directory. -/
structure Created (v : View) (name : Name) (type : Nat) (u : View) : Prop where
  valid : validName name = true
  isDir : v.IsDir v.cwd
  fresh : Reads (lookup v.cwd name) v .absent
  made : ∃ n w a, v.TookInode w n ∧ a.Inserted v.cwd name n type u ∧ a.cwd = v.cwd ∧
    (type ≠ dirMode ∧ a = w.initNode n type ∨ type = dirMode ∧ ∃ t x, (w.initNode n type).Took t x ∧ a = t.madeDir n x v.cwd ∧
      (t.withDots n x v.cwd).links v.cwd < 65535)

end View

/-- `create`. -/
theorem careful_create {name : Name} {type : Nat} (h : v.vol.Laid) : (create name type).wp careful
    (fun ok u => u.cwd = v.cwd ∧ (ok = true → v.Created name type u)) v := by
  unfold create
  rw [careful_ite]
  split
  · exact ⟨rfl, nofun⟩
  rename_i hvalid
  rw [Client.wp_bind, careful_workingDir, Client.wp_bind]
  refine careful_lookup h ⟨rfl, nofun⟩ (fun hdir hfresh => ?_) fun _ _ _ _ => ⟨rfl, nofun⟩
  rw [if_neg fun hno => hno rfl, Client.wp_bind]
  refine careful_allocateInode h ?_ fun n w hn htook => ?_
  · rw [if_pos rfl]
    exact ⟨rfl, nofun⟩
  rw [if_neg hn]
  have hl := htook.alike.laid h
  have hinw : w.inUse n = true := by
    rw [htook.inUse n htook.pos htook.le, beq_self_eq_true, Bool.true_or]
  have hcwdw : w.inUse v.cwd = true := by
    obtain ⟨⟨h0, hle⟩, -⟩ := inUse_iff.1 hdir.used
    rw [htook.inUse _ h0 hle, hdir.used, Bool.or_true]
  have htable := (inTable hl hinw).table
  have hnotmap : ¬w.vol.Map (w.nodeBlock n) := fun hmap => hl.map_not_table hmap htable
  rw [Client.wp_bind]
  apply careful_inode hl
  rw [hinw, if_pos rfl, Client.wp_bind, careful_deref]
  unfold View.node
  simp only [Client.wp_bind, careful_wr16, careful_wr32, careful_volume, set_set, set_mem_same, set_vol, Nat.add_zero]
  have howned : w.vol.Owned (w.nodeBlock n) := .inr (.inl htable)
  refine ⟨⟨howned, nofun⟩, ⟨howned, nofun⟩, ⟨howned, nofun⟩, ⟨howned, nofun⟩, ⟨howned, nofun⟩, ?_⟩
  rw [show w.set (w.nodeBlock n) _ = w.initNode n type from rfl]
  have hcwd : (w.initNode n type).cwd = v.cwd := htook.cwd
  have hinit : ∀ k, (w.initNode n type).inUse k = w.inUse k := inUse_set hl hnotmap _
  rw [careful_ite]
  split
  · rename_i hdirMode
    rw [Client.wp_bind]
    have hcreate := careful_createDir (v := w.initNode n type) (n := n) hl ((hinit n).trans hinw) (by rw [hcwd, hinit, hcwdw])
    rw [hcwd] at hcreate
    refine Client.wp_mono careful_mono (fun ok a ⟨hacwd, hok⟩ => ?_) hcreate
    cases ok with
    | false => exact ⟨hacwd, nofun⟩
    | true =>
      obtain ⟨t, x, ht, rfl, hlinks⟩ := hok rfl
      have hlt : (t.madeDir n x v.cwd).vol.Laid := (alike_dirsCounted (v := View.relinked _ _ _) n _).laid (ht.alike.laid hl)
      refine Client.wp_mono careful_mono (fun ok u hu => ⟨hu.1.trans hacwd, fun hdone => ?_⟩) (careful_insert hlt)
      exact ⟨by simpa using hvalid, hdir, hfresh, n, w, _, htook, hu.2 hdone, hacwd, .inr ⟨hdirMode, t, x, ht, rfl, hlinks⟩⟩
  · rename_i hfile
    refine Client.wp_mono careful_mono (fun ok u hu => ⟨hu.1.trans hcwd, fun hdone => ?_⟩) (careful_insert hl)
    exact ⟨by simpa using hvalid, hdir, hfresh, n, w, _, htook, hu.2 hdone, hcwd, .inl ⟨hfile, rfl⟩⟩

namespace View

theorem alike_madeDir (n x parent : Nat) : v.vol.Alike (v.madeDir n x parent).vol := 
  alike_dirsCounted (v := (v.withDots n x parent).relinked parent ((v.withDots n x parent).links parent + 1)) n _

theorem Created.alike {name : Name} {type : Nat} {u : View} (h : v.Created name type u) : v.vol.Alike u.vol := by
  obtain ⟨-, -, -, n, w, a, htook, hinserted, -, hmade⟩ := h
  refine htook.alike.trans (.trans ?_ hinserted.alike)
  rcases hmade with ⟨-, rfl⟩ | ⟨-, t, x, ht, rfl, -⟩
  · exact .refl _
  · exact ht.alike.trans (alike_madeDir n x _)

/-- What `write_file` did: it found a file of this name, or made one, and replaced its content. -/
structure Replaced (v : View) (name : Name) (data : Nat → UInt8) (size : Nat) (u : View) : Prop where
  valid : validName name = true
  fits : size ≤ maxFile
  wrote : ∃ w n m off, (w = v ∨ v.Created name fileMode w) ∧ w.Entry v.cwd name n m off ∧ w.inUse n = true ∧
    w.Sound (w.nodeBlock n) (w.nodeOff n) fileMode ∧ w.Rewrote u (w.nodeBlock n) (w.nodeOff n) data size

end View

/-- The part of `write_file` about a file that was found. -/
def replaceFound (found : Found) (data : Nat → UInt8) (size : Nat) : Prog Bool := do
  match found with
  | .entry n _ =>
    match ← inode n with
    | none => return false
    | some node =>
      if !(← supportedNode node fileMode) then return false
      overwrite node data size
  | _ => return false

theorem writeFile_eq (name : Name) (data : Nat → UInt8) (size : Int) : writeFile name data size = (do
    if size < 0 ∨ (maxFile : Int) < size ∨ !validName name then return false
    let cwd ← workingDir
    let found ← lookup cwd name
    if found = .absent then
      if !(← create name fileMode) then return false
    let found ← if found = .absent then lookup cwd name else pure found
    replaceFound found data size.toNat) := rfl

theorem careful_replaceFound {n size : Nat} {e : Ptr} {data : Nat → UInt8} (h : v.vol.Laid) (hsize : size ≤ maxFile) :
    (replaceFound (.entry n e) data size).wp careful (fun ok u => u.cwd = v.cwd ∧ (ok = true → v.inUse n = true ∧
      v.Sound (v.nodeBlock n) (v.nodeOff n) fileMode ∧ v.Rewrote u (v.nodeBlock n) (v.nodeOff n) data size)) v := by
  unfold replaceFound
  dsimp only
  rw [Client.wp_bind]
  apply careful_inode h
  by_cases hn : v.inUse n = true
  swap
  · rw [if_neg hn]
    exact ⟨rfl, nofun⟩
  rw [if_pos hn]
  unfold View.node
  dsimp only
  rw [Client.wp_bind]
  apply careful_supportedNode h
  rw [careful_ite]
  split
  · exact ⟨rfl, nofun⟩
  rename_i hsupports
  have hsound := supports_iff.1 (show v.supports (v.nodeBlock n) (v.nodeOff n) fileMode = true by simpa using hsupports)
  refine Client.wp_mono careful_mono (fun ok u hu => ?_) (careful_overwrite (inTable h hn) (hsound.holdsAll (.inl rfl)) hsize)
  exact ⟨hu.1, fun hok => ⟨hn, hsound, hu.2 hok⟩⟩

/-- `write_file`. -/
theorem careful_writeFile {name : Name} {data : Nat → UInt8} {size : Int} (h : v.vol.Laid) : (writeFile name data size).wp careful
    (fun ok u => u.cwd = v.cwd ∧ (ok = true → v.Replaced name data size.toNat u)) v := by
  rw [writeFile_eq, careful_ite]
  split
  · exact ⟨rfl, nofun⟩
  rename_i hok
  obtain ⟨hpos, hmax, hvalid⟩ : ¬size < 0 ∧ ¬(maxFile : Int) < size ∧ validName name = true := by
    obtain ⟨h1, h2⟩ := not_or.1 hok
    obtain ⟨h2, h3⟩ := not_or.1 h2
    exact ⟨h1, h2, by simpa using h3⟩
  have hsize : size.toNat ≤ maxFile := by omega
  -- what is found is replaced
  have hreplace : ∀ w, w.vol.Laid → w.cwd = v.cwd → (w = v ∨ v.Created name fileMode w) → ∀ n m off, w.Entry v.cwd name n m off →
      (replaceFound (.entry n ⟨some m, off⟩) data size.toNat).wp careful
        (fun ok u => u.cwd = v.cwd ∧ (ok = true → v.Replaced name data size.toNat u)) w := by
    intro w hl hcwd hw n m off hentry
    refine Client.wp_mono careful_mono (fun ok u hu => ⟨hu.1.trans hcwd, fun hdone => ?_⟩) (careful_replaceFound hl hsize)
    obtain ⟨hn, hsound, hrewrote⟩ := hu.2 hdone
    exact ⟨hvalid, hsize, w, n, m, off, hw, hentry, hn, hsound, hrewrote⟩
  rw [Client.wp_bind, careful_workingDir, Client.wp_bind]
  refine careful_lookup h ⟨rfl, nofun⟩ (fun _ _ => ?_) fun n m off hentry => ?_
  · -- there is none: one is created, and looked up
    rw [if_pos rfl, Client.wp_bind]
    refine Client.wp_mono careful_mono (fun ok w ⟨hcwd, hok⟩ => ?_) (careful_create h)
    cases ok with
    | false => exact ⟨hcwd, nofun⟩
    | true =>
      have hw := hok rfl
      have hl := hw.alike.laid h
      rw [Bool.not_true, if_neg Bool.false_ne_true, if_pos rfl, Client.wp_bind]
      refine careful_lookup hl ⟨hcwd, nofun⟩ (fun _ _ => ⟨hcwd, nofun⟩) fun n m off hentry => ?_
      exact hreplace w hl hcwd (.inr hw) n m off hentry
  · rw [if_neg (by nofun), if_neg (by nofun), Client.wp_bind, Client.wp_pure]
    exact hreplace v h rfl (.inl rfl) n m off hentry

namespace View

/-- The directory that a path to write is named in, and the name there. -/
def Place (v : View) (path : Name) (dir : Nat) (base : Name) : Prop :=
  (splitParent path = none ∧ dir = v.cwd ∧ base = path) ∨
    ∃ parent, splitParent path = some (parent, base) ∧ Gives (lookupPath parent) v (some dir) ∧ v.IsDir dir

/-- What `engine_write` did, for a path. -/
def Written (v : View) (path : Name) (data : Nat → UInt8) (size : Nat) (u : View) : Prop :=
  ∃ dir base w, v.Place path dir base ∧ ({ v with cwd := dir } : View).Replaced base data size w ∧ u = { w with cwd := v.cwd }

end View

/-- `engine_write`: the file is named relative to its directory, and the working directory is what it was. -/
theorem careful_writePath {name : Name} {data : Nat → UInt8} {size : Int} (h : v.vol.Laid) : (writePath name data size).wp careful
    (fun ok u => u.cwd = v.cwd ∧ (ok = true → v.Written name data size.toNat u)) v := by
  unfold writePath
  cases hsplit : splitParent name with
  | none =>
    refine Client.wp_mono careful_mono (fun ok u hu => ⟨hu.1, fun hok => ?_⟩) (careful_writeFile h)
    refine ⟨v.cwd, name, u, .inl ⟨hsplit, rfl, rfl⟩, hu.2 hok, ?_⟩
    rw [← hu.1]
  | some p =>
    obtain ⟨parent, base⟩ := p
    dsimp only
    rw [Client.wp_bind, careful_workingDir, careful_ite]
    split
    · exact ⟨rfl, nofun⟩
    obtain ⟨found, hgives, -⟩ := (looks_lookupPath h parent).answer (P := fun _ _ => True) (looks_lookupPath h parent _ fun _ => trivial)
    rw [Client.wp_bind]
    apply hgives
    cases found with
    | none => exact ⟨rfl, nofun⟩
    | some dir =>
      dsimp only
      rw [Client.wp_bind]
      apply careful_inode h
      by_cases hdir : v.inUse dir = true
      swap
      · rw [if_neg hdir]
        exact ⟨rfl, nofun⟩
      rw [if_pos hdir, Client.wp_bind]
      apply careful_supportedNode h
      rw [careful_ite]
      split
      · exact ⟨rfl, nofun⟩
      rename_i hsupports
      have hisDir : v.IsDir dir := ⟨hdir, supports_iff.1 (by simpa using hsupports)⟩
      rw [Client.wp_bind, careful_chdir, Client.wp_bind]
      refine Client.wp_mono careful_mono (fun ok w hw => ?_) (careful_writeFile (v := { v with cwd := dir }) h)
      rw [Client.wp_bind, careful_chdir]
      exact ⟨rfl, fun hok => ⟨dir, base, w, .inr ⟨parent, hsplit, hgives, hisDir⟩, hw.2 hok, rfl⟩⟩

end

end Barnix.Ext2
