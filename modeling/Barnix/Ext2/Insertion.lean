import Barnix.Ext2.Scans
/-!
# Inserting a directory record

`insert` puts a record into the slack of another one, or into a block that it adds to the
directory.
-/

namespace Barnix.Ext2

/-! ## The bytes of a record -/

/-- A record laid over the bytes from `off` on. -/
def overlay {len : Nat} (b : Block) (off : Nat) (c : Buf len) : Block := b.edit off len fun _ => c

theorem get_overlay {len : Nat} (b : Block) (off : Nat) (c : Buf len) {j : Nat} (h : off + len ≤ 1024) :
    (overlay b off c).get j = if off ≤ j ∧ j < off + len then c.get (j - off) else b.get j := by
  unfold overlay
  rw [Buf.get_edit]
  by_cases hj : off ≤ j ∧ j < off + len
  · rw [if_pos hj, if_pos (by omega)]
  · rw [if_neg hj, if_neg (by omega)]

theorem overlay_all (b : Block) (c : Buf blockSize) : overlay b 0 c = c := Buf.edit_all b fun _ => c

/-- The bytes that the record at `off` needs. -/
def usedBytes (blk : Block) (off : Nat) : Nat := if blk.get32 off = 0 then 0 else recordSize (blk.get (off + 6)).toNat

/-- The bytes behind them. -/
def room (blk : Block) (off : Nat) : Nat := blk.get16 (off + 4) - usedBytes blk off

/-- The record at `off` cut down to what it needs, with a new one behind it. -/
def withRecord (filetype : Bool) (blk : Block) (off : Nat) (name : Name) (ino type : Nat) : Block :=
  overlay (if usedBytes blk off ≠ 0 then blk.put16 (off + 4) (usedBytes blk off) else blk) (off + usedBytes blk off)
    (entryBytes filetype (room blk off) ino name type)

section
variable {v : View}

theorem View.set_set (m : Nat) (b b' : Block) : (v.set m b).set m b' = v.set m b' := by
  unfold set
  rw [Function.update_idem]

theorem careful_entrySet {Q : Unit → View → Prop} {m off ino len type : Nat} {name : Name} (hm : v.vol.dataBlock m = true)
    (hq : Q () (v.set m (overlay (v.mem m) off (entryBytes v.vol.geo.filetype len ino name type)))) :
    (entrySet ⟨some m, off⟩ ino len name type).wp careful Q v := by
  unfold entrySet
  rw [Client.wp_bind, careful_volume]
  exact (careful_store ..).mpr ⟨⟨.inr (.inr hm), fun _ => hm⟩, hq⟩

theorem careful_insertAt {name : Name} {ino type m off : Nat} (hm : v.vol.dataBlock m = true) :
    (insertAt name ino type ⟨some m, off⟩).wp careful (fun r u => (r = none ∧ u = v ∧ room (v.mem m) off < recordSize name.length) ∨
      (r = some true ∧ recordSize name.length ≤ room (v.mem m) off ∧
        u = v.set m (withRecord v.vol.geo.filetype (v.mem m) off name ino type))) v := by
  unfold insertAt
  simp only [Client.wp_bind, careful_rd16, careful_rd32, Nat.add_zero, careful_ite, Client.wp_pure, careful_nameLength]
  -- what the record at `off` needs, read once for both cases
  have hrest : ∀ used, used = usedBytes (v.mem m) off → (do
      if (v.mem m).get16 (off + 4) - used < recordSize name.length then return none
      if used ≠ 0 then wr16 .content ⟨some m, off⟩ 4 used
      entrySet ((⟨some m, off⟩ : Ptr).add used) ino ((v.mem m).get16 (off + 4) - used) name type
      return some true : Prog (Option Bool)).wp careful (fun r u => (r = none ∧ u = v ∧ room (v.mem m) off < recordSize name.length) ∨
        (r = some true ∧ recordSize name.length ≤ room (v.mem m) off ∧
          u = v.set m (withRecord v.vol.geo.filetype (v.mem m) off name ino type))) v := by
    rintro used rfl
    rw [careful_ite]
    change if room (v.mem m) off < _ then _ else _
    split
    · rename_i hfull
      exact .inl ⟨rfl, rfl, hfull⟩
    rename_i hfits
    dsimp only
    rw [careful_ite]
    by_cases hused : usedBytes (v.mem m) off ≠ 0
    · rw [if_pos hused, Client.wp_bind, careful_wr16]
      refine ⟨⟨.inr (.inr hm), fun _ => hm⟩, ?_⟩
      rw [Client.wp_bind, Ptr.add_mk]
      apply careful_entrySet (v := v.set m _) hm
      refine .inr ⟨rfl, Nat.le_of_not_lt hfits, ?_⟩
      rw [View.set_set, View.set_mem_same]
      unfold withRecord
      rw [if_pos hused]
      rfl
    · rw [if_neg hused, Client.wp_bind, Ptr.add_mk]
      apply careful_entrySet hm
      refine .inr ⟨rfl, Nat.le_of_not_lt hfits, ?_⟩
      unfold withRecord
      rw [if_neg hused]
      rfl
  have hsplit : usedBytes (v.mem m) off = if (v.mem m).get32 off = 0 then 0 else recordSize ((v.mem m).get (off + 6)).toNat := rfl
  by_cases hino : (v.mem m).get32 off = 0
  · rw [if_pos hino]
    simpa only [Client.wp_bind, careful_ite, Client.wp_pure] using hrest 0 (by rw [hsplit, if_pos hino])
  · rw [if_neg hino]
    simpa only [Client.wp_bind, careful_ite, Client.wp_pure] using hrest _ (by rw [hsplit, if_neg hino])

namespace View

/-- Where the next block of directory `dir` goes. -/
def blockCount (v : View) (dir : Nat) : Nat := v.word dir 4 / blockSize

/-- The block `x` added to a directory of `count` blocks, with one record. -/
def extended (w : View) (b off x : Nat) (name : Name) (ino type count sectors : Nat) : View :=
  ((w.repoint b off count x (sectors + 2)).resized b off ((count + 1) * blockSize)).set x
    (entryBytes w.vol.geo.filetype blockSize ino name type)

/-- As the code does it: the size is set before the sectors are counted. -/
theorem extended_eq {w : View} {b off x : Nat} {name : Name} {ino type count sectors : Nat} (hc : count < 12) (hx : x ≠ b) :
    w.extended b off x name ino type count sectors =
      (w.set b ((((w.mem b).put32 (off + (40 + count * 4)) x).put32 (off + 4) ((count + 1) * blockSize)).put32 (off + 28) (sectors + 2))).set x
        (entryBytes w.vol.geo.filetype blockSize ino name type) := by
  unfold extended resized repoint recount withSlot slotBlock slotOff
  rw [if_pos hc, if_pos hc]
  simp only [set_mem_same, set_set]
  rw [Buf.put32_comm (i := off + 28) (j := off + 4) _ _ _ (by omega)]

/-- A record was inserted into directory `dir`. -/
inductive Inserted (v : View) (dir : Nat) (name : Name) (ino type : Nat) : View → Prop where
  | slack {m off : Nat} (isDir : v.IsDir dir) (fresh : Reads (lookup dir name) v .absent) (block : v.DirBlock dir m)
      (aligned : off % 4 = 0) (record : v.vol.record (v.mem m) off (blockSize - off) = true) (fits : recordSize name.length ≤ room (v.mem m) off) :
      Inserted v dir name ino type (v.set m (withRecord v.vol.geo.filetype (v.mem m) off name ino type))
  | grown {w : View} {x : Nat} (isDir : v.IsDir dir) (fresh : Reads (lookup dir name) v .absent) (more : v.blockCount dir < 12) (took : v.Took w x) :
      Inserted v dir name ino type (w.extended (v.nodeBlock dir) (v.nodeOff dir) x name ino type (v.blockCount dir) (v.word dir 28))

theorem Inserted.alike {dir ino type : Nat} {name : Name} {u : View} (h : v.Inserted dir name ino type u) : v.vol.Alike u.vol := by
  cases h with
  | slack => exact .refl _
  | grown _ _ _ htook => exact htook.alike

end View

open View

/-- `insert`. -/
theorem careful_insert {dir ino type : Nat} {name : Name} (h : v.vol.Laid) : (insert dir name ino type).wp careful
    (fun ok u => u.cwd = v.cwd ∧ (ok = true → v.Inserted dir name ino type u)) v := by
  unfold insert
  rw [Client.wp_bind]
  apply careful_inode h
  by_cases hused : v.inUse dir = true
  swap
  · rw [if_neg hused]
    exact ⟨rfl, nofun⟩
  rw [if_pos hused]
  dsimp only
  rw [Client.wp_bind]
  apply careful_supportedNode h
  rw [careful_ite]
  split
  · exact ⟨rfl, nofun⟩
  rename_i hsupports
  have hdir : v.IsDir dir := ⟨hused, supports_iff.1 (by simpa using hsupports)⟩
  rw [Client.wp_bind]
  refine careful_lookup h ⟨rfl, nofun⟩ (fun _ hfresh => ?_) fun _ _ _ _ => ⟨rfl, nofun⟩
  rw [if_neg fun hno => hno rfl]
  unfold View.node
  rw [Client.wp_bind, careful_rd32, Client.wp_bind]
  have htable := (inTable h hused).table
  apply careful_scanBlocks
  · exact fun i hi => owned_of_used (hdir.sound.dirBlocks (List.mem_range.1 hi)).2
  · intro i hi off halign hrecord
    have hblock : v.DirBlock dir ((v.mem (v.nodeBlock dir)).get32 (v.nodeOff dir + (40 + i * 4))) := ⟨i, List.mem_range.1 hi, rfl⟩
    refine Client.wp_mono careful_mono (fun r u hr => ?_) (careful_insertAt (data_of_used (hdir.dirBlock hblock)))
    rcases hr with ⟨rfl, rfl, -⟩ | ⟨rfl, hfits, rfl⟩
    · rfl
    · exact ⟨rfl, fun _ => .slack hdir hfresh hblock halign hrecord hfits⟩
  · exact ⟨rfl, nofun⟩
  dsimp only
  rw [careful_ite]
  split
  · exact ⟨rfl, nofun⟩
  rename_i hcount
  rw [Client.wp_bind]
  refine careful_allocateBlock h ?_ fun x w hx htook => ?_
  · rw [if_pos rfl]
    exact ⟨rfl, nofun⟩
  rw [if_neg hx]
  have hc : v.blockCount dir < 12 := by
    have hle := hdir.sound.evenDir
    have hsize : ¬12 * blockSize < (v.mem (v.nodeBlock dir)).get32 (v.nodeOff dir + 4) := fun hbig => hle ⟨rfl, .inr (.inl hbig)⟩
    unfold View.blockCount View.word
    unfold blockSize at hsize hcount ⊢
    omega
  have howned : w.vol.Owned (v.nodeBlock dir) := htook.alike.owned.1 (.inr (.inl htable))
  have hdata : w.vol.dataBlock x = true := (htook.alike.dataBlock x).symm.trans htook.data
  have hxb : x ≠ v.nodeBlock dir := (inTable h hused).ne_data htook.data
  have hkeep : w.mem (v.nodeBlock dir) = v.mem (v.nodeBlock dir) := htook.mem_table h htable
  simp only [Client.wp_bind, careful_wr32, careful_rd32, careful_block, Client.wp_pure, View.set_set, View.set_mem_same]
  refine ⟨⟨howned, nofun⟩, ⟨howned, nofun⟩, ⟨howned, nofun⟩, .inr (.inr hdata), ?_⟩
  refine careful_entrySet hdata ⟨htook.cwd, fun _ => ?_⟩
  have hgrown : v.Inserted dir name ino type _ := .grown hdir hfresh hc htook
  rw [View.extended_eq hc hxb] at hgrown
  have hsectors : (((w.mem (v.nodeBlock dir)).put32 (v.nodeOff dir + (40 + v.blockCount dir * 4)) x).put32 (v.nodeOff dir + 4)
      ((v.blockCount dir + 1) * blockSize)).get32 (v.nodeOff dir + 28) = v.word dir 28 := by
    rw [Buf.get32_put32_ne _ _ (by omega), Buf.get32_put32_ne _ _ (by omega), hkeep]
    rfl
  rw [overlay_all]
  change v.Inserted dir name ino type (View.set (View.set w _ (Buf.put32 _ _ (Buf.get32 (((w.mem (v.nodeBlock dir)).put32
    (v.nodeOff dir + (40 + v.blockCount dir * 4)) x).put32 (v.nodeOff dir + 4) ((v.blockCount dir + 1) * blockSize)) _ + 2))) _ _)
  rw [hsectors]
  exact hgrown

end

end Barnix.Ext2
