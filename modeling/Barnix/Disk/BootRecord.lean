import Barnix.Disk.Partitions
import Barnix.Disk.Faithful
/-!
# Boot records

Partition tables on the disk (`partition.c`): reading the boot record into a table,
adding to the table, and writing the table into the boot record.
-/

namespace Barnix.Disk

/-! ## Adding a partition -/

namespace PartitionTable

variable {t : PartitionTable}

/-- A plan that ended with `r`: entry `i` is new, or the table is as it was. -/
structure Planned (t : PartitionTable) (i : Fin 4) (r : Int × PartitionTable) : Prop where
  sectors : r.2.sectors = t.sectors
  others : ∀ j, j ≠ i → r.2.entries j = t.entries j
  added : 0 ≤ r.1 → ¬t.Occupied i ∧ r.2.Occupied i ∧ r.2.validate = 0 ∧
    2048 ≤ (r.2.entries i).start.toNat ∧ (r.2.entries i).start.toNat % 2048 = 0 ∧ (r.2.entries i).block.stop ≤ t.sectors.toNat ∧
    ∀ j, j ≠ i → t.Occupied j → (r.2.entries i).block.Apart (t.entries j).block
  failed : r.1 < 0 → (t.Occupied i → r.2.entries i = t.entries i) ∧ (¬t.Occupied i → ¬r.2.Occupied i)

theorem not_nonneg : ¬(0 : Int) ≤ -1 := by decide

theorem Planned.unchanged (t : PartitionTable) (i : Fin 4) : t.Planned i (-1, t) :=
  ⟨rfl, fun _ _ => rfl, fun h => absurd h not_nonneg, fun _ => ⟨fun _ => rfl, id⟩⟩

/-- A table whose entry `i`, empty before, was cleared again. -/
theorem Planned.cleared {i : Fin 4} {t' : PartitionTable} (hi : (t.entries i).type = 0) (hs : t'.sectors = t.sectors)
    (hother : ∀ j, j ≠ i → t'.entries j = t.entries j) (hclear : (t'.entries i).type = 0) : t.Planned i (-1, t') :=
  ⟨hs, hother, fun h => absurd h not_nonneg, fun _ => ⟨fun h => absurd hi h, fun _ h => h hclear⟩⟩

theorem setEntry_self (t : PartitionTable) (i : Fin 4) (p : Partition) : (t.setEntry i p).entries i = p := Function.update_self ..

theorem setEntry_ne (t : PartitionTable) {i j : Fin 4} (h : j ≠ i) (p : Partition) : (t.setEntry i p).entries j = t.entries j :=
  Function.update_of_ne h ..

theorem add_planned (t : PartitionTable) (i : Fin 4) (start size type : UInt32) : t.Planned i (t.add i.val start size type) := by
  have hindex : 0 ≤ (i.val : Int) ∧ (i.val : Int) ≤ 3 := by
    have := i.isLt
    omega
  have hfin : (⟨(i.val : Int).toNat, by omega⟩ : Fin 4) = i := Fin.ext (Int.toNat_natCast _)
  rw [add, dif_pos hindex]
  dsimp only
  rw [hfin]
  by_cases hbad : (t.entries i).type ≠ 0 ∨ (type ≠ 0x83 ∧ type ≠ 0xef) ∨ start < 2048 ∨ start % 2048 ≠ 0 ∨ size = 0
  · rw [if_pos hbad]
    exact .unchanged t i
  rw [if_neg hbad]
  simp only [not_or, not_and, not_not] at hbad
  obtain ⟨hempty, htype, hstart, hmod, -⟩ := hbad
  by_cases hvalid : (t.setEntry i ⟨start, size, type.toUInt8, 0⟩).validate = 0
  · rw [if_neg (by simpa using hvalid)]
    have hv := (validate_iff _).1 hvalid
    have hnew : (t.setEntry i ⟨start, size, type.toUInt8, 0⟩).Occupied i := by
      unfold Occupied
      rw [setEntry_self]
      by_cases h83 : type = 0x83
      · subst h83
        exact show UInt32.toUInt8 0x83 ≠ 0 by decide
      · rw [htype h83]
        exact show UInt32.toUInt8 0xef ≠ 0 by decide
    refine ⟨rfl, fun j hj => setEntry_ne t hj _, fun _ => ⟨fun h => h hempty, hnew, hvalid, ?_, ?_, (hv.inside hnew).2.2,
      fun j hj ho => ?_⟩, fun h => absurd h (Int.lt_irrefl 0)⟩
    · rw [setEntry_self]
      rw [UInt32.lt_iff_toNat_lt] at hstart
      simpa using hstart
    · rw [setEntry_self]
      rw [← UInt32.toNat_inj, UInt32.toNat_mod] at hmod
      simpa using hmod
    · have hold : (t.setEntry i ⟨start, size, type.toUInt8, 0⟩).Occupied j := by
        unfold Occupied
        rw [setEntry_ne t hj]
        exact ho
      have := hv.apart_of_ne (Ne.symm hj) hnew hold
      rwa [setEntry_ne t hj] at this
  · rw [if_pos hvalid]
    refine .cleared hempty rfl (fun j hj => ?_) ?_
    · rw [setEntry_ne _ hj, setEntry_ne _ hj]
    · rw [setEntry_self]

/-- A slot outside of the table. -/
theorem add_outside (t : PartitionTable) {slot : Int} (h : ¬(0 ≤ slot ∧ slot ≤ 3)) (start size type : UInt32) :
    t.add slot start size type = (-1, t) := by
  rw [add, dif_neg h]

/-- A plan for the table that a failed plan has left is one for the table before. -/
theorem Planned.after {i : Fin 4} {t' : PartitionTable} {r : Int × PartitionTable} (h : t.Planned i (-1, t'))
    (h' : t'.Planned i r) : t.Planned i r := by
  obtain ⟨hkeep, hempty⟩ := h.failed (show (-1 : Int) < 0 from by decide)
  have hocc : t'.Occupied i ↔ t.Occupied i := by
    by_cases hi : t.Occupied i
    · unfold Occupied
      rw [hkeep hi]
    · exact iff_of_false (hempty hi) hi
  have hother : ∀ j, j ≠ i → (t'.Occupied j ↔ t.Occupied j) := fun j hj => by
    unfold Occupied
    rw [h.others j hj]
  refine ⟨h'.sectors.trans h.sectors, fun j hj => (h'.others j hj).trans (h.others j hj), fun hr => ?_, fun hr => ?_⟩
  · obtain ⟨hfree, hnew, hvalid, hlow, hmod, hstop, hapart⟩ := h'.added hr
    refine ⟨fun hi => hfree (hocc.2 hi), hnew, hvalid, hlow, hmod, h.sectors ▸ hstop, fun j hj ho => ?_⟩
    have := hapart j hj ((hother j hj).2 ho)
    rwa [h.others j hj] at this
  · obtain ⟨hsame, hstill⟩ := h'.failed hr
    exact ⟨fun hi => (hsame (hocc.2 hi)).trans (hkeep hi), fun hi => hstill fun hi' => hi (hocc.1 hi')⟩

theorem attempt_planned (slot : Fin 4) (size type : UInt32) (rounds : Nat) (t : PartitionTable) (start : UInt32) :
    t.Planned slot (attempt slot size type rounds t start) ∧
      (0 ≤ (attempt slot size type rounds t start).1 → (attempt slot size type rounds t start).1 = slot.val) := by
  induction rounds generalizing t start with
  | zero => exact ⟨.unchanged t slot, fun h => absurd h not_nonneg⟩
  | succ rounds ih =>
    unfold attempt
    dsimp only
    by_cases hnext : (t.survey start).2 ≠ start
    · rw [if_pos hnext]
      split
      · exact ⟨.unchanged t slot, fun h => absurd h not_nonneg⟩
      · exact ih t _
    · rw [if_neg hnext]
      generalize hstop : (t.survey start).1 = stop
      generalize (if start < stop then stop - start else 0) = available
      generalize (if size ≠ 0 then size else available) = wanted
      -- the table with the new entry, or the one that a failed attempt leaves
      have hadd : t.Planned slot (if wanted ≠ 0 ∧ wanted ≤ available then t.add slot.val start wanted type else (-1, t)) := by
        split
        · exact add_planned t slot start wanted type
        · exact .unchanged t slot
      have hanswer : ∀ r : Int × PartitionTable, r = t.add slot.val start wanted type ∨ r = (-1, t) → r.1 = 0 ∨ r.1 = -1 := by
        rintro r (rfl | rfl)
        · unfold add
          dsimp only
          split
          · split
            · exact .inr rfl
            · split
              · exact .inr rfl
              · exact .inl rfl
          · exact .inr rfl
        · exact .inr rfl
      have hone := hanswer (if wanted ≠ 0 ∧ wanted ≤ available then t.add slot.val start wanted type else (-1, t)) (by
        split
        · exact .inl rfl
        · exact .inr rfl)
      generalize (if wanted ≠ 0 ∧ wanted ≤ available then t.add slot.val start wanted type else (-1, t)) = r at hadd hone
      obtain ⟨n, t'⟩ := r
      dsimp only at hone ⊢
      rcases hone with rfl | rfl
      · rw [if_pos rfl]
        refine ⟨⟨hadd.sectors, hadd.others, fun _ => hadd.added (Int.le_refl 0), fun h => ?_⟩, fun _ => rfl⟩
        exact absurd h (Int.not_lt.2 (Int.natCast_nonneg _))
      · rw [if_neg (by decide)]
        split
        · exact ⟨hadd, fun h => absurd h not_nonneg⟩
        · exact ⟨hadd.after (ih t' stop).1, (ih t' stop).2⟩

theorem auto_planned (t : PartitionTable) (size type : UInt32) :
    ∃ i : Fin 4, t.Planned i (t.auto size type) ∧ (0 ≤ (t.auto size type).1 → (t.auto size type).1 = i.val) := by
  unfold auto
  cases (List.finRange 4).find? fun i => (t.entries i).type = 0 with
  | none => exact ⟨0, .unchanged t 0, fun h => absurd h not_nonneg⟩
  | some slot => exact ⟨slot, attempt_planned slot size type 5 t 2048⟩

end PartitionTable

/-! ## The boot record -/

/-- A table with the bytes of the boot record. -/
structure BootTable where
  sector : Sector
  table : PartitionTable

/-- Where entry `i` of a boot record begins. -/
def entryAt (i : Fin 4) : Nat := 446 + 16 * i.val

/-- Entry `i` of a boot record. -/
def readEntry (sector : Sector) (i : Fin 4) : Partition :=
  ⟨UInt32.ofNat (sector.get32 (entryAt i + 8)), UInt32.ofNat (sector.get32 (entryAt i + 12)), sector.get (entryAt i + 4),
    sector.get (entryAt i)⟩

/-- `partition_read` of the selected device: the result and the table. -/
def partitionRead : StateM Disks (Int × BootTable) := do
  let sectors := UInt32.ofNat (← get).selected.sectors
  let empty : PartitionTable := ⟨fun _ => default, sectors⟩
  if (← get).selected.offset ≠ 0 then return (-1, ⟨default, empty⟩)
  match ← diskRead 0 with
  | none => return (-1, ⟨default, empty⟩)
  | some sector =>
    if !signed sector then
      -- a raw filesystem is no unallocated space
      if let some super := ← diskRead 2 then
        if super.get 56 = 0x53 ∧ super.get 57 = 0xef then return (-1, ⟨sector, empty⟩)
      if (List.range 512).any fun k => sector.get k ≠ 0 then return (-1, ⟨sector, empty⟩)
      return (0, ⟨sector, empty⟩)
    let table : PartitionTable := ⟨readEntry sector, sectors⟩
    return (table.validate, ⟨sector, table⟩)

/-- The CHS bytes of an entry, for a disk that is too large for them. -/
def noCHS (sector : Sector) (p : Nat) : Sector :=
  ((((((sector.set (p + 1) 0xfe).set (p + 5) 0xfe).set (p + 2) 0xff).set (p + 3) 0xff).set (p + 6) 0xff).set (p + 7) 0xff)

def storeEntry (sector : Sector) (p : Nat) (a : Partition) : Sector :=
  (((sector.set p a.boot).set (p + 4) a.type).put32 (p + 8) a.start.toNat).put32 (p + 12) a.size.toNat

/-- Stores entry `i` of a table in the boot record. -/
def writeEntry (sector : Sector) (i : Fin 4) (a : Partition) : Sector :=
  let p := entryAt i
  if a.type = 0 then sector.fill p 16 0
  else
    let same := (readEntry sector i).type = a.type ∧ (readEntry sector i).start = a.start ∧ (readEntry sector i).size = a.size
    storeEntry (if same then sector else noCHS sector p) p a

/-- The boot record that `partition_write` stores. -/
def BootTable.encode (t : BootTable) : Sector :=
  (List.finRange 4).foldl (fun sector i => writeEntry sector i (t.table.entries i)) ((t.sector.set 510 0x55).set 511 0xaa)

/-- A flush command. -/
def flushDevice : StateM Disks Bool := modifyGet fun s => (!s.faults s.clock, { s with clock := s.clock + 1 })

def diskFlush : StateM Disks Bool := do
  if !(← diskPresent) then return false
  let id := (← get).selected.id
  if pciBase ≤ id || isUsb id || isAta id then flushDevice else return true

/-- `partition_write` to the selected device: the result, and the table with the new record. -/
def partitionWrite (t : BootTable) : StateM Disks (Int × BootTable) := do
  if t.table.validate ≠ 0 then return (-1, t)
  let t := { t with sector := t.encode }
  if !(← diskWrite 0 t.sector) then return (-1, t)
  if !(← diskFlush) then return (-1, t)
  match ← diskRead 0 with
  | none => return (-1, t)
  | some verify => return (if verify.same t.sector 0 512 then 0 else -1, t)

/-! ## The bytes of an entry -/

section
variable {sector : Sector} {i : Fin 4} {a : Partition}

/-- The bytes of entry `i`. -/
def InEntry (i : Fin 4) (k : Nat) : Prop := entryAt i ≤ k ∧ k < entryAt i + 16

theorem entryAt_le (i : Fin 4) : entryAt i + 16 ≤ 510 := by
  unfold entryAt
  omega

theorem get_noCHS_ne {p k : Nat} (h : k < p + 1 ∨ p + 8 ≤ k ∨ k = p + 4) : (noCHS sector p).get k = sector.get k := by
  unfold noCHS
  rw [Buf.get_set_ne _ _ (by omega), Buf.get_set_ne _ _ (by omega), Buf.get_set_ne _ _ (by omega), Buf.get_set_ne _ _ (by omega),
    Buf.get_set_ne _ _ (by omega), Buf.get_set_ne _ _ (by omega)]

/-- An entry is stored in its own bytes. -/
theorem get_writeEntry_ne {k : Nat} (h : ¬InEntry i k) : (writeEntry sector i a).get k = sector.get k := by
  unfold InEntry at h
  unfold writeEntry
  dsimp only
  split
  · rw [Buf.get_fill, if_neg (by omega)]
  · rw [storeEntry, Buf.get_put32_ne _ _ (by omega), Buf.get_put32_ne _ _ (by omega), Buf.get_set_ne _ _ (by omega),
      Buf.get_set_ne _ _ (by omega)]
    split
    · rfl
    · exact get_noCHS_ne (by omega)

theorem readEntry_fill (sector : Sector) (i : Fin 4) : readEntry (sector.fill (entryAt i) 16 0) i = default := by
  have hle := entryAt_le i
  have hzero : ∀ k, k < 16 → (sector.fill (entryAt i) 16 0).get (entryAt i + k) = 0 := by
    intro k hk
    rw [Buf.get_fill, if_pos (by omega)]
  have h32 : ∀ k, k + 3 < 16 → (sector.fill (entryAt i) 16 0).get32 (entryAt i + k) = 0 := by
    intro k hk
    simp only [Buf.get32, Buf.get16, Nat.add_assoc (entryAt i)]
    rw [hzero k (by omega), hzero (k + 1) (by omega), hzero (k + 2) (by omega), hzero (k + 2 + 1) (by omega)]
    rfl
  have h0 : (sector.fill (entryAt i) 16 0).get (entryAt i) = 0 := hzero 0 (by decide)
  rw [readEntry, h32 8 (by decide), h32 12 (by decide), hzero 4 (by decide), h0]
  rfl

theorem readEntry_store (sector : Sector) (i : Fin 4) (a : Partition) : readEntry (storeEntry sector (entryAt i) a) i = a := by
  have hle := entryAt_le i
  have hword : ∀ n : UInt32, UInt32.ofNat (n.toNat % 4294967296) = n := by
    intro n
    rw [Nat.mod_eq_of_lt n.toNat_lt, UInt32.ofNat_toNat]
  rw [readEntry, storeEntry, Buf.get32_put32_ne _ _ (by omega), Buf.get32_put32 _ _ _ (by omega), Buf.get32_put32 _ _ _ (by omega),
    Buf.get_put32_ne _ _ (by omega), Buf.get_put32_ne _ _ (by omega), Buf.get_put32_ne _ _ (by omega),
    Buf.get_put32_ne _ _ (by omega), Buf.get_set_same _ _ (by omega), Buf.get_set_ne _ _ (by omega),
    Buf.get_set_same _ _ (by omega), hword, hword]

/-- What is stored is read back. -/
theorem readEntry_writeEntry (sector : Sector) (i : Fin 4) (a : Partition) :
    readEntry (writeEntry sector i a) i = if a.type = 0 then default else a := by
  unfold writeEntry
  dsimp only
  split
  · exact readEntry_fill sector i
  · exact readEntry_store _ i a

/-- The CHS bytes of an entry that stays are kept. -/
theorem get_writeEntry_chs (hocc : a.type ≠ 0) (hsame : readEntry sector i = a) {k : Nat} (hk : InEntry i k) (hlow : k < entryAt i + 8) :
    (writeEntry sector i a).get k = sector.get k := by
  have hle := entryAt_le i
  unfold InEntry at hk
  subst hsame
  unfold writeEntry
  dsimp only
  rw [if_neg hocc, if_pos ⟨rfl, rfl, rfl⟩, storeEntry, Buf.get_put32_ne _ _ (by omega), Buf.get_put32_ne _ _ (by omega), Buf.get_set, Buf.get_set]
  split
  · rename_i h
    rw [h.1]
    rfl
  split
  · rename_i h
    rw [h.1]
    rfl
  · rfl

theorem readEntry_congr {s s' : Sector} (h : ∀ k, InEntry i k → s'.get k = s.get k) : readEntry s' i = readEntry s i := by
  have hget : ∀ k, k < 16 → s'.get (entryAt i + k) = s.get (entryAt i + k) := fun k hk => h _ ⟨Nat.le_add_right _ _, by omega⟩
  unfold readEntry
  have h32 : ∀ k, k + 3 < 16 → s'.get32 (entryAt i + k) = s.get32 (entryAt i + k) := by
    intro k hk
    refine Buf.get32_congr fun m hm => ?_
    rw [Nat.add_assoc]
    exact hget _ (by omega)
  rw [h32 8 (by decide), h32 12 (by decide), hget 4 (by decide), show s'.get (entryAt i) = s.get (entryAt i) from hget 0 (by decide)]

theorem writeEntry_congr {s s' : Sector} (h : ∀ k, InEntry i k → s'.get k = s.get k) {k : Nat} (hk : InEntry i k) :
    (writeEntry s' i a).get k = (writeEntry s i a).get k := by
  have hle := entryAt_le i
  unfold InEntry at hk
  unfold writeEntry
  rw [readEntry_congr h]
  dsimp only
  by_cases ht : a.type = 0
  · rw [if_pos ht, if_pos ht, Buf.get_fill, Buf.get_fill, if_pos (by omega), if_pos (by omega)]
  · rw [if_neg ht, if_neg ht]
    have hbase : ∀ (c : Prop) [Decidable c], (if c then s' else noCHS s' (entryAt i)).get k =
        (if c then s else noCHS s (entryAt i)).get k := by
      intro c _
      have hsk : s'.get k = s.get k := h k hk
      split
      · exact hsk
      · unfold noCHS
        simp only [Buf.get_set, hsk]
    simp only [storeEntry, Buf.put32, Buf.put16, Buf.get_set, hbase]

end

/-! ## The whole record -/

namespace BootTable

variable (t : BootTable)

theorem inEntry_unique {i j : Fin 4} {k : Nat} (hi : InEntry i k) (hj : InEntry j k) : i = j := by
  unfold InEntry entryAt at hi hj
  exact Fin.ext (by omega)

/-- Storing entries one after another leaves each in its own bytes. -/
theorem get_foldl (is : List (Fin 4)) (hnodup : is.Nodup) (base : Sector) (k : Nat) :
    (∀ i, i ∈ is → InEntry i k →
      (is.foldl (fun sector i => writeEntry sector i (t.table.entries i)) base).get k = (writeEntry base i (t.table.entries i)).get k) ∧
    ((∀ i ∈ is, ¬InEntry i k) →
      (is.foldl (fun sector i => writeEntry sector i (t.table.entries i)) base).get k = base.get k) := by
  induction is generalizing base with
  | nil => exact ⟨fun _ h => absurd h List.not_mem_nil, fun _ => rfl⟩
  | cons j is ih =>
    obtain ⟨hj, hrest⟩ := List.nodup_cons.1 hnodup
    obtain ⟨hin, hout⟩ := ih hrest (writeEntry base j (t.table.entries j))
    rw [List.foldl_cons]
    refine ⟨fun i hi hk => ?_, fun hk => ?_⟩
    · rcases List.mem_cons.1 hi with rfl | hi
      · exact hout fun m hm hmk => hj (inEntry_unique hk hmk ▸ hm)
      · rw [hin i hi hk]
        -- the bytes of entry `i` are still those of the record before
        refine writeEntry_congr (fun m hm => get_writeEntry_ne fun hjm => ?_) hk
        exact hj (inEntry_unique hm hjm ▸ hi)
    · rw [hout fun i hi => hk i (List.mem_cons_of_mem _ hi)]
      exact get_writeEntry_ne (hk j (List.mem_cons_self ..))

/-- The record before its entries are stored. -/
def base : Sector := (t.sector.set 510 0x55).set 511 0xaa

theorem get_base {k : Nat} (h : k < 510) : t.base.get k = t.sector.get k := by
  unfold base
  rw [Buf.get_set_ne _ _ (by omega), Buf.get_set_ne _ _ (by omega)]

theorem get_encode_entry {i : Fin 4} {k : Nat} (hk : InEntry i k) :
    t.encode.get k = (writeEntry t.base i (t.table.entries i)).get k :=
  (t.get_foldl (List.finRange 4) (List.nodup_finRange 4) t.base k).1 i (List.mem_finRange i) hk

theorem get_encode {k : Nat} (h : ∀ i, ¬InEntry i k) : t.encode.get k = t.base.get k :=
  (t.get_foldl (List.finRange 4) (List.nodup_finRange 4) t.base k).2 fun i _ => h i

theorem get_encode_low {k : Nat} (h : k < 446) : t.encode.get k = t.sector.get k := by
  rw [t.get_encode fun i hi => ?_, t.get_base (by omega)]
  unfold InEntry entryAt at hi
  omega

theorem signed_encode : signed t.encode = true := by
  have hout : ∀ k, 510 ≤ k → ∀ i, ¬InEntry i k := by
    intro k hk i hi
    have := entryAt_le i
    unfold InEntry at hi
    omega
  unfold signed
  rw [t.get_encode (hout 510 (Nat.le_refl _)), t.get_encode (hout 511 (by decide))]
  unfold base
  rw [Buf.get_set_ne _ _ (by decide), Buf.get_set_same _ _ (by decide), Buf.get_set_same _ _ (by decide)]
  rfl

theorem readEntry_encode (i : Fin 4) :
    readEntry t.encode i = if (t.table.entries i).type = 0 then default else t.table.entries i := by
  rw [← readEntry_writeEntry t.base i]
  exact readEntry_congr fun k hk => t.get_encode_entry hk

theorem get_encode_chs {i : Fin 4} (hocc : t.table.Occupied i) (hsame : readEntry t.sector i = t.table.entries i) {k : Nat}
    (hk : InEntry i k) (hlow : k < entryAt i + 8) : t.encode.get k = t.sector.get k := by
  have hbase : ∀ m, InEntry i m → t.base.get m = t.sector.get m := by
    intro m hm
    have := entryAt_le i
    unfold InEntry at hm
    exact t.get_base (by omega)
  rw [t.get_encode_entry hk, get_writeEntry_chs hocc ((readEntry_congr hbase).trans hsame) hk hlow, hbase k hk]

/-- The table that is read from the record is the one that was stored. -/
theorem valid_read (h : t.table.Valid) : (⟨readEntry t.encode, t.table.sectors⟩ : PartitionTable).Valid := by
  have hentry : ∀ i, readEntry t.encode i = t.table.entries i ∨
      ((t.table.entries i).type = 0 ∧ readEntry t.encode i = default) := by
    intro i
    rw [readEntry_encode]
    split
    · rename_i hi
      exact .inr ⟨hi, rfl⟩
    · exact .inl rfl
  have hocc : ∀ i, (readEntry t.encode i).type ≠ 0 → readEntry t.encode i = t.table.entries i := by
    intro i hi
    rcases hentry i with he | ⟨-, he⟩
    · exact he
    · exact absurd (congrArg Partition.type he) hi
  refine ⟨fun i => ?_, fun i j hji hi hj => ?_⟩
  · have hi := h.entry i
    rcases hentry i with he | ⟨-, he⟩
    · simp only [PartitionTable.EntryOk, he]
      exact hi
    · simp only [PartitionTable.EntryOk, he]
      exact ⟨rfl, rfl⟩
  · have hti : (t.table.entries i).type ≠ 0 := by
      rw [← hocc i hi]
      exact hi
    have htj : (t.table.entries j).type ≠ 0 := by
      rw [← hocc j hj]
      exact hj
    dsimp only
    rw [hocc i hi, hocc j hj]
    exact h.apart i j hji hti htj

end BootTable

/-! ## Writing and reading -/

/-- What the selected device holds in its first sector of the selection. -/
def FirstSector (s : Disks) (data : Sector) : Prop :=
  ∃ b d, bayOf s.selected.id = some b ∧ s.device b = some d ∧ data = d.sectors s.selected.offset

theorem FirstSector.unique {s : Disks} {a b : Sector} (ha : FirstSector s a) (hb : FirstSector s b) : a = b := by
  obtain ⟨bay, d, hbay, hd, rfl⟩ := ha
  obtain ⟨bay', d', hbay', hd', rfl⟩ := hb
  cases hbay.symm.trans hbay'
  cases hd.symm.trans hd'
  rfl

theorem FirstSector.of_eq {s t : Disks} {a : Sector} (hd : t.device = s.device) (hs : t.selected = s.selected) (h : FirstSector s a) : FirstSector t a := by
  unfold FirstSector at h ⊢
  rw [hd, hs]
  exact h

/-- A read of the first sector gives what the device holds there, and changes nothing. -/
theorem diskRead_first {s : Disks} (h : Inside s s.selected) : (exec (diskRead 0) s).2.device = s.device ∧
    (exec (diskRead 0) s).2.selected = s.selected ∧ ∀ data, (exec (diskRead 0) s).1 = some data → FirstSector s data := by
  have hq := (quiet.diskReadMany 0 1 s).selected
  have hstate : (exec (diskRead 0) s).2 = (exec (diskReadMany 0 1) s).2 := rfl
  have hvalue : (exec (diskRead 0) s).1 = (exec (diskReadMany 0 1) s).1.bind (·.head?) := rfl
  rw [hstate, hvalue]
  rcases diskReadMany_cases h 0 1 with ⟨hnone, hsilent⟩ | ⟨hle, b, hb, hr⟩
  · rw [hnone]
    exact ⟨hsilent.device, hq, fun data hdata => absurd hdata (Option.some_ne_none data).symm⟩
  · refine ⟨hr.device, hq, fun data hdata => ?_⟩
    obtain ⟨list, hlist, hhead⟩ := Option.bind_eq_some_iff.1 hdata
    obtain ⟨b', d, hb', hd, -⟩ := h.device 0 (by omega)
    cases hb.symm.trans hb'
    rw [hr.data list d hlist hd] at hhead
    exact ⟨b, d, hb, hd, (Option.some.inj hhead).symm⟩

theorem silent_diskFlush : Moves Silent diskFlush := by
  unfold diskFlush
  refine .bind silent_diskPresent fun ok => .ite (.pure _) (.bind .get fun s => .ite (fun t => ?_) (.pure _))
  unfold flushDevice
  rw [exec_modifyGet]
  exact ⟨rfl, rfl⟩

theorem quiet_diskFlush : Moves Quiet diskFlush := by
  unfold diskFlush
  refine .bind quiet.diskPresent fun ok => .ite (.pure _) (.bind .get fun s => .ite (fun t => ?_) (.pure _))
  unfold flushDevice
  rw [exec_modifyGet]
  exact ⟨rfl, rfl, rfl, rfl, rfl⟩

theorem Inside.of_eq {s t : Disks} (h : Inside s s.selected) (hd : t.device = s.device) (hs : t.selected = s.selected) :
    Inside t t.selected := by
  unfold Inside at h ⊢
  rw [hd, hs]
  exact h

/-- A successful write leaves its record in the first sector. -/
theorem partitionWrite_first {s : Disks} (h : Inside s s.selected) {t : BootTable} (hok : (exec (partitionWrite t) s).1.1 = 0) :
    FirstSector (exec (partitionWrite t) s).2 t.encode ∧
      Inside (exec (partitionWrite t) s).2 (exec (partitionWrite t) s).2.selected ∧
      (exec (partitionWrite t) s).2.selected = s.selected := by
  have hfailed : ¬(-1 : Int) = 0 := by decide
  unfold partitionWrite at hok ⊢
  by_cases hvalid : t.table.validate = 0
  · rw [if_neg (by simpa using hvalid), exec_bind] at hok ⊢
    have hk := keeps.diskWrite 0 t.encode s
    have hq := (quiet.diskWrite 0 t.encode s).selected
    dsimp only at hok ⊢
    generalize exec (diskWrite 0 t.encode) s = w at hok hk hq ⊢
    obtain ⟨done, s1⟩ := w
    have hin : Inside s1 s1.selected := by
      rw [hq]
      exact hk.inside h
    cases done with
    | false => exact absurd hok hfailed
    | true =>
      simp only [Bool.not_true, Bool.false_eq_true, if_false, exec_bind] at hok ⊢
      have hd2 := (silent_diskFlush s1).device
      have hs2 := (quiet_diskFlush s1).selected
      generalize exec diskFlush s1 = f at hok hd2 hs2 ⊢
      obtain ⟨flushed, s2⟩ := f
      have hin2 := hin.of_eq hd2 hs2
      cases flushed with
      | false => exact absurd hok hfailed
      | true =>
        simp only [Bool.not_true, Bool.false_eq_true, if_false, exec_bind] at hok ⊢
        obtain ⟨hd3, hs3, hfirst⟩ := diskRead_first hin2
        generalize exec (diskRead 0) s2 = r at hok hd3 hs3 hfirst ⊢
        obtain ⟨verify, s3⟩ := r
        cases verify with
        | none => exact absurd hok hfailed
        | some verify =>
          dsimp only [exec_pure] at hok ⊢
          by_cases hsame : verify.same t.encode 0 512 = true
          · have heq : verify = t.encode := Buf.same_all hsame
            refine ⟨?_, hin2.of_eq hd3 hs3, hs3.trans (hs2.trans hq)⟩
            rw [← heq]
            exact (hfirst verify rfl).of_eq hd3 hs3
          · rw [if_neg hsame] at hok
            exact absurd hok hfailed
  · rw [if_pos hvalid] at hok
    exact absurd hok hfailed

/-- What is read after `t` was written. -/
structure RoundTrip (t : BootTable) (r : Int × BootTable) : Prop where
  ok : r.1 = 0
  sectors : r.2.table.sectors = t.table.sectors
  occupied : ∀ i, t.table.Occupied i → r.2.table.entries i = t.table.entries i
  empty : ∀ i, ¬t.table.Occupied i → ¬r.2.table.Occupied i
  boot : ∀ k, k < 446 → r.2.sector.get k = t.sector.get k
  chs : ∀ i, t.table.Occupied i → readEntry t.sector i = t.table.entries i →
    ∀ k, InEntry i k → k < entryAt i + 8 → r.2.sector.get k = t.sector.get k

/-- Reading a device that holds the record of `t`. -/
theorem partitionRead_round {s : Disks} (h : Inside s s.selected) {t : BootTable} (hvalid : t.table.validate = 0)
    (hwhole : s.selected.offset = 0) (hsectors : t.table.sectors.toNat = s.selected.sectors) (hfirst : FirstSector s t.encode)
    (hread : (exec (diskRead 0) s).1.isSome) : RoundTrip t (exec partitionRead s).1 := by
  obtain ⟨data, hdata⟩ := Option.isSome_iff_exists.1 hread
  have heq : data = t.encode := ((diskRead_first h).2.2 data hdata).unique hfirst
  have hcount : UInt32.ofNat s.selected.sectors = t.table.sectors := by
    rw [← hsectors, UInt32.ofNat_toNat]
  have hresult : (exec partitionRead s).1 =
      ((⟨readEntry t.encode, t.table.sectors⟩ : PartitionTable).validate, ⟨t.encode, ⟨readEntry t.encode, t.table.sectors⟩⟩) := by
    unfold partitionRead
    simp only [exec_bind, exec_get, hwhole, ne_eq, not_true_eq_false, if_false, hdata, heq, t.signed_encode, Bool.not_true,
      Bool.false_eq_true, exec_pure, hcount]
  rw [hresult]
  have hv := (PartitionTable.validate_iff _).1 hvalid
  refine ⟨(PartitionTable.validate_iff _).2 (t.valid_read hv), rfl, fun i hi => ?_, fun i hi ho => ho ?_, fun k hk => t.get_encode_low hk,
    fun i hi hsame k hk hlow => t.get_encode_chs hi hsame hk hlow⟩
  · exact (t.readEntry_encode i).trans (if_neg hi)
  · show (readEntry t.encode i).type = 0
    rw [t.readEntry_encode i, if_pos (not_not.1 hi)]
    rfl

/-- Adding to a valid table makes one valid entry more or leaves the table as it was, and a
valid table that was written to the selected whole device is the one that is read there. -/
theorem partition_tables :
    (∀ t : PartitionTable, t.validate = 0 →
      (∀ (slot : Fin 4) (start size type : UInt32), t.Planned slot (t.add slot.val start size type)) ∧
      (∀ (slot : Int) (start size type : UInt32), ¬(0 ≤ slot ∧ slot ≤ 3) → t.add slot start size type = (-1, t)) ∧
      ∀ size type : UInt32, ∃ i : Fin 4, t.Planned i (t.auto size type) ∧ (0 ≤ (t.auto size type).1 → (t.auto size type).1 = i.val)) ∧
    ∀ s, Fresh s → ∀ (calls : List Call) (t : BootTable), t.table.validate = 0 → (runCalls s calls).disks.selected.offset = 0 →
      t.table.sectors.toNat = (runCalls s calls).disks.selected.sectors →
      (exec (partitionWrite t) (runCalls s calls).disks).1.1 = 0 →
      (exec (diskRead 0) (exec (partitionWrite t) (runCalls s calls).disks).2).1.isSome →
      RoundTrip t (exec partitionRead (exec (partitionWrite t) (runCalls s calls).disks).2).1 := by
  refine ⟨fun t _ => ⟨t.add_planned, fun slot start size type h => t.add_outside h start size type, t.auto_planned⟩,
    fun s h calls t hvalid hwhole hsectors hok hread => ?_⟩
  obtain ⟨hfirst, hin, hsame⟩ := partitionWrite_first (sound_runCalls h calls).selected.inside hok
  exact partitionRead_round hin hvalid (by rw [hsame]; exact hwhole) (by rw [hsame]; exact hsectors) hfirst hread

def oneEntry : BootTable := ⟨default, ⟨fun i => if i = 1 then ⟨2048, 1024, 0x83, 0⟩ else default, 4096⟩⟩

theorem partition_tables_ram : RoundTrip oneEntry (exec partitionRead
    (exec (partitionWrite oneEntry) (runCalls bare [.initFromMemory fun _ => default]).disks).2).1 :=
  partition_tables.2 bare fresh_bare [.initFromMemory fun _ => default] oneEntry (by decide +kernel) (by decide +kernel)
    (by decide +kernel) (by decide +kernel) (by decide +kernel)

end Barnix.Disk
