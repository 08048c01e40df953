import Barnix.Lib.Bytes
import Barnix.Lib.FirstFit
import Mathlib.Data.Fin.VecNotation
import Mathlib.Logic.Function.Basic
/-!
# Partition tables

The checks of a partition table, and the search for a place for a new partition
(`partition.c`).
-/

namespace Barnix.Disk

structure Partition where
  start : UInt32
  size : UInt32
  type : UInt8
  boot : UInt8
deriving DecidableEq, Inhabited

/-- The entries and the sectors of the disk; the bytes of the boot record are not part of the search. -/
structure PartitionTable where
  entries : Fin 4 → Partition
  sectors : UInt32

namespace PartitionTable

/-- `partition_validate` refuses entry `i`, for what it is or for an entry before it. -/
def refuses (t : PartitionTable) (i : Fin 4) : Bool :=
  let a := t.entries i
  if a.type = 0 then a.start ≠ 0 || a.size ≠ 0
  else
    a.type == 0xee || a.type == 5 || a.type == 0x0f || a.type == 0x85 ||
    a.start == 0 || a.size == 0 || decide (t.sectors ≤ a.start) || decide (t.sectors - a.start < a.size) ||
    (List.finRange 4).any fun j =>
      let b := t.entries j
      decide (j < i) && b.type != 0 && decide (a.start < b.start + b.size) && decide (b.start < a.start + a.size)

/-- `partition_validate` -/
def validate (t : PartitionTable) : Int := if (List.finRange 4).any t.refuses then -1 else 0

def setEntry (t : PartitionTable) (i : Fin 4) (p : Partition) : PartitionTable :=
  { t with entries := Function.update t.entries i p }

/-- `partition_add` -/
def add (t : PartitionTable) (slot : Int) (start size type : UInt32) : Int × PartitionTable :=
  if h : 0 ≤ slot ∧ slot ≤ 3 then
    let i : Fin 4 := ⟨slot.toNat, by omega⟩
    if (t.entries i).type ≠ 0 ∨ (type ≠ 0x83 ∧ type ≠ 0xef) ∨ start < 2048 ∨ start % 2048 ≠ 0 ∨ size = 0 then (-1, t)
    else
      let t := t.setEntry i ⟨start, size, type.toUInt8, 0⟩
      if t.validate ≠ 0 then (-1, t.setEntry i ⟨0, 0, 0, 0⟩) else (0, t)
  else (-1, t)

/-- One round of the inner loop of `partition_auto`, for `end` and `next`. -/
def look (start : UInt32) (found : UInt32 × UInt32) (p : Partition) : UInt32 × UInt32 :=
  if p.type = 0 then found
  else if p.start ≤ start ∧ start < p.start + p.size then (found.1, p.start + p.size)
  else if start < p.start ∧ p.start < found.1 then (p.start, found.2)
  else found

/-- The inner loop: the end of the gap at `start`, or where the partition around it ends. -/
def survey (t : PartitionTable) (start : UInt32) : UInt32 × UInt32 :=
  (List.finRange 4).foldl (fun found i => look start found (t.entries i)) (t.sectors, start)

/-- The outer loop of `partition_auto`, for so many attempts. -/
def attempt (slot : Fin 4) (size type : UInt32) : Nat → PartitionTable → UInt32 → Int × PartitionTable
  | 0, t, _ => (-1, t)
  | n + 1, t, start =>
    let stop := (t.survey start).1
    let next := (t.survey start).2
    if next ≠ start then
      if 0xfffff800 < next then (-1, t) else attempt slot size type n t ((next + 2047) &&& ~~~2047)
    else
      let available := if start < stop then stop - start else 0
      let wanted := if size ≠ 0 then size else available
      let added := if wanted ≠ 0 ∧ wanted ≤ available then t.add slot.val start wanted type else (-1, t)
      if added.1 = 0 then (slot.val, added.2)
      else if stop = added.2.sectors ∨ 0xfffff800 < stop then (-1, added.2)
      else attempt slot size type n added.2 stop

/-- `partition_auto` -/
def auto (t : PartitionTable) (size type : UInt32) : Int × PartitionTable :=
  match (List.finRange 4).find? fun i => (t.entries i).type = 0 with
  | none => (-1, t)
  | some slot => attempt slot size type 5 t 2048

end PartitionTable

/-! ## Tables that are accepted -/

/-- The sectors of a partition, as numbers without a bound. -/
def Partition.block (p : Partition) : Block := ⟨p.start.toNat, p.start.toNat + p.size.toNat⟩

namespace PartitionTable

variable {t : PartitionTable}

def Occupied (t : PartitionTable) (i : Fin 4) : Prop := (t.entries i).type ≠ 0

instance (t : PartitionTable) (i : Fin 4) : Decidable (t.Occupied i) := inferInstanceAs (Decidable (_ ≠ _))

/-- An entry that is empty, or a supported partition inside of the disk. -/
def EntryOk (t : PartitionTable) (i : Fin 4) : Prop :=
  if (t.entries i).type = 0 then (t.entries i).start = 0 ∧ (t.entries i).size = 0
  else (t.entries i).type ∉ ([0xee, 5, 0x0f, 0x85] : List UInt8) ∧ 0 < (t.entries i).start.toNat ∧ 0 < (t.entries i).size.toNat ∧
    (t.entries i).block.stop ≤ t.sectors.toNat

/-- What `partition_validate` accepts. -/
structure Valid (t : PartitionTable) : Prop where
  entry : ∀ i, t.EntryOk i
  apart : ∀ i j, j < i → t.Occupied i → t.Occupied j → (t.entries i).block.Apart (t.entries j).block

theorem Valid.inside (h : t.Valid) {i : Fin 4} (hi : t.Occupied i) :
    0 < (t.entries i).start.toNat ∧ 0 < (t.entries i).size.toNat ∧ (t.entries i).block.stop ≤ t.sectors.toNat := by
  have := h.entry i
  rw [EntryOk, if_neg hi] at this
  exact this.2

theorem Valid.stop_le (h : t.Valid) (i : Fin 4) : (t.entries i).block.stop ≤ t.sectors.toNat := by
  by_cases hi : (t.entries i).type = 0
  · have := h.entry i
    rw [EntryOk, if_pos hi] at this
    simp [Partition.block, this]
  · exact (h.inside hi).2.2

theorem Valid.apart_of_ne (h : t.Valid) {i j : Fin 4} (hij : i ≠ j) (hi : t.Occupied i) (hj : t.Occupied j) :
    (t.entries i).block.Apart (t.entries j).block := by
  rcases Fin.lt_or_lt_of_ne hij with hlt | hlt
  · exact (h.apart j i hlt hj hi).symm
  · exact h.apart i j hlt hi hj

/-- The end of a partition inside of the disk, computed in 32 bits. -/
theorem stop_toNat {p : Partition} {sectors : UInt32} (h : p.block.stop ≤ sectors.toNat) :
    (p.start + p.size).toNat = p.block.stop := by
  have := sectors.toNat_lt
  rw [UInt32.toNat_add]
  exact Nat.mod_eq_of_lt (by unfold Partition.block at h; dsimp only at h; omega)

theorem refuses_iff (t : PartitionTable) (i : Fin 4) : t.refuses i = false ↔
    t.EntryOk i ∧ (t.Occupied i → ∀ j, j < i → t.Occupied j →
      ¬ ((t.entries i).start < (t.entries j).start + (t.entries j).size ∧
        (t.entries j).start < (t.entries i).start + (t.entries i).size)) := by
  unfold refuses EntryOk Occupied
  by_cases h : (t.entries i).type = 0
  · simp [h]
  · have hpos : ∀ n : UInt32, n = 0 ↔ ¬ 0 < n.toNat := by
      intro n
      rw [← UInt32.toNat_inj]
      simp
    have hinside : ((t.entries i).start < t.sectors ∧ (t.entries i).size ≤ t.sectors - (t.entries i).start) ↔
        ((t.entries i).start < t.sectors ∧ (t.entries i).block.stop ≤ t.sectors.toNat) := by
      refine and_congr_right fun hs => ?_
      rw [UInt32.lt_iff_toNat_lt] at hs
      rw [UInt32.le_iff_toNat_le, UInt32.toNat_sub_of_le _ _ (UInt32.le_iff_toNat_le.2 (by omega)), Partition.block]
      dsimp only
      omega
    simp only [if_neg h, Bool.or_eq_false_iff, beq_eq_false_iff_ne, decide_eq_false_iff_not, List.any_eq_false,
      List.mem_finRange, true_implies]
    constructor
    · rintro ⟨⟨⟨⟨⟨⟨⟨⟨h1, h2⟩, h3⟩, h4⟩, hstart⟩, hsize⟩, hlt⟩, hle⟩, hall⟩
      have hstop := (hinside.1 ⟨UInt32.not_le.1 hlt, UInt32.not_lt.1 hle⟩).2
      rw [Ne, hpos, not_not] at hstart hsize
      exact ⟨⟨by simp [h1, h2, h3, h4], hstart, hsize, hstop⟩, fun _ j hj ho => by simpa [hj, ho] using hall j⟩
    · rintro ⟨⟨htype, hstart, hsize, hstop⟩, hall⟩
      have hlt : (t.entries i).start < t.sectors := by
        rw [UInt32.lt_iff_toNat_lt]
        unfold Partition.block at hstop
        dsimp only at hstop
        omega
      have hle := (hinside.2 ⟨hlt, hstop⟩).2
      simp only [List.mem_cons, List.not_mem_nil, or_false, not_or] at htype
      refine ⟨⟨⟨⟨⟨⟨⟨⟨htype.1, htype.2.1⟩, htype.2.2.1⟩, htype.2.2.2⟩, ?_⟩, ?_⟩, UInt32.not_le.2 hlt⟩, UInt32.not_lt.2 hle⟩, ?_⟩
      · rwa [Ne, hpos, not_not]
      · rwa [Ne, hpos, not_not]
      · intro j
        have := hall h j
        simp only [Bool.and_eq_true, decide_eq_true_eq, bne_iff_ne, and_assoc]
        exact fun ⟨hj, ho, hl⟩ => this hj ho hl

/-- The comparison of two partitions inside of the disk, in 32 bits. -/
theorem apart_iff {p q : Partition} {sectors : UInt32} (hp : p.block.stop ≤ sectors.toNat) (hq : q.block.stop ≤ sectors.toNat) :
    p.block.Apart q.block ↔ ¬ (p.start < q.start + q.size ∧ q.start < p.start + p.size) := by
  rw [UInt32.lt_iff_toNat_lt, UInt32.lt_iff_toNat_lt, stop_toNat hp, stop_toNat hq, Block.Apart]
  change p.block.stop ≤ q.start.toNat ∨ q.block.stop ≤ p.start.toNat ↔ _
  omega

theorem validate_iff (t : PartitionTable) : t.validate = 0 ↔ t.Valid := by
  have hall : t.validate = 0 ↔ ∀ i, t.refuses i = false := by
    unfold validate
    split
    · rename_i h
      obtain ⟨i, -, hi⟩ := List.any_eq_true.1 h
      exact ⟨nofun, fun hn => by rw [hn i] at hi; cases hi⟩
    · rename_i h
      refine ⟨fun _ i => ?_, fun _ => rfl⟩
      rw [Bool.not_eq_true, List.any_eq_false] at h
      exact Bool.eq_false_iff.2 (h i (List.mem_finRange i))
  rw [hall]
  constructor
  · intro h
    have hentry : ∀ i, t.EntryOk i := fun i => ((refuses_iff t i).1 (h i)).1
    have hstop : ∀ i, t.Occupied i → (t.entries i).block.stop ≤ t.sectors.toNat := by
      intro i hi
      have := hentry i
      rw [EntryOk, if_neg hi] at this
      exact this.2.2.2
    exact ⟨hentry, fun i j hji hi hj => (apart_iff (hstop i hi) (hstop j hj)).2 (((refuses_iff t i).1 (h i)).2 hi j hji hj)⟩
  · intro h i
    refine (refuses_iff t i).2 ⟨h.entry i, fun hi j hji hj => ?_⟩
    exact (apart_iff (h.inside hi).2.2 (h.inside hj).2.2).1 (h.apart i j hji hi hj)

/-- A partition in free space at a multiple of 2048 is added. -/
theorem add_free (h : t.Valid) {i : Fin 4} (hi : (t.entries i).type = 0) {start size : UInt32} (hstart : 2048 ≤ start.toNat)
    (haligned : start.toNat % 2048 = 0) (hsize : size ≠ 0) (hinside : start.toNat + size.toNat ≤ t.sectors.toNat)
    (hfree : ∀ j, t.Occupied j → (t.entries j).block.Apart ⟨start.toNat, start.toNat + size.toNat⟩) :
    t.add i.val start size 0x83 = (0, t.setEntry i ⟨start, size, 0x83, 0⟩) := by
  have hpos : 0 < size.toNat := by
    rw [Nat.pos_iff_ne_zero]
    exact fun h => hsize (UInt32.toNat_inj.1 h)
  have hself : (t.setEntry i ⟨start, size, 0x83, 0⟩).entries i = ⟨start, size, 0x83, 0⟩ := Function.update_self ..
  have hother : ∀ j, j ≠ i → (t.setEntry i ⟨start, size, 0x83, 0⟩).entries j = t.entries j :=
    fun j hj => Function.update_of_ne hj ..
  have hvalid : (t.setEntry i ⟨start, size, 0x83, 0⟩).Valid := by
    refine ⟨fun j => ?_, fun j k hkj hj hk => ?_⟩
    · by_cases hji : j = i
      · subst hji
        rw [EntryOk, hself]
        dsimp only
        rw [if_neg (by decide)]
        exact ⟨by decide, by omega, hpos, hinside⟩
      · rw [EntryOk, hother j hji]
        exact h.entry j
    · unfold Occupied at hj hk
      by_cases hji : j = i
      · subst hji
        rw [hother k (Fin.ne_of_lt hkj)] at hk ⊢
        rw [hself]
        exact (hfree k hk).symm
      · rw [hother j hji] at hj ⊢
        by_cases hki : k = i
        · subst hki
          rw [hself]
          exact hfree j hj
        · rw [hother k hki] at hk ⊢
          exact h.apart j k hkj hj hk
  have hlow : ¬ start < 2048 := by
    rw [UInt32.lt_iff_toNat_lt]
    simpa using hstart
  have hmod : start % 2048 = 0 := by
    rw [← UInt32.toNat_inj, UInt32.toNat_mod]
    simpa using haligned
  have hindex : 0 ≤ (i.val : Int) ∧ (i.val : Int) ≤ 3 := by
    have := i.isLt
    omega
  have hfin : (⟨(i.val : Int).toNat, by omega⟩ : Fin 4) = i := Fin.ext (Int.toNat_natCast _)
  rw [add, dif_pos hindex]
  dsimp only
  rw [hfin, if_neg (by simp [hi, hlow, hmod, hsize]), if_neg (by rw [not_not]; exact (validate_iff _).2 hvalid)]
  rfl

/-! ## The inner loop -/

/-- A partition around `start`. -/
def Around (p : Partition) (start : Nat) : Prop := p.block.start ≤ start ∧ start < p.block.stop

theorem look_around {p : Partition} (hp : p.type ≠ 0) {sectors : UInt32} (hstop : p.block.stop ≤ sectors.toNat) {start : UInt32}
    (h : Around p start.toNat) (found : UInt32 × UInt32) : look start found p = (found.1, p.start + p.size) := by
  rw [look, if_neg hp, if_pos]
  rw [UInt32.le_iff_toNat_le, UInt32.lt_iff_toNat_lt, stop_toNat hstop]
  exact h

theorem look_beside {p : Partition} {sectors : UInt32} (hstop : p.block.stop ≤ sectors.toNat) {start : UInt32}
    (h : ¬ Around p start.toNat) (found : UInt32 × UInt32) :
    look start found p = if p.type ≠ 0 ∧ start < p.start ∧ p.start < found.1 then (p.start, found.2) else found := by
  rw [look]
  by_cases hp : p.type = 0
  · rw [if_pos hp, if_neg (by simp [hp])]
  · rw [if_neg hp, if_neg, if_congr (and_iff_right hp).symm rfl rfl]
    rw [UInt32.le_iff_toNat_le, UInt32.lt_iff_toNat_lt, stop_toNat hstop]
    exact h

/-- At most one partition is around a sector. -/
theorem Valid.around_unique (h : t.Valid) {i j : Fin 4} (hi : t.Occupied i) (hj : t.Occupied j) {start : Nat}
    (hri : Around (t.entries i) start) (hrj : Around (t.entries j) start) : j = i := by
  by_contra hne
  rcases h.apart_of_ne hne hj hi with ha | ha
  · exact absurd hri.1 (by have := hrj.2; omega)
  · exact absurd hrj.1 (by have := hri.2; omega)

theorem survey_around (h : t.Valid) {i : Fin 4} (hi : t.Occupied i) {start : UInt32} (hr : Around (t.entries i) start.toNat) :
    (t.survey start).2.toNat = (t.entries i).block.stop := by
  have hfold : ∀ (l : List (Fin 4)) (found : UInt32 × UInt32),
      (l.foldl (fun found i => look start found (t.entries i)) found).2 =
        if i ∈ l then (t.entries i).start + (t.entries i).size else found.2 := by
    intro l
    induction l with
    | nil => exact fun found => rfl
    | cons j l ih =>
      intro found
      rw [List.foldl_cons, ih]
      by_cases hji : j = i
      · subst hji
        rw [look_around hi (h.stop_le j) hr, if_pos (List.mem_cons_self ..), ite_self]
      · have hmem : i ∈ j :: l ↔ i ∈ l := by simp [Ne.symm hji]
        have hkeep : (look start found (t.entries j)).2 = found.2 := by
          by_cases hj : (t.entries j).type = 0
          · rw [look, if_pos hj]
          · rw [look_beside (h.stop_le j) (fun hrj => hji (h.around_unique hi hj hr hrj))]
            split
            · rfl
            · rfl
        rw [hkeep, if_congr hmem rfl rfl]
  rw [survey, hfold, if_pos (List.mem_finRange i)]
  exact stop_toNat (h.stop_le i)

/-- In a gap, `next` stays, and `end` becomes the first start behind. -/
theorem survey_gap (h : t.Valid) {start : UInt32} (hgap : ∀ i, t.Occupied i → ¬ Around (t.entries i) start.toNat) :
    (t.survey start).2 = start ∧
    (∀ i, t.Occupied i → start < (t.entries i).start → (t.survey start).1 ≤ (t.entries i).start) ∧
    ((t.survey start).1 = t.sectors ∨ ∃ i, t.Occupied i ∧ start < (t.entries i).start ∧ (t.survey start).1 = (t.entries i).start) := by
  have hfold : ∀ (l : List (Fin 4)) (found : UInt32 × UInt32),
      let r := l.foldl (fun found i => look start found (t.entries i)) found
      r.2 = found.2 ∧ r.1 ≤ found.1 ∧ (∀ i ∈ l, t.Occupied i → start < (t.entries i).start → r.1 ≤ (t.entries i).start) ∧
        (r.1 = found.1 ∨ ∃ i, t.Occupied i ∧ start < (t.entries i).start ∧ r.1 = (t.entries i).start) := by
    intro l
    induction l with
    | nil => exact fun found => ⟨rfl, UInt32.le_refl _, nofun, .inl rfl⟩
    | cons j l ih =>
      intro found
      obtain ⟨hnext, hle, hall, hfrom⟩ := ih (look start found (t.entries j))
      dsimp only
      rw [List.foldl_cons]
      have hlook : look start found (t.entries j) =
          if (t.entries j).type ≠ 0 ∧ start < (t.entries j).start ∧ (t.entries j).start < found.1 then
            ((t.entries j).start, found.2) else found := by
        by_cases hj : (t.entries j).type = 0
        · rw [look, if_pos hj, if_neg (by simp [hj])]
        · exact look_beside (h.stop_le j) (hgap j hj) found
      by_cases hc : (t.entries j).type ≠ 0 ∧ start < (t.entries j).start ∧ (t.entries j).start < found.1
      · rw [if_pos hc] at hlook
        rw [hlook] at hnext hle hall hfrom ⊢
        refine ⟨hnext, UInt32.le_trans hle (UInt32.le_of_lt hc.2.2), fun i hi ho hs => ?_, ?_⟩
        · rcases List.mem_cons.1 hi with rfl | hi
          · exact hle
          · exact hall i hi ho hs
        · rcases hfrom with hfrom | hfrom
          · exact .inr ⟨j, hc.1, hc.2.1, hfrom⟩
          · exact .inr hfrom
      · rw [if_neg hc] at hlook
        rw [hlook] at hnext hle hall hfrom ⊢
        refine ⟨hnext, hle, fun i hi ho hs => ?_, hfrom⟩
        rcases List.mem_cons.1 hi with rfl | hi
        · exact UInt32.le_trans hle (UInt32.not_lt.1 fun hlt => hc ⟨ho, hs, hlt⟩)
        · exact hall i hi ho hs
  obtain ⟨hnext, -, hall, hfrom⟩ := hfold (List.finRange 4) (t.sectors, start)
  exact ⟨hnext, fun i ho hs => hall i (List.mem_finRange i) ho hs, hfrom⟩

/-! ## The outer loop -/

/-- Rounding up to 2048 sectors. -/
def roundUp (n : Nat) : Nat := (n + 2047) / 2048 * 2048

theorem roundsUp : RoundsUp roundUp fun n => n % 2048 = 0 where
  aligned_up n := Nat.mul_mod_left ..
  le_up n := by
    unfold roundUp
    omega
  up_le hm hn := by
    unfold roundUp
    omega

theorem mask_toNat (n : UInt32) : (n &&& ~~~2047).toNat = n.toNat / 2048 * 2048 := by
  rw [UInt32.toNat_and]
  exact and_high_mask (k := 11) (w := 32) (by decide) n.toNat_lt

/-- `(next + 2047) & ~2047U` where it does not wrap. -/
theorem roundUp_toNat {next : UInt32} (h : next ≤ 0xfffff800) : ((next + 2047) &&& ~~~2047).toNat = roundUp next.toNat := by
  rw [UInt32.le_iff_toNat_le] at h
  rw [mask_toNat, UInt32.toNat_add, Nat.mod_eq_of_lt, roundUp]
  · rfl
  · exact Nat.lt_of_le_of_lt (Nat.add_le_add_right h _) (by decide)

theorem attempt_around (h : t.Valid) {i : Fin 4} (hi : t.Occupied i) {start : UInt32} (hr : Around (t.entries i) start.toNat)
    (slot : Fin 4) (size type : UInt32) (n : Nat) : attempt slot size type (n + 1) t start =
      if 0xfffff800 < (t.entries i).start + (t.entries i).size then (-1, t)
      else attempt slot size type n t (((t.entries i).start + (t.entries i).size + 2047) &&& ~~~2047) := by
  have hnext : (t.survey start).2 = (t.entries i).start + (t.entries i).size := by
    rw [← UInt32.toNat_inj, survey_around h hi hr, stop_toNat (h.stop_le i)]
  have hmoves : (t.survey start).2 ≠ start := by
    intro he
    have := hr.2
    rw [← survey_around h hi hr, he] at this
    exact Nat.lt_irrefl _ this
  rw [attempt, if_pos hmoves, hnext]

theorem attempt_gap (h : t.Valid) {slot : Fin 4} (hslot : (t.entries slot).type = 0) {start size : UInt32} (hsize : size ≠ 0)
    (hlow : 2048 ≤ start.toNat) (haligned : start.toNat % 2048 = 0)
    (hgap : ∀ i, t.Occupied i → ¬ Around (t.entries i) start.toNat) (n : Nat) : attempt slot size 0x83 (n + 1) t start =
      if start.toNat + size.toNat ≤ (t.survey start).1.toNat then ((slot.val : Int), t.setEntry slot ⟨start, size, 0x83, 0⟩)
      else if (t.survey start).1 = t.sectors ∨ 0xfffff800 < (t.survey start).1 then (-1, t)
      else attempt slot size 0x83 n t (t.survey start).1 := by
  obtain ⟨hnext, hfirst, hfrom⟩ := survey_gap h hgap
  have hpos : 0 < size.toNat := by
    rw [Nat.pos_iff_ne_zero]
    exact fun h => hsize (UInt32.toNat_inj.1 h)
  rw [attempt, if_neg (by rw [not_not]; exact hnext)]
  dsimp only
  rw [if_pos hsize]
  by_cases hfit : start.toNat + size.toNat ≤ (t.survey start).1.toNat
  · have hlt : start < (t.survey start).1 := by
      rw [UInt32.lt_iff_toNat_lt]
      omega
    have hroom : size ≤ (t.survey start).1 - start := by
      rw [UInt32.le_iff_toNat_le, UInt32.toNat_sub_of_le _ _ (UInt32.le_of_lt hlt)]
      omega
    have hstop : (t.survey start).1.toNat ≤ t.sectors.toNat := by
      rcases hfrom with hfrom | ⟨i, hi, -, hfrom⟩
      · rw [hfrom]
      · rw [hfrom]
        exact Nat.le_trans (Nat.le_add_right _ _) (h.stop_le i)
    have hadd := add_free h hslot hlow haligned hsize (Nat.le_trans hfit hstop) fun j hj => by
      by_cases hbehind : start < (t.entries j).start
      · exact .inr (Nat.le_trans hfit (UInt32.le_iff_toNat_le.1 (hfirst j hj hbehind)))
      · refine .inl (Nat.not_lt.1 fun hlt' => hgap j hj ⟨?_, hlt'⟩)
        rw [UInt32.lt_iff_toNat_lt] at hbehind
        exact Nat.not_lt.1 hbehind
    rw [if_pos hlt, if_pos (show size ≠ 0 ∧ size ≤ (t.survey start).1 - start from ⟨hsize, hroom⟩), hadd]
    dsimp only
    rw [if_pos rfl, if_pos hfit]
  · have htight : ¬ (size ≠ 0 ∧ size ≤ if start < (t.survey start).1 then (t.survey start).1 - start else 0) := by
      rintro ⟨-, hle⟩
      rw [UInt32.le_iff_toNat_le] at hle
      split at hle
      · rename_i hlt
        rw [UInt32.toNat_sub_of_le _ _ (UInt32.le_of_lt hlt)] at hle
        rw [UInt32.lt_iff_toNat_lt] at hlt
        omega
      · rw [UInt32.toNat_zero] at hle
        omega
    rw [if_neg htight]
    dsimp only
    rw [if_neg (by decide), if_neg hfit]

/-- The partitions in the order of their starts. -/
def blocks (t : PartitionTable) : List Block :=
  (((List.finRange 4).filter fun i => (t.entries i).type ≠ 0).map fun i => (t.entries i).block).mergeSort
    fun a b => a.start ≤ b.start

theorem mem_blocks {b : Block} : b ∈ t.blocks ↔ ∃ i, t.Occupied i ∧ (t.entries i).block = b := by
  simp [blocks, Occupied]

theorem Valid.ordered (h : t.Valid) : Block.Ordered t.sectors.toNat t.blocks := by
  refine ⟨fun b hb => ?_, ?_⟩
  · obtain ⟨i, hi, rfl⟩ := mem_blocks.1 hb
    exact ⟨Nat.lt_add_of_pos_right (h.inside hi).2.1, h.stop_le i⟩
  · have hsorted : t.blocks.Pairwise fun a b => a.start ≤ b.start := by
      have := List.pairwise_mergeSort
        (fun (a b c : Block) (hab : decide (a.start ≤ b.start) = true) (hbc : decide (b.start ≤ c.start) = true) => decide_eq_true (Nat.le_trans (of_decide_eq_true hab) (of_decide_eq_true hbc)))
        (fun a b => by simpa using Nat.le_total a.start b.start)
        (((List.finRange 4).filter fun i => (t.entries i).type ≠ 0).map fun i => (t.entries i).block)
      exact this.imp of_decide_eq_true
    have hapart : t.blocks.Pairwise Block.Apart := by
      refine ((List.mergeSort_perm _ _).pairwise_iff fun {a b} h => h.symm).2 ?_
      rw [List.pairwise_map, List.pairwise_filter]
      refine (List.nodup_finRange 4).imp fun {i j} hij hi hj => ?_
      exact h.apart_of_ne hij (by simpa [Occupied] using hi) (by simpa [Occupied] using hj)
    refine (hsorted.and hapart).imp_of_mem fun {a b} ha hb ⟨hle, hab⟩ => ?_
    obtain ⟨i, hi, rfl⟩ := mem_blocks.1 ha
    obtain ⟨j, hj, rfl⟩ := mem_blocks.1 hb
    have := (h.inside hj).2.1
    rcases hab with hab | hab
    · exact hab
    · change (t.entries j).start.toNat + (t.entries j).size.toNat ≤ (t.entries i).start.toNat at hab
      change (t.entries i).start.toNat ≤ (t.entries j).start.toNat at hle
      omega

/-- An empty entry leaves three. -/
theorem length_blocks {slot : Fin 4} (hslot : (t.entries slot).type = 0) : t.blocks.length ≤ 3 := by
  rw [blocks, List.length_mergeSort, List.length_map]
  have hlt : ((List.finRange 4).filter fun i => (t.entries i).type ≠ 0).length < (List.finRange 4).length :=
    List.length_filter_lt_length_iff_exists.2 ⟨slot, List.mem_finRange slot, by simp [hslot]⟩
  rw [List.length_finRange] at hlt
  omega

/-- The code finds a place exactly when the search over the blocks that are left does, within the
attempts that are left. -/
theorem attempt_iff (h : t.Valid) {slot : Fin 4} (hslot : (t.entries slot).type = 0) {size : UInt32} (hsize : size ≠ 0)
    {rest : List Block} (hrest : Block.Ordered t.sectors.toNat rest) (hmem : ∀ b ∈ rest, ∃ i, t.Occupied i ∧ (t.entries i).block = b)
    {start : UInt32} (hlow : 2048 ≤ start.toNat) (haligned : start.toNat % 2048 = 0)
    (hbehind : ∀ i, t.Occupied i → (t.entries i).block ∈ rest ∨ (t.entries i).block.stop ≤ start.toNat) (n : Nat) :
    0 ≤ (attempt slot size 0x83 n t start).1 ↔
      ∃ k, Block.search roundUp t.sectors.toNat size.toNat start.toNat rest = some k ∧ k ≤ n := by
  have hpos : 0 < size.toNat := by
    rw [Nat.pos_iff_ne_zero]
    exact fun h => hsize (UInt32.toNat_inj.1 h)
  induction rest generalizing start n with
  | nil =>
    have hgap : ∀ i, t.Occupied i → ¬ Around (t.entries i) start.toNat := fun i hi hr =>
      absurd hr.2 (Nat.not_lt.2 ((hbehind i hi).resolve_left List.not_mem_nil))
    have hstop : (t.survey start).1 = t.sectors := by
      obtain ⟨-, -, hfrom⟩ := survey_gap h hgap
      refine hfrom.resolve_right ?_
      rintro ⟨i, hi, hs, -⟩
      have hle : (t.entries i).start.toNat + (t.entries i).size.toNat ≤ start.toNat :=
        (hbehind i hi).resolve_left List.not_mem_nil
      rw [UInt32.lt_iff_toNat_lt] at hs
      omega
    rw [Block.search]
    cases n with
    | zero =>
      rw [attempt]
      split
      · simp
      · simp
    | succ n =>
      rw [attempt_gap h hslot hsize hlow haligned hgap, hstop]
      by_cases hfit : start.toNat + size.toNat ≤ t.sectors.toNat
      · rw [if_pos hfit, if_pos hfit]
        exact ⟨fun _ => ⟨1, rfl, by omega⟩, fun _ => Int.natCast_nonneg _⟩
      · rw [if_neg hfit, if_neg hfit, if_pos (.inl rfl)]
        simp
  | cons b rest ih =>
    have hb := hrest.1 b (by simp)
    obtain ⟨i, hi, rfl⟩ := hmem b (by simp)
    have htail : ∀ b ∈ rest, ∃ i, t.Occupied i ∧ (t.entries i).block = b := fun b hb => hmem b (by simp [hb])
    by_cases hskip : (t.entries i).block.stop ≤ start.toNat
    · rw [Block.search_skip hskip]
      refine ih hrest.tail htail hlow haligned (fun j hj => ?_) n
      rcases hbehind j hj with hj | hj
      · rcases List.mem_cons.1 hj with hj | hj
        · exact .inr (hj ▸ hskip)
        · exact .inl hj
      · exact .inr hj
    have hmet : start.toNat < (t.entries i).block.stop := Nat.not_le.1 hskip
    have hstop := stop_toNat (h.stop_le i)
    -- behind this no multiple of 2048 is left in 32 bits
    have hnone : 4294965248 < (t.entries i).block.stop →
        Block.search roundUp t.sectors.toNat size.toNat (roundUp (t.entries i).block.stop) rest = none := by
      intro hend
      rw [← Option.not_isSome_iff_eq_none, Block.search_isSome_iff roundsUp hpos hrest.tail (roundsUp.aligned_up _)]
      rintro ⟨s, hs, hle, hfit, -⟩
      have hsectors := t.sectors.toNat_lt
      have hup := roundsUp.le_up (t.entries i).block.stop
      omega
    -- stepping over the block, from anywhere in it
    have hover : ∀ place : UInt32, Around (t.entries i) place.toNat → ∀ n,
        (0 ≤ (attempt slot size 0x83 (n + 1) t place).1 ↔ ∃ k,
          Block.search roundUp t.sectors.toNat size.toNat (roundUp (t.entries i).block.stop) rest = some k ∧ k ≤ n) := by
      intro place hplace n
      rw [attempt_around h hi hplace]
      by_cases hend : 0xfffff800 < (t.entries i).start + (t.entries i).size
      · rw [if_pos hend, hnone (by rwa [UInt32.lt_iff_toNat_lt, hstop] at hend)]
        simp
      · have hnext := roundUp_toNat (UInt32.not_lt.1 hend)
        rw [hstop] at hnext
        have hup := roundsUp.le_up (t.entries i).block.stop
        rw [if_neg hend, ← hnext]
        refine ih hrest.tail htail (by omega) (by rw [hnext]; exact roundsUp.aligned_up _) (fun j hj => ?_) n
        rcases hbehind j hj with hj | hj
        · rcases List.mem_cons.1 hj with hj | hj
          · exact .inr (by rw [hj]; omega)
          · exact .inl hj
        · exact .inr (by omega)
    by_cases hin : (t.entries i).block.start ≤ start.toNat
    · rw [Block.search_over hin hmet]
      cases n with
      | zero =>
        rw [attempt]
        constructor
        · intro hn
          exact absurd hn (by simp)
        · rintro ⟨k, hk, hle⟩
          obtain ⟨j, -, rfl⟩ := Option.map_eq_some_iff.1 hk
          omega
      | succ n =>
        rw [hover start ⟨hin, hmet⟩ n]
        simp
    have hfront : start.toNat < (t.entries i).block.start := Nat.not_le.1 hin
    have hnear : ∀ j, t.Occupied j → (t.entries i).block.start ≤ (t.entries j).block.start ∨ (t.entries j).block.stop ≤ start.toNat := by
      intro j hj
      rcases hbehind j hj with hj | hj
      · rcases List.mem_cons.1 hj with hj | hj
        · exact .inl (by rw [hj])
        · exact .inl (Nat.le_trans (Nat.le_of_lt hb.1) (hrest.behind hj))
      · exact .inr hj
    have hgap : ∀ j, t.Occupied j → ¬ Around (t.entries j) start.toNat := by
      intro j hj hr
      rcases hnear j hj with hle | hle
      · exact absurd hr.1 (by omega)
      · exact absurd hr.2 (by omega)
    have hfirst : (t.survey start).1 = (t.entries i).start := by
      obtain ⟨-, hle, hfrom⟩ := survey_gap h hgap
      have hle := hle i hi (UInt32.lt_iff_toNat_lt.2 hfront)
      rcases hfrom with hfrom | ⟨j, hj, hs, hfrom⟩
      · have hinside := hb.2
        have hb := hb.1
        rw [hfrom, UInt32.le_iff_toNat_le] at hle
        unfold Partition.block at hb hinside
        dsimp only at hb hinside
        omega
      · refine UInt32.le_antisymm hle ?_
        rw [hfrom, UInt32.le_iff_toNat_le]
        refine (hnear j hj).resolve_right fun hstop => ?_
        have hsize := (h.inside hj).2.1
        rw [UInt32.lt_iff_toNat_lt] at hs
        unfold Partition.block at hstop
        dsimp only at hstop
        omega
    cases n with
    | zero =>
      rw [attempt]
      constructor
      · intro hn
        exact absurd hn (by simp)
      · rintro ⟨k, hk, hle⟩
        have := Block.search_pos hk
        omega
    | succ n =>
      rw [attempt_gap h hslot hsize hlow haligned hgap, hfirst]
      by_cases hfit : start.toNat + size.toNat ≤ (t.entries i).start.toNat
      · rw [if_pos hfit, Block.search_take hb.1 hfront hfit]
        exact ⟨fun _ => ⟨1, rfl, by omega⟩, fun _ => Int.natCast_nonneg _⟩
      rw [if_neg hfit, Block.search_pass hb.1 hfront (Nat.not_le.1 hfit)]
      by_cases hlast : (t.entries i).start = t.sectors ∨ 0xfffff800 < (t.entries i).start
      · have hend : 4294965248 < (t.entries i).block.stop := by
          have := (h.inside hi).2
          rcases hlast with hlast | hlast
          · rw [← hlast] at this
            unfold Partition.block at this
            dsimp only at this
            omega
          · exact Nat.lt_of_lt_of_le (UInt32.lt_iff_toNat_lt.1 hlast) (Nat.le_add_right _ _)
        rw [if_pos hlast, hnone hend]
        simp
      rw [if_neg hlast]
      cases n with
      | zero =>
        rw [attempt]
        constructor
        · intro hn
          exact absurd hn (by simp)
        · rintro ⟨k, hk, hle⟩
          obtain ⟨j, -, rfl⟩ := Option.map_eq_some_iff.1 hk
          omega
      | succ n =>
        rw [hover (t.entries i).start ⟨Nat.le_refl _, hb.1⟩ n]
        simp

/-! ## The whole search -/

/-- A multiple of 2048 with room for a partition of `size` sectors. -/
def Suits (t : PartitionTable) (size : UInt32) (start : Nat) : Prop :=
  start % 2048 = 0 ∧ 2048 ≤ start ∧ start + size.toNat ≤ t.sectors.toNat ∧
    ∀ i, t.Occupied i → (t.entries i).block.Apart ⟨start, start + size.toNat⟩

/-- Three partitions are in the way of a search that starts at 2048: each reaches beyond the place
where the search is, two of them leave sectors free in front of them that are too few, and
the first room is behind the last of them. -/
def Crowded (t : PartitionTable) (size : UInt32) : Prop :=
  ∃ i j k, t.Occupied i ∧ t.Occupied j ∧ t.Occupied k ∧
    (t.entries i).start < (t.entries j).start ∧ (t.entries j).start < (t.entries k).start ∧
    (2048 < (t.entries i).block.stop ∧ roundUp (t.entries i).block.stop < (t.entries j).block.stop ∧
      roundUp (t.entries j).block.stop < (t.entries k).block.stop) ∧
    Block.Twice (2048 < (t.entries i).block.start) (roundUp (t.entries i).block.stop < (t.entries j).block.start)
      (roundUp (t.entries j).block.stop < (t.entries k).block.start) ∧
    (∃ start, t.Suits size start) ∧ ∀ start, t.Suits size start → (t.entries k).block.stop ≤ start

theorem suits_iff (t : PartitionTable) (size : UInt32) (start : Nat) :
    t.Suits size start ↔ start % 2048 = 0 ∧ 2048 ≤ start ∧ Block.Fits t.sectors.toNat size.toNat t.blocks start := by
  unfold Suits Block.Fits
  refine and_congr_right fun _ => and_congr_right fun _ => and_congr_right fun _ => ?_
  constructor
  · intro h b hb
    obtain ⟨i, hi, rfl⟩ := mem_blocks.1 hb
    exact (h i hi).symm
  · intro h i hi
    exact (h _ (mem_blocks.2 ⟨i, hi, rfl⟩)).symm

theorem crowded_iff (h : t.Valid) (hfew : t.blocks.length ≤ 3) (size : UInt32) :
    t.Crowded size ↔ ∃ a b c, t.blocks = [a, b, c] ∧
      Block.InTheWay roundUp (fun n => n % 2048 = 0) t.sectors.toNat size.toNat 2048 a b c := by
  constructor
  · rintro ⟨i, j, k, hi, hj, hk, hij, hjk, hmet, htwice, ⟨s, hs⟩, hlast⟩
    have hblocks := h.ordered.eq_three hfew (mem_blocks.2 ⟨i, hi, rfl⟩) (mem_blocks.2 ⟨j, hj, rfl⟩) (mem_blocks.2 ⟨k, hk, rfl⟩)
      (UInt32.lt_iff_toNat_lt.1 hij) (UInt32.lt_iff_toNat_lt.1 hjk)
    refine ⟨_, _, _, hblocks, hmet, htwice, ⟨s, ?_⟩, fun s' h1 h2 h3 => hlast s' ((suits_iff t size s').2 ⟨h1, h2, hblocks ▸ h3⟩)⟩
    rw [← hblocks]
    exact (suits_iff t size s).1 hs
  · rintro ⟨a, b, c, hblocks, hmet, htwice, ⟨s, hs⟩, hlast⟩
    have hordered := h.ordered
    have hmem : ∀ b ∈ t.blocks, ∃ i, t.Occupied i ∧ (t.entries i).block = b := fun b hb => mem_blocks.1 hb
    rw [hblocks] at hordered hmem
    obtain ⟨i, hi, rfl⟩ := hmem a (by simp)
    obtain ⟨j, hj, rfl⟩ := hmem b (by simp)
    obtain ⟨k, hk, rfl⟩ := hmem c (by simp)
    have hij := Nat.lt_of_lt_of_le (hordered.1 _ (List.mem_cons_self ..)).1 (hordered.behind (List.mem_cons_self ..))
    have hjk := Nat.lt_of_lt_of_le (hordered.tail.1 _ (List.mem_cons_self ..)).1 (hordered.tail.behind (List.mem_cons_self ..))
    refine ⟨i, j, k, hi, hj, hk, UInt32.lt_iff_toNat_lt.2 hij, UInt32.lt_iff_toNat_lt.2 hjk, hmet, htwice,
      ⟨s, (suits_iff t size s).2 (by rw [hblocks]; exact hs)⟩, fun s' hs' => ?_⟩
    have := (suits_iff t size s').1 hs'
    rw [hblocks] at this
    exact hlast s' this.1 this.2.1 this.2.2

/-- Where a table with an empty entry has room, a place is found unless the table is crowded. -/
theorem auto_iff (hvalid : t.validate = 0) (hempty : ∃ i, ¬ t.Occupied i) {size : UInt32} (hsize : size ≠ 0) :
    ((∃ start, t.Suits size start) → 0 ≤ (t.auto size 0x83).1) ↔ ¬ t.Crowded size := by
  have h := (validate_iff t).1 hvalid
  obtain ⟨slot, hslot, hfound⟩ : ∃ slot, (t.entries slot).type = 0 ∧
      (List.finRange 4).find? (fun i => (t.entries i).type = 0) = some slot := by
    obtain ⟨i, hi⟩ := hempty
    have hsome : ((List.finRange 4).find? fun i => (t.entries i).type = 0).isSome := by
      rw [List.find?_isSome]
      exact ⟨i, List.mem_finRange i, by simpa [Occupied] using hi⟩
    obtain ⟨slot, hslot⟩ := Option.isSome_iff_exists.1 hsome
    exact ⟨slot, by simpa using List.find?_some hslot, hslot⟩
  have hpos : 0 < size.toNat := by
    rw [Nat.pos_iff_ne_zero]
    exact fun h => hsize (UInt32.toNat_inj.1 h)
  have hfew := length_blocks hslot
  have hsearch := attempt_iff h hslot hsize h.ordered (fun b hb => mem_blocks.1 hb)
    (show 2048 ≤ (2048 : UInt32).toNat by decide) (by decide)
    (fun i hi => .inl (mem_blocks.2 ⟨i, hi, rfl⟩)) 5
  have hsome := Block.search_isSome_iff roundsUp hpos h.ordered (show 2048 % 2048 = 0 by decide)
  rw [auto, hfound]
  dsimp only
  simp only [suits_iff]
  rw [hsearch, crowded_iff h hfew, ← Block.search_long_iff roundsUp hpos h.ordered (by decide) hfew,
    ← hsome]
  change ((Block.search roundUp t.sectors.toNat size.toNat 2048 t.blocks).isSome →
    ∃ k, Block.search roundUp t.sectors.toNat size.toNat 2048 t.blocks = some k ∧ k ≤ 5) ↔ _
  cases Block.search roundUp t.sectors.toNat size.toNat 2048 t.blocks with
  | none => simp
  | some k => simp

/-- Three partitions of 1 MiB with 1 MiB in front of each, and most of the disk behind them. -/
def spaced : PartitionTable where
  entries := ![⟨4096, 2048, 0x83, 0⟩, ⟨8192, 2048, 0x83, 0⟩, ⟨12288, 2048, 0x83, 0⟩, ⟨0, 0, 0, 0⟩]
  sectors := 65536

theorem auto_iff_spaced : ((∃ start, spaced.Suits 4096 start) → 0 ≤ (spaced.auto 4096 0x83).1) ↔ ¬ spaced.Crowded 4096 :=
  auto_iff (by decide +kernel) ⟨3, by decide⟩ (by decide)

/-- The five attempts end in front of the third partition. -/
theorem auto_spaced_fails : spaced.validate = 0 ∧ ¬ spaced.Occupied 3 ∧ spaced.Suits 4096 14336 ∧
    (spaced.auto 4096 0x83).1 = -1 := by
  refine ⟨by decide +kernel, by decide, ⟨by decide, by decide, by decide, ?_⟩, by decide +kernel⟩
  unfold Block.Apart
  decide +kernel

end PartitionTable

end Barnix.Disk
