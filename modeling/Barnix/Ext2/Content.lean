import Barnix.Ext2.Truncation
/-!
# The content of a file

A file is the bytes that its pointers lead to, up to its size. `overwrite` makes it the
bytes it is given, whatever it was before, and `read_range` returns them.
-/

namespace Barnix.Ext2

section
variable {v u w : View} {b off : Nat}

namespace View

/-- The bytes of the file are the first `n` of `d`, and all behind them are zero. -/
structure Rewrote (v u : View) (b off : Nat) (d : Nat → UInt8) (n : Nat) : Prop where
  holds : u.Holds b off maxPointers
  within : Within b off v u
  size : (u.mem b).get32 (off + 4) = n
  byte : ∀ k < maxFile, u.byte b off k = if k < n then d k else 0
  get : ∀ j, j < off + 4 ∨ off + 8 ≤ j ∧ j < off + 28 ∨ off + 32 ≤ j ∧ j < off + 40 ∨ off + 92 ≤ j →
    (u.mem b).get j = (v.mem b).get j

theorem Ready.self (hh : v.Holds b off maxPointers) {i : Nat} (hx : v.pointer b off i ≠ 0) : v.Ready v b off i (v.pointer b off i) := by
  refine ⟨hh, .refl v, hx, fun j _ => ?_, fun hz => absurd hz hx, fun _ => rfl, fun _ _ _ => rfl, fun _ _ => rfl⟩
  split
  · rename_i hji
    rw [hji]
  · rfl

theorem index_lt {k : Nat} (hk : k < maxFile) : k / blockSize < maxPointers := by
  unfold maxFile at hk
  unfold blockSize maxPointers
  omega

end View

open View

/-- `overwrite`: truncate, write, clear the rest of the last block, set the size. -/
theorem careful_overwrite {data : Nat → UInt8} {n : Nat} (h : v.InTable b off) (hh : v.Holds b off maxPointers) (hn : n ≤ maxFile) :
    (overwrite ⟨some b, off⟩ data n).wp careful (fun ok u => u.cwd = v.cwd ∧ (ok = true → v.Rewrote u b off data n)) v := by
  have hfit := h.fits
  unfold overwrite
  refine wp_then (careful_truncateBlocks h hh.toHas _) fun _ u hcleared => ?_
  have hu := h.alike hcleared.within.alike
  refine wp_then (careful_writeRange hu (hcleared.holds hh) (by omega)) fun ok x ⟨hcwd, hok⟩ => ?_
  cases ok with
  | false => exact ⟨hcwd.trans hcleared.within.cwd, nofun⟩
  | true =>
    obtain ⟨w, hwrote, rfl⟩ := hok rfl
    rw [Bool.not_true, if_neg Bool.false_ne_true]
    generalize max ((u.mem b).get32 (off + 4)) (0 + n) = total
    have hw := hu.alike hwrote.within.alike
    have hsame := sameBlocks_resized hw hwrote.holds total
    have hholds := hwrote.holds.congr hsame
    have hx := hw.alike (within_resized hw hwrote.holds total).alike
    -- the bytes so far: the data, and behind its last block nothing
    have hbyte : ∀ k < maxFile, (w.resized b off total).byte b off k =
        if k < n then data k else if (n + blockSize - 1) / blockSize ≤ k / blockSize then 0 else u.byte b off k := by
      intro k hk
      rw [byte_resized hw hwrote.holds total hk, hwrote.byte k hk, Nat.sub_zero]
      by_cases hkn : k < n
      · rw [if_pos (by omega), if_pos hkn]
      · rw [if_neg (by omega), if_neg hkn]
        split
        · rename_i hkeep
          unfold View.byte
          rw [if_pos (hcleared.zero _ (index_lt hk) hkeep)]
        · rfl
    have hget : ∀ j, j < off + 4 ∨ off + 8 ≤ j ∧ j < off + 28 ∨ off + 32 ≤ j ∧ j < off + 40 ∨ off + 92 ≤ j →
        ((w.resized b off total).mem b).get j = (v.mem b).get j := by
      intro j hj
      rw [resized_get total (by omega), hwrote.get j (by omega), hcleared.get j (by omega)]
    have hwithin : Within b off v (w.resized b off total) := (hcleared.within.trans hwrote.within).trans (within_resized hw hwrote.holds total)
    -- the size is set at the end
    have hlast : ∀ y : View, y.Holds b off maxPointers → Within b off v y →
        (∀ k < maxFile, y.byte b off k = if k < n then data k else 0) →
        (∀ j, j < off + 4 ∨ off + 8 ≤ j ∧ j < off + 28 ∨ off + 32 ≤ j ∧ j < off + 40 ∨ off + 92 ≤ j → (y.mem b).get j = (v.mem b).get j) →
        (wr32 .metadata ⟨some b, off⟩ 4 n >>= fun _ => pure true).wp careful
          (fun ok u => u.cwd = v.cwd ∧ (ok = true → v.Rewrote u b off data n)) y := by
      intro y hyholds hywithin hybyte hyget
      have hy := h.alike hywithin.alike
      have hsize : n % 4294967296 = n := by
        apply Nat.mod_eq_of_lt
        unfold maxFile at hn
        omega
      simp only [Client.wp_bind, careful_wr32, Client.wp_pure]
      refine ⟨⟨.inr (.inl hy.table), nofun⟩, hywithin.cwd, fun _ => ?_⟩
      change v.Rewrote (y.resized b off n) b off data n
      refine ⟨hyholds.congr (sameBlocks_resized hy hyholds n), hywithin.trans (within_resized hy hyholds n),
        (resized_get32 n hfit).trans hsize, fun k hk => ?_, fun j hj => ?_⟩
      · rw [byte_resized hy hyholds n hk, hybyte k hk]
      · rw [resized_get n (by omega), hyget j hj]
    rw [careful_ite]
    split
    · rename_i hodd
      have hlt : n < maxFile := by
        unfold maxFile at hn ⊢
        unfold blockSize at hodd
        omega
      have hfilled : (w.resized b off total).pointer b off (n / blockSize) ≠ 0 := by
        rw [hsame.pointer]
        refine hwrote.filled _ (index_lt hlt) (.inr ⟨n / blockSize * blockSize, Nat.zero_le _, ?_, ?_⟩)
        · unfold blockSize at hodd ⊢
          omega
        · exact Nat.mul_div_cancel _ (by decide)
      have hused := hholds.used _ (index_lt hlt) hfilled
      rw [Client.wp_bind]
      refine careful_fileBlock ?_ ?_
      · by_cases hz : (w.resized b off total).indirect b off = 0
        · exact .inl hz
        · exact .inr (owned_of_used (hholds.indirect hz))
      rw [Client.wp_bind, careful_block]
      refine ⟨owned_of_used hused, ?_⟩
      rw [Client.wp_bind, Ptr.add_mk, Nat.zero_add]
      refine (careful_store ..).mpr ⟨⟨owned_of_used hused, fun _ => data_of_used hused⟩, ?_⟩
      have hroom : n % blockSize + (blockSize - n % blockSize) ≤ 1024 := by unfold blockSize; omega
      have hpatch := (Ready.self hholds hfilled).wrote hx (index_lt hlt) hroom fun _ => 0
      have hstart : n / blockSize * 1024 + n % blockSize = n := Nat.div_add_mod' ..
      rw [hstart] at hpatch
      refine hlast _ hpatch.holds (hwithin.trans hpatch.within) (fun k hk => ?_) fun j hj => ?_
      · refine (hpatch.byte k hk).trans ?_
        unfold blockSize at hodd
        by_cases hkn : k < n
        · rw [if_neg (by omega), hbyte k hk, if_pos hkn, if_pos hkn]
        · rw [if_neg hkn]
          by_cases hin : n ≤ k ∧ k < n + (blockSize - n % blockSize)
          · rw [if_pos hin]
          · unfold blockSize at hin
            have hbehind : (n + blockSize - 1) / blockSize ≤ k / blockSize := by
              unfold blockSize
              omega
            rw [if_neg (by unfold blockSize; omega), hbyte k hk, if_neg hkn, if_pos hbehind]
      · exact (hpatch.get j (by omega)).trans (hget j hj)
    · rename_i heven
      refine hlast _ hholds hwithin (fun k hk => ?_) hget
      rw [hbyte k hk]
      split
      · rfl
      · unfold blockSize at heven
        rw [if_pos (by unfold blockSize; omega)]

/-- The bytes of the file from `start` on. -/
def View.bytes (v : View) (b off start n : Nat) : List UInt8 := (List.range n).map fun k => v.byte b off (start + k)

theorem View.bytes_add (start m n : Nat) : v.bytes b off start (m + n) = v.bytes b off start m ++ v.bytes b off (start + m) n := by
  unfold bytes
  rw [List.range_add, List.map_append, List.map_map]
  congr 1
  apply List.map_congr_left
  intro k _
  rw [Function.comp_apply, Nat.add_assoc]

/-- The copy loop of `engine_read`. -/
theorem careful_readRange {Q : List UInt8 → View → Prop} {rounds start n : Nat} (hh : v.Holds b off maxPointers) (hrounds : n ≤ rounds)
    (hend : start + n ≤ maxFile) (hq : Q (v.bytes b off start n) v) : (readRange ⟨some b, off⟩ rounds start n).wp careful Q v := by
  have hind : v.indirect b off = 0 ∨ v.vol.Owned (v.indirect b off) := by
    by_cases hz : v.indirect b off = 0
    · exact .inl hz
    · exact .inr (owned_of_used (hh.indirect hz))
  induction rounds generalizing start n Q with
  | zero =>
    obtain rfl := Nat.le_zero.1 hrounds
    exact hq
  | succ rounds ih =>
    unfold readRange
    rw [careful_ite]
    split
    · rename_i hzero
      subst hzero
      exact hq
    rename_i hpos
    have hi : start / blockSize < maxPointers := index_lt (by omega)
    have hmod : start % blockSize + min (blockSize - start % blockSize) n ≤ 1024 := by
      unfold blockSize
      omega
    have hchunk : 0 < min (blockSize - start % blockSize) n := by
      unfold blockSize
      omega
    -- the bytes of the chunk stand in one block
    have hindex : ∀ k < min (blockSize - start % blockSize) n, (start + k) / blockSize = start / blockSize ∧
        (start + k) % blockSize = start % blockSize + k := by
      intro k hk
      unfold blockSize at hk ⊢
      omega
    have hsum : min (blockSize - start % blockSize) n + (n - min (blockSize - start % blockSize) n) = n := by omega
    rw [Client.wp_bind]
    refine careful_fileBlock hind ?_
    simp only [Client.wp_bind, careful_ite, Client.wp_pure, careful_block]
    generalize min (blockSize - start % blockSize) n = chunk at hmod hchunk hindex hsum ⊢
    have hrest : ∀ bytes, bytes = v.bytes b off start chunk →
        (readRange ⟨some b, off⟩ rounds (start + chunk) (n - chunk)).wp careful (fun more => Q (bytes ++ more)) v := by
      rintro _ rfl
      refine ih (by omega) (by omega) ?_
      rw [← View.bytes_add, hsum]
      exact hq
    split
    · rename_i hzero
      apply hrest
      unfold View.bytes View.byte
      refine (List.ext_getElem (by simp) fun k hk _ => ?_)
      simp only [List.length_replicate] at hk
      rw [List.getElem_replicate, List.getElem_map, List.getElem_range, (hindex k hk).1, if_pos hzero]
    · rename_i hne
      refine ⟨owned_of_used (hh.used _ hi hne), ?_⟩
      rw [Ptr.add_mk, Nat.zero_add, careful_load, Buf.read_window]
      apply hrest
      unfold View.bytes View.byte Buf.read
      apply List.map_congr_left
      intro k hk
      rw [List.mem_range] at hk
      rw [(hindex k hk).1, (hindex k hk).2, if_neg hne]

end

end Barnix.Ext2
