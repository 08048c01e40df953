import Mathlib.Data.Nat.Bitwise
import Mathlib.Tactic.IntervalCases
import Mathlib.Tactic.Tauto
/-!
# Byte buffers

A buffer of `n` bytes with total access: reading past the end gives zero and
writing past the end does nothing. Numbers are stored little endian, and a
buffer can be read as a bitmap. Every reader has a lemma that says what it
reads after every writer.
-/

namespace Barnix

/-- A buffer of `n` bytes. -/
def Buf (n : Nat) : Type := Fin n → UInt8

namespace Buf

variable {n m : Nat}

instance : Inhabited (Buf n) := ⟨fun _ => 0⟩

def get (b : Buf n) (i : Nat) : UInt8 := if h : i < n then b ⟨i, h⟩ else 0

def set (b : Buf n) (i : Nat) (v : UInt8) : Buf n := fun j => if j.val = i then v else b j

def get16 (b : Buf n) (i : Nat) : Nat := (b.get i).toNat + 256 * (b.get (i + 1)).toNat

def get32 (b : Buf n) (i : Nat) : Nat := b.get16 i + 65536 * b.get16 (i + 2)

/-- Stores the low 16 bits of `v`. -/
def put16 (b : Buf n) (i v : Nat) : Buf n :=
  (b.set i (UInt8.ofNat v)).set (i + 1) (UInt8.ofNat (v / 256))

/-- Stores the low 32 bits of `v`. -/
def put32 (b : Buf n) (i v : Nat) : Buf n := (b.put16 i v).put16 (i + 2) (v / 65536)

def bit (b : Buf n) (k : Nat) : Bool := (b.get (k / 8)).toNat.testBit (k % 8)

def setbit (b : Buf n) (k : Nat) (used : Bool) : Buf n :=
  let byte := (b.get (k / 8)).toNat
  b.set (k / 8) (UInt8.ofNat (if used then byte ||| 2 ^ (k % 8) else byte &&& (255 ^^^ 2 ^ (k % 8))))

/-- `memset` of `len` bytes from `off` on. -/
def fill (b : Buf n) (off len : Nat) (v : UInt8) : Buf n :=
  fun j => if off ≤ j.val ∧ j.val < off + len then v else b j

/-- `memcpy` of `len` bytes of `src` (from `from_` on) to `off`. -/
def blit (b : Buf n) (off len : Nat) (src : Buf m) (from_ : Nat) : Buf n :=
  fun j => if off ≤ j.val ∧ j.val < off + len then src.get (from_ + (j.val - off)) else b j

/-- The `len` bytes from `off` on, as a buffer. -/
def window (b : Buf n) (off len : Nat) : Buf len := fun i => b.get (off + i.val)

/-- Changes the `len` bytes from `off` on. -/
def edit (b : Buf n) (off len : Nat) (f : Buf len → Buf len) : Buf n := b.blit off len (f (b.window off len)) 0

/-- `memcpy` of a list of bytes to `off`. -/
def write (b : Buf n) (off : Nat) (bytes : List UInt8) : Buf n :=
  fun j => if off ≤ j.val ∧ j.val < off + bytes.length then bytes.getD (j.val - off) 0 else b j

/-- The `len` bytes from `off` on. -/
def read (b : Buf n) (off len : Nat) : List UInt8 := (List.range len).map fun i => b.get (off + i)

/-- `memcmp` over `len` bytes from `off` on finds no difference. -/
def same (a b : Buf n) (off len : Nat) : Bool :=
  (List.range len).all fun i => a.get (off + i) == b.get (off + i)

/-! ## Masks -/

end Buf

/-- Masking off the low `k` of `w` bits. -/
theorem and_high_mask {k w n : Nat} (hk : k ≤ w) (h : n < 2 ^ w) : n &&& (2 ^ k * (2 ^ (w - k) - 1)) = n / 2 ^ k * 2 ^ k := by
  rw [Nat.mul_comm (n / 2 ^ k)]
  apply Nat.eq_of_testBit_eq
  intro i
  rw [Nat.testBit_and, Nat.testBit_two_pow_mul, Nat.testBit_two_pow_mul, Nat.testBit_two_pow_sub_one, Nat.testBit_div_two_pow]
  by_cases hi : k ≤ i
  · have hshift : k + (i - k) = i := by omega
    by_cases hj : i - k < w - k
    · simp [hi, hj]
    · have hhigh : n.testBit i = false :=
        Nat.testBit_lt_two_pow (Nat.lt_of_lt_of_le h (Nat.pow_le_pow_right (by decide) (by omega)))
      simp [hi, hhigh]
  · simp [hi]

namespace Buf

variable {n m : Nat}

/-! ## Single bytes -/

theorem get_lt (b : Buf n) {i : Nat} (h : i < n) : b.get i = b ⟨i, h⟩ := by simp [get, h]

theorem get_ge (b : Buf n) {i : Nat} (h : n ≤ i) : b.get i = 0 := by simp [get, Nat.not_lt.2 h]

theorem ext_get {a b : Buf n} (h : ∀ i, i < n → a.get i = b.get i) : a = b := by
  funext ⟨i, hi⟩
  simpa [get, hi] using h i hi

theorem get_set (b : Buf n) (i j : Nat) (v : UInt8) :
    (b.set i v).get j = if j = i ∧ j < n then v else b.get j := by
  by_cases hj : j < n
  · rw [get_lt _ hj, get_lt _ hj]; simp [set, hj]
  · rw [get_ge _ (by omega), get_ge _ (by omega)]; simp [hj]

theorem get_set_ne (b : Buf n) {i j : Nat} (v : UInt8) (h : j ≠ i) : (b.set i v).get j = b.get j := by
  simp [get_set, h]

theorem get_set_same (b : Buf n) {i : Nat} (v : UInt8) (h : i < n) : (b.set i v).get i = v := by
  simp [get_set, h]

theorem get_fill (b : Buf n) (off len : Nat) (v : UInt8) (j : Nat) :
    (b.fill off len v).get j = if off ≤ j ∧ j < off + len ∧ j < n then v else b.get j := by
  by_cases hj : j < n
  · rw [get_lt _ hj, get_lt _ hj]; simp [fill, hj]
  · rw [get_ge _ (by omega), get_ge _ (by omega)]; simp [hj]

theorem get_blit (b : Buf n) (off len : Nat) (src : Buf m) (k j : Nat) :
    (b.blit off len src k).get j =
      if off ≤ j ∧ j < off + len ∧ j < n then src.get (k + (j - off)) else b.get j := by
  by_cases hj : j < n
  · rw [get_lt _ hj, get_lt b hj]; simp [blit, hj]
  · rw [get_ge _ (by omega), get_ge b (by omega)]; simp [hj]

theorem get_write (b : Buf n) (off : Nat) (bytes : List UInt8) (j : Nat) :
    (b.write off bytes).get j =
      if off ≤ j ∧ j < off + bytes.length ∧ j < n then bytes.getD (j - off) 0 else b.get j := by
  by_cases hj : j < n
  · rw [get_lt _ hj, get_lt _ hj]; simp [write, hj]
  · rw [get_ge _ (by omega), get_ge _ (by omega)]; simp [hj]

theorem same_iff {a b : Buf n} {off len : Nat} :
    a.same b off len = true ↔ ∀ i, i < len → a.get (off + i) = b.get (off + i) := by
  simp [same]

theorem same_all {a b : Buf n} (h : a.same b 0 n = true) : a = b :=
  ext_get fun i hi => by simpa using same_iff.1 h i hi

theorem same_refl (a : Buf n) (off len : Nat) : a.same a off len = true := same_iff.2 fun _ _ => rfl

/-! ## Little-endian numbers -/

theorem get16_lt (b : Buf n) (i : Nat) : b.get16 i < 65536 := by
  have h1 := (b.get i).toNat_lt
  have h2 := (b.get (i + 1)).toNat_lt
  unfold get16; omega

theorem get32_lt (b : Buf n) (i : Nat) : b.get32 i < 4294967296 := by
  have h1 := b.get16_lt i
  have h2 := b.get16_lt (i + 2)
  unfold get32; omega

theorem get_put16_ne (b : Buf n) {i j : Nat} (v : Nat) (h : j < i ∨ i + 2 ≤ j) :
    (b.put16 i v).get j = b.get j := by
  unfold put16
  rw [get_set_ne _ _ (by omega), get_set_ne _ _ (by omega)]

theorem get_put32_ne (b : Buf n) {i j : Nat} (v : Nat) (h : j < i ∨ i + 4 ≤ j) :
    (b.put32 i v).get j = b.get j := by
  unfold put32
  rw [get_put16_ne _ _ (by omega), get_put16_ne _ _ (by omega)]

theorem get16_congr {a : Buf n} {b : Buf m} {i j : Nat} (h0 : a.get i = b.get j)
    (h1 : a.get (i + 1) = b.get (j + 1)) : a.get16 i = b.get16 j := by
  simp [get16, h0, h1]

theorem get32_congr {a : Buf n} {b : Buf m} {i j : Nat} (h : ∀ k, k < 4 → a.get (i + k) = b.get (j + k)) :
    a.get32 i = b.get32 j := by
  have h0 := h 0 (by omega)
  have h1 := h 1 (by omega)
  have h2 := h 2 (by omega)
  have h3 := h 3 (by omega)
  simp only [Nat.add_zero] at h0
  simp [get32, get16, h0, h1, h2, h3, Nat.add_assoc]

theorem get16_put16 (b : Buf n) (i v : Nat) (h : i + 1 < n) : (b.put16 i v).get16 i = v % 65536 := by
  unfold put16 get16
  rw [get_set_ne _ _ (by omega), get_set_same _ _ (by omega), get_set_same _ _ h]
  simp only [UInt8.toNat_ofNat']
  omega

theorem get16_put16_ne (b : Buf n) {i j : Nat} (v : Nat) (h : j + 2 ≤ i ∨ i + 2 ≤ j) :
    (b.put16 i v).get16 j = b.get16 j :=
  get16_congr (get_put16_ne b v (by omega)) (get_put16_ne b v (by omega))

theorem get32_put16_ne (b : Buf n) {i j : Nat} (v : Nat) (h : j + 4 ≤ i ∨ i + 2 ≤ j) :
    (b.put16 i v).get32 j = b.get32 j :=
  get32_congr fun k hk => get_put16_ne b v (by omega)

theorem get32_put32 (b : Buf n) (i v : Nat) (h : i + 3 < n) : (b.put32 i v).get32 i = v % 4294967296 := by
  unfold put32 get32
  rw [get16_put16_ne _ _ (by omega), get16_put16 _ _ _ (by omega), get16_put16 _ _ _ (by omega)]
  omega

theorem get32_put32_ne (b : Buf n) {i j : Nat} (v : Nat) (h : j + 4 ≤ i ∨ i + 4 ≤ j) :
    (b.put32 i v).get32 j = b.get32 j :=
  get32_congr fun k hk => get_put32_ne b v (by omega)

theorem get16_put32_ne (b : Buf n) {i j : Nat} (v : Nat) (h : j + 2 ≤ i ∨ i + 4 ≤ j) :
    (b.put32 i v).get16 j = b.get16 j :=
  get16_congr (get_put32_ne b v (by omega)) (get_put32_ne b v (by omega))

/-- The last store counts. -/
theorem put16_put16 (b : Buf n) (i v w : Nat) : (b.put16 i v).put16 i w = b.put16 i w := by
  refine ext_get fun j hj => ?_
  simp only [put16, get_set]
  by_cases h0 : j = i
  · subst h0
    simp [hj]
  by_cases h1 : j = i + 1
  · subst h1
    simp [hj]
  · simp [h0, h1]

/-- Storing what is there changes nothing. -/
theorem put16_get16 (b : Buf n) (i : Nat) : b.put16 i (b.get16 i) = b := by
  refine ext_get fun j hj => ?_
  have hlow := (b.get i).toNat_lt
  simp only [put16, get_set, get16]
  by_cases h1 : j = i + 1
  · subst h1
    have hhigh : ((b.get i).toNat + 256 * (b.get (i + 1)).toNat) / 256 = (b.get (i + 1)).toNat := by omega
    rw [if_pos ⟨rfl, hj⟩, hhigh, UInt8.ofNat_toNat]
  rw [if_neg fun h => h1 h.1]
  by_cases h0 : j = i
  · subst h0
    rw [if_pos ⟨rfl, hj⟩]
    apply UInt8.toNat_inj.1
    rw [UInt8.toNat_ofNat']
    omega
  · rw [if_neg fun h => h0 h.1]

theorem put16_congr (b : Buf n) (i : Nat) {v w : Nat} (h : v % 65536 = w % 65536) : b.put16 i v = b.put16 i w := by
  have hlow : UInt8.ofNat v = UInt8.ofNat w := by
    apply UInt8.toNat_inj.1
    rw [UInt8.toNat_ofNat', UInt8.toNat_ofNat']
    omega
  have hhigh : UInt8.ofNat (v / 256) = UInt8.ofNat (w / 256) := by
    apply UInt8.toNat_inj.1
    rw [UInt8.toNat_ofNat', UInt8.toNat_ofNat']
    omega
  unfold put16
  rw [hlow, hhigh]

theorem put32_get32 (b : Buf n) (i : Nat) : b.put32 i (b.get32 i) = b := by
  have hlow := b.get16_lt i
  have hhigh := b.get16_lt (i + 2)
  unfold put32 get32
  rw [put16_congr b i (show _ % 65536 = b.get16 i % 65536 by omega), put16_get16,
    put16_congr b (i + 2) (show _ % 65536 = b.get16 (i + 2) % 65536 by omega), put16_get16]

theorem set_comm (b : Buf n) {i j : Nat} (v w : UInt8) (h : i ≠ j) : (b.set i v).set j w = (b.set j w).set i v := by
  refine ext_get fun k hk => ?_
  simp only [get_set]
  by_cases hi : k = i
  · subst hi
    simp [h]
  · simp [hi]

theorem put16_comm (b : Buf n) {i j : Nat} (v w : Nat) (h : i + 2 ≤ j ∨ j + 2 ≤ i) :
    (b.put16 i v).put16 j w = (b.put16 j w).put16 i v := by
  unfold put16
  rw [set_comm (i := i + 1) (j := j) _ _ _ (by omega), set_comm (i := i) (j := j) _ _ _ (by omega),
    set_comm (i := i + 1) (j := j + 1) _ _ _ (by omega), set_comm (i := i) (j := j + 1) _ _ _ (by omega)]

theorem put32_comm (b : Buf n) {i j : Nat} (v w : Nat) (h : i + 4 ≤ j ∨ j + 4 ≤ i) :
    (b.put32 i v).put32 j w = (b.put32 j w).put32 i v := by
  unfold put32
  rw [put16_comm (i := i + 2) (j := j) _ _ _ (by omega), put16_comm (i := i) (j := j) _ _ _ (by omega),
    put16_comm (i := i + 2) (j := j + 2) _ _ _ (by omega), put16_comm (i := i) (j := j + 2) _ _ _ (by omega)]

/-! ## Bitmaps -/

theorem testBit_255_xor (k j : Nat) (hk : k < 8) (hj : j < 8) :
    (255 ^^^ 2 ^ k).testBit j = !decide (k = j) := by
  interval_cases k <;> interval_cases j <;> decide

theorem bit_setbit_same (b : Buf n) {k : Nat} (used : Bool) (h : k / 8 < n) :
    (b.setbit k used).bit k = used := by
  unfold bit setbit
  have hk : k % 8 < 8 := Nat.mod_lt _ (by omega)
  rw [get_set_same _ _ h, UInt8.toNat_ofNat', Nat.testBit_mod_two_pow]
  cases used <;> simp [hk, Nat.testBit_or, Nat.testBit_and, testBit_255_xor _ _ hk hk]

theorem bit_setbit_ne (b : Buf n) {k j : Nat} (used : Bool) (h : j ≠ k) :
    (b.setbit k used).bit j = b.bit j := by
  unfold bit setbit
  by_cases hb : j / 8 = k / 8 ∧ j / 8 < n
  · obtain ⟨hb, hn⟩ := hb
    have hk : k % 8 < 8 := Nat.mod_lt _ (by omega)
    have hj : j % 8 < 8 := Nat.mod_lt _ (by omega)
    have hne : k % 8 ≠ j % 8 := by omega
    rw [hb, get_set_same _ _ (by omega), UInt8.toNat_ofNat', Nat.testBit_mod_two_pow]
    cases used <;>
      simp [hj, Nat.testBit_or, Nat.testBit_and, testBit_255_xor _ _ hk hj, hne]
  · rw [get_set, if_neg (by tauto)]

theorem get_setbit_ne (b : Buf n) {k j : Nat} (used : Bool) (h : j ≠ k / 8) :
    (b.setbit k used).get j = b.get j := get_set_ne b _ h

/-! ## Windows -/

theorem get_window (b : Buf n) (off len j : Nat) : (b.window off len).get j = if j < len then b.get (off + j) else 0 := by
  by_cases hj : j < len
  · rw [get_lt _ hj, if_pos hj]
    rfl
  · rw [get_ge _ (Nat.le_of_not_lt hj), if_neg hj]

theorem get_edit (b : Buf n) (off len : Nat) (f : Buf len → Buf len) (j : Nat) :
    (b.edit off len f).get j = if off ≤ j ∧ j < off + len ∧ j < n then (f (b.window off len)).get (j - off) else b.get j := by
  rw [edit, get_blit, Nat.zero_add]

theorem get_edit_ne (b : Buf n) {off len : Nat} (f : Buf len → Buf len) {j : Nat} (h : j < off ∨ off + len ≤ j) :
    (b.edit off len f).get j = b.get j := by
  rw [get_edit, if_neg (by omega)]

theorem get16_edit_ne (b : Buf n) {off len : Nat} (f : Buf len → Buf len) {j : Nat} (h : j + 2 ≤ off ∨ off + len ≤ j) :
    (b.edit off len f).get16 j = b.get16 j :=
  get16_congr (get_edit_ne b f (by omega)) (get_edit_ne b f (by omega))

theorem get32_edit_ne (b : Buf n) {off len : Nat} (f : Buf len → Buf len) {j : Nat} (h : j + 4 ≤ off ∨ off + len ≤ j) :
    (b.edit off len f).get32 j = b.get32 j :=
  get32_congr fun _ _ => get_edit_ne b f (by omega)

theorem read_window (b : Buf n) (off len : Nat) : (b.window off len).read 0 len = b.read off len := by
  apply List.map_congr_left
  intro i hi
  rw [List.mem_range] at hi
  rw [get_window, Nat.zero_add, if_pos hi]

@[simp] theorem get16_window (b : Buf n) {off len k : Nat} (h : k + 2 ≤ len) : (b.window off len).get16 k = b.get16 (off + k) :=
  get16_congr (by rw [get_window, if_pos (by omega)]) (by rw [get_window, if_pos (by omega), Nat.add_assoc])

@[simp] theorem get32_window (b : Buf n) {off len k : Nat} (h : k + 4 ≤ len) : (b.window off len).get32 k = b.get32 (off + k) :=
  get32_congr fun i hi => by rw [get_window, if_pos (by omega), Nat.add_assoc]

@[simp] theorem bit_window (b : Buf n) (k : Nat) : (b.window (k / 8) 1).bit (k % 8) = b.bit k := by
  have h0 : k % 8 / 8 = 0 := by omega
  rw [bit, bit, h0, get_window, if_pos (by decide), Nat.add_zero, Nat.mod_mod]

@[simp] theorem edit_put16 (b : Buf n) (off v : Nat) : b.edit off 2 (·.put16 0 v) = b.put16 off v := by
  refine ext_get fun j hj => ?_
  rw [get_edit, put16, put16, get_set, get_set, get_set, get_set]
  by_cases h0 : j = off
  · subst h0
    simp [hj]
  by_cases h1 : j = off + 1
  · subst h1
    simp [hj]
  · rw [if_neg (by omega), if_neg (by omega), if_neg (by omega)]

@[simp] theorem edit_put32 (b : Buf n) (off v : Nat) : b.edit off 4 (·.put32 0 v) = b.put32 off v := by
  refine ext_get fun j hj => ?_
  rw [get_edit]
  by_cases h : off ≤ j ∧ j < off + 4 ∧ j < n
  · obtain ⟨k, rfl⟩ : ∃ k, j = off + k := ⟨j - off, by omega⟩
    have hk : k < 4 := by omega
    have hoff : off < n := by omega
    rw [if_pos h, Nat.add_sub_cancel_left]
    simp only [put32, put16, get_set]
    interval_cases k <;> simp [hj, hoff, Nat.add_assoc]
  · rw [if_neg h, get_put32_ne _ _ (by omega)]

@[simp] theorem edit_setbit (b : Buf n) (k : Nat) (used : Bool) :
    b.edit (k / 8) 1 (·.setbit (k % 8) used) = b.setbit k used := by
  refine ext_get fun j hj => ?_
  rw [get_edit]
  by_cases h : k / 8 ≤ j ∧ j < k / 8 + 1 ∧ j < n
  · obtain rfl : j = k / 8 := by omega
    have h0 : k % 8 / 8 = 0 := by omega
    rw [if_pos h, Nat.sub_self, setbit, setbit, h0, get_set_same _ _ (by decide), get_set_same _ _ hj, get_window,
      if_pos (show 0 < 1 by decide), Nat.add_zero, Nat.mod_mod]
  · rw [if_neg h, get_setbit_ne _ _ (by omega)]

end Buf

end Barnix
