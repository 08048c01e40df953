import Barnix.Lib.Bytes
import Mathlib.Data.Nat.ModEq
/-!
# Circular buffers

A buffer of `n` bytes read as a queue: `used` bytes from `head` on, around the
end of the buffer. Bytes are added behind the queue and taken from its front in
pieces that do not cross the end.
-/

namespace Barnix.Buf

variable {n : Nat}

/-- The queue of `used` bytes from `head` on. -/
def around (b : Buf n) (head used : Nat) : List UInt8 := (List.range used).map fun i => b.get ((head + i) % n)

@[simp] theorem length_around (b : Buf n) (head used : Nat) : (b.around head used).length = used := by simp [around]

@[simp] theorem length_read (b : Buf n) (off len : Nat) : (b.read off len).length = len := by simp [read]

@[simp] theorem around_zero (b : Buf n) (head : Nat) : b.around head 0 = [] := rfl

/-- The free bytes behind the queue are no bytes of the queue. -/
theorem around_apart {head used i j : Nat} (hi : i < used) (hj : used + j < n) :
    (head + used) % n + j ≠ (head + i) % n := by
  intro he
  have hmod : head + used + j ≡ head + i [MOD n] := by
    have h : (head + used) % n + j ≡ head + used + j [MOD n] := (Nat.mod_modEq (head + used) n).add_right j
    rw [he] at h
    exact h.symm.trans (Nat.mod_modEq (head + i) n)
  have hdvd : n ∣ head + used + j - (head + i) := (Nat.modEq_iff_dvd' (by omega)).1 hmod.symm
  have hle := Nat.le_of_dvd (by omega) hdvd
  omega

/-- Bytes that are stored behind the queue are its last ones. -/
theorem around_write (b : Buf n) {head used : Nat} {bytes : List UInt8} (hroom : used + bytes.length ≤ n)
    (hend : (head + used) % n + bytes.length ≤ n) :
    (b.write ((head + used) % n) bytes).around head (used + bytes.length) = b.around head used ++ bytes := by
  apply List.ext_getElem (by simp)
  intro i hi hi'
  simp only [length_around] at hi
  simp only [around, List.getElem_map, List.getElem_range, get_write]
  by_cases hlt : i < used
  · rw [List.getElem_append_left (by simpa using hlt), List.getElem_map, List.getElem_range, if_neg]
    rintro ⟨h1, h2, -⟩
    have hapart := @around_apart n head used i ((head + i) % n - (head + used) % n) hlt (by omega)
    omega
  · -- `i` counts from the old end on
    have hpos : (head + i) % n = (head + used) % n + (i - used) := by
      have h : head + i = head + used + (i - used) := by omega
      rw [h, Nat.add_mod, Nat.mod_eq_of_lt (show i - used < n by omega), Nat.mod_eq_of_lt (by omega)]
    rw [List.getElem_append_right (by simpa using hlt), if_pos ⟨by omega, by omega, by omega⟩, hpos]
    simp only [Nat.add_sub_cancel_left, List.length_map, List.length_range]
    rw [List.getD_eq_getElem _ _ (by omega)]

/-- The bytes at `head` are the first ones of the queue. -/
theorem around_read (b : Buf n) {head used k : Nat} (hk : k ≤ used) (hend : head + k ≤ n) :
    b.around head used = b.read head k ++ b.around ((head + k) % n) (used - k) := by
  apply List.ext_getElem (by simp; omega)
  intro i hi hi'
  simp only [length_around] at hi
  by_cases hlt : i < k
  · rw [List.getElem_append_left (by simpa using hlt)]
    simp only [around, read, List.getElem_map, List.getElem_range]
    rw [Nat.mod_eq_of_lt (by omega)]
  · rw [List.getElem_append_right (by simpa using hlt)]
    simp only [around, List.getElem_map, List.getElem_range, length_read]
    rw [Nat.mod_add_mod, show head + k + (i - k) = head + i by omega]

end Barnix.Buf
