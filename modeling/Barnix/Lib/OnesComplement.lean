import Mathlib.Data.Nat.ModEq
/-!
# One's complement sums

Addition with an end-around carry, on the numbers up to `m`, which is all ones. A
sum is all ones exactly when the ordinary sum is a multiple of `m` other than zero.
-/

namespace Barnix

/-- Addition whose carry comes in again at the other end. -/
def endAround (m a b : Nat) : Nat := if m < a + b then a + b - m else a + b

def onesSum (m : Nat) (l : List Nat) : Nat := l.foldl (endAround m) 0

variable {m : Nat}

theorem endAround_le {a b : Nat} (ha : a ≤ m) (hb : b ≤ m) : endAround m a b ≤ m := by
  unfold endAround
  split <;> omega

theorem endAround_modEq (a b : Nat) : endAround m a b ≡ a + b [MOD m] := by
  unfold endAround
  split
  · rename_i h
    exact ((Nat.modEq_iff_dvd' (by omega)).2 ⟨1, by omega⟩)
  · rfl

theorem endAround_eq_zero {a b : Nat} : endAround m a b = 0 ↔ a + b = 0 := by
  unfold endAround
  split <;> omega

/-- What a one's complement sum keeps of the ordinary one. -/
structure Folds (m n r : Nat) : Prop where
  le : r ≤ m
  modEq : r ≡ n [MOD m]
  zero : r = 0 ↔ n = 0

theorem Folds.foldl {l : List Nat} (hl : ∀ w ∈ l, w ≤ m) {n r : Nat} (h : Folds m n r) :
    Folds m (l.foldl (· + ·) n) (l.foldl (endAround m) r) := by
  induction l generalizing n r with
  | nil => exact h
  | cons w l ih =>
    refine ih (fun v hv => hl v (List.mem_cons_of_mem _ hv)) ⟨endAround_le h.le (hl w (List.mem_cons_self ..)), ?_, ?_⟩
    · exact (endAround_modEq r w).trans (h.modEq.add_right w)
    · rw [endAround_eq_zero]
      have := h.zero
      dsimp only
      omega

theorem folds_onesSum {l : List Nat} (hl : ∀ w ∈ l, w ≤ m) : Folds m (l.foldl (· + ·) 0) (onesSum m l) :=
  Folds.foldl hl ⟨Nat.zero_le _, rfl, Iff.rfl⟩

/-- The folded sum is determined. -/
theorem Folds.eq {n r : Nat} (h : Folds m n r) (hn : 0 < n) : r = (n - 1) % m + 1 := by
  have hr : 0 < r := Nat.pos_of_ne_zero fun h0 => by
    have := h.zero.1 h0
    omega
  have hmod : (r - 1) % m = (n - 1) % m := by
    have hsucc : r - 1 + 1 ≡ n - 1 + 1 [MOD m] := by
      rw [Nat.sub_add_cancel hr, Nat.sub_add_cancel hn]
      exact h.modEq
    exact Nat.ModEq.add_right_cancel' 1 hsucc
  have hle := h.le
  rw [Nat.mod_eq_of_lt (by omega)] at hmod
  omega

theorem Folds.eq_allOnes_iff {n r : Nat} (hm : 0 < m) (h : Folds m n r) : r = m ↔ 0 < n ∧ m ∣ n := by
  constructor
  · rintro rfl
    refine ⟨Nat.pos_of_ne_zero fun h0 => ?_, ?_⟩
    · have := h.zero.2 h0
      omega
    · exact (Nat.modEq_zero_iff_dvd.1 (h.modEq.symm.trans (by simp [Nat.ModEq])))
  · rintro ⟨hn, k, rfl⟩
    rw [h.eq hn]
    have hk : 0 < k := Nat.pos_of_mul_pos_left hn
    obtain ⟨k, rfl⟩ := Nat.exists_eq_add_one.2 hk
    have hsplit : m * (k + 1) - 1 = m * k + (m - 1) := by
      rw [Nat.mul_add_one]
      omega
    rw [hsplit, Nat.mul_add_mod, Nat.mod_eq_of_lt (by omega)]
    omega

end Barnix
