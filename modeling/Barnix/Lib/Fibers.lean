import Mathlib.Data.Fintype.Card
import Mathlib.Data.Fintype.Prod
/-!
# Counting references

`f i = some k` says that `i` refers to `k`. The number of indices that refer to
`k` follows every change of `f` at one index.
-/

namespace Barnix

variable {ι κ : Type} [Fintype ι] [DecidableEq ι] [DecidableEq κ]

/-- The indices that refer to `k`. -/
def fiber (f : ι → Option κ) (k : κ) : Finset ι := Finset.univ.filter fun i => f i = some k

@[simp] theorem mem_fiber {f : ι → Option κ} {k : κ} {i : ι} : i ∈ fiber f k ↔ f i = some k := by simp [fiber]

theorem fiber_update_of_ne (f : ι → Option κ) {i : ι} {v : Option κ} {k : κ} (hv : v ≠ some k) :
    fiber (Function.update f i v) k = (fiber f k).erase i := by
  ext j
  rw [mem_fiber, Finset.mem_erase, mem_fiber]
  by_cases hj : j = i
  · subst hj
    simp [hv]
  · simp [hj]

theorem fiber_update_self (f : ι → Option κ) (i : ι) (k : κ) :
    fiber (Function.update f i (some k)) k = insert i (fiber f k) := by
  ext j
  rw [mem_fiber, Finset.mem_insert, mem_fiber]
  by_cases hj : j = i
  · subst hj
    simp
  · simp [hj]

/-- What a change at `i` does to the count of `k`: the old reference goes, the new one comes. -/
theorem card_fiber_update (f : ι → Option κ) (i : ι) (v : Option κ) (k : κ) :
    (fiber (Function.update f i v) k).card + (if f i = some k then 1 else 0) =
      (fiber f k).card + (if v = some k then 1 else 0) := by
  by_cases hv : v = some k
  · subst hv
    rw [fiber_update_self, if_pos rfl]
    by_cases hi : f i = some k
    · rw [Finset.insert_eq_of_mem (mem_fiber.2 hi), if_pos hi]
    · rw [Finset.card_insert_of_notMem (by simpa using hi), if_neg hi]
  · rw [fiber_update_of_ne f hv, if_neg hv]
    by_cases hi : f i = some k
    · rw [if_pos hi]
      exact Finset.card_erase_add_one (mem_fiber.2 hi)
    · rw [Finset.erase_eq_of_notMem (by simpa using hi), if_neg hi]

theorem card_fiber_clear (f : ι → Option κ) (i : ι) (k : κ) :
    (fiber (Function.update f i none) k).card + (if f i = some k then 1 else 0) = (fiber f k).card := by
  rw [card_fiber_update, if_neg nofun]
  rfl

theorem card_fiber_set {f : ι → Option κ} {i : ι} (hi : f i = none) (v : Option κ) (k : κ) :
    (fiber (Function.update f i v) k).card = (fiber f k).card + (if v = some k then 1 else 0) := by
  rw [← card_fiber_update, hi, if_neg nofun]
  rfl

theorem card_fiber_pos {f : ι → Option κ} {k : κ} : 0 < (fiber f k).card ↔ ∃ i, f i = some k := by
  rw [Finset.card_pos]
  constructor
  · rintro ⟨i, hi⟩
    exact ⟨i, mem_fiber.1 hi⟩
  · rintro ⟨i, hi⟩
    exact ⟨i, mem_fiber.2 hi⟩

theorem card_fiber_eq_zero {f : ι → Option κ} {k : κ} : (fiber f k).card = 0 ↔ ∀ i, f i ≠ some k := by
  rw [← Nat.le_zero, ← Nat.not_lt, card_fiber_pos, not_exists]

end Barnix
