import Mathlib.Data.List.Basic
/-!
# Writing into a sequence

Data put into a sequence at a position: what stands there is replaced, and the sequence grows where the
data reaches past its end. Between the old end and a position behind it stands a filler.
-/

namespace Barnix

section Overwrite
variable {α : Type*} (fill : α)

/-- `old` with `data` from `at_` on. -/
def overwrite (old : List α) (at_ : Nat) (data : List α) : List α :=
  (old.take at_).rightpad at_ fill ++ data ++ old.drop (at_ + data.length)

@[simp] theorem length_overwrite (old : List α) (at_ : Nat) (data : List α) :
    (overwrite fill old at_ data).length = max old.length (at_ + data.length) := by
  simp only [overwrite, List.rightpad, List.length_append, List.length_take, List.length_replicate, List.length_drop]
  omega

theorem overwrite_end (old data : List α) : overwrite fill old old.length data = old ++ data := by
  have hdrop : old.drop (old.length + data.length) = [] := List.drop_of_length_le (Nat.le_add_right _ _)
  rw [overwrite, hdrop, List.take_length, List.append_nil, List.rightpad, Nat.sub_self]
  simp

theorem overwrite_whole {old data : List α} (h : old.length ≤ data.length) : overwrite fill old 0 data = data := by
  have hdrop : old.drop (0 + data.length) = [] := List.drop_of_length_le (by omega)
  rw [overwrite, hdrop]
  simp [List.rightpad]

/-- Data that is not empty and goes behind the old end is where the position says only if the position
is the end. -/
theorem overwrite_eq_append_iff {old data : List α} {at_ : Nat} (hdata : data ≠ []) :
    overwrite fill old at_ data = old ++ data ↔ at_ = old.length := by
  refine ⟨fun h => ?_, ?_⟩
  · have hlength := congrArg List.length h
    have hpos := List.length_pos_iff.2 hdata
    rw [length_overwrite, List.length_append] at hlength
    omega
  · rintro rfl
    exact overwrite_end fill old data

theorem overwrite_eq_data_iff {old data : List α} : overwrite fill old 0 data = data ↔ old.length ≤ data.length := by
  refine ⟨fun h => ?_, overwrite_whole fill⟩
  have hlength := congrArg List.length h
  rw [length_overwrite] at hlength
  omega

end Overwrite

end Barnix
