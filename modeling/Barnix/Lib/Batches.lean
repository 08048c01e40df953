import Mathlib.Data.List.Basic
/-!
# Reading in batches

A list is read from a position on, into buffers of given capacities. A batch is the
longest run of items that fits the buffer; the next one starts where it ended.
-/

namespace Barnix

section
variable {α : Type} (size : α → Nat)

/-- The first items of a list that fit a buffer together. -/
def batch : Nat → List α → List α
  | _, [] => []
  | c, a :: l => if size a ≤ c then a :: batch (c - size a) l else []

def total : List α → Nat
  | [] => 0
  | a :: l => size a + total l

@[simp] theorem total_nil : total size [] = 0 := rfl

@[simp] theorem total_cons (a : α) (l : List α) : total size (a :: l) = size a + total size l := rfl

theorem batch_isInitial (c : Nat) (l : List α) : batch size c l <+: l := by
  induction l generalizing c with
  | nil => exact List.nil_prefix
  | cons a l ih =>
    unfold batch
    split
    · exact List.prefix_cons_inj a |>.2 (ih _)
    · exact List.nil_prefix

theorem total_batch (c : Nat) (l : List α) : total size (batch size c l) ≤ c := by
  induction l generalizing c with
  | nil => exact Nat.zero_le _
  | cons a l ih =>
    unfold batch
    split
    · rename_i h
      have := ih (c - size a)
      rw [total_cons]
      omega
    · exact Nat.zero_le _

/-- The item after a batch would not have fitted. -/
theorem lt_total_batch (c : Nat) (l : List α) (h : (batch size c l).length < l.length) :
    c < total size (batch size c l) + size l[(batch size c l).length] := by
  induction l generalizing c with
  | nil => exact absurd h (Nat.not_lt_zero _)
  | cons a l ih =>
    unfold batch at h ⊢
    by_cases ha : size a ≤ c
    · simp only [if_pos ha, List.length_cons, total_cons, List.getElem_cons_succ] at h ⊢
      have := ih (c - size a) (by omega)
      omega
    · simp only [if_neg ha, List.length_nil, total_nil, List.getElem_cons_zero]
      omega

theorem batch_eq_take (c : Nat) (l : List α) : batch size c l = l.take (batch size c l).length :=
  List.prefix_iff_eq_take.1 (batch_isInitial size c l)

/-- The batch from position `p` on. -/
def batchAt (l : List α) (c p : Nat) : List α := batch size c (l.drop p)

/-- The position after it. -/
def batchEnd (l : List α) (c p : Nat) : Nat := p + (batchAt size l c p).length

/-- The position after batches for all the capacities. -/
def batchesEnd (l : List α) : List Nat → Nat → Nat
  | [], p => p
  | c :: cs, p => batchesEnd l cs (batchEnd size l c p)

/-- The batches for all the capacities. -/
def batches (l : List α) : List Nat → Nat → List (List α)
  | [], _ => []
  | c :: cs, p => batchAt size l c p :: batches l cs (batchEnd size l c p)

theorem batchEnd_le (l : List α) (c p : Nat) : batchEnd size l c p ≤ max p l.length := by
  have := (batch_isInitial size c (l.drop p)).length_le
  rw [List.length_drop] at this
  unfold batchEnd batchAt
  omega

/-- A batch advances unless there is nothing left or the next item does not fit. -/
theorem batchAt_eq_nil {l : List α} {c p : Nat} : batchAt size l c p = [] ↔ ∀ h : p < l.length, c < size l[p] := by
  unfold batchAt
  by_cases h : p < l.length
  · rw [List.drop_eq_getElem_cons h, batch]
    split
    · exact ⟨nofun, fun hlt => absurd (hlt h) (by omega)⟩
    · exact ⟨fun _ _ => by omega, fun _ => rfl⟩
  · rw [List.drop_of_length_le (Nat.le_of_not_lt h), batch]
    exact ⟨fun _ hp => absurd hp h, fun _ => rfl⟩

/-- What was read is what lies between the positions. -/
theorem batchAt_append (l : List α) (c p : Nat) : batchAt size l c p ++ l.drop (batchEnd size l c p) = l.drop p := by
  unfold batchEnd batchAt
  rw [← List.drop_drop]
  conv_rhs => rw [← List.take_append_drop (batch size c (l.drop p)).length (l.drop p)]
  rw [← batch_eq_take]

theorem batches_append (l : List α) (cs : List Nat) (p : Nat) :
    (batches size l cs p).flatten ++ l.drop (batchesEnd size l cs p) = l.drop p := by
  induction cs generalizing p with
  | nil => rfl
  | cons c cs ih =>
    rw [batches, List.flatten_cons, List.append_assoc, batchesEnd, ih]
    exact batchAt_append size l c p

/-- Nothing is left when a batch was empty although its buffer was large enough. -/
theorem le_of_batchAt_nil {l : List α} {c p : Nat} (hc : ∀ a ∈ l, size a ≤ c) (h : batchAt size l c p = []) : l.length ≤ p := by
  by_contra hp
  have hlt := (batchAt_eq_nil size).1 h (Nat.lt_of_not_le hp)
  exact absurd (hc _ (List.getElem_mem _)) (Nat.not_le_of_lt hlt)

theorem le_batchEnd (l : List α) (c p : Nat) : p ≤ batchEnd size l c p := Nat.le_add_right ..

theorem le_batchesEnd (l : List α) (cs : List Nat) (p : Nat) : p ≤ batchesEnd size l cs p := by
  induction cs generalizing p with
  | nil => exact Nat.le_refl _
  | cons c cs ih => exact Nat.le_trans (le_batchEnd size l c p) (ih _)

end

end Barnix
