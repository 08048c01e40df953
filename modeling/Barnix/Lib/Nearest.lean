import Mathlib.Data.List.Induction
/-!
# The latest of the deepest

`nearest depth c l` is the element of `l` that a scan ends with when it keeps the
last element satisfying `c` that is at least as deep as the one kept so far.
-/

namespace Barnix

variable {α β : Type} (depth : α → Nat)

/-- One round of the scan. -/
def closerOf (c : α → Bool) (best : Option α) (x : α) : Option α :=
  if c x && best.all fun b => depth b ≤ depth x then some x else best

def nearest (c : α → Bool) (l : List α) : Option α := l.foldl (closerOf depth c) none

variable {depth} {c e : α → Bool} {l : List α}

@[simp] theorem nearest_nil : nearest depth c [] = none := rfl

theorem nearest_concat (l : List α) (x : α) : nearest depth c (l ++ [x]) = closerOf depth c (nearest depth c l) x := by
  simp [nearest]

theorem closerOf_of_false {best : Option α} {x : α} (h : c x = false) : closerOf depth c best x = best := by
  simp [closerOf, h]

theorem nearest_eq_none : nearest depth c l = none ↔ ∀ x ∈ l, c x = false := by
  induction l using List.reverseRecOn with
  | nil => simp
  | append_singleton l x ih =>
    rw [nearest_concat]
    cases hn : nearest depth c l with
    | none =>
      have := ih.1 hn
      cases hx : c x with
      | true => simp [closerOf, hx]
      | false =>
        simp only [closerOf_of_false hx, true_iff, List.mem_append, List.mem_singleton]
        rintro y (hy | rfl)
        · exact this y hy
        · exact hx
    | some b =>
      have hsome : closerOf depth c (some b) x ≠ none := by
        rw [closerOf]
        split <;> simp
      refine ⟨fun h => absurd h hsome, fun h => ?_⟩
      rw [hn] at ih
      exact absurd (ih.2 fun y hy => h y (by simp [hy])) (by simp)

/-- What the scan ends with is in the list, satisfies `c`, and no element that
satisfies `c` is deeper. -/
theorem nearest_spec {b : α} (h : nearest depth c l = some b) :
    b ∈ l ∧ c b = true ∧ ∀ x ∈ l, c x = true → depth x ≤ depth b := by
  induction l using List.reverseRecOn generalizing b with
  | nil => simp at h
  | append_singleton l x ih =>
    rw [nearest_concat, closerOf] at h
    split at h
    · rename_i hx
      obtain rfl : x = b := by simpa using h
      rw [Bool.and_eq_true] at hx
      refine ⟨by simp, hx.1, fun y hy hc => ?_⟩
      rcases List.mem_append.1 hy with hy | hy
      · cases hn : nearest depth c l with
        | none => simp [nearest_eq_none.1 hn y hy] at hc
        | some b =>
          have hyb := (ih hn).2.2 y hy hc
          have hbx : depth b ≤ depth x := by simpa [hn] using hx.2
          omega
      · obtain rfl : y = x := by simpa using hy
        exact Nat.le_refl _
    · rename_i hx
      obtain ⟨hm, hcb, hmax⟩ := ih h
      refine ⟨by simp [hm], hcb, fun y hy hc => ?_⟩
      rcases List.mem_append.1 hy with hy | hy
      · exact hmax y hy hc
      · obtain rfl : y = x := by simpa using hy
        have : depth y < depth b := by simpa [h, hc] using hx
        omega

theorem nearest_congr (h : ∀ x ∈ l, c x = e x) : nearest depth c l = nearest depth e l := by
  induction l using List.reverseRecOn with
  | nil => rfl
  | append_singleton l x ih =>
    rw [nearest_concat, nearest_concat, ih fun y hy => h y (by simp [hy]), closerOf, closerOf, h x (by simp)]

theorem nearest_append_of_false {m : List α} (h : ∀ x ∈ m, c x = false) :
    nearest depth c (l ++ m) = nearest depth c l := by
  induction m using List.reverseRecOn with
  | nil => simp
  | append_singleton m x ih =>
    rw [← List.append_assoc, nearest_concat, ih fun y hy => h y (by simp [hy]), closerOf_of_false (h x (by simp))]

theorem nearest_filter (p : α → Bool) (l : List α) :
    nearest depth c (l.filter p) = nearest depth (fun x => c x && p x) l := by
  induction l using List.reverseRecOn with
  | nil => rfl
  | append_singleton l x ih =>
    rw [List.filter_append, nearest_concat, ← ih]
    cases hp : p x with
    | true => simp [hp, nearest_concat, closerOf]
    | false => simp [hp, closerOf_of_false]

theorem nearest_append_left {m : List α} (h : ∀ x ∈ l, c x = false) :
    nearest depth c (l ++ m) = nearest depth c m := by
  rw [nearest, List.foldl_append]
  change m.foldl _ (nearest depth c l) = _
  rw [nearest_eq_none.2 h, nearest]

/-- Of two lists, the second one wins when it is at least as deep. -/
theorem nearest_append (l m : List α) :
    nearest depth c (l ++ m) =
      match nearest depth c m with
      | none => nearest depth c l
      | some y => if (nearest depth c l).all fun b => depth b ≤ depth y then some y else nearest depth c l := by
  induction m using List.reverseRecOn with
  | nil => simp
  | append_singleton m x ih =>
    rw [← List.append_assoc, nearest_concat, nearest_concat, ih]
    cases hx : c x with
    | false => simp [closerOf_of_false hx]
    | true =>
      cases hm : nearest depth c m with
      | none => simp [closerOf, hx]
      | some y =>
        cases hl : nearest depth c l with
        | none =>
          by_cases hyx : depth y ≤ depth x <;> simp [closerOf, hx, hyx]
        | some b =>
          by_cases hby : depth b ≤ depth y <;> by_cases hyx : depth y ≤ depth x
          · simp [closerOf, hx, hby, hyx, Nat.le_trans hby hyx]
          · simp [closerOf, hx, hby, hyx]
          · simp [closerOf, hx, hby, hyx]
          · have : ¬ depth b ≤ depth x := by omega
            simp [closerOf, hx, hby, hyx, this]

/-- Asking for less keeps the answer that still qualifies. -/
theorem nearest_of_subset {b : α} (h : nearest depth c l = some b) (hb : e b = true)
    (hsub : ∀ x ∈ l, e x = true → c x = true) : nearest depth e l = some b := by
  induction l using List.reverseRecOn generalizing b with
  | nil => simp at h
  | append_singleton l x ih =>
    rw [nearest_concat, closerOf] at h ⊢
    have hsub' : ∀ y ∈ l, e y = true → c y = true := fun y hy => hsub y (by simp [hy])
    split at h
    · rename_i hx
      obtain rfl : x = b := by simpa using h
      rw [Bool.and_eq_true] at hx
      rw [if_pos]
      rw [Bool.and_eq_true]
      refine ⟨hb, ?_⟩
      cases hn : nearest depth e l with
      | none => rfl
      | some y =>
        obtain ⟨hy, hcy, -⟩ := nearest_spec hn
        cases hm : nearest depth c l with
        | none => simpa [nearest_eq_none.1 hm y hy] using hsub' y hy hcy
        | some z =>
          have hyz := (nearest_spec hm).2.2 y hy (hsub' y hy hcy)
          have hzx : depth z ≤ depth x := by simpa [hm] using hx.2
          simpa using Nat.le_trans hyz hzx
    · rename_i hx
      have hn := ih h hb hsub'
      rw [hn, if_neg]
      rw [h] at hx
      cases hx' : e x with
      | false => simp
      | true => simpa [hsub x (by simp) hx'] using hx

/-- A map that keeps `c` and the depths of the elements satisfying it in order
maps what the scan ends with. -/
theorem nearest_map (depth : α → Nat) {depth' : β → Nat} {d : β → Bool} (f : α → β) (hc : ∀ x ∈ l, d (f x) = c x)
    (hle : ∀ x ∈ l, ∀ y ∈ l, c x = true → c y = true → (depth' (f x) ≤ depth' (f y) ↔ depth x ≤ depth y)) :
    nearest depth' d (l.map f) = (nearest depth c l).map f := by
  induction l using List.reverseRecOn with
  | nil => rfl
  | append_singleton l x ih =>
    have ih := ih (fun y hy => hc y (by simp [hy])) fun y hy z hz => hle y (by simp [hy]) z (by simp [hz])
    rw [List.map_append, List.map_singleton, nearest_concat, nearest_concat, ih]
    cases hx : c x with
    | false => rw [closerOf_of_false hx, closerOf_of_false (by rw [hc x (by simp), hx])]
    | true =>
      cases hn : nearest depth c l with
      | none => simp [closerOf, hc x (by simp), hx]
      | some b =>
        obtain ⟨hb, hcb, -⟩ := nearest_spec hn
        have := hle b (by simp [hb]) x (by simp) hcb hx
        by_cases hd : depth b ≤ depth x
        · simp [closerOf, hc x (by simp), hx, hd, this.2 hd]
        · simp [closerOf, hc x (by simp), hx, hd, mt this.1 hd]

/-- When the elements satisfying `d` are the deeper ones, the scan can look for
them first. -/
theorem nearest_split (d : α → Bool)
    (h : ∀ x ∈ l, ∀ y ∈ l, c x = true → c y = true → d x = false → d y = true → depth x < depth y) :
    nearest depth c l =
      (nearest depth (fun x => c x && d x) l).or (nearest depth (fun x => c x && !d x) l) := by
  induction l using List.reverseRecOn with
  | nil => rfl
  | append_singleton l x ih =>
    have ih := ih fun y hy z hz => h y (by simp [hy]) z (by simp [hz])
    simp only [nearest_concat, ih]
    cases hx : c x with
    | false => simp [closerOf_of_false, hx]
    | true =>
      cases hd : d x with
      | true =>
        have hsh : closerOf depth (fun x => c x && !d x) (nearest depth (fun x => c x && !d x) l) x =
            nearest depth (fun x => c x && !d x) l := closerOf_of_false (by simp [hd])
        rw [hsh]
        cases hdeep : nearest depth (fun x => c x && d x) l with
        | some b => simp [closerOf, hx, hd]; split <;> simp
        | none =>
          cases hflat : nearest depth (fun x => c x && !d x) l with
          | none => simp [closerOf, hx, hd]
          | some b =>
            obtain ⟨hb, hcb, -⟩ := nearest_spec hflat
            simp only [Bool.and_eq_true, Bool.not_eq_true'] at hcb
            have := h b (by simp [hb]) x (by simp) hcb.1 hx hcb.2 hd
            simp [closerOf, hx, hd, Nat.le_of_lt this]
      | false =>
        have hdp : closerOf depth (fun x => c x && d x) (nearest depth (fun x => c x && d x) l) x =
            nearest depth (fun x => c x && d x) l := closerOf_of_false (by simp [hd])
        rw [hdp]
        cases hdeep : nearest depth (fun x => c x && d x) l with
        | none => simp [closerOf, hx, hd]
        | some b =>
          obtain ⟨hb, hcb, -⟩ := nearest_spec hdeep
          simp only [Bool.and_eq_true] at hcb
          have := h x (by simp) b (by simp [hb]) hx hcb.1 hd hcb.2
          simp [closerOf, hx, Nat.not_le.2 this]

end Barnix
