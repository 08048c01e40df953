import Mathlib.Algebra.Order.Group.Abs
import Mathlib.Algebra.Order.Ring.Abs
import Mathlib.Data.Int.GCD
import Mathlib.Logic.Function.Iterate
import Mathlib.Tactic.Linarith
import Mathlib.Tactic.LinearCombination
import Mathlib.Tactic.Ring
/-!
# Lines on a grid

A line from the origin to the cell `(D, E)`, by the error term that has no divisions: from each cell one
goes on along one axis or both. The run takes as many steps as the longer side has cells and stays
within half a cell of the line. How large the error term becomes depends on the greatest common divisor
of the sides.
-/

namespace Barnix.GridLine

variable (D E : Nat)

/-- How far a cell lies beside the line, times the length of the longer side. -/
def offset (p : Int × Int) : Int := p.2 * D - p.1 * E

def error (p : Int × Int) : Int := offset D E p + D - E

def next (p : Int × Int) : Int × Int :=
  (if -(E : Int) ≤ 2 * error D E p then p.1 + 1 else p.1, if 2 * error D E p ≤ D then p.2 + 1 else p.2)

/-- The cell after `n` steps. -/
def point (n : Nat) : Int × Int := (next D E)^[n] (0, 0)

/-- The largest double of the error term, for a line that is not steep. -/
def peak : Nat := 2 * (D.gcd E * (max D E / (2 * D.gcd E))) + 2 * (max D E - min D E)

theorem peak_le : peak D E ≤ 3 * max D E := by
  have hhalf : 2 * D.gcd E * (max D E / (2 * D.gcd E)) ≤ max D E := Nat.mul_div_le _ _
  rw [Nat.mul_assoc] at hhalf
  unfold peak
  omega

variable {D E}

theorem point_succ (n : Nat) : point D E (n + 1) = next D E (point D E n) := Function.iterate_succ_apply' _ n _

theorem next_sub (p : Int × Int) :
    ((next D E p).1 = p.1 ∨ (next D E p).1 = p.1 + 1) ∧ ((next D E p).2 = p.2 ∨ (next D E p).2 = p.2 + 1) := by
  unfold next
  dsimp only
  constructor
  · split
    · exact .inr rfl
    · exact .inl rfl
  · split
    · exact .inr rfl
    · exact .inl rfl

theorem offset_first (p : Int × Int) : offset D E (p.1 + 1, p.2) = offset D E p - E := by
  unfold offset
  ring

theorem offset_second (p : Int × Int) : offset D E (p.1, p.2 + 1) = offset D E p + D := by
  unfold offset
  ring

theorem error_first (p : Int × Int) : error D E (p.1 + 1, p.2) = error D E p - E := by
  unfold error offset
  ring

theorem error_second (p : Int × Int) : error D E (p.1, p.2 + 1) = error D E p + D := by
  unfold error offset
  ring

/-! ## The other axis -/

theorem offset_swap (p : Int × Int) : offset E D p.swap = -offset D E p := by
  unfold offset
  dsimp only [Prod.swap]
  ring

theorem error_swap (p : Int × Int) : error E D p.swap = -error D E p := by
  unfold error
  rw [offset_swap]
  ring

theorem next_swap (p : Int × Int) : next E D p.swap = (next D E p).swap := by
  have hfirst : -(D : Int) ≤ 2 * -error D E p ↔ 2 * error D E p ≤ D := by omega
  have hsecond : 2 * -error D E p ≤ (E : Int) ↔ -(E : Int) ≤ 2 * error D E p := by omega
  unfold next
  rw [error_swap]
  simp only [hfirst, hsecond]
  rfl

theorem point_swap (n : Nat) : point E D n = (point D E n).swap := by
  induction n with
  | zero => rfl
  | succ n ih => rw [point_succ, point_succ, ih, next_swap]

theorem peak_swap : peak E D = peak D E := by
  unfold peak
  rw [Nat.gcd_comm, max_comm, min_comm]

/-! ## Along the longer side -/

/-- Beside the line, nearer to it than to its neighbour above. -/
def Beside (D E : Nat) (p : Int × Int) : Prop := -(D : Int) < 2 * offset D E p ∧ 2 * offset D E p ≤ D

theorem beside_next (h : E ≤ D) {p : Int × Int} (hp : Beside D E p) : (next D E p).1 = p.1 + 1 ∧ Beside D E (next D E p) := by
  obtain ⟨hlow, hhigh⟩ := hp
  have hfirst : -(E : Int) ≤ 2 * error D E p := by
    unfold error
    omega
  unfold next
  rw [if_pos hfirst]
  refine ⟨rfl, ?_⟩
  unfold Beside
  by_cases hsecond : 2 * error D E p ≤ D
  · have hoffset : offset D E (p.1 + 1, p.2 + 1) = offset D E p + D - E := by
      unfold offset
      ring
    rw [if_pos hsecond, hoffset]
    unfold error at hsecond
    omega
  · have hoffset : offset D E (p.1 + 1, p.2) = offset D E p - E := by
      unfold offset
      ring
    rw [if_neg hsecond, hoffset]
    unfold error at hsecond
    omega

theorem beside_point (hpos : 0 < D) (h : E ≤ D) (n : Nat) : (point D E n).1 = n ∧ Beside D E (point D E n) := by
  induction n with
  | zero =>
    refine ⟨rfl, ?_⟩
    unfold Beside offset
    change -(D : Int) < 2 * (0 * D - 0 * E) ∧ 2 * (0 * D - 0 * E) ≤ (D : Int)
    omega
  | succ n ih =>
    obtain ⟨hfirst, hbeside⟩ := ih
    have hnext := beside_next h hbeside
    rw [point_succ]
    refine ⟨?_, hnext.2⟩
    rw [hnext.1, hfirst]
    push_cast
    rfl

/-- The other coordinate keeps to its side. -/
theorem beside_mem (hpos : 0 < D) {p : Int × Int} (hp : Beside D E p) (hlow : 0 ≤ p.1) (hhigh : p.1 ≤ D) :
    0 ≤ p.2 ∧ p.2 ≤ E ∧ (p.1 = D → p.2 = E) := by
  obtain ⟨hbelow, habove⟩ := hp
  unfold offset at hbelow habove
  have hD : (0 : Int) < D := Int.natCast_pos.2 hpos
  have hE : (0 : Int) ≤ E := Int.natCast_nonneg E
  refine ⟨?_, ?_, fun hend => ?_⟩
  · by_contra hneg
    nlinarith [mul_nonneg hlow hE]
  · by_contra hlarge
    nlinarith [mul_le_mul_of_nonneg_right hhigh hE]
  · rw [hend] at hbelow habove
    rcases lt_trichotomy p.2 (E : Int) with hless | heq | hmore
    · nlinarith
    · exact heq
    · nlinarith

theorem gcd_dvd_offset (p : Int × Int) : (D.gcd E : Int) ∣ offset D E p :=
  dvd_sub ((Int.natCast_dvd_natCast.2 (Nat.gcd_dvd_left D E)).mul_left p.2)
    ((Int.natCast_dvd_natCast.2 (Nat.gcd_dvd_right D E)).mul_left p.1)

theorem peak_eq (h : E ≤ D) : peak D E = 2 * (D.gcd E * (D / (2 * D.gcd E))) + 2 * (D - E) := by
  rw [peak, max_eq_left h, min_eq_right h]

theorem error_le_peak (hpos : 0 < D) (h : E ≤ D) {p : Int × Int} (hp : Beside D E p) : 2 * error D E p ≤ peak D E := by
  have hg : 0 < D.gcd E := Nat.gcd_pos_of_pos_left E hpos
  obtain ⟨t, ht⟩ := gcd_dvd_offset (D := D) (E := E) p
  obtain ⟨-, hhigh⟩ := hp
  have hoffset : 2 * offset D E p ≤ (2 * (D.gcd E * (D / (2 * D.gcd E))) : Nat) := by
    rw [ht] at hhigh ⊢
    have hquotient : t ≤ (D / (2 * D.gcd E) : Nat) := by
      rw [Int.natCast_ediv]
      apply Int.le_ediv_of_mul_le (by push_cast; omega)
      push_cast
      linarith
    push_cast at hquotient ⊢
    exact mul_le_mul_of_nonneg_left (mul_le_mul_of_nonneg_left hquotient (Int.natCast_nonneg _)) (by decide)
  rw [peak_eq h, Nat.cast_add, Nat.cast_mul 2 (D - E), Nat.cast_sub h]
  unfold error
  push_cast at hoffset ⊢
  linarith

/-- The offsets of the steps are all multiples of the divisor between the half lengths. -/
theorem peak_attained (hpos : 0 < D) (h : E ≤ D) : ∃ n, n < D ∧ 2 * error D E (point D E n) = peak D E := by
  have hD : (0 : Int) < D := Int.natCast_pos.2 hpos
  have hbezout := Nat.gcd_eq_gcd_ab D E
  generalize hF : D.gcd E * (D / (2 * D.gcd E)) = F
  have hF' : (F : Int) = D.gcd E * (D / (2 * D.gcd E) : Nat) := by rw [← hF, Nat.cast_mul]
  have hhalf : 2 * F ≤ D := by
    rw [← hF, ← Nat.mul_assoc]
    exact Nat.mul_div_le D (2 * D.gcd E)
  generalize ((D / (2 * D.gcd E) : Nat) : Int) = t at hF'
  -- `n` is the residue with `n * E ≡ -F` modulo `D`
  generalize hk : -(D.gcdB E * t) = k
  have hmod := Int.emod_add_mul_ediv k D
  have hlow := Int.emod_nonneg k hD.ne'
  have hhigh := Int.emod_lt_of_pos k hD
  obtain ⟨hfirst, hbelow, habove⟩ := beside_point hpos h (k % D).toNat
  rw [Int.toNat_of_nonneg hlow] at hfirst
  refine ⟨(k % D).toNat, by omega, ?_⟩
  generalize point D E (k % D).toNat = p at hfirst hbelow habove
  have hoffset : offset D E p = F := by
    have hdvd : (D : Int) ∣ offset D E p - F := by
      refine ⟨p.2 - D.gcdA E * t + k / D * E, ?_⟩
      rw [hF', hbezout]
      unfold offset
      rw [hfirst]
      linear_combination (-(E : Int)) * hmod + E * hk
    have hsmall : |offset D E p - F| < D := by
      rw [abs_lt]
      omega
    have hzero := Int.eq_zero_of_abs_lt_dvd hdvd hsmall
    omega
  rw [peak_eq h, hF, Nat.cast_add, Nat.cast_mul, Nat.cast_mul, Nat.cast_sub h]
  unfold error
  rw [hoffset]
  push_cast
  ring

/-! ## Along either side -/

/-- A cell between the ends, within half a cell of the line. -/
structure Along (D E : Nat) (p : Int × Int) : Prop where
  first : 0 ≤ p.1 ∧ p.1 ≤ D
  second : 0 ≤ p.2 ∧ p.2 ≤ E
  near : 2 * |offset D E p| ≤ max (D : Int) E

theorem along_swap {p : Int × Int} (h : Along E D p) : Along D E p.swap where
  first := h.second
  second := h.first
  near := by
    rw [offset_swap, abs_neg, max_comm]
    exact h.near

theorem point_zero : point D E 0 = (0, 0) := rfl

theorem along_wide (h : E ≤ D) {n : Nat} (hn : n ≤ D) : Along D E (point D E n) ∧ (point D E n = ((D : Int), (E : Int)) ↔ n = D) := by
  rcases Nat.eq_zero_or_pos D with rfl | hpos
  · obtain rfl := Nat.le_zero.1 h
    obtain rfl := Nat.le_zero.1 hn
    exact ⟨⟨by decide, by decide, by decide⟩, fun _ => rfl, fun _ => rfl⟩
  obtain ⟨hfirst, hbeside⟩ := beside_point hpos h n
  obtain ⟨hlow, hhigh, hend⟩ := beside_mem hpos hbeside (by omega) (by omega)
  refine ⟨⟨by omega, ⟨hlow, hhigh⟩, ?_⟩, fun heq => ?_, ?_⟩
  · obtain ⟨hbelow, habove⟩ := hbeside
    rw [max_eq_left (Int.ofNat_le.2 h)]
    have hneg := abs_le.2 (show -(D : Int) ≤ 2 * offset D E (point D E n) ∧ _ from ⟨hbelow.le, habove⟩)
    rwa [abs_mul, abs_two] at hneg
  · rw [heq] at hfirst
    exact (Int.ofNat_inj.1 hfirst).symm
  · rintro rfl
    exact Prod.ext hfirst (hend hfirst)

theorem along_point {n : Nat} (hn : n ≤ max D E) : Along D E (point D E n) := by
  rcases Nat.le_total E D with h | h
  · rw [max_eq_left h] at hn
    exact (along_wide h hn).1
  · rw [max_eq_right h] at hn
    rw [point_swap]
    exact along_swap (along_wide h hn).1

/-- The end is reached with the last step and not before. -/
theorem point_eq_end_iff {n : Nat} (hn : n ≤ max D E) : point D E n = ((D : Int), (E : Int)) ↔ n = max D E := by
  rcases Nat.le_total E D with h | h
  · rw [max_eq_left h] at hn ⊢
    exact (along_wide h hn).2
  · rw [max_eq_right h] at hn ⊢
    rw [point_swap, ← (along_wide h hn).2, Prod.swap_eq_iff_eq_swap]
    rfl

theorem error_wide (h : E ≤ D) (n : Nat) : -(D : Int) ≤ 2 * error D E (point D E n) ∧ 2 * error D E (point D E n) ≤ peak D E := by
  rcases Nat.eq_zero_or_pos D with rfl | hpos
  · obtain rfl := Nat.le_zero.1 h
    have hzero : ∀ p, error 0 0 p = 0 := fun p => by simp [error, offset]
    rw [hzero]
    exact ⟨by decide, Int.natCast_nonneg _⟩
  obtain ⟨-, hbeside⟩ := beside_point hpos h n
  refine ⟨?_, error_le_peak hpos h hbeside⟩
  obtain ⟨hbelow, -⟩ := hbeside
  unfold error
  omega

theorem error_steep (h : D ≤ E) (n : Nat) : -(peak D E : Int) ≤ 2 * error D E (point D E n) ∧ 2 * error D E (point D E n) ≤ E := by
  have hwide := error_wide h n
  rw [point_swap, error_swap, peak_swap] at hwide
  omega

theorem peak_attained_steep (hpos : 0 < E) (h : D ≤ E) : ∃ n, n < E ∧ 2 * error D E (point D E n) = -(peak D E : Int) := by
  obtain ⟨n, hn, hpeak⟩ := peak_attained hpos h
  rw [point_swap, error_swap, peak_swap] at hpeak
  exact ⟨n, hn, by omega⟩

end Barnix.GridLine
