import Barnix.Apps.Paint
import Barnix.Lib.GridLine
/-!
# Lines of the paint program

`dot` and `line` of `paint.c`. The error term of `line` is an `int`, and it is doubled: the run follows
the line of the integers as long as the double fits.
-/

namespace Barnix.Paint

/-- `brush`, which `main` sets to these sizes only. -/
inductive Brush where
  | one
  | three
  | five

/-- `brush/2` -/
def Brush.half : Brush → Int32
  | .one => 1 / 2
  | .three => 3 / 2
  | .five => 5 / 2

/-! ## Dots -/

/-- `for(int i=x-brush/2;i<=x+brush/2;i++)` of the row `j` -/
def rowLoop (ink : UInt8) (j last : Int32) : Nat → Int32 → Cells → Checked Cells
  | 0, _, _ => .error .unfinished
  | rounds + 1, i, pixels =>
    if i ≤ last then do
      let pixels ← if i ≥ 0 ∧ i < 78 ∧ j ≥ 0 ∧ j < 36 then pixels.poke (j * 78 + i).toInt.toNat ink else .ok pixels
      rowLoop ink j last rounds (i + 1) pixels
    else .ok pixels

def columnLoop (b : Brush) (ink : UInt8) (x last : Int32) : Nat → Int32 → Cells → Checked Cells
  | 0, _, _ => .error .unfinished
  | rounds + 1, j, pixels =>
    if j ≤ last then do
      let pixels ← rowLoop ink j (x + b.half) 6 (x - b.half) pixels
      columnLoop b ink x last rounds (j + 1) pixels
    else .ok pixels

/-- A loop takes at most five rounds, or it does not end. -/
def dot (b : Brush) (x y : Int32) (ink : UInt8) (pixels : Cells) : Checked Cells :=
  columnLoop b ink x (y + b.half) 6 (y - b.half) pixels

/-! ## Lines -/

def absint (a : Int32) : Int32 := if a < 0 then -a else a

/-- The constants of a line. -/
structure Slope where
  dx : Int32
  dy : Int32
  sx : Int32
  sy : Int32

def slope (x y endx endy : Int32) : Slope where
  dx := absint (endx - x)
  dy := -absint (endy - y)
  sx := if x < endx then 1 else -1
  sy := if y < endy then 1 else -1

/-- The variables of its loop. -/
structure Pen where
  x : Int32
  y : Int32
  error : Int32

def advance (l : Slope) (s : Pen) : Pen :=
  let twice := 2 * s.error
  let s := if twice ≥ l.dy then { s with error := s.error + l.dy, x := s.x + l.sx } else s
  if twice ≤ l.dx then { s with error := s.error + l.dx, y := s.y + l.sy } else s

/-- The canvas, and the calls of `dot`. -/
def lineLoop (b : Brush) (l : Slope) (endx endy : Int32) (ink : UInt8) : Nat → Pen → Cells → Checked (Cells × List (Int32 × Int32))
  | 0, _, _ => .error .unfinished
  | rounds + 1, s, pixels => do
    let pixels ← dot b s.x s.y ink pixels
    if s.x = endx ∧ s.y = endy then .ok (pixels, [(s.x, s.y)])
    else do
      let (pixels, dots) ← lineLoop b l endx endy ink rounds (advance l s) pixels
      .ok (pixels, (s.x, s.y) :: dots)

def start (x y endx endy : Int32) : Pen := ⟨x, y, (slope x y endx endy).dx + (slope x y endx endy).dy⟩

/-- `line`, with the rounds that its loop may take. -/
def line (b : Brush) (x y endx endy : Int32) (ink : UInt8) (rounds : Nat) (pixels : Cells) : Checked (Cells × List (Int32 × Int32)) :=
  lineLoop b (slope x y endx endy) endx endy ink rounds (start x y endx endy) pixels

/-! ## What a line is -/

/-- A point between the ends whose distance from the ideal segment, along the axis of the shorter side, is
at most half a pixel (times twice the length of the longer side). -/
structure Close (x y endx endy : Int32) (p : Int32 × Int32) : Prop where
  x_mem : min x.toInt endx.toInt ≤ p.1.toInt ∧ p.1.toInt ≤ max x.toInt endx.toInt
  y_mem : min y.toInt endy.toInt ≤ p.2.toInt ∧ p.2.toInt ≤ max y.toInt endy.toInt
  distance : 2 * |(p.2.toInt - y.toInt) * (endx.toInt - x.toInt) - (p.1.toInt - x.toInt) * (endy.toInt - y.toInt)| ≤
    max |endx.toInt - x.toInt| |endy.toInt - y.toInt|

/-- The calls of `dot` that draw a line. -/
structure Segment (x y endx endy : Int32) (dots : List (Int32 × Int32)) : Prop where
  count : (dots.length : Int) = max |endx.toInt - x.toInt| |endy.toInt - y.toInt| + 1
  first : dots.head? = some (x, y)
  last : dots.getLast? = some (endx, endy)
  connected : ∀ n p q, dots[n]? = some p → dots[n + 1]? = some q → |q.1.toInt - p.1.toInt| ≤ 1 ∧ |q.2.toInt - p.2.toInt| ≤ 1
  close : ∀ p ∈ dots, Close x y endx endy p

/-- `line` ends and draws a line. -/
def Draws (b : Brush) (x y endx endy : Int32) (ink : UInt8) (pixels : Cells) : Prop :=
  ∃ rounds pixels' dots, line b x y endx endy ink rounds pixels = .ok (pixels', dots) ∧ Segment x y endx endy dots

/-- The difference does not overflow when it is doubled. -/
def Doubles (a b : Int32) : Prop := -2147483648 ≤ 2 * (b.toInt - a.toInt) ∧ 2 * (b.toInt - a.toInt) ≤ 2147483647

/-- No loop of `dot` runs up to the largest `int`. -/
def Clear (b : Brush) (u v : Int32) : Prop :=
  max u.toInt v.toInt + b.half.toInt < 2147483647 ∨ 2147483647 < min u.toInt v.toInt + b.half.toInt

def side (a b : Int32) : Nat := (b.toInt - a.toInt).natAbs

/-- The doubled error term does not overflow, along a wide and along a steep line. -/
def Fits (x y endx endy : Int32) : Prop :=
  GridLine.peak (side x endx) (side y endy) ≤ if side y endy ≤ side x endx then 2147483647 else 2147483648

/-! ## Dots end -/

theorem toInt_succ {i last : Int32} (hi : i ≤ last) (hlast : last ≠ 2147483647) : (i + 1).toInt = i.toInt + 1 := by
  have hmax : last.toInt ≠ 2147483647 := fun h => hlast (Int32.toInt_inj.1 h)
  have hlow := i.le_toInt
  have hhigh := last.toInt_lt
  rw [Int32.le_iff_toInt_le] at hi
  rw [Int32.toInt_add, Int32.toInt_one, Int.bmod_eq_of_le]
  all_goals omega

theorem toInt_cell {i j : Int32} (h : i ≥ 0 ∧ i < 78 ∧ j ≥ 0 ∧ j < 36) : (j * 78 + i).toInt.toNat < size := by
  obtain ⟨hi, hi', hj, hj'⟩ := h
  rw [ge_iff_le, Int32.le_iff_toInt_le, Int32.toInt_zero] at hi hj
  rw [Int32.lt_iff_toInt_lt] at hi' hj'
  change i.toInt < 78 at hi'
  change j.toInt < 36 at hj'
  have hrow : (j * 78).toInt = j.toInt * 78 := by
    rw [Int32.toInt_mul]
    change (j.toInt * 78).bmod (2 ^ 32) = _
    rw [Int.bmod_eq_of_le]
    all_goals omega
  have hcell : (j * 78 + i).toInt = j.toInt * 78 + i.toInt := by
    rw [Int32.toInt_add, hrow, Int.bmod_eq_of_le]
    all_goals omega
  rw [hcell]
  change _ < 78 * 36
  omega

theorem rowLoop_ok {last : Int32} (hlast : last ≠ 2147483647) (ink : UInt8) (j : Int32) (rounds : Nat) : ∀ (i : Int32) {pixels : Cells},
    last.toInt - i.toInt + 1 < rounds → 0 < rounds → pixels.length = size →
    ∃ pixels', rowLoop ink j last rounds i pixels = .ok pixels' ∧ pixels'.length = size := by
  induction rounds with
  | zero => exact fun _ _ _ h => absurd h (Nat.lt_irrefl 0)
  | succ rounds ih =>
    intro i pixels hrounds _ hsize
    unfold rowLoop
    by_cases hi : i ≤ last
    · have hstep := toInt_succ hi hlast
      have hle := Int32.le_iff_toInt_le.1 hi
      rw [if_pos hi]
      by_cases hin : i ≥ 0 ∧ i < 78 ∧ j ≥ 0 ∧ j < 36
      · rw [if_pos hin, Cells.poke, if_pos (hsize ▸ toInt_cell hin), ok_bind]
        apply ih (i + 1) (by omega) (by omega)
        rw [List.length_set, hsize]
      · rw [if_neg hin, ok_bind]
        exact ih (i + 1) (by omega) (by omega) hsize
    · rw [if_neg hi]
      exact ⟨pixels, rfl, hsize⟩

theorem span_le (b : Brush) (v : Int32) : (v + b.half).toInt - (v - b.half).toInt + 1 < (6 : Nat) := by
  have hlow := v.le_toInt
  have hhigh := v.toInt_lt
  have hhalf : b.half.toInt = 0 ∨ b.half.toInt = 1 ∨ b.half.toInt = 2 := by cases b <;> decide
  rw [Int32.toInt_add, Int32.toInt_sub, Int.bmod_def, Int.bmod_def]
  split <;> split <;> omega

theorem columnLoop_ok {b : Brush} {x last : Int32} (hx : x + b.half ≠ 2147483647) (hlast : last ≠ 2147483647) (ink : UInt8)
    (rounds : Nat) : ∀ (j : Int32) {pixels : Cells}, last.toInt - j.toInt + 1 < rounds → 0 < rounds → pixels.length = size →
    ∃ pixels', columnLoop b ink x last rounds j pixels = .ok pixels' ∧ pixels'.length = size := by
  induction rounds with
  | zero => exact fun _ _ _ h => absurd h (Nat.lt_irrefl 0)
  | succ rounds ih =>
    intro j pixels hrounds _ hsize
    unfold columnLoop
    by_cases hj : j ≤ last
    · have hstep := toInt_succ hj hlast
      have hle := Int32.le_iff_toInt_le.1 hj
      obtain ⟨pixels', hrow, hsize'⟩ := rowLoop_ok hx ink j 6 (x - b.half) (span_le b x) (by decide) hsize
      rw [if_pos hj, hrow, ok_bind]
      exact ih (j + 1) (by omega) (by omega) hsize'
    · rw [if_neg hj]
      exact ⟨pixels, rfl, hsize⟩

theorem dot_ok {b : Brush} {x y : Int32} (hx : x + b.half ≠ 2147483647) (hy : y + b.half ≠ 2147483647) (ink : UInt8) {pixels : Cells}
    (hsize : pixels.length = size) : ∃ pixels', dot b x y ink pixels = .ok pixels' ∧ pixels'.length = size :=
  columnLoop_ok hx hy ink 6 (y - b.half) (span_le b y) (by decide) hsize

/-- Between clear ends every coordinate is clear. -/
theorem half_ne {b : Brush} {u v w : Int32} (h : Clear b u v) (hlow : min u.toInt v.toInt ≤ w.toInt) (hhigh : w.toInt ≤ max u.toInt v.toInt) :
    w + b.half ≠ 2147483647 := by
  intro heq
  have hlow' := w.le_toInt
  have hhigh' := w.toInt_lt
  have hsum := congrArg Int32.toInt heq
  have hhalf : b.half.toInt = 0 ∨ b.half.toInt = 1 ∨ b.half.toInt = 2 := by cases b <;> decide
  change _ = (2147483647 : Int) at hsum
  rw [Int32.toInt_add, Int.bmod_def] at hsum
  unfold Clear at h
  split at hsum <;> omega

/-! ## A step -/

def sign (a b : Int32) : Int := if a.toInt < b.toInt then 1 else -1

theorem sign_mul_side (a b : Int32) : sign a b * side a b = b.toInt - a.toInt := by
  unfold sign side
  split <;> omega

theorem side_le {a b : Int32} (h : Doubles a b) : side a b ≤ 1073741824 := by
  unfold side
  unfold Doubles at h
  omega

theorem toInt_absint {a b : Int32} (h : Doubles a b) : (absint (b - a)).toInt = side a b := by
  obtain ⟨hlow, hhigh⟩ := h
  have hdiff : (b - a).toInt = b.toInt - a.toInt := by
    rw [Int32.toInt_sub, Int.bmod_eq_of_le]
    all_goals omega
  unfold absint side
  split
  · rename_i hneg
    rw [Int32.lt_iff_toInt_lt, Int32.toInt_zero, hdiff] at hneg
    rw [Int32.toInt_neg, hdiff, Int.bmod_eq_of_le]
    all_goals omega
  · rename_i hpos
    rw [Int32.lt_iff_toInt_lt, Int32.toInt_zero, hdiff] at hpos
    omega

theorem toInt_neg_absint {a b : Int32} (h : Doubles a b) : (-absint (b - a)).toInt = -(side a b : Int) := by
  have hside := side_le h
  rw [Int32.toInt_neg, toInt_absint h, Int.bmod_eq_of_le]
  all_goals omega

/-- A coordinate that has gone `k` cells of its side goes one more. -/
theorem toInt_move {a b c : Int32} {k : Int} (h : c.toInt = a.toInt + sign a b * k) (hlow : 0 ≤ k) (hhigh : k + 1 ≤ side a b) :
    (c + if a < b then 1 else -1).toInt = a.toInt + sign a b * (k + 1) := by
  have ha := a.le_toInt
  have ha' := a.toInt_lt
  have hb := b.le_toInt
  have hb' := b.toInt_lt
  unfold sign at h ⊢
  unfold side at hhigh
  by_cases hlt : a < b
  · have hlt' := Int32.lt_iff_toInt_lt.1 hlt
    rw [if_pos hlt'] at h
    rw [if_pos hlt, if_pos hlt', Int32.toInt_add, Int32.toInt_one, Int.bmod_eq_of_le]
    all_goals omega
  · have hge := mt Int32.lt_iff_toInt_lt.2 hlt
    rw [if_neg hge] at h
    rw [if_neg hlt, if_neg hge, Int32.toInt_add]
    change (c.toInt + -1).bmod (2 ^ 32) = _
    rw [Int.bmod_eq_of_le]
    all_goals omega

theorem move_eq_iff {a b c : Int32} {k : Int} (h : c.toInt = a.toInt + sign a b * k) : c = b ↔ k = side a b := by
  rw [← Int32.toInt_inj, h]
  unfold sign side
  split <;> omega

theorem move_sub_le {a b c c' : Int32} {k k' : Int} (h : c.toInt = a.toInt + sign a b * k) (h' : c'.toInt = a.toInt + sign a b * k')
    (hk : k' = k ∨ k' = k + 1) : |c'.toInt - c.toInt| ≤ 1 := by
  rw [abs_le, h, h']
  unfold sign
  split <;> omega

/-- The pen stands at a cell of the line of the integers. -/
structure At (x y endx endy : Int32) (s : Pen) (p : Int × Int) : Prop where
  column : s.x.toInt = x.toInt + sign x endx * p.1
  row : s.y.toInt = y.toInt + sign y endy * p.2
  error : s.error.toInt = GridLine.error (side x endx) (side y endy) p

section

variable {x y endx endy : Int32}

theorem at_start (hx : Doubles x endx) (hy : Doubles y endy) : At x y endx endy (start x y endx endy) (0, 0) where
  column := by simp [start]
  row := by simp [start]
  error := by
    have hside := side_le hx
    have hside' := side_le hy
    unfold start slope
    rw [Int32.toInt_add, toInt_absint hx, toInt_neg_absint hy, Int.bmod_eq_of_le]
    · unfold GridLine.error GridLine.offset
      omega
    all_goals omega

theorem at_first (hy : Doubles y endy) {s : Pen} {p : Int × Int} (hs : At x y endx endy s p) (hp : 0 ≤ p.1) (hp' : p.1 + 1 ≤ side x endx)
    (hlow : -2147483648 ≤ 2 * GridLine.error (side x endx) (side y endy) p)
    (hhigh : 2 * GridLine.error (side x endx) (side y endy) p ≤ 2147483647) :
    At x y endx endy { s with error := s.error + (slope x y endx endy).dy, x := s.x + (slope x y endx endy).sx } (p.1 + 1, p.2) where
  column := toInt_move hs.column hp hp'
  row := hs.row
  error := by
    have hside := side_le hy
    dsimp only [slope]
    rw [Int32.toInt_add, hs.error, toInt_neg_absint hy, GridLine.error_first, Int.bmod_eq_of_le]
    all_goals omega

theorem at_second (hx : Doubles x endx) {s : Pen} {p : Int × Int} (hs : At x y endx endy s p) (hp : 0 ≤ p.2) (hp' : p.2 + 1 ≤ side y endy)
    (hlow : -2147483648 ≤ GridLine.error (side x endx) (side y endy) p)
    (hhigh : 2 * GridLine.error (side x endx) (side y endy) p ≤ 2147483647) :
    At x y endx endy { s with error := s.error + (slope x y endx endy).dx, y := s.y + (slope x y endx endy).sy } (p.1, p.2 + 1) where
  column := hs.column
  row := toInt_move hs.row hp hp'
  error := by
    have hside := side_le hx
    dsimp only [slope]
    rw [Int32.toInt_add, hs.error, toInt_absint hx, GridLine.error_second, Int.bmod_eq_of_le]
    all_goals omega

theorem at_advance (hx : Doubles x endx) (hy : Doubles y endy) {s : Pen} {p : Int × Int} (hs : At x y endx endy s p)
    (hp : GridLine.Along (side x endx) (side y endy) p)
    (hnext : GridLine.Along (side x endx) (side y endy) (GridLine.next (side x endx) (side y endy) p))
    (hlow : -2147483648 ≤ 2 * GridLine.error (side x endx) (side y endy) p)
    (hhigh : 2 * GridLine.error (side x endx) (side y endy) p ≤ 2147483647) :
    At x y endx endy (advance (slope x y endx endy) s) (GridLine.next (side x endx) (side y endy) p) := by
  have hside := side_le hx
  have hside' := side_le hy
  have htwice : (2 * s.error).toInt = 2 * GridLine.error (side x endx) (side y endy) p := by
    rw [Int32.toInt_mul, hs.error]
    change (2 * _ : Int).bmod (2 ^ 32) = _
    rw [Int.bmod_eq_of_le]
    all_goals omega
  have hfirst : 2 * s.error ≥ (slope x y endx endy).dy ↔ -(side y endy : Int) ≤ 2 * GridLine.error (side x endx) (side y endy) p := by
    rw [ge_iff_le, Int32.le_iff_toInt_le, htwice]
    dsimp only [slope]
    rw [toInt_neg_absint hy]
  have hsecond : 2 * s.error ≤ (slope x y endx endy).dx ↔ 2 * GridLine.error (side x endx) (side y endy) p ≤ side x endx := by
    rw [Int32.le_iff_toInt_le, htwice]
    dsimp only [slope]
    rw [toInt_absint hx]
  have hcolumn := hnext.first.2
  have hrow := hnext.second.2
  unfold GridLine.next at hcolumn hrow ⊢
  unfold advance
  dsimp only at hcolumn hrow ⊢
  by_cases h1 : -(side y endy : Int) ≤ 2 * GridLine.error (side x endx) (side y endy) p
  · rw [if_pos h1] at hcolumn
    have hmoved := at_first hy hs hp.first.1 hcolumn hlow hhigh
    rw [if_pos h1, if_pos (hfirst.2 h1)]
    by_cases h2 : 2 * GridLine.error (side x endx) (side y endy) p ≤ side x endx
    · rw [if_pos h2] at hrow
      rw [if_pos h2, if_pos (hsecond.2 h2)]
      apply at_second hx hmoved hp.second.1 hrow
      · rw [GridLine.error_first]
        omega
      · rw [GridLine.error_first]
        omega
    · rw [if_neg h2, if_neg (mt hsecond.1 h2)]
      exact hmoved
  · have h2 : 2 * GridLine.error (side x endx) (side y endy) p ≤ side x endx := by omega
    rw [if_pos h2] at hrow
    rw [if_neg h1, if_neg (mt hfirst.1 h1), if_pos h2, if_pos (hsecond.2 h2)]
    exact at_second hx hs hp.second.1 hrow (by omega) hhigh

/-! ## The run -/

/-- The pen after `n` rounds. -/
def pen (x y endx endy : Int32) (n : Nat) : Pen := (advance (slope x y endx endy))^[n] (start x y endx endy)

/-- The pen follows the line of the integers while the double of the error term fits. -/
theorem at_pen (hx : Doubles x endx) (hy : Doubles y endy) {n : Nat} (hn : n ≤ max (side x endx) (side y endy))
    (hfits : ∀ k < n, -2147483648 ≤ 2 * GridLine.error (side x endx) (side y endy) (GridLine.point (side x endx) (side y endy) k) ∧
      2 * GridLine.error (side x endx) (side y endy) (GridLine.point (side x endx) (side y endy) k) ≤ 2147483647) :
    At x y endx endy (pen x y endx endy n) (GridLine.point (side x endx) (side y endy) n) := by
  induction n with
  | zero => exact at_start hx hy
  | succ n ih =>
    have hs := ih (by omega) fun k hk => hfits k (by omega)
    have hnext := GridLine.along_point hn
    obtain ⟨hlow, hhigh⟩ := hfits n (Nat.lt_succ_self n)
    rw [pen, Function.iterate_succ_apply']
    rw [GridLine.point_succ] at hnext ⊢
    exact at_advance hx hy hs (GridLine.along_point (Nat.le_of_succ_le hn)) hnext hlow hhigh

theorem fits_error (hx : Doubles x endx) (hy : Doubles y endy) (h : Fits x y endx endy) (n : Nat) :
    -2147483648 ≤ 2 * GridLine.error (side x endx) (side y endy) (GridLine.point (side x endx) (side y endy) n) ∧
      2 * GridLine.error (side x endx) (side y endy) (GridLine.point (side x endx) (side y endy) n) ≤ 2147483647 := by
  have hside := side_le hx
  have hside' := side_le hy
  unfold Fits at h
  by_cases hwide : side y endy ≤ side x endx
  · have herror := GridLine.error_wide hwide n
    rw [if_pos hwide] at h
    omega
  · have herror := GridLine.error_steep (Nat.le_of_not_le hwide) n
    rw [if_neg hwide] at h
    omega

theorem abs_sub_eq_side (a b : Int32) : |b.toInt - a.toInt| = side a b := Int.abs_eq_natAbs _

theorem distance_eq {u v : Int32} {p : Int × Int} (hu : u.toInt = x.toInt + sign x endx * p.1) (hv : v.toInt = y.toInt + sign y endy * p.2) :
    |(v.toInt - y.toInt) * (endx.toInt - x.toInt) - (u.toInt - x.toInt) * (endy.toInt - y.toInt)| =
      |GridLine.offset (side x endx) (side y endy) p| := by
  have hunit : |sign x endx * sign y endy| = 1 := by
    unfold sign
    split <;> split <;> rfl
  have hoffset : (v.toInt - y.toInt) * (endx.toInt - x.toInt) - (u.toInt - x.toInt) * (endy.toInt - y.toInt) =
      sign x endx * sign y endy * GridLine.offset (side x endx) (side y endy) p := by
    rw [hu, hv, ← sign_mul_side x endx, ← sign_mul_side y endy]
    unfold GridLine.offset
    ring
  rw [hoffset, abs_mul, hunit, one_mul]

theorem At.close {s : Pen} {p : Int × Int} (hs : At x y endx endy s p) (hp : GridLine.Along (side x endx) (side y endy) p) :
    Close x y endx endy (s.x, s.y) where
  x_mem := by
    have hcolumn := hs.column
    have hfirst := hp.first
    unfold sign at hcolumn
    unfold side at hfirst
    dsimp only
    split at hcolumn <;> omega
  y_mem := by
    have hrow := hs.row
    have hsecond := hp.second
    unfold sign at hrow
    unfold side at hsecond
    dsimp only
    split at hrow <;> omega
  distance := by
    have hnear := hp.near
    dsimp only
    rw [distance_eq hs.column hs.row, abs_sub_eq_side, abs_sub_eq_side]
    exact hnear

/-- The end is reached in the last round only. -/
theorem At.end_iff {s : Pen} {p : Int × Int} (hs : At x y endx endy s p) :
    s.x = endx ∧ s.y = endy ↔ p = ((side x endx : Int), (side y endy : Int)) := by
  rw [Prod.ext_iff, move_eq_iff hs.column, move_eq_iff hs.row]

theorem Close.clear {b : Brush} (hx : Clear b x endx) (hy : Clear b y endy) {p : Int32 × Int32} (hp : Close x y endx endy p) :
    p.1 + b.half ≠ 2147483647 ∧ p.2 + b.half ≠ 2147483647 :=
  ⟨half_ne hx hp.x_mem.1 hp.x_mem.2, half_ne hy hp.y_mem.1 hp.y_mem.2⟩

/-- A loop whose dots end stops at the first round that has come to the end. -/
theorem lineLoop_eq {b : Brush} {l : Slope} (ink : UInt8) (n : Nat) : ∀ {s : Pen} {pixels : Cells}, pixels.length = size →
    (∀ k ≤ n, ((advance l)^[k] s).x + b.half ≠ 2147483647 ∧ ((advance l)^[k] s).y + b.half ≠ 2147483647) →
    (∀ k ≤ n, ((advance l)^[k] s).x = endx ∧ ((advance l)^[k] s).y = endy ↔ k = n) →
    ∃ pixels', lineLoop b l endx endy ink (n + 1) s pixels =
      .ok (pixels', (List.range (n + 1)).map fun k => (((advance l)^[k] s).x, ((advance l)^[k] s).y)) := by
  induction n with
  | zero =>
    intro s pixels hsize hclear hend
    have hs := hclear 0 (Nat.le_refl 0)
    obtain ⟨pixels', hdot, -⟩ := dot_ok hs.1 hs.2 ink hsize
    refine ⟨pixels', ?_⟩
    have hstop : s.x = endx ∧ s.y = endy := (hend 0 (Nat.le_refl 0)).2 rfl
    rw [Function.iterate_zero_apply] at hdot
    rw [lineLoop, hdot, ok_bind, if_pos hstop]
    rfl
  | succ n ih =>
    intro s pixels hsize hclear hend
    have hs := hclear 0 (Nat.zero_le _)
    obtain ⟨pixels', hdot, hsize'⟩ := dot_ok hs.1 hs.2 ink hsize
    rw [Function.iterate_zero_apply] at hdot
    have hgoes : ¬ (s.x = endx ∧ s.y = endy) := fun h => absurd ((hend 0 (Nat.zero_le _)).1 h) (Nat.succ_ne_zero n).symm
    obtain ⟨pixels'', hloop⟩ := @ih (advance l s) pixels' hsize' (fun k hk => hclear (k + 1) (Nat.succ_le_succ hk))
      (fun k hk => (hend (k + 1) (Nat.succ_le_succ hk)).trans Nat.succ_inj)
    refine ⟨pixels'', ?_⟩
    rw [lineLoop, hdot, ok_bind, if_neg hgoes, hloop, ok_bind, @List.range_succ_eq_map (n + 1), List.map_cons, List.map_map]
    rfl

/-- The points of the line of the integers, under the pen. -/
theorem segment_pen (hend : ∀ k ≤ max (side x endx) (side y endy), At x y endx endy (pen x y endx endy k) (GridLine.point (side x endx) (side y endy) k)) :
    Segment x y endx endy ((List.range (max (side x endx) (side y endy) + 1)).map fun k => ((pen x y endx endy k).x, (pen x y endx endy k).y)) where
  count := by
    rw [List.length_map, List.length_range, abs_sub_eq_side, abs_sub_eq_side]
    push_cast
    rfl
  first := by
    rw [List.range_succ_eq_map]
    rfl
  last := by
    have hlast := (hend _ (Nat.le_refl _)).end_iff.2 ((GridLine.point_eq_end_iff (Nat.le_refl _)).2 rfl)
    rw [List.range_succ, List.map_append, List.map_singleton, List.getLast?_concat, hlast.1, hlast.2]
  connected := by
    intro n p q hp hq
    rw [List.getElem?_map, Option.map_eq_some_iff] at hp hq
    obtain ⟨k, hk, rfl⟩ := hp
    obtain ⟨k', hk', rfl⟩ := hq
    obtain ⟨hlt, rfl⟩ := List.getElem?_eq_some_iff.1 hk
    obtain ⟨hlt', rfl⟩ := List.getElem?_eq_some_iff.1 hk'
    rw [List.length_range] at hlt'
    rw [List.getElem_range, List.getElem_range]
    have hs := hend n (by omega)
    have hs' := hend (n + 1) (by omega)
    have hstep := GridLine.next_sub (D := side x endx) (E := side y endy) (GridLine.point (side x endx) (side y endy) n)
    rw [← GridLine.point_succ] at hstep
    exact ⟨move_sub_le hs.column hs'.column hstep.1, move_sub_le hs.row hs'.row hstep.2⟩
  close := by
    intro p hp
    obtain ⟨k, hk, rfl⟩ := List.mem_map.1 hp
    have hk' := Nat.le_of_lt_succ (List.mem_range.1 hk)
    exact (hend k hk').close (GridLine.along_point hk')

theorem draws_of_fits {b : Brush} (hx : Doubles x endx) (hy : Doubles y endy) (hclear : Clear b x endx) (hclear' : Clear b y endy) (ink : UInt8)
    {pixels : Cells} (hsize : pixels.length = size) (h : Fits x y endx endy) : Draws b x y endx endy ink pixels := by
  have hat : ∀ k ≤ max (side x endx) (side y endy), At x y endx endy (pen x y endx endy k) (GridLine.point (side x endx) (side y endy) k) :=
    fun k hk => at_pen hx hy hk fun j _ => fits_error hx hy h j
  obtain ⟨pixels', hloop⟩ := lineLoop_eq ink (max (side x endx) (side y endy)) hsize
    (fun k hk => ((hat k hk).close (GridLine.along_point hk)).clear hclear hclear')
    (fun k hk => (hat k hk).end_iff.trans (GridLine.point_eq_end_iff hk))
  exact ⟨_, pixels', _, hloop, segment_pen hat⟩

/-! ## Overflow -/

theorem lineLoop_dots {b : Brush} {l : Slope} {ink : UInt8} (rounds : Nat) : ∀ {s : Pen} {pixels pixels' : Cells} {dots : List (Int32 × Int32)},
    lineLoop b l endx endy ink rounds s pixels = .ok (pixels', dots) →
    ∀ n, (∀ k < n, ¬ (((advance l)^[k] s).x = endx ∧ ((advance l)^[k] s).y = endy)) →
      dots[n]? = some (((advance l)^[n] s).x, ((advance l)^[n] s).y) := by
  induction rounds with
  | zero => exact fun h => nomatch h
  | succ rounds ih =>
    intro s pixels pixels' dots h n hgoes
    rw [lineLoop] at h
    obtain ⟨painted, -, h⟩ := bind_eq_ok h
    cases n with
    | zero =>
      split at h
      · obtain ⟨-, rfl⟩ := Prod.mk.inj (Except.ok.inj h)
        rfl
      · obtain ⟨⟨rest, more⟩, -, h⟩ := bind_eq_ok h
        obtain ⟨-, rfl⟩ := Prod.mk.inj (Except.ok.inj h)
        rfl
    | succ n =>
      have hs : ¬ (s.x = endx ∧ s.y = endy) := hgoes 0 (Nat.succ_pos n)
      rw [if_neg hs] at h
      obtain ⟨⟨rest, more⟩, hloop, h⟩ := bind_eq_ok h
      obtain ⟨-, rfl⟩ := Prod.mk.inj (Except.ok.inj h)
      exact ih hloop n fun k hk => hgoes (k + 1) (Nat.succ_lt_succ hk)

/-- A coordinate that stays between the ends has not wrapped. -/
theorem toInt_move_of_mem {a b c : Int32} {k : Int} (hab : Doubles a b) (h : c.toInt = a.toInt + sign a b * k) (hlow : 0 ≤ k) (hhigh : k ≤ side a b)
    (hmem : min a.toInt b.toInt ≤ (c + if a < b then 1 else -1).toInt ∧ (c + if a < b then 1 else -1).toInt ≤ max a.toInt b.toInt) :
    (c + if a < b then 1 else -1).toInt = a.toInt + sign a b * (k + 1) := by
  by_cases hmore : k + 1 ≤ side a b
  · exact toInt_move h hlow hmore
  exfalso
  have hc : c = b := (move_eq_iff h).2 (by omega)
  have hb := b.le_toInt
  have hb' := b.toInt_lt
  rw [hc] at hmem
  unfold Doubles at hab
  by_cases hlt : a < b
  · have hlt' := Int32.lt_iff_toInt_lt.1 hlt
    rw [if_pos hlt, Int32.toInt_add, Int32.toInt_one, Int.bmod_def] at hmem
    split at hmem <;> omega
  · have hge := mt Int32.lt_iff_toInt_lt.2 hlt
    rw [if_neg hlt, Int32.toInt_add] at hmem
    change _ ≤ (b.toInt + -1).bmod (2 ^ 32) ∧ (b.toInt + -1).bmod (2 ^ 32) ≤ _ at hmem
    rw [Int.bmod_def] at hmem
    split at hmem <;> omega

theorem abs_le_iff_mul {a m : Int} : 2 * |a| ≤ m ↔ -m ≤ 2 * a ∧ 2 * a ≤ m := by
  rw [← abs_le, abs_mul, abs_two]

/-- Where the double wraps on a wide line, the pen moves along the shorter side only. -/
theorem not_close_wide (hx : Doubles x endx) (hy : Doubles y endy) (hwide : side y endy ≤ side x endx) {s : Pen} {p : Int × Int}
    (hs : At x y endx endy s p) (hp : GridLine.Along (side x endx) (side y endy) p)
    (hover : 2147483647 < 2 * GridLine.error (side x endx) (side y endy) p) :
    ¬ Close x y endx endy ((advance (slope x y endx endy) s).x, (advance (slope x y endx endy) s).y) := by
  have hside := side_le hx
  have hnear := hp.near
  rw [max_eq_left (Int.ofNat_le.2 hwide), abs_le_iff_mul] at hnear
  have htwice : (2 * s.error).toInt = 2 * GridLine.error (side x endx) (side y endy) p - 4294967296 := by
    rw [Int32.toInt_mul, hs.error]
    change (2 * _ : Int).bmod (2 ^ 32) = _
    unfold GridLine.error at hover ⊢
    rw [Int.bmod_def]
    split <;> omega
  have hfirst : ¬ 2 * s.error ≥ (slope x y endx endy).dy := by
    rw [ge_iff_le, Int32.le_iff_toInt_le, htwice]
    dsimp only [slope]
    rw [toInt_neg_absint hy]
    unfold GridLine.error
    omega
  have hsecond : 2 * s.error ≤ (slope x y endx endy).dx := by
    rw [Int32.le_iff_toInt_le, htwice]
    dsimp only [slope]
    rw [toInt_absint hx]
    unfold GridLine.error
    omega
  unfold advance
  dsimp only
  rw [if_neg hfirst, if_pos hsecond]
  intro hclose
  have hrow := toInt_move_of_mem hy hs.row hp.second.1 hp.second.2 hclose.y_mem
  have hdistance := hclose.distance
  dsimp only [slope] at hdistance
  rw [@distance_eq x y endx endy s.x _ (p.1, p.2 + 1) hs.column hrow, abs_sub_eq_side, abs_sub_eq_side, max_eq_left (Int.ofNat_le.2 hwide),
    GridLine.offset_second, abs_le_iff_mul] at hdistance
  unfold GridLine.error at hover
  omega

theorem not_close_steep (hx : Doubles x endx) (hy : Doubles y endy) (hsteep : side x endx ≤ side y endy) {s : Pen} {p : Int × Int}
    (hs : At x y endx endy s p) (hp : GridLine.Along (side x endx) (side y endy) p)
    (hover : 2 * GridLine.error (side x endx) (side y endy) p < -2147483648) :
    ¬ Close x y endx endy ((advance (slope x y endx endy) s).x, (advance (slope x y endx endy) s).y) := by
  have hside := side_le hy
  have hnear := hp.near
  rw [max_eq_right (Int.ofNat_le.2 hsteep), abs_le_iff_mul] at hnear
  have htwice : (2 * s.error).toInt = 2 * GridLine.error (side x endx) (side y endy) p + 4294967296 := by
    rw [Int32.toInt_mul, hs.error]
    change (2 * _ : Int).bmod (2 ^ 32) = _
    unfold GridLine.error at hover ⊢
    rw [Int.bmod_def]
    split <;> omega
  have hfirst : 2 * s.error ≥ (slope x y endx endy).dy := by
    rw [ge_iff_le, Int32.le_iff_toInt_le, htwice]
    dsimp only [slope]
    rw [toInt_neg_absint hy]
    unfold GridLine.error
    omega
  have hsecond : ¬ 2 * s.error ≤ (slope x y endx endy).dx := by
    rw [Int32.le_iff_toInt_le, htwice]
    dsimp only [slope]
    rw [toInt_absint hx]
    unfold GridLine.error
    omega
  unfold advance
  dsimp only
  rw [if_pos hfirst, if_neg hsecond]
  intro hclose
  have hcolumn := toInt_move_of_mem hx hs.column hp.first.1 hp.first.2 hclose.x_mem
  have hdistance := hclose.distance
  dsimp only [slope] at hdistance
  rw [@distance_eq x y endx endy _ s.y (p.1 + 1, p.2) hcolumn hs.row, abs_sub_eq_side, abs_sub_eq_side, max_eq_right (Int.ofNat_le.2 hsteep),
    GridLine.offset_first, abs_le_iff_mul] at hdistance
  unfold GridLine.error at hover
  omega

/-- The round after the first overflow leaves the line. -/
theorem not_draws {b : Brush} (hx : Doubles x endx) (hy : Doubles y endy) {ink : UInt8} {pixels : Cells} {n : Nat}
    (hn : n < max (side x endx) (side y endy))
    (hfits : ∀ k < n, -2147483648 ≤ 2 * GridLine.error (side x endx) (side y endy) (GridLine.point (side x endx) (side y endy) k) ∧
      2 * GridLine.error (side x endx) (side y endy) (GridLine.point (side x endx) (side y endy) k) ≤ 2147483647)
    (hleaves : ∀ s, At x y endx endy s (GridLine.point (side x endx) (side y endy) n) →
      ¬ Close x y endx endy ((advance (slope x y endx endy) s).x, (advance (slope x y endx endy) s).y)) :
    ¬ Draws b x y endx endy ink pixels := by
  rintro ⟨rounds, pixels', dots, hline, hsegment⟩
  have hat : ∀ k ≤ n, At x y endx endy (pen x y endx endy k) (GridLine.point (side x endx) (side y endy) k) :=
    fun k hk => at_pen hx hy (by omega) fun j hj => hfits j (by omega)
  have hdots := lineLoop_dots rounds hline (n + 1) fun k hk hend => by
    have hstop := (GridLine.point_eq_end_iff (show k ≤ max (side x endx) (side y endy) by omega)).1 ((hat k (by omega)).end_iff.1 hend)
    omega
  rw [Function.iterate_succ_apply'] at hdots
  exact hleaves _ (hat n (Nat.le_refl n)) (hsegment.close _ (List.mem_of_getElem? hdots))

theorem fits_of_draws {b : Brush} (hx : Doubles x endx) (hy : Doubles y endy) {ink : UInt8} {pixels : Cells}
    (h : Draws b x y endx endy ink pixels) : Fits x y endx endy := by
  have hside := side_le hx
  have hside' := side_le hy
  by_contra hover
  unfold Fits at hover
  by_cases hwide : side y endy ≤ side x endx
  · rw [if_pos hwide] at hover
    have hpos : 0 < side x endx := by
      apply Nat.pos_of_ne_zero
      intro hzero
      have hzero' : side y endy = 0 := by omega
      rw [hzero, hzero'] at hover
      exact hover (by decide)
    have hreached : ∃ n, n < side x endx ∧ 2147483647 < 2 * GridLine.error (side x endx) (side y endy) (GridLine.point (side x endx) (side y endy) n) := by
      obtain ⟨n, hn, hpeak⟩ := GridLine.peak_attained hpos hwide
      exact ⟨n, hn, by omega⟩
    obtain ⟨hn, hwraps⟩ := Nat.find_spec hreached
    have hbefore := fun k (hk : k < Nat.find hreached) => Nat.find_min hreached hk
    generalize Nat.find hreached = n at hn hwraps hbefore
    rw [← max_eq_left hwide] at hn
    refine not_draws hx hy hn (fun k hk => ?_) (fun s hs => not_close_wide hx hy hwide hs (GridLine.along_point hn.le) hwraps) h
    have herror := GridLine.error_wide hwide k
    have hfits := hbefore k hk
    omega
  · have hsteep := Nat.le_of_not_le hwide
    rw [if_neg hwide] at hover
    have hreached : ∃ n, n < side y endy ∧ 2 * GridLine.error (side x endx) (side y endy) (GridLine.point (side x endx) (side y endy) n) < -2147483648 := by
      obtain ⟨n, hn, hpeak⟩ := GridLine.peak_attained_steep (by omega) hsteep
      exact ⟨n, hn, by omega⟩
    obtain ⟨hn, hwraps⟩ := Nat.find_spec hreached
    have hbefore := fun k (hk : k < Nat.find hreached) => Nat.find_min hreached hk
    generalize Nat.find hreached = n at hn hwraps hbefore
    rw [← max_eq_right hsteep] at hn
    refine not_draws hx hy hn (fun k hk => ?_) (fun s hs => not_close_steep hx hy hsteep hs (GridLine.along_point hn.le) hwraps) h
    have herror := GridLine.error_steep hsteep k
    have hfits := hbefore k hk
    omega

/-- A line is drawn exactly when no double of its error term overflows. -/
theorem draws_iff_fits {b : Brush} (hx : Doubles x endx) (hy : Doubles y endy) (hclear : Clear b x endx) (hclear' : Clear b y endy) (ink : UInt8)
    {pixels : Cells} (hsize : pixels.length = size) : Draws b x y endx endy ink pixels ↔ Fits x y endx endy :=
  ⟨fits_of_draws hx hy, draws_of_fits hx hy hclear hclear' ink hsize⟩

theorem draws_iff_fits_small : Draws .one 0 0 7 3 1 (List.replicate size 0) ↔ Fits 0 0 7 3 :=
  draws_iff_fits ⟨by decide, by decide⟩ ⟨by decide, by decide⟩ (.inl (by decide)) (.inl (by decide)) 1 List.length_replicate

/-- In the middle of this line the error term is about three quarters of the largest `int`. -/
theorem line_overflows : Doubles 0 1073741823 ∧ Doubles 0 1 ∧ Clear .one 0 1073741823 ∧ Clear .one 0 1 ∧
    ¬ Draws .one 0 0 1073741823 1 1 (List.replicate size 0) := by
  have hx : Doubles 0 1073741823 := ⟨by decide, by decide⟩
  have hy : Doubles 0 1 := ⟨by decide, by decide⟩
  refine ⟨hx, hy, .inl (by decide), .inl (by decide), fun h => ?_⟩
  exact absurd (fits_of_draws hx hy h) (by unfold Fits; decide)

/-- A third of the range is enough for the sides. -/
theorem fits_of_sides (h : 3 * max (side x endx) (side y endy) ≤ 2147483647) : Fits x y endx endy := by
  have hpeak := GridLine.peak_le (side x endx) (side y endy)
  unfold Fits
  split <;> omega

/-- The lines that `main` draws: both ends lie on the canvas. -/
theorem draws_on_canvas (b : Brush) (hx : 0 ≤ x.toInt ∧ x.toInt < width) (hy : 0 ≤ y.toInt ∧ y.toInt < height)
    (hendx : 0 ≤ endx.toInt ∧ endx.toInt < width) (hendy : 0 ≤ endy.toInt ∧ endy.toInt < height) (ink : UInt8) {pixels : Cells}
    (hsize : pixels.length = size) : Draws b x y endx endy ink pixels := by
  have hwidth : width = 78 := rfl
  have hheight : height = 36 := rfl
  have hhalf : b.half.toInt = 0 ∨ b.half.toInt = 1 ∨ b.half.toInt = 2 := by cases b <;> decide
  apply draws_of_fits ⟨by omega, by omega⟩ ⟨by omega, by omega⟩ (.inl (by omega)) (.inl (by omega)) ink hsize
  apply fits_of_sides
  unfold side
  omega

end

end Barnix.Paint
