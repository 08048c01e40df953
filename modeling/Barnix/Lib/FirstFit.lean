import Mathlib.Data.List.Perm.Subperm
/-!
# First fit

The search for the first aligned place with room for `size` cells, between blocks in
the order of their starts. The search counts its looks: one at every block it steps
over, one at every gap it finds too small, and one at the place it takes.
-/

namespace Barnix

structure Block where
  start : Nat
  stop : Nat
deriving DecidableEq

/-- Rounding up to the next place of a kind. -/
structure RoundsUp (up : Nat → Nat) (aligned : Nat → Prop) : Prop where
  aligned_up : ∀ n, aligned (up n)
  le_up : ∀ n, n ≤ up n
  up_le : ∀ {n m}, aligned m → n ≤ m → up n ≤ m

namespace Block

open scoped List

/-- Room at `place`, below `limit` and beside the blocks. -/
def Fits (limit size : Nat) (blocks : List Block) (place : Nat) : Prop :=
  place + size ≤ limit ∧ ∀ b ∈ blocks, place + size ≤ b.start ∨ b.stop ≤ place

/-- Blocks that share no cell. -/
def Apart (a b : Block) : Prop := a.stop ≤ b.start ∨ b.stop ≤ a.start

theorem Apart.symm {a b : Block} (h : a.Apart b) : b.Apart a := Or.symm h

/-- Blocks below `limit`, one behind the other. -/
def Ordered (limit : Nat) (blocks : List Block) : Prop :=
  (∀ b ∈ blocks, b.start < b.stop ∧ b.stop ≤ limit) ∧ blocks.Pairwise fun a b => a.stop ≤ b.start

/-- The number of looks until there is room, from `place` on. -/
def search (up : Nat → Nat) (limit size : Nat) : Nat → List Block → Option Nat
  | place, [] => if place + size ≤ limit then some 1 else none
  | place, b :: rest =>
    if b.stop ≤ place then search up limit size place rest
    else if b.start ≤ place then (search up limit size (up b.stop) rest).map (· + 1)
    else if place + size ≤ b.start then some 1
    else (search up limit size (up b.stop) rest).map (· + 2)

variable {up : Nat → Nat} {aligned : Nat → Prop} {limit size place : Nat} {b : Block} {rest blocks : List Block}

theorem Ordered.tail (h : Ordered limit (b :: rest)) : Ordered limit rest :=
  ⟨fun c hc => h.1 c (by simp [hc]), h.2.of_cons⟩

theorem Ordered.behind (h : Ordered limit (b :: rest)) {c : Block} (hc : c ∈ rest) : b.stop ≤ c.start :=
  List.rel_of_pairwise_cons h.2 hc

theorem search_skip (h : b.stop ≤ place) : search up limit size place (b :: rest) = search up limit size place rest := by
  rw [search, if_pos h]

theorem search_over (h : b.start ≤ place) (h' : place < b.stop) :
    search up limit size place (b :: rest) = (search up limit size (up b.stop) rest).map (· + 1) := by
  rw [search, if_neg (by omega), if_pos h]

theorem search_take (hb : b.start < b.stop) (h : place < b.start) (h' : place + size ≤ b.start) :
    search up limit size place (b :: rest) = some 1 := by
  rw [search, if_neg (by omega), if_neg (by omega), if_pos h']

theorem search_pass (hb : b.start < b.stop) (h : place < b.start) (h' : b.start < place + size) :
    search up limit size place (b :: rest) = (search up limit size (up b.stop) rest).map (· + 2) := by
  rw [search, if_neg (by omega), if_neg (by omega), if_neg (by omega)]

theorem search_pos {k : Nat} (h : search up limit size place blocks = some k) : 0 < k := by
  induction blocks generalizing place k with
  | nil =>
    rw [search] at h
    split at h
    · cases h
      exact Nat.one_pos
    · cases h
  | cons b rest ih =>
    rw [search] at h
    split at h
    · exact ih h
    split at h
    · obtain ⟨j, -, rfl⟩ := Option.map_eq_some_iff.1 h
      omega
    split at h
    · cases h
      exact Nat.one_pos
    · obtain ⟨j, -, rfl⟩ := Option.map_eq_some_iff.1 h
      omega

/-- At most two looks at every block, and one at the place. -/
theorem search_le {k : Nat} (h : search up limit size place blocks = some k) : k ≤ 2 * blocks.length + 1 := by
  induction blocks generalizing place k with
  | nil =>
    rw [search] at h
    split at h
    · cases h
      exact Nat.le_refl 1
    · cases h
  | cons b rest ih =>
    rw [List.length_cons]
    rw [search] at h
    split at h
    · have := ih h
      omega
    split at h
    · obtain ⟨j, hj, rfl⟩ := Option.map_eq_some_iff.1 h
      have := ih hj
      omega
    split at h
    · cases h
      omega
    · obtain ⟨j, hj, rfl⟩ := Option.map_eq_some_iff.1 h
      have := ih hj
      omega

/-- The search ends with a place exactly when there is one. -/
theorem search_isSome_iff (hup : RoundsUp up aligned) (hsize : 0 < size) (hblocks : Ordered limit blocks) (hplace : aligned place) :
    (search up limit size place blocks).isSome ↔ ∃ s, aligned s ∧ place ≤ s ∧ Fits limit size blocks s := by
  induction blocks generalizing place with
  | nil =>
    rw [search]
    constructor
    · intro h
      split at h
      · rename_i hfit
        exact ⟨place, hplace, Nat.le_refl _, hfit, nofun⟩
      · cases h
    · rintro ⟨s, -, hs, hfit, -⟩
      rw [if_pos (by omega)]
      rfl
  | cons b rest ih =>
    obtain ⟨hb, hlimit⟩ := hblocks.1 b (by simp)
    -- what fits behind `b` fits at or behind the place that its end is rounded up to
    have hbehind : (search up limit size (up b.stop) rest).isSome ↔
        ∃ s, aligned s ∧ b.stop ≤ s ∧ Fits limit size (b :: rest) s := by
      rw [ih hblocks.tail (hup.aligned_up _)]
      constructor
      · rintro ⟨s, ha, hs, hfit⟩
        have hstop := Nat.le_trans (hup.le_up b.stop) hs
        exact ⟨s, ha, hstop, hfit.1, by simpa using ⟨.inr hstop, hfit.2⟩⟩
      · rintro ⟨s, ha, hs, hfit⟩
        exact ⟨s, ha, hup.up_le ha hs, hfit.1, fun c hc => hfit.2 c (by simp [hc])⟩
    by_cases hskip : b.stop ≤ place
    · rw [search_skip hskip, ih hblocks.tail hplace]
      constructor
      · rintro ⟨s, ha, hs, hfit⟩
        exact ⟨s, ha, hs, hfit.1, by simpa using ⟨.inr (Nat.le_trans hskip hs), hfit.2⟩⟩
      · rintro ⟨s, ha, hs, hfit⟩
        exact ⟨s, ha, hs, hfit.1, fun c hc => hfit.2 c (by simp [hc])⟩
    by_cases hover : b.start ≤ place
    · rw [search_over hover (by omega), Option.isSome_map, hbehind]
      constructor
      · rintro ⟨s, ha, hs, hfit⟩
        exact ⟨s, ha, by omega, hfit⟩
      · rintro ⟨s, ha, hs, hfit⟩
        have := hfit.2 b (by simp)
        exact ⟨s, ha, by omega, hfit⟩
    by_cases htake : place + size ≤ b.start
    · rw [search_take hb (by omega) htake]
      refine ⟨fun _ => ⟨place, hplace, Nat.le_refl _, ?_, ?_⟩, fun _ => rfl⟩
      · omega
      · intro c hc
        rcases List.mem_cons.1 hc with rfl | hc
        · exact .inl htake
        · have := hblocks.behind hc
          exact .inl (by omega)
    · rw [search_pass hb (by omega) (by omega), Option.isSome_map, hbehind]
      constructor
      · rintro ⟨s, ha, hs, hfit⟩
        exact ⟨s, ha, by omega, hfit⟩
      · rintro ⟨s, ha, hs, hfit⟩
        have := hfit.2 b (by simp)
        exact ⟨s, ha, by omega, hfit⟩

/-- A block that the search meets, without room in front of it. -/
theorem search_met {k : Nat} (h : search up limit size place (b :: rest) = some k) (hmet : place < b.stop)
    (hroom : ¬ place + size ≤ b.start) :
    ∃ j, search up limit size (up b.stop) rest = some j ∧ k = j + if place < b.start then 2 else 1 := by
  rw [search, if_neg (by omega)] at h
  by_cases hover : b.start ≤ place
  · rw [if_pos hover] at h
    obtain ⟨j, hj, rfl⟩ := Option.map_eq_some_iff.1 h
    exact ⟨j, hj, by rw [if_neg (by omega)]⟩
  · rw [if_neg hover, if_neg hroom] at h
    obtain ⟨j, hj, rfl⟩ := Option.map_eq_some_iff.1 h
    exact ⟨j, hj, by rw [if_pos (by omega)]⟩

/-- More looks than the blocks behind it can take are not made unless the search meets a block. -/
theorem met_of_long {k : Nat} (h : search up limit size place (b :: rest) = some k) (hlong : 2 * rest.length + 1 < k) :
    place < b.stop ∧ (b.start ≤ place ∨ ¬ place + size ≤ b.start) := by
  rw [search] at h
  split at h
  · have := search_le h
    omega
  split at h
  · exact ⟨by omega, .inl ‹_›⟩
  split at h
  · cases h
    omega
  · exact ⟨by omega, .inr ‹_›⟩

theorem Fits.behind {s : Nat} (h : Fits limit size (b :: rest) s) (hs : place ≤ s) (hroom : ¬ place + size ≤ b.start) :
    b.stop ≤ s := by
  have := h.2 b (by simp)
  omega

theorem Fits.tail {s : Nat} (h : Fits limit size (b :: rest) s) : Fits limit size rest s :=
  ⟨h.1, fun c hc => h.2 c (by simp [hc])⟩

/-- Three of at most three blocks are all of them, in the order of their starts. -/
theorem Ordered.eq_three (h : Ordered limit blocks) (hfew : blocks.length ≤ 3) {a b c : Block} (ha : a ∈ blocks) (hb : b ∈ blocks)
    (hc : c ∈ blocks) (hab : a.start < b.start) (hbc : b.start < c.start) : blocks = [a, b, c] := by
  have hnodup : [a, b, c].Nodup := by
    have h1 : a ≠ b := by rintro rfl; omega
    have h2 : a ≠ c := by rintro rfl; omega
    have h3 : b ≠ c := by rintro rfl; omega
    simp [h1, h2, h3]
  have hsub : [a, b, c] ⊆ blocks := by simp [ha, hb, hc]
  have hperm : [a, b, c] ~ blocks := (hnodup.subperm hsub).perm_of_length_le hfew
  refine (List.Perm.eq_of_pairwise (?_ : ∀ x y : Block, x ∈ [a, b, c] → y ∈ blocks → x.start < y.start → y.start < x.start → x = y)
    ?_ ?_ hperm).symm
  · intro x y _ _ hxy hyx
    omega
  · simp [hab, hbc]
    omega
  · refine h.2.imp_of_mem fun {x y} hx _ hxy => ?_
    exact Nat.lt_of_lt_of_le (h.1 x hx).1 hxy

/-- Two of three. -/
def Twice (p q r : Prop) : Prop := (p ∧ q) ∨ (p ∧ r) ∨ (q ∧ r)

/-- Three blocks in the way: the search steps over each of them, passes two gaps that are
too small, and there is room only behind them. -/
def InTheWay (up : Nat → Nat) (aligned : Nat → Prop) (limit size place : Nat) (a b c : Block) : Prop :=
  (place < a.stop ∧ up a.stop < b.stop ∧ up b.stop < c.stop) ∧
    Twice (place < a.start) (up a.stop < b.start) (up b.stop < c.start) ∧
    (∃ s, aligned s ∧ place ≤ s ∧ Fits limit size [a, b, c] s) ∧
    ∀ s, aligned s → place ≤ s → Fits limit size [a, b, c] s → c.stop ≤ s

/-- Among at most three blocks, the search takes more than five looks exactly when there are
three and they are in its way. -/
theorem search_long_iff (hup : RoundsUp up aligned) (hsize : 0 < size) (hblocks : Ordered limit blocks) (hplace : aligned place)
    (hfew : blocks.length ≤ 3) :
    (∃ k, search up limit size place blocks = some k ∧ 5 < k) ↔
      ∃ a b c, blocks = [a, b, c] ∧ InTheWay up aligned limit size place a b c := by
  constructor
  · rintro ⟨k, hk, hlong⟩
    have hle := search_le hk
    obtain ⟨a, b, c, rfl⟩ := List.length_eq_three.1 (show blocks.length = 3 by omega)
    have hroom := (search_isSome_iff hup hsize hblocks hplace).1 (by rw [hk]; rfl)
    -- each block takes at most two of the looks, and the last one is at the place
    obtain ⟨ha, ha'⟩ := met_of_long hk (by simp; omega)
    obtain ⟨j, hj, hkj⟩ := search_met hk ha (by omega)
    obtain ⟨hb, hb'⟩ := met_of_long hj (by simp; split at hkj <;> omega)
    obtain ⟨i, hi, hji⟩ := search_met hj hb (by omega)
    obtain ⟨hc, hc'⟩ := met_of_long hi (by simp; split at hkj <;> split at hji <;> omega)
    obtain ⟨l, hl, hil⟩ := search_met hi hc (by omega)
    have hone := search_le hl
    rw [List.length_nil] at hone
    refine ⟨a, b, c, rfl, ⟨ha, hb, hc⟩, ?_, hroom, fun s hs hps hfit => ?_⟩
    · unfold Twice
      split at hkj <;> split at hji <;> split at hil <;> omega
    · have h1 := hup.up_le hs (hfit.behind hps (by omega))
      have h2 := hup.up_le hs (hfit.tail.behind h1 (by omega))
      exact hfit.tail.tail.behind h2 (by omega)
  · rintro ⟨a, b, c, rfl, ⟨ha, hb, hc⟩, htwice, hroom, hlast⟩
    obtain ⟨k, hk⟩ := Option.isSome_iff_exists.1 ((search_isSome_iff hup hsize hblocks hplace).2 hroom)
    refine ⟨k, hk, ?_⟩
    have hab := hblocks.behind (c := b) (by simp)
    have hbc := hblocks.tail.behind (c := c) (by simp)
    have hac := hblocks.behind (c := c) (by simp)
    obtain ⟨hb0, -⟩ := hblocks.1 b (by simp)
    obtain ⟨hc0, hlimit⟩ := hblocks.1 c (by simp)
    have hup1 := hup.le_up a.stop
    have hup2 := hup.le_up b.stop
    -- room in front of a block would be room before the end of the last one
    have hroomless : ∀ (s : Nat) (d : Block), aligned s → place ≤ s → d.start < d.stop → d.stop ≤ c.stop → Fits limit size [a, b, c] s →
        ¬ s + size ≤ d.start := by
      intro s d hs hps hd hdc hfit h
      have := hlast s hs hps hfit
      omega
    have hfits : ∀ s : Nat, (s + size ≤ a.start ∨ a.stop ≤ s) → (s + size ≤ b.start ∨ b.stop ≤ s) → s + size ≤ c.start →
        Fits limit size [a, b, c] s := by
      intro s h1 h2 h3
      refine ⟨by omega, ?_⟩
      simp only [List.mem_cons, List.not_mem_nil, or_false, forall_eq_or_imp, forall_eq]
      exact ⟨h1, h2, .inl h3⟩
    obtain ⟨ha0, -⟩ := hblocks.1 a (by simp)
    obtain ⟨j, hj, hkj⟩ := search_met hk ha fun h =>
      hroomless place a hplace (Nat.le_refl _) ha0 (by omega) (hfits _ (.inl h) (.inl (by omega)) (by omega)) h
    obtain ⟨i, hi, hji⟩ := search_met hj hb fun h =>
      hroomless _ b (hup.aligned_up _) (by omega) hb0 (by omega) (hfits _ (.inr hup1) (.inl h) (by omega)) h
    obtain ⟨l, hl, hil⟩ := search_met hi hc fun h =>
      hroomless _ c (hup.aligned_up _) (by omega) hc0 (by omega) (hfits _ (.inr (by omega)) (.inr hup2) h) h
    have hone := search_pos hl
    unfold Twice at htwice
    split at hkj <;> split at hji <;> split at hil <;> omega

end Block

end Barnix
