import Barnix.Lib.Arrays
import Barnix.Lib.Flood
/-!
# The paint program

The flood fill of `paint.c` over its canvas, an array of one byte a cell. The queue has
one slot a cell; what lies in it from the head to the tail has been painted and not yet
been looked around from.
-/

namespace Barnix.Paint

open Relation

def width : Nat := 78
def height : Nat := 36

/-- `WIDTH*HEIGHT` -/
def size : Nat := width * height

structure Filling where
  pixels : Cells
  queue : List Nat

/-- `queue[tail++]=n` -/
def enqueue (queue : List Nat) (n : Nat) : Checked (List Nat) :=
  if queue.length < size then .ok (queue ++ [n]) else .error .overrun

/-- `neighbors[i]` of the cell `p`, unless it is passed over. -/
def neighbor (p i : Nat) : Option Nat :=
  let n : Int := match i with
    | 0 => (p : Int) - 1
    | 1 => p + 1
    | 2 => p - width
    | _ => p + width
  if n < 0 ∨ n ≥ size ∨ (i = 0 ∧ p % width = 0) ∨ (i = 1 ∧ p % width = width - 1) then none else some n.toNat

def look (old ink : UInt8) (p : Nat) (s : Filling) (i : Nat) : Checked Filling :=
  match neighbor p i with
  | none => .ok s
  | some n => do
    let c ← s.pixels.peek n
    if c = old then do
      let pixels ← s.pixels.poke n ink
      let queue ← enqueue s.queue n
      .ok ⟨pixels, queue⟩
    else .ok s

/-- `while(head<tail)`, for at most `rounds` cells. -/
def fillLoop (old ink : UInt8) : Nat → Nat → Filling → Checked Filling
  | 0, _, _ => .error .unfinished
  | rounds + 1, head, s =>
    match s.queue[head]? with
    | none => .ok s
    | some p => do
      let s ← [0, 1, 2, 3].foldlM (look old ink p) s
      fillLoop old ink rounds (head + 1) s

/-- The canvas, and what the queue holds at the end. -/
def fill (x y : Nat) (ink : UInt8) (pixels : Cells) : Checked Filling := do
  let old ← pixels.peek (y * width + x)
  if old = ink then .ok ⟨pixels, []⟩
  else do
    let queue ← enqueue [] (y * width + x)
    let pixels ← pixels.poke (y * width + x) ink
    fillLoop old ink (size + 1) 0 ⟨pixels, queue⟩

/-! ## Neighbours -/

/-- One step up, down, left or right on the canvas. -/
def Beside (p q : Nat) : Prop :=
  (p / width = q / width ∧ (p % width + 1 = q % width ∨ q % width + 1 = p % width)) ∨
  (p % width = q % width ∧ (p / width + 1 = q / width ∨ q / width + 1 = p / width))

/-- From cell to cell of one colour. -/
def Step (canvas : Cells) (old : UInt8) (p q : Nat) : Prop := Beside p q ∧ q < size ∧ canvas[q]? = some old

theorem neighbor_eq_some {p q i : Nat} : neighbor p i = some q ↔ q < size ∧
    (i = 0 ∧ p % width ≠ 0 ∧ p = q + 1 ∨ i = 1 ∧ p % width ≠ width - 1 ∧ q = p + 1 ∨ i = 2 ∧ p = q + width ∨ 3 ≤ i ∧ q = p + width) := by
  have hw : width = 78 := rfl
  have hs : size = 2808 := rfl
  unfold neighbor
  rw [hw, hs]
  match i with
  | 0 | 1 | 2 | n + 3 =>
    simp
    omega

theorem neighbor_beside {p q i : Nat} (h : neighbor p i = some q) : Beside p q ∧ q < size := by
  have hw : width = 78 := rfl
  unfold Beside
  obtain ⟨hq, h⟩ := neighbor_eq_some.1 h
  rw [hw] at h ⊢
  rcases h with ⟨-, h⟩ | ⟨-, h⟩ | ⟨-, h⟩ | ⟨-, h⟩ <;> omega

theorem exists_neighbor {p q : Nat} (h : Beside p q) (hp : p < size) (hq : q < size) : ∃ i ∈ [0, 1, 2, 3], neighbor p i = some q := by
  have hw : width = 78 := rfl
  unfold Beside at h
  rw [hw] at h
  simp only [neighbor_eq_some, hw]
  rcases h with ⟨hrow, hright | hleft⟩ | ⟨hcol, hdown | hup⟩
  · exact ⟨1, by decide, hq, .inr (.inl ⟨rfl, by omega, by omega⟩)⟩
  · exact ⟨0, by decide, hq, .inl ⟨rfl, by omega, by omega⟩⟩
  · exact ⟨3, by decide, hq, .inr (.inr (.inr ⟨Nat.le_refl 3, by omega⟩))⟩
  · exact ⟨2, by decide, hq, .inr (.inr (.inl ⟨rfl, by omega⟩))⟩

/-! ## What has been painted -/

/-- The cells in the queue have been painted, the others are as they were. -/
structure Painted (canvas : Cells) (old ink : UInt8) (start head : Nat) (s : Filling) : Prop where
  flood : Flood (Step canvas old) start s.queue head
  head_le : head ≤ s.queue.length
  inside : ∀ p ∈ s.queue, p < size
  length : s.pixels.length = size
  pixels : ∀ p < size, s.pixels[p]? = if p ∈ s.queue then some ink else canvas[p]?

variable {canvas : Cells} {old ink : UInt8} {start head p : Nat} {s : Filling}

theorem Painted.push (h : Painted canvas old ink start head s) {q : Nat} (hp : p ∈ s.queue) (hstep : Step canvas old p q)
    (hnew : q ∉ s.queue) : Painted canvas old ink start head ⟨s.pixels.set q ink, s.queue ++ [q]⟩ where
  flood := h.flood.push h.head_le hp hstep hnew
  head_le := by
    have := h.head_le
    simp only [List.length_append]
    omega
  inside a ha := by
    rcases List.mem_append.1 ha with ha | ha
    · exact h.inside a ha
    · exact List.mem_singleton.1 ha ▸ hstep.2.1
  length := List.length_set.trans h.length
  pixels a ha := by
    by_cases haq : a = q
    · rw [haq, List.getElem?_set_self (by rw [h.length]; exact hstep.2.1), if_pos (by simp)]
    · rw [List.getElem?_set_ne (Ne.symm haq), h.pixels a ha]
      simp [haq]

theorem Painted.queue_le (h : Painted canvas old ink start head s) : s.queue.length ≤ size := by
  have hsub : s.queue ⊆ List.range size := fun a ha => List.mem_range.2 (h.inside a ha)
  have hle := (h.flood.nodup.subperm hsub).length_le
  rwa [List.length_range] at hle

/-- Looking at one side keeps what is painted, and a cell of the old colour there is queued. -/
theorem look_ok (hink : old ≠ ink) (h : Painted canvas old ink start head s) (hp : p ∈ s.queue) (i : Nat) :
    ∃ s', look old ink p s i = .ok s' ∧ Painted canvas old ink start head s' ∧ s.queue <+: s'.queue ∧
      ∀ q, neighbor p i = some q → canvas[q]? = some old → q ∈ s'.queue := by
  unfold look
  cases hside : neighbor p i with
  | none => exact ⟨s, rfl, h, List.prefix_rfl, fun q hq => by cases hq⟩
  | some n =>
    obtain ⟨hbeside, hn⟩ := neighbor_beside hside
    have hpixel := h.pixels n hn
    have hinside : n < s.pixels.length := h.length ▸ hn
    have hpeek : s.pixels.peek n = .ok s.pixels[n] := by rw [Cells.peek, List.getElem?_eq_getElem hinside]
    rw [List.getElem?_eq_getElem hinside] at hpixel
    simp only [hpeek, ok_bind]
    by_cases hmem : n ∈ s.queue
    · rw [if_pos hmem, Option.some_inj] at hpixel
      rw [hpixel, if_neg (Ne.symm hink)]
      refine ⟨s, rfl, h, List.prefix_rfl, fun q hq _ => ?_⟩
      exact Option.some.inj hq ▸ hmem
    · rw [if_neg hmem] at hpixel
      by_cases hold : s.pixels[n] = old
      · have hstep : Step canvas old p n := ⟨hbeside, hn, hpixel.symm.trans (congrArg some hold)⟩
        have hroom := room_of_new h.flood.nodup h.inside hn hmem
        refine ⟨⟨s.pixels.set n ink, s.queue ++ [n]⟩, ?_, h.push hp hstep hmem, List.prefix_append _ _, fun q hq _ => ?_⟩
        · rw [if_pos hold, Cells.poke, if_pos hinside, ok_bind, enqueue, if_pos hroom, ok_bind]
        · obtain rfl := Option.some.inj hq
          exact List.mem_append_right _ (List.mem_singleton_self _)
      · refine ⟨s, if_neg hold, h, List.prefix_rfl, fun q hq hcolor => absurd ?_ hold⟩
        obtain rfl := Option.some.inj hq
        exact Option.some.inj (hpixel.trans hcolor)

theorem looks_ok (hink : old ≠ ink) (sides : List Nat) : ∀ {s : Filling}, Painted canvas old ink start head s → p ∈ s.queue →
    ∃ s', sides.foldlM (look old ink p) s = .ok s' ∧ Painted canvas old ink start head s' ∧ s.queue <+: s'.queue ∧
      ∀ i ∈ sides, ∀ q, neighbor p i = some q → canvas[q]? = some old → q ∈ s'.queue := by
  induction sides with
  | nil => exact fun h _ => ⟨_, rfl, h, List.prefix_rfl, fun i hi => by cases hi⟩
  | cons i sides ih =>
    intro s h hp
    obtain ⟨t, ht, hpainted, hpre, hfirst⟩ := look_ok hink h hp i
    obtain ⟨u, hu, hpainted', hpre', hrest⟩ := ih hpainted (hpre.subset hp)
    refine ⟨u, ?_, hpainted', hpre.trans hpre', fun j hj q hq hcolor => ?_⟩
    · rw [List.foldlM_cons, ht, ok_bind, hu]
    · rcases List.mem_cons.1 hj with rfl | hj
      · exact hpre'.subset (hfirst q hq hcolor)
      · exact hrest j hj q hq hcolor

/-- The loop ends, with every cell painted that can be reached. -/
theorem fillLoop_ok (hink : old ≠ ink) (rounds : Nat) : ∀ {head : Nat} {s : Filling}, Painted canvas old ink start head s →
    size < head + rounds → ∃ s', fillLoop old ink rounds head s = .ok s' ∧ Painted canvas old ink start s'.queue.length s' := by
  induction rounds with
  | zero =>
    intro head s h hrounds
    have := h.head_le
    have := h.queue_le
    omega
  | succ rounds ih =>
    intro head s h hrounds
    unfold fillLoop
    cases hnext : s.queue[head]? with
    | none =>
      have hend : head = s.queue.length := by
        have := List.getElem?_eq_none_iff.1 hnext
        have := h.head_le
        omega
      exact ⟨s, rfl, hend ▸ h⟩
    | some p =>
      have hp : p ∈ s.queue := List.mem_of_getElem? hnext
      obtain ⟨t, ht, hpainted, hpre, hall⟩ := looks_ok hink [0, 1, 2, 3] h hp
      have hhead : t.queue[head]? = some p := by
        obtain ⟨more, hmore⟩ := hpre
        rw [← hmore, List.getElem?_append_left (List.getElem?_eq_some_iff.1 hnext).1, hnext]
      have hadvanced : Painted canvas old ink start (head + 1) t := by
        refine ⟨hpainted.flood.advance hhead fun q hq => ?_, ?_, hpainted.inside, hpainted.length, hpainted.pixels⟩
        · obtain ⟨i, hside, hi⟩ := exists_neighbor hq.1 (h.inside p hp) hq.2.1
          exact hall i hside q hi hq.2.2
        · exact (List.getElem?_eq_some_iff.1 hhead).1
      obtain ⟨u, hu, hdone⟩ := ih hadvanced (by omega)
      exact ⟨u, by simp only [ht, ok_bind, hu], hdone⟩

theorem colour_of_reached (hstart : canvas[start]? = some old) (h : ReflTransGen (Step canvas old) start p) : canvas[p]? = some old := by
  cases h with
  | refl => exact hstart
  | tail _ hstep => exact hstep.2.2

/-- The fill paints the component of its first cell and nothing else. It queues no cell twice, so the
queue always has a slot. -/
theorem fill_component {x y : Nat} {canvas : Cells} (ink : UInt8) (hx : x < width) (hy : y < height) (hsize : canvas.length = size) :
    ∃ (old : UInt8) (s : Filling), canvas[y * width + x]? = some old ∧ fill x y ink canvas = .ok s ∧
      s.queue.Nodup ∧ s.queue.length ≤ size ∧ s.pixels.length = size ∧
      ∀ p < size, (ReflTransGen (Step canvas old) (y * width + x) p → s.pixels[p]? = some ink) ∧
        (¬ ReflTransGen (Step canvas old) (y * width + x) p → s.pixels[p]? = canvas[p]?) := by
  have hw : width = 78 := rfl
  have hh : height = 36 := rfl
  have hs : size = 2808 := rfl
  have hstart : y * width + x < size := by
    rw [hw] at hx ⊢
    omega
  have hinside : y * width + x < canvas.length := hsize ▸ hstart
  have hcolor : canvas[y * width + x]? = some canvas[y * width + x] := List.getElem?_eq_getElem hinside
  have hpeek : canvas.peek (y * width + x) = .ok canvas[y * width + x] := by rw [Cells.peek, hcolor]
  refine ⟨canvas[y * width + x], ?_⟩
  by_cases hink : canvas[y * width + x] = ink
  · refine ⟨⟨canvas, []⟩, hcolor, ?_, List.nodup_nil, Nat.zero_le _, hsize, fun p _ => ⟨fun hreach => ?_, fun _ => rfl⟩⟩
    · rw [fill, hpeek, ok_bind, if_pos hink]
    · rw [← hink]
      exact colour_of_reached hcolor hreach
  · have hfirst : Painted canvas canvas[y * width + x] ink (y * width + x) 0 ⟨canvas.set (y * width + x) ink, [y * width + x]⟩ := by
      refine ⟨.init, Nat.zero_le _, fun a ha => List.mem_singleton.1 ha ▸ hstart, List.length_set.trans hsize, fun a ha => ?_⟩
      by_cases heq : a = y * width + x
      · rw [heq, List.getElem?_set_self hinside, if_pos (List.mem_singleton_self _)]
      · rw [List.getElem?_set_ne (Ne.symm heq), if_neg (fun h => heq (List.mem_singleton.1 h))]
    obtain ⟨s, hrun, hdone⟩ := fillLoop_ok hink (size + 1) hfirst (by omega)
    have hreached (p : Nat) := hdone.flood.complete (Nat.le_refl _) p
    refine ⟨s, hcolor, ?_, hdone.flood.nodup, hdone.queue_le, hdone.length, fun p hp => ?_⟩
    · rw [fill, hpeek, ok_bind, if_neg hink, enqueue, List.length_nil, if_pos (by omega), ok_bind, Cells.poke, if_pos hinside, ok_bind]
      exact hrun
    · rw [hdone.pixels p hp, ← hreached p]
      exact ⟨fun h => if_pos h, fun h => if_neg h⟩

/-- A canvas of one colour is painted whole. -/
theorem fill_component_blank : ∃ (old : UInt8) (s : Filling), (List.replicate size 0)[0 * width + 0]? = some old ∧
    fill 0 0 15 (List.replicate size 0) = .ok s ∧ s.queue.Nodup ∧ s.queue.length ≤ size ∧ s.pixels.length = size ∧
    ∀ p < size, (ReflTransGen (Step (List.replicate size 0) old) (0 * width + 0) p → s.pixels[p]? = some 15) ∧
      (¬ ReflTransGen (Step (List.replicate size 0) old) (0 * width + 0) p → s.pixels[p]? = (List.replicate size 0)[p]?) :=
  fill_component 15 (by decide) (by decide) List.length_replicate

end Barnix.Paint
