import Barnix.Lib.FirstFit
/-!
# Walks between blocks

The search for an aligned place between blocks in any order: where a block stands in the way it goes on
behind that one and looks at all blocks again. Places from `top` on have no name, so that the walk may
also end in front of one.
-/

namespace Barnix

/-- How a walk ends: at a place with room, above the limit, or before a place without a name. -/
inductive WalkEnd where
  | free (place : Nat)
  | full
  | past

namespace Block

/-- The block has a cell of the `size` cells from `place` on. -/
def Meets (size place : Nat) (b : Block) : Prop := place < b.stop ∧ b.start < place + size

instance (size place : Nat) (b : Block) : Decidable (b.Meets size place) := inferInstanceAs (Decidable (_ ∧ _))

/-- The first block in the way. -/
def firstMet (size place : Nat) (blocks : List Block) : Option Block := blocks.find? fun b => decide (b.Meets size place)

/-- The walk from `place` on. -/
inductive Walk (up : Nat → Nat) (limit top size : Nat) (blocks : List Block) : Nat → WalkEnd → Prop where
  | full {place : Nat} : limit < place + size → Walk up limit top size blocks place .full
  | free {place : Nat} : place + size ≤ limit → firstMet size place blocks = none → Walk up limit top size blocks place (.free place)
  | hop {place : Nat} {b : Block} {e : WalkEnd} : place + size ≤ limit → firstMet size place blocks = some b → up b.stop < top →
      Walk up limit top size blocks (up b.stop) e → Walk up limit top size blocks place e
  | past {place : Nat} {b : Block} : place + size ≤ limit → firstMet size place blocks = some b → top ≤ up b.stop →
      Walk up limit top size blocks place .past

variable {up : Nat → Nat} {aligned : Nat → Prop} {limit top size place : Nat} {blocks : List Block}

theorem firstMet_eq_some {b : Block} (h : firstMet size place blocks = some b) : b ∈ blocks ∧ b.Meets size place :=
  ⟨List.mem_of_find?_eq_some h, by simpa using List.find?_some h⟩

theorem fits_iff : Fits limit size blocks place ↔ place + size ≤ limit ∧ firstMet size place blocks = none := by
  unfold Fits firstMet
  rw [List.find?_eq_none]
  refine and_congr_right fun _ => forall₂_congr fun b _ => ?_
  rw [decide_eq_true_iff, Meets]
  omega

/-- Places on the way behind a block that is met have no room. -/
theorem not_fits_of_met {b : Block} {q : Nat} (h : firstMet size place blocks = some b) (hq : place ≤ q) (hstop : q < b.stop) :
    ¬Fits limit size blocks q := by
  obtain ⟨hb, -, hstart⟩ := firstMet_eq_some h
  intro hfits
  rcases hfits.2 b hb with hbefore | hbehind <;> omega

/-- Every walk ends. -/
theorem exists_walk (hup : RoundsUp up aligned) (limit top size : Nat) (blocks : List Block) (place : Nat) :
    ∃ e, Walk up limit top size blocks place e := by
  induction hn : limit + 1 - place using Nat.strongRecOn generalizing place with
  | ind n ih =>
    by_cases hroom : limit < place + size
    · exact ⟨.full, .full hroom⟩
    · cases hmet : firstMet size place blocks with
      | none => exact ⟨.free place, .free (by omega) hmet⟩
      | some b =>
        by_cases htop : top ≤ up b.stop
        · exact ⟨.past, .past (by omega) hmet htop⟩
        · have hstop := (firstMet_eq_some hmet).2.1
          have hle := hup.le_up b.stop
          obtain ⟨e, hwalk⟩ := ih (limit + 1 - up b.stop) (by omega) (up b.stop) rfl
          exact ⟨e, .hop (by omega) hmet (by omega) hwalk⟩

/-- What the end of a walk says about the aligned places from its start on. -/
def Ends (aligned : Nat → Prop) (limit size : Nat) (blocks : List Block) (place : Nat) : WalkEnd → Prop
  | .free p => aligned p ∧ place ≤ p ∧ Fits limit size blocks p
  | _ => ∀ q, aligned q → place ≤ q → ¬Fits limit size blocks q

theorem Walk.ends (hup : RoundsUp up aligned) (htop : limit < top) {e : WalkEnd} (h : Walk up limit top size blocks place e) :
    aligned place → Ends aligned limit size blocks place e := by
  induction h with
  | full hlong =>
    intro _ q _ hq hfits
    have hle := hfits.1
    omega
  | free hroom hmet => exact fun hplace => ⟨hplace, Nat.le_refl _, fits_iff.2 ⟨hroom, hmet⟩⟩
  | @hop p b e hroom hmet _ _ ih =>
    intro _
    have hends := ih (hup.aligned_up b.stop)
    have hbehind : p ≤ up b.stop := Nat.le_trans (Nat.le_of_lt (firstMet_eq_some hmet).2.1) (hup.le_up b.stop)
    -- an aligned place that the walk steps over is in front of the end of the block
    have hover : ∀ q, aligned q → p ≤ q → q < up b.stop → ¬Fits limit size blocks q := by
      intro q hq hp hlt
      refine not_fits_of_met hmet hp (Nat.lt_of_not_le fun hle => ?_)
      exact Nat.not_lt.2 (hup.up_le hq hle) hlt
    have hall : (∀ q, aligned q → up b.stop ≤ q → ¬Fits limit size blocks q) → ∀ q, aligned q → p ≤ q → ¬Fits limit size blocks q := by
      intro h q hq hp
      rcases Nat.lt_or_ge q (up b.stop) with hlt | hge
      · exact hover q hq hp hlt
      · exact h q hq hge
    cases e with
    | free c => exact ⟨hends.1, Nat.le_trans hbehind hends.2.1, hends.2.2⟩
    | full => exact hall hends
    | past => exact hall hends
  | @past p b _ hmet hno =>
    intro _ q hq hp hfits
    refine not_fits_of_met hmet hp (Nat.lt_of_not_le fun hle => ?_) hfits
    have hge := hup.up_le hq hle
    have hlimit := hfits.1
    omega

end Block

end Barnix
