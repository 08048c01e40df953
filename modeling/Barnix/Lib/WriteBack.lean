import Mathlib.Data.Set.Insert
import Mathlib.Data.List.Basic
/-!
# A store behind a write-back cache

A store of cells takes writes in any order it likes until a flush makes everything
before it durable. After a crash each cell holds what the last flush left there, or
something it was asked to hold since.

An update under a mark writes the mark, flushes, changes other cells, flushes and takes
the mark off. `marked_crash` says what any crash in it can leave: the old cells, the mark,
or the new cells.
-/

namespace Barnix.WriteBack

/-- What the store is asked. -/
inductive Request (ι α : Type) where
  | put (i : ι) (a : α)
  | flush

/-- An initial part of two lists in a row. -/
theorem initial_append {β : Type} {r a b : List β} (h : r <+: a ++ b) : r <+: a ∨ ∃ r', r' <+: b ∧ r = a ++ r' := by
  rcases List.prefix_or_prefix_of_prefix h (List.prefix_append a b) with hle | ⟨r', rfl⟩
  · exact .inl hle
  · exact .inr ⟨r', (List.prefix_append_right_inj a).1 h, rfl⟩

namespace Request

variable {ι α : Type} [DecidableEq ι]

/-- The cells after requests that all took effect. -/
def apply : List (Request ι α) → (ι → α) → ι → α
  | [], S => S
  | put i a :: rs, S => apply rs (Function.update S i a)
  | flush :: rs, S => apply rs S

/-- The puts of a list of cells and contents. -/
def puts (l : List (ι × α)) : List (Request ι α) := l.map fun p => put p.1 p.2

/-- What a cell may hold after a crash: `now` is what it holds if nothing is lost, `may`
what may be there. -/
structure Cells (ι α : Type) where
  now : ι → α
  may : ι → Set α

/-- Cells with nothing to lose. -/
def settled (S : ι → α) : Cells ι α := ⟨S, fun i => {S i}⟩

def Cells.step (c : Cells ι α) : Request ι α → Cells ι α
  | put i a => ⟨Function.update c.now i a, Function.update c.may i (insert a (c.may i))⟩
  | flush => settled c.now

/-- A crash after these requests may leave `T`. -/
def Leaves (S : ι → α) (rs : List (Request ι α)) (T : ι → α) : Prop := ∀ i, T i ∈ (rs.foldl Cells.step (settled S)).may i

variable {S T : ι → α} {rs : List (Request ι α)} {l : List (ι × α)}

@[simp] theorem apply_append (rs' : List (Request ι α)) : apply (rs ++ rs') S = apply rs' (apply rs S) := by
  induction rs generalizing S with
  | nil => rfl
  | cons r rs ih =>
    cases r with
    | put i a => exact ih
    | flush => exact ih

theorem foldl_now (c : Cells ι α) : (rs.foldl Cells.step c).now = apply rs c.now := by
  induction rs generalizing c with
  | nil => rfl
  | cons r rs ih =>
    rw [List.foldl_cons, ih]
    cases r with
    | put i a => rfl
    | flush => rfl

/-- A flush settles everything before it. -/
theorem foldl_flush (c : Cells ι α) (rs' : List (Request ι α)) :
    (rs ++ flush :: rs').foldl Cells.step c = rs'.foldl Cells.step (settled (apply rs c.now)) := by
  rw [List.foldl_append, List.foldl_cons, Cells.step, foldl_now]

theorem leaves_nil : Leaves S [] T ↔ T = S := by
  constructor
  · intro h
    funext i
    exact h i
  · rintro rfl i
    rfl

theorem leaves_flush {l l' : List (Request ι α)} : Leaves S (l ++ flush :: l') T ↔ Leaves (apply l S) l' T := by
  unfold Leaves
  rw [foldl_flush]
  rfl

/-- Between two flushes a cell keeps its content or takes one it is asked to hold. -/
theorem may_puts (c : Cells ι α) (i : ι) {a : α} (h : a ∈ ((puts l).foldl Cells.step c).may i) : a ∈ c.may i ∨ (i, a) ∈ l := by
  induction l generalizing c with
  | nil => exact .inl h
  | cons p l ih =>
    obtain ⟨j, b⟩ := p
    rcases ih _ h with hc | hl
    · unfold Cells.step at hc
      dsimp only at hc
      by_cases hij : i = j
      · subst hij
        rw [Function.update_self] at hc
        rcases hc with rfl | hc
        · exact .inr List.mem_cons_self
        · exact .inl hc
      · rw [Function.update_of_ne hij] at hc
        exact .inl hc
    · exact .inr (List.mem_cons_of_mem _ hl)

theorem leaves_puts (h : Leaves S (puts l) T) (i : ι) : T i = S i ∨ (i, T i) ∈ l := may_puts _ i (h i)

theorem apply_puts_of_not_mem {i : ι} (h : ∀ a, (i, a) ∉ l) : apply (puts l) S i = S i := by
  induction l generalizing S with
  | nil => rfl
  | cons p l ih =>
    obtain ⟨j, b⟩ := p
    have hij : i ≠ j := by
      rintro rfl
      exact h b List.mem_cons_self
    rw [puts, List.map_cons, apply, ← puts, ih fun a ha => h a (List.mem_cons_of_mem _ ha)]
    exact Function.update_of_ne hij ..

/-- A cell that is only put one thing holds that in the end. -/
theorem apply_puts_of_mem {i : ι} {a : α} (h : (i, a) ∈ l) (honly : ∀ b, (i, b) ∈ l → b = a) : apply (puts l) S i = a := by
  induction l generalizing S with
  | nil => exact absurd h List.not_mem_nil
  | cons p l ih =>
    obtain ⟨j, b⟩ := p
    rw [puts, List.map_cons, apply, ← puts]
    by_cases hrest : (i, a) ∈ l
    · exact ih hrest fun c hc => honly c (List.mem_cons_of_mem _ hc)
    · have hnone : ∀ c, (i, c) ∉ l := fun c hc => hrest (honly c (List.mem_cons_of_mem _ hc) ▸ hc)
      rw [apply_puts_of_not_mem hnone]
      rcases List.mem_cons.1 h with heq | h
      · obtain ⟨rfl, rfl⟩ := Prod.mk.inj heq
        exact Function.update_self ..
      · exact absurd h hrest

/-! ## An update under a mark -/

/-- Writes `mark` to cell `g`, then the cells `l`, then `clean` to cell `g`, each made durable before
the next. -/
def marked (g : ι) (mark clean : α) (l : List (ι × α)) : List (Request ι α) :=
  put g mark :: flush :: (puts l ++ flush :: put g clean :: [flush])

variable {g : ι} {mark clean : α}

theorem apply_marked : apply (marked g mark clean l) S =
    Function.update (apply (puts l) (Function.update S g mark)) g clean := by
  unfold marked
  rw [apply, apply, apply_append]
  rfl

omit [DecidableEq ι] in
/-- Where a crash in an update under a mark is: before everything, after the mark and before it is durable, between
the first two flushes, or after them. -/
theorem marked_stages {rs : List (Request ι α)} (h : rs <+: marked g mark clean l) :
    rs = [] ∨ rs = [put g mark] ∨ (∃ l', l' <+: l ∧ rs = put g mark :: flush :: puts l') ∨
    (∃ rs', rs' <+: [put g clean, flush] ∧ rs = put g mark :: flush :: (puts l ++ flush :: rs')) := by
  unfold marked at h
  rcases List.prefix_cons_iff.1 h with rfl | ⟨rs, rfl, h₁⟩
  · exact .inl rfl
  rcases List.prefix_cons_iff.1 h₁ with rfl | ⟨rs, rfl, h₂⟩
  · exact .inr (.inl rfl)
  right
  right
  rcases initial_append h₂ with hbody | ⟨rs', hrs, rfl⟩
  · obtain ⟨l', hl', rfl⟩ := List.prefix_map_iff.1 hbody
    exact .inl ⟨l', hl', rfl⟩
  · rcases List.prefix_cons_iff.1 hrs with rfl | ⟨rs'', rfl, hrest⟩
    · exact .inl ⟨l, List.prefix_refl l, by rw [List.append_nil]⟩
    · exact .inr ⟨rs'', hrest, rfl⟩

/-- A crash in an update under a mark leaves the old cells, a mark, or the new cells. -/
theorem marked_crash (hmark : ∀ a, (g, a) ∉ l) {rs : List (Request ι α)} (h : rs <+: marked g mark clean l) (hT : Leaves S rs T) :
    T = S ∨ T g = mark ∨ T = apply (marked g mark clean l) S := by
  rcases marked_stages h with rfl | rfl | ⟨l', hl', rfl⟩ | ⟨rs', hrs', rfl⟩
  · exact .inl (leaves_nil.1 hT)
  · -- only the mark is on its way
    by_cases hg : T g = mark
    · exact .inr (.inl hg)
    · left
      funext i
      rcases leaves_puts (l := [(g, mark)]) hT i with hi | hi
      · exact hi
      · have hput := Prod.mk.inj (List.mem_singleton.1 hi)
        exact absurd (hput.1 ▸ hput.2) hg
  · -- the mark is durable, and nothing but other cells is on its way
    right
    left
    rcases leaves_puts ((leaves_flush (l := [put g mark])).1 hT) g with hg | hg
    · rw [hg]
      exact Function.update_self ..
    · exact absurd (hl'.subset hg) (hmark _)
  · right
    have hsettled : Leaves (apply (puts l) (Function.update S g mark)) rs' T :=
      (leaves_flush (l := puts l)).1 ((leaves_flush (l := [put g mark])).1 hT)
    have hstill : apply (puts l) (Function.update S g mark) g = mark := by
      rw [apply_puts_of_not_mem hmark]
      exact Function.update_self ..
    rw [apply_marked]
    rcases List.prefix_cons_iff.1 hrs' with rfl | ⟨r, rfl, hr⟩
    · left
      rw [leaves_nil.1 hsettled]
      exact hstill
    rcases List.prefix_cons_iff.1 hr with rfl | ⟨r', rfl, hr'⟩
    · -- the mark is being taken off
      by_cases hg : T g = mark
      · exact .inl hg
      · right
        funext i
        rcases leaves_puts (l := [(g, clean)]) hsettled i with hi | hi
        · by_cases hig : i = g
          · subst hig
            exact absurd (hi.trans hstill) hg
          · rw [hi, Function.update_of_ne hig]
        · have hput := Prod.mk.inj (List.mem_singleton.1 hi)
          rw [hput.2, hput.1, Function.update_self]
    · right
      obtain rfl := List.prefix_nil.1 hr'
      exact leaves_nil.1 ((leaves_flush (l := [put g clean])).1 hsettled)

end Request

end Barnix.WriteBack
