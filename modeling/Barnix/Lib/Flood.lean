import Mathlib.Data.List.Nodup
import Mathlib.Data.Finset.Card
import Mathlib.Data.Fintype.Basic
import Mathlib.Logic.Relation
/-!
# Flooding

A search from one place over a relation, with a queue that is never shortened: the places
in front of the head have been looked around from, the others are only known. When the
head has come to the end, the queue holds just the places that can be reached.
-/

namespace Barnix

open Relation

variable {α : Type}

/-- The places found so far, of which the first `head` have all that follows them in the queue. -/
structure Flood (step : α → α → Prop) (start : α) (queue : List α) (head : Nat) : Prop where
  nodup : queue.Nodup
  begun : start ∈ queue
  reached : ∀ a ∈ queue, ReflTransGen step start a
  closed : ∀ a ∈ queue.take head, ∀ b, step a b → b ∈ queue

namespace Flood

variable {step : α → α → Prop} {start : α} {queue : List α} {head : Nat}

theorem init : Flood step start [start] 0 where
  nodup := List.nodup_singleton start
  begun := List.mem_singleton_self start
  reached a ha := List.mem_singleton.1 ha ▸ .refl
  closed a ha := absurd ha (by simp)

/-- A place that is new, one step from a place in the queue. -/
theorem push (h : Flood step start queue head) (hhead : head ≤ queue.length) {a b : α} (ha : a ∈ queue) (hstep : step a b)
    (hnew : b ∉ queue) : Flood step start (queue ++ [b]) head where
  nodup := List.nodup_append.2 ⟨h.nodup, List.nodup_singleton b, fun c hc d hd hcd => hnew (by
    obtain rfl := List.mem_singleton.1 hd
    exact hcd ▸ hc)⟩
  begun := List.mem_append_left _ h.begun
  reached c hc := by
    rcases List.mem_append.1 hc with hc | hc
    · exact h.reached c hc
    · obtain rfl := List.mem_singleton.1 hc
      exact (h.reached a ha).tail hstep
  closed c hc d hd := by
    rw [List.take_append_of_le_length hhead] at hc
    exact List.mem_append_left _ (h.closed c hc d hd)

/-- The head goes on once all that follows its place is in the queue. -/
theorem advance (h : Flood step start queue head) {a : α} (ha : queue[head]? = some a) (hall : ∀ b, step a b → b ∈ queue) :
    Flood step start queue (head + 1) where
  nodup := h.nodup
  begun := h.begun
  reached := h.reached
  closed c hc d hd := by
    rw [List.take_add_one, ha, List.mem_append] at hc
    rcases hc with hc | hc
    · exact h.closed c hc d hd
    · rw [Option.toList_some, List.mem_singleton] at hc
      exact hall d (hc ▸ hd)

/-- At the end the queue holds what can be reached. -/
theorem complete (h : Flood step start queue head) (hend : queue.length ≤ head) (a : α) : a ∈ queue ↔ ReflTransGen step start a := by
  refine ⟨h.reached a, fun hreach => ?_⟩
  induction hreach with
  | refl => exact h.begun
  | @tail b c _ hstep ih =>
    refine h.closed b ?_ c hstep
    rwa [List.take_of_length_le hend]

end Flood

/-- A queue of different numbers below `n` has room for one more. -/
theorem room_of_new {n b : Nat} {queue : List Nat} (hnodup : queue.Nodup) (hlt : ∀ a ∈ queue, a < n) (hb : b < n) (hnew : b ∉ queue) :
    queue.length < n := by
  have hsub : b :: queue ⊆ List.range n := by
    intro a ha
    rcases List.mem_cons.1 ha with rfl | ha
    · exact List.mem_range.2 hb
    · exact List.mem_range.2 (hlt a ha)
  have hle := ((List.nodup_cons.2 ⟨hnew, hnodup⟩).subperm hsub).length_le
  rwa [List.length_cons, List.length_range] at hle

end Barnix
