import Mathlib.Order.Basic
/-!
# State programs and their triples

Programs are `StateM`. `Moves R x` says that `x` only takes steps along the
relation `R`, from any state. `Holds bad P x Q` is a triple for programs that
may run into a sticky failure: from a state with `P`, `x` ends in a `bad`
state or with `Q`. When `R` keeps `bad` states bad, triples compose over
`bind`, so a proof about the good runs never looks at what happens after a
failure.
-/

namespace Barnix

variable {σ τ α β : Type}

/-- The result and final state of `x` started in `s`. -/
def exec (x : StateM σ α) (s : σ) : α × σ := x.run s

@[simp] theorem exec_pure (a : α) (s : σ) : exec (pure a) s = (a, s) := rfl

@[simp] theorem exec_bind (x : StateM σ α) (f : α → StateM σ β) (s : σ) :
    exec (x >>= f) s = exec (f (exec x s).1) (exec x s).2 := rfl

@[simp] theorem exec_map (f : α → β) (x : StateM σ α) (s : σ) :
    exec (f <$> x) s = (f (exec x s).1, (exec x s).2) := rfl

@[simp] theorem exec_get (s : σ) : exec (get : StateM σ σ) s = (s, s) := rfl

@[simp] theorem exec_set (s t : σ) : exec (set t : StateM σ PUnit) s = (⟨⟩, t) := rfl

@[simp] theorem exec_modify (f : σ → σ) (s : σ) : exec (modify f : StateM σ PUnit) s = (⟨⟩, f s) := rfl

@[simp] theorem exec_modifyGet (f : σ → α × σ) (s : σ) : exec (modifyGet f : StateM σ α) s = f s := rfl

/-- Runs `x` on the part of the state that `put` stores and `part` reads. -/
def zoom (part : τ → σ) (put : σ → τ → τ) (x : StateM σ α) : StateM τ α :=
  modifyGet fun t => match exec x (part t) with
    | (a, s) => (a, put s t)

@[simp] theorem exec_zoom (part : τ → σ) (put : σ → τ → τ) (x : StateM σ α) (t : τ) :
    exec (zoom part put x) t = ((exec x (part t)).1, put (exec x (part t)).2 t) := rfl

/-! ## Programs that move along a relation -/

/-- From every state, `x` ends in a state related to it by `R`. -/
def Moves (R : σ → σ → Prop) (x : StateM σ α) : Prop := ∀ s, R s (exec x s).2

namespace Moves

variable {R : σ → σ → Prop}

theorem pure [Std.Refl R] (a : α) : Moves R (Pure.pure a : StateM σ α) := fun s => refl_of R s

theorem get [Std.Refl R] : Moves R (MonadState.get : StateM σ σ) := fun s => refl_of R s

theorem bind [IsTrans σ R] {x : StateM σ α} {f : α → StateM σ β} (hx : Moves R x) (hf : ∀ a, Moves R (f a)) :
    Moves R (x >>= f) := fun s => trans_of R (hx s) (hf _ _)

theorem map {x : StateM σ α} (f : α → β) (hx : Moves R x) : Moves R (f <$> x) := hx

theorem ite {c : Prop} [Decidable c] {x y : StateM σ α} (hx : Moves R x) (hy : Moves R y) :
    Moves R (if c then x else y) := by
  split
  · exact hx
  · exact hy

theorem modify {f : σ → σ} (h : ∀ s, R s (f s)) : Moves R (modify f : StateM σ PUnit) := h

end Moves

/-! ## Triples -/

/-- From a state with `P`, `x` ends with `Q`. -/
def Ends (P : σ → Prop) (x : StateM σ α) (Q : α → σ → Prop) : Prop := ∀ s, P s → Q (exec x s).1 (exec x s).2

namespace Ends

variable {P : σ → Prop} {Q : α → σ → Prop} {x : StateM σ α}

theorem pure {a : α} (h : ∀ s, P s → Q a s) : Ends P (Pure.pure a) Q := h

theorem get {Q : σ → σ → Prop} (h : ∀ s, P s → Q s s) : Ends P MonadState.get Q := h

theorem modify {f : σ → σ} {Q : PUnit → σ → Prop} (h : ∀ s, P s → Q ⟨⟩ (f s)) : Ends P (modify f) Q := h

theorem bind {f : α → StateM σ β} {S : β → σ → Prop} (hx : Ends P x Q) (hf : ∀ a, Ends (Q a) (f a) S) :
    Ends P (x >>= f) S := fun s hs => hf _ _ (hx s hs)

theorem ite {c : Prop} [Decidable c] {y : StateM σ α} (hx : c → Ends P x Q) (hy : ¬c → Ends P y Q) :
    Ends P (if c then x else y) Q := by
  split
  · exact hx ‹_›
  · exact hy ‹_›

theorem weaken {P' : σ → Prop} (hp : ∀ s, P' s → P s) (hx : Ends P x Q) : Ends P' x Q := fun s hs => hx s (hp s hs)

/-- What every step along `R` keeps holds after `x` too. -/
theorem of_moves {R : σ → σ → Prop} (h : Moves R x) (hp : ∀ s t, R s t → P s → P t) : Ends P x fun _ => P :=
  fun s hs => hp _ _ (h s) hs

end Ends

/-! ## Triples with a sticky failure -/

/-- From a state with `P`, `x` ends in a `bad` state or with `Q`. -/
def Holds (bad : σ → Prop) (P : σ → Prop) (x : StateM σ α) (Q : α → σ → Prop) : Prop :=
  ∀ s, P s → bad (exec x s).2 ∨ Q (exec x s).1 (exec x s).2

namespace Holds

variable {bad P P' : σ → Prop} {Q Q' : α → σ → Prop} {x : StateM σ α}

theorem pure {a : α} (h : ∀ s, P s → Q a s) : Holds bad P (Pure.pure a) Q := fun s hs => .inr (h s hs)

theorem get {Q : σ → σ → Prop} (h : ∀ s, P s → Q s s) : Holds bad P MonadState.get Q := fun s hs => .inr (h s hs)

theorem modify {f : σ → σ} {Q : PUnit → σ → Prop} (h : ∀ s, P s → Q ⟨⟩ (f s)) :
    Holds bad P (modify f) Q := fun s hs => .inr (h s hs)

/-- The continuation keeps bad states bad, so only the good middle states matter. -/
theorem bind {f : α → StateM σ β} {S : β → σ → Prop} (hb : ∀ a, Moves (fun s t => bad s → bad t) (f a))
    (hx : Holds bad P x Q) (hf : ∀ a, Holds bad (Q a) (f a) S) : Holds bad P (x >>= f) S := by
  intro s hs
  rcases hx s hs with h | h
  · exact .inl (hb _ _ h)
  · exact hf _ _ h

theorem conseq (hx : Holds bad P x Q) (hp : ∀ s, P' s → P s) (hq : ∀ a s, Q a s → Q' a s) :
    Holds bad P' x Q' := fun s hs => (hx s (hp s hs)).imp_right (hq _ _)

theorem weaken (hx : Holds bad P x Q) (hq : ∀ a s, Q a s → Q' a s) : Holds bad P x Q' :=
  hx.conseq (fun _ h => h) hq

/-- A fact about the start that does not depend on the state. -/
theorem assume {φ : Prop} (h : φ → Holds bad P x Q) : Holds bad (fun s => φ ∧ P s) x Q :=
  fun s hs => h hs.1 s hs.2

theorem ite {c : Prop} [Decidable c] {y : StateM σ α} (hx : c → Holds bad P x Q) (hy : ¬c → Holds bad P y Q) :
    Holds bad P (if c then x else y) Q := by
  split
  · exact hx ‹_›
  · exact hy ‹_›

end Holds

end Barnix
