import Barnix.Lib.Program
/-!
# Clients of a server

A program known only by the commands it gives: it gives one, and goes on as the
answer tells it. What every command keeps, every client keeps.

Clients compose as a monad. `wp` reads a client through a rule for each command,
which says what the command demands and which states and answers it may lead to.
A server that follows the rules is only given commands that were demanded, and
ends where they lead; one that follows them while all is good ends there when
all is still good.
-/

namespace Barnix

/-- A client that ends with an `α`. `Ans c` is what `c` is answered with. -/
inductive Client (Cmd : Type) (Ans : Cmd → Type) (α : Type) where
  | done (a : α)
  | ask (c : Cmd) (next : Ans c → Client Cmd Ans α)

namespace Client

variable {Cmd : Type} {Ans : Cmd → Type} {σ τ α β : Type}

/-- Runs a client, with a server for its commands. -/
def run (serve : (c : Cmd) → StateM σ (Ans c)) : Client Cmd Ans α → StateM σ α
  | done a => pure a
  | ask c next => do
    let a ← serve c
    run serve (next a)

/-- Every command it can give is one of `allowed`. -/
def Only (allowed : Cmd → Prop) : Client Cmd Ans α → Prop
  | done _ => True
  | ask c next => allowed c ∧ ∀ a, Only allowed (next a)

theorem only_true (x : Client Cmd Ans α) : x.Only fun _ => True := by
  induction x with
  | done a => trivial
  | ask c next ih => exact ⟨trivial, ih⟩

theorem moves_run {R : σ → σ → Prop} [Std.Refl R] [IsTrans σ R] {allowed : Cmd → Prop} {serve : (c : Cmd) → StateM σ (Ans c)}
    (h : ∀ c, allowed c → Moves R (serve c)) {x : Client Cmd Ans α} (hx : x.Only allowed) : Moves R (x.run serve) := by
  induction x with
  | done a => exact .pure a
  | ask c next ih => exact (h c hx.1).bind fun a => ih a (hx.2 a)

/-! ## Composition -/

/-- One client after another. -/
protected def bind : Client Cmd Ans α → (α → Client Cmd Ans β) → Client Cmd Ans β
  | done a, f => f a
  | ask c next, f => ask c fun a => (next a).bind f

instance : Monad (Client Cmd Ans) where
  pure := done
  bind := Client.bind

/-- The client of one command. -/
def give (c : Cmd) : Client Cmd Ans (Ans c) := ask c done

section
variable (serve : (c : Cmd) → StateM σ (Ans c))

@[simp] theorem run_pure (a : α) : (pure a : Client Cmd Ans α).run serve = pure a := rfl

@[simp] theorem run_give (c : Cmd) : (give c : Client Cmd Ans (Ans c)).run serve = serve c := bind_pure (serve c)

@[simp] theorem run_bind (x : Client Cmd Ans α) (f : α → Client Cmd Ans β) :
    (x >>= f).run serve = x.run serve >>= fun a => (f a).run serve := by
  induction x with
  | done a => rfl
  | ask c next ih =>
    show (serve c >>= fun a => (next a >>= f).run serve) = (serve c >>= fun a => (next a).run serve) >>= _
    rw [bind_assoc]
    exact congrArg _ (funext ih)

/-- The commands of a run. -/
def history : Client Cmd Ans α → σ → List Cmd
  | done _, _ => []
  | ask c next, s => c :: history (next (exec (serve c) s).1) (exec (serve c) s).2

theorem history_bind (x : Client Cmd Ans α) (f : α → Client Cmd Ans β) (s : σ) :
    (x >>= f).history serve s = x.history serve s ++ (f (exec (x.run serve) s).1).history serve (exec (x.run serve) s).2 := by
  induction x generalizing s with
  | done a => rfl
  | ask c next ih => exact congrArg (c :: ·) (ih _ _)

end

theorem only_mono {allowed allowed' : Cmd → Prop} (h : ∀ c, allowed c → allowed' c) {x : Client Cmd Ans α} (hx : x.Only allowed) :
    x.Only allowed' := by
  induction x with
  | done a => trivial
  | ask c next ih => exact ⟨h c hx.1, fun a => ih a (hx.2 a)⟩

theorem Only.pure {allowed : Cmd → Prop} (a : α) : (Pure.pure a : Client Cmd Ans α).Only allowed := trivial

theorem Only.give {allowed : Cmd → Prop} {c : Cmd} (h : allowed c) : (give c : Client Cmd Ans (Ans c)).Only allowed :=
  ⟨h, fun _ => trivial⟩

theorem Only.bind {allowed : Cmd → Prop} {x : Client Cmd Ans α} {f : α → Client Cmd Ans β} (hx : x.Only allowed)
    (hf : ∀ a, (f a).Only allowed) : (x >>= f).Only allowed := by
  induction x with
  | done a => exact hf a
  | ask c next ih => exact ⟨hx.1, fun a => ih a (hx.2 a)⟩

theorem Only.ite {allowed : Cmd → Prop} {c : Prop} [Decidable c] {x y : Client Cmd Ans α} (hx : x.Only allowed)
    (hy : y.Only allowed) : (if c then x else y).Only allowed := by
  split
  · exact hx
  · exact hy

/-! ## Weakest preconditions -/

/-- What `x` needs to end with `Q`, when `rule c` says what the command `c` needs. -/
def wp (rule : (c : Cmd) → (Ans c → τ → Prop) → τ → Prop) : Client Cmd Ans α → (α → τ → Prop) → τ → Prop
  | done a, Q => Q a
  | ask c next, Q => rule c fun a => (next a).wp rule Q

section
variable {rule : (c : Cmd) → (Ans c → τ → Prop) → τ → Prop}

@[simp] theorem wp_pure (a : α) (Q : α → τ → Prop) : (pure a : Client Cmd Ans α).wp rule Q = Q a := rfl

@[simp] theorem wp_give (c : Cmd) (Q : Ans c → τ → Prop) : (give c : Client Cmd Ans (Ans c)).wp rule Q = rule c Q := rfl

@[simp] theorem wp_bind (x : Client Cmd Ans α) (f : α → Client Cmd Ans β) (Q : β → τ → Prop) :
    (x >>= f).wp rule Q = x.wp rule fun a => (f a).wp rule Q := by
  induction x with
  | done a => rfl
  | ask c next ih => exact congrArg (rule c) (funext ih)

theorem wp_mono (hrule : ∀ c (P Q : Ans c → τ → Prop), (∀ a v, P a v → Q a v) → ∀ v, rule c P v → rule c Q v)
    {x : Client Cmd Ans α} {P Q : α → τ → Prop} (h : ∀ a v, P a v → Q a v) {v : τ} (hx : x.wp rule P v) : x.wp rule Q v := by
  induction x generalizing v with
  | done a => exact h a v hx
  | ask c next ih => exact hrule c _ _ (fun a v => ih a) v hx

/-- A server that follows the rules is given demanded commands only, and ends with `Q`. -/
theorem wp_sound {serve : (c : Cmd) → StateM σ (Ans c)} {rel : σ → τ → Prop} {ok : Cmd → Prop}
    (hserve : ∀ c Q s v, rel s v → rule c Q v → ok c ∧ ∃ v', rel (exec (serve c) s).2 v' ∧ Q (exec (serve c) s).1 v')
    {x : Client Cmd Ans α} {Q : α → τ → Prop} {s : σ} {v : τ} (hs : rel s v) (hx : x.wp rule Q v) :
    (∀ c ∈ x.history serve s, ok c) ∧ ∃ v', rel (exec (x.run serve) s).2 v' ∧ Q (exec (x.run serve) s).1 v' := by
  induction x generalizing s v with
  | done a => exact ⟨fun c hc => absurd hc List.not_mem_nil, v, hs, hx⟩
  | ask c next ih =>
    obtain ⟨hok, v', hs', hnext⟩ := hserve c _ s v hs hx
    obtain ⟨hrest, hend⟩ := ih _ hs' hnext
    refine ⟨fun d hd => ?_, hend⟩
    rcases List.mem_cons.1 hd with rfl | hd
    · exact hok
    · exact hrest d hd

/-- A server that follows the rules as long as all is `good` ends with `Q`, if all is good
in the end. -/
theorem wp_good {serve : (c : Cmd) → StateM σ (Ans c)} {rel : σ → τ → Prop} {good : σ → Prop}
    (hbad : ∀ c s, good (exec (serve c) s).2 → good s)
    (hserve : ∀ c Q s v, rel s v → rule c Q v → good (exec (serve c) s).2 →
      ∃ v', rel (exec (serve c) s).2 v' ∧ Q (exec (serve c) s).1 v')
    {x : Client Cmd Ans α} {Q : α → τ → Prop} {s : σ} {v : τ} (hs : rel s v) (hx : x.wp rule Q v)
    (hgood : good (exec (x.run serve) s).2) : ∃ v', rel (exec (x.run serve) s).2 v' ∧ Q (exec (x.run serve) s).1 v' := by
  -- a run that ends well has been well all the time
  have hstay : ∀ (y : Client Cmd Ans α) t, good (exec (y.run serve) t).2 → good t := by
    intro y
    induction y with
    | done a => exact fun _ h => h
    | ask d rest ih => exact fun t h => hbad d t (ih _ _ h)
  induction x generalizing s v with
  | done a => exact ⟨v, hs, hx⟩
  | ask c next ih =>
    obtain ⟨v', hs', hnext⟩ := hserve c _ s v hs hx (hstay _ _ hgood)
    exact ih _ hs' hnext hgood

/-- In such a run every command was demanded, too. -/
theorem wp_good_sound {serve : (c : Cmd) → StateM σ (Ans c)} {rel : σ → τ → Prop} {good : σ → Prop} {ok : Cmd → Prop}
    (hbad : ∀ c s, good (exec (serve c) s).2 → good s)
    (hserve : ∀ c Q s v, rel s v → rule c Q v → good (exec (serve c) s).2 →
      ok c ∧ ∃ v', rel (exec (serve c) s).2 v' ∧ Q (exec (serve c) s).1 v')
    {x : Client Cmd Ans α} {Q : α → τ → Prop} {s : σ} {v : τ} (hs : rel s v) (hx : x.wp rule Q v)
    (hgood : good (exec (x.run serve) s).2) :
    (∀ c ∈ x.history serve s, ok c) ∧ ∃ v', rel (exec (x.run serve) s).2 v' ∧ Q (exec (x.run serve) s).1 v' := by
  have hstay : ∀ (y : Client Cmd Ans α) t, good (exec (y.run serve) t).2 → good t := by
    intro y
    induction y with
    | done a => exact fun _ h => h
    | ask d rest ih => exact fun t h => hbad d t (ih _ _ h)
  induction x generalizing s v with
  | done a => exact ⟨fun c hc => absurd hc List.not_mem_nil, v, hs, hx⟩
  | ask c next ih =>
    obtain ⟨hok, v', hs', hnext⟩ := hserve c _ s v hs hx (hstay _ _ hgood)
    obtain ⟨hrest, hend⟩ := ih _ hs' hnext hgood
    refine ⟨fun d hd => ?_, hend⟩
    rcases List.mem_cons.1 hd with rfl | hd
    · exact hok
    · exact hrest d hd

end

end Client

end Barnix
