import Mathlib.Data.List.Basic
import Mathlib.Logic.Function.Basic
/-!
# The producer rings of xHCI

`ring_init` and `enqueue` of `usb_xhci.c`, and the controller that takes the transfer blocks from the
ring while they are written. A block belongs to the controller when its cycle bit is the controller's
cycle state; the last of the 64 slots holds a link back to the first one, written when the driver
gets there.
-/

namespace Barnix.Xhci

open Function

/-- `RING_SIZE` -/
def ringSize : Nat := 64

structure Trb where
  a : UInt32
  b : UInt32
  c : UInt32
  d : UInt32
deriving DecidableEq

inductive Field where
  | a
  | b
  | c
  | d
deriving DecidableEq

def Trb.set (t : Trb) (value : UInt32) : Field → Trb
  | .a => { t with a := value }
  | .b => { t with b := value }
  | .c => { t with c := value }
  | .d => { t with d := value }

/-- One store to the ring. The fields are volatile, and a barrier stands before each `d`. -/
structure Store where
  slot : Nat
  field : Field
  value : UInt32
deriving DecidableEq

def Store.apply (s : Store) (trbs : Nat → Trb) : Nat → Trb := update trbs s.slot ((trbs s.slot).set s.value s.field)

/-- What only the driver reads and writes of a `Ring`. -/
structure Ring where
  next : Nat
  cycle : UInt32
deriving DecidableEq

/-- `TRB_TYPE(n)` -/
def trbType (n : UInt32) : UInt32 := n <<< 10

/-- The stores that put a block in a slot. -/
def storesOf (slot : Nat) (t : Trb) : List Store := [⟨slot, .a, t.a⟩, ⟨slot, .b, t.b⟩, ⟨slot, .c, t.c⟩, ⟨slot, .d, t.d⟩]

/-- The link back to the start of the ring at `base`. -/
def linkTrb (base cycle : UInt32) : Trb := ⟨base, 0, 0, trbType 6 ||| 2 ||| cycle⟩

/-- The stores of `enqueue` in their order, `next` and `cycle` after it, and the address it returns.
`link->b = link->c = 0` stores to `c` first. -/
def enqueue (base : UInt32) (r : Ring) (t : Trb) : List Store × Ring × UInt32 :=
  let link := linkTrb base r.cycle
  let (stores, r) : List Store × Ring :=
    if r.next = ringSize - 1 then
      ([⟨r.next, .a, link.a⟩, ⟨r.next, .c, link.c⟩, ⟨r.next, .b, link.b⟩, ⟨r.next, .d, link.d⟩], ⟨0, r.cycle ^^^ 1⟩)
    else ([], r)
  (stores ++ storesOf r.next { t with d := t.d ||| r.cycle }, ⟨r.next + 1, r.cycle⟩, base + 16 * .ofNat r.next)

theorem enqueue_wraps (base cycle : UInt32) (t : Trb) : enqueue base ⟨63, cycle⟩ t =
    ([⟨63, .a, base⟩, ⟨63, .c, 0⟩, ⟨63, .b, 0⟩, ⟨63, .d, (linkTrb base cycle).d⟩] ++ storesOf 0 { t with d := t.d ||| (cycle ^^^ 1) },
      ⟨1, cycle ^^^ 1⟩, base + 16 * .ofNat 0) := rfl

theorem enqueue_fits {n : Nat} (hn : n ≠ 63) (base cycle : UInt32) (t : Trb) : enqueue base ⟨n, cycle⟩ t =
    (storesOf n { t with d := t.d ||| cycle }, ⟨n + 1, cycle⟩, base + 16 * .ofNat n) := by
  have hend : ¬ n = ringSize - 1 := hn
  unfold enqueue
  dsimp only
  rw [if_neg hend]
  rfl

/-! ## The ring in use -/

/-- The ring in memory, the driver's side with the stores of a call that are still to be made, and
the controller's pointer and cycle state. `called` are the arguments of all calls, `processed` the
blocks that the controller has processed. -/
structure World where
  base : UInt32
  trbs : Nat → Trb
  ring : Ring
  pending : List Store
  pointer : Nat
  state : UInt32
  called : List Trb
  processed : List Trb

/-- After `ring_init`, with the controller set to the start of the ring and cycle state 1. -/
def ringInit (base : UInt32) : World := ⟨base, fun _ => ⟨0, 0, 0, 0⟩, ⟨0, 1⟩, [], base.toNat, 1, [], []⟩

/-- A call of `enqueue`. -/
def World.call (w : World) (t : Trb) : World :=
  let (stores, ring, _) := enqueue w.base w.ring t
  { w with ring := ring, pending := stores, called := w.called ++ [t] }

/-- The next store of the call is made. -/
def World.store (w : World) : World :=
  match w.pending with
  | [] => w
  | s :: rest => { w with trbs := s.apply w.trbs, pending := rest }

/-- The block at the controller's pointer. -/
def World.front (w : World) : Trb := w.trbs ((w.pointer - w.base.toNat) / 16)

/-- A step of the controller: it waits, follows a link or processes a block. -/
def World.consume (w : World) : World :=
  let t := w.front
  if t.d &&& 1 ≠ w.state then w
  else if (t.d >>> 10) &&& 63 = 6 then
    { w with
      pointer := t.a.toNat + 4294967296 * t.b.toNat
      state := if t.d &&& 2 ≠ 0 then w.state ^^^ 1 else w.state }
  else { w with pointer := w.pointer + 16, processed := w.processed ++ [t] }

/-- The control words that the callers of `enqueue` pass: no cycle bit, and not the type of a link. -/
def Plain (control : UInt32) : Prop := control &&& 1 = 0 ∧ (control >>> 10) &&& 63 ≠ 6

instance (control : UInt32) : Decidable (Plain control) := inferInstanceAs (Decidable (_ ∧ _))

/-- What is reached when calls, stores and steps of the controller come in any order, with fewer than
63 blocks outstanding at each call. -/
inductive Reach (base : UInt32) : World → Prop
  | init : Reach base (ringInit base)
  | call {w : World} {t : Trb} : Reach base w → w.pending = [] → w.called.length < w.processed.length + 63 → Plain t.d →
      Reach base (w.call t)
  | store {w : World} : Reach base w → Reach base w.store
  | consume {w : World} : Reach base w → Reach base w.consume

/-! ## The control words -/

/-- The control word of `command`. -/
def commandWord (type slot : UInt32) : UInt32 :=
  trbType type ||| (slot &&& (255 : UInt32)) <<< (24 : UInt32) ||| (slot >>> (8 : UInt32)) <<< (16 : UInt32)

theorem plain_congr {x y : UInt32} (h : x.toNat % 65536 = y.toNat % 65536) (hy : Plain y) : Plain x := by
  have hbit (z : UInt32) : (z &&& 1).toNat = z.toNat % 2 := by
    rw [UInt32.toNat_and]
    exact Nat.and_one_is_mod _
  have htype (z : UInt32) : ((z >>> 10) &&& 63).toNat = z.toNat / 1024 % 64 := by
    rw [UInt32.toNat_and, UInt32.toNat_shiftRight, Nat.shiftRight_eq_div_pow]
    exact Nat.and_two_pow_sub_one_eq_mod _ 6
  obtain ⟨hcycle, hlink⟩ := hy
  constructor
  · apply UInt32.toNat_inj.1
    rw [hbit]
    have := congrArg UInt32.toNat hcycle
    rw [hbit] at this
    change y.toNat % 2 = 0 at this
    change x.toNat % 2 = 0
    omega
  · intro hx
    apply hlink
    apply UInt32.toNat_inj.1
    have := congrArg UInt32.toNat hx
    rw [htype] at this ⊢
    omega

theorem toNat_or_high (x y : UInt32) {n : UInt32} (hn : 16 ≤ n.toNat % 32) : (x ||| y <<< n).toNat % 65536 = x.toNat % 65536 := by
  have hhigh : (y <<< n).toNat % 2 ^ 16 = 0 := by
    rw [UInt32.toNat_shiftLeft, Nat.shiftLeft_eq, Nat.mod_mod_of_dvd _ (by decide : 2 ^ 16 ∣ 2 ^ 32)]
    exact Nat.mod_eq_zero_of_dvd (Nat.dvd_mul_left_of_dvd (Nat.pow_dvd_pow 2 hn) _)
  rw [UInt32.toNat_or]
  change _ % 2 ^ 16 = _ % 2 ^ 16
  rw [Nat.or_mod_two_pow, hhigh, Nat.or_zero]

/-- The words of `command`, for the types of its callers. -/
theorem plain_commandWord {type : UInt32} (h : type ∈ [9, 10, 11, 12, 13, 14, 15, 16]) (slot : UInt32) : Plain (commandWord type slot) := by
  refine plain_congr (y := trbType type) ?_ ?_
  · rw [commandWord, toNat_or_high _ _ (by decide), toNat_or_high _ _ (by decide)]
  · have hall : [9, 10, 11, 12, 13, 14, 15, 16].all (fun type => decide (Plain (trbType type))) = true := by decide
    exact of_decide_eq_true (List.all_eq_true.1 hall type h)

/-- `value << shift` -/
def flag (value shift : UInt32) : UInt32 := value <<< shift

/-- The words of a control transfer's setup (with a direction), data and status blocks, and of an
interrupt or bulk transfer. -/
def transferWords : List UInt32 :=
  [0, 2, 3].map (fun trt => trbType 2 ||| flag 1 6 ||| flag trt 16) ++ [0, 1].map (fun input => trbType 3 ||| flag 1 2 ||| flag input 16) ++
    [0, 1].map (fun input => trbType 4 ||| flag 1 5 ||| flag input 16) ++ [trbType 1 ||| flag 1 5 ||| flag 1 2]

theorem plain_transferWords : ∀ word ∈ transferWords, Plain word := by
  intro word hword
  have hall : transferWords.all (fun word => decide (Plain word)) = true := by decide
  exact of_decide_eq_true (List.all_eq_true.1 hall word hword)

/-! ## Laps -/

/-- The cycle bit of a lap. -/
def cycleOf (lap : Nat) : UInt32 := if lap % 2 = 0 then 1 else 0

/-- The block of call `p`, with the cycle bit of its lap. -/
def stamped (p : Nat) (t : Trb) : Trb := { t with d := t.d ||| cycleOf (p / 63) }

theorem cycleOf_cases (k : Nat) : cycleOf k = 0 ∨ cycleOf k = 1 := by
  unfold cycleOf
  split
  · exact .inr rfl
  · exact .inl rfl

theorem cycleOf_succ (k : Nat) : cycleOf (k + 1) = cycleOf k ^^^ 1 := by
  unfold cycleOf
  by_cases hk : k % 2 = 0
  · rw [if_pos hk, if_neg (by omega)]
    rfl
  · rw [if_neg hk, if_pos (by omega)]
    rfl

theorem cycleOf_succ_ne (k : Nat) : cycleOf (k + 1) ≠ cycleOf k := by
  rw [cycleOf_succ]
  rcases cycleOf_cases k with h | h <;> rw [h] <;> decide

theorem cycleOf_add_two (k : Nat) : cycleOf (k + 2) = cycleOf k := by
  unfold cycleOf
  rw [show (k + 2) % 2 = k % 2 by omega]

theorem bit_or_cycle {control : UInt32} (h : control &&& 1 = 0) (k : Nat) : (control ||| cycleOf k) &&& 1 = cycleOf k := by
  rcases cycleOf_cases k with hk | hk <;> rw [hk]
  · rw [UInt32.or_zero, h]
  · apply UInt32.toBitVec_inj.1
    ext i
    simp
    grind

theorem type_or_cycle (control : UInt32) (k : Nat) : (control ||| cycleOf k) >>> 10 = control >>> 10 := by
  rcases cycleOf_cases k with hk | hk <;> rw [hk]
  · rw [UInt32.or_zero]
  · apply UInt32.toBitVec_inj.1
    ext i
    simp

theorem link_d (base cycle : UInt32) : (linkTrb base cycle).d = trbType 6 ||| 2 ||| cycle := rfl

theorem bit_link (base : UInt32) (k : Nat) : (linkTrb base (cycleOf k)).d &&& 1 = cycleOf k := by
  rw [link_d]
  rcases cycleOf_cases k with hk | hk <;> rw [hk] <;> decide

theorem type_link (base : UInt32) (k : Nat) : ((linkTrb base (cycleOf k)).d >>> 10) &&& 63 = 6 := by
  rw [link_d]
  rcases cycleOf_cases k with hk | hk <;> rw [hk] <;> decide

theorem toggles_link (base : UInt32) (k : Nat) : (linkTrb base (cycleOf k)).d &&& 2 ≠ 0 := by
  rw [link_d]
  rcases cycleOf_cases k with hk | hk <;> rw [hk] <;> decide

/-! ## Stores under way -/

/-- The stores that finish putting `t` in a slot: the last one is to `d`, none before it is, and the
other fields will be those of `t`. -/
def Writes (slot : Nat) (t : Trb) (stores : List Store) (trbs : Nat → Trb) : Prop :=
  ∃ early, stores = early ++ [⟨slot, .d, t.d⟩] ∧ (∀ s ∈ early, s.slot = slot ∧ s.field ≠ .d) ∧
    let u := early.foldl (fun m s => s.apply m) trbs slot
    u.a = t.a ∧ u.b = t.b ∧ u.c = t.c

theorem apply_self (s : Store) (trbs : Nat → Trb) : s.apply trbs s.slot = (trbs s.slot).set s.value s.field := update_self ..

theorem apply_ne {s : Store} {i : Nat} (h : i ≠ s.slot) (trbs : Nat → Trb) : s.apply trbs i = trbs i := update_of_ne h ..

theorem writes_storesOf (slot : Nat) (t : Trb) (trbs : Nat → Trb) : Writes slot t (storesOf slot t) trbs := by
  refine ⟨[⟨slot, .a, t.a⟩, ⟨slot, .b, t.b⟩, ⟨slot, .c, t.c⟩], rfl, ?_, ?_⟩
  · intro s hs
    simp only [List.mem_cons, List.not_mem_nil, or_false] at hs
    rcases hs with rfl | rfl | rfl <;> exact ⟨rfl, nofun⟩
  · simp [Store.apply, Trb.set]

theorem writes_link (slot : Nat) (t : Trb) (trbs : Nat → Trb) :
    Writes slot t [⟨slot, .a, t.a⟩, ⟨slot, .c, t.c⟩, ⟨slot, .b, t.b⟩, ⟨slot, .d, t.d⟩] trbs := by
  refine ⟨[⟨slot, .a, t.a⟩, ⟨slot, .c, t.c⟩, ⟨slot, .b, t.b⟩], rfl, ?_, ?_⟩
  · intro s hs
    simp only [List.mem_cons, List.not_mem_nil, or_false] at hs
    rcases hs with rfl | rfl | rfl <;> exact ⟨rfl, nofun⟩
  · simp [Store.apply, Trb.set]

/-- The next of these stores completes the block, or leaves the cycle bit of its slot as it is. -/
theorem writes_next {slot : Nat} {t : Trb} {s : Store} {stores : List Store} {trbs : Nat → Trb} (h : Writes slot t (s :: stores) trbs) :
    s.slot = slot ∧ (stores = [] ∧ s.apply trbs slot = t ∨
      Writes slot t stores (s.apply trbs) ∧ (s.apply trbs slot).d = (trbs slot).d) := by
  obtain ⟨early, hstores, hearly, hfields⟩ := h
  cases early with
  | nil =>
    obtain ⟨rfl, rfl⟩ := List.cons.inj hstores
    refine ⟨rfl, .inl ⟨rfl, ?_⟩⟩
    obtain ⟨ha, hb, hc⟩ := hfields
    rw [apply_self ⟨slot, .d, t.d⟩ trbs]
    cases t
    simp only [Trb.set, Trb.mk.injEq, and_true]
    exact ⟨ha, hb, hc⟩
  | cons s' early =>
    obtain ⟨rfl, rfl⟩ := List.cons.inj hstores
    obtain ⟨hslot, hfield⟩ := hearly s (List.mem_cons_self ..)
    refine ⟨hslot, .inr ⟨⟨early, rfl, fun s' hs' => hearly s' (List.mem_cons_of_mem _ hs'), hfields⟩, ?_⟩⟩
    subst hslot
    rw [apply_self]
    cases hf : s.field with
    | a | b | c => rfl
    | d => exact absurd hf hfield

theorem writes_ne_nil {slot : Nat} {t : Trb} {trbs : Nat → Trb} : ¬ Writes slot t [] trbs := by
  rintro ⟨early, hstores, -⟩
  cases early <;> cases hstores

/-! ## The invariant -/

/-- Where a call stands: none is under way, a block is being put in slot `n` of lap `k`, or the link of
lap `k` is being written, with the block of the call behind it. -/
inductive Stage (w : World) (k n : Nat) : Prop where
  | idle (hpending : w.pending = []) (hring : w.ring = ⟨n, cycleOf k⟩) (hcalled : w.called.length = 63 * k + n)
  | block {t : Trb} (hwrites : Writes n (stamped (63 * k + n) t) w.pending w.trbs) (hn : n < 63)
      (hring : w.ring = ⟨n + 1, cycleOf k⟩) (hcalled : w.called.length = 63 * k + n + 1) (ht : w.called[63 * k + n]? = some t)
      (hroom : 63 * k + n < w.processed.length + 63)
  | link {t : Trb} {stores : List Store} (hwrites : Writes 63 (linkTrb w.base (cycleOf k)) stores w.trbs) (hn : n = 63)
      (hpending : w.pending = stores ++ storesOf 0 (stamped (63 * (k + 1)) t))
      (hring : w.ring = ⟨1, cycleOf (k + 1)⟩) (hcalled : w.called.length = 63 * k + 64) (ht : w.called[63 * k + 63]? = some t)
      (hroom : 63 * k < w.processed.length)

/-- The driver is at slot `n` of its lap `k`, the controller at slot `j` of its lap `l`. -/
structure Fifo (w : World) (k n l j : Nat) : Prop where
  stage : Stage w k n
  n_le : n ≤ 63
  j_le : j ≤ 63
  lap : l = k ∧ j ≤ n ∨ l + 1 = k ∧ n ≤ j
  pointer : w.pointer = w.base.toNat + 16 * j
  state : w.state = cycleOf l
  done : w.processed.length = 63 * l + j
  bits : ∀ i ≤ 63, (w.trbs i).d &&& 1 = if i < n then cycleOf k else cycleOf (k + 1)
  held : ∀ p, w.processed.length ≤ p → p < 63 * k + n → ∃ t, w.called[p]? = some t ∧ w.trbs (p % 63) = stamped p t
  link : l + 1 = k → w.trbs 63 = linkTrb w.base (cycleOf l)
  plain : ∀ t ∈ w.called, Plain t.d
  fifo : w.processed = (w.called.take w.processed.length).mapIdx stamped

theorem fifo_init (base : UInt32) : Fifo (ringInit base) 0 0 0 0 where
  stage := .idle rfl rfl rfl
  n_le := Nat.zero_le _
  j_le := Nat.zero_le _
  lap := .inl ⟨rfl, Nat.le_refl _⟩
  pointer := rfl
  state := rfl
  done := rfl
  bits i _ := by
    rw [if_neg (Nat.not_lt_zero i)]
    change (0 : UInt32) &&& 1 = 0
    rfl
  held p _ hp := absurd hp (Nat.not_lt_zero p)
  link h := absurd h (by decide)
  plain _ h := nomatch h
  fifo := rfl

section

variable {w : World} {k n l j : Nat}

/-- No more blocks are processed than calls were made and completed. -/
theorem Fifo.processed_le (h : Fifo w k n l j) : w.processed.length ≤ 63 * k + n := by
  have hdone := h.done
  have hj := h.j_le
  rcases h.lap with ⟨rfl, hle⟩ | ⟨rfl, hle⟩ <;> omega

theorem Fifo.called_ge (h : Fifo w k n l j) : 63 * k + n ≤ w.called.length := by
  cases h.stage with
  | idle _ _ hcalled => omega
  | block _ _ _ hcalled => omega
  | link _ hn _ _ hcalled => omega

/-- A call that finds room. -/
theorem fifo_call (h : Fifo w k n l j) (hidle : w.pending = []) (hroom : w.called.length < w.processed.length + 63) {t : Trb}
    (ht : Plain t.d) : Fifo (w.call t) k n l j := by
  cases h.stage with
  | block hwrites => exact absurd (hidle ▸ hwrites) writes_ne_nil
  | link hwrites hn hpending =>
    rw [hidle] at hpending
    exact absurd hpending (by simp [storesOf])
  | idle _ hring hcalled =>
    have hlast : (w.called ++ [t])[63 * k + n]? = some t := by rw [← hcalled]; exact List.getElem?_concat_length
    have hstage : Stage (w.call t) k n := by
      by_cases hn : n = 63
      · subst hn
        refine .link (writes_link 63 (linkTrb w.base (cycleOf k)) w.trbs) rfl ?_ ?_ ?_ hlast ?_
        · change (enqueue w.base w.ring t).1 = _
          rw [hring, enqueue_wraps, ← cycleOf_succ, stamped, Nat.mul_div_cancel_left _ (by decide)]
          rfl
        · change (enqueue w.base w.ring t).2.1 = _
          rw [hring, cycleOf_succ]
          rfl
        · change (w.called ++ [t]).length = _
          rw [List.length_append, hcalled]
          rfl
        · change 63 * k < w.processed.length
          omega
      · have hlt : n < 63 := Nat.lt_of_le_of_ne h.n_le hn
        have hstores : enqueue w.base w.ring t =
            (storesOf n (stamped (63 * k + n) t), ⟨n + 1, cycleOf k⟩, w.base + 16 * .ofNat n) := by
          rw [hring, enqueue_fits hn, stamped, show (63 * k + n) / 63 = k by omega]
        refine .block (t := t) ?_ hlt ?_ ?_ hlast ?_
        · change Writes n _ (enqueue w.base w.ring t).1 w.trbs
          rw [hstores]
          exact writes_storesOf n _ _
        · change (enqueue w.base w.ring t).2.1 = _
          rw [hstores]
        · change (w.called ++ [t]).length = _
          rw [List.length_append, hcalled]
          rfl
        · change 63 * k + n < w.processed.length + 63
          omega
    have hle := h.processed_le
    refine ⟨hstage, h.n_le, h.j_le, h.lap, h.pointer, h.state, h.done, h.bits, fun p hlow hp => ?_, h.link, ?_, ?_⟩
    · obtain ⟨u, hu, hslot⟩ := h.held p hlow hp
      refine ⟨u, ?_, hslot⟩
      change (w.called ++ [t])[p]? = _
      rw [List.getElem?_append_left (by omega), hu]
    · intro u hu
      rcases List.mem_append.1 hu with hu | hu
      · exact h.plain u hu
      · exact List.mem_singleton.1 hu ▸ ht
    · change w.processed = ((w.called ++ [t]).take w.processed.length).mapIdx stamped
      rw [List.take_append_of_le_length (by omega)]
      exact h.fifo

/-- A store of a call: it completes the link of the lap, it completes the block, or it changes nothing
that the controller may read. -/
theorem fifo_store (h : Fifo w k n l j) : ∃ k' n', Fifo w.store k' n' l j := by
  have hle := h.processed_le
  have hge := h.called_ge
  have hdone := h.done
  have hj := h.j_le
  cases hpending : w.pending with
  | nil =>
    have hnone : w.store = w := by rw [World.store, hpending]
    exact ⟨k, n, hnone.symm ▸ h⟩
  | cons s rest =>
    have hstore : w.store = { w with trbs := s.apply w.trbs, pending := rest } := by rw [World.store, hpending]
    rw [hstore]
    cases h.stage with
    | idle hidle =>
      rw [hidle] at hpending
      cases hpending
    | @block t hwrites hn hring hcalled ht hroom =>
      rw [hpending] at hwrites
      obtain ⟨hslot, hnext⟩ := writes_next hwrites
      -- The slot holds no block that is still to be processed.
      have hother : ∀ p, w.processed.length ≤ p → p < 63 * k + n → p % 63 ≠ s.slot := by
        intro p hlow hp
        rw [hslot]
        omega
      have hlink : ∀ i, i ≠ s.slot → s.apply w.trbs i = w.trbs i := fun i hi => apply_ne hi w.trbs
      have hheld : ∀ p, w.processed.length ≤ p → p < 63 * k + n →
          ∃ t, w.called[p]? = some t ∧ s.apply w.trbs (p % 63) = stamped p t := by
        intro p hlow hp
        rw [hlink _ (hother p hlow hp)]
        exact h.held p hlow hp
      have hlast : l + 1 = k → s.apply w.trbs 63 = linkTrb w.base (cycleOf l) := by
        intro hl
        rw [hlink 63 (by omega)]
        exact h.link hl
      rcases hnext with ⟨rfl, hcomplete⟩ | ⟨hwrites', hkept⟩
      · have hlap : l = k ∧ j ≤ n + 1 ∨ l + 1 = k ∧ n + 1 ≤ j := by
          rcases h.lap with ⟨hl, hjn⟩ | ⟨hl, hjn⟩
          · exact .inl ⟨hl, by omega⟩
          · subst hl
            exact .inr ⟨rfl, by omega⟩
        refine ⟨k, n + 1, ⟨.idle rfl hring hcalled, by omega, hj, hlap, h.pointer, h.state, hdone, fun i hi => ?_, fun p hlow hp => ?_,
          hlast, h.plain, h.fifo⟩⟩
        · dsimp only
          by_cases hin : i = n
          · obtain ⟨hplain, -⟩ := h.plain t (List.mem_of_getElem? ht)
            rw [hin, hcomplete, if_pos (by omega), stamped, show (63 * k + n) / 63 = k by omega]
            exact bit_or_cycle hplain k
          · rw [hlink i (by omega), h.bits i hi]
            simp only [show i < n ↔ i < n + 1 by omega]
        · by_cases hp' : p < 63 * k + n
          · exact hheld p hlow hp'
          · obtain rfl : p = 63 * k + n := by omega
            refine ⟨t, ht, ?_⟩
            rw [show (63 * k + n) % 63 = n by omega]
            exact hcomplete
      · refine ⟨k, n, ⟨.block hwrites' hn hring hcalled ht hroom, h.n_le, hj, h.lap, h.pointer, h.state, hdone, fun i hi => ?_, hheld,
          hlast, h.plain, h.fifo⟩⟩
        dsimp only
        by_cases hin : i = n
        · rw [hin, hkept]
          exact h.bits n h.n_le
        · rw [hlink i (by omega)]
          exact h.bits i hi
    | @link t stores hwrites hn hstores hring hcalled ht hroom =>
      subst hn
      -- The controller is on the driver's lap, before the end of it.
      have hl : l = k := by
        rcases h.lap with ⟨hl, -⟩ | ⟨rfl, hjn⟩
        · exact hl
        · omega
      subst hl
      cases stores with
      | nil => exact absurd hwrites writes_ne_nil
      | cons s' stores =>
        rw [hpending] at hstores
        obtain ⟨rfl, rfl⟩ := List.cons.inj hstores
        obtain ⟨hslot, hnext⟩ := writes_next hwrites
        have hother : ∀ i, i ≠ 63 → s.apply w.trbs i = w.trbs i := fun i hi => apply_ne (hslot ▸ hi) w.trbs
        have hheld : ∀ p, w.processed.length ≤ p → p < 63 * l + 63 →
            ∃ t, w.called[p]? = some t ∧ s.apply w.trbs (p % 63) = stamped p t := by
          intro p hlow hp
          rw [hother _ (by omega)]
          exact h.held p hlow hp
        rcases hnext with ⟨rfl, hcomplete⟩ | ⟨hwrites', hkept⟩
        · refine ⟨l + 1, 0, ⟨?_, by omega, hj, .inr ⟨rfl, Nat.zero_le j⟩, h.pointer, h.state, hdone, fun i hi => ?_, hheld,
            fun _ => hcomplete, h.plain, h.fifo⟩⟩
          · exact .block (t := t) (writes_storesOf 0 _ _) (by decide) hring hcalled ht (by dsimp only; omega)
          · dsimp only
            rw [if_neg (Nat.not_lt_zero i), cycleOf_add_two]
            by_cases hlast : i = 63
            · rw [hlast, hcomplete]
              exact bit_link w.base l
            · rw [hother i hlast, h.bits i hi, if_pos (by omega)]
        · refine ⟨l, 63, ⟨.link hwrites' rfl rfl hring hcalled ht hroom, h.n_le, hj, h.lap, h.pointer, h.state, hdone, fun i hi => ?_,
            hheld, fun hl => absurd hl (by omega), h.plain, h.fifo⟩⟩
          dsimp only
          by_cases hlast : i = 63
          · rw [hlast, hkept]
            exact h.bits 63 (Nat.le_refl _)
          · rw [hother i hlast]
            exact h.bits i hi

/-! ## Steps of the controller -/

theorem Fifo.front_eq (h : Fifo w k n l j) : w.front = w.trbs j := by
  rw [World.front, h.pointer, show (w.base.toNat + 16 * j - w.base.toNat) / 16 = j by omega]

/-- The controller waits for the driver, takes the next block, or follows the link. -/
theorem consume_cases (h : Fifo w k n l j) :
    (l = k ∧ j = n ∧ w.consume = w) ∨
    (j < 63 ∧ ∃ t, w.processed.length < 63 * k + n ∧ w.called[w.processed.length]? = some t ∧
      w.consume = { w with pointer := w.pointer + 16, processed := w.processed ++ [stamped w.processed.length t] }) ∨
    (l + 1 = k ∧ j = 63 ∧ w.consume = { w with pointer := w.base.toNat, state := cycleOf k }) := by
  have hdone := h.done
  have hbit := h.bits j h.j_le
  have hprocess : j < 63 → w.processed.length < 63 * k + n → cycleOf l = (w.trbs j).d &&& 1 →
      ∃ t, w.processed.length < 63 * k + n ∧ w.called[w.processed.length]? = some t ∧
        w.consume = { w with pointer := w.pointer + 16, processed := w.processed ++ [stamped w.processed.length t] } := by
    intro hj hlt hvalid
    obtain ⟨t, ht, hslot⟩ := h.held _ (Nat.le_refl _) hlt
    rw [show w.processed.length % 63 = j by omega] at hslot
    obtain ⟨-, htype⟩ := h.plain t (List.mem_of_getElem? ht)
    refine ⟨t, hlt, ht, ?_⟩
    unfold World.consume
    dsimp only
    rw [h.front_eq, h.state, if_neg (not_not_intro hvalid.symm), hslot, if_neg]
    rw [stamped, type_or_cycle]
    exact htype
  rcases h.lap with ⟨rfl, hjn⟩ | ⟨rfl, hjn⟩
  · by_cases hend : j = n
    · refine .inl ⟨rfl, hend, ?_⟩
      unfold World.consume
      dsimp only
      rw [if_neg (Nat.not_lt.2 (Nat.le_of_eq hend.symm))] at hbit
      rw [h.front_eq, h.state, hbit, if_pos (cycleOf_succ_ne l)]
    · have hlt : j < n := by omega
      have hn := h.n_le
      rw [if_pos hlt] at hbit
      exact .inr (.inl ⟨by omega, hprocess (by omega) (by omega) hbit.symm⟩)
  · rw [if_neg (by omega), cycleOf_add_two] at hbit
    by_cases hend : j = 63
    · subst hend
      refine .inr (.inr ⟨rfl, rfl, ?_⟩)
      unfold World.consume
      dsimp only
      rw [h.front_eq, h.state, hbit, if_neg (not_not_intro rfl), h.link rfl, if_pos (type_link w.base l), if_pos (toggles_link w.base l),
        cycleOf_succ]
      rfl
    · have hj := h.j_le
      exact .inr (.inl ⟨by omega, hprocess (by omega) (by omega) hbit.symm⟩)

theorem fifo_consume (h : Fifo w k n l j) : ∃ l' j', Fifo w.consume k n l' j' := by
  have hdone := h.done
  have hge := h.called_ge
  rcases consume_cases h with ⟨-, -, hwait⟩ | ⟨hj, t, hlt, ht, htake⟩ | ⟨hl, hj, hfollow⟩
  · exact ⟨l, j, hwait.symm ▸ h⟩
  · rw [htake]
    have hlen : (w.processed ++ [stamped w.processed.length t]).length = w.processed.length + 1 := List.length_append
    have hstage : Stage { w with pointer := w.pointer + 16, processed := w.processed ++ [stamped w.processed.length t] } k n := by
      cases h.stage with
      | idle hpending hring hcalled => exact .idle hpending hring hcalled
      | block hwrites hn hring hcalled ht hroom => exact .block hwrites hn hring hcalled ht (by dsimp only; omega)
      | link hwrites hn hpending hring hcalled ht hroom => exact .link hwrites hn hpending hring hcalled ht (by dsimp only; omega)
    have hlap : l = k ∧ j + 1 ≤ n ∨ l + 1 = k ∧ n ≤ j + 1 := by
      rcases h.lap with ⟨rfl, hjn⟩ | ⟨rfl, hjn⟩
      · exact .inl ⟨rfl, by omega⟩
      · exact .inr ⟨rfl, by omega⟩
    refine ⟨l, j + 1, hstage, h.n_le, hj, hlap, ?_, h.state, ?_, h.bits, fun p hlow hp => h.held p (by dsimp only at hlow; omega) hp,
      h.link, h.plain, ?_⟩
    · dsimp only
      rw [h.pointer]
      omega
    · dsimp only
      omega
    · dsimp only
      rw [hlen, List.take_add_one, ht, List.mapIdx_append, ← h.fifo, List.length_take_of_le (by omega)]
      simp
  · subst hl hj
    rw [hfollow]
    have hstage : Stage { w with pointer := w.base.toNat, state := cycleOf (l + 1) } (l + 1) n := by
      cases h.stage with
      | idle hpending hring hcalled => exact .idle hpending hring hcalled
      | block hwrites hn hring hcalled ht hroom => exact .block hwrites hn hring hcalled ht hroom
      | link hwrites hn hpending hring hcalled ht hroom => exact .link hwrites hn hpending hring hcalled ht hroom
    exact ⟨l + 1, 0, hstage, h.n_le, Nat.zero_le _, .inl ⟨rfl, Nat.zero_le n⟩, rfl, rfl, hdone, h.bits, h.held,
      fun hl => absurd hl (by omega), h.plain, h.fifo⟩

end

/-! ## Every run -/

theorem fifo_reach {base : UInt32} {w : World} (h : Reach base w) : ∃ k n l j, Fifo w k n l j := by
  induction h with
  | init => exact ⟨0, 0, 0, 0, fifo_init base⟩
  | call _ hidle hroom ht ih =>
    obtain ⟨k, n, l, j, hfifo⟩ := ih
    exact ⟨k, n, l, j, fifo_call hfifo hidle hroom ht⟩
  | store _ ih =>
    obtain ⟨k, n, l, j, hfifo⟩ := ih
    obtain ⟨k', n', hstored⟩ := fifo_store hfifo
    exact ⟨k', n', l, j, hstored⟩
  | consume _ ih =>
    obtain ⟨k, n, l, j, hfifo⟩ := ih
    obtain ⟨l', j', hconsumed⟩ := fifo_consume hfifo
    exact ⟨k, n, l', j', hconsumed⟩

theorem length_lt_concat {α : Type} (xs : List α) (x : α) : xs.length < (xs ++ [x]).length := by
  rw [List.length_append]
  exact Nat.lt_succ_self _

/-- The controller does not wait for long: with no call under way, a block that is outstanding is
taken in its next step, or in the one after it when it is at the link. -/
theorem consume_progress {w : World} {k n l j : Nat} (h : Fifo w k n l j) (hidle : w.pending = [])
    (hlt : w.processed.length < w.called.length) : w.processed.length < w.consume.consume.processed.length := by
  have hgrows {v : World} {k n l j : Nat} (h : Fifo v k n l j) : v.processed.length ≤ v.consume.processed.length := by
    rcases consume_cases h with ⟨-, -, hwait⟩ | ⟨-, t, -, -, htake⟩ | ⟨-, -, hfollow⟩
    · exact Nat.le_of_eq (congrArg (fun u => u.processed.length) hwait.symm)
    · rw [htake]
      exact Nat.le_of_lt (length_lt_concat _ _)
    · exact Nat.le_of_eq (congrArg (fun u => u.processed.length) hfollow.symm)
  have hcalled : w.called.length = 63 * k + n := by
    cases h.stage with
    | idle _ _ hcalled => exact hcalled
    | block hwrites => exact absurd (hidle ▸ hwrites) writes_ne_nil
    | link _ _ hpending =>
      rw [hidle] at hpending
      exact absurd hpending (by simp [storesOf])
  have hdone := h.done
  obtain ⟨l₁, j₁, h₁⟩ := fifo_consume h
  rcases consume_cases h with ⟨rfl, rfl, -⟩ | ⟨-, t, -, -, htake⟩ | ⟨rfl, rfl, hfollow⟩
  · omega
  · refine Nat.lt_of_lt_of_le ?_ (hgrows h₁)
    rw [htake]
    exact length_lt_concat _ _
  · -- behind the link the controller is at slot 0 of the driver's lap
    have hsame : w.consume.processed.length = w.processed.length := by rw [hfollow]
    rcases consume_cases h₁ with ⟨rfl, rfl, -⟩ | ⟨-, t, -, -, htake⟩ | ⟨hlap, rfl, -⟩
    · have := h₁.done
      omega
    · rw [htake, ← hsame]
      exact length_lt_concat _ _
    · obtain rfl : l₁ = l := by omega
      have hstate := h₁.state
      rw [hfollow] at hstate
      exact absurd hstate (cycleOf_succ_ne l₁)

/-- In whatever order calls, stores and controller steps come: the processed blocks are the first ones
that were enqueued, in their order and with their fields, and none that is enqueued is left behind. -/
theorem ring_fifo {base : UInt32} {w : World} (h : Reach base w) :
    w.processed = (w.called.take w.processed.length).mapIdx stamped ∧ w.processed.length ≤ w.called.length ∧
      (w.pending = [] → w.processed.length < w.called.length → w.processed.length < w.consume.consume.processed.length) := by
  obtain ⟨k, n, l, j, hfifo⟩ := fifo_reach h
  exact ⟨hfifo.fifo, Nat.le_trans hfifo.processed_le hfifo.called_ge, consume_progress hfifo⟩

/-- A block is enqueued and processed while its stores are made. -/
def oneBlock : World := ((((ringInit 1024).call ⟨7, 0, 8, trbType 1 ||| 32⟩).store.consume.store).store.store).consume

theorem ring_fifo_one : oneBlock.processed = (oneBlock.called.take oneBlock.processed.length).mapIdx stamped ∧
    oneBlock.processed.length ≤ oneBlock.called.length ∧ (oneBlock.pending = [] → oneBlock.processed.length < oneBlock.called.length →
      oneBlock.processed.length < oneBlock.consume.consume.processed.length) :=
  @ring_fifo 1024 oneBlock (.consume (.store (.store (.store (.consume (.store (.call .init rfl (by decide) (by decide))))))))

end Barnix.Xhci
