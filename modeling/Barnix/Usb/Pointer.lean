import Mathlib.Data.List.Basic
import Mathlib.Logic.Function.Basic
/-!
# The pointer

`mouse.c`: one cursor for the PS/2 mouse and every USB mouse. A source is
connected or not, and each connected source has its buttons. Arithmetic is that
of the C types, so a sum that overflows wraps.

The calls of `mouse_source` are kept as a history, which no code reads.
-/

namespace Barnix.Usb

def sourcesMax : Nat := 96

structure BarnixMouse where
  x : Int32
  y : Int32
  buttons : UInt32
  sequence : UInt32
  available : Bool
deriving DecidableEq

/-- What a call of `mouse_source` says of its source. -/
structure SourceCall where
  source : Nat
  connected : Bool
  buttons : UInt32

/-- The static data of `mouse.c`. `packet` holds the bytes before `packet_index`. -/
structure Pointer where
  mouse : BarnixMouse
  present : Nat → Bool
  sourceButtons : Nat → UInt32
  wheelTotal : Int32
  horizontalTotal : Int32
  packet : List UInt8
  /-- The latest call first. -/
  calls : List SourceCall

def mouseReset : Pointer := ⟨⟨320, 200, 0, 0, false⟩, fun _ => false, fun _ => 0, 0, 0, [], []⟩

/-- A coordinate moved by a delta: the delta is bounded first. -/
def moved (position delta span : Int32) : Int32 :=
  let delta := if delta > span then span else delta
  let delta := if delta < -span then -span else delta
  let position := position + delta
  if position < 0 then 0 else if position > span - 1 then span - 1 else position

def allButtons (buttons : Nat → UInt32) : UInt32 := (List.range sourcesMax).foldl (fun all i => all ||| buttons i) 0

def anyPresent (present : Nat → Bool) : Bool := (List.range sourcesMax).any present

def mouseSource (source : Nat) (connected : Bool) (dx dy : Int32) (buttons : UInt32) (wheel horizontal : Int32)
    (s : Pointer) : Bool × Pointer :=
  if source ≥ sourcesMax then (false, s)
  else
    let present := Function.update s.present source connected
    let sourceButtons := Function.update s.sourceButtons source (if connected then buttons &&& 31 else 0)
    let all := allButtons sourceButtons
    let available := anyPresent present
    let x := moved s.mouse.x dx 640
    let y := moved s.mouse.y dy 400
    let changed : Bool := x ≠ s.mouse.x ∨ y ≠ s.mouse.y ∨ all ≠ s.mouse.buttons ∨ available ≠ s.mouse.available ∨
      wheel ≠ 0 ∨ horizontal ≠ 0
    let sequence := if changed then s.mouse.sequence + 1 else s.mouse.sequence
    (changed, { s with
      mouse := ⟨x, y, all, sequence, available⟩, present := present, sourceButtons := sourceButtons
      wheelTotal := s.wheelTotal + wheel, horizontalTotal := s.horizontalTotal + horizontal
      calls := ⟨source, connected, buttons⟩ :: s.calls })

def mouseRelative (dx dy : Int32) (buttons : UInt32) (s : Pointer) : Bool × Pointer :=
  mouseSource 0 true dx dy (buttons &&& 7) 0 0 s

/-- A byte, as an `int`. -/
def byteInt (b : UInt8) : Int32 := b.toUInt32.toInt32

def mouseFeed (byte : UInt8) (s : Pointer) : Bool × Pointer :=
  -- a packet starts at a byte with bit 3 set
  if s.packet = [] ∧ byte &&& 8 = 0 then (false, s)
  else match s.packet with
    | [flags, right] =>
      let s := { s with packet := [] }
      let dx := byteInt right - if flags &&& 16 ≠ 0 then 256 else 0
      let dy := byteInt byte - if flags &&& 32 ≠ 0 then 256 else 0
      if flags &&& 0xc0 ≠ 0 then mouseRelative 0 (-0) (flags &&& 7).toUInt32 s
      else mouseRelative dx (-dy) (flags &&& 7).toUInt32 s
    | begun => (false, { s with packet := begun ++ [byte] })

def mouseUsbReport (report : List UInt8) (s : Pointer) : Bool × Pointer :=
  match report with
  | buttons :: right :: down :: _ =>
    let dx := byteInt right - if right &&& 128 ≠ 0 then 256 else 0
    let dy := byteInt down - if down &&& 128 ≠ 0 then 256 else 0
    mouseRelative dx dy buttons.toUInt32 s
  | _ => (false, s)

/-! ## One call -/

theorem toInt_neg_span {span : Int32} (hspan : 0 < span.toInt) (hsmall : span.toInt ≤ 65536) : (-span).toInt = -span.toInt := by
  rw [Int32.toInt_neg, Int.bmod_eq_of_le]
  all_goals omega

/-- No sum overflows, whatever the delta. -/
theorem toInt_moved {position delta span : Int32} (hsmall : span.toInt ≤ 65536) (hlow : 0 ≤ position.toInt)
    (hhigh : position.toInt < span.toInt) :
    (moved position delta span).toInt =
      max 0 (min (span.toInt - 1) (position.toInt + max (-span.toInt) (min delta.toInt span.toInt))) := by
  have hneg := toInt_neg_span (Int.lt_of_le_of_lt hlow hhigh) hsmall
  have hlast : (span - 1).toInt = span.toInt - 1 := by
    rw [Int32.toInt_sub, Int32.toInt_one, Int.bmod_eq_of_le]
    all_goals omega
  have hdelta : (if (if delta > span then span else delta) < -span then -span else if delta > span then span else delta).toInt =
      max (-span.toInt) (min delta.toInt span.toInt) := by
    simp only [gt_iff_lt, Int32.lt_iff_toInt_lt]
    split <;> split <;> simp only [Int32.lt_iff_toInt_lt, hneg] at * <;> grind
  simp only [moved]
  generalize (if (if delta > span then span else delta) < -span then -span else if delta > span then span else delta) = bounded at hdelta
  have hsum : (position + bounded).toInt = position.toInt + bounded.toInt := by
    rw [Int32.toInt_add, Int.bmod_eq_of_le]
    all_goals omega
  simp only [gt_iff_lt, Int32.lt_iff_toInt_lt, hsum, hlast, Int32.toInt_zero]
  split
  · rw [Int32.toInt_zero]
    omega
  · split
    · rw [hlast]
      omega
    · rw [hsum]
      omega

/-- The cursor is on the screen. -/
def BarnixMouse.OnScreen (m : BarnixMouse) : Prop :=
  (0 ≤ m.x.toInt ∧ m.x.toInt ≤ 639) ∧ 0 ≤ m.y.toInt ∧ m.y.toInt ≤ 399

theorem mouseSource_beyond {source : Nat} (h : sourcesMax ≤ source) (connected : Bool) (dx dy : Int32) (buttons : UInt32)
    (wheel horizontal : Int32) (s : Pointer) : mouseSource source connected dx dy buttons wheel horizontal s = (false, s) := if_pos h

theorem moved_mem {position : Int32} (delta : Int32) {span : Int32} (hsmall : span.toInt ≤ 65536) (hlow : 0 ≤ position.toInt)
    (hhigh : position.toInt < span.toInt) :
    0 ≤ (moved position delta span).toInt ∧ (moved position delta span).toInt < span.toInt := by
  rw [toInt_moved hsmall hlow hhigh]
  omega

theorem onScreen_mouseSource (source : Nat) (connected : Bool) (dx dy : Int32) (buttons : UInt32) (wheel horizontal : Int32)
    {s : Pointer} (h : s.mouse.OnScreen) : (mouseSource source connected dx dy buttons wheel horizontal s).2.mouse.OnScreen := by
  unfold mouseSource
  split
  · exact h
  obtain ⟨⟨hx, hx'⟩, hy, hy'⟩ := h
  have hwidth : (640 : Int32).toInt = 640 := by decide
  have hheight : (400 : Int32).toInt = 400 := by decide
  have hmovedx := @moved_mem _ dx 640 (by omega) hx (by omega)
  have hmovedy := @moved_mem _ dy 400 (by omega) hy (by omega)
  rw [hwidth] at hmovedx
  rw [hheight] at hmovedy
  exact ⟨⟨hmovedx.1, Int.lt_add_one_iff.1 hmovedx.2⟩, hmovedy.1, Int.lt_add_one_iff.1 hmovedy.2⟩

/-- The sequence number counts the calls that changed something or turned a wheel. -/
theorem mouseSource_sequence {source : Nat} (h : source < sourcesMax) (connected : Bool) (dx dy : Int32) (buttons : UInt32)
    (wheel horizontal : Int32) (s : Pointer) :
    let r := mouseSource source connected dx dy buttons wheel horizontal s
    let changed := r.2.mouse.x ≠ s.mouse.x ∨ r.2.mouse.y ≠ s.mouse.y ∨ r.2.mouse.buttons ≠ s.mouse.buttons ∨
      r.2.mouse.available ≠ s.mouse.available ∨ wheel ≠ 0 ∨ horizontal ≠ 0
    r.1 = decide changed ∧ r.2.mouse.sequence = if changed then s.mouse.sequence + 1 else s.mouse.sequence := by
  unfold mouseSource
  rw [if_neg (by omega)]
  dsimp only
  refine ⟨rfl, ?_⟩
  simp only [decide_eq_true_eq]

/-! ## The sources -/

/-- The buttons a source had last, while it is connected. -/
def lastState (calls : List SourceCall) (source : Nat) : Option UInt32 :=
  (calls.find? fun c => c.source == source).bind fun c => if c.connected then some (c.buttons &&& 31) else none

/-- The last button states of the connected sources. -/
def connectedButtons (calls : List SourceCall) : List UInt32 := (List.range sourcesMax).filterMap (lastState calls)

/-- The cursor is on the screen, and shows what the sources said last. -/
structure Fused (s : Pointer) : Prop where
  onScreen : s.mouse.OnScreen
  buttons : s.mouse.buttons = allButtons s.sourceButtons
  available : s.mouse.available = anyPresent s.present
  present : ∀ i, s.present i = (lastState s.calls i).isSome
  sourceButtons : ∀ i, s.sourceButtons i = (lastState s.calls i).getD 0

theorem fused_mouseReset : Fused mouseReset := by
  refine ⟨by unfold BarnixMouse.OnScreen; decide, ?_, ?_, fun i => rfl, fun i => rfl⟩
  · simp [mouseReset, allButtons]
  · simp [mouseReset, anyPresent]

theorem lastState_cons (c : SourceCall) (calls : List SourceCall) (i : Nat) :
    lastState (c :: calls) i =
      if i = c.source then if c.connected then some (c.buttons &&& 31) else none else lastState calls i := by
  unfold lastState
  rw [List.find?_cons]
  by_cases h : c.source = i
  · rw [beq_iff_eq.2 h, if_pos h.symm]
    rfl
  · rw [beq_eq_false_iff_ne.2 h, if_neg (Ne.symm h)]

theorem Fused.mouseSource {s : Pointer} (h : Fused s) (source : Nat) (connected : Bool) (dx dy : Int32) (buttons : UInt32)
    (wheel horizontal : Int32) : Fused (mouseSource source connected dx dy buttons wheel horizontal s).2 := by
  have hscreen := onScreen_mouseSource source connected dx dy buttons wheel horizontal h.onScreen
  unfold Usb.mouseSource at hscreen ⊢
  split at hscreen
  · rename_i hbeyond
    rw [if_pos hbeyond]
    exact h
  rename_i hsource
  rw [if_neg hsource]
  refine ⟨hscreen, ?_, ?_, fun i => ?_, fun i => ?_⟩
  · dsimp only
  · dsimp only
  · rw [lastState_cons]
    dsimp only
    by_cases hi : i = source
    · cases connected <;> simp [hi]
    · simp [hi, h.present]
  · rw [lastState_cons]
    dsimp only
    by_cases hi : i = source
    · cases connected <;> simp [hi]
    · simp [hi, h.sourceButtons]

theorem Fused.packet {s : Pointer} (h : Fused s) (packet : List UInt8) : Fused { s with packet := packet } :=
  ⟨h.onScreen, h.buttons, h.available, h.present, h.sourceButtons⟩

theorem Fused.mouseFeed {s : Pointer} (h : Fused s) (byte : UInt8) : Fused (mouseFeed byte s).2 := by
  unfold Usb.mouseFeed
  split
  · exact h
  split
  · dsimp only
    split
    · exact (h.packet []).mouseSource ..
    · exact (h.packet []).mouseSource ..
  · exact h.packet _

theorem Fused.mouseUsbReport {s : Pointer} (h : Fused s) (report : List UInt8) : Fused (mouseUsbReport report s).2 := by
  unfold Usb.mouseUsbReport
  split
  · exact h.mouseSource ..
  · exact h

/-- Of a fused pointer, the buttons are those of the connected sources. -/
theorem Fused.all_buttons {s : Pointer} (h : Fused s) : s.mouse.buttons = (connectedButtons s.calls).foldl (· ||| ·) 0 := by
  rw [h.buttons]
  unfold allButtons connectedButtons
  rw [List.foldl_filterMap]
  congr 1
  funext all i
  rw [h.sourceButtons]
  cases lastState s.calls i <;> simp

theorem Fused.available_iff {s : Pointer} (h : Fused s) :
    s.mouse.available = true ↔ ∃ i < sourcesMax, (lastState s.calls i).isSome := by
  rw [h.available]
  simp only [anyPresent, List.any_eq_true, List.mem_range, h.present]

end Barnix.Usb
