import Barnix.Lib.Arrays
import Barnix.Lib.Decimal
/-!
# Formatted output

`format_output` of `stdio.c` and its two ends: `fprintf` gives the bytes to a stream, `snprintf` puts
those that fit into a buffer. The count of the bytes is an `int` that wraps.
-/

namespace Barnix.Stdio

/-- `int` arithmetic. -/
def wrap (x : Int) : Int := x.bmod 4294967296

/-- The bytes of a string, up to its NUL. -/
structure Text where
  bytes : List UInt8
  noNul : 0 ∉ bytes

/-- An argument that `va_arg` reads: a word, or a pointer to a string that may be null. -/
inductive Arg where
  | word (v : BitVec 32)
  | text (s : Option Text)

/-- What `%s` prints: the string, or `(null)`. -/
def textOf (s : Option Text) : List UInt8 :=
  match s with
  | some s => s.bytes
  | none => [40, 110, 117, 108, 108, 41]

/-- The bytes go to a stream, or into a buffer of some capacity. -/
inductive Sink where
  | stream
  | buffer (capacity : Int)

/-- `written`, the bytes given to `fputc`, and the stores to `buffer` with their indices. -/
structure Output where
  written : Int
  emitted : List UInt8
  stores : List (Int × UInt8)

/-! ## Numbers -/

/-- `do { reverse[count++] = '0' + n % 10; n /= 10; } while (n)` in an array with `room` left. -/
def reverseDigits : Nat → Nat → Checked (List UInt8)
  | 0, _ => .error .overrun
  | room + 1, n =>
    let digit := UInt8.ofNat (48 + n % 10)
    if n / 10 = 0 then .ok [digit]
    else do
      let more ← reverseDigits room (n / 10)
      .ok (digit :: more)

/-- `decimal`; `-value` wraps for the least `int`. -/
def decimal (value : BitVec 32) : Checked (List UInt8) := do
  let n := if value.toInt < 0 then (-value).toNat else value.toNat
  let reverse ← reverseDigits 12 n
  let out := (if value.toInt < 0 then [45] else []) ++ reverse.reverse
  if out.length < 16 then .ok out else .error .overrun

/-! ## The formatter -/

/-- `if (buffer) { if (index + 1 < capacity) buffer[index] = x; } else if (stream) fputc(x, stream);` -/
def put (sink : Sink) (index : Int) (x : UInt8) (o : Output) : Output :=
  match sink with
  | .stream => { o with emitted := o.emitted ++ [x] }
  | .buffer capacity => if wrap (index + 1) < capacity then { o with stores := o.stores ++ [(index, x)] } else o

/-- A byte at `written`, and `written++`. -/
def putNext (sink : Sink) (o : Output) (x : UInt8) : Output :=
  let o := put sink o.written x o
  { o with written := wrap (o.written + 1) }

/-- `%d`: the digits from the first to the last. -/
def putSigned (sink : Sink) (number : List UInt8) (o : Output) : Output :=
  let o := number.zipIdx.foldl (fun o p => put sink (wrap (o.written + p.2)) p.1 o) o
  { o with written := wrap (o.written + number.length) }

/-- `%u`: `number` holds the digits in reverse, and `i` runs down from `n - 1`. -/
def putUnsigned (sink : Sink) (number : List UInt8) (o : Output) : Output :=
  let n := number.length
  let o := number.zipIdx.reverse.foldl (fun o p => put sink (wrap (o.written + n - 1 - p.2)) p.1 o) o
  { o with written := wrap (o.written + n) }

/-- An unknown conversion. -/
def putUnknown (sink : Sink) (f : UInt8) (o : Output) : Output :=
  let o := put sink o.written 37 o
  let o := put sink (wrap (o.written + 1)) f o
  { o with written := wrap (o.written + 2) }

/-- The conversion behind a `%`: the output and the other arguments. -/
def convert (sink : Sink) (f : UInt8) (args : List Arg) (o : Output) : Checked (Output × List Arg) :=
  if f = 100 then
    match args with
    | .word v :: args => do
      let number ← decimal v
      .ok (putSigned sink number o, args)
    | _ => .error .failed
  else if f = 117 then
    match args with
    | .word v :: args => do
      let number ← reverseDigits 16 v.toNat
      .ok (putUnsigned sink number o, args)
    | _ => .error .failed
  else if f = 99 then
    match args with
    | .word v :: args => .ok (putNext sink o (.ofNat v.toNat), args)
    | _ => .error .failed
  else if f = 115 then
    match args with
    | .text s :: args => .ok ((textOf s).foldl (putNext sink) o, args)
    | _ => .error .failed
  else if f = 37 then .ok (putNext sink o 37, args)
  else .ok (putUnknown sink f o, args)

/-- `while (*format)`. The end of the list is the NUL: behind a last `%` it is the conversion, and the
loop does not step over it. -/
def formatLoop (sink : Sink) : List UInt8 → List Arg → Output → Checked Output
  | [], _, o => .ok o
  | c :: format, args, o =>
    if c ≠ 37 then formatLoop sink format args (putNext sink o c)
    else
      match format with
      | [] => do
        let (o, _) ← convert sink 0 args o
        .ok o
      | f :: format => do
        let (o, args) ← convert sink f args o
        formatLoop sink format args o

/-- `format_output`, with the NUL behind what was written to the buffer. -/
def formatOutput (sink : Sink) (format : Text) (args : List Arg) : Checked Output := do
  let o ← formatLoop sink format.bytes args ⟨0, [], []⟩
  match sink with
  | .stream => .ok o
  | .buffer capacity =>
    if capacity > 0 then .ok { o with stores := o.stores ++ [(if o.written < capacity then o.written else capacity - 1, 0)] } else .ok o

/-- The count and the bytes for the stream. -/
def fprintf (format : Text) (args : List Arg) : Checked (Int × List UInt8) := do
  let o ← formatOutput .stream format args
  .ok (o.written, o.emitted)

/-- The count and the stores to the buffer. -/
def snprintf (capacity : Nat) (format : Text) (args : List Arg) : Checked (Int × List (Int × UInt8)) := do
  let o ← formatOutput (.buffer (wrap capacity)) format args
  .ok (o.written, o.stores)

/-! ## What is to be printed -/

/-- What a conversion stands for, and the other arguments, when the first ones match it. -/
def converted (f : UInt8) (args : List Arg) : Option (List UInt8 × List Arg) :=
  if f = 100 then
    match args with
    | .word v :: args => some (signedOf v.toInt, args)
    | _ => none
  else if f = 117 then
    match args with
    | .word v :: args => some (decimalOf v.toNat, args)
    | _ => none
  else if f = 99 then
    match args with
    | .word v :: args => some ([.ofNat v.toNat], args)
    | _ => none
  else if f = 115 then
    match args with
    | .text s :: args => some (textOf s, args)
    | _ => none
  else some (if f = 37 then [37] else [37, f], args)

/-- The bytes of a format with arguments that match it. -/
def rendered : List UInt8 → List Arg → Option (List UInt8)
  | [], _ => some []
  | c :: format, args =>
    if c ≠ 37 then (rendered format args).map (c :: ·)
    else
      match format with
      | [] => some [37, 0]
      | f :: format => do
        let (bytes, args) ← converted f args
        (rendered format args).map (bytes ++ ·)

/-- The byte that the stores leave at an index. -/
def storedAt (stores : List (Int × UInt8)) (i : Int) : Option UInt8 := ((stores.filter (·.1 = i)).getLast?).map (·.2)

/-- `snprintf` and `fprintf` agree on these arguments: on the count, and on the bytes as far as the
capacity allows. -/
structure Agrees (capacity : Nat) (format : Text) (args : List Arg) (bytes : List UInt8) : Prop where
  agree : ∃ n stores, fprintf format args = .ok (n, bytes) ∧ snprintf capacity format args = .ok (n, stores) ∧
    (∀ p ∈ stores, 0 ≤ p.1 ∧ p.1 < capacity) ∧ (capacity = 0 → stores = []) ∧
    (0 < capacity → ∀ i : Nat, storedAt stores i =
      if (i : Int) < min n (capacity - 1) then bytes[i]? else if (i : Int) = min n (capacity - 1) then some 0 else none)

/-! ## Digits -/

/-- The loop gives the digits from the last to the first. -/
theorem reverseDigits_eq (room : Nat) : ∀ {n : Nat}, n < 10 ^ room → 0 < room →
    reverseDigits room n = .ok (decimalOf n).reverse := by
  induction room with
  | zero => exact fun _ h => absurd h (Nat.lt_irrefl 0)
  | succ room ih =>
    intro n hn _
    unfold reverseDigits
    by_cases hlast : n / 10 = 0
    · rw [if_pos hlast, decimalOf_small (by omega), Nat.mod_eq_of_lt (by omega)]
      rfl
    · have hroom : 0 < room := by
        rcases Nat.eq_zero_or_pos room with rfl | h
        · rw [Nat.pow_one] at hn
          omega
        · exact h
      have hrest : n / 10 < 10 ^ room := Nat.div_lt_of_lt_mul (by rwa [Nat.pow_succ, Nat.mul_comm] at hn)
      rw [if_neg hlast, ih hrest hroom, ok_bind, decimalOf_append hlast, List.reverse_append]
      rfl

/-- Every `int` is rendered as its value, also the least one, whose negation wraps. -/
theorem decimal_eq (v : BitVec 32) : decimal v = .ok (signedOf v.toInt) := by
  have hlt := v.isLt
  have hn : (if v.toInt < 0 then (-v).toNat else v.toNat) = v.toInt.natAbs := by
    rw [BitVec.toInt_eq_toNat_cond, BitVec.toNat_neg]
    split <;> split <;> omega
  have hsmall : v.toInt.natAbs < 10 ^ 12 := by
    rw [BitVec.toInt_eq_toNat_cond]
    split <;> omega
  have hlen := length_decimalOf hsmall (by decide)
  unfold decimal
  dsimp only
  rw [hn, reverseDigits_eq 12 hsmall (by decide), ok_bind, List.reverse_reverse, if_pos]
  · rfl
  · rw [List.length_append]
    split
    · rw [List.length_singleton]
      omega
    · rw [List.length_nil]
      omega

/-! ## One byte after the other -/

def emit (sink : Sink) (bytes : List UInt8) (o : Output) : Output := bytes.foldl (putNext sink) o

/-- `o` with another count. -/
def Output.at (o : Output) (written : Int) : Output := { o with written }

@[simp] theorem at_at (o : Output) (w w' : Int) : (o.at w).at w' = o.at w' := rfl

@[simp] theorem at_written (o : Output) (w : Int) : (o.at w).written = w := rfl

theorem wrap_wrap_add (w k : Int) : wrap (wrap w + k) = wrap (w + k) := Int.bmod_add_bmod

theorem wrap_wrap (w : Int) : wrap (wrap w) = wrap w := Int.bmod_bmod

theorem put_written (sink : Sink) (index : Int) (x : UInt8) (o : Output) : (put sink index x o).written = o.written := by
  unfold put
  cases sink with
  | stream => rfl
  | buffer capacity =>
    dsimp only
    split <;> rfl

theorem put_at (sink : Sink) (index : Int) (x : UInt8) (o : Output) (w : Int) : put sink index x (o.at w) = (put sink index x o).at w := by
  unfold put
  cases sink with
  | stream => rfl
  | buffer capacity =>
    dsimp only [Output.at]
    split <;> rfl

theorem putNext_at (sink : Sink) (x : UInt8) (o : Output) (w : Int) : putNext sink (o.at w) x = (put sink w x o).at (wrap (w + 1)) := by
  rw [putNext, at_written, put_at]
  rfl

/-- Bytes put at indices from `written + k` on are the next bytes of the output. -/
theorem emit_zipIdx (sink : Sink) (bytes : List UInt8) : ∀ (k : Nat) (o : Output),
    ((bytes.zipIdx k).foldl (fun o p => put sink (wrap (o.written + p.2)) p.1 o) o).at (wrap (o.written + (k + bytes.length : Nat))) =
      emit sink bytes (o.at (wrap (o.written + k))) := by
  induction bytes with
  | nil => exact fun k o => rfl
  | cons x bytes ih =>
    intro k o
    have hrest := ih (k + 1) (put sink (wrap (o.written + k)) x o)
    rw [put_written] at hrest
    have hnext : putNext sink (o.at (wrap (o.written + k))) x = (put sink (wrap (o.written + k)) x o).at (wrap (o.written + (k + 1 : Nat))) := by
      rw [putNext_at, wrap_wrap_add, Int.add_assoc]
      rfl
    rw [List.zipIdx_cons, List.foldl_cons, emit, List.foldl_cons, hnext]
    rw [show k + (x :: bytes).length = k + 1 + bytes.length by rw [List.length_cons]; omega]
    exact hrest

theorem fold_written (sink : Sink) (index : Output → UInt8 × Nat → Int) (l : List (UInt8 × Nat)) : ∀ o : Output,
    (l.foldl (fun o p => put sink (index o p) p.1 o) o).written = o.written := by
  induction l with
  | nil => exact fun o => rfl
  | cons p l ih =>
    intro o
    rw [List.foldl_cons, ih, put_written]

theorem putSigned_eq {sink : Sink} {number : List UInt8} {o : Output} (hw : wrap o.written = o.written) :
    putSigned sink number o = emit sink number o := by
  have h := emit_zipIdx sink number 0 o
  rw [Nat.zero_add, Int.natCast_zero, Int.add_zero, hw] at h
  refine Eq.trans ?_ h
  unfold putSigned
  dsimp only
  rw [fold_written]
  rfl

/-- The pairs of a list and its indices, from the last one on. -/
theorem zipIdx_reverse (number : List UInt8) :
    number.zipIdx.reverse = number.reverse.zipIdx.map fun p => (p.1, number.length - 1 - p.2) := by
  apply List.ext_getElem
  · simp
  · intro i hi hi'
    simp

theorem putUnsigned_eq {sink : Sink} {number : List UInt8} {o : Output} (hw : wrap o.written = o.written) :
    putUnsigned sink number o = emit sink number.reverse o := by
  have h := emit_zipIdx sink number.reverse 0 o
  rw [Nat.zero_add, Int.natCast_zero, Int.add_zero, hw, List.length_reverse] at h
  refine Eq.trans ?_ h
  unfold putUnsigned
  dsimp only
  rw [fold_written, zipIdx_reverse, List.foldl_map]
  change Output.at _ _ = _
  congr 1
  apply List.foldl_ext
  intro o' p hp
  have hlt : p.2 < number.length := by
    have := List.snd_lt_of_mem_zipIdx hp
    simpa using this
  congr 2
  omega

theorem putUnknown_eq {sink : Sink} {f : UInt8} {o : Output} (hw : wrap o.written = o.written) :
    putUnknown sink f o = emit sink [37, f] o := by
  have h := emit_zipIdx sink [37, f] 0 o
  rw [Nat.zero_add, Int.natCast_zero, Int.add_zero, hw] at h
  refine Eq.trans ?_ h
  unfold putUnknown
  dsimp only
  rw [put_written, put_written]
  simp only [List.zipIdx_cons, List.zipIdx_nil, List.foldl_cons, List.foldl_nil, put_written, Int.natCast_zero, Int.add_zero, hw]
  rfl

theorem emit_append (sink : Sink) (bytes more : List UInt8) (o : Output) : emit sink (bytes ++ more) o = emit sink more (emit sink bytes o) :=
  List.foldl_append

theorem emit_written (sink : Sink) (bytes : List UInt8) : ∀ {o : Output}, wrap o.written = o.written →
    (emit sink bytes o).written = wrap (o.written + bytes.length) := by
  induction bytes with
  | nil =>
    intro o hw
    rw [List.length_nil, Int.natCast_zero, Int.add_zero, hw]
    rfl
  | cons x bytes ih =>
    intro o hw
    have hnext : (putNext sink o x).written = wrap (o.written + 1) := by
      unfold putNext
      dsimp only
      rw [put_written]
    rw [emit, List.foldl_cons]
    refine (ih (by rw [hnext, wrap_wrap])).trans ?_
    rw [hnext, wrap_wrap_add, List.length_cons, Int.natCast_succ, Int.add_assoc, Int.add_comm 1]

theorem emit_wrapped (sink : Sink) (bytes : List UInt8) {o : Output} (hw : wrap o.written = o.written) :
    wrap (emit sink bytes o).written = (emit sink bytes o).written := by
  rw [emit_written sink bytes hw, wrap_wrap]

/-! ## Every conversion -/

/-- A conversion that its arguments match emits what it stands for. -/
theorem convert_eq {sink : Sink} {f : UInt8} {args args' : List Arg} {bytes : List UInt8} (h : converted f args = some (bytes, args'))
    {o : Output} (hw : wrap o.written = o.written) : convert sink f args o = .ok (emit sink bytes o, args') := by
  unfold converted at h
  unfold convert
  by_cases hd : f = 100
  · rw [if_pos hd] at h ⊢
    rcases args with _ | ⟨v | s, args⟩
    · cases h
    · obtain ⟨rfl, rfl⟩ := Prod.mk.inj (Option.some.inj h)
      dsimp only
      rw [decimal_eq, ok_bind, putSigned_eq hw]
    · cases h
  rw [if_neg hd] at h ⊢
  by_cases hu : f = 117
  · rw [if_pos hu] at h ⊢
    rcases args with _ | ⟨v | s, args⟩
    · cases h
    · obtain ⟨rfl, rfl⟩ := Prod.mk.inj (Option.some.inj h)
      have hlt := v.isLt
      dsimp only
      rw [reverseDigits_eq 16 (show v.toNat < 10 ^ 16 by omega) (by decide), ok_bind, putUnsigned_eq hw, List.reverse_reverse]
    · cases h
  rw [if_neg hu] at h ⊢
  by_cases hc : f = 99
  · rw [if_pos hc] at h ⊢
    rcases args with _ | ⟨v | s, args⟩
    · cases h
    · obtain ⟨rfl, rfl⟩ := Prod.mk.inj (Option.some.inj h)
      rfl
    · cases h
  rw [if_neg hc] at h ⊢
  by_cases hs : f = 115
  · rw [if_pos hs] at h ⊢
    rcases args with _ | ⟨v | s, args⟩
    · cases h
    · cases h
    · obtain ⟨rfl, rfl⟩ := Prod.mk.inj (Option.some.inj h)
      rfl
  rw [if_neg hs] at h ⊢
  obtain ⟨rfl, rfl⟩ := Prod.mk.inj (Option.some.inj h)
  by_cases hpercent : f = 37
  · rw [if_pos hpercent, if_pos hpercent]
    rfl
  · rw [if_neg hpercent, if_neg hpercent, putUnknown_eq hw]

/-- The loop emits the bytes of the format. -/
theorem formatLoop_eq {sink : Sink} (n : Nat) : ∀ {format : List UInt8} {args : List Arg} {bytes : List UInt8} {o : Output},
    format.length ≤ n → rendered format args = some bytes → wrap o.written = o.written →
    formatLoop sink format args o = .ok (emit sink bytes o) := by
  induction n with
  | zero =>
    intro format args bytes o hlen h _
    obtain rfl := List.length_eq_zero_iff.1 (Nat.le_zero.1 hlen)
    unfold rendered at h
    obtain rfl := Option.some.inj h
    rw [formatLoop]
    rfl
  | succ n ih =>
    intro format args bytes o hlen h hw
    cases format with
    | nil =>
      unfold rendered at h
      obtain rfl := Option.some.inj h
      rw [formatLoop]
      rfl
    | cons c format =>
      rw [List.length_cons] at hlen
      unfold rendered at h
      unfold formatLoop
      by_cases hc : c = 37
      · rw [if_neg (not_not_intro hc)] at h ⊢
        cases format with
        | nil =>
          obtain rfl := Option.some.inj h
          have hnul : converted 0 args = some ([37, 0], args) := rfl
          dsimp only
          rw [convert_eq hnul hw]
          rfl
        | cons f format =>
          rw [List.length_cons] at hlen
          obtain ⟨⟨text, args'⟩, hconverted, hmap⟩ := Option.bind_eq_some_iff.1 h
          obtain ⟨more, hrest, rfl⟩ := Option.map_eq_some_iff.1 hmap
          dsimp only
          rw [convert_eq hconverted hw, ok_bind, emit_append]
          exact ih (by omega) hrest (emit_wrapped sink text hw)
      · rw [if_pos hc] at h ⊢
        obtain ⟨more, hrest, rfl⟩ := Option.map_eq_some_iff.1 h
        exact ih (by omega) hrest (emit_wrapped sink [c] hw)

/-! ## The two ends -/

theorem emit_stream (bytes : List UInt8) (o : Output) : (emit .stream bytes o).emitted = o.emitted ++ bytes := by
  induction bytes generalizing o with
  | nil => exact (List.append_nil _).symm
  | cons x bytes ih =>
    rw [emit, List.foldl_cons]
    refine (ih (putNext .stream o x)).trans ?_
    exact List.append_assoc o.emitted [x] bytes

theorem fprintf_eq {format : Text} {args : List Arg} {bytes : List UInt8} (h : rendered format.bytes args = some bytes) :
    fprintf format args = .ok (wrap bytes.length, bytes) := by
  have hzero : wrap (0 : Int) = 0 := rfl
  rw [fprintf, formatOutput, formatLoop_eq _ (Nat.le_refl _) h hzero, ok_bind]
  dsimp only
  rw [ok_bind, emit_written .stream bytes hzero, emit_stream, Int.zero_add]
  rfl

/-- The stores of these bytes, one after the other. -/
def inOrder (bytes : List UInt8) : List (Int × UInt8) := bytes.zipIdx.map fun p => (p.2, p.1)

theorem inOrder_concat (bytes : List UInt8) (x : UInt8) : inOrder (bytes ++ [x]) = inOrder bytes ++ [((bytes.length : Int), x)] := by
  rw [inOrder, List.zipIdx_append, List.map_append, Nat.zero_add]
  rfl

theorem wrap_small {x : Int} (h0 : 0 ≤ x) (h : x < 2147483648) : wrap x = x := Int.bmod_eq_of_le (by omega) (by omega)

/-- As long as the count does not wrap, the buffer gets the bytes that fit. -/
theorem emit_buffer {c : Nat} (bytes : List UInt8) : bytes.length < 2147483648 →
    (emit (.buffer c) bytes ⟨0, [], []⟩).stores = inOrder (bytes.take (c - 1)) := by
  induction bytes using List.reverseRecOn with
  | nil =>
    intro _
    rw [List.take_nil]
    rfl
  | append_singleton bytes x ih =>
    intro hlen
    rw [List.length_append, List.length_singleton] at hlen
    have hwritten : (emit (.buffer c) bytes ⟨0, [], []⟩).written = bytes.length := by
      rw [emit_written _ _ rfl, Int.zero_add, wrap_small (by omega) (by omega)]
    have hstores := ih (by omega)
    rw [emit_append, emit, List.foldl_cons, List.foldl_nil, putNext]
    simp only [put, hwritten]
    rw [wrap_small (by omega) (by omega), List.take_append]
    by_cases hfits : bytes.length + 1 < c
    · rw [if_pos (by omega), List.take_of_length_le (show bytes.length ≤ c - 1 by omega), List.take_of_length_le (by simp; omega),
        inOrder_concat, hstores, List.take_of_length_le (by omega)]
    · rw [if_neg (by omega), hstores, show c - 1 - bytes.length = 0 by omega, List.take_zero, List.append_nil]

theorem storedAt_concat (stores : List (Int × UInt8)) (j : Int) (x : UInt8) (i : Int) :
    storedAt (stores ++ [(j, x)]) i = if j = i then some x else storedAt stores i := by
  unfold storedAt
  rw [List.filter_append]
  by_cases h : j = i
  · simp [h]
  · simp [h]

theorem storedAt_inOrder (bytes : List UInt8) (i : Nat) : storedAt (inOrder bytes) i = bytes[i]? := by
  induction bytes using List.reverseRecOn with
  | nil => rfl
  | append_singleton bytes x ih =>
    rw [inOrder_concat, storedAt_concat, ih, List.getElem?_append]
    by_cases hi : i < bytes.length
    · rw [if_neg (by omega), if_pos hi]
    · rw [if_neg hi, List.getElem?_singleton, List.getElem?_eq_none (by omega)]
      by_cases hlast : bytes.length = i
      · rw [if_pos (by omega), if_pos (by omega)]
      · rw [if_neg (by omega), if_neg (by omega)]

theorem snprintf_eq {c : Nat} (hc : c < 2147483648) {format : Text} {args : List Arg} {bytes : List UInt8}
    (h : rendered format.bytes args = some bytes) : snprintf c format args = .ok (wrap bytes.length,
      (emit (.buffer c) bytes ⟨0, [], []⟩).stores ++
        if 0 < c then [(if wrap bytes.length < c then wrap bytes.length else c - 1, 0)] else []) := by
  have hzero : wrap (0 : Int) = 0 := rfl
  have hwritten := @emit_written (.buffer c) bytes ⟨0, [], []⟩ hzero
  rw [Int.zero_add] at hwritten
  rw [snprintf, wrap_small (by omega) (by omega), formatOutput, formatLoop_eq _ (Nat.le_refl _) h hzero, ok_bind]
  dsimp only
  by_cases hpos : 0 < c
  · rw [if_pos (show (c : Int) > 0 by omega), ok_bind, if_pos hpos]
    dsimp only
    rw [hwritten]
  · rw [if_neg (show ¬ (c : Int) > 0 by omega), ok_bind, if_neg hpos, List.append_nil, hwritten]

/-- Outputs of less than 2^31 bytes: both ends agree. -/
theorem agrees {c : Nat} (hc : c < 2147483648) {format : Text} {args : List Arg} {bytes : List UInt8}
    (h : rendered format.bytes args = some bytes) (hlen : bytes.length < 2147483648) : Agrees c format args bytes := by
  have hwrap : wrap bytes.length = bytes.length := wrap_small (by omega) (by omega)
  have hbuffer := @emit_buffer c bytes hlen
  refine ⟨wrap bytes.length, _, fprintf_eq h, snprintf_eq hc h, ?_, ?_, ?_⟩
  · rw [hbuffer, hwrap]
    intro p hp
    rcases List.mem_append.1 hp with hp | hp
    · obtain ⟨⟨x, i⟩, hmem, rfl⟩ := List.mem_map.1 hp
      have hlt := List.snd_lt_of_mem_zipIdx hmem
      rw [List.length_take] at hlt
      dsimp only
      omega
    · split at hp
      · obtain rfl := List.mem_singleton.1 hp
        dsimp only
        split <;> omega
      · cases hp
  · intro hzero
    rw [hbuffer, hzero]
    rfl
  · intro hpos i
    rw [hbuffer, hwrap, if_pos hpos, storedAt_concat, storedAt_inOrder]
    have hend : (if (bytes.length : Int) < c then (bytes.length : Int) else c - 1) = min (bytes.length : Int) (c - 1) := by
      split <;> omega
    rw [hend]
    by_cases hbelow : (i : Int) < min (bytes.length : Int) (c - 1)
    · rw [if_pos hbelow, if_neg (by omega), List.getElem?_take_of_lt (by omega)]
    · rw [if_neg hbelow]
      by_cases hlast : (i : Int) = min (bytes.length : Int) (c - 1)
      · rw [if_pos hlast.symm, if_pos hlast]
      · rw [if_neg (Ne.symm hlast), if_neg hlast, List.getElem?_eq_none]
        rw [List.length_take]
        omega

/-! ## When the count wraps -/

theorem stores_emit (sink : Sink) (bytes : List UInt8) : ∀ {o : Output} {p : Int × UInt8}, p ∈ o.stores → p ∈ (emit sink bytes o).stores := by
  induction bytes with
  | nil => exact fun hp => hp
  | cons x bytes ih =>
    intro o p hp
    apply ih
    unfold putNext put
    cases sink with
    | stream => exact hp
    | buffer capacity =>
      dsimp only
      split
      · exact List.mem_append_left _ hp
      · exact hp

/-- At the last `int`, `written + 1` is negative, and the byte is stored whatever the capacity. -/
theorem stores_last {c : Nat} {bytes : List UInt8} (h : 2147483648 ≤ bytes.length) :
    ∃ x, ((2147483647 : Int), x) ∈ (emit (.buffer c) bytes ⟨0, [], []⟩).stores := by
  obtain ⟨x, rest, hsplit⟩ : ∃ x rest, bytes.drop 2147483647 = x :: rest := by
    apply List.exists_cons_of_length_pos
    rw [List.length_drop]
    omega
  have hlen : (bytes.take 2147483647).length = 2147483647 := List.length_take_of_le (by omega)
  have hwritten : (emit (.buffer c) (bytes.take 2147483647) ⟨0, [], []⟩).written = 2147483647 := by
    rw [emit_written _ _ rfl, hlen]
    rfl
  refine ⟨x, ?_⟩
  rw [← List.take_append_drop 2147483647 bytes, hsplit, emit_append, emit, List.foldl_cons]
  apply stores_emit
  unfold putNext put
  dsimp only
  have hwrapped : wrap (2147483647 + 1) = -2147483648 := rfl
  rw [hwritten, hwrapped, if_pos (by omega)]
  exact List.mem_append_right _ (List.mem_singleton_self _)

theorem not_agrees {c : Nat} (hc : c < 2147483648) {format : Text} {args : List Arg} {bytes : List UInt8}
    (h : rendered format.bytes args = some bytes) (hlen : 2147483648 ≤ bytes.length) : ¬ Agrees c format args bytes := by
  rintro ⟨n, stores, -, hstores, hinside, -⟩
  obtain ⟨-, rfl⟩ := Prod.mk.inj (Except.ok.inj ((snprintf_eq hc h).symm.trans hstores))
  obtain ⟨x, hx⟩ := @stores_last c bytes hlen
  have := hinside _ (List.mem_append_left _ hx)
  dsimp only at this
  omega

/-- `snprintf` and `fprintf` agree on an output exactly when its length is an `int`. -/
theorem agrees_iff {c : Nat} (hc : c < 2147483648) {format : Text} {args : List Arg} {bytes : List UInt8}
    (h : rendered format.bytes args = some bytes) : Agrees c format args bytes ↔ bytes.length < 2147483648 :=
  ⟨fun hagrees => Nat.not_le.1 fun hlen => not_agrees hc h hlen hagrees, agrees hc h⟩

/-- The least `int` in a buffer of five bytes. -/
theorem agrees_iff_least : Agrees 5 ⟨[37, 100], by decide⟩ [.word 2147483648] [45, 50, 49, 52, 55, 52, 56, 51, 54, 52, 56] ↔ 11 < 2147483648 :=
  agrees_iff (by decide) (by decide +kernel)

/-- A string of `n` letters. -/
def letters (n : Nat) : Text := ⟨List.replicate n 97, fun h => absurd (List.eq_of_mem_replicate h) (by decide)⟩

/-- `%s` written `k` times. -/
def copies (k : Nat) : List UInt8 := (List.replicate k [37, 115]).flatten

theorem copies_noNul (k : Nat) : 0 ∉ copies k := by
  intro h
  obtain ⟨l, hl, hmem⟩ := List.mem_flatten.1 h
  rw [List.eq_of_mem_replicate hl] at hmem
  exact absurd hmem (by decide)

theorem rendered_copies (s : Text) (k : Nat) :
    rendered (copies k) (List.replicate k (.text (some s))) = some (List.replicate k s.bytes).flatten := by
  induction k with
  | zero => rfl
  | succ k ih =>
    have hcopies : copies (k + 1) = 37 :: 115 :: copies k := rfl
    rw [hcopies, List.replicate_succ, List.replicate_succ, List.flatten_cons]
    unfold rendered
    rw [if_neg (not_not_intro rfl)]
    change (rendered (copies k) _).map (s.bytes ++ ·) = _
    rw [ih]
    rfl

theorem copies_disagree (c : Nat) (hc : c < 2147483648) (n k : Nat) (h : 2147483648 ≤ k * n) :
    ∃ bytes, rendered (copies k) (List.replicate k (.text (some (letters n)))) = some bytes ∧
      ¬ Agrees c ⟨copies k, copies_noNul k⟩ (List.replicate k (.text (some (letters n)))) bytes := by
  refine ⟨_, rendered_copies (letters n) k, not_agrees hc (rendered_copies (letters n) k) ?_⟩
  rw [List.length_flatten, List.map_replicate, List.sum_replicate_nat]
  exact (show (letters n).bytes.length = n from List.length_replicate).symm ▸ h

/-- A megabyte of letters, 2048 times, for a buffer of 16 bytes. -/
theorem letters_disagree : ∃ bytes, rendered (copies 2048) (List.replicate 2048 (.text (some (letters 1048576)))) = some bytes ∧
    ¬ Agrees 16 ⟨copies 2048, copies_noNul 2048⟩ (List.replicate 2048 (.text (some (letters 1048576)))) bytes :=
  copies_disagree 16 (by decide) 1048576 2048 (by decide)

end Barnix.Stdio
