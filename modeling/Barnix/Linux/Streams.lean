import Barnix.Lib.Rings
import Barnix.Linux.Accounts
/-!
# Pipes are streams

The record of what happens on pipes, read as streams of bytes: what is
delivered is what was accepted, in order; a small write is accepted whole; and
every answer is the number of bytes that its call moved.
-/

namespace Barnix.Linux

open Vfs (Space ListingEngine)

/-! ## One turn of a transfer -/

/-- The bytes in the pipe. -/
def Pipe.queue (pipe : Pipe) : List UInt8 := pipe.data.around pipe.head pipe.used

theorem Pipe.length_queue (pipe : Pipe) : pipe.queue.length = pipe.used := Buf.length_around ..

/-- The pipe's counters are those of a ring. -/
def Pipe.InRing (pipe : Pipe) : Prop := pipe.head < pipeSize ∧ pipe.used ≤ pipeSize

/-- `index` and `offset` stand where `total` bytes end. -/
structure PipeIo.Sound (io : PipeIo) : Prop where
  length : io.length = (io.vectors.map (·.length)).sum
  total : io.total = ((io.vectors.take io.index).map (·.length)).sum + io.offset
  offset : io.offset ≤ (io.vectors.getD io.index default).length

namespace Ring

/-- The bytes `b` are moved between the two states of a transfer. -/
structure Moved (b : List UInt8) (r r' : Ring) : Prop where
  call : r'.io.vectors = r.io.vectors ∧ r'.io.length = r.io.length ∧ r'.io.writing = r.io.writing ∧ r'.io.active = r.io.active
  sound : r'.io.Sound
  inRing : r'.pipe.InRing
  total : r'.io.total = r.io.total + b.length
  bytes : r'.bytes = r.bytes ++ b
  write : r.io.writing = true → r'.memory = r.memory ∧ r'.pipe.queue = r.pipe.queue ++ b ∧
    b <+: (r.io.payload r.memory).drop r.io.total
  read : r.io.writing = false → r.pipe.queue = b ++ r'.pipe.queue

theorem Moved.trans {b c : List UInt8} {r r' r'' : Ring} (h : Moved b r r') (h' : Moved c r' r'') : Moved (b ++ c) r r'' := by
  obtain ⟨hv, hl, hw, ha⟩ := h.call
  obtain ⟨hv', hl', hw', ha'⟩ := h'.call
  refine ⟨⟨hv'.trans hv, hl'.trans hl, hw'.trans hw, ha'.trans ha⟩, h'.sound, h'.inRing, ?_, ?_, fun hr => ?_, fun hr => ?_⟩
  · rw [h'.total, h.total, List.length_append, Nat.add_assoc]
  · rw [h'.bytes, h.bytes, List.append_assoc]
  · obtain ⟨hm, hq, x, hx⟩ := h.write hr
    obtain ⟨hm', hq', y, hy⟩ := h'.write (hw.trans hr)
    refine ⟨hm'.trans hm, by rw [hq', hq, List.append_assoc], y, ?_⟩
    have hpay : r'.io.payload r'.memory = r.io.payload r.memory := by
      unfold PipeIo.payload
      rw [hv, hm]
    rw [hpay, h.total, ← List.drop_drop, ← hx, List.drop_left] at hy
    rw [List.append_assoc, hy, hx]
  · rw [h.read hr, h'.read (hw.trans hr), List.append_assoc]

/-- At the end of a vector entry the transfer goes on with the next one. -/
theorem moved_next {r : Ring} {v : IoVector} (hs : r.io.Sound) (hring : r.pipe.InRing)
    (hv : r.io.vectors[r.io.index]? = some v) (hend : r.io.offset = v.length) :
    Moved [] r { r with io := { r.io with index := r.io.index + 1, offset := 0 } } := by
  refine ⟨⟨rfl, rfl, rfl, rfl⟩, ⟨hs.length, ?_, Nat.zero_le _⟩, hring, rfl, (List.append_nil _).symm, fun _ => ⟨rfl, ?_, ?_⟩, fun _ => rfl⟩
  · show r.io.total = _
    rw [hs.total, List.take_add_one, hv, hend]
    simp
  · rw [List.append_nil]
  · exact List.nil_prefix

/-- The part of a vector entry that is copied is the next part of all the bytes. -/
theorem load_prefix {r : Ring} {v : IoVector} {n : Nat} (hs : r.io.Sound) (hv : r.io.vectors[r.io.index]? = some v)
    (hn : n ≤ v.length - r.io.offset) :
    r.memory.load (v.address + r.io.offset) n <+: (r.io.payload r.memory).drop r.io.total := by
  have hrest : (r.io.payload r.memory).drop r.io.total =
      ((r.io.vectors.drop r.io.index).flatMap fun v => r.memory.load v.address v.length).drop r.io.offset := by
    have hsum : ((r.io.vectors.take r.io.index).map (·.length)).sum =
        ((r.io.vectors.take r.io.index).flatMap fun v => r.memory.load v.address v.length).length := by
      simp [List.length_flatMap, Memory.load]
    unfold PipeIo.payload
    rw [hs.total, ← List.drop_drop, hsum]
    congr 1
    conv_lhs => rw [← List.take_append_drop r.io.index r.io.vectors, List.flatMap_append]
    rw [List.take_append_drop, List.drop_left]
  obtain ⟨hlt, hget⟩ := List.getElem?_eq_some_iff.1 hv
  have hoff := hs.offset
  rw [List.getD_eq_getElem?_getD, hv] at hoff
  dsimp at hoff
  rw [hrest, List.drop_eq_getElem_cons hlt, hget, List.flatMap_cons,
    List.drop_append_of_le_length (by simpa [Memory.load] using hoff)]
  refine List.IsPrefix.trans ?_ (List.prefix_append _ _)
  rw [List.prefix_iff_eq_take]
  apply List.ext_getElem
  · simp [Memory.load]
    omega
  · intro i hi hi'
    simp [Memory.load, Nat.add_assoc]

/-- One `memcpy` moves its bytes. -/
theorem moved_copy {r : Ring} {v : IoVector} {n : Nat} (hs : r.io.Sound) (hring : r.pipe.InRing)
    (hv : r.io.vectors[r.io.index]? = some v) (hn : n ≤ v.length - r.io.offset) (hpos : 0 < n) (hroom : n ≤ r.available)
    (hend : n ≤ pipeSize - if r.io.writing then (r.pipe.head + r.pipe.used) % pipeSize else r.pipe.head) :
    ∃ b, b.length = n ∧ Moved b r (r.copy v n) := by
  obtain ⟨hhead, hused⟩ := hring
  have hsound : ({ r.io with offset := r.io.offset + n, total := r.io.total + n } : PipeIo).Sound := by
    refine ⟨hs.length, ?_, ?_⟩
    · show r.io.total + n = _
      rw [hs.total, Nat.add_assoc]
    · show r.io.offset + n ≤ _
      rw [List.getD_eq_getElem?_getD, hv]
      dsimp
      omega
  unfold copy available at *
  cases hw : r.io.writing with
  | true =>
    rw [hw] at hroom hend
    simp only [if_true] at hroom hend ⊢
    have hlen : (r.memory.load (v.address + r.io.offset) n).length = n := by simp [Memory.load]
    refine ⟨r.memory.load (v.address + r.io.offset) n, hlen, ⟨rfl, rfl, rfl, rfl⟩, hsound, ⟨hhead, ?_⟩, ?_, rfl, fun _ => ⟨rfl, ?_, ?_⟩, ?_⟩
    · show r.pipe.used + n ≤ pipeSize
      omega
    · rw [hlen]
    · have hq := @Buf.around_write 4096 r.pipe.data r.pipe.head r.pipe.used (r.memory.load (v.address + r.io.offset) n)
        (by rw [hlen]; unfold pipeSize at *; omega) (by rw [hlen]; unfold pipeSize at *; omega)
      rw [hlen] at hq
      exact hq
    · exact load_prefix hs hv hn
    · rw [hw]
      exact nofun
  | false =>
    rw [hw] at hroom hend
    simp only [Bool.false_eq_true, if_false] at hroom hend ⊢
    refine ⟨r.pipe.data.read r.pipe.head n, Buf.length_read .., ⟨rfl, rfl, rfl, rfl⟩, hsound, ⟨Nat.mod_lt _ (by decide), ?_⟩, ?_, rfl, ?_, fun _ => ?_⟩
    · show r.pipe.used - n ≤ pipeSize
      omega
    · rw [Buf.length_read]
    · rw [hw]
      exact nofun
    · exact Buf.around_read r.pipe.data hroom (by unfold pipeSize at *; omega)

theorem Moved.nil {r : Ring} (hs : r.io.Sound) (hring : r.pipe.InRing) : Moved [] r r :=
  ⟨⟨rfl, rfl, rfl, rfl⟩, hs, hring, rfl, (List.append_nil _).symm,
    fun _ => ⟨rfl, (List.append_nil _).symm, List.nil_prefix⟩, fun _ => rfl⟩

/-- What can still be moved after `n` more bytes. -/
theorem available_copy (r : Ring) (v : IoVector) (n : Nat) : r.available - n ≤ (r.copy v n).available := by
  unfold available copy
  cases hw : r.io.writing with
  | true =>
    simp only [hw, if_true]
    omega
  | false => simp only [hw, Bool.false_eq_true, if_false, Nat.le_refl]

theorem chunk_le (r : Ring) (v : IoVector) (available : Nat) :
    r.chunk v available ≤ v.length - r.io.offset ∧ r.chunk v available ≤ available ∧
      r.chunk v available ≤ pipeSize - if r.io.writing then (r.pipe.head + r.pipe.used) % pipeSize else r.pipe.head :=
  ⟨(Nat.min_le_left _ _).trans (Nat.min_le_left _ _), (Nat.min_le_left _ _).trans (Nat.min_le_right _ _), Nat.min_le_right _ _⟩

theorem chunk_pos {r : Ring} {v : IoVector} {available : Nat} (hring : r.pipe.InRing) (hv : r.io.offset < v.length)
    (ha : 0 < available) : 0 < r.chunk v available := by
  have hmod : (r.pipe.head + r.pipe.used) % pipeSize < pipeSize := Nat.mod_lt _ (by decide)
  have hhead := hring.1
  refine Nat.lt_min.2 ⟨Nat.lt_min.2 ⟨by omega, ha⟩, ?_⟩
  split <;> omega

/-- The loop moves all that it is asked for. -/
theorem moved_loop (rounds available : Nat) (r : Ring) (hs : r.io.Sound) (hring : r.pipe.InRing)
    (hrest : available ≤ r.io.length - r.io.total) (hroom : available ≤ r.available)
    (hrounds : available + (r.io.vectors.length - r.io.index) ≤ rounds) :
    ∃ b, b.length = available ∧ Moved b r (r.loop rounds available) := by
  -- every round passes a vector entry or moves a byte, so the rounds do not run out
  induction rounds generalizing available r with
  | zero =>
    obtain rfl : available = 0 := by omega
    exact ⟨[], rfl, .nil hs hring⟩
  | succ rounds ih =>
    unfold loop
    by_cases hzero : available = 0
    · rw [if_pos hzero]
      exact ⟨[], hzero.symm, .nil hs hring⟩
    rw [if_neg hzero]
    cases hv : r.io.vectors[r.io.index]? with
    | none =>
      -- behind the last entry nothing is left to move
      exfalso
      have hle := List.getElem?_eq_none_iff.1 hv
      have htotal := hs.total
      rw [List.take_of_length_le hle, ← hs.length] at htotal
      omega
    | some v =>
      obtain ⟨hlt, hget⟩ := List.getElem?_eq_some_iff.1 hv
      dsimp only
      by_cases hend : r.io.offset = v.length
      · rw [if_pos hend]
        have hnext := moved_next hs hring hv hend
        obtain ⟨b, hb, hmoved⟩ := ih available _ hnext.sound hnext.inRing hrest hroom (by dsimp only; omega)
        exact ⟨b, hb, hnext.trans hmoved⟩
      · rw [if_neg hend]
        have hoff := hs.offset
        rw [List.getD_eq_getElem?_getD, hv] at hoff
        dsimp at hoff
        have hpos := chunk_pos hring (Nat.lt_of_le_of_ne hoff hend) (Nat.pos_of_ne_zero hzero)
        obtain ⟨hentry, hchunk, hwrap⟩ := chunk_le r v available
        obtain ⟨b, hb, hcopy⟩ := moved_copy hs hring hv hentry hpos (hchunk.trans hroom) hwrap
        have hleft := available_copy r v (r.chunk v available)
        obtain ⟨c, hc, hmoved⟩ := ih (available - r.chunk v available) _ hcopy.sound hcopy.inRing
          (by rw [hcopy.call.2.1, hcopy.total, hb]; omega) (by omega)
          (by
            have hindex : (r.copy v (r.chunk v available)).io.index = r.io.index := by
              unfold copy
              split <;> rfl
            rw [hcopy.call.1, hindex]
            omega)
        exact ⟨b ++ c, by rw [List.length_append, hb, hc]; omega, hcopy.trans hmoved⟩

/-- A read, and a write that fits into the pipe, is done in one turn. -/
def OneTurn (io : PipeIo) : Prop := io.writing = false ∨ io.length ≤ pipeSize

/-- What a turn does: bytes are moved, and the transfer ends unless it waits. -/
structure Turned (r : Ring) (b : List UInt8) (result : Result) (r' : Ring) : Prop where
  moved : ∃ r₁, Moved b r r₁ ∧ (r' = r₁ ∨ r' = r₁.deactivate)
  ended : result ≠ .wait → r'.io.active = false
  waits : result = .wait → OneTurn r.io → b = []
  value : ∀ n, result = .value n → 0 ≤ n → n = r.io.total + b.length
  whole : b ≠ [] → r.io.writing = true → r.io.length ≤ pipeSize → b.length = r.io.length

theorem turned_resume {r : Ring} (flags : Nat) (hs : r.io.Sound) (hring : r.pipe.InRing) (hlen : 0 < r.io.length)
    (hone : OneTurn r.io → r.io.total = 0) : ∃ b, Turned r b (r.resume flags).1 (r.resume flags).2 := by
  have hnil : Moved [] r r := .nil hs hring
  unfold resume
  split
  · exact ⟨[], ⟨r, hnil, .inr rfl⟩, fun _ => rfl, nofun, nofun, fun h => absurd rfl h⟩
  split
  · rename_i h
    refine ⟨[], ⟨r, hnil, .inr rfl⟩, fun _ => rfl, nofun, fun n hn _ => ?_, fun h => absurd rfl h⟩
    obtain rfl : 0 = n := by simpa using hn
    rw [hone (.inl (by simpa using h.1))]
    rfl
  split
  · split
    · exact ⟨[], ⟨r, hnil, .inl rfl⟩, fun h => absurd rfl h, fun _ _ => rfl, nofun, fun h => absurd rfl h⟩
    · refine ⟨[], ⟨r, hnil, .inr rfl⟩, fun _ => rfl, nofun, fun n hn h0 => ?_, fun h => absurd rfl h⟩
      obtain rfl := Result.value.inj hn
      split at h0
      · rw [if_pos ‹_›]
        rfl
      · exact absurd h0 (by decide)
  · rename_i hblocked
    have hfree : r.available ≠ 0 ∧ (r.io.writing = true → r.io.length ≤ pipeSize → r.io.length ≤ r.available) := by
      unfold blocked at hblocked
      simp only [Bool.or_eq_true, beq_iff_eq, Bool.and_eq_true, decide_eq_true_eq, not_or, not_and, Nat.not_lt] at hblocked
      exact ⟨hblocked.1, fun h1 h2 => hblocked.2 ⟨h1, h2⟩⟩
    obtain ⟨b, hb, hmoved⟩ := moved_loop (min r.available (r.io.length - r.io.total) + r.io.vectors.length)
      (min r.available (r.io.length - r.io.total)) r hs hring (Nat.min_le_right _ _) (Nat.min_le_left _ _) (by omega)
    change Moved b r r.moved at hmoved
    have hwhole : r.io.writing = true → r.io.length ≤ pipeSize → b.length = r.io.length := by
      intro hw hl
      have h0 := hone (.inr hl)
      have := hfree.2 hw hl
      omega
    split
    · rename_i hwait
      refine ⟨b, ⟨r.moved, hmoved, .inl rfl⟩, fun h => absurd rfl h, fun _ h1 => ?_, nofun, fun _ => hwhole⟩
      -- a whole write would be complete
      exfalso
      obtain ⟨hw, htotal, -⟩ := hwait
      rw [hmoved.call.2.2.1] at hw
      rw [hmoved.total, hmoved.call.2.1] at htotal
      rcases h1 with h1 | h1
      · rw [hw] at h1
        cases h1
      · have := hwhole hw h1
        omega
    · refine ⟨b, ⟨r.moved, hmoved, .inr rfl⟩, fun _ => rfl, nofun, fun n hn _ => ?_, fun _ => hwhole⟩
      obtain rfl := Result.value.inj hn
      rw [hmoved.total]
      exact Int.natCast_add _ _

end Ring

/-! ## The record -/

/-- All bytes that writers, or readers, have moved on a pipe since it was created. -/
def stream (p : PipeId) (writing : Bool) : List Traffic → List UInt8
  | [] => []
  | .created q :: rest => if q = p then [] else stream p writing rest
  | .moved _ q w _ bytes :: rest => if q = p ∧ w = writing then stream p writing rest ++ bytes else stream p writing rest
  | .called .. :: rest => stream p writing rest
  | .answered .. :: rest => stream p writing rest

/-- The direction and the length of the last transfer of a task. -/
def lastCall (slot : Slot) : List Traffic → Option (Bool × Nat)
  | [] => none
  | .called s writing length :: rest => if s = slot then some (writing, length) else lastCall slot rest
  | .created _ :: rest => lastCall slot rest
  | .moved .. :: rest => lastCall slot rest
  | .answered .. :: rest => lastCall slot rest

/-- The bytes that the last transfer of a task has moved so far. -/
def progress (slot : Slot) : List Traffic → List UInt8
  | [] => []
  | .called s _ _ :: rest => if s = slot then [] else progress slot rest
  | .moved s _ _ _ bytes :: rest => if s = slot then progress slot rest ++ bytes else progress slot rest
  | .created _ :: rest => progress slot rest
  | .answered .. :: rest => progress slot rest

/-- What must be true of an entry of the record: an answer that is no error is the number
of bytes that were moved; moved bytes belong to a call in this direction, and those of a
write are the next ones that it offers, and all of them if they fit into the pipe. -/
def Traffic.Right (earlier : List Traffic) : Traffic → Prop
  | .answered slot (.value n) => 0 ≤ n → n = (progress slot earlier).length
  | .moved slot _ writing offered bytes => ∃ length, lastCall slot earlier = some (writing, length) ∧
      (writing = true → bytes <+: offered.drop (progress slot earlier).length ∧
        (length ≤ pipeSize → progress slot earlier = [] ∧ bytes = offered ∧ bytes.length = length))
  | _ => True

/-- Every entry of the record is right. -/
def History : List Traffic → Prop
  | [] => True
  | e :: rest => e.Right rest ∧ History rest

theorem History.right {later earlier : List Traffic} {e : Traffic} (h : History (later ++ e :: earlier)) : e.Right earlier := by
  induction later with
  | nil => exact h.1
  | cons _ later ih => exact ih h.2

section
variable (slot s : Slot) (p q : PipeId) (w writing : Bool) (offered bytes : List UInt8) (result : Result) (log : List Traffic)

theorem stream_turn : stream q w (turn slot p writing offered bytes result ++ log) =
    if p = q ∧ writing = w then stream q w log ++ bytes else stream q w log := by
  unfold turn
  by_cases hr : result = .wait <;> by_cases hb : bytes = [] <;> simp [hr, hb, stream]

theorem lastCall_turn : lastCall s (turn slot p writing offered bytes result ++ log) = lastCall s log := by
  unfold turn
  by_cases hr : result = .wait <;> by_cases hb : bytes = [] <;> simp [hr, hb, lastCall]

theorem progress_turn : progress s (turn slot p writing offered bytes result ++ log) =
    if slot = s then progress s log ++ bytes else progress s log := by
  unfold turn
  by_cases hr : result = .wait <;> by_cases hb : bytes = [] <;> simp [hr, hb, progress]

end

/-- A turn is right when its parts are. -/
theorem history_turn {slot : Slot} {p : PipeId} {writing : Bool} {offered bytes : List UInt8} {result : Result}
    {log : List Traffic} (h : History log) (hmoved : bytes ≠ [] → (Traffic.moved slot p writing offered bytes).Right log)
    (hvalue : ∀ n, result = .value n → 0 ≤ n → n = (progress slot log ++ bytes).length) :
    History (turn slot p writing offered bytes result ++ log) := by
  have hbytes : History ((if bytes = [] then [] else [.moved slot p writing offered bytes]) ++ log) ∧
      progress slot ((if bytes = [] then [] else [.moved slot p writing offered bytes]) ++ log) = progress slot log ++ bytes := by
    by_cases hb : bytes = []
    · rw [if_pos hb, hb, List.append_nil]
      exact ⟨h, rfl⟩
    · rw [if_neg hb]
      exact ⟨⟨hmoved hb, h⟩, if_pos rfl⟩
  unfold turn
  rw [List.append_assoc]
  cases result with
  | wait => exact hbytes.1
  | sigpipe => exact ⟨trivial, hbytes.1⟩
  | value n =>
    refine ⟨fun h0 => (hvalue n rfl h0).trans ?_, hbytes.1⟩
    rw [← hbytes.2]
    rfl

/-! ## The streams of a state -/

/-- A transfer that is under way, and the record of it. -/
structure UnderWay (log : List Traffic) (slot : Slot) (io : PipeIo) : Prop where
  sound : io.Sound
  call : lastCall slot log = some (io.writing, io.length)
  progress : (progress slot log).length = io.total
  oneTurn : Ring.OneTurn io → io.total = 0
  length : 0 < io.length

/-- What was accepted is what was delivered and what is in the pipe. -/
structure Streams (t : Tables) : Prop where
  inRing : ∀ p, (t.pipes p).InRing
  queues : ∀ p, stream p true t.traffic = stream p false t.traffic ++ (t.pipes p).queue
  underWay : ∀ s, (t.pending s).active = true → UnderWay t.traffic s (t.pending s)
  history : History t.traffic

/-- A turn of the current task's transfer. -/
theorem Streams.ioResume {t : Tables} (h : Streams t) (m : Memory) (hactive : (t.pending t.fileTask).active = true) :
    Streams (t.ioResume m).2.1 := by
  have hway := h.underWay _ hactive
  unfold Tables.ioResume
  dsimp only
  cases t.ioPipe t.fileTask with
  | none => exact h
  | some r =>
    obtain ⟨p, flags⟩ := r
    dsimp only
    obtain ⟨b, hturn⟩ := @Ring.turned_resume ⟨t.pipes p, t.pending t.fileTask, m, []⟩ flags hway.sound (h.inRing p) hway.length hway.oneTurn
    generalize Ring.resume ⟨t.pipes p, t.pending t.fileTask, m, []⟩ flags = answer at hturn
    obtain ⟨result, r⟩ := answer
    obtain ⟨r₁, hmoved, hr⟩ := hturn.moved
    have hbytes : r.bytes = b := by
      rcases hr with rfl | rfl <;> exact hmoved.bytes
    have hpipe : r.pipe = r₁.pipe := by
      rcases hr with rfl | rfl <;> rfl
    dsimp only
    rw [hbytes]
    dsimp only at hr
    refine ⟨fun q => ?_, fun q => ?_, fun s hs => ?_, ?_⟩ <;> dsimp only
    · by_cases hq : q = p
      · subst hq
        rw [Function.update_self, hpipe]
        exact hmoved.inRing
      · rw [Function.update_of_ne hq]
        exact h.inRing q
    · rw [stream_turn, stream_turn]
      by_cases hq : q = p
      · subst hq
        rw [Function.update_self, hpipe]
        have hqueue := h.queues q
        cases hw : (t.pending t.fileTask).writing with
        | true =>
          rw [if_pos ⟨rfl, rfl⟩, if_neg (by simp), (hmoved.write hw).2.1, hqueue, List.append_assoc]
        | false =>
          rw [if_neg (by simp), if_pos ⟨rfl, rfl⟩, hqueue, List.append_assoc]
          exact congrArg _ (hmoved.read hw)
      · rw [Function.update_of_ne hq, if_neg (fun he => hq he.1.symm), if_neg (fun he => hq he.1.symm)]
        exact h.queues q
    · dsimp only at hs
      by_cases hs' : s = t.fileTask
      · subst hs'
        rw [Function.update_self] at hs ⊢
        -- only a transfer that waits is still under way
        have hwait : result = .wait := by
          by_contra hne
          rw [hturn.ended hne] at hs
          cases hs
        have hio : r.io = r₁.io := by
          rcases hr with rfl | rfl
          · rfl
          · cases hs
        obtain ⟨-, hl, hw, -⟩ := hmoved.call
        rw [hio]
        refine ⟨hmoved.sound, ?_, ?_, fun h1 => ?_, hl.symm ▸ hway.length⟩
        · rw [lastCall_turn, hway.call, hw, hl]
        · rw [progress_turn, if_pos rfl, List.length_append, hway.progress, hmoved.total]
        · have hone : Ring.OneTurn (t.pending t.fileTask) := by
            unfold Ring.OneTurn at h1 ⊢
            rwa [hw, hl] at h1
          rw [hmoved.total, hturn.waits hwait hone]
          exact hway.oneTurn hone
      · rw [Function.update_of_ne hs'] at hs ⊢
        have hold := h.underWay s hs
        refine ⟨hold.sound, ?_, ?_, hold.oneTurn, hold.length⟩
        · rw [lastCall_turn]
          exact hold.call
        · rw [progress_turn, if_neg (Ne.symm hs')]
          exact hold.progress
    · refine history_turn h.history (fun hb => ⟨_, hway.call, fun hw => ?_⟩) fun n hn h0 => ?_
      · obtain ⟨-, -, hpre⟩ := hmoved.write hw
        rw [hway.progress]
        refine ⟨hpre, fun hsmall => ?_⟩
        have h0 := hway.oneTurn (.inr hsmall)
        have hlen := hturn.whole hb hw hsmall
        refine ⟨List.length_eq_zero_iff.1 (hway.progress.trans h0), ?_, hlen⟩
        -- a prefix of the offered bytes that is as long as they are
        rw [show Ring.io ⟨t.pipes p, t.pending t.fileTask, m, []⟩ = t.pending t.fileTask from rfl, h0, List.drop_zero] at hpre
        refine hpre.eq_of_length (hlen.trans ?_)
        show (t.pending t.fileTask).length = ((t.pending t.fileTask).payload m).length
        rw [hway.sound.length]
        simp [PipeIo.payload, Memory.load, List.length_flatMap]
      · rw [hturn.value n hn h0, List.length_append, hway.progress]
        exact (Int.natCast_add _ _).symm

/-! ## A new transfer -/

theorem checkVectors_length {m : Memory} {vectors : List IoVector} {start length : Nat}
    (h : checkVectors m vectors start = .ok length) : length = start + (vectors.map (·.length)).sum := by
  induction vectors generalizing start with
  | nil =>
    cases h
    rfl
  | cons v vectors ih =>
    unfold checkVectors at h
    split at h
    · cases h
    split at h
    · cases h
    · rw [ih h, List.map_cons, List.sum_cons, Nat.add_assoc]

theorem checkVectors_error {m : Memory} {vectors : List IoVector} {start : Nat} {e : Int}
    (h : checkVectors m vectors start = .error e) : e < 0 := by
  induction vectors generalizing start with
  | nil => cases h
  | cons v vectors ih =>
    unfold checkVectors at h
    split at h
    · cases h
      decide
    split at h
    · cases h
      decide
    · exact ih h

/-- A transfer starts, under way or already over. -/
theorem Streams.beginIo {t : Tables} (h : Streams t) {io : PipeIo}
    (hio : io.active = true → io.Sound ∧ io.total = 0 ∧ 0 < io.length) : Streams (t.beginIo io) := by
  refine ⟨h.inRing, h.queues, fun s hs => ?_, trivial, h.history⟩
  change (Function.update t.pending t.fileTask io s).active = true at hs
  show UnderWay (.called t.fileTask io.writing io.length :: t.traffic) s (Function.update t.pending t.fileTask io s)
  by_cases hs' : s = t.fileTask
  · subst hs'
    rw [Function.update_self] at hs ⊢
    obtain ⟨hsound, htotal, hlen⟩ := hio hs
    refine ⟨hsound, if_pos rfl, ?_, fun _ => htotal, hlen⟩
    rw [htotal, progress, if_pos rfl, List.length_nil]
  · rw [Function.update_of_ne hs'] at hs ⊢
    have hold := h.underWay s hs
    exact ⟨hold.sound, (if_neg (Ne.symm hs')).trans hold.call, (congrArg _ (if_neg (Ne.symm hs'))).trans hold.progress,
      hold.oneTurn, hold.length⟩

theorem Streams.refuse {t : Tables} (h : Streams t) {io : PipeIo} (hio : io.active = false) {n : Int} (hn : n ≤ 0) :
    Streams (t.refuse io n) := by
  have hbegin : Streams (t.beginIo io) := h.beginIo fun ha => absurd (hio.symm.trans ha) nofun
  refine ⟨hbegin.inRing, hbegin.queues, fun s hs => ?_, fun h0 => ?_, hbegin.history⟩
  · obtain ⟨h1, h2, h3, h4, h5⟩ := hbegin.underWay s hs
    exact ⟨h1, h2, h3, h4, h5⟩
  · have hzero : progress t.fileTask (t.beginIo io).traffic = [] := if_pos rfl
    rw [hzero, List.length_nil]
    omega

theorem Streams.pipeTransfer {t : Tables} (h : Streams t) (m : Memory) (flags fd address count : Nat) (writing vectored : Bool) :
    Streams (t.pipeTransfer m flags fd address count writing vectored).2.1 := by
  unfold Tables.pipeTransfer
  split
  · exact h
  dsimp only
  split
  · exact h.refuse rfl (by decide)
  split
  · exact h.refuse rfl (by decide)
  cases hcheck : checkVectors m (if vectored then vectorsAt m address count else [⟨address, count⟩]) 0 with
  | error e => exact h.refuse rfl (Int.le_of_lt (checkVectors_error hcheck))
  | ok length =>
    dsimp only
    split
    · exact h.refuse rfl (Int.le_refl 0)
    · rename_i hne
      have hsum := checkVectors_length hcheck
      refine Streams.ioResume (h.beginIo fun _ => ⟨⟨?_, ?_, Nat.zero_le _⟩, rfl, Nat.pos_of_ne_zero hne⟩) m ?_
      · rw [hsum]
        exact Nat.zero_add _
      · rfl
      · unfold Tables.beginIo Tables.setIo Tables.note
        dsimp only
        rw [Function.update_self]

/-! ## The other changes -/

/-- Nothing happens on a pipe, but a transfer may be given up. -/
structure Calm (t t' : Tables) : Prop where
  traffic : t'.traffic = t.traffic
  pipes : ∀ p, (t'.pipes p).head = (t.pipes p).head ∧ (t'.pipes p).used = (t.pipes p).used ∧ (t'.pipes p).data = (t.pipes p).data
  pending : ∀ s, t'.pending s = t.pending s ∨ (t'.pending s).active = false

instance : Std.Refl Calm := ⟨fun _ => ⟨rfl, fun _ => ⟨rfl, rfl, rfl⟩, fun _ => .inl rfl⟩⟩

instance : IsTrans Tables Calm := by
  refine ⟨fun _ _ _ h h' => ⟨h'.traffic.trans h.traffic, fun p => ?_, fun s => ?_⟩⟩
  · obtain ⟨h1, h2, h3⟩ := h.pipes p
    obtain ⟨h1', h2', h3'⟩ := h'.pipes p
    exact ⟨h1'.trans h1, h2'.trans h2, h3'.trans h3⟩
  · rcases h'.pending s with he | he
    · rw [he]
      exact h.pending s
    · exact .inr he

theorem Streams.calm {t t' : Tables} (h : Streams t) (hc : Calm t t') : Streams t' := by
  refine ⟨fun p => ?_, fun p => ?_, fun s hs => ?_, hc.traffic ▸ h.history⟩
  · obtain ⟨h1, h2, -⟩ := hc.pipes p
    unfold Pipe.InRing
    rw [h1, h2]
    exact h.inRing p
  · obtain ⟨h1, h2, h3⟩ := hc.pipes p
    unfold Pipe.queue
    rw [h1, h2, h3, hc.traffic]
    exact h.queues p
  · rcases hc.pending s with he | he
    · rw [he] at hs ⊢
      rw [hc.traffic]
      exact h.underWay s hs
    · exact absurd (he.symm.trans hs) nofun

namespace Tables

theorem calm_release (t : Tables) (d : Description) : Calm t (t.release d) := by
  unfold release
  dsimp only
  split
  · cases (t.descriptions d).pipe with
    | none => exact ⟨rfl, fun _ => ⟨rfl, rfl, rfl⟩, fun _ => .inl rfl⟩
    | some p =>
      refine ⟨rfl, fun q => ?_, fun _ => .inl rfl⟩
      show (Function.update t.pipes p _ q).head = _ ∧ (Function.update t.pipes p _ q).used = _ ∧ (Function.update t.pipes p _ q).data = _
      by_cases hq : q = p
      · subst hq
        rw [Function.update_self]
        unfold Pipe.drop
        split <;> exact ⟨rfl, rfl, rfl⟩
      · rw [Function.update_of_ne hq]
        exact ⟨rfl, rfl, rfl⟩
  · exact ⟨rfl, fun _ => ⟨rfl, rfl, rfl⟩, fun _ => .inl rfl⟩

theorem calm_closeFd (t : Tables) (slot : Slot) (fd : Fd) : Calm t (t.closeFd slot fd) := by
  unfold closeFd
  cases t.taskFiles slot fd with
  | none => exact refl_of Calm t
  | some d =>
    have hset : Calm (t.release d) ((t.release d).setFd slot fd none 0) := ⟨rfl, fun _ => ⟨rfl, rfl, rfl⟩, fun _ => .inl rfl⟩
    exact trans_of Calm (calm_release t d) hset

theorem calm_foldl {f : Tables → Fd → Tables} (hf : ∀ t fd, Calm t (f t fd)) (fds : List Fd) (t : Tables) :
    Calm t (fds.foldl f t) := by
  induction fds generalizing t with
  | nil => exact refl_of Calm t
  | cons fd fds ih => exact trans_of Calm (hf t fd) (ih _)

/-- The transfer of a task is given up. -/
theorem calm_inactive (t : Tables) (slot : Slot) :
    Calm t { t with pending := Function.update t.pending slot { t.pending slot with active := false } } := by
  refine ⟨rfl, fun _ => ⟨rfl, rfl, rfl⟩, fun s => ?_⟩
  dsimp only
  by_cases hs : s = slot
  · subst hs
    exact .inr (by rw [Function.update_self])
  · exact .inl (Function.update_of_ne hs ..)

theorem calm_filesExit (t : Tables) (slot : Slot) : Calm t (t.filesExit slot) :=
  trans_of Calm (calm_inactive t slot) (calm_foldl (fun t fd => calm_closeFd t slot fd) _ _)

theorem calm_filesFork (t : Tables) (parent child : Slot) : Calm t (t.filesFork parent child) := by
  refine trans_of Calm (calm_inactive t child) (calm_foldl (fun t fd => ?_) _ _)
  unfold shareFd
  cases t.taskFiles parent fd <;> exact ⟨rfl, fun _ => ⟨rfl, rfl, rfl⟩, fun _ => .inl rfl⟩

theorem calm_syscallExec (t : Tables) : Calm t t.syscallExec := by
  refine calm_foldl (fun t fd => ?_) _ _
  split
  · exact calm_closeFd t _ fd
  · exact refl_of Calm t

theorem calm_share (t : Tables) (fd : Fd) (d : Description) : Calm t (t.share fd d) :=
  ⟨rfl, fun _ => ⟨rfl, rfl, rfl⟩, fun _ => .inl rfl⟩

end Tables

theorem calm_edit {f : Tables → Tables} (h : Edit f) (t : Tables) : Calm t (f t) := by
  cases h with
  | opened d file fd flags => exact ⟨rfl, fun _ => ⟨rfl, rfl, rfl⟩, fun _ => .inl rfl⟩
  | shared fd d => exact Tables.calm_share t fd d
  | closed fd => exact Tables.calm_closeFd t _ fd
  | replaced fd d => exact trans_of Calm (Tables.calm_closeFd t _ fd) (Tables.calm_share _ fd d)
  | flagged fd d flags => exact ⟨rfl, fun _ => ⟨rfl, rfl, rfl⟩, fun _ => .inl rfl⟩
  | described d file => exact ⟨rfl, fun _ => ⟨rfl, rfl, rfl⟩, fun _ => .inl rfl⟩

/-- A pipe that nobody uses starts a new stream. -/
theorem Streams.newPipe {t : Tables} (h : Streams t) (p : PipeId) : Streams (t.newPipe p) := by
  refine ⟨fun q => ?_, fun q => ?_, fun s hs => ?_, trivial, h.history⟩
  · show (Function.update t.pipes p _ q).InRing
    by_cases hq : q = p
    · subst hq
      rw [Function.update_self]
      exact ⟨show 0 < pipeSize by decide, Nat.zero_le _⟩
    · rw [Function.update_of_ne hq]
      exact h.inRing q
  · show stream q true (.created p :: t.traffic) = stream q false (.created p :: t.traffic) ++ (Function.update t.pipes p _ q).queue
    unfold stream
    by_cases hq : q = p
    · subst hq
      rw [if_pos rfl, if_pos rfl, Function.update_self]
      rfl
    · rw [if_neg (Ne.symm hq), if_neg (Ne.symm hq), Function.update_of_ne hq]
      exact h.queues q
  · obtain ⟨h1, h2, h3, h4, h5⟩ := h.underWay s hs
    exact ⟨h1, h2, h3, h4, h5⟩

theorem Streams.createPipe {t t' : Tables} (h : Streams t) {flags : Nat} {fd₀ fd₁ : Fd}
    (hok : t.createPipe flags = .ok (fd₀, fd₁, t')) : Streams t' := by
  obtain ⟨d₀, d₁, p, -, -, -, -, -, -, -, -, rfl⟩ := Tables.createPipe_cases hok
  exact (h.newPipe p).calm ⟨rfl, fun _ => ⟨rfl, rfl, rfl⟩, fun _ => .inl rfl⟩

/-! ## Whole runs -/

variable {ε : Type} [ListingEngine ε]

/-- The streams stay right. -/
def Flow (t t' : Tables) : Prop := Streams t → Streams t'

instance : Std.Refl Flow := ⟨fun _ => id⟩

instance : IsTrans Tables Flow := ⟨fun _ _ _ h h' => h' ∘ h⟩

theorem Calm.flow {t t' : Tables} (h : Calm t t') : Flow t t' := fun hs => hs.calm h

theorem flowing : Calling (OnTables (ε := ε) Flow) where
  space := tables_onSpace
  store := fun _ _ _ => id
  position := fun _ _ _ => Calm.flow ⟨rfl, fun _ => ⟨rfl, rfl, rfl⟩, fun _ => .inl rfl⟩
  pipe := fun _ _ _ _ _ _ _ h => h.pipeTransfer ..
  terminal := by
    intro address count writing m
    unfold terminalTransfer
    rw [exec_modifyGet]
    split <;> exact id
  edit := fun hf m => (calm_edit hf m.tables).flow
  create := fun _ hok h => h.createPipe hok
  install := fun _ _ _ _ m => (Tables.calm_syscallExec m.tables).flow
  brk := fun _ _ => id

theorem flowing_scheduler : Scheduling Flow where
  use := fun _ _ => Calm.flow ⟨rfl, fun _ => ⟨rfl, rfl, rfl⟩, fun _ => .inl rfl⟩
  exit := fun t slot => (Tables.calm_filesExit t slot).flow
  resume := by
    intro t m hready h
    have hactive : (t.pending t.fileTask).active = true := by
      unfold Tables.ioReady at hready
      exact (Bool.and_eq_true_iff.1 hready).1
    exact h.ioResume m hactive

theorem flow_forkTask : Moves (OnTables (ε := ε) Flow) forkTask := by
  unfold forkTask
  refine .bind .get fun m => ?_
  cases (List.finRange 3).find? fun i => (m.tasks i).state == .unused with
  | none => exact fun _ => id
  | some child =>
    refine .ite (fun _ => id) (.bind (fun _ => id) fun _ => .bind (fun _ => id) fun _ => .bind (fun n => ?_) fun ok => .ite (fun n => ?_) (.pure _))
    · unfold OnTables
      rw [(saveCurrent_spec n).1]
      exact id
    · exact fun h => (h.calm (Tables.calm_filesFork n.tables n.current child)).calm
        ⟨rfl, fun _ => ⟨rfl, rfl, rfl⟩, fun _ => .inl rfl⟩

theorem flow_waitTask : Moves (OnTables (ε := ε) Flow) waitTask := by
  unfold waitTask
  refine .bind .get fun m => .ite (fun _ => id) (.ite (fun _ => id) (.ite (fun _ => id) ?_))
  dsimp only
  cases findChild m (signed m.frame.ebx) with
  | mk found any =>
    cases found with
    | some i => exact .bind (fun _ => id) fun _ _ => id
    | none =>
      cases any with
      | false => exact fun _ => id
      | true => exact .ite (fun _ => id) (.bind (fun _ => id) fun _ => flowing_scheduler.sleep fun m => { m.task with state := .waiting })

theorem flow_syscallFromRegs : Moves (OnTables (ε := ε) Flow) syscallFromRegs := by
  unfold syscallFromRegs
  refine .bind .get fun m => ?_
  split
  · exact flow_forkTask
  · exact flow_waitTask
  iterate 2 exact flowing_scheduler.exitTask _
  iterate 2 exact fun _ => id
  · exact .bind (fun _ => id) fun _ => flowing_scheduler.sleep fun m => { m.task with state := .ready }
  · refine (flowing.dispatch _ _ _ _).bind fun result => ?_
    cases result with
    | wait => exact flowing_scheduler.sleep fun m => { m.task with state := .ioWaiting }
    | sigpipe => exact flowing_scheduler.exitTask 13
    | value n =>
      refine .bind (fun _ => id) fun _ m => ?_
      unfold execApply
      rw [exec_modify]
      split <;> exact id

theorem flow_step (e : Event) : Moves (OnTables (ε := ε) Flow) (step e) := by
  refine .bind .get fun m => .ite ?_ (.pure _)
  cases e with
  | compute arena frame => exact fun _ => id
  | syscall => exact flow_syscallFromRegs
  | fault => exact flowing_scheduler.exitTask 11

theorem streams_runEvents {m : Machine ε} (h : Streams m.tables) (es : List Event) : Streams (runEvents m es).tables := by
  induction es generalizing m with
  | nil => exact h
  | cons e es ih => exact ih (flow_step e m h)

theorem streams_reset : Streams .reset :=
  ⟨fun _ => ⟨show 0 < pipeSize by decide, Nat.zero_le _⟩, fun _ => rfl, nofun, trivial⟩

/-- A call of the small program, with a fresh arena. -/
def calling (arena : Arena) (eax ebx ecx edx : Nat) : List Event :=
  [.compute arena { (default : TrapFrame) with eax := eax, ebx := ebx, ecx := ecx, edx := edx }, .syscall]

/-- The small program writes two bytes into a new pipe and reads the first one back. -/
def shortStream : List Event :=
  calling (fun _ => 0) 42 0x4000000 0 0 ++ calling (fun k => if k = 16 then 104 else if k = 17 then 105 else 0) 4 4 0x4000010 2 ++
    calling (fun _ => 0) 3 3 0x4000020 1

end Barnix.Linux
