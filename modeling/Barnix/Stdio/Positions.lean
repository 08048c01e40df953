import Barnix.Stdio.Streams
/-!
# Where the streams are faithful

One call of the library agrees with the reference exactly under `Reference.Meets`, and a run does when
all its calls meet that. The streams of the reference stand beside those of the library: `State.view`
forgets the position of a closed one.
-/

namespace Barnix.Stdio

variable {limit : Limit}

/-! ## The view -/

def FILE.view (f : FILE) : Option Cursor := if f.named then some ⟨f.append, f.position⟩ else none

/-- The reference in the same place. -/
def State.view (s : State limit) : Reference := ⟨s.disk.file, s.streams.map FILE.view⟩

@[simp] theorem view_start (disk : Disk limit) : (start disk).view = .fresh disk.file := rfl

@[simp] theorem contents_view (s : State limit) : s.view.contents = s.disk.contents := rfl

theorem view_live (s : State limit) (stream : Option Nat) :
    s.view.live stream = (s.live stream).map fun p => (p.1, ⟨p.2.append, p.2.position⟩) := by
  cases stream with
  | none => rfl
  | some i =>
    simp only [Reference.live, State.live, State.view, Option.bind_some, List.getElem?_map]
    cases s.streams[i]? with
    | none => rfl
    | some f => cases hn : f.named <;> simp [FILE.view, hn]

theorem view_put (s : State limit) (i : Nat) (f : FILE) : (s.put i f).view = s.view.put i f.view := by
  rw [State.view, State.put, List.map_set]
  rfl

theorem live_lt {s : State limit} {stream : Option Nat} {i : Nat} {f : FILE} (h : s.live stream = some (i, f)) :
    s.streams[i]? = some f ∧ f.named = true := by
  cases stream with
  | none => exact nomatch h
  | some j =>
    simp only [State.live, Option.bind_some] at h
    cases hj : s.streams[j]? with
    | none => simp [hj] at h
    | some g =>
      rw [hj, Option.bind_some] at h
      split at h
      · cases h
        exact ⟨hj, ‹_›⟩
      · exact nomatch h

/-! ## The invariant -/

/-- The file fits, and an open stream has a file and a position that a `long` can hold. -/
structure Reference.Sound (limit : Limit) (r : Reference) : Prop where
  fits : r.contents.length ≤ limit.bytes
  slots : 0 < r.streams.length
  placed : ∀ c, some c ∈ r.streams → c.position < 2147483648 ∧ r.file ≠ none

namespace Reference.Sound

variable {r : Reference}

theorem of_live (h : r.Sound limit) {stream : Option Nat} {i : Nat} {c : Cursor} (hlive : r.live stream = some (i, c)) :
    c.position < 2147483648 ∧ r.file ≠ none ∧ r.streams[i]? = some (some c) := by
  cases stream with
  | none => exact nomatch hlive
  | some j =>
    rw [Reference.live, Option.bind_some, Option.map_eq_some_iff] at hlive
    obtain ⟨c', hjoin, heq⟩ := hlive
    cases heq
    rw [Option.join_eq_some_iff] at hjoin
    obtain ⟨hposition, hfile⟩ := h.placed c (List.mem_of_getElem? hjoin)
    exact ⟨hposition, hfile, hjoin⟩

theorem put (h : r.Sound limit) (i : Nat) {c : Option Cursor} (hc : ∀ c' ∈ c, c'.position < 2147483648 ∧ r.file ≠ none) :
    (r.put i c).Sound limit where
  fits := h.fits
  slots := by
    rw [Reference.put, List.length_set]
    exact h.slots
  placed := by
    intro c' hmem
    rcases List.mem_or_eq_of_mem_set hmem with hold | heq
    · exact h.placed c' hold
    · exact hc c' heq.symm

/-- The file becomes another one that fits. -/
theorem file (h : r.Sound limit) {bytes : List UInt8} (hfits : bytes.length ≤ limit.bytes) :
    { r with file := some bytes }.Sound limit where
  fits := hfits
  slots := h.slots
  placed := fun c hc => ⟨(h.placed c hc).1, fun hn => nomatch hn⟩

end Reference.Sound

namespace Reference

variable {r : Reference}

theorem sound_fopen (h : r.Sound limit) (mode : Mode) : (r.fopen mode).2.Sound limit := by
  unfold fopen
  cases r.streams.findIdx? Option.isNone with
  | none => exact h
  | some i =>
    have hlimit := limit.isInt
    cases mode with
    | w =>
      refine (h.file (Nat.zero_le _)).put i fun c hc => ?_
      cases Option.mem_some.1 hc
      exact ⟨Nat.succ_pos _, fun hn => nomatch hn⟩
    | a =>
      refine (h.file h.fits).put i fun c hc => ?_
      cases Option.mem_some.1 hc
      exact ⟨Nat.lt_of_le_of_lt h.fits hlimit, fun hn => nomatch hn⟩

theorem sound_fclose (h : r.Sound limit) (stream : Option Nat) : (r.fclose stream).2.Sound limit := by
  rw [fclose]
  cases r.live stream with
  | none => exact h
  | some p => exact h.put p.1 fun _ hc => nomatch hc

theorem sound_fseek (h : r.Sound limit) (offset : Int32) (origin : Origin) (stream : Option Nat) :
    (r.fseek offset origin stream).2.Sound limit := by
  rw [fseek]
  cases hlive : r.live stream with
  | none => exact h
  | some p =>
    dsimp only
    split
    · rename_i htarget
      refine h.put p.1 fun c hc => ?_
      cases Option.mem_some.1 hc
      exact ⟨by dsimp only; omega, (h.of_live hlive).2.1⟩
    · exact h

theorem sound_ftell (h : r.Sound limit) (stream : Option Nat) : (r.ftell stream).2.Sound limit := by
  rw [ftell]
  cases r.live stream <;> exact h

theorem sound_fread (h : r.Sound limit) (size count : UInt32) (stream : Option Nat) :
    (r.fread size count stream).2.Sound limit := by
  rw [fread]
  cases hlive : r.live stream with
  | none => exact h
  | some p =>
    have hlimit := limit.isInt
    have hfits := h.fits
    obtain ⟨hposition, hfile, -⟩ := h.of_live hlive
    refine h.put p.1 fun c hc => ⟨?_, hfile⟩
    cases Option.mem_some.1 hc
    simp only [List.length_take, List.length_drop]
    omega

theorem sound_fwrite (h : r.Sound limit) (data : Nat → UInt8) (size count : UInt32) (stream : Option Nat) :
    (r.fwrite limit data size count stream).2.Sound limit := by
  rw [fwrite]
  cases hlive : r.live stream with
  | none => exact h
  | some p =>
    dsimp only
    split
    · exact h
    · rename_i hroom
      have hlimit := limit.isInt
      have hfits := h.fits
      have hlength : (overwrite 0 r.contents (r.place p.2) (bytesOf data (size.toNat * count.toNat))).length ≤ limit.bytes := by
        rw [length_overwrite, length_bytesOf]
        omega
      refine (h.file hlength).put p.1 fun c hc => ?_
      cases Option.mem_some.1 hc
      exact ⟨by dsimp only; omega, fun hn => nomatch hn⟩

theorem sound_step (h : r.Sound limit) (op : Op) : (r.step limit op).2.Sound limit := by
  cases op with
  | fopen mode => exact sound_fopen h mode
  | fwrite data size count stream => exact sound_fwrite h data size count stream
  | fputc character stream => exact sound_fwrite h _ 1 1 stream
  | fseek offset origin stream => exact sound_fseek h offset origin stream
  | ftell stream => exact sound_ftell h stream
  | fread size count stream => exact sound_fread h size count stream
  | fclose stream => exact sound_fclose h stream

theorem sound_fresh (disk : Disk limit) : (fresh disk.file).Sound limit where
  fits := by
    unfold fresh contents
    cases hf : disk.file with
    | none => exact Nat.zero_le _
    | some bytes => exact disk.fits bytes hf
  slots := Nat.succ_pos 3
  placed := by
    intro c hc
    simp [fresh] at hc

end Reference

/-! ## Opening -/

theorem write_fits {disk : Disk limit} {data : List UInt8} (h : data.length ≤ limit.bytes) :
    (disk.write data).1 = 0 ∧ (disk.write data).2.file = some data := by
  rw [Disk.write, dif_pos h]
  exact ⟨rfl, rfl⟩

theorem write_nil (disk : Disk limit) : (disk.write []).1 = 0 ∧ (disk.write []).2.file = some [] :=
  write_fits (Nat.zero_le limit.bytes)

theorem size_neg_iff (disk : Disk limit) : disk.size < 0 ↔ disk.file = none := by
  unfold Disk.size
  cases disk.file with
  | none => exact ⟨fun _ => rfl, fun _ => by decide⟩
  | some bytes => exact ⟨fun h => absurd h (by simp only []; omega), fun h => nomatch h⟩

theorem size_toNat (disk : Disk limit) : disk.size.toNat = disk.contents.length := by
  unfold Disk.size Disk.contents
  cases disk.file <;> rfl

/-- The file and the disk after `fopen` found a free slot. -/
def openedOn (mode : Mode) (disk : Disk limit) : FILE × Disk limit :=
  match mode with
  | .w => (⟨true, 0, false⟩, (disk.write []).2)
  | .a => (⟨true, disk.size.toNat, true⟩, disk)

theorem fopenLoop_free (mode : Mode) {f : FILE} (fs : List FILE) (i : Nat) (disk : Disk limit) (hf : f.named = false) :
    fopenLoop mode.letter (f :: fs) i disk = (some i, (openedOn mode disk).1 :: fs, (openedOn mode disk).2) := by
  cases mode with
  | w =>
    have h := (write_nil disk).1
    simp [fopenLoop, hf, Mode.letter, openedOn, h]
  | a =>
    by_cases hs : 0 ≤ disk.size
    · simp [fopenLoop, hf, Mode.letter, openedOn, hs]
    · have hzero : disk.size.toNat = 0 := by omega
      simp [fopenLoop, hf, Mode.letter, openedOn, hs, hzero]

theorem fopenLoop_eq (mode : Mode) (disk : Disk limit) (fs : List FILE) :
    ∀ i, fopenLoop mode.letter fs i disk = match fs.findIdx? fun f => f.view.isNone with
      | none => (none, fs, disk)
      | some k => (some (i + k), fs.set k (openedOn mode disk).1, (openedOn mode disk).2) := by
  induction fs with
  | nil => intro i; rfl
  | cons f fs ih =>
    intro i
    rw [List.findIdx?_cons]
    cases hf : f.named with
    | false =>
      have hview : f.view.isNone = true := by simp [FILE.view, hf]
      rw [fopenLoop_free mode fs i disk hf, if_pos hview]
      rfl
    | true =>
      have hview : ¬f.view.isNone = true := by simp [FILE.view, hf]
      rw [if_neg hview, fopenLoop, if_pos hf, ih (i + 1)]
      cases fs.findIdx? fun f => f.view.isNone with
      | none => rfl
      | some k =>
        have hadd : i + 1 + k = i + (k + 1) := by omega
        dsimp only [Option.map_some, List.set_cons_succ]
        rw [hadd]

/-- The disk on which the loop of `fopen` runs. -/
theorem fopen_eq (mode : Mode) (s : State limit) : ∃ disk : Disk limit, (mode = .w ∨ s.disk.file ≠ none → disk = s.disk) ∧
    (mode = .a → disk.file = some s.disk.contents) ∧
    fopen mode.letter s = (.opened (fopenLoop mode.letter s.streams 0 disk).1,
      ⟨(fopenLoop mode.letter s.streams 0 disk).2.2, (fopenLoop mode.letter s.streams 0 disk).2.1⟩) := by
  cases mode with
  | w => exact ⟨s.disk, fun _ => rfl, fun h => (nomatch h), by simp [fopen, Mode.letter]⟩
  | a =>
    cases hf : s.disk.file with
    | none =>
      obtain ⟨hzero, hfile⟩ := write_nil s.disk
      have hsize := (size_neg_iff s.disk).2 hf
      refine ⟨(s.disk.write []).2, fun h => ?_, fun _ => ?_, ?_⟩
      · rcases h with h | h
        · exact nomatch h
        · exact absurd rfl h
      · rw [hfile, Disk.contents, hf]
        rfl
      · simp [fopen, Mode.letter, hsize, hzero]
    | some bytes =>
      have hsize : ¬s.disk.size < 0 := fun h => nomatch hf ▸ (size_neg_iff s.disk).1 h
      refine ⟨s.disk, fun _ => rfl, fun _ => ?_, ?_⟩
      · rw [hf, Disk.contents, hf]
        rfl
      · simp [fopen, Mode.letter, hsize]

theorem view_openedOn {disk : Disk limit} {mode : Mode} : (openedOn mode disk).1.view = some ⟨mode == Mode.a,
    (match mode with | .w => [] | .a => disk.contents).length⟩ := by
  cases mode with
  | w => rfl
  | a => rw [openedOn, FILE.view, if_pos rfl, size_toNat]; rfl

theorem fopen_agrees {s : State limit} (h : s.view.Sound limit) (mode : Mode) :
    ((fopen mode.letter s).1, (fopen mode.letter s).2.view) = s.view.fopen mode := by
  obtain ⟨disk, hsame, hmade, hopen⟩ := fopen_eq mode s
  have hindex : s.view.streams.findIdx? Option.isNone = s.streams.findIdx? fun f => f.view.isNone := List.findIdx?_map ..
  rw [hopen, fopenLoop_eq]
  unfold Reference.fopen
  rw [hindex]
  cases hfree : s.streams.findIdx? fun f => f.view.isNone with
  | none =>
    -- every stream is open, so that there is a file and `fopen` did not make it
    have hfile : s.disk.file ≠ none := by
      obtain ⟨f, hf⟩ := List.exists_mem_of_length_pos (List.length_map FILE.view ▸ h.slots)
      have hopen := List.findIdx?_eq_none_iff.1 hfree f hf
      cases hview : f.view with
      | none =>
        rw [hview] at hopen
        exact nomatch hopen
      | some c => exact (h.placed c (hview ▸ List.mem_map_of_mem hf)).2
    rw [hsame (.inr hfile)]
  | some k =>
    dsimp only
    rw [Nat.zero_add]
    refine Prod.ext rfl (Reference.ext ?_ ?_)
    · cases mode with
      | w => exact (write_nil disk).2
      | a => exact hmade rfl
    · dsimp only [State.view, Reference.put]
      rw [List.map_set, view_openedOn]
      cases mode with
      | w => rfl
      | a =>
        have hc : disk.contents = s.view.contents := by rw [Disk.contents, hmade rfl]; rfl
        rw [hc]
        rfl

/-! ## Closing, telling, seeking and reading -/

theorem wrap_of_lt {n : Nat} (h : n < 2147483648) : wrap n = n := by
  rw [wrap, Int.bmod_eq_of_le] <;> omega

/-- The stream of the reference behind a pointer. -/
def FILE.cursor (f : FILE) : Cursor := ⟨f.append, f.position⟩

theorem FILE.view_named {f : FILE} (h : f.named = true) : f.view = some f.cursor := by rw [view, if_pos h]; rfl

section Live
variable {s : State limit} (h : s.view.Sound limit) {stream : Option Nat} {i : Nat} {f : FILE} (hlive : s.live stream = some (i, f))
include hlive

theorem live_view : s.view.live stream = some (i, f.cursor) := by rw [view_live, hlive]; rfl

theorem index_lt : i < s.view.streams.length := by
  rw [State.view, List.length_map]
  exact (List.getElem?_eq_some_iff.1 (live_lt hlive).1).1

include h

theorem position_lt : f.position < 2147483648 := (h.of_live (live_view hlive)).1

end Live

theorem fclose_agrees (s : State limit) (stream : Option Nat) :
    ((fclose stream s).1, (fclose stream s).2.view) = s.view.fclose stream := by
  rw [fclose, Reference.fclose, view_live]
  cases s.live stream with
  | none => rfl
  | some p => exact Prod.ext rfl (view_put s p.1 _)

theorem ftell_agrees {s : State limit} (h : s.view.Sound limit) (stream : Option Nat) :
    ((ftell stream s).1, (ftell stream s).2.view) = s.view.ftell stream := by
  cases hlive : s.live stream with
  | none => rw [ftell, Reference.ftell, view_live, hlive]; rfl
  | some p =>
    rw [ftell, Reference.ftell, live_view hlive, hlive]
    exact Prod.ext (congrArg Outcome.status (wrap_of_lt (position_lt h hlive))) rfl

/-- Nothing moved. -/
theorem put_cursor {s : State limit} {stream : Option Nat} {i : Nat} {f : FILE} (hlive : s.live stream = some (i, f)) :
    s.view.put i (some f.cursor) = s.view := by
  obtain ⟨hget, hnamed⟩ := live_lt hlive
  obtain ⟨hi, rfl⟩ := List.getElem?_eq_some_iff.1 hget
  refine Reference.ext rfl ?_
  dsimp only [Reference.put, State.view]
  rw [← FILE.view_named hnamed, ← List.map_set, List.set_getElem_self hi]

/-- A stream that is put back with another position. -/
theorem view_moved {s : State limit} {stream : Option Nat} {i : Nat} {f : FILE} (hlive : s.live stream = some (i, f)) (position : Nat) :
    (s.put i { f with position := position }).view = s.view.put i (some { f.cursor with position := position }) := by
  have hview : FILE.view { f with position := position } = some { f.cursor with position := position } :=
    FILE.view_named (live_lt hlive).2
  rw [view_put, hview]

theorem size_of_live {s : State limit} (h : s.view.Sound limit) {stream : Option Nat} {i : Nat} {f : FILE}
    (hlive : s.live stream = some (i, f)) : s.disk.size = s.view.contents.length := by
  have hneg : ¬s.disk.size < 0 := fun hn => (h.of_live (live_view hlive)).2.1 ((size_neg_iff s.disk).1 hn)
  have hnat := size_toNat s.disk
  rw [contents_view]
  omega

theorem fseek_agrees_iff {s : State limit} (h : s.view.Sound limit) (offset : Int32) (origin : Origin) {stream : Option Nat} {i : Nat}
    {f : FILE} (hlive : s.live stream = some (i, f)) :
    ((fseek offset origin stream s).1, (fseek offset origin stream s).2.view) = s.view.fseek offset origin stream ↔
      0 ≤ offset.toInt ∨ s.view.base f.cursor origin + offset.toInt < 0 := by
  have hposition := position_lt h hlive
  have hlimit := limit.isInt
  have hfits := h.fits
  have hmax := offset.toInt_lt
  have hmin := offset.le_toInt
  have hbase : seekBase s f origin = (s.view.base f.cursor origin : Int) := by
    cases origin with
    | seekSet => rfl
    | seekCur => exact wrap_of_lt hposition
    | seekEnd => exact size_of_live h hlive
  have hlt : s.view.base f.cursor origin < 2147483648 := by
    cases origin with
    | seekSet => exact Nat.succ_pos _
    | seekCur => exact hposition
    | seekEnd => exact Nat.lt_of_le_of_lt hfits hlimit
  rw [fseek, Reference.fseek, live_view hlive, hlive]
  dsimp only
  rw [hbase]
  generalize htarget : (s.view.base f.cursor origin : Int) + offset.toInt = target
  by_cases hneg : offset.toInt < 0
  · rw [if_pos hneg]
    by_cases hbefore : target < 0
    · have hout : ¬(0 ≤ target ∧ target < 2147483648) := by omega
      rw [if_neg hout]
      exact ⟨fun _ => .inr hbefore, fun _ => rfl⟩
    · have hin : 0 ≤ target ∧ target < 2147483648 := by omega
      rw [if_pos hin]
      refine ⟨fun heq => ?_, fun hor => by omega⟩
      have hstatus : Outcome.status (-1) = .status 0 := congrArg Prod.fst heq
      exact absurd hstatus (by decide)
  · refine iff_of_true ?_ (.inl (by omega))
    rw [if_neg hneg]
    by_cases hlarge : target < 2147483648
    · have hwrap : wrap target = target := by rw [wrap, Int.bmod_eq_of_le] <;> omega
      have hin : 0 ≤ target ∧ target < 2147483648 := by omega
      have hpos : ¬target < 0 := by omega
      rw [hwrap, if_pos hin, if_neg hpos]
      exact Prod.ext rfl (view_moved hlive _)
    · have hwrap : wrap target < 0 := by
        rw [wrap, Int.bmod_def]
        omega
      have hout : ¬(0 ≤ target ∧ target < 2147483648) := by omega
      rw [if_pos hwrap, if_neg hout]

/-! ## Reading -/

theorem toNat_mul (size count : UInt32) : (size * count).toNat = size.toNat * count.toNat % 4294967296 := UInt32.toNat_mul size count

theorem mul_eq_zero_iff {size count : UInt32} : size.toNat * count.toNat = 0 ↔ size = 0 ∨ count = 0 := by
  rw [Nat.mul_eq_zero, ← UInt32.toNat_inj, ← UInt32.toNat_inj]
  rfl

/-- The kernel reads what is there. -/
theorem read_eq {disk : Disk limit} (hfile : disk.file ≠ none) (offset size : Nat) :
    (disk.read offset size).1.toNat = ((disk.contents.drop offset).take size).length ∧
      (disk.read offset size).2 = (disk.contents.drop offset).take size := by
  unfold Disk.read Disk.contents
  cases hf : disk.file with
  | none => exact absurd hf hfile
  | some bytes =>
    dsimp only [Option.getD_some]
    by_cases hin : offset ≤ bytes.length
    · rw [if_pos hin]
      exact ⟨rfl, rfl⟩
    · have hnil : bytes.drop offset = [] := List.drop_of_length_le (by omega)
      rw [if_neg hin, hnil, List.take_nil]
      exact ⟨rfl, rfl⟩

/-- `fread` with the product that wraps. -/
theorem fread_eq {s : State limit} (h : s.view.Sound limit) (size count : UInt32) {stream : Option Nat} {i : Nat} {f : FILE}
    (hlive : s.live stream = some (i, f)) :
    let bytes := (s.view.contents.drop f.position).take (size * count).toNat
    ((fread size count stream s).1, (fread size count stream s).2.view) =
      (.got (bytes.length / size.toNat) size.toNat bytes,
        s.view.put i (some { f.cursor with position := f.position + bytes.length })) := by
  intro bytes
  have hposition := position_lt h hlive
  have hlimit := limit.isInt
  have hfits := h.fits
  obtain ⟨hgot, hbytes⟩ := read_eq (h.of_live (live_view hlive)).2.1 f.position (size * count).toNat
  have hnone : bytes = [] → (Outcome.got 0 size.toNat [], s.view) = (.got (bytes.length / size.toNat) size.toNat bytes,
      s.view.put i (some { f.cursor with position := f.position + bytes.length })) := by
    intro hnil
    rw [hnil, List.length_nil, Nat.zero_div]
    exact Prod.ext rfl (put_cursor hlive).symm
  rw [fread, hlive]
  dsimp only
  by_cases hzero : size = 0 ∨ count = 0
  · rw [if_pos hzero]
    apply hnone
    have hn : (size * count).toNat = 0 := by rw [toNat_mul, mul_eq_zero_iff.2 hzero]
    exact List.take_eq_nil_iff.2 (.inl hn)
  · rw [if_neg hzero]
    by_cases hempty : (s.disk.read f.position (size * count).toNat).1 ≤ 0
    · rw [if_pos hempty]
      apply hnone
      have hlength : bytes.length = 0 := by
        rw [← Int.toNat_of_nonpos hempty]
        exact hgot.symm
      exact List.length_eq_zero_iff.1 hlength
    · rw [if_neg hempty, hgot, hbytes]
      refine Prod.ext rfl ?_
      have hmod : (f.position + bytes.length) % 4294967296 = f.position + bytes.length := by
        apply Nat.mod_eq_of_lt
        have hle : bytes.length ≤ s.view.contents.length := by
          rw [List.length_take, List.length_drop]
          omega
        omega
      rw [← hmod]
      exact view_moved hlive _

theorem fread_agrees_iff {s : State limit} (h : s.view.Sound limit) (size count : UInt32) {stream : Option Nat} {i : Nat} {f : FILE}
    (hlive : s.live stream = some (i, f)) :
    ((fread size count stream s).1, (fread size count stream s).2.view) = s.view.fread size count stream ↔
      size.toNat * count.toNat < 4294967296 ∨ s.view.contents.length - f.position ≤ (size * count).toNat := by
  have hlimit := limit.isInt
  have hfits := h.fits
  rw [fread_eq h size count hlive, Reference.fread, live_view hlive]
  by_cases hwrap : size.toNat * count.toNat < 4294967296
  · have hsame : (size * count).toNat = size.toNat * count.toNat := by rw [toNat_mul, Nat.mod_eq_of_lt hwrap]
    rw [hsame]
    exact ⟨fun _ => .inl hwrap, fun _ => rfl⟩
  · have hall : (s.view.contents.drop f.position).take (size.toNat * count.toNat) = s.view.contents.drop f.position := by
      apply List.take_of_length_le
      rw [List.length_drop]
      omega
    refine ⟨fun heq => .inr ?_, fun hor => ?_⟩
    · have hgot := congrArg Prod.fst heq
      injection hgot with _ _ hbytes
      have hlength := congrArg List.length (hbytes.trans hall)
      rw [List.length_take, List.length_drop] at hlength
      omega
    · have hshort := hor.resolve_left hwrap
      have hwhole : (s.view.contents.drop f.position).take (size * count).toNat = s.view.contents.drop f.position := by
        apply List.take_of_length_le
        rwa [List.length_drop]
      dsimp only [FILE.cursor]
      rw [hall, hwhole]

/-! ## Writing -/

/-- What the library keeps of the file: all of it, in front of the data, unless the position is 0 in mode `w`. -/
def Reference.kept (r : Reference) (c : Cursor) : List UInt8 := if c.append = true ∨ c.position ≠ 0 then r.contents else []

/-- The write goes to the end of the file, or replaces all of it; or it is refused on both sides, which
depends on the product that wraps. -/
def Reference.WriteMeets (limit : Limit) (r : Reference) (c : Cursor) (size count : UInt32) : Prop :=
  size.toNat * count.toNat = 0 ∨
    if r.place c + size.toNat * count.toNat ≤ limit.bytes then
      c.position = r.contents.length ∨ (c.append = false ∧ c.position = 0 ∧ r.contents.length ≤ size.toNat * count.toNat)
    else limit.bytes < (r.kept c).length + (size * count).toNat

theorem write_refused {disk : Disk limit} {data : List UInt8} (h : limit.bytes < data.length) : disk.write data = (-1, disk) := by
  rw [Disk.write, dif_neg (by omega)]

section Writing
variable {s : State limit} {stream : Option Nat} {i : Nat} {f : FILE} (hlive : s.live stream = some (i, f))
  (data : Nat → UInt8) {size count : UInt32} (hsome : ¬(size = 0 ∨ count = 0))
include hlive hsome

/-- Both kernel calls write the file anew. -/
theorem fwrite_eq : let r := s.disk.write (s.view.kept f.cursor ++ bytesOf data (size * count).toNat)
    fwrite data size count stream s = if r.1 ≠ 0 then (.wrote 0 size.toNat 0, { s with disk := r.2 })
      else (.wrote count.toNat size.toNat (size * count).toNat,
        State.put { s with disk := r.2 } i { f with position := (f.position + (size * count).toNat) % 4294967296 }) := by
  have hcall : (if f.append = true ∨ f.position ≠ 0 then s.disk.append (bytesOf data (size * count).toNat)
      else s.disk.write (bytesOf data (size * count).toNat)) =
      s.disk.write (s.view.kept f.cursor ++ bytesOf data (size * count).toNat) := by
    dsimp only [Reference.kept, FILE.cursor]
    split <;> rfl
  rw [fwrite, hlive]
  dsimp only
  rw [if_neg hsome, hcall]

theorem fwrite_refused (hlong : limit.bytes < (s.view.kept f.cursor).length + (size * count).toNat) :
    ((fwrite data size count stream s).1, (fwrite data size count stream s).2.view) = (.wrote 0 size.toNat 0, s.view) := by
  have hwrite := @write_refused limit s.disk (s.view.kept f.cursor ++ bytesOf data (size * count).toNat) (by simpa using hlong)
  rw [fwrite_eq hlive data hsome, hwrite]
  rfl

theorem fwrite_accepted (hfits : (s.view.kept f.cursor).length + (size * count).toNat ≤ limit.bytes) :
    ((fwrite data size count stream s).1, (fwrite data size count stream s).2.view) =
      (.wrote count.toNat size.toNat (size * count).toNat,
        Reference.put { s.view with file := some (s.view.kept f.cursor ++ bytesOf data (size * count).toNat) } i
          (some { f.cursor with position := (f.position + (size * count).toNat) % 4294967296 })) := by
  obtain ⟨hzero, hfile⟩ := @write_fits limit s.disk (s.view.kept f.cursor ++ bytesOf data (size * count).toNat) (by simpa using hfits)
  rw [fwrite_eq hlive data hsome, hzero]
  refine Prod.ext rfl ?_
  have hview := @view_moved limit { s with disk := (s.disk.write (s.view.kept f.cursor ++ bytesOf data (size * count).toNat)).2 }
    stream i f hlive ((f.position + (size * count).toNat) % 4294967296)
  rw [← hfile]
  exact hview

end Writing

theorem fwrite_zero (s : State limit) (data : Nat → UInt8) {size count : UInt32} (stream : Option Nat) (hzero : size = 0 ∨ count = 0) :
    fwrite data size count stream s = (.wrote 0 size.toNat 0, s) := by
  rw [fwrite]
  cases s.live stream with
  | none => rfl
  | some p => exact if_pos hzero

namespace Reference

variable {r : Reference} {stream : Option Nat} {i : Nat} {c : Cursor} (hlive : r.live stream = some (i, c))
  (data : Nat → UInt8) {size count : UInt32}

include hlive

theorem fwrite_refused (hno : size.toNat * count.toNat = 0 ∨ limit.bytes < r.place c + size.toNat * count.toNat) :
    r.fwrite limit data size count stream = (.wrote 0 size.toNat 0, r) := by
  rw [fwrite, hlive]
  exact if_pos hno

theorem fwrite_accepted (hsome : size.toNat * count.toNat ≠ 0) (hfits : r.place c + size.toNat * count.toNat ≤ limit.bytes) :
    r.fwrite limit data size count stream = (.wrote count.toNat size.toNat (size.toNat * count.toNat),
      { r with file := some (overwrite 0 r.contents (r.place c) (bytesOf data (size.toNat * count.toNat))) }.put i
        (some { c with position := r.place c + size.toNat * count.toNat })) := by
  have hno : ¬(size.toNat * count.toNat = 0 ∨ limit.bytes < r.place c + size.toNat * count.toNat) := by omega
  rw [fwrite, hlive]
  exact if_neg hno

end Reference

/-- What the library writes is what the reference writes. -/
theorem written_iff {r : Reference} {c : Cursor} {i n : Nat} (data : Nat → UInt8) (hi : i < r.streams.length)
    (hposition : c.position < 2147483648) (hpos : n ≠ 0) (hsmall : n < 2147483648) :
    Reference.put { r with file := some (r.kept c ++ bytesOf data n) } i (some { c with position := (c.position + n) % 4294967296 }) =
        Reference.put { r with file := some (overwrite 0 r.contents (r.place c) (bytesOf data n)) } i
          (some { c with position := r.place c + n }) ↔
      c.position = r.contents.length ∨ (c.append = false ∧ c.position = 0 ∧ r.contents.length ≤ n) := by
  have hdata : bytesOf data n ≠ [] := List.ne_nil_of_length_pos (by rw [length_bytesOf]; omega)
  have hmod : (c.position + n) % 4294967296 = c.position + n := Nat.mod_eq_of_lt (by omega)
  have hboth : Reference.put { r with file := some (r.kept c ++ bytesOf data n) } i (some { c with position := c.position + n }) =
        Reference.put { r with file := some (overwrite 0 r.contents (r.place c) (bytesOf data n)) } i
          (some { c with position := r.place c + n }) ↔
      overwrite 0 r.contents (r.place c) (bytesOf data n) = r.kept c ++ bytesOf data n ∧ r.place c = c.position := by
    refine ⟨fun heq => ⟨?_, ?_⟩, fun ⟨hfile, hplace⟩ => by rw [hfile, hplace]⟩
    · exact (Option.some.inj (congrArg Reference.file heq)).symm
    · have hcursor := congrArg (fun t : Reference => t.streams[i]?) heq
      simp only [Reference.put, List.getElem?_set_self hi, Option.some.injEq, Cursor.mk.injEq, true_and] at hcursor
      omega
  rw [hmod, hboth]
  dsimp only [Reference.kept, Reference.place]
  cases happend : c.append with
  | true =>
    -- the data is at the end, so that only the position can be another one
    rw [if_pos rfl, if_pos (.inl rfl), overwrite_end]
    exact ⟨fun h => .inl h.2.symm, fun h => ⟨rfl, (h.resolve_right fun hn => nomatch hn.1).symm⟩⟩
  | false =>
    rw [if_neg Bool.false_ne_true]
    by_cases hzero : c.position = 0
    · have hno : ¬(false = true ∨ c.position ≠ 0) := fun h => h.elim Bool.false_ne_true fun hn => hn hzero
      rw [if_neg hno, List.nil_append, hzero, overwrite_eq_data_iff, length_bytesOf]
      exact ⟨fun h => .inr ⟨rfl, rfl, h.1⟩, fun h => ⟨h.elim (fun he => by omega) fun h => h.2.2, rfl⟩⟩
    · rw [if_pos (.inr hzero), overwrite_eq_append_iff 0 hdata]
      exact ⟨fun h => .inl h.1, fun h => ⟨h.resolve_right fun hn => hzero hn.2.1, rfl⟩⟩

/-- The end of a write that is taken is also what the library takes. -/
theorem Reference.WriteMeets.kept_le {r : Reference} {c : Cursor} {n : Nat} (hfits : r.place c + n ≤ limit.bytes)
    (hmeets : c.position = r.contents.length ∨ (c.append = false ∧ c.position = 0 ∧ r.contents.length ≤ n)) :
    (r.kept c).length + n ≤ limit.bytes := by
  unfold Reference.kept
  unfold Reference.place at hfits
  rcases hmeets with hend | ⟨happend, hzero, -⟩
  · have hplace : r.contents.length + n ≤ limit.bytes := by
      split at hfits
      · exact hfits
      · rwa [← hend]
    split
    · exact hplace
    · exact Nat.le_trans (Nat.add_le_add_right (Nat.zero_le _) n) hplace
  · have hno : ¬(c.append = true ∨ c.position ≠ 0) := by simp [happend, hzero]
    rw [if_neg hno, List.length_nil]
    omega

theorem fwrite_agrees_iff {s : State limit} (h : s.view.Sound limit) (data : Nat → UInt8) (size count : UInt32) {stream : Option Nat}
    {i : Nat} {f : FILE} (hlive : s.live stream = some (i, f)) :
    ((fwrite data size count stream s).1, (fwrite data size count stream s).2.view) = s.view.fwrite limit data size count stream ↔
      s.view.WriteMeets limit f.cursor size count := by
  have hposition := position_lt h hlive
  have hlimit := limit.isInt
  have hview := live_view hlive
  unfold Reference.WriteMeets
  by_cases hsome : size = 0 ∨ count = 0
  · have hn := mul_eq_zero_iff.2 hsome
    rw [fwrite_zero s data stream hsome, Reference.fwrite_refused hview data (.inl hn)]
    exact ⟨fun _ => .inl hn, fun _ => rfl⟩
  have hn : size.toNat * count.toNat ≠ 0 := fun hz => hsome (mul_eq_zero_iff.1 hz)
  have hcount : count.toNat ≠ 0 := fun hz => hn (by rw [hz, Nat.mul_zero])
  rw [or_iff_right hn]
  by_cases hfits : s.view.place f.cursor + size.toNat * count.toNat ≤ limit.bytes
  · have hsame : (size * count).toNat = size.toNat * count.toNat := by
      rw [toNat_mul]
      exact Nat.mod_eq_of_lt (by omega)
    have href := Reference.fwrite_accepted hview data hn hfits
    rw [if_pos hfits]
    by_cases hkept : (s.view.kept f.cursor).length + (size * count).toNat ≤ limit.bytes
    · rw [fwrite_accepted hlive data hsome hkept, href, hsame, Prod.mk.injEq, and_iff_right rfl]
      exact written_iff data (index_lt hlive) hposition hn (by omega)
    · rw [fwrite_refused hlive data hsome (by omega), href]
      refine ⟨fun heq => ?_, fun hmeets => ?_⟩
      · injection congrArg Prod.fst heq with hzero
        exact absurd hzero.symm hcount
      · rw [hsame] at hkept
        exact absurd (Reference.WriteMeets.kept_le hfits hmeets) hkept
  · rw [if_neg hfits, Reference.fwrite_refused hview data (.inr (by omega))]
    by_cases hkept : (s.view.kept f.cursor).length + (size * count).toNat ≤ limit.bytes
    · rw [fwrite_accepted hlive data hsome hkept]
      refine ⟨fun heq => ?_, fun hlong => by omega⟩
      injection congrArg Prod.fst heq with hzero
      exact absurd hzero hcount
    · rw [fwrite_refused hlive data hsome (by omega)]
      exact ⟨fun _ => by omega, fun _ => rfl⟩

/-- Where the library takes one byte and the reference does not, the file grows. -/
theorem fwrite_grows {s : State limit} (data : Nat → UInt8) {stream : Option Nat} {i : Nat} {f : FILE}
    (hlive : s.live stream = some (i, f)) (hkept : (s.view.kept f.cursor).length + 1 ≤ limit.bytes)
    (hlong : limit.bytes < s.view.place f.cursor + 1) : (fwrite data 1 1 stream s).2.view ≠ s.view := by
  intro heq
  have hsome : ¬((1 : UInt32) = 0 ∨ (1 : UInt32) = 0) := by decide
  have hstate := (congrArg Prod.snd (fwrite_accepted hlive data hsome hkept)).symm.trans heq
  have hlength := congrArg (fun t : Reference => t.contents.length) hstate
  dsimp only [Reference.put, Reference.contents, Option.getD_some] at hlength
  rw [List.length_append, length_bytesOf] at hlength
  unfold Reference.kept at hkept hlength
  unfold Reference.place at hlong
  by_cases hall : f.cursor.append = true ∨ f.cursor.position ≠ 0
  · rw [if_pos hall] at hlength
    exact Nat.succ_ne_self _ hlength
  · rw [not_or, not_not] at hall
    rw [if_neg hall.1, hall.2] at hlong
    omega

theorem fputc_agrees_iff {s : State limit} (h : s.view.Sound limit) (character : Int32) {stream : Option Nat}
    {i : Nat} {f : FILE} (hlive : s.live stream = some (i, f)) :
    ((fputc character stream s).1, (fputc character stream s).2.view) = s.view.fputc limit character stream ↔
      s.view.WriteMeets limit f.cursor 1 1 ∧
        (s.view.place f.cursor + 1 ≤ limit.bytes → 0 ≤ character.toInt ∧ character.toInt < 256) := by
  have hview := live_view hlive
  have hsome : ¬((1 : UInt32) = 0 ∨ (1 : UInt32) = 0) := by decide
  rw [← fwrite_agrees_iff h (fun _ => .ofInt character.toInt) 1 1 hlive]
  unfold fputc Reference.fputc
  dsimp only
  have htakes := @Reference.fwrite_accepted limit s.view stream i f.cursor hview (fun _ => .ofInt character.toInt) 1 1 Nat.one_ne_zero
  have hrefuses := fun hno : ¬s.view.place f.cursor + 1 ≤ limit.bytes =>
    @Reference.fwrite_refused limit s.view stream i f.cursor hview (fun _ => .ofInt character.toInt) 1 1 (.inr (Nat.lt_of_not_le hno))
  by_cases hkept : (s.view.kept f.cursor).length + 1 ≤ limit.bytes
  · have htaken := congrArg Prod.fst (fwrite_accepted hlive (fun _ => .ofInt character.toInt) hsome hkept)
    dsimp only at htaken
    rw [htaken]
    by_cases hfits : s.view.place f.cursor + 1 ≤ limit.bytes
    · rw [imp_iff_right hfits, htakes hfits]
      simp only [Prod.mk.injEq]
      refine ⟨fun ⟨hvalue, hstate⟩ => ⟨⟨rfl, hstate⟩, ?_⟩, fun ⟨⟨_, hstate⟩, hbyte⟩ => ⟨?_, hstate⟩⟩
      · have heq : character.toInt = character.toInt % 256 := Outcome.status.inj hvalue
        omega
      · have heq : character.toInt = character.toInt % 256 := by omega
        exact congrArg Outcome.status heq
    · have hgrows := fwrite_grows (fun _ => .ofInt character.toInt) hlive hkept (by omega)
      rw [hrefuses hfits]
      simp only [Prod.mk.injEq]
      exact ⟨fun heq => absurd heq.2 hgrows, fun heq => absurd heq.1.2 hgrows⟩
  · have hrefused := fwrite_refused hlive (fun _ => .ofInt character.toInt) hsome (Nat.lt_of_not_le hkept)
    rw [Prod.mk.injEq] at hrefused
    rw [hrefused.1, hrefused.2]
    by_cases hfits : s.view.place f.cursor + 1 ≤ limit.bytes
    · rw [htakes hfits]
      simp only [Prod.mk.injEq]
      refine ⟨fun ⟨hvalue, _⟩ => ?_, fun ⟨⟨hvalue, _⟩, _⟩ => ?_⟩
      · have heq : -1 = character.toInt % 256 := Outcome.status.inj hvalue
        omega
      · injection hvalue with hzero
        exact absurd hzero (by decide)
    · rw [hrefuses hfits]
      exact ⟨fun _ => ⟨rfl, fun hf => absurd hf hfits⟩, fun _ => rfl⟩

/-! ## Runs -/

/-- A call on which the library is faithful. -/
def Reference.Meets (limit : Limit) (r : Reference) : Op → Prop
  | .fwrite _ size count stream => ∀ p ∈ r.live stream, r.WriteMeets limit p.2 size count
  | .fputc character stream => ∀ p ∈ r.live stream, r.WriteMeets limit p.2 1 1 ∧
      (r.place p.2 + 1 ≤ limit.bytes → 0 ≤ character.toInt ∧ character.toInt < 256)
  | .fseek offset origin stream => ∀ p ∈ r.live stream, 0 ≤ offset.toInt ∨ r.base p.2 origin + offset.toInt < 0
  | .fread size count stream => ∀ p ∈ r.live stream,
      size.toNat * count.toNat < 4294967296 ∨ r.contents.length - p.2.position ≤ (size * count).toNat
  | _ => True

/-- A closed stream refuses every call on both sides. -/
theorem agrees_iff_of_live {s : State limit} {stream : Option Nat} {A : Prop} {P : Nat × Cursor → Prop}
    (hclosed : s.live stream = none → A) (hopen : ∀ i f, s.live stream = some (i, f) → (A ↔ P (i, f.cursor))) :
    A ↔ ∀ p ∈ s.view.live stream, P p := by
  cases hlive : s.live stream with
  | none =>
    rw [view_live, hlive]
    exact ⟨fun _ _ hp => (nomatch hp), fun _ => hclosed hlive⟩
  | some q =>
    rw [live_view hlive, hopen q.1 q.2 hlive]
    exact ⟨fun h p hp => Option.mem_some.1 hp ▸ h, fun h => h _ rfl⟩

theorem step_agrees_iff {s : State limit} (h : s.view.Sound limit) (op : Op) :
    ((s.step op).1, (s.step op).2.view) = s.view.step limit op ↔ s.view.Meets limit op := by
  cases op with
  | fopen mode => exact iff_of_true (fopen_agrees h mode) trivial
  | fclose stream => exact iff_of_true (fclose_agrees s stream) trivial
  | ftell stream => exact iff_of_true (ftell_agrees h stream) trivial
  | fwrite data size count stream =>
    refine agrees_iff_of_live (fun hlive => ?_) fun i f hlive => fwrite_agrees_iff h data size count hlive
    simp only [State.step, Reference.step, fwrite, Reference.fwrite, view_live, hlive, Option.map_none]
  | fputc character stream =>
    refine agrees_iff_of_live (fun hlive => ?_) fun i f hlive => fputc_agrees_iff h character hlive
    simp only [State.step, Reference.step, fputc, Reference.fputc, fwrite, Reference.fwrite, view_live, hlive, Option.map_none]
    rfl
  | fseek offset origin stream =>
    refine agrees_iff_of_live (fun hlive => ?_) fun i f hlive => fseek_agrees_iff h offset origin hlive
    simp only [State.step, Reference.step, fseek, Reference.fseek, view_live, hlive, Option.map_none]
  | fread size count stream =>
    refine agrees_iff_of_live (fun hlive => ?_) fun i f hlive => fread_agrees_iff h size count hlive
    simp only [State.step, Reference.step, fread, Reference.fread, view_live, hlive, Option.map_none]

/-- After each call what it returned, the file and the open streams. -/
def State.trace : State limit → List Op → List (Outcome × Reference)
  | _, [] => []
  | s, op :: ops => ((s.step op).1, (s.step op).2.view) :: (s.step op).2.trace ops

namespace Reference

def trace (limit : Limit) : Reference → List Op → List (Outcome × Reference)
  | _, [] => []
  | r, op :: ops => r.step limit op :: (r.step limit op).2.trace limit ops

/-- Every call of a run is one on which the library is faithful. -/
def MeetsAll (limit : Limit) : Reference → List Op → Prop
  | _, [] => True
  | r, op :: ops => r.Meets limit op ∧ (r.step limit op).2.MeetsAll limit ops

theorem covered_step (r : Reference) (op : Op) : (r.step limit op).1.Covered := by
  cases op with
  | fopen mode =>
    dsimp only [step]
    unfold fopen
    split <;> exact trivial
  | fclose stream =>
    dsimp only [step]
    unfold fclose
    split <;> exact trivial
  | ftell stream =>
    dsimp only [step]
    unfold ftell
    split <;> exact trivial
  | fseek offset origin stream =>
    dsimp only [step]
    unfold fseek
    split
    · exact trivial
    · dsimp only
      split <;> exact trivial
  | fputc character stream =>
    dsimp only [step, fputc]
    unfold putOutcome
    split <;> exact trivial
  | fread size count stream =>
    dsimp only [step]
    unfold fread
    split
    · exact Nat.le_of_eq (Nat.zero_mul _)
    · exact Nat.div_mul_le_self _ _
  | fwrite data size count stream =>
    dsimp only [step]
    unfold fwrite
    split
    · exact Nat.le_of_eq (Nat.zero_mul _)
    · dsimp only
      split
      · exact Nat.le_of_eq (Nat.zero_mul _)
      · exact Nat.le_of_eq (Nat.mul_comm _ _)

theorem covered_trace (ops : List Op) : ∀ r : Reference, ∀ p ∈ r.trace limit ops, p.1.Covered := by
  induction ops with
  | nil => exact fun _ _ h => nomatch h
  | cons op ops ih =>
    intro r p hp
    rcases List.mem_cons.1 hp with rfl | hp
    · exact covered_step r op
    · exact ih _ p hp

end Reference

theorem trace_agrees_iff (ops : List Op) : ∀ s : State limit, s.view.Sound limit →
    (s.trace ops = s.view.trace limit ops ↔ s.view.MeetsAll limit ops) := by
  induction ops with
  | nil => exact fun _ _ => iff_of_true rfl trivial
  | cons op ops ih =>
    intro s h
    rw [State.trace, Reference.trace, List.cons.injEq, step_agrees_iff h op, Reference.MeetsAll]
    refine and_congr_right fun hmeets => ?_
    have hview : (s.step op).2.view = (s.view.step limit op).2 := congrArg Prod.snd ((step_agrees_iff h op).2 hmeets)
    have hsound := Reference.sound_step h op
    rw [← hview] at hsound ⊢
    exact ih _ hsound

/-- A run on any file returns what the reference returns, and leaves the file and the positions that the
reference leaves, exactly if all its calls are ones on which the library is faithful. -/
theorem streams_refine_iff (disk : Disk limit) (ops : List Op) :
    ((start disk).trace ops = (Reference.fresh disk.file).trace limit ops ∧ ∀ p ∈ (start disk).trace ops, p.1.Covered) ↔
      (Reference.fresh disk.file).MeetsAll limit ops := by
  have hagrees := trace_agrees_iff ops (start disk) (Reference.sound_fresh disk)
  rw [view_start] at hagrees
  rw [← hagrees]
  refine and_iff_left_of_imp fun heq p hp => ?_
  rw [heq] at hp
  exact Reference.covered_trace ops _ p hp

/-- `abc` at the start of a new file, and then `x` in the place of its `a`: only the `x` is left. -/
theorem rewound_write_empties : let ops : List Op := [.fopen .w, .fwrite (fun i => .ofNat (97 + i)) 1 3 (some 0),
      .fseek 0 .seekSet (some 0), .fputc 120 (some 0)]
    ((@start ⟨274432, by decide⟩ ⟨none, fun _ h => nomatch h⟩).trace ops).map (·.2.file) =
        [some [], some [97, 98, 99], some [97, 98, 99], some [120]] ∧
      ((Reference.fresh none).trace ⟨274432, by decide⟩ ops).map (·.2.file) =
        [some [], some [97, 98, 99], some [97, 98, 99], some [120, 98, 99]] := by decide

end Barnix.Stdio
