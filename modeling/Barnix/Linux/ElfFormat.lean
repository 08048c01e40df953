import Barnix.Lib.Bytes
import Barnix.Linux.Elf
import Mathlib.Data.Nat.ModEq
/-!
# The accepted programs

`elf_validate` in the arithmetic of its 32-bit fields, and the format that it accepts, stated
without a bound on the numbers.
-/

namespace Barnix.Linux

/-! ## In 32 bits -/

namespace Word

def add (a b : Nat) : Nat := (a + b) % 2 ^ 32
def sub (a b : Nat) : Nat := (a + (2 ^ 32 - b)) % 2 ^ 32

/-- The checks of the file header. -/
def checkHeader (data : List UInt8) : Except ElfError Bool :=
  if data.length < 52 then .error .truncated
  else if data.take 4 ≠ [0x7f, 69, 76, 70] then .error .notElf
  else if byteAt data 4 ≠ 1 then .error .elf64
  else if byteAt data 5 ≠ 1 then .error .bigEndian
  else if half data 16 = 3 then .error .sharedObject
  else if half data 16 ≠ 2 ∨ half data 18 ≠ 3 ∨ byteAt data 6 ≠ 1 ∨ wordAt data 20 ≠ 1 ∨ half data 40 ≠ 52 ∨
      wordAt data 36 ≠ 0 then .error .notStatic
  else if half data 44 = 0 ∨ 32 < half data 44 ∨ half data 42 ≠ 32 ∨ data.length < wordAt data 28 ∨
      sub data.length (wordAt data 28) / 32 < half data 44 then .error .programHeaders
  else if byteAt data 7 = 255 ∧ (byteAt data 8 = 9 ∨ byteAt data 8 = 8 ∨ byteAt data 8 = 7) then .ok true
  else if (byteAt data 7 ≠ 0 ∧ byteAt data 7 ≠ 3) ∨ byteAt data 8 ≠ 0 then .error .abi
  else .ok false

/-- The checks of a segment alone, below `loadEnd`. -/
def checkSegment (size base loadEnd : Nat) (p : ProgramHeader) : Except ElfError Unit :=
  if p.memsz < p.filesz ∨ size < p.offset ∨ sub size p.offset < p.filesz then .error .fileRange
  else if 1 < p.align ∧ (p.align &&& sub p.align 1 ≠ 0 ∨ p.vaddr &&& sub p.align 1 ≠ p.offset &&& sub p.align 1) then
    .error .alignment
  else if p.memsz = 0 then .ok ()
  else if p.vaddr < base ∨ loadEnd ≤ p.vaddr ∨ sub loadEnd p.vaddr < p.memsz then .error .outside
  else .ok ()

def overlaps (p : ProgramHeader) (s : ElfSegment) : Bool :=
  p.vaddr < add s.address s.memorySize && s.address < add p.vaddr p.memsz

def coversTable (phoff phnum : Nat) (p : ProgramHeader) : Bool :=
  p.offset ≤ phoff && sub phoff p.offset ≤ p.filesz && phnum * 32 ≤ sub p.filesz (sub phoff p.offset)

/-- The loop over the program headers; `executable` says whether the entry was seen. -/
def planSegments (size loadEnd entry : Nat) : List ProgramHeader → ElfPlan → Bool → Except ElfError (ElfPlan × Bool)
  | [], plan, executable => .ok (plan, executable)
  | p :: rest, plan, executable =>
    if p.type = 2 ∨ p.type = 3 then .error .interpreter
    else if p.type = 7 then .error .tls
    else if p.type ≠ 1 then
      if [0, 4, 6, 0x6474e551, 0x6474e552, 0x6474e553].contains p.type then planSegments size loadEnd entry rest plan executable
      else .error .headerKind
    else
      (checkSegment size plan.base loadEnd p).bind fun _ =>
        if p.memsz = 0 then planSegments size loadEnd entry rest plan executable
        else if plan.segments.any (overlaps p) then .error .overlapping
        else
          planSegments size loadEnd entry rest
            { plan with
              phdr := if coversTable plan.phoff plan.phnum p then sub (add p.vaddr plan.phoff) p.offset else plan.phdr
              segments := plan.segments ++ [⟨p.offset, p.vaddr, p.filesz, p.memsz⟩] }
            (executable || (p.flags &&& 1 ≠ 0 && p.vaddr ≤ entry && sub entry p.vaddr < p.filesz))

/-- Both passes read the table at `h.phoff + i * sizeof(p)`. -/
def programHeaders (data : List UInt8) : List ProgramHeader :=
  (List.range (half data 44)).map fun i => programHeader data (add (wordAt data 28) (i * 32))

/-- `elf_validate` -/
def elfValidate (data : List UInt8) : Except ElfError ElfPlan :=
  (checkHeader data).bind fun legacy =>
    let base := if legacy then loadMin else lowest (programHeaders data) &&& 0xffc00000
    if base ≠ loadMin ∧ (base < 0x2000000 ∨ 0xbfc00000 < base) then .error .window
    else
      let stackTop := add base arenaSize
      (planSegments data.length (sub stackTop stackSize) (wordAt data 24) (programHeaders data)
        ⟨wordAt data 24, base, wordAt data 28, half data 44, 0, legacy, []⟩ false).bind fun planned =>
          if planned.1.segments = [] ∨ !planned.2 then .error .entry else .ok planned.1

end Word

/-! ## The format -/

/-- A `PT_LOAD` with memory. -/
def ProgramHeader.loads (p : ProgramHeader) : Bool := p.type = 1 ∧ p.memsz ≠ 0

/-- The nonempty `PT_LOAD`s, in the order of the table. -/
def segmentHeaders (data : List UInt8) : List ProgramHeader := (programHeaders data).filter ProgramHeader.loads

/-- The ABI tag of the kernel's own programs. -/
def NativeAbi (data : List UInt8) : Prop := byteAt data 7 = 255 ∧ byteAt data 8 ∈ [7, 8, 9]

instance (data : List UInt8) : Decidable (NativeAbi data) := inferInstanceAs (Decidable (_ ∧ _))

/-- A little-endian ELF32 header for i386 and `ET_EXEC`, with a program header table inside of the file. -/
structure GoodHeader (data : List UInt8) : Prop where
  size : 52 ≤ data.length
  magic : data.take 4 = [0x7f, 69, 76, 70]
  class32 : byteAt data 4 = 1
  littleEndian : byteAt data 5 = 1
  identVersion : byteAt data 6 = 1
  abi : NativeAbi data ∨ byteAt data 7 ∈ [0, 3] ∧ byteAt data 8 = 0
  executable : half data 16 = 2
  machine : half data 18 = 3
  version : wordAt data 20 = 1
  flags : wordAt data 36 = 0
  headerSize : half data 40 = 52
  entrySize : half data 42 = 32
  entries : 1 ≤ half data 44 ∧ half data 44 ≤ 32
  table : wordAt data 28 + 32 * half data 44 ≤ data.length

/-- A program header of an allowed type; a `PT_LOAD` has its bytes in the file, and is aligned alike in both. -/
structure GoodEntry (size : Nat) (p : ProgramHeader) : Prop where
  kind : p.type ∈ [0, 1, 4, 6, 0x6474e551, 0x6474e552, 0x6474e553]
  file : p.type = 1 → p.filesz ≤ p.memsz ∧ p.offset + p.filesz ≤ size
  aligned : p.type = 1 → 1 < p.align → (∃ k, p.align = 2 ^ k) ∧ p.vaddr ≡ p.offset [MOD p.align]

/-- The window of a program: fixed for the kernel's own ABI, else the 4 MiB of its lowest segment. -/
def WindowAt (data : List UInt8) (base : Nat) : Prop :=
  if NativeAbi data then base = loadMin
  else (∃ p ∈ segmentHeaders data, (∀ q ∈ segmentHeaders data, p.vaddr ≤ q.vaddr) ∧ base = p.vaddr / 0x400000 * 0x400000) ∧
    (base = loadMin ∨ 0x2000000 ≤ base ∧ base ≤ 0xbfc00000)

/-- The declared format, of a program with its window at `base`. -/
structure GoodProgram (data : List UInt8) (base : Nat) : Prop where
  header : GoodHeader data
  entries : ∀ p ∈ programHeaders data, GoodEntry data.length p
  window : WindowAt data base
  inside : ∀ p ∈ segmentHeaders data, base ≤ p.vaddr ∧ p.vaddr + p.memsz ≤ base + 0x400000 - 0x10000
  apart : (segmentHeaders data).Pairwise fun p q => p.vaddr + p.memsz ≤ q.vaddr ∨ q.vaddr + q.memsz ≤ p.vaddr
  entry : ∃ p ∈ segmentHeaders data, p.flags % 2 = 1 ∧ p.vaddr ≤ wordAt data 24 ∧ wordAt data 24 < p.vaddr + p.filesz

/-- The file bytes of `p` contain the program header table. -/
def HoldsTable (data : List UInt8) (p : ProgramHeader) : Prop :=
  p.offset ≤ wordAt data 28 ∧ wordAt data 28 + 32 * half data 44 ≤ p.offset + p.filesz

/-- The plan of a program. -/
structure GoodPlan (data : List UInt8) (plan : ElfPlan) : Prop where
  entry : plan.entry = wordAt data 24
  table : plan.phoff = wordAt data 28 ∧ plan.phnum = half data 44
  abi : plan.legacy = true ↔ NativeAbi data
  segments : plan.segments = (segmentHeaders data).map fun p => ⟨p.offset, p.vaddr, p.filesz, p.memsz⟩
  phdr : (∃ p ∈ segmentHeaders data, HoldsTable data p ∧ plan.phdr = p.vaddr + (wordAt data 28 - p.offset)) ∨
    (∀ p ∈ segmentHeaders data, ¬ HoldsTable data p) ∧ plan.phdr = 0

/-! ## No sum wraps -/

theorem byteAt_lt (data : List UInt8) (i : Nat) : byteAt data i < 256 := UInt8.toNat_lt _

theorem half_lt (data : List UInt8) (i : Nat) : half data i < 65536 := by
  have h1 := byteAt_lt data i
  have h2 := byteAt_lt data (i + 1)
  unfold half
  omega

theorem wordAt_lt (data : List UInt8) (i : Nat) : wordAt data i < 2 ^ 32 := by
  have h1 := half_lt data i
  have h2 := half_lt data (i + 2)
  unfold wordAt
  omega

namespace Word

theorem add_of_lt {a b : Nat} (h : a + b < 2 ^ 32) : add a b = a + b := Nat.mod_eq_of_lt h

theorem sub_of_le {a b : Nat} (h : b ≤ a) (ha : a < 2 ^ 32) : sub a b = a - b := by
  unfold sub
  omega

/-- The fields of a program header are words. -/
structure Fits (p : ProgramHeader) : Prop where
  offset : p.offset < 2 ^ 32
  vaddr : p.vaddr < 2 ^ 32
  filesz : p.filesz < 2 ^ 32
  memsz : p.memsz < 2 ^ 32
  align : p.align < 2 ^ 32

theorem fits_programHeader (data : List UInt8) (off : Nat) : Fits (programHeader data off) :=
  ⟨wordAt_lt .., wordAt_lt .., wordAt_lt .., wordAt_lt .., wordAt_lt ..⟩

theorem fits_programHeaders (data : List UInt8) : ∀ p ∈ Linux.programHeaders data, Fits p := by
  intro p hp
  obtain ⟨i, -, rfl⟩ := List.mem_map.1 hp
  exact fits_programHeader ..

theorem checkHeader_eq {data : List UInt8} (hsize : data.length < 2 ^ 32) : checkHeader data = Linux.checkHeader data := by
  have htable : (half data 44 = 0 ∨ 32 < half data 44 ∨ half data 42 ≠ 32 ∨ data.length < wordAt data 28 ∨
      sub data.length (wordAt data 28) / 32 < half data 44) ↔
      (half data 44 = 0 ∨ 32 < half data 44 ∨ half data 42 ≠ 32 ∨ data.length < wordAt data 28 ∨
        (data.length - wordAt data 28) / 32 < half data 44) := by
    by_cases h : data.length < wordAt data 28
    · simp [h]
    · rw [sub_of_le (Nat.not_lt.1 h) hsize]
  unfold checkHeader Linux.checkHeader
  simp only [htable]

theorem programHeaders_eq {data : List UInt8} (hsize : data.length < 2 ^ 32)
    (htable : wordAt data 28 + 32 * half data 44 ≤ data.length) : programHeaders data = Linux.programHeaders data := by
  unfold programHeaders Linux.programHeaders
  apply List.map_congr_left
  intro i hi
  have := List.mem_range.1 hi
  rw [add_of_lt (by omega)]

theorem checkSegment_eq {size base : Nat} (hsize : size < 2 ^ 32) (hbase : base + arenaSize < 2 ^ 32) {p : ProgramHeader}
    (hp : Fits p) : checkSegment size base (base + arenaSize - stackSize) p = Linux.checkSegment size base p := by
  have hfile : (p.memsz < p.filesz ∨ size < p.offset ∨ sub size p.offset < p.filesz) ↔
      (p.memsz < p.filesz ∨ size < p.offset ∨ size - p.offset < p.filesz) := by
    by_cases h : size < p.offset
    · simp [h]
    · rw [sub_of_le (Nat.not_lt.1 h) hsize]
  have halign : (1 < p.align ∧ (p.align &&& sub p.align 1 ≠ 0 ∨ p.vaddr &&& sub p.align 1 ≠ p.offset &&& sub p.align 1)) ↔
      (1 < p.align ∧ (p.align &&& (p.align - 1) ≠ 0 ∨ p.vaddr &&& (p.align - 1) ≠ p.offset &&& (p.align - 1))) := by
    by_cases h : 1 < p.align
    · rw [sub_of_le (Nat.le_of_lt h) hp.align]
    · simp [h]
  have hinside : (p.vaddr < base ∨ base + arenaSize - stackSize ≤ p.vaddr ∨
        sub (base + arenaSize - stackSize) p.vaddr < p.memsz) ↔
      (p.vaddr < base ∨ base + arenaSize - stackSize ≤ p.vaddr ∨ base + arenaSize - stackSize - p.vaddr < p.memsz) := by
    by_cases h : base + arenaSize - stackSize ≤ p.vaddr
    · simp [h]
    · rw [sub_of_le (by omega) (by omega)]
  unfold checkSegment Linux.checkSegment
  simp only [hfile, halign, hinside]

end Word

/-! ## What each check says -/

theorem align_iff {p : ProgramHeader} (h : 1 < p.align) :
    ¬ (p.align &&& (p.align - 1) ≠ 0 ∨ p.vaddr &&& (p.align - 1) ≠ p.offset &&& (p.align - 1)) ↔
      (∃ k, p.align = 2 ^ k) ∧ p.vaddr ≡ p.offset [MOD p.align] := by
  rw [not_or, not_not, not_not, Nat.and_sub_one_eq_zero_iff_isPowerOfTwo (by omega)]
  refine and_congr_right ?_
  rintro ⟨k, hk⟩
  rw [hk, Nat.and_two_pow_sub_one_eq_mod, Nat.and_two_pow_sub_one_eq_mod]
  rfl

/-- What `checkSegment` asks of a `PT_LOAD`. -/
structure GoodSegment (size base : Nat) (p : ProgramHeader) : Prop where
  file : p.filesz ≤ p.memsz ∧ p.offset + p.filesz ≤ size
  aligned : 1 < p.align → (∃ k, p.align = 2 ^ k) ∧ p.vaddr ≡ p.offset [MOD p.align]
  inside : p.memsz ≠ 0 → base ≤ p.vaddr ∧ p.vaddr + p.memsz ≤ base + 0x400000 - 0x10000

theorem checkSegment_ok {size base : Nat} {p : ProgramHeader} : checkSegment size base p = .ok () ↔ GoodSegment size base p := by
  unfold checkSegment arenaSize stackSize
  by_cases hfile : p.memsz < p.filesz ∨ size < p.offset ∨ size - p.offset < p.filesz
  · rw [if_pos hfile]
    refine ⟨nofun, fun h => ?_⟩
    have := h.file
    omega
  rw [if_neg hfile]
  by_cases halign : 1 < p.align ∧ (p.align &&& (p.align - 1) ≠ 0 ∨ p.vaddr &&& (p.align - 1) ≠ p.offset &&& (p.align - 1))
  · rw [if_pos halign]
    exact ⟨nofun, fun h => absurd halign.2 ((align_iff halign.1).2 (h.aligned halign.1))⟩
  rw [if_neg halign]
  have haligned : 1 < p.align → (∃ k, p.align = 2 ^ k) ∧ p.vaddr ≡ p.offset [MOD p.align] :=
    fun h => (align_iff h).1 fun hbad => halign ⟨h, hbad⟩
  by_cases hempty : p.memsz = 0
  · rw [if_pos hempty]
    exact ⟨fun _ => ⟨by omega, haligned, fun h => absurd hempty h⟩, fun _ => rfl⟩
  rw [if_neg hempty]
  split
  · refine ⟨nofun, fun h => ?_⟩
    have := h.inside hempty
    omega
  · exact ⟨fun _ => ⟨by omega, haligned, fun _ => by omega⟩, fun _ => rfl⟩

theorem nativeAbi_iff (data : List UInt8) : NativeAbi data ↔
    byteAt data 7 = 255 ∧ (byteAt data 8 = 9 ∨ byteAt data 8 = 8 ∨ byteAt data 8 = 7) := by
  unfold NativeAbi
  simp only [List.mem_cons, List.not_mem_nil, or_false]
  omega

theorem checkHeader_ok {data : List UInt8} {legacy : Bool} :
    checkHeader data = .ok legacy ↔ GoodHeader data ∧ legacy = decide (NativeAbi data) := by
  have hnative := nativeAbi_iff data
  unfold checkHeader
  constructor
  · intro h
    split at h
    · cases h
    split at h
    · cases h
    split at h
    · cases h
    split at h
    · cases h
    split at h
    · cases h
    split at h
    · cases h
    split at h
    · cases h
    rename_i hsize hmagic hclass hendian _ hstatic htable
    have hgood : (NativeAbi data ∨ byteAt data 7 ∈ [0, 3] ∧ byteAt data 8 = 0) → GoodHeader data := fun habi =>
      ⟨by omega, by simpa using hmagic, by omega, by omega, by omega, habi, by omega, by omega, by omega, by omega, by omega,
        by omega, by omega, by omega⟩
    split at h
    · rename_i habi
      cases h
      exact ⟨hgood (.inl (hnative.2 habi)), by simp [hnative.2 habi]⟩
    split at h
    · cases h
    · rename_i hforeign habi
      cases h
      refine ⟨hgood (.inr ⟨?_, by omega⟩), by simp [mt hnative.1 hforeign]⟩
      simp only [List.mem_cons, List.not_mem_nil, or_false]
      omega
  · rintro ⟨h, rfl⟩
    have hentries := h.entries
    have htable := h.table
    have hsize := h.size
    have := h.executable
    have := h.machine
    have := h.identVersion
    have := h.version
    have := h.headerSize
    have := h.flags
    have := h.entrySize
    rw [if_neg (by omega), if_neg (by simp [h.magic]), if_neg (by simp [h.class32]), if_neg (by simp [h.littleEndian]),
      if_neg (by omega), if_neg (by omega), if_neg (by omega)]
    by_cases habi : NativeAbi data
    · rw [if_pos (hnative.1 habi)]
      simp [habi]
    · have hother := h.abi.resolve_left habi
      simp only [List.mem_cons, List.not_mem_nil, or_false] at hother
      rw [if_neg (mt hnative.2 habi), if_neg (by omega)]
      simp [habi]

/-! ## The loop over the headers -/

/-- The plan with one more segment. -/
def extended (plan : ElfPlan) (p : ProgramHeader) : ElfPlan :=
  { plan with
    phdr := if coversTable plan.phoff plan.phnum p then p.vaddr + plan.phoff - p.offset else plan.phdr
    segments := plan.segments ++ [⟨p.offset, p.vaddr, p.filesz, p.memsz⟩] }

/-- The plan with the segments of more headers. -/
def grown (plan : ElfPlan) (headers : List ProgramHeader) : ElfPlan := headers.foldl extended plan

/-- The entry lies in the file bytes of an executable segment. -/
def runs (entry : Nat) (p : ProgramHeader) : Bool := p.flags &&& 1 ≠ 0 && p.vaddr ≤ entry && entry - p.vaddr < p.filesz

/-- What the loop asks of a header alone. -/
def Passes (size base : Nat) (p : ProgramHeader) : Prop :=
  p.type ∈ [0, 1, 4, 6, 0x6474e551, 0x6474e552, 0x6474e553] ∧ (p.type = 1 → GoodSegment size base p)

/-- Beside a segment of the plan. -/
def Beside (p : ProgramHeader) (s : ElfSegment) : Prop :=
  s.address + s.memorySize ≤ p.vaddr ∨ p.vaddr + p.memsz ≤ s.address

theorem any_overlap {p : ProgramHeader} {segments : List ElfSegment} :
    (segments.any fun s => p.vaddr < s.address + s.memorySize && s.address < p.vaddr + p.memsz) = false ↔
      ∀ s ∈ segments, Beside p s := by
  rw [List.any_eq_false]
  refine forall_congr' fun s => forall_congr' fun _ => ?_
  unfold Beside
  simp only [Bool.and_eq_true, decide_eq_true_eq]
  omega

theorem planSegments_ok {size entry : Nat} {headers : List ProgramHeader} {plan plan' : ElfPlan} {executable executable' : Bool} :
    planSegments size entry headers plan executable = .ok (plan', executable') ↔
      (∀ p ∈ headers, Passes size plan.base p) ∧
      ((headers.filter ProgramHeader.loads).Pairwise fun p q => p.vaddr + p.memsz ≤ q.vaddr ∨ q.vaddr + q.memsz ≤ p.vaddr) ∧
      (∀ p ∈ headers.filter ProgramHeader.loads, ∀ s ∈ plan.segments, Beside p s) ∧
      plan' = grown plan (headers.filter ProgramHeader.loads) ∧
      executable' = (executable || (headers.filter ProgramHeader.loads).any (runs entry)) := by
  induction headers generalizing plan executable with
  | nil =>
    rw [planSegments, Except.ok.injEq, Prod.mk.injEq, List.filter_nil, List.any_nil, Bool.or_false]
    exact ⟨fun h => ⟨nofun, .nil, nofun, h.1.symm, h.2.symm⟩, fun h => ⟨h.2.2.2.1.symm, h.2.2.2.2.symm⟩⟩
  | cons p rest ih =>
    rw [planSegments, List.forall_mem_cons]
    by_cases hdynamic : p.type = 2 ∨ p.type = 3
    · rw [if_pos hdynamic]
      refine ⟨nofun, fun h => ?_⟩
      have := h.1.1.1
      rcases hdynamic with ht | ht <;> simp [ht] at this
    rw [if_neg hdynamic]
    by_cases htls : p.type = 7
    · rw [if_pos htls]
      refine ⟨nofun, fun h => ?_⟩
      have := h.1.1.1
      simp [htls] at this
    rw [if_neg htls]
    have hskip : ¬ (p.type = 1 ∧ p.memsz ≠ 0) → (p :: rest).filter ProgramHeader.loads = rest.filter ProgramHeader.loads :=
      fun h => List.filter_cons_of_neg (by simpa [ProgramHeader.loads] using h)
    by_cases hload : p.type = 1
    · rw [if_neg (by simpa using hload)]
      have hkind : p.type ∈ [0, 1, 4, 6, 0x6474e551, 0x6474e552, 0x6474e553] := by simp [hload]
      cases hcheck : checkSegment size plan.base p with
      | error e =>
        dsimp only
        refine ⟨nofun, fun h => ?_⟩
        have := checkSegment_ok.2 (h.1.1.2 hload)
        rw [hcheck] at this
        cases this
      | ok _ =>
        dsimp only
        have hpasses : Passes size plan.base p := ⟨hkind, fun _ => checkSegment_ok.1 hcheck⟩
        by_cases hempty : p.memsz = 0
        · rw [if_pos hempty, ih, hskip (fun h => h.2 hempty)]
          exact ⟨fun h => ⟨⟨hpasses, h.1⟩, h.2⟩, fun h => ⟨h.1.2, h.2⟩⟩
        have hfilter : (p :: rest).filter ProgramHeader.loads = p :: rest.filter ProgramHeader.loads :=
          List.filter_cons_of_pos (by simp [ProgramHeader.loads, hload, hempty])
        rw [if_neg hempty, hfilter, List.pairwise_cons, List.forall_mem_cons, List.any_cons, ← Bool.or_assoc]
        by_cases hoverlap : (plan.segments.any fun s => p.vaddr < s.address + s.memorySize && s.address < p.vaddr + p.memsz) = true
        · rw [if_pos hoverlap]
          refine ⟨nofun, fun h => ?_⟩
          have := any_overlap.2 h.2.2.1.1
          rw [hoverlap] at this
          cases this
        have hbeside := any_overlap.1 (Bool.eq_false_iff.2 hoverlap)
        rw [if_neg hoverlap, ih]
        constructor
        · rintro ⟨hrest, hpairs, hsegments, hplan, hruns⟩
          refine ⟨⟨hpasses, hrest⟩, ⟨fun q hq => ?_, hpairs⟩, ⟨hbeside, fun q hq s hs => ?_⟩, hplan, hruns⟩
          · exact hsegments q hq ⟨p.offset, p.vaddr, p.filesz, p.memsz⟩ (by simp)
          · exact hsegments q hq s (List.mem_append_left _ hs)
        · rintro ⟨⟨-, hrest⟩, ⟨hp, hpairs⟩, ⟨-, hsegments⟩, hplan, hruns⟩
          refine ⟨hrest, hpairs, fun q hq s hs => ?_, hplan, hruns⟩
          rcases List.mem_append.1 hs with hs | hs
          · exact hsegments q hq s hs
          · rw [List.mem_singleton.1 hs]
            exact hp q hq
    rw [if_pos hload, hskip (fun h => hload h.1)]
    by_cases hkind : [0, 4, 6, 0x6474e551, 0x6474e552, 0x6474e553].contains p.type = true
    · have hpasses : Passes size plan.base p := by
        refine ⟨?_, fun h => absurd h hload⟩
        simp only [List.contains_iff_mem, List.mem_cons, List.not_mem_nil, or_false] at hkind ⊢
        omega
      rw [if_pos hkind, ih]
      exact ⟨fun h => ⟨⟨hpasses, h.1⟩, h.2⟩, fun h => ⟨h.1.2, h.2⟩⟩
    · rw [if_neg hkind]
      refine ⟨nofun, fun h => absurd h.1.1.1 ?_⟩
      simp only [List.contains_iff_mem, List.mem_cons, List.not_mem_nil, or_false] at hkind ⊢
      omega

theorem grown_fields (plan : ElfPlan) (headers : List ProgramHeader) :
    (grown plan headers).entry = plan.entry ∧ (grown plan headers).base = plan.base ∧ (grown plan headers).phoff = plan.phoff ∧
      (grown plan headers).phnum = plan.phnum ∧ (grown plan headers).legacy = plan.legacy ∧
      (grown plan headers).segments = plan.segments ++ headers.map fun p => ⟨p.offset, p.vaddr, p.filesz, p.memsz⟩ := by
  induction headers generalizing plan with
  | nil => simp [grown]
  | cons p headers ih =>
    obtain ⟨h1, h2, h3, h4, h5, h6⟩ := ih (extended plan p)
    exact ⟨h1, h2, h3, h4, h5, h6.trans (by simp [extended])⟩

/-- The last header whose file bytes contain the table gives its address. -/
theorem grown_phdr (plan : ElfPlan) (headers : List ProgramHeader) :
    (∃ p ∈ headers, coversTable plan.phoff plan.phnum p = true ∧ (grown plan headers).phdr = p.vaddr + plan.phoff - p.offset) ∨
      (∀ p ∈ headers, coversTable plan.phoff plan.phnum p = false) ∧ (grown plan headers).phdr = plan.phdr := by
  induction headers generalizing plan with
  | nil => exact .inr ⟨nofun, rfl⟩
  | cons p headers ih =>
    rcases ih (extended plan p) with ⟨q, hq, hcovers, hphdr⟩ | ⟨hnone, hphdr⟩
    · exact .inl ⟨q, by simp [hq], hcovers, hphdr⟩
    · by_cases hp : coversTable plan.phoff plan.phnum p = true
      · exact .inl ⟨p, by simp, hp, hphdr.trans (if_pos hp)⟩
      · refine .inr ⟨?_, hphdr.trans (if_neg hp)⟩
        rw [List.forall_mem_cons]
        exact ⟨Bool.eq_false_iff.2 hp, hnone⟩

/-! ## The window -/

/-- A lower bound of the segments, which one of them attains unless there is none below the start. -/
theorem lowest_spec (headers : List ProgramHeader) :
    (∀ p ∈ headers.filter ProgramHeader.loads, lowest headers ≤ p.vaddr) ∧
      (lowest headers = 0xffffffff ∨ ∃ p ∈ headers.filter ProgramHeader.loads, lowest headers = p.vaddr) := by
  have hfold : ∀ (headers : List ProgramHeader) (low : Nat),
      let r := headers.foldl (fun low p => if p.type = 1 ∧ p.memsz ≠ 0 ∧ p.vaddr < low then p.vaddr else low) low
      r ≤ low ∧ (∀ p ∈ headers.filter ProgramHeader.loads, r ≤ p.vaddr) ∧
        (r = low ∨ ∃ p ∈ headers.filter ProgramHeader.loads, r = p.vaddr) := by
    intro headers
    induction headers with
    | nil => exact fun low => ⟨Nat.le_refl _, nofun, .inl rfl⟩
    | cons p headers ih =>
      intro low
      dsimp only
      rw [List.foldl_cons]
      by_cases hload : p.loads = true
      · rw [List.filter_cons_of_pos hload]
        have hparts : p.type = 1 ∧ p.memsz ≠ 0 := by simpa [ProgramHeader.loads] using hload
        by_cases hlow : p.vaddr < low
        · rw [if_pos ⟨hparts.1, hparts.2, hlow⟩]
          obtain ⟨hle, hall, hfrom⟩ := ih p.vaddr
          refine ⟨Nat.le_trans hle (Nat.le_of_lt hlow), List.forall_mem_cons.2 ⟨hle, hall⟩, .inr ?_⟩
          rcases hfrom with hfrom | ⟨q, hq, hfrom⟩
          · exact ⟨p, by simp, hfrom⟩
          · exact ⟨q, by simp [hq], hfrom⟩
        · rw [if_neg (fun h => hlow h.2.2)]
          obtain ⟨hle, hall, hfrom⟩ := ih low
          refine ⟨hle, List.forall_mem_cons.2 ⟨Nat.le_trans hle (Nat.not_lt.1 hlow), hall⟩, ?_⟩
          rcases hfrom with hfrom | ⟨q, hq, hfrom⟩
          · exact .inl hfrom
          · exact .inr ⟨q, by simp [hq], hfrom⟩
      · have hparts : ¬ (p.type = 1 ∧ p.memsz ≠ 0 ∧ p.vaddr < low) := fun h => hload (by simp [ProgramHeader.loads, h])
        rw [List.filter_cons_of_neg hload, if_neg hparts]
        exact ih low
  exact (hfold headers 0xffffffff).2

/-- The base that `elf_validate` computes. -/
def windowBase (data : List UInt8) : Nat :=
  if NativeAbi data then loadMin else lowest (programHeaders data) / 0x400000 * 0x400000

/-- It is accepted when it is the declared window. -/
theorem window_iff {data : List UInt8} (hsegments : segmentHeaders data ≠ []) {base : Nat} :
    WindowAt data base ↔ base = windowBase data ∧ ¬ (base ≠ loadMin ∧ (base < 0x2000000 ∨ 0xbfc00000 < base)) := by
  unfold WindowAt windowBase
  by_cases hnative : NativeAbi data
  · rw [if_pos hnative, if_pos hnative]
    exact ⟨fun h => ⟨h, fun hn => hn.1 h⟩, fun h => h.1⟩
  rw [if_neg hnative, if_neg hnative]
  obtain ⟨hall, hfrom⟩ := lowest_spec (programHeaders data)
  have hattained : ∃ p ∈ segmentHeaders data, lowest (programHeaders data) = p.vaddr := by
    refine hfrom.elim (fun htop => ?_) id
    obtain ⟨p, hp⟩ := List.exists_mem_of_ne_nil _ hsegments
    have hword : p.vaddr < 2 ^ 32 := (Word.fits_programHeaders data p (List.mem_of_mem_filter hp)).vaddr
    have := hall p hp
    exact ⟨p, hp, by omega⟩
  obtain ⟨p, hp, hlow⟩ := hattained
  constructor
  · rintro ⟨⟨q, hq, hleast, rfl⟩, hrange⟩
    have h1 := hall q hq
    have h2 := hleast p hp
    exact ⟨by rw [show q.vaddr = lowest (programHeaders data) by omega], by omega⟩
  · rintro ⟨rfl, hrange⟩
    refine ⟨⟨p, hp, fun q hq => ?_, by rw [hlow]⟩, by omega⟩
    rw [← hlow]
    exact hall q hq

/-! ## The whole check -/

theorem passes_iff {data : List UInt8} {base : Nat} : (∀ p ∈ programHeaders data, Passes data.length base p) ↔
    (∀ p ∈ programHeaders data, GoodEntry data.length p) ∧
      ∀ p ∈ segmentHeaders data, base ≤ p.vaddr ∧ p.vaddr + p.memsz ≤ base + 0x400000 - 0x10000 := by
  have hmem : ∀ p, p ∈ segmentHeaders data ↔ p ∈ programHeaders data ∧ p.type = 1 ∧ p.memsz ≠ 0 := by
    intro p
    simp [segmentHeaders, ProgramHeader.loads]
  constructor
  · intro h
    refine ⟨fun p hp => ⟨(h p hp).1, fun ht => ((h p hp).2 ht).file, fun ht => ((h p hp).2 ht).aligned⟩, fun p hp => ?_⟩
    obtain ⟨hp, ht, hm⟩ := (hmem p).1 hp
    exact ((h p hp).2 ht).inside hm
  · rintro ⟨hentry, hinside⟩ p hp
    exact ⟨(hentry p hp).kind, fun ht =>
      ⟨(hentry p hp).file ht, (hentry p hp).aligned ht, fun hm => hinside p ((hmem p).2 ⟨hp, ht, hm⟩)⟩⟩

theorem runs_iff {entry : Nat} {p : ProgramHeader} :
    runs entry p = true ↔ p.flags % 2 = 1 ∧ p.vaddr ≤ entry ∧ entry < p.vaddr + p.filesz := by
  unfold runs
  rw [Nat.and_one_is_mod]
  simp only [Bool.and_eq_true, decide_eq_true_eq, and_assoc]
  omega

/-- The plan before the loop over the headers. -/
def emptyPlan (data : List UInt8) : ElfPlan :=
  ⟨wordAt data 24, windowBase data, wordAt data 28, half data 44, 0, decide (NativeAbi data), []⟩

/-- The model without a bound on the numbers accepts the declared format, and plans its segments. -/
theorem elfValidate_ok {data : List UInt8} {plan : ElfPlan} : elfValidate data = .ok plan ↔
    GoodProgram data (windowBase data) ∧ plan = grown (emptyPlan data) (segmentHeaders data) := by
  unfold elfValidate
  cases hheader : checkHeader data with
  | error e =>
    refine ⟨nofun, fun h => ?_⟩
    have := checkHeader_ok.2 ⟨h.1.header, rfl⟩
    rw [hheader] at this
    cases this
  | ok legacy =>
    obtain ⟨hgood, rfl⟩ := checkHeader_ok.1 hheader
    have hbase : (if decide (NativeAbi data) = true then loadMin else lowest (programHeaders data) / 0x400000 * 0x400000) =
        windowBase data := by
      unfold windowBase
      simp only [decide_eq_true_eq]
    dsimp only
    rw [hbase]
    by_cases hwindow : windowBase data ≠ loadMin ∧ (windowBase data < 0x2000000 ∨ 0xbfc00000 < windowBase data)
    · rw [if_pos hwindow]
      refine ⟨nofun, fun h => ?_⟩
      obtain ⟨p, hp, -⟩ := h.1.entry
      exact absurd hwindow ((window_iff (List.ne_nil_of_mem hp)).1 h.1.window).2
    rw [if_neg hwindow, show (⟨wordAt data 24, windowBase data, wordAt data 28, half data 44, 0, decide (NativeAbi data), []⟩ : ElfPlan) =
      emptyPlan data from rfl]
    have hloop := @planSegments_ok data.length (wordAt data 24) (programHeaders data) (emptyPlan data)
    rw [show (emptyPlan data).base = windowBase data from rfl, show (emptyPlan data).segments = [] from rfl, passes_iff,
      show (programHeaders data).filter ProgramHeader.loads = segmentHeaders data from rfl] at hloop
    -- a good program goes through the loop
    have hthrough : GoodProgram data (windowBase data) → planSegments data.length (wordAt data 24) (programHeaders data)
        (emptyPlan data) false =
          .ok (grown (emptyPlan data) (segmentHeaders data), (segmentHeaders data).any (runs (wordAt data 24))) :=
      fun h => hloop.2 ⟨⟨h.entries, h.inside⟩, h.apart, fun _ _ => nofun, rfl, (Bool.false_or _).symm⟩
    have hsegments := (grown_fields (emptyPlan data) (segmentHeaders data)).2.2.2.2.2
    rw [show (emptyPlan data).segments = [] from rfl, List.nil_append] at hsegments
    cases hplan : planSegments data.length (wordAt data 24) (programHeaders data) (emptyPlan data) false with
    | error e =>
      refine ⟨nofun, fun h => ?_⟩
      have := hthrough h.1
      rw [hplan] at this
      cases this
    | ok planned =>
      obtain ⟨plan', executable⟩ := planned
      obtain ⟨⟨hentries, hinside⟩, hapart, -, rfl, rfl⟩ := hloop.1 hplan
      dsimp only
      rw [Bool.false_or, hsegments]
      constructor
      · intro h
        split at h
        · cases h
        rename_i hentry
        rw [not_or, Bool.not_eq_true', Bool.not_eq_false] at hentry
        cases h
        obtain ⟨p, hp, hruns⟩ := List.any_eq_true.1 hentry.2
        refine ⟨⟨hgood, hentries, (window_iff (List.ne_nil_of_mem hp)).2 ⟨rfl, hwindow⟩, hinside, hapart, ?_⟩, rfl⟩
        exact ⟨p, hp, runs_iff.1 hruns⟩
      · rintro ⟨h, rfl⟩
        obtain ⟨p, hp, hruns⟩ := h.entry
        have hany : (segmentHeaders data).any (runs (wordAt data 24)) = true := List.any_eq_true.2 ⟨p, hp, runs_iff.2 hruns⟩
        rw [if_neg]
        rw [not_or, hany]
        exact ⟨by simpa using List.ne_nil_of_mem hp, by decide⟩

/-! ## The check in 32 bits -/

namespace Word

/-- After the checks of a segment, the sums of the loop stay below 2^32. -/
theorem planSegments_eq {size entry : Nat} (hsize : size < 2 ^ 32) (hentry : entry < 2 ^ 32) {headers : List ProgramHeader}
    (hheaders : ∀ p ∈ headers, Fits p) {plan : ElfPlan} (hbase : plan.base + arenaSize < 2 ^ 32) (hphoff : plan.phoff < 2 ^ 32)
    (hsegments : ∀ s ∈ plan.segments, s.address + s.memorySize < 2 ^ 32) (executable : Bool) :
    planSegments size (plan.base + arenaSize - stackSize) entry headers plan executable =
      Linux.planSegments size entry headers plan executable := by
  induction headers generalizing plan executable with
  | nil => rfl
  | cons p rest ih =>
    obtain ⟨hp, hrest⟩ := List.forall_mem_cons.1 hheaders
    rw [planSegments, Linux.planSegments, checkSegment_eq hsize hbase hp, ih hrest hbase hphoff hsegments]
    cases hcheck : Linux.checkSegment size plan.base p with
    | error e => rfl
    | ok _ =>
      rw [Except.bind]
      dsimp only
      by_cases hempty : p.memsz = 0
      · rw [if_pos hempty, if_pos hempty]
      have hgood := checkSegment_ok.1 hcheck
      have hfile := hgood.file
      have hinside := hgood.inside hempty
      unfold arenaSize at hbase
      have hend : p.vaddr + p.memsz < 2 ^ 32 := by omega
      have hoverlap : plan.segments.any (overlaps p) =
          plan.segments.any fun s => p.vaddr < s.address + s.memorySize && s.address < p.vaddr + p.memsz := by
        rw [Bool.eq_iff_iff, List.any_eq_true, List.any_eq_true]
        refine exists_congr fun s => and_congr_right fun hs => ?_
        unfold overlaps
        rw [add_of_lt (hsegments s hs), add_of_lt hend]
      have hcovers : coversTable plan.phoff plan.phnum p = Linux.coversTable plan.phoff plan.phnum p := by
        unfold coversTable Linux.coversTable
        by_cases hle : p.offset ≤ plan.phoff
        · rw [sub_of_le hle hphoff]
          by_cases hfits : plan.phoff - p.offset ≤ p.filesz
          · rw [sub_of_le hfits hp.filesz]
          · simp [hfits]
        · simp [hle]
      have hphdr : (if Linux.coversTable plan.phoff plan.phnum p then sub (add p.vaddr plan.phoff) p.offset else plan.phdr) =
          if Linux.coversTable plan.phoff plan.phnum p then p.vaddr + plan.phoff - p.offset else plan.phdr := by
        by_cases hc : Linux.coversTable plan.phoff plan.phnum p = true
        · -- the sum of the two addresses may wrap, but not its difference to the offset
          unfold Linux.coversTable at hc
          simp only [Bool.and_eq_true, decide_eq_true_eq] at hc
          have := hp.offset
          rw [if_pos (by simpa [Linux.coversTable] using hc), if_pos (by simpa [Linux.coversTable] using hc)]
          unfold sub add
          omega
        · rw [if_neg hc, if_neg hc]
      have hruns : (p.flags &&& 1 ≠ 0 && p.vaddr ≤ entry && sub entry p.vaddr < p.filesz) =
          (p.flags &&& 1 ≠ 0 && p.vaddr ≤ entry && entry - p.vaddr < p.filesz) := by
        by_cases hle : p.vaddr ≤ entry
        · rw [sub_of_le hle hentry]
        · simp [hle]
      have hnext : ∀ s ∈ plan.segments ++ [⟨p.offset, p.vaddr, p.filesz, p.memsz⟩], s.address + s.memorySize < 2 ^ 32 := by
        intro s hs
        rcases List.mem_append.1 hs with hs | hs
        · exact hsegments s hs
        · rw [List.mem_singleton.1 hs]
          exact hend
      rw [if_neg hempty, if_neg hempty, hoverlap, hcovers, hphdr, hruns]
      have hstep := fun phdr executable => @ih hrest
        { plan with phdr := phdr, segments := plan.segments ++ [⟨p.offset, p.vaddr, p.filesz, p.memsz⟩] }
        hbase hphoff hnext executable
      dsimp only at hstep
      rw [hstep]

/-- In 32 bits, `elf_validate` computes what it computes without a bound. -/
theorem elfValidate_eq {data : List UInt8} (hsize : data.length < 2 ^ 32) : elfValidate data = Linux.elfValidate data := by
  unfold elfValidate Linux.elfValidate
  rw [checkHeader_eq hsize]
  cases hheader : Linux.checkHeader data with
  | error e => rfl
  | ok legacy =>
    have hgood := (checkHeader_ok.1 hheader).1
    have hlowest : lowest (Linux.programHeaders data) < 2 ^ 32 := by
      rcases (lowest_spec (Linux.programHeaders data)).2 with h | ⟨p, hp, h⟩
      · omega
      · rw [h]
        exact (fits_programHeaders data p (List.mem_of_mem_filter hp)).vaddr
    have hmask : lowest (Linux.programHeaders data) &&& 0xffc00000 = lowest (Linux.programHeaders data) / 0x400000 * 0x400000 :=
      and_high_mask (k := 22) (w := 32) (by decide) hlowest
    rw [Except.bind]
    dsimp only
    rw [programHeaders_eq hsize hgood.table, hmask]
    generalize hb : (if legacy = true then loadMin else lowest (Linux.programHeaders data) / 0x400000 * 0x400000) = base
    by_cases hwindow : base ≠ loadMin ∧ (base < 0x2000000 ∨ 0xbfc00000 < base)
    · rw [if_pos hwindow, if_pos hwindow]
    have hbase : base + arenaSize < 2 ^ 32 := by
      unfold arenaSize
      unfold loadMin at hwindow
      omega
    have hend : sub (add base arenaSize) stackSize = base + arenaSize - stackSize := by
      rw [add_of_lt hbase, sub_of_le (by unfold arenaSize stackSize; omega) hbase]
    have hloop := planSegments_eq hsize (wordAt_lt data 24) (fits_programHeaders data)
      (show ElfPlan.base ⟨wordAt data 24, base, wordAt data 28, half data 44, 0, legacy, []⟩ + arenaSize < 2 ^ 32 from hbase)
      (wordAt_lt data 28) nofun false
    dsimp only at hloop
    rw [if_neg hwindow, if_neg hwindow, hend, hloop]
    cases Linux.planSegments data.length (wordAt data 24) (Linux.programHeaders data)
      ⟨wordAt data 24, base, wordAt data 28, half data 44, 0, legacy, []⟩ false with
    | error e => rfl
    | ok planned => rfl

end Word

/-- The plan of the segments, with the address of the program header table where one of them holds it. -/
theorem goodPlan (data : List UInt8) : GoodPlan data (grown (emptyPlan data) (segmentHeaders data)) := by
  obtain ⟨hentry, -, hphoff, hphnum, hlegacy, hsegments⟩ := grown_fields (emptyPlan data) (segmentHeaders data)
  have hcovers : ∀ p, coversTable (wordAt data 28) (half data 44) p = true ↔ HoldsTable data p := by
    intro p
    unfold coversTable HoldsTable
    simp only [Bool.and_eq_true, decide_eq_true_eq]
    omega
  refine ⟨hentry, ⟨hphoff, hphnum⟩, ?_, hsegments, ?_⟩
  · rw [hlegacy]
    exact decide_eq_true_iff
  · rcases grown_phdr (emptyPlan data) (segmentHeaders data) with ⟨p, hp, hc, hphdr⟩ | ⟨hnone, hphdr⟩
    · have hholds := (hcovers p).1 hc
      refine .inl ⟨p, hp, hholds, hphdr.trans ?_⟩
      exact Nat.add_sub_assoc hholds.1 p.vaddr
    · refine .inr ⟨fun p hp hholds => ?_, hphdr⟩
      have := hnone p hp
      rw [show coversTable (emptyPlan data).phoff (emptyPlan data).phnum p = true from (hcovers p).2 hholds] at this
      cases this

/-- `elf_validate` accepts exactly the programs of the declared format, with the plan of their segments. -/
theorem elf_validate_iff {data : List UInt8} (hsize : data.length < 2 ^ 32) :
    ((∃ plan, Word.elfValidate data = .ok plan) ↔ ∃ base, GoodProgram data base) ∧
      ∀ plan, Word.elfValidate data = .ok plan → GoodProgram data plan.base ∧ GoodPlan data plan := by
  rw [Word.elfValidate_eq hsize]
  constructor
  · constructor
    · rintro ⟨plan, hplan⟩
      exact ⟨_, (elfValidate_ok.1 hplan).1⟩
    · rintro ⟨base, h⟩
      obtain ⟨p, hp, -⟩ := h.entry
      obtain rfl := ((window_iff (List.ne_nil_of_mem hp)).1 h.window).1
      exact ⟨_, elfValidate_ok.2 ⟨h, rfl⟩⟩
  · intro plan hplan
    obtain ⟨h, rfl⟩ := elfValidate_ok.1 hplan
    rw [(grown_fields _ _).2.1]
    exact ⟨h, goodPlan data⟩

theorem elf_validate_iff_tiny : ∃ base, GoodProgram tinyImage base :=
  (elf_validate_iff (show tinyImage.length < 2 ^ 32 by decide)).1.1
    ⟨tinyPlan, (Word.elfValidate_eq (by decide)).trans elfValidate_tinyImage⟩

end Barnix.Linux
