import Barnix.Linux.State
/-!
# Program files

`elf_validate`: the check of an ELF file, which yields a plan of what to load
where (`elf_format.c`).
-/

namespace Barnix.Linux

/-- The numbers of a file are little endian; past its end there are zeros. -/
def byteAt (data : List UInt8) (i : Nat) : Nat := (data.getD i 0).toNat
def half (data : List UInt8) (i : Nat) : Nat := byteAt data i + 256 * byteAt data (i + 1)
def wordAt (data : List UInt8) (i : Nat) : Nat := half data i + 65536 * half data (i + 2)

structure ElfSegment where
  offset : Nat
  address : Nat
  fileSize : Nat
  memorySize : Nat
deriving DecidableEq, Inhabited

structure ElfPlan where
  entry : Nat
  base : Nat
  phoff : Nat
  phnum : Nat
  phdr : Nat
  legacy : Bool
  segments : List ElfSegment
deriving DecidableEq

/-- The diagnostics of `elf_validate`. -/
inductive ElfError where
  | truncated
  | notElf
  | elf64
  | bigEndian
  | sharedObject
  | notStatic
  | programHeaders
  | abi
  | window
  | interpreter
  | tls
  | headerKind
  | fileRange
  | alignment
  | outside
  | overlapping
  | entry
deriving DecidableEq

def ElfError.text : ElfError → String
  | truncated => "truncated ELF header"
  | notElf => "not an ELF file"
  | elf64 => "ELF64 is unsupported; use an ELF32 i386 program"
  | bigEndian => "big-endian ELF is unsupported"
  | sharedObject => "PIE/shared ELF requires a dynamic loader; use -static -no-pie"
  | notStatic => "requires static ELF32 i386 ET_EXEC"
  | programHeaders => "invalid program header table"
  | abi => "unsupported ELF OS/ABI or ABI version"
  | window => "unsupported ELF virtual address window"
  | interpreter => "ELF interpreter/dynamic linking is not implemented"
  | tls => "ELF TLS is not implemented"
  | headerKind => "unsupported program header"
  | fileRange => "invalid segment file range"
  | alignment => "invalid segment alignment"
  | outside => "segment outside application memory"
  | overlapping => "overlapping load segments"
  | entry => "entry is not inside executable file data"

structure ProgramHeader where
  type : Nat
  offset : Nat
  vaddr : Nat
  filesz : Nat
  memsz : Nat
  flags : Nat
  align : Nat
deriving DecidableEq

/-- The program header at `off`. -/
def programHeader (data : List UInt8) (off : Nat) : ProgramHeader where
  type := wordAt data off
  offset := wordAt data (off + 4)
  vaddr := wordAt data (off + 8)
  filesz := wordAt data (off + 16)
  memsz := wordAt data (off + 20)
  flags := wordAt data (off + 24)
  align := wordAt data (off + 28)

/-- The checks of the file header; true for a program of the kernel's own ABI. -/
def checkHeader (data : List UInt8) : Except ElfError Bool :=
  if data.length < 52 then .error .truncated
  else if data.take 4 ≠ [0x7f, 69, 76, 70] then .error .notElf
  else if byteAt data 4 ≠ 1 then .error .elf64
  else if byteAt data 5 ≠ 1 then .error .bigEndian
  else if half data 16 = 3 then .error .sharedObject
  else if half data 16 ≠ 2 ∨ half data 18 ≠ 3 ∨ byteAt data 6 ≠ 1 ∨ wordAt data 20 ≠ 1 ∨ half data 40 ≠ 52 ∨
      wordAt data 36 ≠ 0 then .error .notStatic
  else if half data 44 = 0 ∨ 32 < half data 44 ∨ half data 42 ≠ 32 ∨ data.length < wordAt data 28 ∨
      (data.length - wordAt data 28) / 32 < half data 44 then .error .programHeaders
  else if byteAt data 7 = 255 ∧ (byteAt data 8 = 9 ∨ byteAt data 8 = 8 ∨ byteAt data 8 = 7) then .ok true
  else if (byteAt data 7 ≠ 0 ∧ byteAt data 7 ≠ 3) ∨ byteAt data 8 ≠ 0 then .error .abi
  else .ok false

/-- The lowest address of the segments. -/
def lowest (headers : List ProgramHeader) : Nat :=
  headers.foldl (fun low p => if p.type = 1 ∧ p.memsz ≠ 0 ∧ p.vaddr < low then p.vaddr else low) 0xffffffff

/-- A segment's entry in the plan, after the checks that need it alone. -/
def checkSegment (size base : Nat) (p : ProgramHeader) : Except ElfError Unit :=
  if p.memsz < p.filesz ∨ size < p.offset ∨ size - p.offset < p.filesz then .error .fileRange
  else if 1 < p.align ∧ (p.align &&& (p.align - 1) ≠ 0 ∨ p.vaddr &&& (p.align - 1) ≠ p.offset &&& (p.align - 1)) then
    .error .alignment
  else if p.memsz = 0 then .ok ()
  else if p.vaddr < base ∨ base + arenaSize - stackSize ≤ p.vaddr ∨ base + arenaSize - stackSize - p.vaddr < p.memsz then
    .error .outside
  else .ok ()

/-- The program header table lies in the file part of `p`. -/
def coversTable (phoff phnum : Nat) (p : ProgramHeader) : Bool :=
  p.offset ≤ phoff && phoff - p.offset ≤ p.filesz && phnum * 32 ≤ p.filesz - (phoff - p.offset)

/-- The loop over the program headers; `executable` says whether the entry was seen. -/
def planSegments (size entry : Nat) : List ProgramHeader → ElfPlan → Bool → Except ElfError (ElfPlan × Bool)
  | [], plan, executable => .ok (plan, executable)
  | p :: rest, plan, executable =>
    if p.type = 2 ∨ p.type = 3 then .error .interpreter
    else if p.type = 7 then .error .tls
    else if p.type ≠ 1 then
      if [0, 4, 6, 0x6474e551, 0x6474e552, 0x6474e553].contains p.type then planSegments size entry rest plan executable
      else .error .headerKind
    else
      match checkSegment size plan.base p with
      | .error e => .error e
      | .ok _ =>
        if p.memsz = 0 then planSegments size entry rest plan executable
        else if plan.segments.any fun s => p.vaddr < s.address + s.memorySize && s.address < p.vaddr + p.memsz then
          .error .overlapping
        else
          planSegments size entry rest
            { plan with
              phdr := if coversTable plan.phoff plan.phnum p then p.vaddr + plan.phoff - p.offset else plan.phdr
              segments := plan.segments ++ [⟨p.offset, p.vaddr, p.filesz, p.memsz⟩] }
            (executable || (p.flags &&& 1 ≠ 0 && p.vaddr ≤ entry && entry - p.vaddr < p.filesz))

def programHeaders (data : List UInt8) : List ProgramHeader :=
  (List.range (half data 44)).map fun i => programHeader data (wordAt data 28 + i * 32)

def elfValidate (data : List UInt8) : Except ElfError ElfPlan :=
  match checkHeader data with
  | .error e => .error e
  | .ok legacy =>
    let base := if legacy then loadMin else lowest (programHeaders data) / 0x400000 * 0x400000
    if base ≠ loadMin ∧ (base < 0x2000000 ∨ 0xbfc00000 < base) then .error .window
    else
      match planSegments data.length (wordAt data 24) (programHeaders data)
        ⟨wordAt data 24, base, wordAt data 28, half data 44, 0, legacy, []⟩ false with
      | .error e => .error e
      | .ok (plan, executable) => if plan.segments = [] ∨ !executable then .error .entry else .ok plan

/-! ## A small program -/

/-- A program of one segment: two bytes of code behind the headers. -/
def tinyImage : List UInt8 :=
  [0x7f, 69, 76, 70, 1, 1, 1, 0, 0, 0, 0, 0, 0, 0, 0, 0] ++
  [2, 0, 3, 0, 1, 0, 0, 0, 0x54, 0, 0, 4, 52, 0, 0, 0, 0, 0, 0, 0, 0, 0, 0, 0, 52, 0, 32, 0, 1, 0, 0, 0, 0, 0, 0, 0] ++
  [1, 0, 0, 0, 0, 0, 0, 0, 0, 0, 0, 4, 0, 0, 0, 4, 86, 0, 0, 0, 86, 0, 0, 0, 5, 0, 0, 0, 1, 0, 0, 0] ++
  [0xcd, 0x80]

def tinyPlan : ElfPlan := ⟨0x4000054, 0x4000000, 52, 1, 0x4000034, false, [⟨0, 0x4000000, 86, 86⟩]⟩

theorem elfValidate_tinyImage : elfValidate tinyImage = .ok tinyPlan := by decide +kernel

end Barnix.Linux
