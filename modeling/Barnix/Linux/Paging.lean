import Barnix.Linux.Elf
import Mathlib.Logic.Function.Basic
/-!
# Page tables

The tables that `linux_memory.c` builds, and the two-level walk of the
processor over them. The kernel's own pages are for the supervisor alone; the
user's window leads into the arena.
-/

namespace Barnix.Linux

/-- The static arrays of `linux_memory.c`, of 1024 entries each. -/
inductive PageTable where
  | directory
  /-- `tables[i]` -/
  | identity (i : Fin 8)
  | user
  /-- `mmio_tables[i]` -/
  | device (i : Fin 32)
deriving DecidableEq

/-- The pages that the linker gives to the arrays. -/
structure Placement where
  page : PageTable → Nat
  apart : Function.Injective page

/-- Physical memory as pages of words, and the rest of the static data: `indices` are
the first `mmio_count` entries of `mmio_indices`. -/
structure Mmu where
  pages : Nat → Nat → Nat
  indices : List Nat
  memory : MemoryState

/-- An entry for a page. -/
def pageEntry (page flags : Nat) : Nat := page * 4096 ||| flags

namespace Mmu

variable (place : Placement)

/-- All entries of an array. -/
def fill (s : Mmu) (t : PageTable) (entries : Nat → Nat) : Mmu :=
  { s with pages := Function.update s.pages (place.page t) entries }

/-- One round of the loop of `linux_memory_map_mmio`, for a page that has its array. -/
def mapPage (s : Mmu) (slot page : Nat) : Mmu :=
  let t := PageTable.device (Fin.ofNat 32 slot)
  s.fill place t (Function.update (s.pages (place.page t)) (page % 1024) (pageEntry page 0x1b))

def mapPages : List Nat → Mmu → Int × Mmu
  | [], s => (0, s)
  | page :: rest, s =>
    match s.indices.idxOf? (page / 1024) with
    | some slot => mapPages rest (s.mapPage place slot page)
    | none =>
      if s.indices.length = 32 then (-1, s)
      else mapPages rest ({ s with indices := s.indices ++ [page / 1024] }.mapPage place s.indices.length page)

/-- `linux_memory_map_mmio` -/
def mapMmio (s : Mmu) (base size : Nat) : Int × Mmu :=
  if size = 0 ∨ base < 0x10000000 ∨ 0xffffffff - base < size - 1 then (-1, s)
  else mapPages place (List.range' (base / 4096) ((base + size - 1) / 4096 + 1 - base / 4096)) s

/-- `tables[i]` maps the first 32 MiB to themselves, without the null page. -/
def identityEntries (i j : Nat) : Nat :=
  let address := (i * 1024 + j) * 4096
  if address ≠ 0 then address ||| 3 else 0

/-- `user_table` -/
def userEntries (i : Nat) : Nat := (loadMin + i * 4096) ||| 7

/-- The directory, in the order of its writes. -/
def directoryEntries (base : Nat) (indices : List Nat) : Nat → Nat :=
  let kernel := fun i => if h : i < 8 then pageEntry (place.page (.identity ⟨i, h⟩)) 7 else 0
  let window := Function.update kernel (base / 0x400000) (pageEntry (place.page .user) 7)
  indices.zipIdx.foldl (fun entries d => Function.update entries d.1 (pageEntry (place.page (.device (Fin.ofNat 32 d.2))) 3)) window

/-- `linux_memory_enter` -/
def enter (s : Mmu) (base imageEnd : Nat) : Mmu :=
  let heap := (imageEnd + 4095) / 4096 * 4096 % 2 ^ 32
  let s := (List.finRange 8).foldl (fun s i => s.fill place (.identity i) (identityEntries i)) { s with memory := ⟨base, heap, heap⟩ }
  (s.fill place .user userEntries).fill place .directory (directoryEntries place base s.indices)

/-- `linux_memory_resume` -/
def resume (s : Mmu) (state : MemoryState) : Mmu :=
  let s := s.enter place state.base state.heapBase
  { s with memory := { s.memory with heapBreak := state.heapBreak } }

/-! ## The processor -/

/-- Present, and open to the user. -/
def userEntry (entry : Nat) : Bool := entry.testBit 0 && entry.testBit 2

/-- The physical address that a user's access to `address` reaches, if it is allowed. -/
def walk (s : Mmu) (address : Nat) : Option Nat :=
  let dir := s.pages (place.page .directory) (address / 0x400000)
  if userEntry dir then
    let entry := s.pages (dir / 4096) (address / 4096 % 1024)
    if userEntry entry then some (entry / 4096 * 4096 + address % 4096) else none
  else none

end Mmu

/-! ## Entries -/

theorem pageEntry_eq {flags : Nat} (h : flags < 4096) (page : Nat) : pageEntry page flags = page * 4096 + flags := by
  unfold pageEntry
  rw [Nat.mul_comm, show 4096 = 2 ^ 12 from rfl, Nat.two_pow_add_eq_or_of_lt h]

theorem pageEntry_page {flags : Nat} (h : flags < 4096) (page : Nat) : pageEntry page flags / 4096 = page := by
  rw [pageEntry_eq h]
  omega

theorem userEntry_pageEntry (page flags : Nat) : Mmu.userEntry (pageEntry page flags) = Mmu.userEntry flags := by
  unfold Mmu.userEntry pageEntry
  rw [Nat.testBit_or, Nat.testBit_or, show page * 4096 = 2 ^ 12 * page from Nat.mul_comm .., Nat.testBit_two_pow_mul,
    Nat.testBit_two_pow_mul]
  simp

namespace Mmu

variable (place : Placement)

theorem identityEntries_closed (i j : Nat) : userEntry (identityEntries i j) = false := by
  unfold identityEntries
  dsimp only
  split
  · exact (userEntry_pageEntry _ 3).trans (by decide)
  · decide

theorem userEntries_eq (i : Nat) : userEntries i = pageEntry (loadMin / 4096 + i) 7 := by
  unfold userEntries pageEntry loadMin
  congr 1
  omega

theorem fill_self (s : Mmu) (t : PageTable) (entries : Nat → Nat) : (s.fill place t entries).pages (place.page t) = entries :=
  Function.update_self ..

theorem fill_of_ne (s : Mmu) {t u : PageTable} (h : u ≠ t) (entries : Nat → Nat) :
    (s.fill place t entries).pages (place.page u) = s.pages (place.page u) :=
  Function.update_of_ne (place.apart.ne h) ..

/-- A device entry of the directory is closed; the others are those of the kernel and the window. -/
theorem directory_cases {base i : Nat} (indices : List Nat)
    (h : userEntry (directoryEntries place base indices i) = true) :
    (i = base / 0x400000 ∧ directoryEntries place base indices i = pageEntry (place.page .user) 7) ∨
      ∃ hi : i < 8, directoryEntries place base indices i = pageEntry (place.page (.identity ⟨i, hi⟩)) 7 := by
  unfold directoryEntries at h ⊢
  generalize hd : indices.zipIdx = devices at h ⊢
  clear hd
  -- the devices are written last, and their entries have no user bit
  induction devices using List.reverseRecOn with
  | nil =>
    rw [List.foldl_nil] at h ⊢
    by_cases hw : i = base / 0x400000
    · subst hw
      rw [Function.update_self]
      exact .inl ⟨rfl, rfl⟩
    · rw [Function.update_of_ne hw] at h ⊢
      by_cases hi : i < 8
      · exact .inr ⟨hi, by rw [dif_pos hi]⟩
      · rw [dif_neg hi] at h
        exact absurd h (by decide)
  | append_singleton devices d ih =>
    rw [List.foldl_append, List.foldl_cons, List.foldl_nil] at h ⊢
    by_cases hi : i = d.1
    · rw [hi, Function.update_self, userEntry_pageEntry] at h
      exact absurd h (by decide)
    · rw [Function.update_of_ne hi] at h ⊢
      exact ih h

theorem fill_identity (s : Mmu) (is : List (Fin 8)) {i : Fin 8} (hi : i ∈ is) :
    (is.foldl (fun s i => s.fill place (.identity i) (identityEntries i)) s).pages (place.page (.identity i)) = identityEntries i := by
  induction is using List.reverseRecOn generalizing i with
  | nil => cases hi
  | append_singleton is k ih =>
    rw [List.foldl_append, List.foldl_cons, List.foldl_nil]
    by_cases hk : i = k
    · subst hk
      exact fill_self ..
    · rw [fill_of_ne _ _ (fun h => hk (PageTable.identity.inj h))]
      exact ih (by simpa [hk] using hi)

/-- What the arrays hold after `linux_memory_enter`. -/
theorem enter_pages (s : Mmu) (base imageEnd : Nat) :
    (∃ indices, (s.enter place base imageEnd).pages (place.page .directory) = directoryEntries place base indices) ∧
    (s.enter place base imageEnd).pages (place.page .user) = userEntries ∧
    ∀ i, (s.enter place base imageEnd).pages (place.page (.identity i)) = identityEntries i := by
  unfold enter
  dsimp only
  refine ⟨⟨_, fill_self ..⟩, ?_, fun i => ?_⟩
  · rw [fill_of_ne place _ (show PageTable.user ≠ .directory by decide)]
    exact fill_self ..
  · rw [fill_of_ne place _ (show PageTable.identity i ≠ .directory from nofun),
      fill_of_ne place _ (show PageTable.identity i ≠ .user from nofun)]
    exact fill_identity place _ _ (List.mem_finRange i)

/-- What the user reaches lies in the window, and leads into the arena. -/
theorem walk_enter (s : Mmu) {base : Nat} (hbase : base % 0x400000 = 0) (imageEnd : Nat) {address physical : Nat}
    (h : (s.enter place base imageEnd).walk place address = some physical) :
    base ≤ address ∧ address < base + 0x400000 ∧ physical = loadMin + (address - base) := by
  obtain ⟨⟨indices, hdir⟩, huser, hkernel⟩ := enter_pages place s base imageEnd
  unfold walk at h
  dsimp only at h
  rw [hdir] at h
  split at h
  · rename_i hopen
    rcases directory_cases place indices hopen with ⟨hwindow, he⟩ | ⟨hi, he⟩
    · rw [he, pageEntry_page (by decide), huser, userEntries_eq, userEntry_pageEntry, pageEntry_page (by decide)] at h
      obtain rfl := Option.some.inj h
      refine ⟨by omega, by omega, ?_⟩
      unfold loadMin
      omega
    · -- the kernel's tables are open in the directory and closed below it
      rw [he, pageEntry_page (by decide), hkernel, identityEntries_closed] at h
      cases h
  · cases h

end Mmu

/-! ## Programs -/

theorem planSegments_base {size entry : Nat} {headers : List ProgramHeader} {plan plan' : ElfPlan} {executable executable' : Bool}
    (h : planSegments size entry headers plan executable = .ok (plan', executable')) : plan'.base = plan.base := by
  induction headers generalizing plan executable with
  | nil =>
    cases h
    rfl
  | cons p rest ih =>
    unfold planSegments at h
    split at h
    · cases h
    split at h
    · cases h
    split at h
    · split at h
      · exact ih h
      · cases h
    · cases hcheck : checkSegment size plan.base p with
      | error e =>
        rw [hcheck] at h
        cases h
      | ok _ =>
        rw [hcheck] at h
        dsimp only at h
        split at h
        · exact ih h
        split at h
        · cases h
        · exact (ih h).trans rfl

/-- The windows that `elf_validate` accepts. -/
theorem elfValidate_base {data : List UInt8} {plan : ElfPlan} (h : elfValidate data = .ok plan) :
    plan.base % 0x400000 = 0 ∧ (plan.base = loadMin ∨ 0x2000000 ≤ plan.base ∧ plan.base ≤ 0xbfc00000) := by
  unfold elfValidate at h
  cases hheader : checkHeader data with
  | error e =>
    rw [hheader] at h
    cases h
  | ok legacy =>
    rw [hheader] at h
    dsimp only at h
    generalize hb : (if legacy then loadMin else lowest (programHeaders data) / 0x400000 * 0x400000) = base at h
    have haligned : base % 0x400000 = 0 := by
      rw [← hb]
      cases legacy with
      | true =>
        rw [if_pos rfl]
        decide
      | false => exact Nat.mul_mod_left ..
    by_cases hwindow : base ≠ loadMin ∧ (base < 0x2000000 ∨ 0xbfc00000 < base)
    · rw [if_pos hwindow] at h
      cases h
    rw [if_neg hwindow] at h
    cases hplan : planSegments data.length (wordAt data 24) (programHeaders data)
        ⟨wordAt data 24, base, wordAt data 28, half data 44, 0, legacy, []⟩ false with
    | error e =>
      rw [hplan] at h
      cases h
    | ok planned =>
      obtain ⟨plan', executable⟩ := planned
      rw [hplan] at h
      have hsame := planSegments_base hplan
      dsimp only at h hsame
      split at h
      · cases h
      · cases h
        rw [hsame]
        exact ⟨haligned, by omega⟩

namespace Mmu

/-- The earlier calls of `linux_memory_map_mmio`, with any arguments. -/
def mapAll (place : Placement) (s : Mmu) (calls : List (UInt32 × UInt32)) : Mmu :=
  calls.foldl (fun s c => (s.mapMmio place c.1.toNat c.2.toNat).2) s

/-- Under the directory of `linux_memory_enter` or `linux_memory_resume`, a user reaches
nothing outside the program's window, and from it only the arena. -/
theorem user_confined (place : Placement) (s : Mmu) (calls : List (UInt32 × UInt32)) {image : List UInt8} {plan : ElfPlan}
    (hplan : elfValidate image = .ok plan) (imageEnd : Nat) (heapBase heapBreak : Nat) {address physical : Nat}
    (h : ((s.mapAll place calls).enter place plan.base imageEnd).walk place address = some physical ∨
      ((s.mapAll place calls).resume place ⟨plan.base, heapBase, heapBreak⟩).walk place address = some physical) :
    (plan.base ≤ address ∧ address < plan.base + 0x400000) ∧ loadMin ≤ physical ∧ physical < loadMin + arenaSize := by
  have hbase := (elfValidate_base hplan).1
  have hreach : plan.base ≤ address ∧ address < plan.base + 0x400000 ∧ physical = loadMin + (address - plan.base) := by
    rcases h with h | h
    · exact walk_enter place _ hbase imageEnd h
    · exact walk_enter place _ hbase heapBase h
  obtain ⟨h1, h2, rfl⟩ := hreach
  refine ⟨⟨h1, h2⟩, by omega, ?_⟩
  unfold arenaSize
  omega

/-- The arrays one after the other, from 2 MiB on. -/
def inOrder : Placement where
  page
    | .directory => 512
    | .identity i => 513 + i.val
    | .user => 521
    | .device i => 522 + i.val
  apart := by
    intro t u h
    cases t <;> cases u <;> simp only [PageTable.identity.injEq, PageTable.device.injEq, Fin.ext_iff] at h ⊢ <;> omega

/-- The first address of the small program, after a device was mapped. -/
theorem user_confined_first :
    let s : Mmu := ⟨fun _ _ => 0, [], ⟨0, 0, 0⟩⟩
    ((s.mapAll inOrder [(0xfebf0000, 4096)]).enter inOrder tinyPlan.base 0x4000056).walk inOrder 0x4000000 = some 0x1000000 ∧
      loadMin ≤ 0x1000000 ∧ 0x1000000 < loadMin + arenaSize := by
  intro s
  have h : ((s.mapAll inOrder [(0xfebf0000, 4096)]).enter inOrder tinyPlan.base 0x4000056).walk inOrder 0x4000000 =
      some 0x1000000 := by decide +kernel
  exact ⟨h, (user_confined inOrder s [(0xfebf0000, 4096)] elfValidate_tinyImage 0x4000056 0 0 (.inl h)).2⟩

end Mmu

end Barnix.Linux
