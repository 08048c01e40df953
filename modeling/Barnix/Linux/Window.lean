import Barnix.Linux.Paging
/-!
# The program's window

When the whole window of a program is usable. The directory entries of mapped devices are
written after the entry of the window, so a device in the same 4 MiB takes the window away.
-/

namespace Barnix.Linux

namespace Mmu

variable (place : Placement)

/-- All of these calls of `linux_memory_map_mmio` succeed, one after the other. -/
def Successful : Mmu → List (UInt32 × UInt32) → Prop
  | _, [] => True
  | s, c :: calls => (s.mapMmio place c.1.toNat c.2.toNat).1 = 0 ∧ Successful (s.mapMmio place c.1.toNat c.2.toNat).2 calls

/-- Every byte that `linux_user_range` accepts is the user's, at its place in the arena. -/
def WindowUsable (s : Mmu) (base : Nat) : Prop :=
  ∀ (arena : Arena) (address : Nat), (Memory.mk s.memory arena).userRange address 1 = true →
    s.walk place address = some (loadMin + (address - base))

/-- A device in the 4 MiB from `base` on. -/
def Meets (base : Nat) (call : UInt32 × UInt32) : Prop :=
  ∃ a, call.1.toNat ≤ a ∧ a < call.1.toNat + call.2.toNat ∧ base ≤ a ∧ a < base + 0x400000

/-! ## The directory entries in use -/

theorem mapPages_indices {pages : List Nat} {s s' : Mmu} (h : mapPages place pages s = (0, s')) (i : Nat) :
    i ∈ s'.indices ↔ i ∈ s.indices ∨ ∃ page ∈ pages, page / 1024 = i := by
  induction pages generalizing s with
  | nil =>
    obtain rfl := (Prod.mk.inj h).2
    simp
  | cons page pages ih =>
    rw [mapPages] at h
    cases hslot : s.indices.idxOf? (page / 1024) with
    | some slot =>
      rw [hslot] at h
      dsimp only at h
      have hmem : page / 1024 ∈ s.indices := by
        rw [← List.isSome_idxOf?, hslot]
        rfl
      rw [ih h, List.exists_mem_cons_iff]
      change i ∈ s.indices ∨ _ ↔ _
      constructor
      · rintro (hi | hi)
        · exact .inl hi
        · exact .inr (.inr hi)
      · rintro (hi | rfl | hi)
        · exact .inl hi
        · exact .inl hmem
        · exact .inr hi
    | none =>
      rw [hslot] at h
      dsimp only at h
      split at h
      · cases h
      · rw [ih h, List.exists_mem_cons_iff]
        change i ∈ s.indices ++ [page / 1024] ∨ _ ↔ _
        rw [List.mem_append, List.mem_singleton, or_assoc, eq_comm (a := i)]

/-- A successful call claims the directory entries of its region. -/
theorem mapMmio_indices {s : Mmu} {base size : Nat} (h : (s.mapMmio place base size).1 = 0) (i : Nat) :
    i ∈ (s.mapMmio place base size).2.indices ↔
      i ∈ s.indices ∨ ∃ a, base ≤ a ∧ a < base + size ∧ a / 0x400000 = i := by
  unfold mapMmio at h ⊢
  split at h
  · cases h
  rename_i hok
  rw [if_neg hok, mapPages_indices place (Prod.ext h rfl)]
  refine or_congr_right ?_
  constructor
  · rintro ⟨page, hpage, rfl⟩
    obtain ⟨hlow, hhigh⟩ := List.mem_range'_1.1 hpage
    refine ⟨max base (page * 4096), by omega, by omega, by omega⟩
  · rintro ⟨a, hlow, hhigh, rfl⟩
    refine ⟨a / 4096, List.mem_range'_1.2 ⟨by omega, by omega⟩, by omega⟩

theorem mapAll_indices {s : Mmu} {calls : List (UInt32 × UInt32)} (h : Successful place s calls) (i : Nat) :
    i ∈ (s.mapAll place calls).indices ↔ i ∈ s.indices ∨
      ∃ c ∈ calls, ∃ a, c.1.toNat ≤ a ∧ a < c.1.toNat + c.2.toNat ∧ a / 0x400000 = i := by
  induction calls generalizing s with
  | nil => simp [mapAll]
  | cons c calls ih =>
    rw [show s.mapAll place (c :: calls) = (s.mapMmio place c.1.toNat c.2.toNat).2.mapAll place calls from rfl, ih h.2,
      mapMmio_indices place h.1, List.exists_mem_cons_iff, or_assoc]

/-! ## The window's entry -/

/-- A device entry is closed to the user. -/
theorem directory_device {base i : Nat} {indices : List Nat} (h : i ∈ indices) :
    userEntry (directoryEntries place base indices i) = false := by
  unfold directoryEntries
  have hmem : ∃ d ∈ indices.zipIdx, d.1 = i := by
    obtain ⟨k, hk, rfl⟩ := List.mem_iff_getElem.1 h
    exact ⟨(indices[k], k), List.mem_zipIdx_iff_getElem?.2 (by simp [hk]), rfl⟩
  generalize indices.zipIdx = devices at hmem
  induction devices using List.reverseRec with
  | nil =>
    obtain ⟨d, hd, -⟩ := hmem
    cases hd
  | append_singleton devices d ih =>
    rw [List.foldl_append, List.foldl_cons, List.foldl_nil]
    by_cases hi : i = d.1
    · rw [hi, Function.update_self, userEntry_pageEntry]
      decide
    · rw [Function.update_of_ne hi]
      refine ih ?_
      obtain ⟨e, he, rfl⟩ := hmem
      rcases List.mem_append.1 he with he | he
      · exact ⟨e, he, rfl⟩
      · exact absurd (List.mem_singleton.1 he ▸ rfl) hi

/-- Without a device there, the window's entry leads to `user_table`. -/
theorem directory_window {base : Nat} {indices : List Nat} (h : base / 0x400000 ∉ indices) :
    directoryEntries place base indices (base / 0x400000) = pageEntry (place.page .user) 7 := by
  unfold directoryEntries
  have hmem : ∀ d ∈ indices.zipIdx, d.1 ≠ base / 0x400000 := fun d hd he => h (he ▸ (List.mem_zipIdx' hd).2 ▸ List.getElem_mem _)
  generalize indices.zipIdx = devices at hmem
  induction devices using List.reverseRec with
  | nil => exact Function.update_self ..
  | append_singleton devices d ih =>
    rw [List.foldl_append, List.foldl_cons, List.foldl_nil, Function.update_of_ne (Ne.symm (hmem d (by simp)))]
    exact ih fun e he => hmem e (by simp [he])

theorem enter_directory (s : Mmu) (base imageEnd : Nat) :
    (s.enter place base imageEnd).pages (place.page .directory) = directoryEntries place base s.indices := by
  have hkeep : ∀ (is : List (Fin 8)) (s : Mmu),
      (is.foldl (fun s i => s.fill place (.identity i) (identityEntries i)) s).indices = s.indices := by
    intro is
    induction is with
    | nil => exact fun s => rfl
    | cons i is ih => exact fun s => ih _
  unfold enter
  dsimp only
  rw [fill_self]
  exact congrArg (directoryEntries place base) (hkeep _ _)

theorem enter_memory (s : Mmu) (base imageEnd : Nat) : (s.enter place base imageEnd).memory.base = base := by
  have hkeep : ∀ (is : List (Fin 8)) (s : Mmu),
      (is.foldl (fun s i => s.fill place (.identity i) (identityEntries i)) s).memory = s.memory := by
    intro is
    induction is with
    | nil => exact fun s => rfl
    | cons i is ih => exact fun s => ih _
  exact congrArg MemoryState.base (hkeep _ _)

/-- The walk at an address of the window. -/
theorem walk_window (s : Mmu) {base : Nat} (hbase : base % 0x400000 = 0) (imageEnd : Nat) {address : Nat}
    (hlow : base ≤ address) (hhigh : address < base + 0x400000) :
    (s.enter place base imageEnd).walk place address =
      if base / 0x400000 ∈ s.indices then none else some (loadMin + (address - base)) := by
  obtain ⟨-, huser, -⟩ := enter_pages place s base imageEnd
  have hindex : address / 0x400000 = base / 0x400000 := by omega
  unfold walk
  dsimp only
  rw [enter_directory, hindex]
  by_cases h : base / 0x400000 ∈ s.indices
  · rw [directory_device place h, if_pos h]
    rfl
  · rw [directory_window place h, if_neg h, userEntry_pageEntry, pageEntry_page (by decide), huser, userEntries_eq,
      userEntry_pageEntry, pageEntry_page (by decide), if_pos (by decide), if_pos (by decide)]
    congr 1
    unfold loadMin
    omega

/-- After any successful calls since the start of the kernel, the window of a program that
`elf_validate` accepts is usable exactly when no mapped device lies in its 4 MiB. -/
theorem window_usable_iff {s : Mmu} (hboot : s.indices = []) {calls : List (UInt32 × UInt32)} (hcalls : Successful place s calls)
    {image : List UInt8} {plan : ElfPlan} (hplan : elfValidate image = .ok plan) (imageEnd : Nat) :
    ((s.mapAll place calls).enter place plan.base imageEnd).WindowUsable place plan.base ↔
      ∀ c ∈ calls, ¬ Meets plan.base c := by
  have hbase := (elfValidate_base hplan).1
  have hrange : ∀ (arena : Arena) (address : Nat),
      (Memory.mk ((s.mapAll place calls).enter place plan.base imageEnd).memory arena).userRange address 1 = true ↔
        plan.base ≤ address ∧ address < plan.base + 0x400000 := by
    intro arena address
    unfold Memory.userRange Memory.top arenaSize
    dsimp only
    rw [enter_memory]
    simp only [Bool.and_eq_true, decide_eq_true_eq]
    omega
  have hmeets : plan.base / 0x400000 ∈ (s.mapAll place calls).indices ↔ ∃ c ∈ calls, Meets plan.base c := by
    rw [mapAll_indices place hcalls, hboot]
    simp only [List.not_mem_nil, false_or]
    constructor
    · rintro ⟨c, hc, a, hlow, hhigh, ha⟩
      exact ⟨c, hc, a, hlow, hhigh, by omega, by omega⟩
    · rintro ⟨c, hc, a, hlow, hhigh, ha⟩
      exact ⟨c, hc, a, hlow, hhigh, by omega⟩
  constructor
  · intro h c hc hm
    have hwalk := h (fun _ => 0) plan.base ((hrange _ _).2 (by omega))
    rw [walk_window place _ hbase imageEnd (Nat.le_refl _) (by omega), if_pos (hmeets.2 ⟨c, hc, hm⟩)] at hwalk
    cases hwalk
  · intro h arena address ha
    obtain ⟨hlow, hhigh⟩ := (hrange arena address).1 ha
    rw [walk_window place _ hbase imageEnd hlow hhigh, if_neg]
    rw [hmeets]
    rintro ⟨c, hc, hm⟩
    exact h c hc hm

/-- The small program, behind a device at 4 GiB less 20 MiB. -/
theorem window_usable_tiny :
    let s : Mmu := ⟨fun _ _ => 0, [], ⟨0, 0, 0⟩⟩
    ((s.mapAll inOrder [(0xfebf0000, 4096)]).enter inOrder tinyPlan.base 0x4000056).WindowUsable inOrder tinyPlan.base ↔
      ∀ c ∈ [((0xfebf0000, 4096) : UInt32 × UInt32)], ¬ Meets tinyPlan.base c :=
  window_usable_iff inOrder (s := ⟨fun _ _ => 0, [], ⟨0, 0, 0⟩⟩) rfl
    (show Successful inOrder _ [(0xfebf0000, 4096)] from ⟨by decide +kernel, trivial⟩) elfValidate_tinyImage 0x4000056

/-- The small program, linked at 2 GiB. -/
def highImage : List UInt8 :=
  [0x7f, 69, 76, 70, 1, 1, 1, 0, 0, 0, 0, 0, 0, 0, 0, 0] ++
  [2, 0, 3, 0, 1, 0, 0, 0, 0x54, 0, 0, 0x80, 52, 0, 0, 0, 0, 0, 0, 0, 0, 0, 0, 0, 52, 0, 32, 0, 1, 0, 0, 0, 0, 0, 0, 0] ++
  [1, 0, 0, 0, 0, 0, 0, 0, 0, 0, 0, 0x80, 0, 0, 0, 0x80, 86, 0, 0, 0, 86, 0, 0, 0, 5, 0, 0, 0, 1, 0, 0, 0] ++
  [0xcd, 0x80]

/-- Under a device at 2 GiB, it cannot be reached. -/
theorem high_window_lost :
    let s : Mmu := ⟨fun _ _ => 0, [], ⟨0, 0, 0⟩⟩
    let entered := (s.mapAll inOrder [(0x80000000, 4096)]).enter inOrder 0x80000000 0x80000056
    (∃ plan, elfValidate highImage = .ok plan ∧ plan.base = 0x80000000) ∧ Successful inOrder s [(0x80000000, 4096)] ∧
      (Memory.mk entered.memory fun _ => 0).userRange 0x80000000 1 = true ∧ entered.walk inOrder 0x80000000 = none := by
  intro s entered
  refine ⟨?_, ⟨by decide +kernel, trivial⟩, by decide +kernel, by decide +kernel⟩
  refine ⟨⟨0x80000054, 0x80000000, 52, 1, 0x80000034, false, [⟨0, 0x80000000, 86, 86⟩]⟩, by decide +kernel, rfl⟩

end Mmu

end Barnix.Linux
