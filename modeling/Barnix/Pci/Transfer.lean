import Barnix.Lib.Arrays
/-!
# Sectors of 512 bytes

`transfer` of `storage_pci.c`. A device has native sectors of 512 to 4096 bytes; the rest of the
system reads and writes sectors of 512 bytes, which go through the buffer `bounce`. `native_io` moves
one native sector and is a parameter.
-/

namespace Barnix.Pci

/-- `unsigned int` -/
@[irreducible] def word : Nat := 4294967296

theorem word_eq : word = 4294967296 := by rw [word]

theorem word_pos : 0 < word := by
  rw [word_eq]
  omega

/-- What `transfer` reads of a device. The initialisers accept no other shift, and `sectors` is a
number of native sectors shifted. -/
structure Device where
  ready : Bool
  readonly : Bool
  sector_shift : Nat
  sectors : Nat
  shift_range : 9 ≤ sector_shift ∧ sector_shift ≤ 12
  whole : 1 <<< (sector_shift - 9) ∣ sectors

def Device.ratio (d : Device) : Nat := 1 <<< (d.sector_shift - 9)

/-- Bytes of a native sector. -/
def Device.size (d : Device) : Nat := 512 * d.ratio

/-- `native_io` with one sector and the buffer: whether it fails, and the buffer and the controller
after it. -/
abbrev NativeIo (σ : Type) := σ → Nat → Cells → Bool → Bool × Cells × σ

/-- The controller, `bounce` and the array `data` of the caller. -/
structure Memory (σ : Type) where
  controller : σ
  bounce : Cells
  data : Cells

variable {σ : Type}

/-- `native_io(d, native, bounce, 1, write)` -/
def nativeIo (io : NativeIo σ) (native : Nat) (write : Bool) (m : Memory σ) : Bool × Memory σ :=
  let (failed, bounce, controller) := io m.controller native m.bounce write
  (failed, { m with controller, bounce })

/-- The 512-byte sectors of the first round. -/
def count (d : Device) (lba sectors : Nat) : Nat := min (d.ratio - lba % d.ratio) sectors

/-- A round reads its native sector, unless it overwrites all of it. -/
def fetch (d : Device) (io : NativeIo σ) (write : Bool) (lba sectors : Nat) (m : Memory σ) : Bool × Memory σ :=
  if !write || lba % d.ratio != 0 || count d lba sectors != d.ratio then nativeIo io (lba / d.ratio) false m else (false, m)

/-- `while (sectors)`, with `bytes` as an index of the caller's array. -/
def transferLoop (d : Device) (io : NativeIo σ) (write : Bool) : Nat → Nat → Nat → Nat → Memory σ → Checked (Int × Memory σ)
  | 0, _, _, sectors, m => if sectors = 0 then .ok (0, m) else .error .unfinished
  | rounds + 1, bytes, lba, sectors, m =>
    if sectors = 0 then .ok (0, m)
    else
      let offset := lba % d.ratio
      let n := count d lba sectors
      let (failed, m) := fetch d io write lba sectors m
      if failed then .ok (-1, m)
      else if write then do
        let bounce ← m.bounce.memcpy (512 * offset) m.data bytes (512 * n)
        let (failed, m) := nativeIo io (lba / d.ratio) true { m with bounce }
        if failed then .ok (-1, m) else transferLoop d io write rounds (bytes + 512 * n) ((lba + n) % word) (sectors - n) m
      else do
        let data ← m.data.memcpy bytes m.bounce (512 * offset) (512 * n)
        transferLoop d io write rounds (bytes + 512 * n) ((lba + n) % word) (sectors - n) { m with data }

/-- `storage_pci_present` -/
def storagePciPresent (devices : List Device) (i : Int) : Bool :=
  0 ≤ i && i < devices.length && (devices[i.toNat]?.map (·.ready)).getD false

def transfer (devices : List Device) (io : NativeIo σ) (index : Int) (lba sectors : Nat) (write : Bool) (m : Memory σ) :
    Checked (Int × Memory σ) :=
  if !storagePciPresent devices index || sectors == 0 || 8 < sectors then .ok (-1, m)
  else
    match devices[index.toNat]? with
    | none => .error .overrun
    | some d =>
      if d.sectors < lba + sectors || write && d.readonly then .ok (-1, m)
      else transferLoop d io write sectors 0 lba sectors m

def storagePciRead (devices : List Device) (io : NativeIo σ) (i : Int) (lba sectors : Nat) (m : Memory σ) :
    Checked (Int × Memory σ) := transfer devices io i lba sectors false m

def storagePciWrite (devices : List Device) (io : NativeIo σ) (i : Int) (lba sectors : Nat) (m : Memory σ) :
    Checked (Int × Memory σ) := transfer devices io i lba sectors true m

/-! ## Whole native sectors -/

/-- A command of `native_io` that succeeds moves a whole native sector of the device; `byte` is what
the device holds. -/
structure Whole (d : Device) (io : NativeIo σ) (byte : σ → Nat → UInt8) : Prop where
  read : ∀ {s n buffer buffer' s'}, (n + 1) * d.ratio ≤ d.sectors → buffer.length = 4096 → io s n buffer false = (false, buffer', s') →
    buffer'.length = 4096 ∧ (∀ i < d.size, buffer'[i]? = some (byte s (n * d.size + i))) ∧ byte s' = byte s
  write : ∀ {s n buffer buffer' s'}, (n + 1) * d.ratio ≤ d.sectors → buffer.length = 4096 → io s n buffer true = (false, buffer', s') →
    buffer'.length = 4096 ∧ ∀ a, some (byte s' a) =
      if n * d.size ≤ a ∧ a < n * d.size + d.size then buffer[a - n * d.size]? else some (byte s a)

/-- The bytes of the sectors from `lba` on. -/
def Inside (lba sectors a : Nat) : Prop := 512 * lba ≤ a ∧ a < 512 * (lba + sectors)

instance (lba sectors a : Nat) : Decidable (Inside lba sectors a) := inferInstanceAs (Decidable (_ ∧ _))

/-- The calls for these sectors behave as an array of 512-byte sectors would. -/
structure Emulates (devices : List Device) (index : Int) (lba sectors : Nat) : Prop where
  written : ∀ {σ : Type} {d} {io : NativeIo σ} {byte}, devices[index.toNat]? = some d → Whole d io byte →
    lba + sectors ≤ d.sectors → ∀ {m : Memory σ}, m.bounce.length = 4096 → 512 * sectors ≤ m.data.length →
    ∃ r m', storagePciWrite devices io index lba sectors m = .ok (r, m') ∧ (r = 0 → ∀ a,
      some (byte m'.controller a) = if Inside lba sectors a then m.data[a - 512 * lba]? else some (byte m.controller a))
  read : ∀ {σ : Type} {d} {io : NativeIo σ} {byte}, devices[index.toNat]? = some d → Whole d io byte →
    lba + sectors ≤ d.sectors → ∀ {m : Memory σ}, m.bounce.length = 4096 → 512 * sectors ≤ m.data.length →
    ∃ r m', storagePciRead devices io index lba sectors m = .ok (r, m') ∧ (r = 0 → byte m'.controller = byte m.controller ∧
      ∀ k, m'.data[k]? = if k < 512 * sectors then some (byte m.controller (512 * lba + k)) else m.data[k]?)
  refused : ∀ {σ : Type} {d} {io : NativeIo σ}, devices[index.toNat]? = some d → d.sectors < lba + sectors → ∀ {m : Memory σ},
    storagePciRead devices io index lba sectors m = .ok (-1, m) ∧ storagePciWrite devices io index lba sectors m = .ok (-1, m)
  readonly : ∀ {σ : Type} {d} {io : NativeIo σ}, devices[index.toNat]? = some d → d.readonly = true → ∀ {m : Memory σ},
    storagePciWrite devices io index lba sectors m = .ok (-1, m)

/-! ## The native sector of a round -/

theorem ratio_cases (d : Device) : d.ratio = 1 ∨ d.ratio = 2 ∨ d.ratio = 4 ∨ d.ratio = 8 := by
  obtain ⟨hlow, hhigh⟩ := d.shift_range
  have hshift : d.sector_shift = 9 ∨ d.sector_shift = 10 ∨ d.sector_shift = 11 ∨ d.sector_shift = 12 := by omega
  rcases hshift with h | h | h | h <;> simp [Device.ratio, h]

theorem ratio_pos (d : Device) : 0 < d.ratio := by
  have := ratio_cases d
  omega

theorem size_le (d : Device) : d.size ≤ 4096 := by
  have := ratio_cases d
  unfold Device.size
  omega

/-- The first sector of the native sector. -/
theorem native_add_offset (d : Device) (lba : Nat) : lba / d.ratio * d.ratio + lba % d.ratio = lba := by
  rw [Nat.mul_comm]
  exact Nat.div_add_mod lba d.ratio

theorem native_mul_size (d : Device) (lba : Nat) : lba / d.ratio * d.size = 512 * (lba / d.ratio * d.ratio) := by
  rw [Device.size, Nat.mul_left_comm]

theorem native_inside {d : Device} {lba : Nat} (h : lba < d.sectors) : (lba / d.ratio + 1) * d.ratio ≤ d.sectors := by
  obtain ⟨k, hk⟩ := d.whole
  change d.sectors = d.ratio * k at hk
  have hlt : lba / d.ratio < k := Nat.div_lt_of_lt_mul (hk ▸ h)
  rw [hk, Nat.mul_comm]
  exact Nat.mul_le_mul_left _ hlt

/-- A native sector does not cross the end of the 32-bit numbers. -/
theorem native_below {d : Device} {lba : Nat} (h : lba < word) : lba / d.ratio * d.ratio + d.ratio ≤ word := by
  have hw := word_eq
  rcases ratio_cases d with hr | hr | hr | hr <;> rw [hr] <;> omega

theorem count_spec {d : Device} {lba sectors : Nat} (h : 0 < sectors) :
    0 < count d lba sectors ∧ count d lba sectors ≤ sectors ∧ lba % d.ratio + count d lba sectors ≤ d.ratio := by
  have hoffset := Nat.mod_lt lba (ratio_pos d)
  unfold count
  omega

section

variable {d : Device} {io : NativeIo σ} {byte : σ → Nat → UInt8}

/-- After `fetch`, the buffer holds what the round does not overwrite. -/
theorem fetch_ok (hw : Whole d io byte) {write : Bool} {lba sectors : Nat} {m m' : Memory σ} (hin : lba < d.sectors)
    (hb : m.bounce.length = 4096) (h : fetch d io write lba sectors m = (false, m')) :
    m'.data = m.data ∧ m'.bounce.length = 4096 ∧ byte m'.controller = byte m.controller ∧
      ∀ i < d.size, write = false ∨ i < 512 * (lba % d.ratio) ∨ 512 * (lba % d.ratio) + 512 * count d lba sectors ≤ i →
        m'.bounce[i]? = some (byte m.controller (lba / d.ratio * d.size + i)) := by
  unfold fetch at h
  split at h
  · unfold nativeIo at h
    obtain ⟨hfailed, rfl⟩ := Prod.mk.inj h
    obtain ⟨hlen, hread, hsame⟩ := hw.read (native_inside hin) hb (Prod.ext hfailed rfl)
    exact ⟨rfl, hlen, hsame, fun i hi _ => hread i hi⟩
  · rename_i hskip
    obtain ⟨-, rfl⟩ := Prod.mk.inj h
    refine ⟨rfl, hb, rfl, fun i hi hout => ?_⟩
    -- a round that fetches nothing overwrites its whole native sector
    simp only [Bool.or_eq_true, Bool.not_eq_true', bne_iff_ne, not_or, Bool.not_eq_false, Decidable.not_not] at hskip
    obtain ⟨⟨hwrite, hoffset⟩, hcount⟩ := hskip
    rw [hoffset, hcount] at hout
    unfold Device.size at hi
    rcases hout with hout | hout | hout
    · rw [hwrite] at hout
      cases hout
    · omega
    · omega

/-! ## Reading -/

/-- Where byte `k` of a read comes from: the sectors are counted in 32 bits. -/
def origin (lba k : Nat) : Nat := 512 * ((lba + k / 512) % word) + k % 512

theorem origin_add (lba n k : Nat) : origin ((lba + n) % word) k = origin lba (k + 512 * n) := by
  have hword := word_eq
  unfold origin
  rw [hword]
  omega

/-- A byte of the round's native sector. -/
theorem origin_piece {d : Device} {lba k n : Nat} (hlba : lba < word) (hk : k < 512 * n) (hn : lba % d.ratio + n ≤ d.ratio) :
    lba / d.ratio * d.size + (512 * (lba % d.ratio) + k) = origin lba k := by
  have hnative := native_add_offset d lba
  have hbelow := @native_below d lba hlba
  have hsector : (lba + k / 512) % word = lba + k / 512 := Nat.mod_eq_of_lt (by omega)
  rw [native_mul_size, origin, hsector]
  omega

/-- The reading loop ends, and a success has filled the caller's array from these places. -/
theorem readLoop_ok (hw : Whole d io byte) (rounds : Nat) : ∀ {bytes lba sectors : Nat} {m : Memory σ}, sectors ≤ rounds → lba < word →
    (∀ j < sectors, (lba + j) % word < d.sectors) → m.bounce.length = 4096 → bytes + 512 * sectors ≤ m.data.length →
    ∃ r m', transferLoop d io false rounds bytes lba sectors m = .ok (r, m') ∧ (r = 0 → byte m'.controller = byte m.controller ∧
      ∀ k, m'.data[k]? =
        if bytes ≤ k ∧ k < bytes + 512 * sectors then some (byte m.controller (origin lba (k - bytes))) else m.data[k]?) := by
  induction rounds with
  | zero =>
    intro bytes lba sectors m hrounds _ _ _ _
    obtain rfl := Nat.le_zero.1 hrounds
    refine ⟨0, m, rfl, fun _ => ⟨rfl, fun k => ?_⟩⟩
    rw [if_neg (by omega)]
  | succ rounds ih =>
    intro bytes lba sectors m hrounds hlba hin hb hdata
    unfold transferLoop
    by_cases hnone : sectors = 0
    · subst hnone
      refine ⟨0, m, rfl, fun _ => ⟨rfl, fun k => ?_⟩⟩
      rw [if_neg (by omega)]
    rw [if_neg hnone]
    obtain ⟨hpos, hle, hfits⟩ := @count_spec d lba sectors (by omega)
    have hnative := native_add_offset d lba
    have hbelow := @native_below d lba hlba
    have hsize : d.size = 512 * d.ratio := rfl
    have hbuffer := size_le d
    have hfirst : lba < d.sectors := by simpa [Nat.mod_eq_of_lt hlba] using hin 0 (by omega)
    cases hfetch : fetch d io false lba sectors m with
    | mk failed m₁ =>
      cases failed with
      | true => exact ⟨-1, m₁, rfl, fun h => absurd h (by decide)⟩
      | false =>
        obtain ⟨hdata₁, hb₁, hsame, hbounce⟩ := fetch_ok hw hfirst hb hfetch
        have hroom : bytes + 512 * count d lba sectors ≤ m₁.data.length := by
          rw [hdata₁]
          omega
        obtain ⟨data, hcopy, hlen, hget⟩ := @Cells.memcpy_getElem? m₁.bounce (512 * count d lba sectors) m₁.data bytes
          (512 * (lba % d.ratio)) hroom (by omega)
        obtain ⟨r, m', hrest, hdone⟩ := @ih (bytes + 512 * count d lba sectors) ((lba + count d lba sectors) % word)
          (sectors - count d lba sectors) { m₁ with data } (by omega) (Nat.mod_lt _ word_pos)
          (fun j hj => by
            have := hin (count d lba sectors + j) (by omega)
            rwa [Nat.mod_add_mod, Nat.add_assoc])
          hb₁ (by dsimp only; rw [hlen, hdata₁]; omega)
        refine ⟨r, m', by simpa [hcopy, ok_bind] using hrest, fun hr => ?_⟩
        obtain ⟨hkept, hfilled⟩ := hdone hr
        refine ⟨hkept.trans hsame, fun k => ?_⟩
        rw [hfilled, hsame, origin_add, hget, hdata₁]
        by_cases hlater : bytes + 512 * count d lba sectors ≤ k
        · rw [if_neg (show ¬ (bytes ≤ k ∧ k < bytes + 512 * count d lba sectors) by omega),
            show k - (bytes + 512 * count d lba sectors) + 512 * count d lba sectors = k - bytes by omega]
          congr 1
          simp only [eq_iff_iff]
          omega
        rw [if_neg (show ¬ (_ ∧ _) by omega)]
        by_cases hpiece : bytes ≤ k
        · rw [if_pos (show _ ∧ _ by omega), if_pos (show _ ∧ _ by omega), hbounce _ (by omega) (.inl rfl)]
          rw [origin_piece (n := count d lba sectors) hlba (by omega) hfits]
        · rw [if_neg (show ¬ (_ ∧ _) by omega), if_neg (show ¬ (_ ∧ _) by omega)]

/-! ## Writing -/

theorem not_inside {lba sectors a : Nat} (h : ¬ Inside lba sectors a) : a < 512 * lba ∨ 512 * (lba + sectors) ≤ a := by
  rcases Nat.lt_or_ge a (512 * lba) with hlow | hlow
  · exact .inl hlow
  · exact .inr (Nat.not_lt.1 fun hhigh => h ⟨hlow, hhigh⟩)

theorem not_inside_zero (lba a : Nat) : ¬ Inside lba 0 a := by
  rintro ⟨hlow, hhigh⟩
  omega

theorem store_ok (hw : Whole d io byte) {lba : Nat} {m m' : Memory σ} (hin : lba < d.sectors) (hb : m.bounce.length = 4096)
    (h : nativeIo io (lba / d.ratio) true m = (false, m')) :
    m'.data = m.data ∧ m'.bounce.length = 4096 ∧ ∀ a, some (byte m'.controller a) =
      if lba / d.ratio * d.size ≤ a ∧ a < lba / d.ratio * d.size + d.size then m.bounce[a - lba / d.ratio * d.size]?
      else some (byte m.controller a) := by
  unfold nativeIo at h
  obtain ⟨hfailed, rfl⟩ := Prod.mk.inj h
  obtain ⟨hlen, hwritten⟩ := hw.write (native_inside hin) hb (Prod.ext hfailed rfl)
  exact ⟨rfl, hlen, hwritten⟩

/-- What a round that succeeds has written: of the native sector from byte `start` on, the piece that
begins `offset` sectors behind `start`. -/
theorem piece_ok {start offset size lba n bytes a : Nat} {bounce bounce' data : Cells} {old new : Nat → UInt8}
    (hstart : start + 512 * offset = 512 * lba) (hfits : 512 * offset + 512 * n ≤ size)
    (hkeep : ∀ i < size, i < 512 * offset ∨ 512 * offset + 512 * n ≤ i → bounce[i]? = some (old (start + i)))
    (hcopy : ∀ k, bounce'[k]? = if 512 * offset ≤ k ∧ k < 512 * offset + 512 * n then data[bytes + (k - 512 * offset)]? else bounce[k]?)
    (hstore : some (new a) = if start ≤ a ∧ a < start + size then bounce'[a - start]? else some (old a)) :
    some (new a) = if Inside lba n a then data[bytes + (a - 512 * lba)]? else some (old a) := by
  rw [hstore]
  by_cases hin : Inside lba n a
  · rw [if_pos hin]
    obtain ⟨hlow, hhigh⟩ := hin
    rw [if_pos (by omega), hcopy, if_pos (by omega), show a - start - 512 * offset = a - 512 * lba by omega]
  · rw [if_neg hin]
    have hout := not_inside hin
    by_cases hsector : start ≤ a ∧ a < start + size
    · have hkept : ¬ (512 * offset ≤ a - start ∧ a - start < 512 * offset + 512 * n) := by
        rintro ⟨hlow, hhigh⟩
        omega
      rw [if_pos hsector, hcopy, if_neg hkept, hkeep (a - start) (by omega) (by omega), Nat.add_sub_cancel' hsector.1]
    · rw [if_neg hsector]

/-- The bytes of some sectors, and then of those behind them. -/
theorem pieces_ok {lba sectors n bytes a : Nat} {data : Cells} {old : UInt8} (hle : n ≤ sectors) :
    (if Inside (lba + n) (sectors - n) a then data[bytes + 512 * n + (a - 512 * (lba + n))]?
      else if Inside lba n a then data[bytes + (a - 512 * lba)]? else some old) =
    if Inside lba sectors a then data[bytes + (a - 512 * lba)]? else some old := by
  by_cases hlater : Inside (lba + n) (sectors - n) a
  · rw [if_pos hlater]
    obtain ⟨hlow, hhigh⟩ := hlater
    rw [if_pos (show Inside lba sectors a from ⟨by omega, by omega⟩),
      show bytes + 512 * n + (a - 512 * (lba + n)) = bytes + (a - 512 * lba) by omega]
  · rw [if_neg hlater]
    have hout := not_inside hlater
    congr 1
    simp only [Inside, eq_iff_iff]
    constructor
    · rintro ⟨hlow, hhigh⟩
      omega
    · rintro ⟨hlow, hhigh⟩
      omega

/-- The writing loop ends, and a success has changed the sectors it was called for, to what the
caller's array holds, and no other byte. -/
theorem writeLoop_ok (hw : Whole d io byte) (rounds : Nat) : ∀ {bytes lba sectors : Nat} {m : Memory σ}, sectors ≤ rounds →
    lba + sectors ≤ word → lba + sectors ≤ d.sectors → m.bounce.length = 4096 → bytes + 512 * sectors ≤ m.data.length →
    ∃ r m', transferLoop d io true rounds bytes lba sectors m = .ok (r, m') ∧ (r = 0 → ∀ a, some (byte m'.controller a) =
      if Inside lba sectors a then m.data[bytes + (a - 512 * lba)]? else some (byte m.controller a)) := by
  induction rounds with
  | zero =>
    intro bytes lba sectors m hrounds _ _ _ _
    obtain rfl := Nat.le_zero.1 hrounds
    refine ⟨0, m, rfl, fun _ a => ?_⟩
    rw [if_neg (not_inside_zero lba a)]
  | succ rounds ih =>
    intro bytes lba sectors m hrounds hword hin hb hdata
    unfold transferLoop
    by_cases hnone : sectors = 0
    · subst hnone
      refine ⟨0, m, rfl, fun _ a => ?_⟩
      rw [if_neg (not_inside_zero lba a)]
    rw [if_neg hnone]
    obtain ⟨hpos, hle, hfits⟩ := @count_spec d lba sectors (by omega)
    have hnative := native_add_offset d lba
    have hstart := native_mul_size d lba
    have hsize : d.size = 512 * d.ratio := rfl
    have hbuffer := size_le d
    cases hfetch : fetch d io true lba sectors m with
    | mk failed m₁ =>
      cases failed with
      | true => exact ⟨-1, m₁, rfl, fun h => absurd h (by decide)⟩
      | false =>
        obtain ⟨hdata₁, hb₁, hsame, hkeep⟩ := fetch_ok hw (by omega) hb hfetch
        have hsource : bytes + 512 * count d lba sectors ≤ m₁.data.length := by
          rw [hdata₁]
          omega
        obtain ⟨bounce, hcopy, hlen, hget⟩ := @Cells.memcpy_getElem? m₁.data (512 * count d lba sectors) m₁.bounce
          (512 * (lba % d.ratio)) bytes (by omega) hsource
        cases hstore : nativeIo io (lba / d.ratio) true { m₁ with bounce } with
        | mk failed m₂ =>
          cases failed with
          | true =>
            refine ⟨-1, m₂, ?_, fun h => absurd h (by decide)⟩
            simp only [Bool.false_eq_true, if_false, if_true, hcopy, ok_bind, hstore]
          | false =>
            obtain ⟨hdata₂, hb₂, hwritten⟩ := store_ok hw (by omega) (hlen.trans hb₁) hstore
            have hpiece := fun a => @piece_ok (lba / d.ratio * d.size) (lba % d.ratio) d.size lba _ _ a _ _ _ _ _ (by omega) (by omega)
              (fun i hi hout => hkeep i hi (.inr hout)) hget (hsame ▸ hwritten a)
            have hsource₂ : m₂.data = m.data := hdata₂.trans hdata₁
            have hmod := Nat.mod_le (lba + count d lba sectors) word
            obtain ⟨r, m', hrest, hdone⟩ := @ih (bytes + 512 * count d lba sectors) ((lba + count d lba sectors) % word)
              (sectors - count d lba sectors) m₂ (by omega) (by omega) (by omega) hb₂
              (by rw [hsource₂]; omega)
            refine ⟨r, m', ?_, fun hr a => ?_⟩
            · simp only [Bool.false_eq_true, if_false, if_true, hcopy, ok_bind, hstore]
              exact hrest
            rw [hdone hr, hpiece, hdata₁, hsource₂, ← pieces_ok hle]
            -- the number of the next sector wraps only behind the last one
            by_cases hlast : lba + count d lba sectors < word
            · rw [Nat.mod_eq_of_lt hlast]
            · have hzero : sectors - count d lba sectors = 0 := by omega
              rw [hzero, if_neg (not_inside_zero _ _), if_neg (not_inside_zero _ _)]

end

/-! ## The calls -/

theorem transfer_absent {devices : List Device} {index : Int} (h : storagePciPresent devices index = false) (io : NativeIo σ)
    (lba sectors : Nat) (write : Bool) (m : Memory σ) : transfer devices io index lba sectors write m = .ok (-1, m) := by
  simp [transfer, h]

theorem transfer_refused {devices : List Device} {index : Int} {d : Device} (hd : devices[index.toNat]? = some d) (io : NativeIo σ)
    {lba sectors : Nat} {write : Bool} (h : d.sectors < lba + sectors ∨ write = true ∧ d.readonly = true) (m : Memory σ) :
    transfer devices io index lba sectors write m = .ok (-1, m) := by
  unfold transfer
  split
  · rfl
  · rw [hd]
    exact if_pos (by simpa using h)

theorem transfer_loop {devices : List Device} {index : Int} {d : Device} (hpresent : storagePciPresent devices index = true)
    (hd : devices[index.toNat]? = some d) (io : NativeIo σ) {lba sectors : Nat} {write : Bool} (h0 : 0 < sectors) (h8 : sectors ≤ 8)
    (hin : lba + sectors ≤ d.sectors) (hwrite : write = false ∨ d.readonly = false) (m : Memory σ) :
    transfer devices io index lba sectors write m = transferLoop d io write sectors 0 lba sectors m := by
  have hguard : ¬ (!storagePciPresent devices index || sectors == 0 || decide (8 < sectors)) = true := by
    simp only [hpresent, Bool.not_true, Bool.false_or, Bool.or_eq_true, beq_iff_eq, decide_eq_true_eq]
    omega
  have hallowed : ¬ (decide (d.sectors < lba + sectors) || write && d.readonly) = true := by
    rcases hwrite with h | h <;> simp [h] <;> omega
  rw [transfer, if_neg hguard, hd]
  exact if_neg hallowed

/-- What the emulation needs: the sectors of a request to a device are counted without a carry. -/
def Counted (devices : List Device) (index : Int) (lba sectors : Nat) : Prop :=
  ∀ d, storagePciPresent devices index = true → devices[index.toNat]? = some d → lba + sectors ≤ d.sectors → lba + sectors ≤ word

theorem emulates {devices : List Device} {index : Int} {lba sectors : Nat} (hlba : lba < word) (h0 : 0 < sectors) (h8 : sectors ≤ 8)
    (h : Counted devices index lba sectors) : Emulates devices index lba sectors where
  written {σ d io byte} hd hw hin {m} hb hdata := by
    by_cases hrefused : storagePciPresent devices index = false ∨ d.readonly = true
    · refine ⟨-1, m, ?_, fun hr => absurd hr (by decide)⟩
      rcases hrefused with habsent | hreadonly
      · exact transfer_absent habsent io lba sectors true m
      · exact transfer_refused hd io (.inr ⟨rfl, hreadonly⟩) m
    · simp only [not_or, Bool.not_eq_false, Bool.not_eq_true] at hrefused
      obtain ⟨hpresent, hwritable⟩ := hrefused
      rw [storagePciWrite, transfer_loop hpresent hd io h0 h8 hin (.inr hwritable)]
      simpa using @writeLoop_ok _ d io byte hw sectors 0 lba sectors m (Nat.le_refl _) (h d hpresent hd hin) hin hb (by omega)
  read {σ d io byte} hd hw hin {m} hb hdata := by
    cases hpresent : storagePciPresent devices index with
    | false => exact ⟨-1, m, transfer_absent hpresent io lba sectors false m, fun hr => absurd hr (by decide)⟩
    | true =>
      have hcounted := h d hpresent hd hin
      rw [storagePciRead, transfer_loop hpresent hd io h0 h8 hin (.inl rfl)]
      obtain ⟨r, m', hrun, hdone⟩ := @readLoop_ok _ d io byte hw sectors 0 lba sectors m (Nat.le_refl _) hlba
        (fun j hj => by rw [Nat.mod_eq_of_lt (by omega)]; omega) hb (by omega)
      refine ⟨r, m', hrun, fun hr => ⟨(hdone hr).1, fun k => ?_⟩⟩
      rw [(hdone hr).2]
      by_cases hk : k < 512 * sectors
      · rw [if_pos (by omega), if_pos hk, origin, Nat.sub_zero, Nat.mod_eq_of_lt (by omega)]
        congr 2
        omega
      · rw [if_neg (by omega), if_neg hk]
  refused hd hpast := ⟨transfer_refused hd _ (.inl hpast) _, transfer_refused hd _ (.inl hpast) _⟩
  readonly hd hreadonly := transfer_refused hd _ (.inr ⟨rfl, hreadonly⟩) _

/-! ## A request over the last 32-bit number -/

/-- A controller whose commands never fail. -/
def perfect (d : Device) : NativeIo (Nat → UInt8) := fun content n buffer write =>
  if write then
    (false, buffer, fun a => if n * d.size ≤ a ∧ a < n * d.size + d.size then buffer.getD (a - n * d.size) 0 else content a)
  else (false, (List.range d.size).map (fun i => content (n * d.size + i)) ++ buffer.drop d.size, content)

theorem whole_perfect (d : Device) : Whole d (perfect d) id where
  read {s n buffer buffer' s'} _ hb h := by
    have hsize := size_le d
    obtain ⟨hbuffer, hcontent⟩ : _ ∧ _ := by simpa [perfect] using h
    refine ⟨?_, fun i hi => ?_, hcontent.symm⟩
    · rw [← hbuffer, List.length_append, List.length_map, List.length_range, List.length_drop]
      omega
    · rw [← hbuffer, List.getElem?_append_left (by simpa using hi)]
      simp [hi]
  write {s n buffer buffer' s'} _ hb h := by
    have hsize := size_le d
    obtain ⟨hbuffer, hcontent⟩ : _ ∧ _ := by simpa [perfect] using h
    refine ⟨hbuffer ▸ hb, fun a => ?_⟩
    rw [← hcontent]
    by_cases hin : n * d.size ≤ a ∧ a < n * d.size + d.size
    · rw [if_pos hin, List.getElem?_eq_getElem (by omega)]
      simp [hin, List.getD_eq_getElem?_getD, List.getElem?_eq_getElem (show a - n * d.size < buffer.length by omega)]
    · simp [hin]

theorem transferLoop_succeeds {d : Device} {io : NativeIo σ} (hio : ∀ s n buffer write, (io s n buffer write).1 = false) {write : Bool}
    (rounds : Nat) : ∀ {bytes lba sectors : Nat} {m m' : Memory σ} {r : Int},
    transferLoop d io write rounds bytes lba sectors m = .ok (r, m') → r = 0 := by
  have hnative (native : Nat) (w : Bool) (m : Memory σ) : (nativeIo io native w m).1 = false := hio _ _ _ _
  induction rounds with
  | zero =>
    intro bytes lba sectors m m' r h
    unfold transferLoop at h
    split at h
    · cases h
      rfl
    · cases h
  | succ rounds ih =>
    intro bytes lba sectors m m' r h
    have hfetch : (fetch d io write lba sectors m).1 = false := by
      unfold fetch
      split
      · exact hnative _ _ _
      · rfl
    unfold transferLoop at h
    split at h
    · cases h
      rfl
    dsimp only at h
    rw [hfetch, if_neg Bool.false_ne_true] at h
    cases write with
    | true =>
      obtain ⟨bounce, -, h⟩ := bind_eq_ok h
      rw [hnative, if_neg Bool.false_ne_true] at h
      exact ih h
    | false =>
      obtain ⟨data, -, h⟩ := bind_eq_ok h
      exact ih h

theorem counted {devices : List Device} {index : Int} {lba sectors : Nat} (hlba : lba < word) (h0 : 0 < sectors) (h8 : sectors ≤ 8)
    (h : Emulates devices index lba sectors) : Counted devices index lba sectors := by
  intro d hpresent hd hin
  apply Nat.not_lt.1
  intro hwrap
  -- Ones behind the first 2^32 sectors: the read finds the zeros of sector 0.
  let m : Memory (Nat → UInt8) :=
    ⟨fun a => if a < 512 * word then 0 else 1, List.replicate 4096 0, List.replicate (512 * sectors) 0⟩
  have hb : m.bounce.length = 4096 := List.length_replicate
  have hdata : 512 * sectors ≤ m.data.length := Nat.le_of_eq List.length_replicate.symm
  obtain ⟨r, m', hrun, hdone⟩ := h.read hd (whole_perfect d) hin hb hdata
  rw [storagePciRead, transfer_loop hpresent hd _ h0 h8 hin (.inl rfl)] at hrun
  obtain ⟨r₂, m₂, hloop, hread⟩ := @readLoop_ok _ d _ id (whole_perfect d) sectors 0 lba sectors m (Nat.le_refl _) hlba
    (fun j hj => Nat.lt_of_le_of_lt (Nat.mod_le _ _) (by omega)) hb (by omega)
  obtain ⟨rfl, rfl⟩ := Prod.mk.inj (Except.ok.inj (hrun.symm.trans hloop))
  have hzero := transferLoop_succeeds (by intro s n buffer write; cases write <;> rfl) sectors hrun
  have hexpected := (hdone hzero).2 (512 * (word - lba))
  have hactual := (hread hzero).2 (512 * (word - lba))
  rw [if_pos (by omega)] at hexpected hactual
  have horigin : origin lba (512 * (word - lba) - 0) = 0 := by
    unfold origin
    rw [Nat.sub_zero, Nat.mul_div_cancel_left _ (by omega), Nat.add_sub_cancel' (by omega), Nat.mod_self]
    omega
  rw [hexpected, horigin] at hactual
  have hword := word_pos
  simp only [id, m, Option.some_inj] at hactual
  rw [if_neg (by omega), if_pos (by omega)] at hactual
  exact absurd hactual (by decide)

/-- A request behaves as on an array of 512-byte sectors exactly when its sectors have 32-bit numbers:
past the last of them the loop goes on at sector 0. -/
theorem emulates_iff_counted {devices : List Device} {index : Int} {lba sectors : Nat} (hlba : lba < word) (h0 : 0 < sectors)
    (h8 : sectors ≤ 8) : Emulates devices index lba sectors ↔ Counted devices index lba sectors :=
  ⟨counted hlba h0 h8, emulates hlba h0 h8⟩

/-- A virtio disk of four sectors more than 32 bits number. -/
def large : Device := ⟨true, false, 9, 4294967300, by decide, by decide⟩

theorem emulates_iff_counted_large : Emulates [large] 0 4294967295 1 ↔ Counted [large] 0 4294967295 1 :=
  emulates_iff_counted (by rw [word_eq]; decide) (by decide) (by decide)

/-- Eight sectors over the 32-bit end. -/
theorem large_wraps : ¬ Emulates [large] 0 4294967292 8 := by
  intro h
  have hcounted := counted (by rw [word_eq]; decide) (by decide) (by decide) h large rfl rfl (by decide)
  rw [word_eq] at hcounted
  exact absurd hcounted (by decide)

end Barnix.Pci
