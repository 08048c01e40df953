import Barnix.Ext2.Import
/-!
# Where the import reads

The template may hold anything. All offsets that the import computes of it are checked before they are
used, but for the header of a record: it is read before its remaining space is known.
-/

namespace Barnix.Import

/-! ## Reads inside -/

/-- The pointer has `n` bytes behind it. -/
def Place.Inside : Place → Nat → Prop
  | .image off, n => off + n ≤ 2097152
  | .zero off, n => off + n ≤ 1024

theorem Place.Inside.add {p : Place} {n k m : Nat} (h : p.Inside n) (hk : k + m ≤ n) : (p.add k).Inside m := by
  cases p <;> simp only [Inside, Place.add] at h ⊢ <;> omega

/-- The code goes on, or gives up. -/
def Within {α : Type} (x : Checked α) : Prop := x ≠ .error .overrun

theorem within_ok {α : Type} (a : α) : Within (.ok a : Checked α) := fun h => nomatch h
theorem within_failed {α : Type} : Within (.error .failed : Checked α) := fun h => nomatch h

theorem within_orFail {α : Type} (o : Option α) : Within (orFail o) := by
  cases o
  · exact within_failed
  · exact within_ok _

theorem Within.bind {α β : Type} {x : Checked α} {f : α → Checked β} (hx : Within x) (hf : ∀ a, x = .ok a → Within (f a)) :
    Within (x >>= f) := by
  cases x with
  | error e => exact fun h => hx (congrArg Except.error (Except.error.inj h))
  | ok a => exact hf a rfl

theorem Within.bind' {α β : Type} {x : Checked α} {f : α → Checked β} (hx : Within x) (hf : ∀ a, Within (f a)) : Within (x >>= f) :=
  hx.bind fun a _ => hf a

theorem within_mapM {α β : Type} {f : α → Checked β} (l : List α) (hf : ∀ a ∈ l, Within (f a)) : Within (l.mapM f) := by
  induction l with
  | nil => exact within_ok _
  | cons a l ih =>
    rw [List.mapM_cons]
    refine (hf a (List.mem_cons_self ..)).bind' fun b => ?_
    exact (ih fun c hc => hf c (List.mem_cons_of_mem _ hc)).bind' fun _ => within_ok _

theorem within_foldlM {α σ : Type} {f : σ → α → Checked σ} (l : List α) (hf : ∀ s, ∀ a ∈ l, Within (f s a)) (s : σ) : Within (l.foldlM f s) := by
  induction l generalizing s with
  | nil => exact within_ok _
  | cons a l ih =>
    rw [List.foldlM_cons]
    exact (hf s a (List.mem_cons_self ..)).bind' fun s => ih (fun s b hb => hf s b (List.mem_cons_of_mem _ hb)) s

section Reads
variable {image : Image} {p : Place}

theorem byte_ok {n : Nat} (h : p.Inside n) (hn : 0 < n) : ∃ c, byte image p = .ok c := by
  cases p with
  | image off =>
    have hlt : off < 2097152 := Nat.lt_of_lt_of_le (Nat.lt_add_of_pos_right hn) h
    exact ⟨_, if_pos hlt⟩
  | zero off =>
    have hlt : off < 1024 := Nat.lt_of_lt_of_le (Nat.lt_add_of_pos_right hn) h
    exact ⟨_, if_pos hlt⟩

theorem get16_ok (h : p.Inside 2) : ∃ v, get16 image p = .ok v := by
  obtain ⟨a, ha⟩ := @byte_ok image p _ h (by decide)
  obtain ⟨b, hb⟩ := @byte_ok image (p.add 1) 1 (h.add (by decide)) (by decide)
  rw [get16, ha, ok_bind, hb]
  exact ⟨_, rfl⟩

theorem get32_ok (h : p.Inside 4) : ∃ v, get32 image p = .ok v := by
  obtain ⟨a, ha⟩ := @get16_ok image p (by cases p <;> simp only [Place.Inside] at h ⊢ <;> omega)
  obtain ⟨b, hb⟩ := @get16_ok image (p.add 2) (h.add (by decide))
  rw [get32, ha, ok_bind, hb]
  exact ⟨_, rfl⟩

theorem within_get16 (h : p.Inside 2) : Within (get16 image p) := by
  obtain ⟨v, hv⟩ := @get16_ok image p h
  exact hv ▸ within_ok v

theorem within_get32 (h : p.Inside 4) : Within (get32 image p) := by
  obtain ⟨v, hv⟩ := @get32_ok image p h
  exact hv ▸ within_ok v

theorem within_byte {n : Nat} (h : p.Inside n) (hn : 0 < n) : Within (byte image p) := by
  obtain ⟨c, hc⟩ := @byte_ok image p n h hn
  exact hc ▸ within_ok c

theorem within_bytes {n : Nat} (h : p.Inside n) : Within (bytes image p n) := by
  refine within_mapM _ fun i hi => within_byte (h.add (k := i) (m := 1) ?_) (by decide)
  exact List.mem_range.1 hi

theorem within_kind (h : p.Inside 128) : Within (kind image p) :=
  (within_get16 (by cases p <;> simp only [Place.Inside] at h ⊢ <;> omega)).bind' fun _ => within_ok _

end Reads

/-! ## Blocks and inodes -/

/-- A block of the image, or the one of zeros. -/
def IsBlock (p : Place) : Prop := p = .zero 0 ∨ ∃ b < 2048, p = .image (b * 1024)

theorem IsBlock.inside {p : Place} (h : IsBlock p) : p.Inside 1024 := by
  rcases h with rfl | ⟨b, hb, rfl⟩
  · exact Nat.le_refl _
  · simp only [Place.Inside]
    omega

theorem importBlock_isBlock {n : Nat} {p : Place} (h : importBlock n = some p) : IsBlock p := by
  unfold importBlock at h
  split_ifs at h with hzero hlarge
  · exact .inl (Option.some.inj h).symm
  · exact .inr ⟨n, Nat.lt_of_not_le hlarge, (Option.some.inj h).symm⟩

/-- Inodes have at least the 128 bytes that are read of them. -/
def Header.Wide (h : Header) : Prop := 128 ≤ h.inodeSize

theorem importInode_inside {h : Header} (hwide : h.Wide) {n : Nat} {node : Place} (hnode : importInode h n = some node) : node.Inside 128 := by
  unfold Header.Wide at hwide
  unfold importInode at hnode
  dsimp only at hnode
  split_ifs at hnode with _ hout
  rw [← Option.some.inj hnode]
  simp only [Place.Inside]
  omega

section Files
variable {image : Image} {h : Header} (hwide : h.Wide) {node : Place} (hnode : node.Inside 128)
include hnode

theorem within_importFileBlock (index : Nat) : Within (importFileBlock image node index) := by
  unfold importFileBlock
  split
  · exact (within_get32 (hnode.add (by omega))).bind' fun _ => within_ok _
  · split
    · exact within_ok _
    · rename_i hsmall hlarge
      refine (within_get32 (hnode.add (by decide))).bind' fun n => ?_
      cases hblock : importBlock n with
      | none => exact within_ok _
      | some indirect =>
        refine (within_get32 ((importBlock_isBlock hblock).inside.add ?_)).bind' fun _ => within_ok _
        omega

omit hnode in
theorem importFileBlock_isBlock {index : Nat} {p : Place} (hp : importFileBlock image node index = .ok (some p)) : IsBlock p := by
  unfold importFileBlock at hp
  split at hp
  · obtain ⟨n, -, hn⟩ := bind_eq_ok hp
    exact importBlock_isBlock (Except.ok.inj hn)
  · split at hp
    · exact nomatch hp
    · obtain ⟨n, -, hn⟩ := bind_eq_ok hp
      cases hblock : importBlock n with
      | none =>
        rw [hblock] at hn
        exact nomatch hn
      | some indirect =>
        rw [hblock] at hn
        obtain ⟨m, -, hm⟩ := bind_eq_ok hn
        exact importBlock_isBlock (Except.ok.inj hm)

theorem within_fileData (size : Nat) : Within (fileData image node size) := by
  refine within_foldlM _ (fun data i _ => ?_) []
  refine (within_importFileBlock hnode i).bind fun chunk hchunk => ?_
  cases chunk with
  | none => exact within_failed
  | some chunk =>
    have hinside : chunk.Inside (min 1024 (size - i * 1024)) := by
      have hblock := (importFileBlock_isBlock hchunk).inside
      cases chunk <;> simp only [Place.Inside] at hblock ⊢ <;> omega
    exact (within_bytes hinside).bind' fun _ => within_ok _

theorem within_importFile {σ : Type} (dest : Destination σ) (name : Name) (s : σ) : Within (importFile dest image name node s) := by
  refine (within_get32 (hnode.add (by decide))).bind' fun size => ?_
  split
  · exact within_failed
  · refine (within_fileData hnode size).bind' fun data => (within_orFail _).bind' fun s => ?_
    refine within_foldlM _ (fun s i _ => (within_orFail _).bind' fun got => ?_) s
    split
    · exact within_ok _
    · exact within_failed

end Files

/-! ## Records -/

section Records
variable {image : Image} {h : Header} {p : Place} {e : Entry}

theorem within_isDots (hp : p.Inside (8 + e.namesize)) : Within (isDots image p e.namesize) := by
  unfold isDots
  split
  · exact (within_byte (hp.add (k := 8) (m := 1) (by omega)) (by decide)).bind' fun _ => within_ok _
  · split
    · refine (within_byte (hp.add (k := 8) (m := 1) (by omega)) (by decide)).bind' fun c => ?_
      split
      · exact (within_byte (hp.add (k := 9) (m := 1) (by omega)) (by decide)).bind' fun _ => within_ok _
      · exact within_ok _
    · exact within_ok _

theorem within_classify (hwide : h.Wide) (hp : p.Inside (8 + e.namesize)) : Within (classify image h p e) := by
  unfold classify
  split
  · exact within_ok _
  · refine (within_isDots hp).bind' fun dots => ?_
    split
    · exact within_ok _
    · split
      · exact within_failed
      · refine (within_bytes (hp.add (Nat.le_refl _))).bind' fun raw => ?_
        dsimp only
        split
        · cases hchild : importInode h e.n with
          | none => exact within_failed
          | some child => exact (within_kind (importInode_inside hwide hchild)).bind' fun _ => within_ok _
        · exact within_failed

theorem classify_child (hwide : h.Wide) {name : Name} {child : Place} {k : Nat} (hfound : classify image h p e = .ok (some (name, child, k))) :
    child.Inside 128 := by
  unfold classify at hfound
  split at hfound
  · exact nomatch hfound
  · obtain ⟨dots, -, hfound⟩ := bind_eq_ok hfound
    split at hfound
    · exact nomatch hfound
    · split at hfound
      · exact nomatch hfound
      · obtain ⟨raw, -, hfound⟩ := bind_eq_ok hfound
        dsimp only at hfound
        split at hfound
        · cases hchild : importInode h e.n with
          | none =>
            rw [hchild] at hfound
            exact nomatch hfound
          | some node =>
            rw [hchild] at hfound
            obtain ⟨k', -, hk⟩ := bind_eq_ok hfound
            injection hk with hk
            injection hk with hk
            injection hk with _ hk
            injection hk with hk
            exact hk ▸ importInode_inside hwide hchild
        · exact nomatch hfound

end Records

/-! ## The one read outside -/

section Traversal
variable {σ : Type} (dest : Destination σ) (image : Image) (h : Header)

/-- The record is that of a directory, which the destination takes, and then is in `s'`. -/
def Enters (p : Place) (e : Entry) (s s' : σ) : Prop :=
  ∃ name child, classify image h p e = .ok (some (name, child, 0x4000)) ∧ enter dest name s = .ok s'

/-- The loop over the records of a block comes from `off` and `s` to `off'` and `s'`. -/
inductive Reaches (dive : Nat → σ → Checked σ) (data : Place) : Nat → σ → Nat → σ → Prop where
  | refl (off : Nat) (s : σ) : Reaches dive data off s off s
  | next {off off' : Nat} {s s' s'' : σ} {e : Entry} : off < 1024 → entryAt image (data.add off) = .ok e → e.Fits off →
      importEntry dest image h dive (data.add off) e s = .ok s' → Reaches dive data (off + e.length) s' off' s'' →
      Reaches dive data off s off' s''

variable {dest image h}

theorem within_enter (name : Name) (s : σ) : Within (enter dest name s) := (within_orFail _).bind' fun _ => within_orFail _

theorem error_bind {α β : Type} {e : Stop} (f : α → Checked β) : (Except.error e >>= f) = .error e := rfl

theorem bind_overrun {α β : Type} {x : Checked α} {f : α → Checked β} (hx : Within x) (hxf : (x >>= f) = .error .overrun) :
    ∃ a, x = .ok a ∧ f a = .error .overrun := by
  cases x with
  | error e => exact absurd (congrArg Except.error (Except.error.inj hxf)) hx
  | ok a => exact ⟨a, rfl, hxf⟩

theorem importEntry_overrun_iff (hwide : h.Wide) {dive : Nat → σ → Checked σ} {p : Place} {e : Entry} (hp : p.Inside (8 + e.namesize)) (s : σ) :
    importEntry dest image h dive p e s = .error .overrun ↔ ∃ s', Enters dest image h p e s s' ∧ dive e.n s' = .error .overrun := by
  constructor
  · intro hover
    obtain ⟨found, hfound, hover⟩ := bind_overrun (within_classify hwide hp) hover
    cases found with
    | none => exact nomatch hover
    | some found =>
      obtain ⟨name, child, k⟩ := found
      have hchild := classify_child hwide hfound
      have hmode : ∀ s : σ, Within (get16 image child >>= fun mode => orFail (dest.mode name mode s)) := fun s =>
        (within_get16 (by cases child <;> simp only [Place.Inside] at hchild ⊢ <;> omega)).bind' fun _ => within_orFail _
      by_cases hdir : k = 0x4000
      · subst hdir
        dsimp only at hover
        rw [if_pos rfl] at hover
        by_contra hnone
        refine absurd hover ?_
        refine (within_enter name s).bind fun s' hs' => Within.bind' (fun hdive => hnone ?_) fun s => (within_orFail _).bind' hmode
        exact ⟨s', ⟨name, child, hfound, hs'⟩, hdive⟩
      · dsimp only at hover
        rw [if_neg hdir] at hover
        refine absurd hover ?_
        split
        · exact (within_importFile hchild dest name s).bind' hmode
        · exact within_failed
  · rintro ⟨s', ⟨name, child, hfound, henter⟩, hdive⟩
    rw [importEntry, hfound, ok_bind]
    dsimp only
    rw [if_pos rfl, henter, ok_bind, hdive]
    rfl

/-- The header of a record is inside, but for the last four bytes of the last block. -/
theorem entryAt_overrun_iff {data : Place} (hdata : IsBlock data) {off : Nat} (hoff : off < 1024) (halign : off % 4 = 0)
    (hhole : data = .zero 0 → off = 0) :
    entryAt image (data.add off) = .error .overrun ↔ data = .image (2047 * 1024) ∧ off = 1020 := by
  constructor
  · intro hover
    by_contra hno
    have hinside : (data.add off).Inside 7 := by
      rcases hdata with rfl | ⟨b, hb, rfl⟩
      · rw [hhole rfl]
        exact Nat.le_add_left 7 1017
      · simp only [Place.add, Place.Inside]
        by_cases hlast : off = 1020
        · have hb' : b ≠ 2047 := fun hb' => hno ⟨by rw [hb'], hlast⟩
          omega
        · omega
    refine absurd hover ?_
    refine (within_get16 (hinside.add (k := 4) (m := 2) (by decide))).bind' fun _ => ?_
    refine (within_get32 (by cases data <;> simp only [Place.Inside, Place.add] at hinside ⊢ <;> omega)).bind' fun _ => ?_
    exact (within_byte (hinside.add (k := 6) (m := 1) (by decide)) (by decide)).bind' fun _ => within_ok _
  · rintro ⟨rfl, rfl⟩
    rfl

theorem exists_reaches_iff {dive : Nat → σ → Checked σ} {data : Place} {off : Nat} {s : σ} {P : Nat → σ → Prop} :
    (∃ off' s', Reaches dest image h dive data off s off' s' ∧ P off' s') ↔ P off s ∨ ∃ e s₁, off < 1024 ∧
      entryAt image (data.add off) = .ok e ∧ e.Fits off ∧ importEntry dest image h dive (data.add off) e s = .ok s₁ ∧
      ∃ off' s', Reaches dest image h dive data (off + e.length) s₁ off' s' ∧ P off' s' := by
  constructor
  · rintro ⟨off', s', hreach, hP⟩
    cases hreach with
    | refl => exact .inl hP
    | next hlt he hfits hentry hrest => exact .inr ⟨_, _, hlt, he, hfits, hentry, off', s', hrest, hP⟩
  · rintro (hP | ⟨e, s₁, hlt, he, hfits, hentry, off', s', hrest, hP⟩)
    · exact ⟨off, s, .refl off s, hP⟩
    · exact ⟨off', s', .next hlt he hfits hentry hrest, hP⟩

/-- Nothing fits in a hole. -/
theorem not_fits_zero {e : Entry} (he : entryAt image ((Place.zero 0).add 0) = .ok e) : ¬e.Fits 0 := by
  have hzero : entryAt image ((Place.zero 0).add 0) = .ok ⟨0, 0, 0⟩ := rfl
  rw [hzero] at he
  rw [← Except.ok.inj he]
  decide

/-- The import overruns here: at the header outside, or in a directory. -/
def Overruns (dest : Destination σ) (image : Image) (h : Header) (dive : Nat → σ → Checked σ) (data : Place) (off : Nat) (s : σ) : Prop :=
  off < 1024 ∧ ((data = .image (2047 * 1024) ∧ off = 1020) ∨ ∃ e s', entryAt image (data.add off) = .ok e ∧ e.Fits off ∧
    Enters dest image h (data.add off) e s s' ∧ dive e.n s' = .error .overrun)

theorem recordLoop_overrun_iff (hwide : h.Wide) {dive : Nat → σ → Checked σ} {data : Place} (hdata : IsBlock data) (off : Nat) (s : σ)
    (halign : off % 4 = 0) (hhole : data = .zero 0 → off = 0) : recordLoop dest image h dive data off s = .error .overrun ↔
      ∃ off' s', Reaches dest image h dive data off s off' s' ∧ Overruns dest image h dive data off' s' := by
  induction hn : 1024 - off using Nat.strongRecOn generalizing off s with
  | ind n ih =>
    rw [exists_reaches_iff, recordLoop]
    by_cases hoff : off < 1024
    · rw [if_pos hoff]
      have hheader := @entryAt_overrun_iff image data hdata off hoff halign hhole
      cases he : entryAt image (data.add off) with
      | error stop =>
        rw [he] at hheader
        dsimp only
        constructor
        · exact fun hover => .inl ⟨hoff, .inl (hheader.1 (congrArg Except.error (Except.error.inj hover)))⟩
        · rintro (⟨-, hlast | ⟨e, _, he', -⟩⟩ | ⟨e, _, -, he', -⟩)
          · exact congrArg Except.error (Except.error.inj (hheader.2 hlast))
          · cases he.symm.trans he'
          · cases he'
      | ok e =>
        have hnolast : ¬(data = .image (2047 * 1024) ∧ off = 1020) := by
          intro hlast
          cases he.symm.trans (hheader.2 hlast)
        by_cases hfits : e.Fits off
        · have hinside : (data.add off).Inside (8 + e.namesize) := by
            have hblock := hdata.inside
            obtain ⟨h8, -, hle, hname⟩ := hfits
            cases data <;> simp only [Place.Inside, Place.add] at hblock ⊢ <;> omega
          have hnohole : data ≠ .zero 0 := by
            rintro rfl
            obtain rfl := hhole rfl
            exact not_fits_zero he hfits
          dsimp only
          rw [dif_pos hfits]
          have hover := @importEntry_overrun_iff σ dest image h hwide dive _ e hinside s
          cases hentry : importEntry dest image h dive (data.add off) e s with
          | error stop =>
            rw [hentry] at hover
            dsimp only
            constructor
            · intro hstop
              obtain ⟨s', henters, hdive⟩ := hover.1 hstop
              exact .inl ⟨hoff, .inr ⟨e, s', he, hfits, henters, hdive⟩⟩
            · rintro (⟨-, hlast | ⟨e', s', he', -, henters, hdive⟩⟩ | ⟨e', _, -, he', -, hentry', -⟩)
              · exact absurd hlast hnolast
              · obtain rfl := Except.ok.inj (he.symm.trans he')
                exact hover.2 ⟨s', henters, hdive⟩
              · obtain rfl := Except.ok.inj he'
                cases hentry.symm.trans hentry'
          | ok s₁ =>
            have hlength := hfits.1
            have hfour := hfits.2.1
            have hrest := ih (1024 - (off + e.length)) (by omega) (off + e.length) s₁ (by omega) (fun hz => absurd hz hnohole) rfl
            dsimp only
            rw [hrest]
            constructor
            · rintro ⟨off', s', hreach, hbad⟩
              exact .inr ⟨e, s₁, hoff, rfl, hfits, hentry, off', s', hreach, hbad⟩
            · rintro (⟨-, hlast | ⟨e', s', he', -, henters, hdive⟩⟩ | ⟨e', s₂, -, he', -, hentry', hmore⟩)
              · exact absurd hlast hnolast
              · obtain rfl := Except.ok.inj (he.symm.trans he')
                cases hentry.symm.trans (hover.2 ⟨s', henters, hdive⟩)
              · obtain rfl := Except.ok.inj he'
                obtain rfl := Except.ok.inj (hentry.symm.trans hentry')
                exact hmore
        · dsimp only
          rw [dif_neg hfits]
          constructor
          · intro hover
            cases hover
          · rintro (⟨-, hlast | ⟨e', _, he', hfits', -⟩⟩ | ⟨e', _, -, he', hfits', -⟩)
            · exact absurd hlast hnolast
            · obtain rfl := Except.ok.inj (he.symm.trans he')
              exact absurd hfits' hfits
            · obtain rfl := Except.ok.inj he'
              exact absurd hfits' hfits
    · rw [if_neg hoff]
      constructor
      · intro hover
        cases hover
      · rintro (⟨hlt, -⟩ | ⟨e, _, hlt, -⟩)
        · exact absurd hlt hoff
        · exact absurd hlt hoff

/-- In the directory `ino` the import comes to the header that is outside, with the destination in `s` before it. -/
def Comes (dest : Destination σ) (image : Image) (h : Header) : Nat → Nat → σ → Prop
  | 0, _, _ => False
  | remaining + 1, ino, s => ∃ node size i s₁ data off s₂, importInode h ino = some node ∧ kind image node = .ok 0x4000 ∧
      get32 image (node.add 4) = .ok size ∧ size ≤ 12288 ∧ size % 1024 = 0 ∧ i < size / 1024 ∧
      -- the blocks before this one, and the records before this one in it, were imported
      (List.range i).foldlM (importBlockOf dest image h (importDirectory dest image h remaining) node) s = .ok s₁ ∧
      importFileBlock image node i = .ok (some data) ∧
      Reaches dest image h (importDirectory dest image h remaining) data 0 s₁ off s₂ ∧
      ((data = .image (2047 * 1024) ∧ off = 1020) ∨ ∃ e s₃, off < 1024 ∧ entryAt image (data.add off) = .ok e ∧ e.Fits off ∧
        Enters dest image h (data.add off) e s₂ s₃ ∧ Comes dest image h remaining e.n s₃)

/-- A loop that overruns does so in some round. -/
theorem foldlM_overrun_iff {f : σ → Nat → Checked σ} (n : Nat) (s : σ) : (List.range n).foldlM f s = .error .overrun ↔
    ∃ i < n, ∃ s₁, (List.range i).foldlM f s = .ok s₁ ∧ f s₁ i = .error .overrun := by
  induction n with
  | zero => exact ⟨fun h => (nomatch h), fun ⟨i, hi, _⟩ => absurd hi (Nat.not_lt_zero i)⟩
  | succ n ih =>
    have hlast : (List.range (n + 1)).foldlM f s = (List.range n).foldlM f s >>= fun s => f s n := by
      rw [List.range_succ, List.foldlM_append]
      congr 1
      funext s
      rw [List.foldlM_cons]
      cases f s n <;> rfl
    rw [hlast]
    constructor
    · intro hover
      cases hbefore : (List.range n).foldlM f s with
      | error stop =>
        rw [hbefore] at hover
        have hstop : (List.range n).foldlM f s = .error .overrun := by
          rw [hbefore]
          exact hover
        obtain ⟨i, hi, s₁, hs, hf⟩ := ih.1 hstop
        exact ⟨i, Nat.lt_succ_of_lt hi, s₁, hs, hf⟩
      | ok s₁ =>
        rw [hbefore] at hover
        exact ⟨n, Nat.lt_succ_self n, s₁, hbefore, hover⟩
    · rintro ⟨i, hi, s₁, hs, hf⟩
      rcases Nat.lt_succ_iff_lt_or_eq.1 hi with hlt | rfl
      · rw [ih.2 ⟨i, hlt, s₁, hs, hf⟩]
        rfl
      · rw [hs]
        exact hf

theorem importBlockOf_overrun_iff (hwide : h.Wide) {dive : Nat → σ → Checked σ} {node : Place} (hnode : node.Inside 128) (s : σ) (i : Nat) :
    importBlockOf dest image h dive node s i = .error .overrun ↔ ∃ data, importFileBlock image node i = .ok (some data) ∧
      ∃ off s', Reaches dest image h dive data 0 s off s' ∧ Overruns dest image h dive data off s' := by
  constructor
  · intro hover
    obtain ⟨data, hdata, hover⟩ := bind_overrun (within_importFileBlock hnode i) hover
    cases data with
    | none => exact nomatch hover
    | some data =>
      exact ⟨data, hdata, (recordLoop_overrun_iff hwide (importFileBlock_isBlock hdata) 0 s rfl fun _ => rfl).1 hover⟩
  · rintro ⟨data, hdata, hbad⟩
    rw [importBlockOf, hdata, ok_bind]
    exact (recordLoop_overrun_iff hwide (importFileBlock_isBlock hdata) 0 s rfl fun _ => rfl).2 hbad

theorem importDirectory_overrun_iff (hwide : h.Wide) (remaining : Nat) : ∀ (ino : Nat) (s : σ),
    importDirectory dest image h remaining ino s = .error .overrun ↔ Comes dest image h remaining ino s := by
  induction remaining with
  | zero =>
    intro ino s
    refine iff_of_false ?_ id
    rw [importDirectory]
    cases hnode : importInode h ino with
    | none => exact within_failed
    | some node =>
      refine (within_kind (importInode_inside hwide hnode)).bind' fun k => ?_
      split <;> exact within_failed
  | succ remaining ih =>
    intro ino s
    rw [importDirectory, Comes]
    constructor
    · intro hover
      cases hnode : importInode h ino with
      | none =>
        rw [hnode] at hover
        exact nomatch hover
      | some node =>
        have hinside := importInode_inside hwide hnode
        rw [hnode] at hover
        obtain ⟨k, hk, hover⟩ := bind_overrun (within_kind hinside) hover
        split at hover
        · exact nomatch hover
        rename_i hdir
        obtain ⟨size, hsize, hover⟩ := bind_overrun (within_get32 (hinside.add (by decide))) hover
        split at hover
        · exact nomatch hover
        rename_i hbad
        obtain ⟨i, hi, s₁, hs₁, hblock⟩ := (foldlM_overrun_iff _ s).1 hover
        obtain ⟨data, hdata, off, s₂, hreach, hlt, hhere⟩ := (importBlockOf_overrun_iff hwide hinside s₁ i).1 hblock
        refine ⟨node, size, i, s₁, data, off, s₂, rfl, not_not.1 hdir ▸ hk, hsize, by omega, by omega, hi, hs₁, hdata, hreach, ?_⟩
        refine hhere.imp_right fun ⟨e, s₃, he, hfits, henters, hdive⟩ => ⟨e, s₃, hlt, he, hfits, henters, (ih e.n s₃).1 hdive⟩
    · rintro ⟨node, size, i, s₁, data, off, s₂, hnode, hk, hsize, hmax, hwhole, hi, hs₁, hdata, hreach, hhere⟩
      have hinside := importInode_inside hwide hnode
      have hgood : ¬(12288 < size ∨ size % 1024 ≠ 0) := by omega
      rw [hnode]
      dsimp only
      rw [hk, ok_bind, if_neg (not_not.2 rfl), hsize, ok_bind, if_neg hgood]
      refine (foldlM_overrun_iff _ s).2 ⟨i, hi, s₁, hs₁, (importBlockOf_overrun_iff hwide hinside s₁ i).2 ⟨data, hdata, off, s₂, hreach, ?_⟩⟩
      rcases hhere with hlast | ⟨e, s₃, hlt, he, hfits, henters, hcomes⟩
      · exact ⟨by rw [hlast.2]; decide, .inl hlast⟩
      · exact ⟨hlt, .inr ⟨e, s₃, he, hfits, henters, (ih e.n s₃).2 hcomes⟩⟩

end Traversal

/-! ## The whole import -/

theorem within_importHeader (image : Image) : Within (importHeader image) := by
  have hsb : ∀ k n, k + n ≤ 1024 → ((Place.image 1024).add k).Inside n := by
    intro k n hk
    simp only [Place.add, Place.Inside]
    omega
  unfold importHeader
  refine (within_get16 (hsb 56 2 (by decide))).bind' fun magic => ?_
  split
  · exact within_failed
  refine (within_get32 (hsb 24 4 (by decide))).bind' fun _ => (within_get32 (hsb 4 4 (by decide))).bind' fun _ => ?_
  refine (within_get32 (hsb 32 4 (by decide))).bind' fun _ => (within_get32 (hsb 96 4 (by decide))).bind' fun _ => ?_
  split
  · exact within_failed
  refine (within_get32 (hsb 76 4 (by decide))).bind' fun revision => ?_
  have hrest : ∀ size : Nat, Within (get32 image (.image 1024) >>= fun inodes => get32 image (.image (2048 + 8)) >>= fun table =>
      if (size ≠ 128 ∧ size ≠ 256) ∨ 8192 < inodes ∨ inodes = 0 ∨ 2048 ≤ table ∨ importInode ⟨size, inodes, table⟩ inodes = none then
        Except.error Stop.failed
      else (.ok ⟨size, inodes, table⟩ : Checked Header)) := by
    intro size
    refine (within_get32 (hsb 0 4 (by decide))).bind' fun inodes => ?_
    refine (within_get32 (p := .image (2048 + 8)) (by simp only [Place.Inside]; omega)).bind' fun table => ?_
    split
    · exact within_failed
    · exact within_ok _
  split
  · exact (within_get16 (hsb 88 2 (by decide))).bind' hrest
  · exact hrest 128

theorem importHeader_wide {image : Image} {h : Header} (hok : importHeader image = .ok h) : h.Wide := by
  have hrest : ∀ size : Nat, (get32 image (.image 1024) >>= fun inodes => get32 image (.image (2048 + 8)) >>= fun table =>
      if (size ≠ 128 ∧ size ≠ 256) ∨ 8192 < inodes ∨ inodes = 0 ∨ 2048 ≤ table ∨ importInode ⟨size, inodes, table⟩ inodes = none then
        Except.error Stop.failed
      else (.ok ⟨size, inodes, table⟩ : Checked Header)) = .ok h → h.Wide := by
    intro size hok
    obtain ⟨inodes, -, hok⟩ := bind_eq_ok hok
    obtain ⟨table, -, hok⟩ := bind_eq_ok hok
    split at hok
    · exact nomatch hok
    · rename_i hgood
      rw [← Except.ok.inj hok]
      unfold Header.Wide
      dsimp only
      omega
  unfold importHeader at hok
  obtain ⟨magic, -, hok⟩ := bind_eq_ok hok
  split at hok
  · exact nomatch hok
  obtain ⟨_, -, hok⟩ := bind_eq_ok hok
  obtain ⟨_, -, hok⟩ := bind_eq_ok hok
  obtain ⟨_, -, hok⟩ := bind_eq_ok hok
  obtain ⟨_, -, hok⟩ := bind_eq_ok hok
  split at hok
  · exact nomatch hok
  obtain ⟨revision, -, hok⟩ := bind_eq_ok hok
  split at hok
  · obtain ⟨size, -, hok⟩ := bind_eq_ok hok
    exact hrest size hok
  · exact hrest 128 hok

/-- Every read of an import stays inside its block or the image, unless the import comes to the last four
bytes of block 2047 as to the header of a record. -/
theorem importTemplate_within_iff {σ : Type} (dest : Destination σ) (image : Image) (s : σ) :
    importTemplate dest image s ≠ .error .overrun ↔
      ∀ h s', importHeader image = .ok h → dest.init s = some s' → ¬Comes dest image h 17 2 s' := by
  constructor
  · intro hwithin h s' hheader hinit hcomes
    refine hwithin ?_
    rw [importTemplate, hheader, ok_bind, hinit]
    exact (importDirectory_overrun_iff (importHeader_wide hheader) 17 2 s').2 hcomes
  · intro hnever hover
    obtain ⟨h, hheader, hover⟩ := bind_overrun (within_importHeader image) hover
    obtain ⟨s', hinit, hover⟩ := bind_overrun (within_orFail _) hover
    cases hdest : dest.init s with
    | none =>
      rw [hdest] at hinit
      exact nomatch hinit
    | some s₁ =>
      rw [hdest] at hinit
      obtain rfl := Except.ok.inj hinit
      exact hnever h s₁ hheader hdest ((importDirectory_overrun_iff (importHeader_wide hheader) 17 2 s₁).1 hover)

/-- A destination that takes everything. -/
def accepting : Destination Unit where
  init := some
  mkdir _ := some
  cd _ := some
  write _ _ := some
  read _ _ _ _ := none
  mode _ _ := some

/-- A template of 16 inodes whose root has block 2047, with one unused record of 1020 bytes. -/
def spilled : Image := fun i =>
  if i.val = 1024 then 16 else if i.val = 1029 then 8 else if i.val = 1057 then 8
  else if i.val = 1080 then 0x53 else if i.val = 1081 then 0xef else if i.val = 2056 then 5
  else if i.val = 5249 then 0x40 else if i.val = 5253 then 4 else if i.val = 5288 then 0xff else if i.val = 5289 then 7
  else if i.val = 2096132 then 0xfc else if i.val = 2096133 then 3 else 0

theorem header_spilled : importHeader spilled = .ok ⟨128, 16, 5⟩ := by decide

theorem spilled_overruns : importTemplate accepting spilled () = .error .overrun := by
  have hwide : Header.Wide ⟨128, 16, 5⟩ := Nat.le_refl 128
  rw [importTemplate, header_spilled]
  change importDirectory accepting spilled ⟨128, 16, 5⟩ 17 2 () = .error .overrun
  refine (importDirectory_overrun_iff hwide 17 2 ()).2 ?_
  refine ⟨.image 5248, 1024, 0, (), .image (2047 * 1024), 1020, (), by decide, by decide, by decide, by decide, by decide, by decide,
    rfl, by decide, ?_, .inl ⟨rfl, rfl⟩⟩
  exact .next (e := ⟨1020, 0, 0⟩) (by decide) (by decide) (by decide) rfl (.refl 1020 ())

end Barnix.Import
