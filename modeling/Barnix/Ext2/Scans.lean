import Barnix.Ext2.Content
/-!
# Scans and lookups within the volume

What the engine asks for while it walks over directory records and resolves a path: the
blocks of directories it has checked, and no other data.
-/

namespace Barnix.Ext2

section
variable (v : View) (b off : Nat)

@[simp] theorem careful_record (remaining : Nat) (Q : Bool → View → Prop) :
    (record ⟨some b, off⟩ remaining).wp careful Q v = Q (v.vol.record (v.mem b) off remaining) v := by
  unfold record Volume.record
  rw [careful_ite]
  split
  · rfl
  · simp [Buf.get_window]

@[simp] theorem careful_nameLength (Q : Nat → View → Prop) :
    (nameLength ⟨some b, off⟩).wp careful Q v = Q ((v.mem b).get (off + 6)).toNat v := by
  unfold nameLength
  simp [Buf.get_window]

@[simp] theorem careful_nameBytes (len : Nat) (Q : Name → View → Prop) :
    (nameBytes ⟨some b, off⟩ len).wp careful Q v = Q ((v.mem b).read (off + 8) len) v := by
  unfold nameBytes
  simp [Buf.read_window]

@[simp] theorem careful_nameEqual (name : Name) (Q : Bool → View → Prop) :
    (nameEqual ⟨some b, off⟩ name).wp careful Q v =
      Q (decide ((v.mem b).read (off + 8) ((v.mem b).get (off + 6)).toNat = name)) v := by
  unfold nameEqual
  simp only [Client.wp_bind, careful_nameLength, careful_ite, Client.wp_pure, careful_nameBytes]
  split
  · rename_i h
    rw [decide_eq_false]
    rintro rfl
    exact h (by simp [Buf.read])
  · rw [beq_eq_decide]

end

/-! ## Scans -/

section
variable {α : Type} {v : View} {bad : α} {visit : Ptr → Prog (Option α)} {Q : Option α → View → Prop}

/-- A scan visits valid records, one after another while a visit gives nothing. -/
theorem careful_scanBlock {n : Nat}
    (hvisit : ∀ off, off % 4 = 0 → v.vol.record (v.mem n) off (blockSize - off) = true →
      (visit ⟨some n, off⟩).wp careful (fun r u => r.elim (u = v) fun a => Q (some a) u) v)
    (hbad : Q (some bad) v) (hnone : Q none v) (rounds : Nat) {off : Nat} (hoff : off % 4 = 0) :
    (scanBlock ⟨some n, 0⟩ bad visit rounds off).wp careful Q v := by
  induction rounds generalizing off with
  | zero => exact hnone
  | succ rounds ih =>
    unfold scanBlock
    rw [careful_ite]
    split
    · exact hnone
    simp only [Client.wp_bind, Ptr.add_mk, Nat.zero_add, careful_record, careful_ite, Client.wp_pure, Bool.not_eq_true']
    split
    · exact hbad
    rename_i hrecord
    have hvalid : v.vol.record (v.mem n) off (blockSize - off) = true := by simpa using hrecord
    refine Client.wp_mono careful_mono (fun r u hr => ?_) (hvisit off hoff hvalid)
    cases r with
    | some a => exact hr
    | none =>
      obtain rfl : u = v := hr
      have hlen := (Volume.record_iff.1 hvalid).2.2.1
      simp only [Client.wp_bind, careful_rd16]
      exact ih (by omega)

theorem careful_scanBlocks {b off : Nat} {is : List Nat} (hblocks : ∀ i ∈ is, v.vol.Owned ((v.mem b).get32 (off + (40 + i * 4))))
    (hvisit : ∀ i ∈ is, ∀ at', at' % 4 = 0 → v.vol.record (v.mem ((v.mem b).get32 (off + (40 + i * 4)))) at' (blockSize - at') = true →
      (visit ⟨some ((v.mem b).get32 (off + (40 + i * 4))), at'⟩).wp careful (fun r u => r.elim (u = v) fun a => Q (some a) u) v)
    (hbad : Q (some bad) v) (hnone : Q none v) : (scanBlocks ⟨some b, off⟩ bad visit is).wp careful Q v := by
  induction is with
  | nil => exact hnone
  | cons i is ih =>
    have hrest := ih (fun j hj => hblocks j (List.mem_cons_of_mem _ hj)) fun j hj => hvisit j (List.mem_cons_of_mem _ hj)
    unfold scanBlocks
    simp only [Client.wp_bind, careful_rd32, careful_block]
    refine ⟨hblocks i List.mem_cons_self, ?_⟩
    apply careful_scanBlock
    · intro at' halign hrecord
      refine Client.wp_mono careful_mono (fun r u hr => ?_) (hvisit i List.mem_cons_self at' halign hrecord)
      cases r with
      | some a => exact hr
      | none => exact hr
    · exact hbad
    · exact hrest
    · rfl

end

/-! ## Directories -/

namespace View

variable {v : View} {b off : Nat}

/-- A directory that passed the check has at most 12 blocks, all of them in use. -/
theorem Sound.dirBlocks (h : v.Sound b off dirMode) {i : Nat} (hi : i < (v.mem b).get32 (off + 4) / blockSize) :
    i < 12 ∧ v.used ((v.mem b).get32 (off + (40 + i * 4))) = true := by
  have hsize : (v.mem b).get32 (off + 4) ≤ 12 * blockSize := by
    by_contra hbig
    exact h.evenDir ⟨rfl, .inr (.inl (Nat.lt_of_not_le hbig))⟩
  have hi12 : i < 12 := by
    unfold blockSize at hi hsize
    omega
  have hptr : v.pointer b off i = (v.mem b).get32 (off + (40 + i * 4)) := by
    unfold pointer
    rw [if_pos hi12]
  refine ⟨hi12, ?_⟩
  rw [← hptr]
  exact h.used i hi12 (h.whole rfl i hi)

/-- It has no indirect block, so it holds what it holds among all the pointers a file could have. -/
theorem Sound.holdsAll {type : Nat} (h : v.Sound b off type) (htype : type = fileMode ∨ type = dirMode) : v.Holds b off maxPointers := by
  rcases htype with rfl | rfl
  · exact h.toHolds
  have hzero : v.indirect b off = 0 := by
    by_contra hne
    exact h.evenDir ⟨rfl, .inr (.inr (.inr hne))⟩
  have hbehind : ∀ i, ¬i < 12 → v.pointer b off i = 0 := by
    intro i hi
    unfold pointer
    rw [if_neg hi, if_pos hzero]
  have hlow : ∀ i, v.pointer b off i ≠ 0 → i < blockLimit dirMode := by
    intro i hne
    by_contra hi
    exact hne (hbehind i hi)
  have hheld : v.held b off maxPointers = v.held b off (blockLimit dirMode) := by
    ext i
    unfold held
    rw [Finset.mem_filter, Finset.mem_filter, Finset.mem_range, Finset.mem_range]
    constructor
    · exact fun hi => ⟨hlow i hi.2, hi.2⟩
    · exact fun hi => ⟨Nat.lt_of_lt_of_le hi.1 (by decide), hi.2⟩
  refine ⟨⟨h.indirect, fun i _ hne => h.used i (hlow i hne) hne, fun i _ hne => h.apart i (hlow i hne) hne,
    fun i _ j _ hne heq => h.inj i (hlow i hne) j (hlow j (heq ▸ hne)) hne heq⟩, ?_⟩
  unfold Counted
  rw [hheld]
  exact h.count

/-- The place of an inode in use. -/
theorem inTable {n : Nat} (h : v.vol.Laid) (hn : v.inUse n = true) : v.InTable (v.nodeBlock n) (v.nodeOff n) := by
  obtain ⟨htable, hend⟩ := place_of_inUse h hn
  have hsize := h.inodeSize
  exact ⟨h, htable, by omega⟩

/-- A block of directory `dir`. -/
def DirBlock (v : View) (dir m : Nat) : Prop := ∃ i < v.word dir 4 / blockSize, m = v.word dir (40 + i * 4)

end View

open View

section
variable {v : View}

theorem careful_scanDir {α : Type} {bad : α} {visit : Ptr → Prog (Option α)} {Q : Option α → View → Prop} {n : Nat}
    (hn : v.Sound (v.nodeBlock n) (v.nodeOff n) dirMode)
    (hvisit : ∀ m, v.DirBlock n m → ∀ at', at' % 4 = 0 → v.vol.record (v.mem m) at' (blockSize - at') = true →
      (visit ⟨some m, at'⟩).wp careful (fun r u => r.elim (u = v) fun a => Q (some a) u) v)
    (hbad : Q (some bad) v) (hnone : Q none v) : (scanDir (v.node n) bad visit).wp careful Q v := by
  unfold scanDir View.node
  rw [Client.wp_bind, careful_rd32]
  refine careful_scanBlocks (fun i hi => ?_) (fun i hi at' => ?_) hbad hnone
  · exact owned_of_used (hn.dirBlocks (List.mem_range.1 hi)).2
  · exact hvisit _ ⟨i, List.mem_range.1 hi, rfl⟩ at'

theorem careful_isEntry {Q : Option Found → View → Prop} {name : Name} {b off : Nat}
    (hq : Q (if (v.mem b).get32 off ≠ 0 ∧ (v.mem b).read (off + 8) ((v.mem b).get (off + 6)).toNat = name then
      some (.entry ((v.mem b).get32 off) ⟨some b, off⟩) else none) v) : (isEntry name ⟨some b, off⟩).wp careful Q v := by
  unfold isEntry
  simp only [Client.wp_bind, careful_rd32, Nat.add_zero, careful_ite, Client.wp_pure, careful_nameEqual, decide_eq_true_eq]
  by_cases hino : (v.mem b).get32 off = 0
  · rw [if_neg fun h => h.1 hino] at hq
    rw [if_pos hino]
    exact hq
  · rw [if_neg hino]
    by_cases hname : (v.mem b).read (off + 8) ((v.mem b).get (off + 6)).toNat = name
    · rw [if_pos ⟨hino, hname⟩] at hq
      rw [if_pos hname]
      exact hq
    · rw [if_neg fun h => hname h.2] at hq
      rw [if_neg hname]
      exact hq

namespace View

/-- `n` is a directory that the engine supports. -/
structure IsDir (v : View) (n : Nat) : Prop where
  used : v.inUse n = true
  sound : v.Sound (v.nodeBlock n) (v.nodeOff n) dirMode

theorem IsDir.dirBlock {n m : Nat} (h : v.IsDir n) (hm : v.DirBlock n m) : v.used m = true := by
  obtain ⟨i, hi, rfl⟩ := hm
  exact (h.sound.dirBlocks hi).2

/-- The record at `off` of block `m` of directory `dir` gives inode `n` this name. -/
structure Names (v : View) (dir : Nat) (name : Name) (n m off : Nat) : Prop where
  isDir : v.IsDir dir
  block : v.DirBlock dir m
  aligned : off % 4 = 0
  record : v.vol.record (v.mem m) off (blockSize - off) = true
  ino : (v.mem m).get32 off = n
  pos : n ≠ 0
  named : (v.mem m).read (off + 8) ((v.mem m).get (off + 6)).toNat = name

end View

theorem careful_search {Q : Found → View → Prop} {dir : Nat} {name : Name} (h : v.vol.Laid) (hcorrupt : Q .corrupt v)
    (habsent : v.IsDir dir → Q .absent v) (hentry : ∀ n m off, v.Names dir name n m off → Q (.entry n ⟨some m, off⟩) v) :
    (lookup dir name).wp careful Q v := by
  unfold lookup
  rw [Client.wp_bind]
  apply careful_inode h
  by_cases hused : v.inUse dir = true
  · rw [if_pos hused]
    dsimp only
    rw [Client.wp_bind]
    refine careful_supportedNode h ?_
    rw [careful_ite]
    split
    · exact hcorrupt
    rename_i hsupports
    have hdir : v.IsDir dir := ⟨hused, supports_iff.1 (by simpa using hsupports)⟩
    rw [Client.wp_bind]
    apply careful_scanDir hdir.sound
    · intro m hm off halign hrecord
      apply careful_isEntry
      by_cases hlive : (v.mem m).get32 off ≠ 0 ∧ (v.mem m).read (off + 8) ((v.mem m).get (off + 6)).toNat = name
      · rw [if_pos hlive]
        exact hentry _ m off ⟨hdir, hm, halign, hrecord, rfl, hlive.1, hlive.2⟩
      · rw [if_neg hlive]
        rfl
    · exact hcorrupt
    · exact habsent hdir
  · rw [if_neg hused]
    exact hcorrupt

/-- A program that changes nothing may answer anything. -/
def Looks {α : Type} (x : Prog α) (v : View) : Prop := ∀ Q : α → View → Prop, (∀ a, Q a v) → x.wp careful Q v

namespace Looks

theorem pure {α : Type} (a : α) : Looks (Pure.pure a) v := fun _ h => h a

theorem bind {α β : Type} {x : Prog α} {f : α → Prog β} (hx : Looks x v) (hf : ∀ a, Looks (f a) v) : Looks (x >>= f) v := by
  intro Q hq
  rw [Client.wp_bind]
  exact hx _ fun a => hf a Q hq

theorem ite {α : Type} {c : Prop} [Decidable c] {x y : Prog α} (hx : Looks x v) (hy : Looks y v) : Looks (if c then x else y) v := by
  split
  · exact hx
  · exact hy

end Looks

/-- In this view, a program that keeps within the volume's blocks answers `a`, and changes nothing. -/
def Gives {α : Type} (x : Prog α) (v : View) (a : α) : Prop := ∀ Q : α → View → Prop, Q a v → x.wp careful Q v

theorem Gives.reads {α : Type} {x : Prog α} {a : α} (h : Gives x v a) : Reads x v a := by
  have hself := calm_of_careful (h (fun b u => b = a ∧ u = v) ⟨rfl, rfl⟩)
  intro Q hq
  refine Client.wp_mono calm_mono (fun b u hu => ?_) hself
  rw [hu.1, hu.2]
  exact hq

/-- Commands have one answer. -/
theorem careful_answer {c : Cmd} {P Q : c.Answer → View → Prop} (h : careful c P v) (h' : careful c Q v) :
    ∃ a u, P a u ∧ Q a u ∧ ∀ R : c.Answer → View → Prop, R a u → careful c R v := by
  obtain ⟨hallowed, hcalm⟩ := h
  have hcalm' := h'.2
  suffices hsuff : ∃ a u, P a u ∧ Q a u ∧ ∀ R : c.Answer → View → Prop, R a u → calm c R v by
    obtain ⟨a, u, hp, hq, hr⟩ := hsuff
    exact ⟨a, u, hp, hq, fun R hR => ⟨hallowed, hr R hR⟩⟩
  cases c with
  | load p len =>
    obtain ⟨b, off⟩ := p
    cases b with
    | none => exact hcalm.elim
    | some n => exact ⟨_, _, hcalm, hcalm', fun _ => id⟩
  | store use p len f =>
    obtain ⟨b, off⟩ := p
    cases b with
    | none => exact hcalm.elim
    | some n => exact ⟨_, _, hcalm, hcalm', fun _ => id⟩
  | null => exact hcalm.elim
  | block n => exact ⟨_, _, hcalm, hcalm', fun _ => id⟩
  | volume => exact ⟨_, _, hcalm, hcalm', fun _ => id⟩
  | putSuper k n => exact ⟨_, _, hcalm, hcalm', fun _ => id⟩
  | putDesc k n => exact ⟨_, _, hcalm, hcalm', fun _ => id⟩
  | cwd => exact ⟨_, _, hcalm, hcalm', fun _ => id⟩
  | chdir n => exact ⟨_, _, hcalm, hcalm', fun _ => id⟩
  | cacheError => exact ⟨_, _, hcalm, hcalm', fun _ => id⟩
  | hint b => exact ⟨_, _, hcalm, hcalm', fun _ => id⟩
  | setHint b g => exact ⟨_, _, hcalm, hcalm', fun _ => id⟩

/-- A careful program ends in one way. -/
theorem careful_ends {α : Type} {x : Prog α} {P Q : α → View → Prop} (h : x.wp careful P v) (h' : x.wp careful Q v) :
    ∃ a u, P a u ∧ Q a u ∧ ∀ R : α → View → Prop, R a u → x.wp careful R v := by
  induction x generalizing v with
  | done a => exact ⟨a, v, h, h', fun _ => id⟩
  | ask c next ih =>
    obtain ⟨a, u, hnext, hnext', hback⟩ := careful_answer h h'
    obtain ⟨b, w, hp, hq, hr⟩ := ih a hnext hnext'
    exact ⟨b, w, hp, hq, fun R hR => hback _ (hr R hR)⟩

/-- A program that changes nothing has one answer, and what holds of any answer holds of it. -/
theorem Looks.answer {α : Type} {x : Prog α} {P : α → View → Prop} (h : Looks x v) (hP : x.wp careful P v) : ∃ a, Gives x v a ∧ P a v := by
  obtain ⟨a, u, rfl, hp, hgives⟩ := careful_ends (h (fun _ u => u = v) fun _ => rfl) hP
  exact ⟨a, hgives, hp⟩

theorem looks_lookup (h : v.vol.Laid) (dir : Nat) (name : Name) : Looks (lookup dir name) v :=
  fun _ hq => careful_search h (hq _) (fun _ => hq _) fun _ _ _ _ => hq _

namespace View

/-- `lookup` finds the record at `off` of block `m` of directory `dir`, and inode `n` in it. -/
structure Entry (v : View) (dir : Nat) (name : Name) (n m off : Nat) : Prop extends v.Names dir name n m off where
  found : Reads (lookup dir name) v (.entry n ⟨some m, off⟩)

end View

/-- `lookup`. -/
theorem careful_lookup {Q : Found → View → Prop} {dir : Nat} {name : Name} (h : v.vol.Laid) (hcorrupt : Q .corrupt v)
    (habsent : v.IsDir dir → Reads (lookup dir name) v .absent → Q .absent v)
    (hentry : ∀ n m off, v.Entry dir name n m off → Q (.entry n ⟨some m, off⟩) v) : (lookup dir name).wp careful Q v := by
  have hfacts : (lookup dir name).wp careful (fun a _ => (a = .absent → v.IsDir dir) ∧
      ∀ n e, a = .entry n e → ∃ m off, e = ⟨some m, off⟩ ∧ v.Names dir name n m off) v := by
    refine careful_search h ⟨nofun, nofun⟩ (fun hdir => ⟨fun _ => hdir, nofun⟩) fun n m off hnames => ⟨nofun, ?_⟩
    rintro _ _ ⟨⟩
    exact ⟨m, off, rfl, hnames⟩
  obtain ⟨found, hgives, hdir, hnames⟩ := (looks_lookup h dir name).answer hfacts
  apply hgives
  cases found with
  | corrupt => exact hcorrupt
  | absent => exact habsent (hdir rfl) hgives.reads
  | entry n e =>
    obtain ⟨m, off, rfl, hn⟩ := hnames n e rfl
    exact hentry n m off ⟨hn, hgives.reads⟩

theorem looks_lookupParts (h : v.vol.Laid) (parts : List Name) (dir : Nat) : Looks (lookupParts dir parts) v := by
  induction parts generalizing dir with
  | nil => exact .pure _
  | cons part parts ih =>
    unfold lookupParts
    refine .ite (.pure _) (.ite (ih dir) ((looks_lookup h dir part).bind fun found => ?_))
    cases found with
    | entry child e => exact ih child
    | absent => exact .pure _
    | corrupt => exact .pure _

theorem looks_lookupPath (h : v.vol.Laid) (path : Name) : Looks (lookupPath path) v := by
  unfold lookupPath
  refine .ite (.pure _) (.bind (fun Q hq => ?_) fun cwd => looks_lookupParts h _ _)
  rw [careful_workingDir]
  exact hq _

theorem looks_nodeOf (h : v.vol.Laid) (n : Option Nat) : Looks (nodeOf n) v := by
  cases n with
  | none => exact .pure _
  | some n => exact fun Q hq => careful_inode h n (hq _)

end

end Barnix.Ext2
