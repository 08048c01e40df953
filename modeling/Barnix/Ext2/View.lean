import Barnix.Ext2.Mount
/-!
# What an operation sees

The engine's state without its cache: every block as the operation sees it, the
loaded metadata and the working directory. As long as every block can be loaded,
a program depends on nothing else, and `calm` says what its commands do.
-/

namespace Barnix.Ext2

structure View where
  mem : Nat → Block
  vol : Volume
  cwd : Nat
  hintBlock : Nat
  hintInode : Nat

namespace View

def set (v : View) (n : Nat) (b : Block) : View := { v with mem := Function.update v.mem n b }

@[simp] theorem set_vol (v : View) (n : Nat) (b : Block) : (v.set n b).vol = v.vol := rfl

@[simp] theorem set_cwd (v : View) (n : Nat) (b : Block) : (v.set n b).cwd = v.cwd := rfl

@[simp] theorem set_mem_same (v : View) (n : Nat) (b : Block) : (v.set n b).mem n = b := Function.update_self ..

theorem set_mem (v : View) (n : Nat) (b : Block) (m : Nat) : (v.set n b).mem m = if m = n then b else v.mem m := by
  by_cases h : m = n
  · subst h
    rw [if_pos rfl, set_mem_same]
  · rw [if_neg h]
    exact Function.update_of_ne h ..

end View

def Ext.view (s : Ext) : View := ⟨s.mem, s.vol, s.cwd, s.hintBlock, s.hintInode⟩

/-- What a command does when every block can be loaded. The use of a NULL pointer has no
meaning. -/
def calm : (c : Cmd) → (c.Answer → View → Prop) → View → Prop
  | .block n, Q, v => Q ⟨some n, 0⟩ v
  | .load p len, Q, v => p.block.elim False fun n => Q ((v.mem n).window p.off len) v
  | .store _ p len f, Q, v => p.block.elim False fun n => Q () (v.set n ((v.mem n).edit p.off len f))
  | .volume, Q, v => Q v.vol v
  | .putSuper k n, Q, v => Q () { v with vol := { v.vol with superblock := v.vol.superblock.put32 k n } }
  | .putDesc k n, Q, v => Q () { v with vol := { v.vol with descriptors := v.vol.descriptors.put16 k n } }
  | .cwd, Q, v => Q v.cwd v
  | .chdir n, Q, v => Q () { v with cwd := n }
  | .cacheError, Q, v => Q false v
  | .hint isInode, Q, v => Q (if isInode then v.hintInode else v.hintBlock) v
  | .setHint isInode g, Q, v => Q () (if isInode then { v with hintInode := g } else { v with hintBlock := g })
  | .null, _, _ => False

theorem calm_mono (c : Cmd) (P Q : c.Answer → View → Prop) (h : ∀ a v, P a v → Q a v) (v : View) (hp : calm c P v) : calm c Q v := by
  cases c with
  | load p len =>
    obtain ⟨b, off⟩ := p
    cases b with
    | none => exact hp
    | some n => exact h _ _ hp
  | store use p len f =>
    obtain ⟨b, off⟩ := p
    cases b with
    | none => exact hp
    | some n => exact h _ _ hp
  | null => exact hp
  | block n => exact h _ _ hp
  | volume => exact h _ _ hp
  | putSuper k n => exact h _ _ hp
  | putDesc k n => exact h _ _ hp
  | cwd => exact h _ _ hp
  | chdir n => exact h _ _ hp
  | cacheError => exact h _ _ hp
  | hint b => exact h _ _ hp
  | setHint b g => exact h _ _ hp

/-! ## The cache behind the view -/

namespace Ext

theorem cached_block {s : Ext} {n : Nat} {e : Slot} (h : s.cached n = some e) : e.block = n := by
  have := List.find?_some h
  simpa using this

theorem mem_cached {s : Ext} {n : Nat} {e : Slot} (h : s.cached n = some e) : s.mem n = e.data := by
  unfold mem
  rw [h]
  rfl

theorem mem_uncached {s : Ext} {n : Nat} (h : s.cached n = none) : s.mem n = s.disk.block n := by
  unfold mem
  rw [h]
  rfl

/-- The cache after block `n` was loaded. -/
theorem cached_append (s : Ext) (e : Slot) (m : Nat) :
    ({ s with cache := s.cache ++ [e] } : Ext).cached m = (s.cached m).or (if e.block = m then some e else none) := by
  show (s.cache ++ [e]).find? (·.block == m) = _
  rw [List.find?_append]
  congr 1
  by_cases h : e.block = m
  · rw [if_pos h]
    exact List.find?_cons_of_pos (by simpa using h)
  · rw [if_neg h, List.find?_cons_of_neg (by simpa using h)]
    rfl

/-- A block that is loaded looks as it did on the disk. -/
theorem mem_load {s : Ext} {n : Nat} :
    ({ s with cache := s.cache ++ [⟨n, s.disk.block n, s.disk.block n⟩] } : Ext).mem = s.mem := by
  funext m
  unfold mem
  rw [cached_append]
  cases hm : s.cached m with
  | some e => rfl
  | none =>
    dsimp only [Option.or]
    by_cases hnm : n = m
    · rw [if_pos hnm, hnm]
      rfl
    · rw [if_neg hnm]

theorem mem_disk {s : Ext} {n : Nat} {d : Disk} {b : Block} (hd : d.sectors = s.disk.sectors) :
    ({ s with disk := d, cache := s.cache ++ [⟨n, s.disk.block n, s.disk.block n⟩], failedBlock := b } : Ext).mem = s.mem := by
  rw [← @mem_load s n]
  unfold mem Disk.block cached
  dsimp only
  rw [hd]

/-- A change of block `n` is seen there and nowhere else. -/
theorem mem_change (s : Ext) (n off : Nat) (f : Block → Block) (m : Nat) :
    (s.change ⟨some n, off⟩ f).mem m = if m = n then f (s.mem n) else s.mem m := by
  unfold change
  dsimp only
  cases hn : s.cached n with
  | none =>
    rw [Option.isSome_none, if_neg (by decide)]
    unfold mem
    rw [cached_append, hn]
    by_cases hm : m = n
    · subst hm
      rw [if_pos rfl, hn]
      simp
    · rw [if_neg hm, if_neg (Ne.symm hm), Option.or_none]
  | some e =>
    rw [Option.isSome_some, if_pos rfl]
    have hmap : ∀ m, ({ s with cache := s.cache.map fun e => if e.block = n then { e with data := f e.data } else e } : Ext).cached m =
        (s.cached m).map fun e => if e.block = n then { e with data := f e.data } else e := by
      intro m
      show (s.cache.map _).find? (fun e : Slot => e.block == m) = _
      rw [List.find?_map]
      congr 2
      funext e
      dsimp only [Function.comp]
      split <;> rfl
    by_cases hm : m = n
    · subst hm
      have hblock := cached_block hn
      unfold mem
      rw [hmap, if_pos rfl, hn]
      simp [hblock]
    · unfold mem
      rw [hmap, if_neg hm]
      cases hc : s.cached m with
      | none => rfl
      | some e' =>
        have hne : e'.block ≠ n := by
          rw [cached_block hc]
          exact hm
        simp [hne]

end Ext

/-! ## Programs on the view -/

theorem exec_onDisk {α : Type} (x : StateM Disk α) (s : Ext) :
    exec (onDisk x) s = ((exec x s.disk).1, { s with disk := (exec x s.disk).2 }) := rfl

/-- A read leaves the volume what it is. -/
structure Disk.Same (d d' : Disk) : Prop where
  sectors : d'.sectors = d.sectors
  size : d'.size = d.size
  present : d'.present = d.present
  log : d'.log = d.log

theorem diskReadMany_cases (lba count : Nat) (d : Disk) : ∃ d', d.Same d' ∧ (exec (diskReadMany lba count) d = (none, d') ∨
    exec (diskReadMany lba count) d = (some fun i => (d.sectors (lba + i.val / 512)).get (i.val % 512), d')) := by
  unfold diskReadMany
  rw [exec_modifyGet]
  split
  · exact ⟨d, ⟨rfl, rfl, rfl, rfl⟩, .inl rfl⟩
  · refine ⟨{ d with clock := d.clock + 1 }, ⟨rfl, rfl, rfl, rfl⟩, ?_⟩
    cases d.faults d.clock with
    | true => exact .inl rfl
    | false => exact .inr rfl

/-- What loading a block does: the block is there, or the cache has failed. -/
theorem cacheBlock_cases (n : Nat) (s : Ext) :
    (exec (cacheBlock n) s = (⟨some n, 0⟩, s) ∧ (s.cached n).isSome = true) ∨
    (∃ f d, exec (cacheBlock n) s = (⟨none, 0⟩, ({ s with disk := d } : Ext).fail f) ∧ s.disk.Same d ∧ s.cached n = none ∧
      (f = .range → s.vol.geo.blocks ≤ n)) ∨
    (∃ d, exec (cacheBlock n) s = (⟨some n, 0⟩, { s with
        disk := d
        cache := s.cache ++ [⟨n, s.disk.block n, s.disk.block n⟩]
        failedBlock := s.disk.block n }) ∧ s.disk.Same d ∧ s.cached n = none ∧ n < s.vol.geo.blocks) := by
  unfold cacheBlock
  rw [exec_bind, exec_get]
  dsimp only
  by_cases hc : (s.cached n).isSome = true
  · rw [if_pos hc]
    exact .inl ⟨rfl, hc⟩
  rw [if_neg hc]
  have hnone : s.cached n = none := by simpa using hc
  have hsame : s.disk.Same s.disk := ⟨rfl, rfl, rfl, rfl⟩
  right
  by_cases hr : s.vol.geo.blocks ≤ n
  · rw [if_pos hr]
    exact .inl ⟨.range, s.disk, rfl, hsame, hnone, fun _ => hr⟩
  rw [if_neg hr]
  by_cases hf : s.cache.length = cacheBlocks
  · rw [if_pos hf]
    exact .inl ⟨.full, s.disk, rfl, hsame, hnone, nofun⟩
  rw [if_neg hf, exec_bind, exec_onDisk]
  obtain ⟨d, hd, he | he⟩ := diskReadMany_cases (n * 2) 2 s.disk
  · rw [he]
    exact .inl ⟨.device, d, rfl, hd, hnone, nofun⟩
  · rw [he]
    exact .inr ⟨d, rfl, hd, hnone, Nat.lt_of_not_le hr⟩

theorem exec_store (use : Use) (p : Ptr) (len : Nat) (f : Buf len → Buf len) (s : Ext) :
    exec (serve (.store use p len f)) s = ((), s.change p fun b => b.edit p.off len f) := rfl

/-- A run in which no block failed to load follows the rules of `calm`. -/
theorem perform_calm {α : Type} {x : Prog α} {Q : α → View → Prop} {s : Ext} (hx : x.wp calm Q s.view)
    (hgood : (exec (perform x) s).2.faults = []) : Q (exec (perform x) s).1 (exec (perform x) s).2.view := by
  have hrun := @Client.wp_good Cmd Cmd.Answer Ext View α calm serve (fun s v => v = s.view) (fun s => s.faults = [])
    (fun c s hend => ?_) (fun c Q s v hv hrule hend => ?_) x Q s _ rfl hx hgood
  · obtain ⟨v', rfl, hq⟩ := hrun
    exact hq
  · -- faults stay
    cases c with
    | block n =>
      rcases cacheBlock_cases n s with ⟨he, -⟩ | ⟨f, d, he, -⟩ | ⟨d, he, -⟩
      · rw [show exec (serve (.block n)) s = _ from he] at hend
        exact hend
      · rw [show exec (serve (.block n)) s = _ from he] at hend
        cases hend
      · rw [show exec (serve (.block n)) s = _ from he] at hend
        exact hend
    | store use p len f =>
      rw [exec_store] at hend
      unfold Ext.change at hend
      split at hend <;> exact hend
    | setHint b g => cases b <;> exact hend
    | load p len => exact hend
    | volume => exact hend
    | putSuper k n => exact hend
    | putDesc k n => exact hend
    | cwd => exact hend
    | chdir n => exact hend
    | cacheError => exact hend
    | hint b => exact hend
    | null => exact hend
  · subst hv
    cases c with
    | block n =>
      rcases cacheBlock_cases n s with ⟨he, -⟩ | ⟨f, d, he, -⟩ | ⟨d, he, hd, -⟩
      · rw [show exec (serve (.block n)) s = _ from he]
        exact ⟨_, rfl, hrule⟩
      · rw [show exec (serve (.block n)) s = _ from he] at hend
        cases hend
      · rw [show exec (serve (.block n)) s = _ from he]
        refine ⟨_, rfl, ?_⟩
        have hview : ∀ t : Ext, t.mem = s.mem → t.vol = s.vol → t.cwd = s.cwd → t.hintBlock = s.hintBlock →
            t.hintInode = s.hintInode → t.view = s.view := by
          intro t h1 h2 h3 h4 h5
          unfold Ext.view
          rw [h1, h2, h3, h4, h5]
        rw [hview _ (Ext.mem_disk hd.sectors) rfl rfl rfl rfl]
        exact hrule
    | load p len =>
      obtain ⟨b, off⟩ := p
      cases b with
      | none => exact hrule.elim
      | some n => exact ⟨_, rfl, hrule⟩
    | store use p len f =>
      obtain ⟨b, off⟩ := p
      cases b with
      | none => exact hrule.elim
      | some n =>
        refine ⟨_, rfl, ?_⟩
        have hview : (s.change ⟨some n, off⟩ fun b => b.edit off len f).view = s.view.set n ((s.view.mem n).edit off len f) := by
          unfold Ext.view View.set
          congr 1
          funext m
          rw [Ext.mem_change]
          by_cases hm : m = n
          · subst hm
            rw [if_pos rfl, Function.update_self]
          · rw [if_neg hm, Function.update_of_ne hm]
        rw [exec_store, hview]
        exact hrule
    | setHint b g => cases b <;> exact ⟨_, rfl, hrule⟩
    | volume => exact ⟨_, rfl, hrule⟩
    | putSuper k n => exact ⟨_, rfl, hrule⟩
    | putDesc k n => exact ⟨_, rfl, hrule⟩
    | cwd => exact ⟨_, rfl, hrule⟩
    | chdir n => exact ⟨_, rfl, hrule⟩
    | cacheError =>
      refine ⟨_, rfl, ?_⟩
      have hfine : s.cacheError = false := by
        unfold Ext.cacheError
        rw [show s.faults = [] from hend]
        rfl
      show Q s.cacheError s.view
      rw [hfine]
      exact hrule
    | hint b => exact ⟨_, rfl, hrule⟩
    | null => exact hrule.elim

/-! ## The commands -/

@[simp] theorem Ptr.add_mk (b : Option Nat) (off k : Nat) : (⟨b, off⟩ : Ptr).add k = ⟨b, off + k⟩ := rfl

section
variable {α : Type} (v : View) (b off k : Nat)

theorem wp_ite {c : Prop} [Decidable c] (x y : Prog α) (Q : α → View → Prop) :
    (if c then x else y).wp calm Q v = if c then x.wp calm Q v else y.wp calm Q v := by
  split <;> rfl

@[simp] theorem wp_block (n : Nat) (Q : Ptr → View → Prop) : (block n).wp calm Q v = Q ⟨some n, 0⟩ v := rfl

@[simp] theorem wp_load (len : Nat) (Q : Buf len → View → Prop) :
    (load ⟨some b, off⟩ len).wp calm Q v = Q ((v.mem b).window off len) v := rfl

@[simp] theorem wp_store (use : Use) (len : Nat) (f : Buf len → Buf len) (Q : Unit → View → Prop) :
    (store use ⟨some b, off⟩ len f).wp calm Q v = Q () (v.set b ((v.mem b).edit off len f)) := rfl

@[simp] theorem wp_volume (Q : Volume → View → Prop) : volume.wp calm Q v = Q v.vol v := rfl

@[simp] theorem wp_putSuper (n : Nat) (Q : Unit → View → Prop) : (putSuper k n).wp calm Q v =
    Q () { v with vol := { v.vol with superblock := v.vol.superblock.put32 k n } } := rfl

@[simp] theorem wp_putDesc (n : Nat) (Q : Unit → View → Prop) : (putDesc k n).wp calm Q v =
    Q () { v with vol := { v.vol with descriptors := v.vol.descriptors.put16 k n } } := rfl

@[simp] theorem wp_workingDir (Q : Nat → View → Prop) : workingDir.wp calm Q v = Q v.cwd v := rfl

@[simp] theorem wp_chdir (n : Nat) (Q : Unit → View → Prop) : (chdir n).wp calm Q v = Q () { v with cwd := n } := rfl

@[simp] theorem wp_cacheError (Q : Bool → View → Prop) : cacheError.wp calm Q v = Q false v := rfl

@[simp] theorem wp_hint (isInode : Bool) (Q : Nat → View → Prop) :
    (hint isInode).wp calm Q v = Q (if isInode then v.hintInode else v.hintBlock) v := rfl

@[simp] theorem wp_setHint (isInode : Bool) (g : Nat) (Q : Unit → View → Prop) : (setHint isInode g).wp calm Q v =
    Q () (if isInode then { v with hintInode := g } else { v with hintBlock := g }) := rfl

@[simp] theorem wp_deref (p : Ptr) (Q : Ptr → View → Prop) : (deref (some p)).wp calm Q v = Q p v := rfl

@[simp] theorem wp_rd16 (Q : Nat → View → Prop) : (rd16 ⟨some b, off⟩ k).wp calm Q v = Q ((v.mem b).get16 (off + k)) v := by
  unfold rd16
  simp

@[simp] theorem wp_rd32 (Q : Nat → View → Prop) : (rd32 ⟨some b, off⟩ k).wp calm Q v = Q ((v.mem b).get32 (off + k)) v := by
  unfold rd32
  simp

@[simp] theorem wp_wr16 (use : Use) (n : Nat) (Q : Unit → View → Prop) :
    (wr16 use ⟨some b, off⟩ k n).wp calm Q v = Q () (v.set b ((v.mem b).put16 (off + k) n)) := by
  unfold wr16
  simp

@[simp] theorem wp_wr32 (use : Use) (n : Nat) (Q : Unit → View → Prop) :
    (wr32 use ⟨some b, off⟩ k n).wp calm Q v = Q () (v.set b ((v.mem b).put32 (off + k) n)) := by
  unfold wr32
  simp

@[simp] theorem wp_bit (Q : Bool → View → Prop) : (bit ⟨some b, 0⟩ k).wp calm Q v = Q ((v.mem b).bit k) v := by
  unfold bit
  simp

@[simp] theorem wp_setbit (used : Bool) (Q : Unit → View → Prop) :
    (setbit ⟨some b, 0⟩ k used).wp calm Q v = Q () (v.set b ((v.mem b).setbit k used)) := by
  unfold setbit
  simp

end

/-! ## Programs that only read -/

/-- In this view, `x` answers `a` and changes nothing. -/
def Reads {α : Type} (x : Prog α) (v : View) (a : α) : Prop := ∀ Q : α → View → Prop, Q a v → x.wp calm Q v

namespace Reads

variable {α β : Type} {v : View}

theorem pure (a : α) : Reads (Pure.pure a) v a := fun _ h => h

theorem bind {x : Prog α} {f : α → Prog β} {a : α} {b : β} (hx : Reads x v a) (hf : Reads (f a) v b) : Reads (x >>= f) v b := by
  intro Q hq
  rw [Client.wp_bind]
  exact hx _ (hf Q hq)

/-- A program answers one thing only. -/
theorem unique {x : Prog α} {a b : α} (ha : Reads x v a) (hb : Reads x v b) : a = b := by
  have hboth : ∀ (y : Prog α) (P Q : α → View → Prop) (u : View), y.wp calm P u → y.wp calm Q u → ∃ c w, P c w ∧ Q c w := by
    intro y
    induction y with
    | done c => exact fun P Q u hp hq => ⟨c, u, hp, hq⟩
    | ask c next ih =>
      intro P Q u hp hq
      cases c with
      | load p len =>
        obtain ⟨d, off⟩ := p
        cases d with
        | none => exact hp.elim
        | some n => exact ih _ P Q _ hp hq
      | store use p len f =>
        obtain ⟨d, off⟩ := p
        cases d with
        | none => exact hp.elim
        | some n => exact ih _ P Q _ hp hq
      | null => exact hp.elim
      | block n => exact ih _ P Q _ hp hq
      | volume => exact ih _ P Q _ hp hq
      | putSuper k n => exact ih _ P Q _ hp hq
      | putDesc k n => exact ih _ P Q _ hp hq
      | cwd => exact ih _ P Q _ hp hq
      | chdir n => exact ih _ P Q _ hp hq
      | cacheError => exact ih _ P Q _ hp hq
      | hint b => exact ih _ P Q _ hp hq
      | setHint b g => exact ih _ P Q _ hp hq
  obtain ⟨c, w, rfl, rfl⟩ := hboth x _ _ v (ha (fun c _ => c = a) rfl) (hb (fun c _ => c = b) rfl)
  rfl

end Reads

end Barnix.Ext2
