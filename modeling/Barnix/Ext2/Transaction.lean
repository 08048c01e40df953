import Mathlib.Data.List.Nodup
import Barnix.Ext2.Commit
/-!
# Transactions

What the body of an operation leaves alone whatever it does, what taking it back gives,
and what is on the disk after it was committed.
-/

namespace Barnix.Ext2

/-! ## The cache beside the disk -/

/-- Every slot was loaded from its block of this disk, and no block twice. -/
structure Ext.Coherent (s : Ext) : Prop where
  nodup : (s.cache.map Slot.block).Nodup
  before : ∀ e ∈ s.cache, e.before = s.disk.block e.block

theorem Ext.not_mem_of_uncached {s : Ext} {n : Nat} (h : s.cached n = none) : n ∉ s.cache.map Slot.block := by
  intro hn
  obtain ⟨e, he, rfl⟩ := List.mem_map.1 hn
  exact absurd (List.find?_eq_none.1 h e he) (by simp)

/-- A slot for one more block. -/
theorem Ext.Coherent.append {s : Ext} (h : s.Coherent) {e : Slot} (hnone : s.cached e.block = none)
    (hbefore : e.before = s.disk.block e.block) : ({ s with cache := s.cache ++ [e] } : Ext).Coherent := by
  refine ⟨?_, fun e' he' => ?_⟩
  · have hmap : (s.cache ++ [e]).map Slot.block = s.cache.map Slot.block ++ [e.block] := List.map_append
    dsimp only
    rw [hmap]
    refine List.nodup_append.2 ⟨h.nodup, List.nodup_singleton _, fun n hn m hm => ?_⟩
    rintro rfl
    exact not_mem_of_uncached hnone (List.mem_singleton.1 hm ▸ hn)
  · rcases List.mem_append.1 he' with he' | he'
    · exact h.before e' he'
    · rw [List.mem_singleton.1 he']
      exact hbefore

theorem Disk.Same.block {d d' : Disk} (h : d.Same d') (n : Nat) : d'.block n = d.block n := by
  unfold Disk.block
  rw [h.sectors]

theorem Disk.Same.refl (d : Disk) : d.Same d := ⟨rfl, rfl, rfl, rfl⟩

theorem Disk.Same.trans {d d' d'' : Disk} (h : d.Same d') (h' : d'.Same d'') : d.Same d'' :=
  ⟨h'.sectors.trans h.sectors, h'.size.trans h.size, h'.present.trans h.present, h'.log.trans h.log⟩

/-- What no program changes, and what it keeps. -/
structure Kept (s t : Ext) : Prop where
  disk : s.disk.Same t.disk
  super : t.savedSuper = s.savedSuper
  descriptors : t.savedDescriptors = s.savedDescriptors
  mounted : t.mounted = s.mounted
  behind : t.behind = s.behind
  geo : t.vol.geo = s.vol.geo
  faults : ∃ fs, t.faults = fs ++ s.faults
  coherent : s.Coherent → t.Coherent

namespace Kept

theorem refl (s : Ext) : Kept s s := ⟨.refl _, rfl, rfl, rfl, rfl, rfl, ⟨[], rfl⟩, id⟩

theorem trans {s t u : Ext} (h : Kept s t) (h' : Kept t u) : Kept s u := by
  refine ⟨h.disk.trans h'.disk, h'.super.trans h.super, h'.descriptors.trans h.descriptors, h'.mounted.trans h.mounted,
    h'.behind.trans h.behind, h'.geo.trans h.geo, ?_, h'.coherent ∘ h.coherent⟩
  obtain ⟨fs, hfs⟩ := h.faults
  obtain ⟨fs', hfs'⟩ := h'.faults
  exact ⟨fs' ++ fs, by rw [hfs', hfs, List.append_assoc]⟩

instance : Std.Refl Kept := ⟨refl⟩
instance : IsTrans Ext Kept := ⟨fun _ _ _ => trans⟩

/-- A step that touches neither the disk nor the cache. -/
theorem plain {s t : Ext} (hdisk : t.disk = s.disk) (hcache : t.cache = s.cache) (hfaults : t.faults = s.faults)
    (hsuper : t.savedSuper = s.savedSuper) (hdesc : t.savedDescriptors = s.savedDescriptors) (hmounted : t.mounted = s.mounted)
    (hbehind : t.behind = s.behind) (hgeo : t.vol.geo = s.vol.geo) : Kept s t := by
  refine ⟨hdisk ▸ .refl _, hsuper, hdesc, hmounted, hbehind, hgeo, ⟨[], hfaults⟩, fun h => ⟨?_, ?_⟩⟩
  · rw [hcache]
    exact h.nodup
  · rw [hcache, hdisk]
    exact h.before

end Kept

theorem kept_cacheBlock (n : Nat) (s : Ext) : Kept s (exec (cacheBlock n) s).2 := by
  rcases cacheBlock_cases n s with ⟨he, -⟩ | ⟨f, d, he, hd, -, -⟩ | ⟨d, he, hd, hnone, -⟩
  · rw [he]
    exact .refl s
  · rw [he]
    refine ⟨hd, rfl, rfl, rfl, rfl, rfl, ⟨[f], rfl⟩, fun h => ⟨h.nodup, fun e he => ?_⟩⟩
    rw [h.before e he]
    exact (hd.block _).symm
  · rw [he]
    refine ⟨hd, rfl, rfl, rfl, rfl, rfl, ⟨[], rfl⟩, fun h => ?_⟩
    have happend := h.append (e := ⟨n, s.disk.block n, s.disk.block n⟩) hnone rfl
    exact ⟨happend.nodup, fun e he => (happend.before e he).trans (hd.block _).symm⟩

theorem kept_change (p : Ptr) (f : Block → Block) (s : Ext) : Kept s (s.change p f) := by
  unfold Ext.change
  obtain ⟨b, off⟩ := p
  cases b with
  | none => exact .plain rfl rfl rfl rfl rfl rfl rfl rfl
  | some n =>
    dsimp only
    refine ⟨.refl _, rfl, rfl, rfl, rfl, rfl, ⟨[], rfl⟩, fun h => ?_⟩
    by_cases hc : (s.cached n).isSome = true
    · rw [if_pos hc]
      refine ⟨?_, fun e he => ?_⟩
      · have hmap : (s.cache.map fun e => if e.block = n then { e with data := f e.data } else e).map Slot.block =
            s.cache.map Slot.block := by
          rw [List.map_map]
          apply List.map_congr_left
          intro e _
          dsimp only [Function.comp]
          split <;> rfl
        dsimp only
        rw [hmap]
        exact h.nodup
      · obtain ⟨e', he', rfl⟩ := List.mem_map.1 he
        have hold := h.before e' he'
        dsimp only
        split
        · exact hold
        · exact hold
    · rw [if_neg hc]
      have hnone : s.cached n = none := by simpa using hc
      exact h.append (e := ⟨n, f (s.disk.block n), s.disk.block n⟩) hnone rfl

/-- Whatever a program does, it does it to the cache, the loaded metadata and the working directory. -/
theorem kept_perform {α : Type} (x : Prog α) : Moves Kept (perform x) := by
  refine Client.moves_run (fun c _ => ?_) (Client.only_true x)
  intro s
  cases c with
  | block n => exact kept_cacheBlock n s
  | store use p len f =>
    rw [exec_store]
    exact kept_change p (fun b => b.edit p.off len f) s
  | setHint b g => cases b <;> exact .plain rfl rfl rfl rfl rfl rfl rfl rfl
  | load p len => exact .refl s
  | volume => exact .refl s
  | putSuper k n => exact .plain rfl rfl rfl rfl rfl rfl rfl rfl
  | putDesc k n => exact .plain rfl rfl rfl rfl rfl rfl rfl rfl
  | cwd => exact .refl s
  | chdir n => exact .plain rfl rfl rfl rfl rfl rfl rfl rfl
  | cacheError => exact .refl s
  | hint b => exact .refl s
  | null => exact .refl s

/-! ## Taking back -/

theorem find_congr {l : List Slot} {f : Slot → Slot} (hf : ∀ e, (f e).block = e.block) (n : Nat) :
    (l.map f).find? (·.block == n) = (l.find? (·.block == n)).map f := by
  rw [List.find?_map]
  congr 2
  funext e
  dsimp only [Function.comp]
  rw [hf]

/-- After taking back, every block looks as it is on the disk. -/
theorem Ext.mem_rollback {s : Ext} (h : s.Coherent) : s.rollback.mem = s.disk.block := by
  funext n
  have hfind : s.rollback.cached n = (s.cached n).map fun e => { e with data := e.before } :=
    find_congr (f := fun e => { e with data := e.before }) (fun _ => rfl) n
  cases hc : s.cached n with
  | none =>
    rw [hc] at hfind
    exact mem_uncached hfind
  | some e =>
    rw [hc] at hfind
    rw [mem_cached hfind]
    show e.before = s.disk.block n
    rw [h.before e (List.mem_of_find?_eq_some hc), cached_block hc]

/-! ## What is on the disk after a commit -/

theorem Disk.block_half (d : Disk) (n : Nat) {k : Nat} (hk : k < 2) : half (d.block n) k = d.sectors (n * 2 + k) := by
  refine Buf.ext_get fun i hi => ?_
  have hdiv : (k * 512 + i) / 512 = k := by omega
  have hmod : (k * 512 + i) % 512 = i := by omega
  have hlt : k * 512 + i < 1024 := by omega
  rw [Buf.get_lt _ hi]
  show Buf.get _ (k * 512 + i) = _
  rw [Buf.get_lt _ hlt]
  show (d.sectors (n * 2 + (k * 512 + i) / 512)).get ((k * 512 + i) % 512) = _
  rw [hdiv, hmod]

/-- A block is its two halves. -/
theorem Disk.block_eq {d : Disk} {n : Nat} {b : Block} (h : ∀ k < 2, d.sectors (n * 2 + k) = half b k) : d.block n = b := by
  funext i
  have hk : i.val / 512 < 2 := by omega
  have hi : i.val / 512 * 512 + i.val % 512 = i.val := Nat.div_add_mod' ..
  show (d.sectors (n * 2 + i.val / 512)).get (i.val % 512) = b i
  rw [h _ hk, Buf.get_lt _ (Nat.mod_lt _ (by decide))]
  show b.get (i.val / 512 * 512 + i.val % 512) = b i
  rw [hi, Buf.get_lt _ i.isLt]

theorem half_eq_of_same {a b : Block} {k : Nat} (h : a.same b (k * 512) 512 = true) : half a k = half b k := by
  refine Buf.ext_get fun i hi => ?_
  rw [Buf.get_lt _ hi, Buf.get_lt _ hi]
  exact Buf.same_iff.1 h i hi

/-- A sector that changed in a cached block. -/
theorem mem_dirtyCache {cache : List Slot} {l : Nat} {data : Sector} : (l, data) ∈ dirtyCache cache ↔
    ∃ e ∈ cache, ∃ k < 2, e.data.same e.before (k * 512) 512 = false ∧ l = e.block * 2 + k ∧ data = half e.data k := by
  unfold dirtyCache
  simp only [List.mem_flatMap, List.mem_map, List.mem_filter, Prod.mk.injEq]
  constructor
  · rintro ⟨e, he, k, ⟨hk, hdirty⟩, rfl, rfl⟩
    refine ⟨e, he, k, ?_, by simpa using hdirty, rfl, rfl⟩
    rcases List.mem_cons.1 hk with rfl | hk
    · decide
    · rw [List.mem_singleton.1 hk]
      decide
  · rintro ⟨e, he, k, hk, hdirty, rfl, rfl⟩
    refine ⟨e, he, k, ⟨?_, by simpa using hdirty⟩, rfl, rfl⟩
    rw [List.mem_cons, List.mem_singleton]
    omega

theorem mem_dirtyDesc {s : Ext} {l : Nat} {data : Sector} : (l, data) ∈ dirtyDesc s ↔ ∃ k < s.vol.geo.descriptorBlocks * 2,
    s.vol.descriptors.same s.savedDescriptors (k * 512) 512 = false ∧ l = 4 + k ∧ data = descSector s.vol.descriptors k := by
  unfold dirtyDesc
  simp only [List.mem_map, List.mem_filter, List.mem_range, Prod.mk.injEq, Bool.not_eq_true']
  constructor
  · rintro ⟨k, ⟨hk, hdirty⟩, rfl, rfl⟩
    exact ⟨k, hk, hdirty, rfl, rfl⟩
  · rintro ⟨k, hk, hdirty, rfl, rfl⟩
    exact ⟨k, ⟨hk, hdirty⟩, rfl, rfl⟩

theorem mem_dirtySuper {s : Ext} {l : Nat} {data : Sector} : (l, data) ∈ dirtySuper s ↔
    s.vol.superblock.same s.savedSuper 512 512 = false ∧ l = 3 ∧ data = half s.vol.superblock 1 := by
  unfold dirtySuper
  by_cases h : s.vol.superblock.same s.savedSuper 512 512 = true
  · rw [if_pos h, h]
    simp
  · rw [if_neg h]
    simp [h]

/-- The first block that no copy of the metadata of group 0 is in. -/
def Geometry.first (g : Geometry) : Nat := g.descriptorBlocks + 2

/-- The cached blocks lie behind the superblock and the descriptors. -/
def Ext.Clear (s : Ext) : Prop := ∀ e ∈ s.cache, s.vol.geo.first ≤ e.block

/-- What is written to a sector behind the descriptors is from the cache. -/
theorem mem_updates_block {s : Ext} {l : Nat} {data : Sector} (hl : s.vol.geo.first * 2 ≤ l) :
    (l, data) ∈ s.updates ↔ (l, data) ∈ dirtyCache s.cache := by
  unfold Ext.updates
  unfold Geometry.first at hl
  rw [List.mem_append, List.mem_append, mem_dirtyDesc, mem_dirtySuper]
  constructor
  · rintro ((h | ⟨k, hk, -, rfl, -⟩) | ⟨-, rfl, -⟩)
    · exact h
    · omega
    · omega
  · exact fun h => .inl (.inl h)

theorem not_mem_dirtyCache {s : Ext} (hclear : s.Clear) {l : Nat} {data : Sector} (hl : l < s.vol.geo.first * 2) :
    (l, data) ∉ dirtyCache s.cache := by
  intro h
  obtain ⟨e, he, k, -, -, rfl, -⟩ := mem_dirtyCache.1 h
  have := hclear e he
  omega

/-- A cached block is on the disk as it is in the cache, any other as it was. -/
theorem block_updates {s : Ext} {d : Disk} {S : Nat → Sector} (hco : s.Coherent) (hS : ∀ l, 4 ≤ l → S l = s.disk.sectors l)
    (hd : ∀ l, 4 ≤ l → d.sectors l = WriteBack.Request.apply (WriteBack.Request.puts s.updates) S l) {n : Nat} (hn : s.vol.geo.first ≤ n) : d.block n = s.mem n := by
  apply Disk.block_eq
  intro k hk
  have hfirst : 2 ≤ s.vol.geo.first := Nat.le_add_left ..
  rw [hd _ (by omega)]
  cases hc : s.cached n with
  | none =>
    rw [Ext.mem_uncached hc, Disk.block_half _ _ hk, ← hS _ (by omega)]
    apply WriteBack.Request.apply_puts_of_not_mem
    intro data hmem
    obtain ⟨e, he, j, hj, -, hsector, -⟩ := mem_dirtyCache.1 ((mem_updates_block (by omega)).1 hmem)
    have hblock : e.block = n := by omega
    exact absurd (List.find?_eq_none.1 hc e he) (by simp [hblock])
  | some e =>
    have he : e ∈ s.cache := List.mem_of_find?_eq_some hc
    have hblock : e.block = n := Ext.cached_block hc
    -- what is written there is from this slot
    have honly : ∀ data, (n * 2 + k, data) ∈ s.updates → data = half e.data k ∧ e.data.same e.before (k * 512) 512 = false := by
      intro data hmem
      obtain ⟨e', he', j, hj, hdirty, hsector, rfl⟩ := mem_dirtyCache.1 ((mem_updates_block (by omega)).1 hmem)
      have hblock' : e'.block = e.block := by omega
      have hk' : j = k := by omega
      have hslot : e' = e := List.inj_on_of_nodup_map hco.nodup he' he hblock'
      subst hslot hk'
      exact ⟨rfl, hdirty⟩
    rw [Ext.mem_cached hc]
    by_cases hdirty : e.data.same e.before (k * 512) 512 = false
    · refine WriteBack.Request.apply_puts_of_mem ?_ fun data hmem => (honly data hmem).1
      refine (mem_updates_block (by omega)).2 (mem_dirtyCache.2 ⟨e, he, k, hk, hdirty, by rw [hblock], rfl⟩)
    · rw [WriteBack.Request.apply_puts_of_not_mem fun data hmem => hdirty (honly data hmem).2, hS _ (by omega),
        half_eq_of_same (by simpa using hdirty), hco.before e he, hblock, Disk.block_half _ _ hk]

/-- The superblock and the descriptors in use are on the disk. -/
structure Stored (geo : Geometry) (super : Block) (descriptors : Buf 20480) (sectors : Nat → Sector) : Prop where
  low : sectors 2 = half super 0
  high : sectors 3 = half super 1
  desc : ∀ k < geo.descriptorBlocks * 2, sectors (4 + k) = descSector descriptors k

theorem descSector_eq_of_same {a b : Buf 20480} {k : Nat} (h : a.same b (k * 512) 512 = true) : descSector a k = descSector b k := by
  refine Buf.ext_get fun i hi => ?_
  rw [Buf.get_lt _ hi, Buf.get_lt _ hi]
  exact Buf.same_iff.1 h i hi

/-- The metadata that was loaded before the operation and stored is, after the commit, the metadata of the operation. -/
theorem stored_updates {s : Ext} (hclear : s.Clear) {S T : Nat → Sector} (hS : Stored s.vol.geo s.savedSuper s.savedDescriptors S)
    (hlow : T 2 = half s.vol.superblock 0) (hT : ∀ l, 3 ≤ l → T l = WriteBack.Request.apply (WriteBack.Request.puts s.updates) S l) :
    Stored s.vol.geo s.vol.superblock s.vol.descriptors T := by
  refine ⟨hlow, ?_, fun k hk => ?_⟩
  · have honly : ∀ data, (3, data) ∈ s.updates → s.vol.superblock.same s.savedSuper 512 512 = false ∧ data = half s.vol.superblock 1 := by
      intro data hmem
      unfold Ext.updates at hmem
      rw [List.mem_append, List.mem_append, mem_dirtyDesc, mem_dirtySuper] at hmem
      rcases hmem with (h | ⟨j, -, -, hj, -⟩) | ⟨hdirty, -, rfl⟩
      · exact absurd h (not_mem_dirtyCache hclear (by unfold Geometry.first; omega))
      · omega
      · exact ⟨hdirty, rfl⟩
    rw [hT 3 (Nat.le_refl 3)]
    by_cases hdirty : s.vol.superblock.same s.savedSuper 512 512 = false
    · refine WriteBack.Request.apply_puts_of_mem ?_ fun data hmem => (honly data hmem).2
      exact List.mem_append_right _ (mem_dirtySuper.2 ⟨hdirty, rfl, rfl⟩)
    · rw [WriteBack.Request.apply_puts_of_not_mem fun data hmem => hdirty (honly data hmem).1, hS.high]
      exact (half_eq_of_same (k := 1) (by simpa using hdirty)).symm
  · have honly : ∀ data, (4 + k, data) ∈ s.updates → s.vol.descriptors.same s.savedDescriptors (k * 512) 512 = false ∧
        data = descSector s.vol.descriptors k := by
      intro data hmem
      unfold Ext.updates at hmem
      rw [List.mem_append, List.mem_append, mem_dirtyDesc, mem_dirtySuper] at hmem
      rcases hmem with (h | ⟨j, -, hdirty, hj, rfl⟩) | ⟨-, hl, -⟩
      · exact absurd h (not_mem_dirtyCache hclear (by unfold Geometry.first; omega))
      · obtain rfl : k = j := by omega
        exact ⟨hdirty, rfl⟩
      · omega
    rw [hT _ (by omega)]
    by_cases hdirty : s.vol.descriptors.same s.savedDescriptors (k * 512) 512 = false
    · refine WriteBack.Request.apply_puts_of_mem ?_ fun data hmem => (honly data hmem).2
      exact List.mem_append_left _ (List.mem_append_right _ (mem_dirtyDesc.2 ⟨k, hk, hdirty, rfl, rfl⟩))
    · rw [WriteBack.Request.apply_puts_of_not_mem fun data hmem => hdirty (honly data hmem).1, hS.desc k hk]
      exact (descSector_eq_of_same (by simpa using hdirty)).symm

end Barnix.Ext2
