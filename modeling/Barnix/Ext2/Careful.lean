import Barnix.Ext2.Layout
import Barnix.Ext2.Transaction
/-!
# Within the volume's own blocks

`careful` is `calm` with what keeps a program within the blocks it may touch: it asks for
bitmaps, inode tables and data blocks only, stores contents and records in data blocks
only, and moves none of the metadata.
-/

namespace Barnix.Ext2

/-- What a command needs for that. -/
def Allowed (v : Volume) : Cmd → Prop
  | .block n => v.Owned n
  | .store use p _ _ => ∃ n, p.block = some n ∧ v.Owned n ∧ (use = .content → v.dataBlock n = true)
  | .putSuper k _ => k + 4 ≤ 58
  | .putDesc k _ => ∃ g j, k = g * 32 + j ∧ g < v.geo.groups ∧ 12 ≤ j ∧ j + 2 ≤ 32
  | _ => True

def careful (c : Cmd) (Q : c.Answer → View → Prop) (v : View) : Prop := Allowed v.vol c ∧ calm c Q v

theorem careful_mono (c : Cmd) (P Q : c.Answer → View → Prop) (h : ∀ a v, P a v → Q a v) (v : View) (hp : careful c P v) :
    careful c Q v := hp.imp_right (calm_mono c P Q h v)

theorem calm_of_careful {α : Type} {x : Prog α} {Q : α → View → Prop} {v : View} (h : x.wp careful Q v) : x.wp calm Q v := by
  induction x generalizing v with
  | done a => exact h
  | ask c next ih => exact calm_mono c _ _ (fun a v => ih a) v h.2

/-- A program after another. -/
theorem wp_then {α β : Type} {x : Prog α} {f : α → Prog β} {P : α → View → Prop} {Q : β → View → Prop} {v : View}
    (hx : x.wp careful P v) (hf : ∀ a v', P a v' → (f a).wp careful Q v') : (x >>= f).wp careful Q v := by
  rw [Client.wp_bind]
  exact Client.wp_mono careful_mono hf hx

/-- The loaded metadata differ in counters only. -/
structure Volume.Recounted (v w : Volume) : Prop where
  alike : v.Alike w
  super : ∀ j, 58 ≤ j → w.superblock.get j = v.superblock.get j
  tail : ∀ j, v.geo.groups * 32 ≤ j → w.descriptors.get j = v.descriptors.get j

namespace Volume.Recounted

variable {v w u : Volume}

theorem refl (v : Volume) : v.Recounted v := ⟨.refl v, fun _ _ => rfl, fun _ _ => rfl⟩

theorem trans (h : v.Recounted w) (h' : w.Recounted u) : v.Recounted u := by
  refine ⟨h.alike.trans h'.alike, fun j hj => (h'.super j hj).trans (h.super j hj), fun j hj => ?_⟩
  exact (h'.tail j (h.alike.geo ▸ hj)).trans (h.tail j hj)

theorem putSuper {k : Nat} (hk : k + 4 ≤ 58) (n : Nat) : v.Recounted { v with superblock := v.superblock.put32 k n } :=
  ⟨.putSuper (Nat.le_trans hk (by decide)) n, fun _ hj => Buf.get_put32_ne _ _ (.inr (Nat.le_trans hk hj)), fun _ _ => rfl⟩

theorem putDesc {g k : Nat} (hg : g < v.geo.groups) (hk : 12 ≤ k) (hk' : k + 2 ≤ 32) (n : Nat) :
    v.Recounted { v with descriptors := v.descriptors.put16 (g * 32 + k) n } :=
  ⟨.putDesc hk hk' n, fun _ _ => rfl, fun _ hj => Buf.get_put16_ne _ _ (by omega)⟩

end Volume.Recounted

/-- Nothing allowed moves the metadata. -/
theorem recounted_of_allowed {c : Cmd} {v : Volume} (h : Allowed v c) (s : Ext) (hs : s.vol = v) :
    v.Recounted (exec (serve c) s).2.vol := by
  subst hs
  cases c with
  | block n =>
    rcases cacheBlock_cases n s with ⟨he, -⟩ | ⟨f, d, he, -⟩ | ⟨d, he, -⟩
    · rw [show exec (serve (.block n)) s = _ from he]
      exact .refl _
    · rw [show exec (serve (.block n)) s = _ from he]
      exact .refl _
    · rw [show exec (serve (.block n)) s = _ from he]
      exact .refl _
  | store use p len f =>
    rw [exec_store]
    unfold Ext.change
    split <;> exact .refl _
  | putSuper k n => exact .putSuper h n
  | putDesc k n =>
    obtain ⟨g, j, rfl, hg, hj, hj'⟩ := h
    exact .putDesc hg hj hj' n
  | setHint b g => cases b <;> exact .refl _
  | load p len => exact .refl _
  | volume => exact .refl _
  | cwd => exact .refl _
  | chdir n => exact .refl _
  | cacheError => exact .refl _
  | hint b => exact .refl _
  | null => exact .refl _

theorem allowed_alike {v w : Volume} (h : v.Alike w) {c : Cmd} (hc : Allowed w c) : Allowed v c := by
  cases c with
  | block n => exact h.owned.2 hc
  | store use p len f =>
    obtain ⟨n, hp, howned, hdata⟩ := hc
    exact ⟨n, hp, h.owned.2 howned, fun hu => (h.dataBlock n).trans (hdata hu)⟩
  | putSuper k n => exact hc
  | putDesc k n =>
    obtain ⟨g, j, hk, hg, hj⟩ := hc
    exact ⟨g, j, hk, h.geo ▸ hg, hj⟩
  | load p len => trivial
  | volume => trivial
  | cwd => trivial
  | chdir n => trivial
  | cacheError => trivial
  | hint b => trivial
  | setHint b g => trivial
  | null => trivial

/-- A slot of the cache after a command was there, or is for a block the command may touch. -/
theorem cache_serve {c : Cmd} {s : Ext} {e : Slot} (he : e ∈ (exec (serve c) s).2.cache) (hc : Allowed s.vol c) :
    e.block ∈ s.cache.map Slot.block ∨ s.vol.Owned e.block := by
  have hold : ∀ {e : Slot}, e ∈ s.cache → e.block ∈ s.cache.map Slot.block ∨ s.vol.Owned e.block := fun h => .inl (List.mem_map_of_mem h)
  cases c with
  | block n =>
    rcases cacheBlock_cases n s with ⟨h, -⟩ | ⟨f, d, h, -⟩ | ⟨d, h, -⟩
    · rw [show exec (serve (.block n)) s = _ from h] at he
      exact hold he
    · rw [show exec (serve (.block n)) s = _ from h] at he
      exact hold he
    · rw [show exec (serve (.block n)) s = _ from h] at he
      rcases List.mem_append.1 he with he | he
      · exact hold he
      · rw [List.mem_singleton.1 he]
        exact .inr hc
  | store use p len f =>
    obtain ⟨n, hp, howned, -⟩ := hc
    rw [exec_store] at he
    unfold Ext.change at he
    rw [hp] at he
    dsimp only at he
    split at he
    · obtain ⟨e', he', rfl⟩ := List.mem_map.1 he
      have hmem := List.mem_map_of_mem (f := Slot.block) he'
      left
      split
      · exact hmem
      · exact hmem
    · rcases List.mem_append.1 he with he | he
      · exact hold he
      · rw [List.mem_singleton.1 he]
        exact .inr howned
  | setHint b g => cases b <;> exact hold he
  | load p len => exact hold he
  | volume => exact hold he
  | putSuper k n => exact hold he
  | putDesc k n => exact hold he
  | cwd => exact hold he
  | chdir n => exact hold he
  | cacheError => exact hold he
  | hint b => exact hold he
  | null => exact hold he

/-- The cache holds nothing but the volume's own blocks. -/
def Ext.Own (s : Ext) : Prop := ∀ e ∈ s.cache, s.vol.Owned e.block

/-- A careful program whose blocks were all loaded gave allowed commands only, and left nothing but the volume's
own blocks in the cache. -/
theorem perform_careful {α : Type} {x : Prog α} {Q : α → View → Prop} {s : Ext} (hown : s.Own) (hx : x.wp careful Q s.view)
    (hgood : (exec (perform x) s).2.faults = []) :
    (∀ c ∈ x.history serve s, Allowed s.vol c) ∧ (exec (perform x) s).2.Own ∧ s.vol.Recounted (exec (perform x) s).2.vol ∧
      Q (exec (perform x) s).1 (exec (perform x) s).2.view := by
  have hrun := @Client.wp_good_sound Cmd Cmd.Answer Ext View α careful serve
    (fun t v => v = t.view ∧ s.vol.Recounted t.vol ∧ t.Own) (fun t => t.faults = []) (Allowed s.vol) (fun c t hend => ?_)
    (fun c Q t v hrel hrule hend => ?_) x Q s _ ⟨rfl, .refl _, hown⟩ hx hgood
  · obtain ⟨hhistory, v', ⟨rfl, halike, hown'⟩, hq⟩ := hrun
    exact ⟨hhistory, hown', halike, hq⟩
  · obtain ⟨fs, hfs⟩ := (kept_perform (Client.give c) t).faults
    rw [show exec (perform (Client.give c)) t = exec (serve c) t from congrArg (exec · t) (Client.run_give serve c), hend] at hfs
    exact (List.append_eq_nil_iff.1 hfs.symm).2
  · obtain ⟨rfl, halike, hown'⟩ := hrel
    obtain ⟨hallowed, hcalm⟩ := hrule
    have hgive : exec (perform (Client.give c)) t = exec (serve c) t := congrArg (exec · t) (Client.run_give serve c)
    have hq := @perform_calm _ (Client.give c) Q t hcalm (hgive.symm ▸ hend)
    rw [hgive] at hq
    have halike' := recounted_of_allowed hallowed t rfl
    refine ⟨allowed_alike halike.alike hallowed, _, ⟨rfl, halike.trans halike', fun e he => ?_⟩, hq⟩
    rw [← halike'.alike.owned]
    rcases cache_serve he hallowed with hold | howned
    · obtain ⟨e', he', hblock⟩ := List.mem_map.1 hold
      rw [← hblock]
      exact hown' e' he'
    · exact howned

/-! ## The commands -/

section
variable {α : Type} (v : View) (b off k : Nat)

theorem careful_ite {c : Prop} [Decidable c] (x y : Prog α) (Q : α → View → Prop) :
    (if c then x else y).wp careful Q v = if c then x.wp careful Q v else y.wp careful Q v := by
  split <;> rfl

@[simp] theorem careful_block (n : Nat) (Q : Ptr → View → Prop) :
    (block n).wp careful Q v = (v.vol.Owned n ∧ Q ⟨some n, 0⟩ v) := rfl

@[simp] theorem careful_load (len : Nat) (Q : Buf len → View → Prop) :
    (load ⟨some b, off⟩ len).wp careful Q v = Q ((v.mem b).window off len) v := true_and _

@[simp] theorem careful_store (use : Use) (len : Nat) (f : Buf len → Buf len) (Q : Unit → View → Prop) :
    (store use ⟨some b, off⟩ len f).wp careful Q v =
      ((v.vol.Owned b ∧ (use = .content → v.vol.dataBlock b = true)) ∧ Q () (v.set b ((v.mem b).edit off len f))) := by
  have hallowed : Allowed v.vol (.store use ⟨some b, off⟩ len f) ↔ v.vol.Owned b ∧ (use = .content → v.vol.dataBlock b = true) := by
    constructor
    · rintro ⟨n, hn, hrest⟩
      obtain rfl := Option.some.inj hn
      exact hrest
    · exact fun h => ⟨b, rfl, h⟩
  exact propext (and_congr_left' hallowed)

@[simp] theorem careful_volume (Q : Volume → View → Prop) : volume.wp careful Q v = Q v.vol v := true_and _

@[simp] theorem careful_putSuper (n : Nat) (Q : Unit → View → Prop) : (putSuper k n).wp careful Q v =
    (k + 4 ≤ 58 ∧ Q () { v with vol := { v.vol with superblock := v.vol.superblock.put32 k n } }) := rfl

@[simp] theorem careful_putDesc (n : Nat) (Q : Unit → View → Prop) : (putDesc k n).wp careful Q v =
    ((∃ g j, k = g * 32 + j ∧ g < v.vol.geo.groups ∧ 12 ≤ j ∧ j + 2 ≤ 32) ∧
      Q () { v with vol := { v.vol with descriptors := v.vol.descriptors.put16 k n } }) := rfl

@[simp] theorem careful_workingDir (Q : Nat → View → Prop) : workingDir.wp careful Q v = Q v.cwd v := true_and _

@[simp] theorem careful_chdir (n : Nat) (Q : Unit → View → Prop) : (chdir n).wp careful Q v = Q () { v with cwd := n } :=
  true_and _

@[simp] theorem careful_cacheError (Q : Bool → View → Prop) : cacheError.wp careful Q v = Q false v := true_and _

@[simp] theorem careful_hint (isInode : Bool) (Q : Nat → View → Prop) :
    (hint isInode).wp careful Q v = Q (if isInode then v.hintInode else v.hintBlock) v := true_and _

@[simp] theorem careful_setHint (isInode : Bool) (g : Nat) (Q : Unit → View → Prop) : (setHint isInode g).wp careful Q v =
    Q () (if isInode then { v with hintInode := g } else { v with hintBlock := g }) := true_and _

@[simp] theorem careful_deref (p : Ptr) (Q : Ptr → View → Prop) : (deref (some p)).wp careful Q v = Q p v := rfl

@[simp] theorem careful_rd16 (Q : Nat → View → Prop) :
    (rd16 ⟨some b, off⟩ k).wp careful Q v = Q ((v.mem b).get16 (off + k)) v := by
  unfold rd16
  simp

@[simp] theorem careful_rd32 (Q : Nat → View → Prop) :
    (rd32 ⟨some b, off⟩ k).wp careful Q v = Q ((v.mem b).get32 (off + k)) v := by
  unfold rd32
  simp

@[simp] theorem careful_wr16 (use : Use) (n : Nat) (Q : Unit → View → Prop) : (wr16 use ⟨some b, off⟩ k n).wp careful Q v =
    ((v.vol.Owned b ∧ (use = .content → v.vol.dataBlock b = true)) ∧ Q () (v.set b ((v.mem b).put16 (off + k) n))) := by
  unfold wr16
  simp

@[simp] theorem careful_wr32 (use : Use) (n : Nat) (Q : Unit → View → Prop) : (wr32 use ⟨some b, off⟩ k n).wp careful Q v =
    ((v.vol.Owned b ∧ (use = .content → v.vol.dataBlock b = true)) ∧ Q () (v.set b ((v.mem b).put32 (off + k) n))) := by
  unfold wr32
  simp

@[simp] theorem careful_bit (Q : Bool → View → Prop) : (bit ⟨some b, 0⟩ k).wp careful Q v = Q ((v.mem b).bit k) v := by
  unfold bit
  simp

@[simp] theorem careful_setbit (used : Bool) (Q : Unit → View → Prop) : (setbit ⟨some b, 0⟩ k used).wp careful Q v =
    (v.vol.Owned b ∧ Q () (v.set b ((v.mem b).setbit k used))) := by
  unfold setbit
  simp

end

end Barnix.Ext2
