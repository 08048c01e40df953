import Barnix.Ext2.Reading
import Barnix.Ext2.Removal
/-!
# The outcomes of an operation

An operation looks around, and then runs one transaction. It fails and leaves everything as it
was, or it ends in a view of the volume that is committed as a whole, or the device fails on
the way and the volume is unmounted.
-/

namespace Barnix.Ext2

/-! ## Looking around -/

/-- What the next operation sees: the disk, and the loaded metadata. -/
def Ext.stored (s : Ext) : View := ⟨s.disk.block, s.vol, s.cwd, s.hintBlock, s.hintInode⟩

/-- An operation starts with an empty cache. -/
def Ext.fresh (s : Ext) : Ext := { s with cache := [], faults := [] }

theorem Ext.view_fresh (s : Ext) : s.fresh.view = s.stored := by
  unfold view stored
  congr 1

theorem Ext.own_fresh (s : Ext) : s.fresh.Own := fun _ he => absurd he List.not_mem_nil

theorem Ext.coherent_fresh (s : Ext) : s.fresh.Coherent := ⟨List.nodup_nil, fun _ he => absurd he List.not_mem_nil⟩

/-- From `s` to `t`, blocks were loaded and nothing else was done. -/
structure Idle (s t : Ext) : Prop where
  disk : s.disk.Same t.disk
  mounted : t.mounted = true → s.mounted = true
  faults : ∃ fs, t.faults = fs ++ s.faults
  coherent : s.Coherent → t.Coherent
  fine : t.faults = [] → s.vol.Laid → s.Own → t.Own ∧ t.view = s.view

namespace Idle

theorem refl (s : Ext) : Idle s s := ⟨.refl _, id, ⟨[], rfl⟩, id, fun _ _ h => ⟨h, rfl⟩⟩

theorem before {s t : Ext} (h : Idle s t) (ht : t.faults = []) : s.faults = [] := by
  obtain ⟨fs, hfs⟩ := h.faults
  rw [ht] at hfs
  exact (List.append_eq_nil_iff.1 hfs.symm).2

theorem trans {s t u : Ext} (h : Idle s t) (h' : Idle t u) : Idle s u := by
  refine ⟨h.disk.trans h'.disk, h.mounted ∘ h'.mounted, ?_, h'.coherent ∘ h.coherent, fun hu hlaid hown => ?_⟩
  · obtain ⟨fs, hfs⟩ := h.faults
    obtain ⟨fs', hfs'⟩ := h'.faults
    exact ⟨fs' ++ fs, by rw [hfs', hfs, List.append_assoc]⟩
  · obtain ⟨hown', hview⟩ := h.fine (h'.before hu) hlaid hown
    have hvol : t.vol = s.vol := congrArg View.vol hview
    obtain ⟨hown'', hview'⟩ := h'.fine hu (hvol ▸ hlaid) hown'
    exact ⟨hown'', hview'.trans hview⟩

instance : Std.Refl Idle := ⟨refl⟩
instance : IsTrans Ext Idle := ⟨fun _ _ _ => trans⟩

theorem unmount (s : Ext) : Idle s { s with mounted := false } :=
  ⟨.refl _, nofun, ⟨[], rfl⟩, fun h => ⟨h.nodup, h.before⟩, fun _ _ h => ⟨h, rfl⟩⟩

end Idle

/-- A program that looks at things only. -/
theorem idle_perform {α : Type} {x : Prog α} (hx : ∀ v : View, v.vol.Laid → Looks x v) : Moves Idle (perform x) := by
  intro s
  have hkept := kept_perform x s
  refine ⟨hkept.disk, fun h => hkept.mounted ▸ h, hkept.faults, hkept.coherent, fun ht hlaid hown => ?_⟩
  obtain ⟨-, hown', -, hview⟩ := perform_careful hown (hx s.view hlaid (fun _ u => u = s.view) fun _ => rfl) ht
  exact ⟨hown', hview⟩

/-- Its answer, when every block could be loaded. -/
theorem perform_gives {α : Type} {x : Prog α} {s : Ext} (hx : Looks x s.view) (hown : s.Own)
    (hgood : (exec (perform x) s).2.faults = []) : Gives x s.view (exec (perform x) s).1 := by
  obtain ⟨a, hgives, -⟩ := hx.answer (P := fun _ _ => True) (hx _ fun _ => trivial)
  obtain ⟨-, -, -, rfl⟩ := perform_careful hown (hgives (fun b _ => b = a) rfl) hgood
  exact hgives

theorem exec_engineReady (s : Ext) : exec engineReady s = (false, { s with mounted := false }) ∨
    s.mounted = true ∧ exec engineReady s = (true, s) := by
  unfold engineReady
  rw [exec_bind, exec_modify, exec_bind, exec_get]
  dsimp only
  cases hm : s.mounted with
  | false =>
    left
    rw [Bool.false_and, if_neg Bool.false_ne_true, ← hm]
    rfl
  | true =>
    cases hp : s.disk.present with
    | false => exact .inl rfl
    | true =>
      right
      refine ⟨rfl, ?_⟩
      rw [Bool.not_true, Bool.and_false, if_neg Bool.false_ne_true, exec_pure, hm]

/-- `if !(← engineReady) return bad`. -/
theorem exec_ready {α : Type} (bad : α) (x : StateM Ext α) (s : Ext) :
    exec (do if !(← engineReady) then return bad else x) s = (bad, { s with mounted := false }) ∨
    s.mounted = true ∧ exec (do if !(← engineReady) then return bad else x) s = exec x s := by
  rw [exec_bind]
  rcases exec_engineReady s with h | ⟨hm, h⟩
  · left
    rw [h]
    rfl
  · right
    rw [h]
    exact ⟨hm, rfl⟩

theorem idle_ready {α : Type} {bad : α} {x : StateM Ext α} (hx : Moves Idle x) : Moves Idle (do if !(← engineReady) then return bad else x) := by
  intro s
  rcases exec_ready bad x s with h | ⟨-, h⟩
  · rw [h]
    exact .unmount s
  · rw [h]
    exact hx s

theorem idle_whenReady {α : Type} {bad : α} {x : Prog α} (hx : ∀ v : View, v.vol.Laid → Looks x v) : Moves Idle (whenReady bad x) :=
  idle_ready (idle_perform hx)

/-- What a reading operation answers when it does not fail. -/
theorem whenReady_gives {α : Type} {bad : α} {x : Prog α} {s : Ext} (hx : Looks x s.view) (hown : s.Own)
    (hgood : (exec (whenReady bad x) s).2.faults = []) (hne : (exec (whenReady bad x) s).1 ≠ bad) :
    Gives x s.view (exec (whenReady bad x) s).1 := by
  unfold whenReady at hgood hne ⊢
  rcases exec_ready bad (perform x) s with h | ⟨-, h⟩
  · rw [h] at hne
    exact absurd rfl hne
  · rw [h] at hgood ⊢
    exact perform_gives hx hown hgood

theorem idle_catLoop (name : Name) (size rounds offset : Nat) (out : List UInt8) : Moves Idle (catLoop name size rounds offset out) := by
  induction rounds generalizing offset out with
  | zero => exact .pure out
  | succ rounds ih =>
    unfold catLoop
    refine .ite (.pure _) (.bind (idle_whenReady fun _ h => looks_read h _ _ _) fun bytes => ?_)
    cases bytes with
    | none => exact .pure _
    | some bytes => exact .ite (.pure _) (ih _ _)

theorem idle_engineCat (name : Name) : Moves Idle (engineCat name) :=
  .bind (idle_whenReady fun _ h => looks_size h name) fun _ => idle_catLoop _ _ _ _ _

theorem idle_engineGetcwd (capacity : Nat) : Moves Idle (engineGetcwd capacity) :=
  .ite (.pure _) (idle_whenReady fun _ h => looks_getcwd h capacity)

/-! ## Transactions -/

/-- The engine has loaded what is on its disk, and the volume is marked clean. -/
structure Ext.Loaded (s : Ext) : Prop where
  laid : s.vol.Laid
  clean : s.vol.superblock.get16 58 = 1
  stored : Stored s.vol.geo s.vol.superblock s.vol.descriptors s.disk.sectors

/-- `c` is the engine at the end of the body of an operation that began in `s`. -/
structure Ext.Ended (s c : Ext) : Prop where
  disk : s.disk.Same c.disk
  mounted : c.mounted = true
  recounted : s.vol.Recounted c.vol
  cwd : c.cwd = s.cwd
  own : c.Own
  coherent : c.Coherent
  super : c.savedSuper = s.vol.superblock
  descriptors : c.savedDescriptors = s.vol.descriptors

/-- What an operation can come to: `did` relates the view it starts from to the one it ends in. -/
inductive Outcome (did : View → View → Prop) (s : Ext) : Int → Ext → Prop where
  | failed {t : Ext} (hdisk : s.disk.Same t.disk)
      (hstay : t.mounted = true → t.faults = [] → s.mounted = true ∧ t.vol = s.vol ∧ t.cwd = s.cwd) : Outcome did s (-1) t
  | same {c : Ext} (h : s.Ended c) (hdid : did s.stored c.view) (hsame : c.changed = false) : Outcome did s 0 c
  | done {c : Ext} {d : Disk} (h : s.Ended c) (hdid : did s.stored c.view) (hd : Tried c.committing c.disk d true) :
      Outcome did s 0 { c.stamp 1 with disk := d }
  | broken {c : Ext} {d : Disk} {n : Nat} (h : s.Ended c) (hdid : did s.stored c.view) (hd : Tried c.committing c.disk d false) :
      Outcome did s (-1) { c.stamp n with disk := d, mounted := false }

theorem Outcome.mono {did did' : View → View → Prop} {s : Ext} {r : Int} {t : Ext} (hdid : ∀ v u, did v u → did' v u)
    (h : Outcome did s r t) : Outcome did' s r t := by
  cases h with
  | failed hdisk hstay => exact .failed hdisk hstay
  | same h hu hsame => exact .same h (hdid _ _ hu) hsame
  | done h hu hd => exact .done h (hdid _ _ hu) hd
  | broken h hu hd => exact .broken h (hdid _ _ hu) hd

variable {did : View → View → Prop} {s t : Ext}

/-- An operation that has only looked around may stop. -/
theorem Outcome.stop (h : Idle s.fresh t) (hl : s.mounted = true → s.Loaded) : Outcome did s (-1) t := by
  refine .failed h.disk fun hm hf => ?_
  have hsm : s.mounted = true := h.mounted hm
  obtain ⟨-, hview⟩ := h.fine hf (hl hsm).laid s.own_fresh
  exact ⟨hsm, congrArg View.vol hview, congrArg View.cwd hview⟩

/-- A transaction in an operation that has only looked around. -/
theorem outcome_transaction {body : Prog Bool} (hl : s.mounted = true → s.Loaded) (h : Idle s.fresh t)
    (hbody : t.faults = [] → s.mounted = true → body.wp careful (fun ok u => u.cwd = s.cwd ∧ (ok = true → did s.stored u)) s.stored) :
    Outcome did s (exec (transaction body) t).1 (exec (transaction body) t).2 := by
  unfold transaction begin
  rw [exec_bind]
  rcases exec_ready false (do
      if (← get).cacheError then return false
      modify fun s => { s with savedSuper := s.vol.superblock, savedDescriptors := s.vol.descriptors }
      return true) t with hr | ⟨hm, hr⟩
  · rw [hr]
    exact .stop (h.trans (.unmount t)) hl
  rw [hr, exec_bind, exec_get]
  dsimp only
  by_cases herror : t.cacheError = true
  · rw [if_pos herror]
    exact .stop h hl
  have hfaults : t.faults = [] := by
    unfold Ext.cacheError at herror
    simpa using herror
  rw [if_neg herror, exec_bind, exec_modify, exec_pure]
  dsimp only
  rw [Bool.not_true, if_neg Bool.false_ne_true, exec_bind]
  have hsm : s.mounted = true := h.mounted hm
  have hloaded := hl hsm
  obtain ⟨hown, hview⟩ := h.fine hfaults hloaded.laid s.own_fresh
  rw [s.view_fresh] at hview
  have hvol : t.vol = s.vol := congrArg View.vol hview
  -- the engine with its metadata saved
  generalize ht' : ({ t with savedSuper := t.vol.superblock, savedDescriptors := t.vol.descriptors } : Ext) = t'
  have hown' : t'.Own := ht' ▸ hown
  have hview' : t'.view = s.stored := by
    rw [← hview, ← ht']
    rfl
  have hkept := kept_perform body t'
  have hdisk : s.disk.Same (exec (perform body) t').2.disk := h.disk.trans (ht' ▸ hkept.disk : t.disk.Same _)
  have hco : (exec (perform body) t').2.Coherent := by
    apply hkept.coherent
    rw [← ht']
    exact ⟨(h.coherent s.coherent_fresh).nodup, (h.coherent s.coherent_fresh).before⟩
  have hsuper : (exec (perform body) t').2.savedSuper = s.vol.superblock := by
    rw [hkept.super, ← ht', ← hvol]
  have hdesc : (exec (perform body) t').2.savedDescriptors = s.vol.descriptors := by
    rw [hkept.descriptors, ← ht', ← hvol]
  have hgeo : (exec (perform body) t').2.vol.geo = s.vol.geo := by
    rw [hkept.geo, ← ht', ← hvol]
  have hmounted : (exec (perform body) t').2.mounted = true := by
    rw [hkept.mounted, ← ht']
    exact hm
  have hrun : body.wp careful (fun ok u => u.cwd = s.cwd ∧ (ok = true → did s.stored u)) t'.view := by
    rw [hview']
    exact hbody hfaults hsm
  have hend := fun hgood => perform_careful hown' hrun hgood
  have hvol' : t'.vol = s.vol := congrArg View.vol hview'
  rw [hvol'] at hend
  generalize exec (perform body) t' = r at hdisk hco hsuper hdesc hgeo hmounted hend ⊢
  obtain ⟨ok, c⟩ := r
  have hended : c.faults = [] → s.Ended c := fun hgood => by
    obtain ⟨-, hown, hrecounted, hcwd, -⟩ := hend hgood
    exact ⟨hdisk, hmounted, hrecounted, hcwd, hown, hco, hsuper, hdesc⟩
  have hgood : c.cacheError = false → c.faults = [] := fun hc => by
    unfold Ext.cacheError at hc
    simpa using hc
  rcases exec_finish ok c with ⟨-, hf⟩ | ⟨rfl, hc, hsame, hf⟩ | ⟨rfl, hc, -, d, hd, hf⟩ | ⟨rfl, hc, -, d, n, hd, hf⟩
  · rw [hf]
    refine .failed hdisk fun _ hcf => ⟨hsm, ?_, (hended hcf).cwd⟩
    show (⟨c.vol.geo, c.savedSuper, c.savedDescriptors⟩ : Volume) = s.vol
    rw [hgeo, hsuper, hdesc]
  · rw [hf]
    exact .same (hended (hgood hc)) ((hend (hgood hc)).2.2.2.2 rfl) hsame
  · rw [hf]
    exact .done (hended (hgood hc)) ((hend (hgood hc)).2.2.2.2 rfl) hd
  · rw [hf]
    exact .broken (hended (hgood hc)) ((hend (hgood hc)).2.2.2.2 rfl) hd

end Barnix.Ext2
