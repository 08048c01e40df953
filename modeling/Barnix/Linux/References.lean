import Barnix.Lib.Fibers
import Barnix.Linux.Tasks
import Mathlib.Data.List.FinRange
/-!
# Reference counts

A description counts the descriptors that refer to it, a pipe counts the live
descriptions of its two ends, and what is counted is never given away again.
-/

namespace Barnix.Linux

/-! ## The counts -/

/-- The pipe end that a referenced description is; true for the write end. -/
def OpenFile.ending (f : OpenFile) : Option (PipeId × Bool) :=
  if f.refs = 0 then none else f.pipe.map fun p => (p, f.flags &&& oAccmode != 0)

namespace Tables

/-- The descriptors of all tasks. -/
def slots (t : Tables) (i : Slot × Fd) : Option Description := t.taskFiles i.1 i.2

def ends (t : Tables) (d : Description) : Option (PipeId × Bool) := (t.descriptions d).ending

/-- Every count is right, and the live descriptions of pipes are read or write ends. -/
structure Counted (t : Tables) : Prop where
  refs : ∀ d, (t.descriptions d).refs = (fiber t.slots d).card
  readers : ∀ p, (t.pipes p).readers = (fiber t.ends (p, false)).card
  writers : ∀ p, (t.pipes p).writers = (fiber t.ends (p, true)).card
  modes : ∀ d, (t.descriptions d).pipe.isSome → (t.descriptions d).refs ≠ 0 →
    (t.descriptions d).flags &&& oAccmode = 0 ∨ (t.descriptions d).flags &&& oAccmode = oWronly

/-! ## Changes at one place -/

theorem slots_setFd (t : Tables) (slot : Slot) (fd : Fd) (file : Option Description) (flags : Nat) :
    (t.setFd slot fd file flags).slots = Function.update t.slots (slot, fd) file := by
  funext ⟨s, f⟩
  unfold slots setFd
  by_cases hs : s = slot
  · subst hs
    by_cases hf : f = fd
    · subst hf
      simp
    · simp [hf]
  · simp [hs]

theorem ends_setDescription (t : Tables) (d : Description) (file : OpenFile) :
    (t.setDescription d file).ends = Function.update t.ends d file.ending := by
  funext d'
  unfold ends setDescription
  by_cases h : d' = d
  · subst h
    simp
  · simp [h]

@[simp] theorem descriptions_setFd (t : Tables) (slot : Slot) (fd : Fd) (file : Option Description) (flags : Nat) :
    (t.setFd slot fd file flags).descriptions = t.descriptions := rfl

@[simp] theorem pipes_setFd (t : Tables) (slot : Slot) (fd : Fd) (file : Option Description) (flags : Nat) :
    (t.setFd slot fd file flags).pipes = t.pipes := rfl

@[simp] theorem ends_setFd (t : Tables) (slot : Slot) (fd : Fd) (file : Option Description) (flags : Nat) :
    (t.setFd slot fd file flags).ends = t.ends := rfl

@[simp] theorem slots_setDescription (t : Tables) (d : Description) (file : OpenFile) :
    (t.setDescription d file).slots = t.slots := rfl

@[simp] theorem pipes_setDescription (t : Tables) (d : Description) (file : OpenFile) :
    (t.setDescription d file).pipes = t.pipes := rfl

theorem descriptions_setDescription (t : Tables) (d : Description) (file : OpenFile) :
    (t.setDescription d file).descriptions = Function.update t.descriptions d file := rfl

@[simp] theorem slots_setPipe (t : Tables) (p : PipeId) (pipe : Pipe) : (t.setPipe p pipe).slots = t.slots := rfl

@[simp] theorem ends_setPipe (t : Tables) (p : PipeId) (pipe : Pipe) : (t.setPipe p pipe).ends = t.ends := rfl

@[simp] theorem descriptions_setPipe (t : Tables) (p : PipeId) (pipe : Pipe) :
    (t.setPipe p pipe).descriptions = t.descriptions := rfl

/-- What an open descriptor refers to is referenced. -/
theorem Counted.refs_pos {t : Tables} (h : t.Counted) {slot : Slot} {fd : Fd} {d : Description}
    (hd : t.taskFiles slot fd = some d) : 0 < (t.descriptions d).refs := by
  rw [h.refs d]
  exact card_fiber_pos.2 ⟨(slot, fd), hd⟩

/-- A description without references is nobody's. -/
theorem Counted.unused {t : Tables} (h : t.Counted) {d : Description} (hd : (t.descriptions d).refs = 0) (slot : Slot) (fd : Fd) :
    t.taskFiles slot fd ≠ some d := by
  rw [h.refs d] at hd
  exact card_fiber_eq_zero.1 hd (slot, fd)

theorem ending_eq_of_refs {f : OpenFile} (h : f.refs ≠ 0) {n : Nat} (hn : n ≠ 0) : ({ f with refs := n } : OpenFile).ending = f.ending := by
  unfold OpenFile.ending
  rw [if_neg hn, if_neg h]

/-- A free descriptor comes to refer to an open description. -/
theorem Counted.gain {t : Tables} (h : t.Counted) {slot : Slot} {fd : Fd} {d : Description} (hfree : t.taskFiles slot fd = none)
    (hd : (t.descriptions d).refs ≠ 0) (flags : Nat) :
    ((t.setFd slot fd (some d) flags).setDescription d { t.descriptions d with refs := (t.descriptions d).refs + 1 }).Counted := by
  have hends : ((t.setFd slot fd (some d) flags).setDescription d
      { t.descriptions d with refs := (t.descriptions d).refs + 1 }).ends = t.ends := by
    rw [ends_setDescription, ends_setFd, ending_eq_of_refs hd (Nat.succ_ne_zero _)]
    exact Function.update_eq_self d t.ends
  refine ⟨fun d' => ?_, fun p => ?_, fun p => ?_, fun d' => ?_⟩
  · rw [slots_setDescription, slots_setFd]
    have hold : t.slots (slot, fd) = none := hfree
    have hcard := card_fiber_set hold (some d) d'
    have hrefs := h.refs d'
    rw [descriptions_setDescription]
    by_cases hdd : d' = d
    · subst hdd
      rw [if_pos rfl] at hcard
      rw [Function.update_self]
      dsimp only
      omega
    · rw [if_neg (by simpa using Ne.symm hdd)] at hcard
      rw [Function.update_of_ne hdd, descriptions_setFd]
      omega
  · rw [hends]
    exact h.readers p
  · rw [hends]
    exact h.writers p
  · rw [descriptions_setDescription]
    by_cases hdd : d' = d
    · subst hdd
      rw [Function.update_self]
      exact fun hp _ => h.modes d' hp hd
    · rw [Function.update_of_ne hdd]
      exact h.modes d'

/-- The count of a pipe's readers or writers after one of its ends is gone. -/
theorem Pipe.drop_counts (pipe : Pipe) (flags : Nat) :
    (Pipe.drop pipe flags).readers = pipe.readers - (if flags &&& oAccmode = 0 then 1 else 0) ∧
    (Pipe.drop pipe flags).writers = pipe.writers - (if flags &&& oAccmode = 0 then 0 else 1) := by
  unfold Pipe.drop
  by_cases h : flags &&& oAccmode = 0
  · rw [if_neg (by simpa using h), if_pos h, if_pos h]
    exact ⟨rfl, rfl⟩
  · rw [if_pos h, if_neg h, if_neg h]
    exact ⟨rfl, rfl⟩

@[simp] theorem slots_release (t : Tables) (d : Description) : (t.release d).slots = t.slots := by
  unfold release
  dsimp only
  split
  · split <;> rfl
  · rfl

theorem descriptions_release (t : Tables) (d : Description) : (t.release d).descriptions =
    Function.update t.descriptions d { t.descriptions d with refs := (t.descriptions d).refs - 1 } := by
  unfold release
  dsimp only
  split
  · split <;> rfl
  · rfl

theorem ends_release (t : Tables) (d : Description) : (t.release d).ends =
    Function.update t.ends d ({ t.descriptions d with refs := (t.descriptions d).refs - 1 } : OpenFile).ending := by
  rw [← ends_setDescription]
  unfold ends
  rw [descriptions_release]
  rfl

/-- The pipes after a release: one reader or writer less, with the last reference. -/
theorem pipes_release (t : Tables) (d : Description) (p : PipeId) :
    (t.release d).pipes p =
      if (t.descriptions d).refs - 1 = 0 ∧ (t.descriptions d).pipe = some p then Pipe.drop (t.pipes p) (t.descriptions d).flags
      else t.pipes p := by
  unfold release
  dsimp only
  by_cases hlast : (t.descriptions d).refs - 1 = 0
  · rw [if_pos hlast]
    cases hp : (t.descriptions d).pipe with
    | none =>
      rw [if_neg (by simp)]
      rfl
    | some q =>
      unfold setPipe
      dsimp only
      by_cases hq : p = q
      · subst hq
        rw [Function.update_self, if_pos ⟨hlast, rfl⟩]
        rfl
      · rw [Function.update_of_ne hq, if_neg (by simpa [hlast] using Ne.symm hq)]
        rfl
  · rw [if_neg hlast, if_neg (fun h => hlast h.1)]
    rfl

/-- The ends of the pipes are counted right after a release. -/
theorem Counted.release_ends {t : Tables} (h : t.Counted) {d : Description} (hpos : 0 < (t.descriptions d).refs) (p : PipeId) :
    ((t.release d).pipes p).readers = (fiber (t.release d).ends (p, false)).card ∧
    ((t.release d).pipes p).writers = (fiber (t.release d).ends (p, true)).card := by
  have hreaders := h.readers p
  have hwriters := h.writers p
  rw [ends_release, pipes_release]
  by_cases hlast : (t.descriptions d).refs - 1 = 0
  · -- the last reference: the end of the pipe goes too
    have hnone : ({ t.descriptions d with refs := (t.descriptions d).refs - 1 } : OpenFile).ending = none := by
      unfold OpenFile.ending
      exact if_pos hlast
    have hend : t.ends d = (t.descriptions d).pipe.map fun p => (p, (t.descriptions d).flags &&& oAccmode != 0) := by
      unfold ends OpenFile.ending
      exact if_neg (by omega)
    have hr := card_fiber_clear t.ends d (p, false)
    have hw := card_fiber_clear t.ends d (p, true)
    rw [hend] at hr hw
    rw [hnone]
    by_cases hp : (t.descriptions d).pipe = some p
    · obtain ⟨h1, h2⟩ := Pipe.drop_counts (t.pipes p) (t.descriptions d).flags
      rw [if_pos ⟨hlast, hp⟩, h1, h2]
      rw [hp] at hr hw
      by_cases hm : (t.descriptions d).flags &&& oAccmode = 0
      · simp only [Option.map_some, Option.some.injEq, Prod.mk.injEq, true_and, bne_eq_false_iff_eq, hm,
          bne_iff_ne, ne_eq, not_true_eq_false, if_true, if_false] at hr hw ⊢
        omega
      · simp only [Option.map_some, Option.some.injEq, Prod.mk.injEq, true_and, bne_eq_false_iff_eq, hm,
          bne_iff_ne, ne_eq, not_false_eq_true, if_true, if_false] at hr hw ⊢
        omega
    · have hother : ∀ w, (t.descriptions d).pipe.map (fun p => (p, (t.descriptions d).flags &&& oAccmode != 0)) ≠ some (p, w) := by
        intro w hw
        obtain ⟨q, hq, he⟩ := Option.map_eq_some_iff.1 hw
        cases he
        exact hp hq
      rw [if_neg (hother false), Nat.add_zero] at hr
      rw [if_neg (hother true), Nat.add_zero] at hw
      rw [if_neg (fun hc => hp hc.2)]
      exact ⟨hreaders.trans hr.symm, hwriters.trans hw.symm⟩
  · have hsame : ({ t.descriptions d with refs := (t.descriptions d).refs - 1 } : OpenFile).ending = t.ends d :=
      ending_eq_of_refs (by omega) hlast
    rw [hsame, Function.update_eq_self, if_neg (fun hc => hlast hc.1)]
    exact ⟨hreaders, hwriters⟩

/-- One descriptor less. -/
theorem Counted.lose {t : Tables} (h : t.Counted) {slot : Slot} {fd : Fd} {d : Description} (hd : t.taskFiles slot fd = some d) :
    ((t.release d).setFd slot fd none 0).Counted := by
  have hpos := h.refs_pos hd
  refine ⟨fun d' => ?_, fun p => (h.release_ends hpos p).1, fun p => (h.release_ends hpos p).2, fun d' => ?_⟩
  · rw [slots_setFd, slots_release, descriptions_setFd, descriptions_release]
    have hcard := card_fiber_clear t.slots (slot, fd) d'
    have hold : t.slots (slot, fd) = some d := hd
    have := h.refs d'
    rw [hold] at hcard
    by_cases hdd : d' = d
    · subst hdd
      rw [if_pos rfl] at hcard
      rw [Function.update_self]
      dsimp only
      omega
    · rw [if_neg (by simpa using Ne.symm hdd)] at hcard
      rw [Function.update_of_ne hdd]
      omega
  · rw [descriptions_setFd, descriptions_release]
    by_cases hdd : d' = d
    · subst hdd
      rw [Function.update_self]
      exact fun hp hne => h.modes d' hp (by omega)
    · rw [Function.update_of_ne hdd]
      exact h.modes d'

theorem Counted.closeFd {t : Tables} (h : t.Counted) (slot : Slot) (fd : Fd) : (t.closeFd slot fd).Counted := by
  unfold Tables.closeFd
  split
  · exact h
  · rename_i d hd
    exact h.lose hd

/-- A fresh description at a free descriptor. -/
theorem Counted.fresh {t : Tables} (h : t.Counted) {slot : Slot} {fd : Fd} {d : Description} (hfree : t.taskFiles slot fd = none)
    (hd : (t.descriptions d).refs = 0) {file : OpenFile} (hrefs : file.refs = 1) (hpipe : file.pipe = none) (flags : Nat) :
    ((t.setDescription d file).setFd slot fd (some d) flags).Counted := by
  have hends : (t.setDescription d file).ends = t.ends := by
    have hold : t.ends d = none := if_pos hd
    have hnew : file.ending = none := by
      unfold OpenFile.ending
      rw [hpipe, Option.map_none, ite_self]
    rw [ends_setDescription, hnew, ← hold, Function.update_eq_self]
  refine ⟨fun d' => ?_, fun p => ?_, fun p => ?_, fun d' => ?_⟩
  · rw [slots_setFd, slots_setDescription, descriptions_setFd, descriptions_setDescription]
    have hold : t.slots (slot, fd) = none := hfree
    have hcard := card_fiber_set hold (some d) d'
    have := h.refs d'
    by_cases hdd : d' = d
    · subst hdd
      rw [if_pos rfl] at hcard
      rw [Function.update_self]
      omega
    · rw [if_neg (by simpa using Ne.symm hdd)] at hcard
      rw [Function.update_of_ne hdd]
      omega
  · rw [ends_setFd, hends]
    exact h.readers p
  · rw [ends_setFd, hends]
    exact h.writers p
  · rw [descriptions_setFd, descriptions_setDescription]
    by_cases hdd : d' = d
    · subst hdd
      rw [Function.update_self, hpipe]
      exact nofun
    · rw [Function.update_of_ne hdd]
      exact h.modes d'

theorem mem_two {α : Type} {l : List α} {a b : α} (h : two l = some (a, b)) (hn : l.Nodup) : a ∈ l ∧ b ∈ l ∧ a ≠ b := by
  cases l with
  | nil => cases h
  | cons x l =>
    cases l with
    | nil => cases h
    | cons y l =>
      cases h
      exact ⟨by simp, by simp, fun he => by simp [he] at hn⟩

theorem within_modes (flags : Nat) : (0 ||| (flags &&& oNonblock)) &&& oAccmode = 0 ∧
    (oWronly ||| (flags &&& oNonblock)) &&& oAccmode = oWronly := by
  have h : flags &&& oNonblock &&& oAccmode = 0 := by
    rw [Nat.and_assoc, show oNonblock &&& oAccmode = 0 from rfl, Nat.and_zero]
  constructor
  · rw [Nat.zero_or, h]
  · rw [Nat.and_or_distrib_right, h, Nat.or_zero]
    rfl

/-- What `create_pipe` finds: two free descriptors, two free descriptions and a pipe
that nobody uses. -/
theorem createPipe_cases {t t' : Tables} {flags : Nat} {fd₀ fd₁ : Fd} (h : t.createPipe flags = .ok (fd₀, fd₁, t')) :
    ∃ d₀ d₁ p, t.file fd₀ = none ∧ t.file fd₁ = none ∧ fd₀ ≠ fd₁ ∧ (t.descriptions d₀).refs = 0 ∧
      (t.descriptions d₁).refs = 0 ∧ d₀ ≠ d₁ ∧ (t.pipes p).readers = 0 ∧ (t.pipes p).writers = 0 ∧
      t' = ((t.newPipe p).openEnd fd₀ d₀ p 0 flags).openEnd
        fd₁ d₁ p oWronly flags := by
  unfold createPipe at h
  split at h
  · cases h
  rename_i fds hfds
  split at h
  · cases h
  rename_i ds hds
  split at h
  · cases h
  rename_i p hp
  cases h
  obtain ⟨h1, h2, h3⟩ := mem_two hfds ((List.nodup_finRange 16).filter _)
  obtain ⟨h4, h5, h6⟩ := mem_two hds ((List.nodup_finRange 48).filter _)
  have h7 := List.find?_some hp
  simp only [List.mem_filter, List.mem_finRange, true_and, Option.isNone_iff_eq_none, beq_iff_eq] at h1 h2 h4 h5
  simp only [Bool.and_eq_true, beq_iff_eq] at h7
  exact ⟨_, _, _, h1, h2, h3, h4, h5, h6, h7.1, h7.2, rfl⟩

theorem Counted.createPipe {t t' : Tables} (h : t.Counted) {flags : Nat} {fd₀ fd₁ : Fd}
    (hok : t.createPipe flags = .ok (fd₀, fd₁, t')) : t'.Counted := by
  obtain ⟨d₀, d₁, p, hf₀, hf₁, hf, hd₀, hd₁, hd, hr, hw, rfl⟩ := createPipe_cases hok
  obtain ⟨hmode₀, hmode₁⟩ := within_modes flags
  generalize hnew : ((t.newPipe p).openEnd fd₀ d₀ p 0 flags).openEnd
    fd₁ d₁ p oWronly flags = t'
  have hslots : t'.slots = Function.update (Function.update t.slots (t.fileTask, fd₀) (some d₀)) (t.fileTask, fd₁) (some d₁) := by
    rw [← hnew, openEnd, slots_setFd, slots_setDescription, openEnd, slots_setFd, slots_setDescription]
    rfl
  have hends : t'.ends = Function.update (Function.update t.ends d₀ (some (p, false))) d₁ (some (p, true)) := by
    rw [← hnew, openEnd, ends_setFd, ends_setDescription, openEnd, ends_setFd, ends_setDescription]
    unfold OpenFile.ending
    dsimp only
    rw [hmode₀, hmode₁]
    rfl
  have hdesc : t'.descriptions = Function.update (Function.update t.descriptions d₀
      { (default : OpenFile) with refs := 1, pipe := some p, flags := 0 ||| (flags &&& oNonblock) }) d₁
      { (default : OpenFile) with refs := 1, pipe := some p, flags := oWronly ||| (flags &&& oNonblock) } := by
    rw [← hnew]
    rfl
  have hpipes : t'.pipes = Function.update t.pipes p { t.pipes p with head := 0, used := 0, readers := 1, writers := 1 } := by
    rw [← hnew]
    rfl
  have hends₁ : Function.update t.ends d₀ (some (p, false)) d₁ = none := by
    rw [Function.update_of_ne (Ne.symm hd)]
    exact if_pos hd₁
  have hslots₁ : Function.update t.slots (t.fileTask, fd₀) (some d₀) (t.fileTask, fd₁) = none := by
    rw [Function.update_of_ne (by simpa using Ne.symm hf)]
    exact hf₁
  have hcount : ∀ e, (fiber t'.ends e).card = (fiber t.ends e).card + (if (p, false) = e then 1 else 0) + (if (p, true) = e then 1 else 0) := by
    intro e
    rw [hends, card_fiber_set hends₁, card_fiber_set (show t.ends d₀ = none from if_pos hd₀)]
    simp only [Option.some.injEq]
  refine ⟨fun d => ?_, fun q => ?_, fun q => ?_, fun d => ?_⟩
  · rw [hslots, card_fiber_set hslots₁, card_fiber_set (show t.slots (t.fileTask, fd₀) = none from hf₀), hdesc]
    have := h.refs d
    by_cases h1 : d = d₁
    · subst h1
      rw [Function.update_self, if_pos rfl, if_neg (by simpa using hd)]
      dsimp only
      omega
    · have hne : ¬some d₁ = some d := by simpa using Ne.symm h1
      rw [Function.update_of_ne h1, if_neg hne]
      by_cases h0 : d = d₀
      · subst h0
        rw [Function.update_self, if_pos rfl]
        dsimp only
        omega
      · rw [Function.update_of_ne h0, if_neg (by simpa using Ne.symm h0)]
        omega
  · rw [hcount, hpipes]
    have := h.readers q
    by_cases hq : q = p
    · subst hq
      rw [Function.update_self, if_pos rfl, if_neg (by simp)]
      dsimp only
      omega
    · rw [Function.update_of_ne hq, if_neg (by simpa using Ne.symm hq), if_neg (by simp)]
      exact this
  · rw [hcount, hpipes]
    have := h.writers q
    by_cases hq : q = p
    · subst hq
      rw [Function.update_self, if_pos rfl, if_neg (by simp)]
      dsimp only
      omega
    · rw [Function.update_of_ne hq, if_neg (by simp), if_neg (by simpa using Ne.symm hq)]
      exact this
  · rw [hdesc]
    by_cases h1 : d = d₁
    · subst h1
      rw [Function.update_self]
      exact fun _ _ => .inr hmode₁
    · rw [Function.update_of_ne h1]
      by_cases h0 : d = d₀
      · subst h0
        rw [Function.update_self]
        exact fun _ _ => .inl hmode₀
      · rw [Function.update_of_ne h0]
        exact h.modes d

/-! ## Changes that keep every reference -/

end Tables

/-- What a description is, whatever its position and its other flags are. -/
def OpenFile.identity (f : OpenFile) : Bool × Bool × Option PipeId × Name × Nat :=
  (f.terminal, f.directory, f.pipe, f.name, f.flags &&& oAccmode)

namespace Tables

/-- No reference comes or goes, and every description stays what it is. -/
structure Steady (t t' : Tables) : Prop where
  files : t'.taskFiles = t.taskFiles
  fileTask : t'.fileTask = t.fileTask
  refs : ∀ d, (t'.descriptions d).refs = (t.descriptions d).refs
  identity : ∀ d, (t'.descriptions d).identity = (t.descriptions d).identity
  readers : ∀ p, (t'.pipes p).readers = (t.pipes p).readers
  writers : ∀ p, (t'.pipes p).writers = (t.pipes p).writers

instance : Std.Refl Steady := ⟨fun _ => ⟨rfl, rfl, fun _ => rfl, fun _ => rfl, fun _ => rfl, fun _ => rfl⟩⟩

instance : IsTrans Tables Steady := ⟨fun _ _ _ h h' => ⟨h'.1.trans h.1, h'.2.trans h.2, fun d => (h'.3 d).trans (h.3 d),
  fun d => (h'.4 d).trans (h.4 d), fun p => (h'.5 p).trans (h.5 p), fun p => (h'.6 p).trans (h.6 p)⟩⟩

theorem Steady.ends {t t' : Tables} (h : Steady t t') : t'.ends = t.ends := by
  funext d
  have hi := h.identity d
  unfold OpenFile.identity at hi
  simp only [Prod.mk.injEq] at hi
  unfold Tables.ends OpenFile.ending
  rw [h.refs d, hi.2.2.1, hi.2.2.2.2]

theorem Counted.steady {t t' : Tables} (h : t.Counted) (hs : Steady t t') : t'.Counted := by
  have hslots : t'.slots = t.slots := by
    unfold slots
    rw [hs.files]
  refine ⟨fun d => ?_, fun p => ?_, fun p => ?_, fun d => ?_⟩
  · rw [hs.refs, hslots]
    exact h.refs d
  · rw [hs.readers, hs.ends]
    exact h.readers p
  · rw [hs.writers, hs.ends]
    exact h.writers p
  · have hi := hs.identity d
    unfold OpenFile.identity at hi
    simp only [Prod.mk.injEq] at hi
    rw [hs.refs, hi.2.2.1, hi.2.2.2.2]
    exact h.modes d

theorem steady_setDescription (t : Tables) (d : Description) {file : OpenFile} (hr : file.refs = (t.descriptions d).refs)
    (hi : file.identity = (t.descriptions d).identity) : Steady t (t.setDescription d file) := by
  refine ⟨rfl, rfl, fun d' => ?_, fun d' => ?_, fun _ => rfl, fun _ => rfl⟩
  all_goals
    rw [descriptions_setDescription]
    by_cases h : d' = d
    · subst h
      rw [Function.update_self]
      assumption
    · rw [Function.update_of_ne h]

/-- The mode of a description survives `F_SETFL`. -/
theorem setfl_mode (flags c : Nat) :
    ((flags &&& (oAccmode ||| oDirectory)) ||| (c &&& (oAppend ||| oNonblock))) &&& oAccmode = flags &&& oAccmode := by
  rw [Nat.and_or_distrib_right, Nat.and_assoc, Nat.and_assoc, show (oAccmode ||| oDirectory) &&& oAccmode = oAccmode from rfl,
    show (oAppend ||| oNonblock) &&& oAccmode = 0 from rfl, Nat.and_zero, Nat.or_zero]

/-! ## Whole rows -/

/-- `close_fd` empties its descriptor and leaves the others alone. -/
theorem taskFiles_closeFd (t : Tables) (slot : Slot) (fd : Fd) : (t.closeFd slot fd).taskFiles =
    Function.update t.taskFiles slot (Function.update (t.taskFiles slot) fd none) := by
  unfold Tables.closeFd
  split
  · rename_i h
    rw [← h, Function.update_eq_self, Function.update_eq_self]
  · rename_i d h
    have hrow : (t.release d).taskFiles = t.taskFiles := by
      unfold release
      dsimp only
      split
      · split <;> rfl
      · rfl
    unfold setFd
    rw [hrow]

theorem identity_closeFd (t : Tables) (slot : Slot) (fd : Fd) (d : Description) :
    ((t.closeFd slot fd).descriptions d).identity = (t.descriptions d).identity := by
  unfold Tables.closeFd
  split
  · rfl
  · rename_i d' h
    rw [descriptions_setFd, descriptions_release]
    by_cases hd : d = d'
    · subst hd
      rw [Function.update_self]
      rfl
    · rw [Function.update_of_ne hd]

theorem fileTask_closeFd (t : Tables) (slot : Slot) (fd : Fd) : (t.closeFd slot fd).fileTask = t.fileTask := by
  unfold Tables.closeFd
  split
  · rfl
  · rename_i d h
    unfold setFd release
    dsimp only
    split
    · split <;> rfl
    · rfl

/-- References only go, and only from the row of `slot`. -/
structure Closes (slot : Slot) (t t' : Tables) : Prop where
  counted : t.Counted → t'.Counted
  rows : ∀ s, s ≠ slot → t'.taskFiles s = t.taskFiles s
  gone : ∀ fd, t'.taskFiles slot fd = t.taskFiles slot fd ∨ t'.taskFiles slot fd = none
  identity : ∀ d, (t'.descriptions d).identity = (t.descriptions d).identity
  refs : ∀ d, (t'.descriptions d).refs ≤ (t.descriptions d).refs
  fileTask : t'.fileTask = t.fileTask

instance (slot : Slot) : Std.Refl (Closes slot) :=
  ⟨fun _ => ⟨id, fun _ _ => rfl, fun _ => .inl rfl, fun _ => rfl, fun _ => Nat.le_refl _, rfl⟩⟩

instance (slot : Slot) : IsTrans Tables (Closes slot) := ⟨fun _ _ _ h h' => ⟨h'.1 ∘ h.1, fun s hs => (h'.2 s hs).trans (h.2 s hs),
  fun fd => by
    rcases h'.3 fd with he | he
    · rw [he]
      exact h.3 fd
    · exact .inr he,
  fun d => (h'.4 d).trans (h.4 d), fun d => (h'.5 d).trans (h.5 d), h'.6.trans h.6⟩⟩

theorem refs_closeFd (t : Tables) (slot : Slot) (fd : Fd) (d : Description) :
    ((t.closeFd slot fd).descriptions d).refs ≤ (t.descriptions d).refs := by
  unfold Tables.closeFd
  split
  · exact Nat.le_refl _
  · rename_i d' h
    rw [descriptions_setFd, descriptions_release]
    by_cases hd : d = d'
    · subst hd
      rw [Function.update_self]
      exact Nat.sub_le ..
    · rw [Function.update_of_ne hd]

theorem closes_closeFd (t : Tables) (slot : Slot) (fd : Fd) : Closes slot t (t.closeFd slot fd) := by
  refine ⟨fun h => h.closeFd slot fd, fun s hs => ?_, fun f => ?_, identity_closeFd t slot fd,
    refs_closeFd t slot fd, fileTask_closeFd t slot fd⟩
  · rw [taskFiles_closeFd, Function.update_of_ne hs]
  · rw [taskFiles_closeFd, Function.update_self]
    by_cases hf : f = fd
    · subst hf
      exact .inr (Function.update_self ..)
    · exact .inl (Function.update_of_ne hf ..)

theorem closes_foldl (slot : Slot) (fds : List Fd) (t : Tables) :
    Closes slot t (fds.foldl (fun t fd => t.closeFd slot fd) t) ∧
    ∀ fd ∈ fds, (fds.foldl (fun t fd => t.closeFd slot fd) t).taskFiles slot fd = none := by
  induction fds generalizing t with
  | nil => exact ⟨refl_of _ _, by simp⟩
  | cons f fds ih =>
    obtain ⟨hc, hnone⟩ := ih (t.closeFd slot f)
    refine ⟨trans_of (Closes slot) (closes_closeFd t slot f) hc, fun fd hfd => ?_⟩
    rcases List.mem_cons.1 hfd with rfl | hfd
    · rcases hc.gone fd with he | he
      · rw [List.foldl_cons, he, taskFiles_closeFd, Function.update_self, Function.update_self]
      · exact he
    · exact hnone fd hfd

/-- `linux_files_exit` closes the whole row. -/
theorem filesExit_spec (t : Tables) (slot : Slot) :
    Closes slot t (t.filesExit slot) ∧ ∀ fd, (t.filesExit slot).taskFiles slot fd = none := by
  obtain ⟨hc, hnone⟩ := closes_foldl slot (List.finRange 16)
    { t with pending := Function.update t.pending slot { t.pending slot with active := false } }
  have hsame : Closes slot t { t with pending := Function.update t.pending slot { t.pending slot with active := false } } :=
    ⟨fun h => h.steady ⟨rfl, rfl, fun _ => rfl, fun _ => rfl, fun _ => rfl, fun _ => rfl⟩, fun _ _ => rfl, fun _ => .inl rfl,
      fun _ => rfl, fun _ => Nat.le_refl _, rfl⟩
  exact ⟨trans_of (Closes slot) hsame hc, fun fd => hnone fd (List.mem_finRange fd)⟩

/-- `linux_syscall_exec` closes some descriptors of the current task. -/
theorem closes_syscallExec (t : Tables) : Closes t.fileTask t t.syscallExec := by
  unfold syscallExec
  suffices h : ∀ (fds : List Fd) (u : Tables), u.fileTask = t.fileTask → Closes t.fileTask u (fds.foldl (fun t fd =>
      if t.taskFlags t.fileTask fd &&& 1 ≠ 0 then t.closeFd t.fileTask fd else t) u) from h _ t rfl
  intro fds
  induction fds with
  | nil => intro u _; exact refl_of _ _
  | cons f fds ih =>
    intro u hu
    rw [List.foldl_cons]
    split
    · have hone := closes_closeFd u u.fileTask f
      rw [hu] at hone ⊢
      exact trans_of (Closes t.fileTask) hone (ih _ (hone.fileTask.trans hu))
    · exact ih u hu

/-- What the loop of `linux_files_fork` has done when the descriptors `fds` are left. -/
structure Shared (parent child : Slot) (t : Tables) (fds : List Fd) (u : Tables) : Prop where
  counted : u.Counted
  rows : ∀ s, s ≠ child → u.taskFiles s = t.taskFiles s ∧ u.taskFlags s = t.taskFlags s
  done : ∀ fd, fd ∉ fds → u.taskFiles child fd = t.taskFiles parent fd ∧ u.taskFlags child fd = t.taskFlags parent fd
  left : ∀ fd ∈ fds, u.taskFiles child fd = none
  identity : ∀ d, (u.descriptions d).identity = (t.descriptions d).identity
  pipes : u.pipes = t.pipes
  fileTask : u.fileTask = t.fileTask

theorem Shared.shareFd {parent child : Slot} {t u : Tables} {fd : Fd} {fds : List Fd} (hne : parent ≠ child)
    (hn : fd ∉ fds) (h : Shared parent child t (fd :: fds) u) : Shared parent child t fds (shareFd parent child u fd) := by
  have hfree := h.left fd (List.mem_cons_self ..)
  have hparent := h.rows parent hne
  -- the new row of the child, whatever happens to the description
  have hrow : ∀ w : Tables, w.taskFiles = (u.setFd child fd (u.taskFiles parent fd) (u.taskFlags parent fd)).taskFiles →
      w.taskFlags = (u.setFd child fd (u.taskFiles parent fd) (u.taskFlags parent fd)).taskFlags →
      (∀ s, s ≠ child → w.taskFiles s = t.taskFiles s ∧ w.taskFlags s = t.taskFlags s) ∧
      (∀ f, f ∉ fds → w.taskFiles child f = t.taskFiles parent f ∧ w.taskFlags child f = t.taskFlags parent f) ∧
      ∀ f ∈ fds, w.taskFiles child f = none := by
    intro w hfiles hflags
    rw [hfiles, hflags]
    refine ⟨fun s hs => ?_, fun f hf => ?_, fun f hf => ?_⟩
    · unfold setFd
      dsimp only
      rw [Function.update_of_ne hs, Function.update_of_ne hs]
      exact h.rows s hs
    · unfold setFd
      dsimp only
      rw [Function.update_self, Function.update_self, hparent.1, hparent.2]
      by_cases hff : f = fd
      · subst hff
        rw [Function.update_self, Function.update_self]
        exact ⟨rfl, rfl⟩
      · rw [Function.update_of_ne hff, Function.update_of_ne hff]
        exact h.done f (by simp [hff, hf])
    · unfold setFd
      dsimp only
      have hff : f ≠ fd := by
        rintro rfl
        exact hn hf
      rw [Function.update_self, Function.update_of_ne hff]
      exact h.left f (List.mem_cons_of_mem _ hf)
  unfold Tables.shareFd
  dsimp only
  cases hd : u.taskFiles parent fd with
  | none =>
    rw [hd] at hrow
    have hself : u.slots (child, fd) = none := hfree
    have hcounted : (u.setFd child fd none (u.taskFlags parent fd)).Counted := by
      have hsteady : (u.setFd child fd none (u.taskFlags parent fd)).slots = u.slots := by
        rw [slots_setFd, ← hself, Function.update_eq_self]
      exact ⟨fun d => by rw [hsteady]; exact h.counted.refs d, h.counted.readers, h.counted.writers, h.counted.modes⟩
    obtain ⟨h1, h2, h3⟩ := hrow _ rfl rfl
    exact ⟨hcounted, h1, h2, h3, h.identity, h.pipes, h.fileTask⟩
  | some d =>
    rw [hd] at hrow
    obtain ⟨h1, h2, h3⟩ := hrow ((u.setFd child fd (some d) (u.taskFlags parent fd)).setDescription d
      { u.descriptions d with refs := (u.descriptions d).refs + 1 }) rfl rfl
    have hpos := h.counted.refs_pos hd
    refine ⟨h.counted.gain hfree (by omega) _, h1, h2, h3, fun d' => ?_, h.pipes, h.fileTask⟩
    rw [descriptions_setDescription]
    by_cases hdd : d' = d
    · subst hdd
      rw [Function.update_self]
      exact h.identity d'
    · rw [Function.update_of_ne hdd]
      exact h.identity d'

/-- `linux_files_fork` gives the child a copy of the parent's row. -/
theorem Counted.filesFork {t : Tables} (h : t.Counted) {parent child : Slot} (hne : parent ≠ child)
    (hempty : ∀ fd, t.taskFiles child fd = none) : Shared parent child t [] (t.filesFork parent child) := by
  have hstart : Shared parent child t (List.finRange 16)
      { t with pending := Function.update t.pending child { t.pending child with active := false } } :=
    ⟨h.steady ⟨rfl, rfl, fun _ => rfl, fun _ => rfl, fun _ => rfl, fun _ => rfl⟩, fun _ _ => ⟨rfl, rfl⟩,
      fun fd hfd => absurd (List.mem_finRange fd) hfd, fun fd _ => hempty fd, fun _ => rfl, rfl, rfl⟩
  unfold Tables.filesFork
  generalize ({ t with pending := Function.update t.pending child { t.pending child with active := false } } : Tables) = u at hstart
  have hnodup := List.nodup_finRange 16
  generalize List.finRange 16 = fds at hstart hnodup
  induction fds generalizing u with
  | nil => exact hstart
  | cons fd fds ih =>
    obtain ⟨hn, hrest⟩ := List.nodup_cons.1 hnodup
    exact ih _ (hstart.shareFd hne hn) hrest

theorem counted_reset : Tables.reset.Counted := by
  refine ⟨?_, ?_, ?_, ?_⟩
  · decide +kernel
  · intro p
    exact (card_fiber_eq_zero.2 (by revert p; decide +kernel)).symm
  · intro p
    exact (card_fiber_eq_zero.2 (by revert p; decide +kernel)).symm
  · decide +kernel

end Tables

end Barnix.Linux
