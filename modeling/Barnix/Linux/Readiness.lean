import Barnix.Linux.Streams
import Mathlib.Algebra.Order.BigOperators.Group.Finset
import Mathlib.Data.Fintype.BigOperators
/-!
# Transfers that are ready

A transfer is ready just when its next turn ends it or moves a byte; and a
task that sleeps on a pipe has a transfer under way, whatever the others do.
-/

namespace Barnix.Linux

open Vfs (Space ListingEngine)

/-! ## Ready transfers -/

namespace Ring

/-- What `linux_io_ready` asks of a transfer under way. -/
def Ready (r : Ring) (flags : Nat) : Prop :=
  flags &&& oNonblock ≠ 0 ∨
  if r.io.writing then r.pipe.readers = 0 ∨ (if r.io.length ≤ pipeSize then r.io.length else 1) ≤ pipeSize - r.pipe.used
  else r.pipe.used ≠ 0 ∨ r.pipe.writers = 0

/-- A transfer that can only wait is one that is not ready. -/
theorem blocked_iff {r : Ring} {flags : Nat} (hlen : 0 < r.io.length) (hwrite : r.io.writing = true → r.pipe.readers ≠ 0)
    (hread : r.io.writing = false → r.pipe.used = 0 → r.pipe.writers ≠ 0) (hflags : flags &&& oNonblock = 0) :
    r.blocked = true ↔ ¬r.Ready flags := by
  unfold Ready blocked available
  cases hw : r.io.writing with
  | true =>
    have := hwrite hw
    by_cases hsmall : r.io.length ≤ pipeSize
    · simp [hflags, this, hsmall]
      omega
    · simp [hflags, this, hsmall]
  | false =>
    have := hread hw
    simp only [Bool.false_eq_true, if_false, Bool.false_and, Bool.or_false, beq_iff_eq, hflags, ne_eq, not_true_eq_false, false_or,
      not_or, not_not]
    exact ⟨fun h => ⟨h, this h⟩, fun h => h.1⟩

/-- A turn that waits although the transfer was ready moves bytes into the pipe. -/
theorem resume_ready {r : Ring} {flags : Nat} (hs : r.io.Sound) (hring : r.pipe.InRing) (hlen : 0 < r.io.length)
    (hready : r.Ready flags) (hwait : (r.resume flags).1 = .wait) :
    r.io.total < (r.resume flags).2.io.total ∧ r.pipe.used < (r.resume flags).2.pipe.used := by
  unfold resume at hwait ⊢
  split
  · rename_i h
    rw [if_pos h] at hwait
    cases hwait
  rename_i h1
  rw [if_neg h1] at hwait
  split
  · rename_i h
    rw [if_pos h] at hwait
    cases hwait
  rename_i h2
  rw [if_neg h2] at hwait
  split
  · rename_i hblocked
    rw [if_pos hblocked] at hwait
    exfalso
    split at hwait
    · rename_i hflags
      exact (blocked_iff hlen (fun hw hr => h1 ⟨hw, hr⟩) (fun hw hu hr => h2 ⟨by simp [hw], hu, hr⟩) hflags).1 hblocked hready
    · cases hwait
  · rename_i hblocked
    rw [if_neg hblocked] at hwait
    have hfree : r.available ≠ 0 := by
      intro h
      exact hblocked (by unfold blocked; rw [h]; rfl)
    obtain ⟨b, hb, hmoved⟩ := moved_loop (min r.available (r.io.length - r.io.total) + r.io.vectors.length)
      (min r.available (r.io.length - r.io.total)) r hs hring (Nat.min_le_right _ _) (Nat.min_le_left _ _) (by omega)
    change Moved b r r.moved at hmoved
    split at hwait
    · rename_i hmore
      rw [if_pos hmore]
      obtain ⟨hw, htotal, -⟩ := hmore
      rw [hmoved.call.2.2.1] at hw
      have hqueue := congrArg List.length (hmoved.write hw).2.1
      rw [List.length_append, Pipe.length_queue, Pipe.length_queue] at hqueue
      have hsum := hmoved.total
      have hlength := hmoved.call.2.1
      constructor <;> dsimp only <;> omega
    · cases hwait

/-- A transfer that is not ready waits, and nothing moves. -/
theorem resume_unready {r : Ring} {flags : Nat} (hlen : 0 < r.io.length) (hready : ¬r.Ready flags) :
    r.resume flags = (.wait, r) := by
  have hflags : flags &&& oNonblock = 0 := by
    by_contra h
    exact hready (.inl h)
  have hwrite : r.io.writing = true → r.pipe.readers ≠ 0 := fun hw hr => hready (.inr (by rw [if_pos hw]; exact .inl hr))
  have hread : r.io.writing = false → r.pipe.used = 0 → r.pipe.writers ≠ 0 :=
    fun hw _ hr => hready (.inr (by rw [if_neg (by simp [hw])]; exact .inr hr))
  unfold resume
  rw [if_neg (fun h => hwrite h.1 h.2), if_neg (fun h => hread (by simpa using h.1) h.2.1 h.2.2),
    if_pos ((blocked_iff hlen hwrite hread hflags).2 hready), if_pos hflags]

/-- The loop leaves the transfer open, on the same descriptor. -/
theorem loop_call (rounds available : Nat) (r : Ring) :
    (r.loop rounds available).io.active = r.io.active ∧ (r.loop rounds available).io.fd = r.io.fd := by
  induction rounds generalizing available r with
  | zero => exact ⟨rfl, rfl⟩
  | succ rounds ih =>
    unfold loop
    split
    · exact ⟨rfl, rfl⟩
    · split
      · exact ⟨rfl, rfl⟩
      · split
        · exact ih _ _
        · rename_i v _ _
          have hcopy : (r.copy v (r.chunk v available)).io.active = r.io.active ∧
              (r.copy v (r.chunk v available)).io.fd = r.io.fd := by
            unfold copy
            dsimp only
            split <;> exact ⟨rfl, rfl⟩
          obtain ⟨h1, h2⟩ := ih (available - r.chunk v available) (r.copy v (r.chunk v available))
          exact ⟨h1.trans hcopy.1, h2.trans hcopy.2⟩

/-- A transfer stays open just as long as it waits. -/
theorem resume_call (r : Ring) (flags : Nat) :
    ((r.resume flags).1 = .wait → (r.resume flags).2.io.active = r.io.active) ∧
    ((r.resume flags).1 ≠ .wait → (r.resume flags).2.io.active = false) ∧ (r.resume flags).2.io.fd = r.io.fd := by
  obtain ⟨h1, h2⟩ := loop_call (min r.available (r.io.length - r.io.total) + r.io.vectors.length)
    (min r.available (r.io.length - r.io.total)) r
  unfold resume
  split
  · exact ⟨nofun, fun _ => rfl, rfl⟩
  split
  · exact ⟨nofun, fun _ => rfl, rfl⟩
  split
  · split
    · exact ⟨fun _ => rfl, fun h => absurd rfl h, rfl⟩
    · exact ⟨nofun, fun _ => rfl, rfl⟩
  · split
    · exact ⟨fun _ => h1, fun h => absurd rfl h, h2⟩
    · exact ⟨nofun, fun _ => rfl, h2⟩

theorem resume_sigpipe {r : Ring} {flags : Nat} (h : (r.resume flags).1 = .sigpipe) : (r.resume flags).2.pipe = r.pipe := by
  unfold resume at h ⊢
  split
  · rfl
  rename_i h1
  rw [if_neg h1] at h
  split at h
  · cases h
  split at h
  · split at h <;> cases h
  · split at h <;> cases h

end Ring

namespace Tables

/-- The next turn of the transfer of `slot`. -/
def resumed (t : Tables) (slot : Slot) (m : Memory) : Result × Tables × Memory := ({ t with fileTask := slot } : Tables).ioResume m

/-- The transfer of `slot` is under way on an open pipe. -/
def Waits (t : Tables) (slot : Slot) : Prop := (t.pending slot).active = true ∧ (t.ioPipe slot).isSome = true

theorem ioReady_iff (t : Tables) (slot : Slot) (m : Memory) : t.ioReady slot = true ↔
    (t.pending slot).active = true ∧ ∃ p flags, t.ioPipe slot = some (p, flags) ∧
      Ring.Ready ⟨t.pipes p, t.pending slot, m, []⟩ flags := by
  unfold ioReady Ring.Ready
  cases t.ioPipe slot with
  | none => simp
  | some r =>
    obtain ⟨p, flags⟩ := r
    rw [Bool.and_eq_true]
    apply and_congr_right
    intro _
    constructor
    · intro h
      refine ⟨p, flags, rfl, ?_⟩
      revert h
      by_cases hf : flags &&& oNonblock = 0
      · cases (t.pending slot).writing <;> simp [hf]
      · simp [hf]
    · rintro ⟨_, _, he, h⟩
      cases he
      revert h
      by_cases hf : flags &&& oNonblock = 0
      · cases (t.pending slot).writing <;> simp [hf]
      · simp [hf]

/-- A turn of the transfer of `slot`, on its pipe. -/
theorem resumed_eq {t : Tables} {slot : Slot} {p : PipeId} {flags : Nat} (h : t.ioPipe slot = some (p, flags)) (m : Memory) :
    let r := Ring.resume ⟨t.pipes p, t.pending slot, m, []⟩ flags
    t.resumed slot m = (r.1, { t with
      fileTask := slot
      pipes := Function.update t.pipes p r.2.pipe
      pending := Function.update t.pending slot r.2.io
      traffic := turn slot p (t.pending slot).writing ((t.pending slot).payload m) r.2.bytes r.1 ++ t.traffic }, r.2.memory) := by
  have h' : ({ t with fileTask := slot } : Tables).ioPipe slot = some (p, flags) := h
  unfold resumed ioResume
  rw [h']

/-- What a turn of a ready transfer does: it ends the transfer, or moves at least one byte. -/
def Advances (t : Tables) (slot : Slot) (m : Memory) : Prop :=
  ((t.resumed slot m).1 ≠ .wait ∧ ((t.resumed slot m).2.1.pending slot).active = false) ∨
    (t.pending slot).total < ((t.resumed slot m).2.1.pending slot).total

end Tables

namespace Streams

variable {t : Tables} {slot : Slot}

theorem advances (h : Streams t) (hready : t.ioReady slot = true) (m : Memory) : t.Advances slot m := by
  obtain ⟨hactive, p, flags, hp, hr⟩ := (t.ioReady_iff slot m).1 hready
  have hway := h.underWay slot hactive
  unfold Tables.Advances
  rw [Tables.resumed_eq hp]
  dsimp only
  rw [Function.update_self]
  by_cases hwait : (Ring.resume ⟨t.pipes p, t.pending slot, m, []⟩ flags).1 = .wait
  · exact .inr (Ring.resume_ready hway.sound (h.inRing p) hway.length hr hwait).1
  · exact .inl ⟨hwait, (Ring.resume_call _ flags).2.1 hwait⟩

/-- A transfer that is not ready cannot go on. -/
theorem stuck (h : Streams t) (hw : t.Waits slot) (hready : t.ioReady slot = false) (m : Memory) :
    t.resumed slot m = (.wait, { t with fileTask := slot }, m) := by
  obtain ⟨hactive, hp⟩ := hw
  obtain ⟨⟨p, flags⟩, hp⟩ := Option.isSome_iff_exists.1 hp
  have hr : ¬Ring.Ready ⟨t.pipes p, t.pending slot, m, []⟩ flags := by
    intro hr
    rw [(t.ioReady_iff slot m).2 ⟨hactive, p, flags, hp, hr⟩] at hready
    cases hready
  rw [Tables.resumed_eq hp, Ring.resume_unready (h.underWay slot hactive).length hr]
  dsimp only
  rw [Function.update_eq_self, Function.update_eq_self]
  rfl

end Streams

/-! ## The room in the pipes -/

namespace Tables

/-- All the bytes that could still be put into pipes. -/
def room (t : Tables) : Nat := ∑ p, (pipeSize - (t.pipes p).used)

theorem room_le (t : Tables) : t.room ≤ 24 * pipeSize := by
  have h := Finset.sum_le_card_nsmul Finset.univ (fun p => pipeSize - (t.pipes p).used) pipeSize fun p _ => Nat.sub_le ..
  simpa [room] using h

theorem room_congr {t t' : Tables} (h : ∀ p, (t'.pipes p).used = (t.pipes p).used) : t'.room = t.room :=
  Finset.sum_congr rfl fun p _ => by rw [h p]

/-- A turn that waits after all has filled a pipe a bit more. -/
theorem room_resumed {t : Tables} {slot : Slot} (h : Streams t) (hready : t.ioReady slot = true) {m : Memory}
    (hwait : (t.resumed slot m).1 = .wait) : (t.resumed slot m).2.1.room < t.room := by
  obtain ⟨hactive, p, flags, hp, hr⟩ := (t.ioReady_iff slot m).1 hready
  have hway := h.underWay slot hactive
  have hring := ((flowing_scheduler.use t slot h).ioResume m hactive).inRing p
  change ((t.resumed slot m).2.1.pipes p).InRing at hring
  rw [resumed_eq hp] at hwait hring ⊢
  dsimp only at hwait hring ⊢
  have hmore := (Ring.resume_ready hway.sound (h.inRing p) hway.length hr hwait).2
  have hle := hring.2
  dsimp only at hmore
  rw [Function.update_self] at hle
  refine Finset.sum_lt_sum (fun q _ => ?_) ⟨p, Finset.mem_univ p, ?_⟩
  · dsimp only
    by_cases hq : q = p
    · subst hq
      rw [Function.update_self]
      omega
    · rw [Function.update_of_ne hq]
  · dsimp only
    rw [Function.update_self]
    omega

/-- A task that is killed moves nothing. -/
theorem room_killed {t : Tables} {slot : Slot} {m : Memory} (h : (t.resumed slot m).1 = .sigpipe) :
    (t.resumed slot m).2.1.room = t.room := by
  cases hp : t.ioPipe slot with
  | none =>
    have hp' : ({ t with fileTask := slot } : Tables).ioPipe slot = none := hp
    unfold resumed ioResume at h
    rw [hp'] at h
    cases h
  | some r =>
    obtain ⟨p, flags⟩ := r
    rw [resumed_eq hp] at h ⊢
    refine room_congr fun q => ?_
    dsimp only at h ⊢
    by_cases hq : q = p
    · subst hq
      rw [Function.update_self, Ring.resume_sigpipe h]
    · rw [Function.update_of_ne hq]

end Tables

/-! ## What a sleeping task relies on -/

namespace Tables

/-- The row and the transfer of `s` stay, and every description that is referenced. -/
structure Beside (s : Slot) (t t' : Tables) : Prop where
  pending : t'.pending s = t.pending s
  row : t'.taskFiles s = t.taskFiles s
  identity : ∀ d, (t.descriptions d).refs ≠ 0 → (t'.descriptions d).identity = (t.descriptions d).identity

theorem identity_pipe {f f' : OpenFile} (h : f'.identity = f.identity) : f'.pipe = f.pipe := by
  unfold OpenFile.identity at h
  simp only [Prod.mk.injEq] at h
  exact h.2.2.1

/-- A transfer stays on its pipe while descriptions stay what they are. -/
theorem ioPipe_isSome {t t' : Tables} {s : Slot} (hfd : (t'.pending s).fd = (t.pending s).fd) (hrow : t'.taskFiles s = t.taskFiles s)
    (hid : ∀ fd d, t.taskFiles s fd = some d → (t'.descriptions d).identity = (t.descriptions d).identity)
    (h : (t.ioPipe s).isSome = true) : (t'.ioPipe s).isSome = true := by
  unfold ioPipe at h ⊢
  dsimp only at h ⊢
  rw [hfd, hrow]
  by_cases hlt : (t.pending s).fd < 16
  · rw [dif_pos hlt] at h ⊢
    cases hd : t.taskFiles s ⟨(t.pending s).fd, hlt⟩ with
    | none =>
      rw [hd] at h
      cases h
    | some d =>
      rw [hd] at h
      have hpipe := identity_pipe (hid _ d hd)
      simp only [Option.bind_eq_bind, Option.bind_some] at h ⊢
      rw [hpipe]
      cases hp : (t.descriptions d).pipe with
      | none =>
        rw [hp] at h
        cases h
      | some p => rfl
  · rw [dif_neg hlt] at h
    cases h

theorem Waits.beside {t t' : Tables} {s : Slot} (h : t.Waits s) (hb : Beside s t t') (hc : t.Counted) : t'.Waits s :=
  ⟨by rw [hb.pending]; exact h.1,
    ioPipe_isSome (by rw [hb.pending]) hb.row (fun _ d hd => hb.identity d (Nat.ne_of_gt (hc.refs_pos hd))) h.2⟩

@[simp] theorem pending_closeFd (t : Tables) (slot : Slot) (fd : Fd) : (t.closeFd slot fd).pending = t.pending := by
  unfold closeFd
  cases t.taskFiles slot fd with
  | none => rfl
  | some d =>
    unfold setFd release
    dsimp only
    split
    · split <;> rfl
    · rfl

theorem beside_filesExit (t : Tables) {s slot : Slot} (hs : s ≠ slot) : Beside s t (t.filesExit slot) := by
  obtain ⟨hc, -⟩ := filesExit_spec t slot
  refine ⟨?_, hc.rows s hs, fun d _ => hc.identity d⟩
  have hfold : ∀ (fds : List Fd) (u : Tables), (fds.foldl (fun t fd => t.closeFd slot fd) u).pending = u.pending := by
    intro fds
    induction fds with
    | nil => exact fun u => rfl
    | cons fd fds ih => exact fun u => (ih _).trans (pending_closeFd u slot fd)
  unfold filesExit
  rw [hfold]
  exact Function.update_of_ne hs ..

theorem beside_resumed (t : Tables) {s slot : Slot} (hs : s ≠ slot) (m : Memory) : Beside s t (t.resumed slot m).2.1 := by
  have hsteady : Steady { t with fileTask := slot } (t.resumed slot m).2.1 := steady_ioResume _ m
  refine ⟨?_, congrFun hsteady.files s, fun d _ => hsteady.identity d⟩
  unfold resumed ioResume
  split
  · rfl
  · exact Function.update_of_ne hs ..

/-- A transfer that waits again is still under way. -/
theorem Waits.resumed {t : Tables} {slot : Slot} (h : t.Waits slot) {m : Memory}
    (hwait : (t.resumed slot m).1 = .wait) : (t.resumed slot m).2.1.Waits slot := by
  have hsteady : Steady { t with fileTask := slot } (t.resumed slot m).2.1 := steady_ioResume _ m
  obtain ⟨⟨p, flags⟩, hp⟩ := Option.isSome_iff_exists.1 h.2
  have hcall := Ring.resume_call ⟨t.pipes p, t.pending slot, m, []⟩ flags
  have hio : ((t.resumed slot m).2.1.pending slot) = (Ring.resume ⟨t.pipes p, t.pending slot, m, []⟩ flags).2.io := by
    rw [resumed_eq hp]
    exact Function.update_self ..
  have hresult : (Ring.resume ⟨t.pipes p, t.pending slot, m, []⟩ flags).1 = .wait := by
    rw [resumed_eq hp] at hwait
    exact hwait
  refine ⟨?_, @ioPipe_isSome t _ slot ?_ (congrFun hsteady.files slot) (fun _ d _ => hsteady.identity d) h.2⟩
  · rw [hio, hcall.1 hresult]
    exact h.1
  · rw [hio]
    exact hcall.2.2

theorem beside_filesFork {t : Tables} (hc : t.Counted) {s parent child : Slot} (hne : parent ≠ child)
    (hempty : ∀ fd, t.taskFiles child fd = none) (hs : s ≠ child) : Beside s t (t.filesFork parent child) := by
  have hshared := hc.filesFork hne hempty
  refine ⟨?_, (hshared.rows s hs).1, fun d _ => hshared.identity d⟩
  have hfold : ∀ (fds : List Fd) (u : Tables), (fds.foldl (shareFd parent child) u).pending = u.pending := by
    intro fds
    induction fds with
    | nil => exact fun u => rfl
    | cons fd fds ih =>
      intro u
      rw [List.foldl_cons, ih]
      unfold shareFd
      cases u.taskFiles parent fd <;> rfl
  unfold filesFork
  rw [hfold]
  exact Function.update_of_ne hs ..

/-- A transfer that starts and waits is under way. -/
theorem waits_ioResume {t : Tables} (hactive : (t.pending t.fileTask).active = true) {m : Memory} (hwait : (t.ioResume m).1 = .wait) :
    (t.ioResume m).2.1.Waits t.fileTask := by
  have hpipe : (t.ioPipe t.fileTask).isSome = true := by
    unfold ioResume at hwait
    cases hp : t.ioPipe t.fileTask with
    | none =>
      rw [hp] at hwait
      cases hwait
    | some r => rfl
  exact Waits.resumed (t := t) ⟨hactive, hpipe⟩ hwait

theorem waits_pipeTransfer {t : Tables} {m : Memory} {flags fd address count : Nat} {writing vectored : Bool}
    (hwait : (t.pipeTransfer m flags fd address count writing vectored).1 = .wait) :
    (t.pipeTransfer m flags fd address count writing vectored).2.1.Waits t.fileTask := by
  unfold pipeTransfer at hwait ⊢
  split
  · rename_i h
    rw [if_pos h] at hwait
    cases hwait
  rename_i h
  rw [if_neg h] at hwait
  dsimp only at hwait ⊢
  split
  · rename_i h
    rw [if_pos h] at hwait
    cases hwait
  rename_i h
  rw [if_neg h] at hwait
  split
  · rename_i h
    rw [if_pos h] at hwait
    cases hwait
  rename_i h
  rw [if_neg h] at hwait
  cases hcheck : checkVectors m (if vectored then vectorsAt m address count else [⟨address, count⟩]) 0 with
  | error e =>
    rw [hcheck] at hwait
    cases hwait
  | ok length =>
    rw [hcheck] at hwait
    dsimp only at hwait ⊢
    split
    · rename_i h
      rw [if_pos h] at hwait
      cases hwait
    · rename_i h
      rw [if_neg h] at hwait
      refine waits_ioResume ?_ hwait
      unfold beginIo setIo note
      dsimp only
      rw [Function.update_self]

/-- The transfers of the other tasks stay. -/
def Undisturbed (t t' : Tables) : Prop := t'.fileTask = t.fileTask ∧ ∀ s, s ≠ t.fileTask → t'.pending s = t.pending s

instance : Std.Refl Undisturbed := ⟨fun _ => ⟨rfl, fun _ _ => rfl⟩⟩

instance : IsTrans Tables Undisturbed :=
  ⟨fun _ _ _ h h' => ⟨h'.1.trans h.1, fun s hs => (h'.2 s (h.1.symm ▸ hs)).trans (h.2 s hs)⟩⟩

theorem undisturbed_closeFd (t : Tables) (fd : Fd) : Undisturbed t (t.closeFd t.fileTask fd) :=
  ⟨fileTask_closeFd .., fun s _ => by rw [pending_closeFd]⟩

theorem undisturbed_edit {f : Tables → Tables} (h : Edit f) (t : Tables) : Undisturbed t (f t) := by
  cases h with
  | opened d file fd flags => exact ⟨rfl, fun _ _ => rfl⟩
  | shared fd d => exact ⟨rfl, fun _ _ => rfl⟩
  | closed fd => exact undisturbed_closeFd t fd
  | replaced fd d => exact trans_of Undisturbed (undisturbed_closeFd t fd) ⟨rfl, fun _ _ => rfl⟩
  | flagged fd d flags => exact ⟨rfl, fun _ _ => rfl⟩
  | described d file => exact ⟨rfl, fun _ _ => rfl⟩

theorem undisturbed_beginIo (t : Tables) (io : PipeIo) : Undisturbed t (t.beginIo io) :=
  ⟨rfl, fun _ hs => Function.update_of_ne hs ..⟩

theorem undisturbed_ioResume (t : Tables) (m : Memory) : Undisturbed t (t.ioResume m).2.1 :=
  ⟨(steady_ioResume t m).fileTask, fun _ hs => (beside_resumed t hs m).pending⟩

theorem undisturbed_pipeTransfer (t : Tables) (m : Memory) (flags fd address count : Nat) (writing vectored : Bool) :
    Undisturbed t (t.pipeTransfer m flags fd address count writing vectored).2.1 := by
  have hrefuse : ∀ io n, Undisturbed t (t.refuse io n) := fun io _ => undisturbed_beginIo t io
  unfold pipeTransfer
  split
  · exact refl_of Undisturbed t
  dsimp only
  split
  · exact hrefuse _ _
  split
  · exact hrefuse _ _
  cases checkVectors m (if vectored then vectorsAt m address count else [⟨address, count⟩]) 0 with
  | error e => exact hrefuse _ _
  | ok length =>
    dsimp only
    split
    · exact hrefuse _ _
    · exact trans_of Undisturbed (undisturbed_beginIo t _) (undisturbed_ioResume _ m)

theorem undisturbed_syscallExec (t : Tables) : Undisturbed t t.syscallExec := by
  unfold syscallExec
  generalize List.finRange 16 = fds
  induction fds generalizing t with
  | nil => exact refl_of Undisturbed t
  | cons fd fds ih =>
    rw [List.foldl_cons]
    split
    · exact trans_of Undisturbed (undisturbed_closeFd t fd) (ih _)
    · exact ih t

end Tables

variable {ε : Type} [ListingEngine ε]

open Tables (Undisturbed)

theorem undisturbed : Calling (OnTables (ε := ε) Undisturbed) where
  space := tables_onSpace
  store := fun _ _ m => refl_of Undisturbed m.tables
  position := fun _ _ _ => ⟨rfl, fun _ _ => rfl⟩
  pipe := fun flags fd address count writing vectored m =>
    Tables.undisturbed_pipeTransfer m.tables m.memory flags fd address count writing vectored
  terminal := by
    intro address count writing m
    unfold terminalTransfer
    rw [exec_modifyGet]
    split <;> exact refl_of Undisturbed m.tables
  edit := fun hf m => Tables.undisturbed_edit hf m.tables
  create := by
    intro m flags fd₀ fd₁ tables address hok
    obtain ⟨d₀, d₁, p, -, -, -, -, -, -, -, -, rfl⟩ := Tables.createPipe_cases hok
    exact ⟨rfl, fun _ _ => rfl⟩
  install := fun _ _ _ _ m => Tables.undisturbed_syscallExec m.tables
  brk := fun _ m => refl_of Undisturbed m.tables

/-! ## Calls that sleep -/

/-- When the call is asleep, a transfer of its task is under way. -/
def Sleeps (x : StateM (Machine ε) Result) : Prop :=
  ∀ m, (exec x m).1 = .wait → (exec x m).2.tables.Waits (exec x m).2.tables.fileTask

namespace Sleeps

theorem value (n : Int) : Sleeps (ε := ε) (pure (.value n)) := by
  intro m h
  cases h

theorem bind {α : Type} {x : StateM (Machine ε) α} {f : α → StateM (Machine ε) Result} (h : ∀ a, Sleeps (f a)) : Sleeps (x >>= f) :=
  fun m => h (exec x m).1 (exec x m).2

theorem ite {c : Prop} [Decidable c] {x y : StateM (Machine ε) Result} (hx : Sleeps x) (hy : Sleeps y) :
    Sleeps (if c then x else y) := by
  split
  · exact hx
  · exact hy

theorem onPipe (flags fd address count : Nat) (writing vectored : Bool) :
    Sleeps (ε := ε) (onPipe flags fd address count writing vectored) := by
  intro m hwait
  have h := Tables.waits_pipeTransfer (t := m.tables) hwait
  have hfile := (Tables.steady_pipeTransfer m.tables m.memory flags fd address count writing vectored).fileTask
  show (m.tables.pipeTransfer m.memory flags fd address count writing vectored).2.1.Waits
    (m.tables.pipeTransfer m.memory flags fd address count writing vectored).2.1.fileTask
  rw [hfile]
  exact h

theorem transfer (fd address count : Nat) (writing : Bool) : Sleeps (ε := ε) (transfer fd address count writing) := by
  unfold Linux.transfer
  refine .bind fun m => ?_
  cases m.tables.getFile fd with
  | none => exact .value _
  | some d =>
    refine .ite (.value _) (.ite (.value _) (.ite (onPipe _ _ _ _ _ _) (.ite (.value _) (.ite (.value _) (.ite ?_ ?_)))))
    · exact .bind fun _ => .value _
    · exact .bind fun _ => .value _

theorem vectorLoop (fd address : Nat) (writing : Bool) (is : List Nat) (total : Nat) :
    Sleeps (ε := ε) (vectorLoop fd address writing is total) := by
  induction is generalizing total with
  | nil => exact .value _
  | cons i is ih =>
    unfold Linux.vectorLoop
    refine .bind fun m n => ?_
    have htransfer := transfer (ε := ε) fd (m.memory.word (address + 8 * i)) (m.memory.word (address + 8 * i + 4)) writing n
    dsimp only
    rw [exec_bind]
    generalize exec (Linux.transfer (ε := ε) fd (m.memory.word (address + 8 * i)) (m.memory.word (address + 8 * i + 4)) writing) n = r
      at htransfer
    obtain ⟨result, k⟩ := r
    cases result with
    | value v => exact Sleeps.ite (.value _) (.bind fun _ => .ite (.value _) (ih _)) k
    | wait => exact htransfer
    | sigpipe =>
      intro h
      cases h

theorem sysVector (fd address count : Nat) (writing : Bool) : Sleeps (ε := ε) (sysVector fd address count writing) := by
  unfold Linux.sysVector
  refine .bind fun m => ?_
  cases m.tables.getFile fd with
  | none => exact .value _
  | some d =>
    refine .ite (onPipe _ _ _ _ _ _) (.ite (.value _) (.ite (.value _) (.ite (.value _) ?_)))
    cases vectorSum (vectorsAt m.memory address count) 0 with
    | none => exact .value _
    | some sum => exact vectorLoop _ _ _ _ _

/-- A call that is asleep waits on a pipe. -/
theorem dispatch (number a b c : Nat) : Sleeps (ε := ε) (linuxSyscallDispatch number a b c) := by
  have other : ∀ {α : Type} {x : StateM (Machine ε) α} (f : α → Int), Sleeps (do let r ← x; return .value (f r)) :=
    fun f => .bind fun _ => .value _
  unfold linuxSyscallDispatch
  split
  iterate 2 exact other _
  · exact .value _
  iterate 8 exact other _
  · exact transfer a b c false
  · exact transfer a b c true
  iterate 14 exact other _
  · exact sysVector a b c false
  · exact sysVector a b c true
  · exact .value _

end Sleeps

end Barnix.Linux
