import Barnix.Shell.Sessions
import Barnix.Vfs.Removals
/-!
# Who is working, and where

The file operations the shell uses leave the current user alone and the working
directory a normal path; `switch_user` is the one that changes the user.
-/

namespace Barnix.Bssh

open Vfs

/-- The working directory is spelled as `normalize` spells it. -/
structure Placed (s : Space Trees) : Prop where
  working : s.active = true → ∃ ws, Normal ws ∧ s.working = render ws
  cwd : s.active = false → ∀ c ∈ s.engine.cwd, validName c = true

/-- The user stays, and so does the place. -/
structure Stays (s t : Space Trees) : Prop where
  user : t.user = s.user
  active : s.active = true → t.active = true
  placed : Placed s → Placed t

instance : Std.Refl Stays := ⟨fun _ => ⟨rfl, fun h => h, fun h => h⟩⟩

instance : IsTrans (Space Trees) Stays := ⟨fun _ _ _ h h' =>
  ⟨h'.user.trans h.user, fun ha => h'.active (h.active ha), fun hp => h'.placed (h.placed hp)⟩⟩

theorem Stays.of_sameTable {s t : Space Trees} (h : SameTable s t) (ha : s.active = true) : Stays s t := by
  obtain ⟨hact, -, hw⟩ := h.2 ha
  refine ⟨h.1, fun _ => hact, fun hp => ⟨fun _ => hw ▸ hp.working ha, fun hno => ?_⟩⟩
  simp [hact] at hno

/-- The engine operation leaves its working directory a path of names. -/
def StaysIn {α : Type} (op : StateM Trees α) : Prop :=
  ∀ e, (∀ c ∈ e.cwd, validName c = true) → ∀ c ∈ (exec op e).2.cwd, validName c = true

theorem staysIn_read {α : Type} (f : Trees → α) : StaysIn (modifyGet fun e : Trees => (f e, e)) := fun _ h => h

theorem staysIn_change (g : Trees → Option Tree) : StaysIn (modifyGet fun e : Trees => e.change (g e)) := by
  intro e h
  simpa using h

theorem staysIn_extCd (name : Name) : StaysIn (Engine.extCd (ε := Trees) name) := by
  intro e h
  show ∀ c ∈ (e.cd name).2.cwd, _
  unfold Trees.cd
  cases hf : e.find name with
  | none => exact h
  | some p =>
    dsimp only
    split
    swap
    · exact h
    unfold Trees.find at hf
    split at hf
    · simp at hf
    · refine Tree.follow_valid ?_ (components_spec name) hf
      split
      · simp
      · exact h

theorem stays_onEngine {α : Type} {op : StateM Trees α} (hop : StaysIn op) : Moves Stays (onEngine op) :=
  fun s => ⟨rfl, fun h => h, fun hp => ⟨hp.working, fun ha => hop s.engine (hp.cwd ha)⟩⟩

theorem stays_routed {α : Type} (name : Name) (parent : Bool) (bad : α) {op : Name → StateM Trees α}
    (hop : ∀ n, StaysIn (op n)) : Moves Stays (routed name parent bad op) := by
  intro s
  cases ha : s.active with
  | true => exact .of_sameTable (sameTable_routed name parent bad op s) ha
  | false =>
    have : exec (routed name parent bad op) s = exec (onEngine (op name)) s := by simp [routed, ha]
    rw [this]
    exact stays_onEngine (hop name) s

theorem stays_plainSize (name : Name) : Moves Stays (plainSize (ε := Trees) name) :=
  stays_routed _ _ _ fun n => staysIn_read fun e => e.size n

theorem stays_plainRead (name : Name) (offset size : Nat) : Moves Stays (plainRead (ε := Trees) name offset size) :=
  stays_routed _ _ _ fun n => staysIn_read fun e => e.read n offset size

theorem stays_plainIsDir (name : Name) : Moves Stays (plainIsDir (ε := Trees) name) :=
  stays_routed _ _ _ fun n => staysIn_read fun e => e.findNode n == some .dir

theorem stays_privateRead (path : Name) (cap : Nat) : Moves Stays (privateRead (ε := Trees) path cap) := by
  unfold privateRead
  refine (stays_plainSize path).bind fun n => .ite (.pure _) ((stays_plainRead _ _ _).bind fun data => ?_)
  cases data <;> exact .pure _

theorem stays_namespaceStart : Moves Stays (namespaceStart (ε := Trees)) := by
  intro s
  refine ⟨(sameTable_namespaceStart s).1, fun ha => ((sameTable_namespaceStart s).2 ha).1, fun hp => ?_⟩
  have hact : (exec namespaceStart s).2.active = true := active_namespaceStart s
  refine ⟨fun _ => start_working hp.working hp.cwd, fun hno => by simp [hact] at hno⟩

theorem stays_checkPermission (name : Name) (mode : UInt8) : Moves Stays (checkPermission (ε := Trees) name mode) := by
  unfold checkPermission
  refine .bind .get fun s => .ite (.pure _) (stays_namespaceStart.bind fun _ => .bind .get fun t => ?_)
  cases normalize t.working name with
  | none => exact .pure _
  | some path =>
    refine .ite (.pure _) ((stays_privateRead _ _).bind fun data => ?_)
    cases data with
    | some data => exact .pure _
    | none => exact (stays_plainSize _).bind fun n => .ite (.pure _) (.pure _)

theorem stays_checked {α : Type} {name : Name} {mode : UInt8} {denied : α} {x : StateM (Space Trees) α} (hx : Moves Stays x) :
    Moves Stays (checked name mode denied x) :=
  (stays_checkPermission name mode).bind fun _ => .ite (.pure _) hx

theorem stays_fsSize (name : Name) : Moves Stays (fsSize (ε := Trees) name) := stays_checked (stays_plainSize name)

theorem stays_fsIsDir (name : Name) : Moves Stays (fsIsDir (ε := Trees) name) := stays_checked (stays_plainIsDir name)

theorem stays_fsRead (name : Name) (offset size : Nat) : Moves Stays (fsRead (ε := Trees) name offset size) := by
  refine stays_checked ((stays_plainRead name offset size).bind fun data => ?_)
  cases data <;> exact .pure _

theorem stays_fsMkdir (name : Name) : Moves Stays (fsMkdir (ε := Trees) name) :=
  stays_checked (stays_routed _ _ _ fun n => staysIn_change fun e => e.created n .dir)

theorem stays_fsWrite (name : Name) (data : List UInt8) : Moves Stays (fsWrite (ε := Trees) name data) :=
  stays_checked (stays_routed _ _ _ fun n => staysIn_change fun e => e.writtenPath n data)

theorem stays_fsGetcwd (capacity : Nat) : Moves Stays (fsGetcwd (ε := Trees) capacity) :=
  .bind .get fun _ => .ite (stays_onEngine (staysIn_read fun e => e.getcwd capacity)) (.pure _)

theorem sameTable_syncLoop (l : List (Fin 8)) : Moves SameTable (syncLoop (ε := Trees) l) := by
  induction l with
  | nil => exact .pure _
  | cons i l ih =>
    unfold syncLoop
    refine .bind .get fun s => .ite ?_ ((Moves.pure _).bind fun failed => ih.bind fun r => .pure _)
    refine (sameTable_activate _).bind fun ok => .ite ((Moves.pure _).bind fun failed => ih.bind fun r => .pure _) ?_
    exact (sameTable_onEngine _).bind fun r => (Moves.pure _).bind fun failed => ih.bind fun r => .pure _

theorem stays_fsSync : Moves Stays (fsSync (ε := Trees)) := by
  intro s
  cases ha : s.active with
  | true =>
    have : exec fsSync s = exec (syncLoop (List.finRange 8)) s := by simp [fsSync, ha]
    rw [this]
    exact .of_sameTable (sameTable_syncLoop _ s) ha
  | false =>
    have : exec fsSync s = exec (onEngine (Engine.extSync (ε := Trees))) s := by simp [fsSync, ha]
    rw [this]
    exact stays_onEngine (staysIn_read fun e => if e.ready then 0 else -1) s

/-- Changing the directory ends in a normalized path. -/
theorem stays_cd {name : Name} {dir : Name → StateM (Space Trees) Bool} (hdir : ∀ n, Moves Stays (dir n)) : Moves Stays (do
      let s ← get
      if !s.active then onEngine (Engine.extCd name)
      else
        match normalize s.working name with
        | none => return -1
        | some path =>
          if !(← dir path) then return -1
          modify ({ · with working := path })
          return 0 : StateM (Space Trees) Int) := by
  refine .bind .get fun s => .ite (stays_onEngine (staysIn_extCd name)) ?_
  cases hn : normalize s.working name with
  | none => exact .pure _
  | some path =>
    obtain ⟨ps, rfl, hps⟩ := normalize_spec hn
    refine (hdir _).bind fun ok => .ite (.pure _) (Moves.bind (.modify fun t => ?_) fun _ => .pure _)
    exact ⟨rfl, fun h => h, fun hp => ⟨fun _ => ⟨ps, hps, rfl⟩, hp.cwd⟩⟩

theorem stays_fsCd (name : Name) : Moves Stays (fsCd (ε := Trees) name) :=
  stays_checked (stays_cd stays_fsIsDir)

theorem stays_plainCd (name : Name) : Moves Stays (plainCd (ε := Trees) name) :=
  stays_cd stays_plainIsDir

/-- Loading the settings only reads. -/
theorem moves_settingsLoad {R : Space Trees → Space Trees → Prop} [Std.Refl R] [IsTrans (Space Trees) R]
    (hsize : ∀ name, Moves R (fsSize (ε := Trees) name)) (hread : ∀ name n, Moves R (fsRead (ε := Trees) name 0 n)) :
    Moves R (settingsLoad (ε := Trees)) := by
  unfold settingsLoad
  refine .bind .get fun s => (hsize _).bind fun n => .ite ?_ ?_ <;>
  · try refine (hread _ _).bind fun _ => ?_
    refine (hsize _).bind fun size => .ite ?_ (.ite ((hread _ _).bind fun _ => .pure _) (.pure _))
    exact (hsize _).bind fun size => .ite ((hread _ _).bind fun _ => .pure _) (.pure _)

theorem stays_settingsLoad : Moves Stays (settingsLoad (ε := Trees)) :=
  moves_settingsLoad stays_fsSize fun name n => stays_fsRead name 0 n

theorem sameTable_settingsLoad : Moves SameTable (settingsLoad (ε := Trees)) := by
  refine moves_settingsLoad (fun name => sameTable_checked (sameTable_routed _ _ _ _)) fun name n => sameTable_checked ?_
  refine (sameTable_routed _ _ _ _).bind fun data => ?_
  cases data <;> exact .pure _

theorem stays_authenticateUser (user password : Name) : Moves Stays (authenticateUser (ε := Trees) user password) := by
  unfold authenticateUser
  refine .ite (.pure _) ((stays_privateRead _ _).bind fun data => ?_)
  cases data <;> exact .pure _

theorem stays_ensureDir (name : Name) : Moves Stays (ensureDir (ε := Trees) name) :=
  (stays_fsIsDir name).bind fun _ => .ite (.pure _) ((stays_fsMkdir name).bind fun _ => .pure _)

theorem stays_addAccount (user encoded data : Name) : Moves Stays (addAccount (ε := Trees) user encoded data) := by
  unfold addAccount
  refine (stays_fsMkdir _).bind fun _ => (stays_fsMkdir _).bind fun _ => ?_
  refine (stays_ensureDir _).bind fun _ => .ite (.pure _) ((stays_ensureDir _).bind fun _ => .ite (.pure _) ?_)
  refine (stays_privateRead _ _).bind fun _ => (stays_fsWrite _ _).bind fun _ => .ite (.pure _) ?_
  exact (stays_fsWrite _ _).bind fun _ => .pure _

theorem stays_accountCreate (salt user password : Name) : Moves Stays (accountCreate (ε := Trees) salt user password) := by
  unfold accountCreate
  refine stays_namespaceStart.bind fun _ => .bind .get fun s => .ite (.pure _) ((stays_privateRead _ _).bind fun data => ?_)
  cases data with
  | none => exact (stays_fsSize _).bind fun _ => .ite (.pure _) (stays_addAccount _ _ _)
  | some data => exact .ite (.pure _) (.ite (.pure _) (stays_addAccount _ _ _))

end Barnix.Bssh
