import Barnix.Shell.Placed
import Barnix.Vfs.Copy
/-!
# Session identity

Who is working at a prompt, over whole runs of command lines. A login ends every
session and `exit` returns to the session of its `su`, unless `sudo` is put before
them: it puts the user and the sessions of before the line back.
-/

namespace Barnix.Bssh

open Vfs

/-! ## Changing the user -/

theorem enterUser_spec {s : Space Trees} (hs : Placed s) (user : Name) :
    Placed (exec (enterUser user) s).2 ∧ (exec (enterUser user) s).2.active = true ∧
      (exec (enterUser user) s).2.user = user := by
  have hstart := stays_namespaceStart s
  have hp : Placed { (exec namespaceStart s).2 with user := user } := ⟨(hstart.placed hs).working, (hstart.placed hs).cwd⟩
  have hact : ({ (exec namespaceStart s).2 with user := user } : Space Trees).active = true := active_namespaceStart s
  have hrest : Moves Stays (do
      if (← fsCd (home user)) ≠ 0 then
        let _ ← plainCd [slash] : StateM (Space Trees) Unit) :=
    (stays_fsCd _).bind fun _ => .ite ((stays_plainCd _).bind fun _ => .pure _) (.pure _)
  have h := hrest { (exec namespaceStart s).2 with user := user }
  exact ⟨h.placed hp, h.active hact, h.user⟩

theorem switchUser_spec {s t : Space Trees} (hs : Placed s) {user password : Name} {ok : Bool}
    (h : exec (switchUser user password) s = (ok, t)) :
    if ok then Placed t ∧ t.active = true ∧ t.user = user else Stays s t := by
  let Q : Bool → Space Trees → Prop := fun ok t =>
    if ok then Placed t ∧ t.active = true ∧ t.user = user else Stays s t
  have hmove : ∀ {α : Type} {x : StateM (Space Trees) α}, Moves Stays x → Ends (Stays s) x fun _ => Stays s :=
    fun hx u hu => trans_of Stays hu (hx u)
  have henter : Ends (Stays s) (do enterUser user; return true : StateM (Space Trees) Bool) Q :=
    fun u hu => enterUser_spec (hu.placed hs) user
  have hstop : Ends (Stays s) (pure false : StateM (Space Trees) Bool) Q := .pure fun u hu => hu
  have key : Ends (Stays s) (switchUser user password) Q := by
    unfold switchUser
    refine Ends.bind (hmove (stays_authenticateUser user password)) fun ok => .ite (fun _ => henter) fun _ => ?_
    refine Ends.bind (Q := fun _ => Stays s) (fun _ hu => hu) fun u => .ite (fun _ => hstop) fun _ => .ite (fun _ => hstop) fun _ => ?_
    refine Ends.bind (hmove (stays_privateRead userpasswdCfg 4096)) fun data => ?_
    cases data with
    | none => exact hstop
    | some data => exact .ite (fun _ => hstop) fun _ => henter
  have := key s (refl_of Stays s)
  rw [h] at this
  exact this

theorem loginLoop_spec {s t : Space Trees} {typed rest : List Name} {user : Name} (hs : Placed s)
    (h : loginLoop s typed = some (t, rest, user)) : Placed t ∧ t.active = true ∧ t.user = user := by
  fun_induction loginLoop s typed with
  | case1 s name key typed u pw s₁ hauth ih =>
    have := stays_authenticateUser u pw s
    rw [hauth] at this
    exact ih (this.placed hs) h
  | case2 s name key typed u pw s₁ hauth s₂ hswitch =>
    have := stays_authenticateUser u pw s
    rw [hauth] at this
    have hsw := switchUser_spec (this.placed hs) hswitch
    simp only [Option.some.injEq, Prod.mk.injEq] at h
    obtain ⟨rfl, -, rfl⟩ := h
    exact hsw
  | case3 s name key typed u pw s₁ hauth s₂ hswitch ih =>
    have := stays_authenticateUser u pw s
    rw [hauth] at this
    have hsw := switchUser_spec (this.placed hs) hswitch
    exact ih (hsw.placed (this.placed hs)) h
  | case4 => simp at h

theorem rootAccountLoop_placed {salt : Name → Name} {s t : Space Trees} {typed rest : List Name} (hs : Placed s)
    (h : rootAccountLoop salt s typed = some (t, rest)) : Placed t := by
  fun_induction rootAccountLoop salt s typed with
  | case1 s name key typed pw confirm hbad ih => exact ih hs h
  | case2 s name key typed pw confirm hbad s₁ hmake =>
    have := stays_accountCreate (salt root) root pw s
    rw [hmake] at this
    simp only [Option.some.injEq, Prod.mk.injEq] at h
    obtain ⟨rfl, -⟩ := h
    exact this.placed hs
  | case3 s name key typed pw confirm hbad s₁ hmake ih =>
    have := stays_accountCreate (salt root) root pw s
    rw [hmake] at this
    exact ih (this.placed hs) h
  | case4 => simp at h

theorem userAccountLoop_placed {salt : Name → Name} {s t : Space Trees} {typed rest : List Name} (hs : Placed s)
    (h : userAccountLoop salt s typed = some (t, rest)) : Placed t := by
  fun_induction userAccountLoop salt s typed with
  | case1 s name key again typed user pw confirm hbad ih => exact ih hs h
  | case2 s name key again typed user pw confirm hbad s₁ hmake =>
    have := stays_accountCreate (salt user) user pw s
    rw [hmake] at this
    simp only [Option.some.injEq, Prod.mk.injEq] at h
    obtain ⟨rfl, -⟩ := h
    exact this.placed hs
  | case3 s name key again typed user pw confirm hbad s₁ hmake ih =>
    have := stays_accountCreate (salt user) user pw s
    rw [hmake] at this
    exact ih (this.placed hs) h
  | case4 => simp at h

theorem firstStart_placed {salt : Name → Name} {s t : Space Trees} {typed rest : List Name} (hs : Placed s)
    (h : firstStart salt s typed = some (t, rest)) : Placed t := by
  unfold firstStart at h
  simp only [Option.bind_eq_bind, Option.bind_eq_some_iff, Prod.exists, Option.pure_def, Option.some.injEq,
    Prod.mk.injEq] at h
  obtain ⟨a, ta, hroot, b, tb, huser, rfl, -⟩ := h
  exact (stays_fsSync b).placed (userAccountLoop_placed (rootAccountLoop_placed hs hroot) huser)

/-- A completed login leaves its user working. -/
theorem doLogin_spec {salt : Name → Name} {s t : Space Trees} {typed rest : List Name} {user : Name} (hs : Placed s)
    (h : doLogin salt s typed = some (t, rest, user)) : Placed t ∧ t.active = true ∧ t.user = user := by
  have hsize := (stays_fsSize userpasswdCfg s).placed hs
  have hlogin : ∀ u typed', Placed u → ((loginLoop u typed').bind fun r => some ((exec settingsLoad r.1).2, r.2.1, r.2.2)) =
      some (t, rest, user) → Placed t ∧ t.active = true ∧ t.user = user := by
    intro u typed' hu hrun
    obtain ⟨⟨v, typed'', name⟩, hloop, hrun⟩ := Option.bind_eq_some_iff.1 hrun
    simp only [Option.some.injEq, Prod.mk.injEq] at hrun
    obtain ⟨rfl, -, rfl⟩ := hrun
    obtain ⟨hp, ha, hn⟩ := loginLoop_spec hu hloop
    have hload := stays_settingsLoad v
    exact ⟨hload.placed hp, hload.active ha, hload.user.trans hn⟩
  unfold doLogin at h
  dsimp only at h
  split at h
  · obtain ⟨⟨u, typed'⟩, hfirst, h⟩ := Option.bind_eq_some_iff.1 h
    exact hlogin u typed' (firstStart_placed hsize hfirst) h
  · exact hlogin _ _ hsize h

/-! ## Changing the directory -/

theorem fsCd_working {s : Space Trees} {name path : Name} (ha : s.active = true) (hn : normalize s.working name = some path)
    (h : (exec (fsCd name) s).1 = 0) : (exec (fsCd name) s).2.working = path := by
  have hmove : ∀ {α : Type} {x : StateM (Space Trees) α}, Moves SameTable x → Ends (SameTable s) x fun _ => SameTable s :=
    fun hx t ht => trans_of SameTable ht (hx t)
  have key : Ends (SameTable s) (fsCd (ε := Trees) name) fun r t => r = 0 → t.working = path := by
    refine Ends.bind (hmove (sameTable_checkPermission name modeX)) fun ok => .ite (fun _ => .pure fun _ _ h0 => ?_) fun _ => ?_
    · simp at h0
    intro t ht
    obtain ⟨hact, -, hw⟩ := ht.2 ha
    simp only [exec_bind, exec_get, hact, hw, hn, Bool.not_true, Bool.false_eq_true, if_false]
    split
    · intro h0
      simp at h0
    · exact fun _ => rfl
  exact key s (refl_of SameTable s) h

/-- A directory that the user may enter. -/
theorem exec_fsCd_there {s : Space Trees} (hs : Settled s) {ws : List Name} (hws : Normal ws) (hdir : s.node ws = some .dir)
    (hmay : s.may ws modeX = true) : (exec (fsCd (render ws)) s).1 = 0 := by
  have hn : ∀ w, normalize w (render ws) = some (render ws) := fun w => normalize_render w hws
  obtain ⟨t, ht, h⟩ : ∃ t, Steady s t ∧ exec (fsCd (render ws)) s = _ := exec_checked_may hs (hn _) modeX _ _
  rw [h, hmay, if_pos rfl]
  obtain ⟨u, hu, hd⟩ := exec_fsIsDir ht.settled hws (hn _)
  rw [ht.may, ht.node, hmay, hdir] at hd
  simp [ht.settled.active, hn, hd]

/-! ## Commands -/

/-- What a program does leaves the user alone, and the kernel spells working directories
as `normalize` does. -/
structure Harmless (program : Space Trees → Space Trees) : Prop where
  user : ∀ s, (program s).user = s.user
  active : ∀ s, s.active = true → (program s).active = true
  placed : ∀ s, s.active = true → Placed s → Placed (program s)

/-- Somebody is at work in an active namespace. -/
structure Working (s : Space Trees) : Prop where
  placed : Placed s
  active : s.active = true

theorem Working.stays {s t : Space Trees} (h : Working s) (hst : Stays s t) : Working t :=
  ⟨hst.placed h.placed, hst.active h.active⟩

theorem Working.as {s : Space Trees} (h : Working s) (user : Name) : Working (s.as user) :=
  ⟨⟨h.placed.working, h.placed.cwd⟩, h.active⟩

theorem Working.getcwd {s : Space Trees} (h : Working s) : exec (fsGetcwd pathCap) s = (.ok s.working, s) := by
  obtain ⟨ws, hws, hw⟩ := h.placed.working h.active
  have hlen := hws.2
  rw [← hw] at hlen
  have hfit : ¬ pathCap < s.working.length + 1 := by omega
  simp only [fsGetcwd, exec_bind, exec_get, h.active, Bool.not_true, Bool.false_eq_true, if_false, exec_pure]
  exact Prod.ext (if_neg hfit) rfl

theorem working_checkPermission {s t : Space Trees} {name : Name} {mode : UInt8} {ok : Bool} (hs : Working s)
    (h : exec (checkPermission name mode) s = (ok, t)) : t.working = s.working := by
  have hsame := (sameTable_checkPermission name mode s).2 hs.active
  rw [h] at hsame
  exact hsame.2.2

theorem restore_spec {s : Space Trees} (h : Working s) (session : Session) :
    Working (restore session s) ∧ (restore session s).user = session.user := by
  have hcd := stays_fsCd session.cwd (s.as session.user)
  exact ⟨(h.as session.user).stays hcd, hcd.user⟩

/-- The command leaves the shell in the same session. -/
structure InSession (s t : Shell Trees) : Prop where
  working : Working t.space
  user : t.space.user = s.space.user
  depth : t.depth = s.depth
  below : ∀ i < s.depth, t.sessions i = s.sessions i

theorem InSession.of_stays {s : Shell Trees} {space : Space Trees} (h : Working s.space) (hst : Stays s.space space) :
    InSession s { s with space := space } := ⟨h.stays hst, hst.user, rfl, fun _ _ => rfl⟩

theorem runSu_spec {s t : Shell Trees} {args typed rest : List Name} {reports : List Report} (hs : Working s.space)
    (h : runSu args s typed = some (t, rest, reports)) :
    (reports = [] ∧ InSession s t) ∨ (reports = [.opened] ∧ Working t.space ∧ t.depth = s.depth + 1 ∧
      t.sessions = Function.update s.sessions s.depth ⟨s.space.user, s.space.working⟩) := by
  unfold runSu at h
  split at h
  · simp only [Option.some.injEq, Prod.mk.injEq] at h
    obtain ⟨rfl, -, rfl⟩ := h
    exact .inl ⟨rfl, hs, rfl, rfl, fun _ _ => rfl⟩
  rw [hs.getcwd] at h
  obtain ⟨⟨password, typed'⟩, -, h⟩ := Option.bind_eq_some_iff.1 h
  dsimp only at h
  split at h
  · rename_i u hrun
    simp only [Option.some.injEq, Prod.mk.injEq] at h
    obtain ⟨rfl, -, rfl⟩ := h
    have hst : Stays s.space u := switchUser_spec hs.placed hrun
    exact .inl ⟨rfl, hs.stays hst, hst.user, rfl, fun i hi => Function.update_of_ne (Nat.ne_of_lt hi) _ _⟩
  · rename_i u hrun
    simp only [Option.some.injEq, Prod.mk.injEq] at h
    obtain ⟨rfl, -, rfl⟩ := h
    have hsw : Placed u ∧ u.active = true ∧ u.user = args.headD root := switchUser_spec hs.placed hrun
    exact .inr ⟨rfl, Working.stays ⟨hsw.1, hsw.2.1⟩ (stays_settingsLoad u), rfl, rfl⟩

theorem runUseradd_spec {line : Line Trees} {s t : Shell Trees} {args typed rest : List Name} {reports : List Report}
    (hs : Working s.space) (h : runUseradd line args s typed = some (t, rest, reports)) : reports = [] ∧ InSession s t := by
  have hsame : InSession s s := ⟨hs, rfl, rfl, fun _ _ => rfl⟩
  have hdone : ∀ u, InSession s u → ∀ r r' : List Name, some (u, r, []) = some (t, r', reports) →
      reports = [] ∧ InSession s t := by
    intro u hu r r' he
    simp only [Option.some.injEq, Prod.mk.injEq] at he
    obtain ⟨rfl, -, rfl⟩ := he
    exact ⟨rfl, hu⟩
  unfold runUseradd at h
  split at h
  · split at h
    · exact hdone s hsame _ _ h
    dsimp only at h
    split at h
    · exact hdone s hsame _ _ h
    · exact hdone _ (.of_stays hs (stays_accountCreate _ _ _ s.space)) _ _ h
  · split at h
    · exact hdone s hsame _ _ h
    · simp at h
  · exact hdone s hsame _ _ h

/-- `exit` from an inner session. -/
structure Returns (s t : Shell Trees) : Prop where
  depth : t.depth = s.depth - 1
  sessions : t.sessions = s.sessions
  space : t.space = (exec settingsLoad (restore (s.sessions (s.depth - 1)) s.space)).2

/-- A completed login. -/
structure LoggedIn (user : Name) (t : Shell Trees) : Prop where
  working : Working t.space
  user : t.space.user = user
  depth : t.depth = 0

theorem runExit_spec {line : Line Trees} {name : Name} {s t : Shell Trees} {typed rest : List Name} {reports : List Report}
    (hs : Working s.space) (h : runExit line name s typed = some (t, rest, reports)) :
    t.sessions = s.sessions ∧ ((name = exitName ∧ s.depth ≠ 0 ∧ reports = [.returned] ∧ Returns s t) ∨
      (¬ (name = exitName ∧ s.depth ≠ 0) ∧ ∃ user, reports = [.welcome user] ∧ LoggedIn user t)) := by
  unfold runExit at h
  split at h
  · rename_i hc
    simp only [Option.some.injEq, Prod.mk.injEq] at h
    obtain ⟨rfl, -, rfl⟩ := h
    exact ⟨rfl, .inl ⟨hc.1, hc.2, rfl, rfl, rfl, rfl⟩⟩
  · rename_i hc
    obtain ⟨⟨space, typed', user⟩, hlogin, h⟩ := Option.bind_eq_some_iff.1 h
    simp only [Option.pure_def, Option.some.injEq, Prod.mk.injEq] at h
    obtain ⟨rfl, -, rfl⟩ := h
    obtain ⟨hp, ha, hn⟩ := doLogin_spec (hs.as root).placed hlogin
    exact ⟨rfl, .inr ⟨hc, user, rfl, ⟨hp, ha⟩, hn, rfl⟩⟩

/-- The command behind any number of `sudo`. -/
def command (words : List Name) : List Name := words.dropWhile (· = sudoName)

/-- The command is `exit` or `logout`. -/
def Leaves (words : List Name) : Prop := (command words).head? = some exitName ∨ (command words).head? = some logoutName

/-- `sudo` may be run, and whoever is not root types root's password. -/
def Granted (s : Space Trees) (typed : List Name) : Prop :=
  (exec (checkPermission (bin ++ [slash] ++ sudoName) modeX) s).1 = true ∧
    (s.user = root ∨ ∃ key rest, typed = key :: rest ∧
      (exec (authenticateUser root (secretInput maxPassword key))
        (exec (checkPermission (bin ++ [slash] ++ sudoName) modeX) s).2).1 = true)

/-- What `sudo` runs, and what it puts back afterwards. -/
structure Wraps (line : Line Trees) (args : List Name) (s t : Shell Trees) (typed : List Name) (reports : List Report) :
    Prop where
  granted : Granted s.space typed
  inner : ∃ u typed' rest v, Working u ∧ runCommand line args { s with space := u.as root } typed' = some (v, rest, reports) ∧
    t = ⟨(exec settingsLoad (restore ⟨s.space.user, s.space.working⟩ v.space)).2, v.sessions, s.depth⟩

theorem runCommand_sudo {line : Line Trees} {s t : Shell Trees} {args typed rest : List Name} {reports : List Report}
    (hs : Working s.space) (h : runCommand line (sudoName :: args) s typed = some (t, rest, reports)) :
    (reports = [] ∧ InSession s t) ∨ Wraps line args s t typed reports := by
  have hdone : ∀ u, Stays s.space u → ∀ r r' : List Name, some (({ s with space := u } : Shell Trees), r, ([] : List Report)) =
      some (t, r', reports) → reports = [] ∧ InSession s t := by
    intro u hu r r' he
    simp only [Option.some.injEq, Prod.mk.injEq] at he
    obtain ⟨rfl, -, rfl⟩ := he
    exact ⟨rfl, .of_stays hs hu⟩
  have hnames : sudoName ≠ suName ∧ sudoName ≠ useraddName := by decide
  have hcheck := stays_checkPermission (bin ++ [slash] ++ sudoName) modeX s.space
  rw [runCommand, if_pos (.inr (.inl rfl))] at h
  cases hrun : exec (checkPermission (bin ++ [slash] ++ sudoName) modeX) s.space with
  | mk ok u =>
  rw [hrun] at h hcheck
  cases ok with
  | false => exact .inl (hdone u hcheck _ _ h)
  | true =>
  dsimp only at h
  rw [if_neg hnames.1, if_neg hnames.2] at h
  split at h
  · exact .inl (hdone u hcheck _ _ h)
  have hu := hs.stays hcheck
  obtain ⟨⟨password, typed'⟩, hask, h⟩ := Option.bind_eq_some_iff.1 h
  rw [hu.getcwd] at hask h
  dsimp only at hask h
  -- past the password
  have hgo : ∀ w, Stays u w → Granted s.space typed → ((runCommand line args { s with space := w.as root } typed').bind fun r =>
        some ((⟨(exec settingsLoad (restore ⟨u.user, u.working⟩ r.1.space)).2, r.1.sessions, s.depth⟩ : Shell Trees),
          r.2.1, r.2.2)) = some (t, rest, reports) → Wraps line args s t typed reports := by
    intro w hw hgranted hbind
    obtain ⟨⟨v, rest', reports'⟩, hinner, he⟩ := Option.bind_eq_some_iff.1 hbind
    simp only [Option.some.injEq, Prod.mk.injEq] at he
    obtain ⟨rfl, -, rfl⟩ := he
    refine ⟨hgranted, w, typed', rest', v, hu.stays hw, hinner, ?_⟩
    rw [hcheck.user, working_checkPermission hs hrun]
  by_cases hroot : u.user = root
  · rw [if_pos hroot] at h
    refine .inr (hgo u (refl_of Stays u) ⟨by rw [hrun], .inl (hcheck.user ▸ hroot)⟩ h)
  · rw [if_neg hroot] at h
    cases hauth : exec (authenticateUser root password) u with
    | mk ok w =>
    have hw := stays_authenticateUser root password u
    rw [hauth] at h hw
    cases ok with
    | false => exact .inl (hdone w (trans_of Stays hcheck hw) _ _ h)
    | true =>
      refine .inr (hgo w hw ⟨by rw [hrun], .inr ?_⟩ h)
      unfold askPassword at hask
      rw [if_neg hroot] at hask
      cases typed with
      | nil => simp at hask
      | cons key keys =>
        simp only [Option.some.injEq, Prod.mk.injEq] at hask
        exact ⟨key, keys, rfl, by rw [hrun, hask.1, hauth]⟩

theorem leaves_sudo {args : List Name} : Leaves (sudoName :: args) ↔ Leaves args := by
  simp [Leaves, command]

theorem leaves_of_name {name : Name} {args : List Name} (h : name = exitName ∨ name = logoutName) : Leaves (name :: args) := by
  have hne : ¬ name = sudoName := by
    rcases h with rfl | rfl <;> decide
  simpa [Leaves, command, hne] using h

/-- A command leaves the saved sessions alone, and only `exit` and `logout` end one. -/
theorem runCommand_below {line : Line Trees} (hline : Harmless line.program) (words : List Name) {s t : Shell Trees}
    {typed rest : List Name} {reports : List Report} (hs : Working s.space)
    (h : runCommand line words s typed = some (t, rest, reports)) :
    Working t.space ∧ (∀ i < s.depth, t.sessions i = s.sessions i) ∧ ((∃ r ∈ reports, r ≠ .opened) → Leaves words) := by
  have hdone : ∀ words : List Name, (reports = [] ∧ InSession s t) →
      Working t.space ∧ (∀ i < s.depth, t.sessions i = s.sessions i) ∧ ((∃ r ∈ reports, r ≠ .opened) → Leaves words) := by
    rintro words ⟨rfl, ht⟩
    exact ⟨ht.working, ht.below, by simp⟩
  induction words generalizing s t typed rest reports with
  | nil =>
    rw [runCommand] at h
    simp only [Option.some.injEq, Prod.mk.injEq] at h
    obtain ⟨rfl, -, rfl⟩ := h
    exact hdone _ ⟨rfl, hs, rfl, rfl, fun _ _ => rfl⟩
  | cons name args ih =>
    by_cases hsudo : name = sudoName
    · subst hsudo
      rcases runCommand_sudo hs h with hr | ⟨-, u, typed', rest', v, hu, hinner, rfl⟩
      · exact hdone _ hr
      obtain ⟨hv, hbelow, hleaves⟩ := ih (hu.as root) hinner fun words hr => ⟨hr.2.working, hr.2.below, by simp [hr.1]⟩
      refine ⟨(restore_spec hv _).1.stays (stays_settingsLoad _), hbelow, fun hr => leaves_sudo.2 (hleaves hr)⟩
    rw [runCommand] at h
    split at h
    · -- `su` and `useradd`
      rename_i hnames
      have hcheck := stays_checkPermission (bin ++ [slash] ++ name) modeX s.space
      split at h
      · rename_i u hrun
        rw [hrun] at hcheck
        simp only [Option.some.injEq, Prod.mk.injEq] at h
        obtain ⟨rfl, -, rfl⟩ := h
        exact hdone _ ⟨rfl, .of_stays hs hcheck⟩
      · rename_i u hrun
        rw [hrun] at hcheck
        have hu : Working u := hs.stays hcheck
        dsimp only at h
        split at h
        · rcases runSu_spec (s := { s with space := u }) hu h with ⟨rfl, ht⟩ | ⟨rfl, ht, -, hsess⟩
          · exact ⟨ht.working, ht.below, by simp⟩
          · exact ⟨ht, fun i hi => by rw [hsess]; exact Function.update_of_ne (Nat.ne_of_lt hi) _ _, by simp⟩
        · rename_i hsu
          have hadd : name = useraddName := by
            rcases hnames with h1 | h1 | h1
            · exact absurd h1 hsu
            · exact absurd h1 hsudo
            · exact h1
          rw [if_pos hadd] at h
          obtain ⟨rfl, ht⟩ := runUseradd_spec (s := { s with space := u }) hu h
          exact ⟨ht.working, ht.below, by simp⟩
    split at h
    · rename_i hname
      obtain ⟨hsess, hcases⟩ := runExit_spec hs h
      refine ⟨?_, fun i _ => by rw [hsess], fun _ => leaves_of_name hname⟩
      rcases hcases with ⟨-, -, -, hret⟩ | ⟨-, user, -, hin⟩
      · rw [hret.space]
        exact (restore_spec hs _).1.stays (stays_settingsLoad _)
      · exact hin.working
    split at h
    · simp only [Option.some.injEq, Prod.mk.injEq] at h
      obtain ⟨rfl, -, rfl⟩ := h
      exact hdone _ ⟨rfl, hs, rfl, rfl, fun _ _ => rfl⟩
    · simp only [Option.some.injEq, Prod.mk.injEq] at h
      obtain ⟨rfl, -, rfl⟩ := h
      exact ⟨⟨hline.placed _ hs.active hs.placed, hline.active _ hs.active⟩, fun _ _ => rfl, by simp⟩

/-- What a command line does to the session: it stays; `su` opens another one on top; it
ends. A login or a return under `sudo` is undone. -/
inductive Effect (line : Line Trees) (s t : Shell Trees) : List Report → Prop
  | stays {reports : List Report} : InSession s t → (∀ r ∈ reports, r = .opened ∧ line.words.head? = some sudoName) →
      (line.compound = false → line.words.head? ≠ some exitName) → Effect line s t reports
  | opened : Working t.space → line.words.head? = some suName → t.depth = s.depth + 1 →
      t.sessions = Function.update s.sessions s.depth ⟨s.space.user, s.space.working⟩ → Effect line s t [.opened]
  | returned : s.depth ≠ 0 → Returns s t → Effect line s t [.returned]
  | loggedIn (user : Name) : LoggedIn user t → (line.words.head? = some exitName → s.depth = 0) →
      Effect line s t [.welcome user]
  | undone {reports : List Report} : line.compound = false → line.words.head? = some sudoName → Leaves line.words →
      Granted s.space line.typed → Effect line s t reports

theorem execute_effect {line : Line Trees} (hline : Harmless line.program) {s t : Shell Trees} {reports : List Report}
    (hs : Working s.space) (h : execute line s = some (t, reports)) : Effect line s t reports := by
  have hprogram : InSession s { s with space := line.program s.space } :=
    ⟨⟨hline.placed _ hs.active hs.placed, hline.active _ hs.active⟩, hline.user _, rfl, fun _ _ => rfl⟩
  have hsame : InSession s s := ⟨hs, rfl, rfl, fun _ _ => rfl⟩
  unfold execute at h
  split at h
  · rename_i hcompound
    simp only [Option.some.injEq, Prod.mk.injEq] at h
    obtain ⟨rfl, rfl⟩ := h
    exact .stays hprogram (by simp) fun hno => by simp [hcompound] at hno
  rename_i hcompound
  have hcompound : line.compound = false := by simpa using hcompound
  obtain ⟨⟨t', rest, reports'⟩, hcmd, he⟩ := Option.map_eq_some_iff.1 h
  obtain ⟨rfl, rfl⟩ := Prod.mk.inj he
  replace h := hcmd
  have hquiet : (∀ name args, line.words = name :: args → name ≠ exitName) → reports' = [] ∧ InSession s t' →
      Effect line s t' reports' := by
    rintro hname ⟨rfl, ht⟩
    refine .stays ht (by simp) fun _ hhead => ?_
    cases hw : line.words with
    | nil => simp [hw] at hhead
    | cons name args =>
      rw [hw] at hhead
      exact hname name args hw (by simpa using hhead)
  cases hwords : line.words with
  | nil =>
    rw [hwords, runCommand] at h
    simp only [Option.some.injEq, Prod.mk.injEq] at h
    obtain ⟨rfl, -, rfl⟩ := h
    exact hquiet (by simp [hwords]) ⟨rfl, hsame⟩
  | cons name args =>
  rw [hwords] at h
  have hname : ∀ {n : Name}, name = n → n ≠ exitName → ∀ name' args', line.words = name' :: args' → name' ≠ exitName := by
    rintro n rfl hn name' args' hw
    rw [hwords] at hw
    rw [← (List.cons.inj hw).1]
    exact hn
  by_cases hsudo : name = sudoName
  · subst hsudo
    rcases runCommand_sudo hs h with hr | hwrap
    · exact hquiet (hname rfl (by decide)) hr
    by_cases hleaves : Leaves line.words
    · exact .undone hcompound (by simp [hwords]) hleaves hwrap.granted
    · obtain ⟨u, typed', rest', v, hu, hinner, rfl⟩ := hwrap.inner
      obtain ⟨hv, hbelow, hends⟩ := runCommand_below hline args (hu.as root) hinner
      refine .stays ⟨(restore_spec hv _).1.stays (stays_settingsLoad _), ?_, rfl, hbelow⟩ (fun r hr => ⟨?_, by simp [hwords]⟩)
        fun _ hhead => ?_
      · exact (stays_settingsLoad _).user.trans (restore_spec hv _).2
      · by_contra hne
        refine hleaves ?_
        rw [hwords]
        exact leaves_sudo.2 (hends ⟨r, hr, hne⟩)
      · rw [hwords] at hhead
        exact absurd (Option.some.inj hhead) (by decide)
  rw [runCommand] at h
  split at h
  · rename_i hnames
    have hcheck := stays_checkPermission (bin ++ [slash] ++ name) modeX s.space
    have hne : name ≠ exitName := by
      rcases hnames with rfl | rfl | rfl <;> decide
    cases hrun : exec (checkPermission (bin ++ [slash] ++ name) modeX) s.space with
    | mk ok u =>
    rw [hrun] at h hcheck
    have hu : Working u := hs.stays hcheck
    have hlift : ∀ {w : Shell Trees}, InSession { s with space := u } w → InSession s w := fun hw =>
      ⟨hw.working, hw.user.trans hcheck.user, hw.depth, hw.below⟩
    cases ok with
    | false =>
      simp only [Option.some.injEq, Prod.mk.injEq] at h
      obtain ⟨rfl, -, rfl⟩ := h
      exact hquiet (hname rfl hne) ⟨rfl, .of_stays hs hcheck⟩
    | true =>
    dsimp only at h
    split at h
    · rename_i hsu
      subst hsu
      rcases runSu_spec (s := { s with space := u }) hu h with ⟨rfl, ht⟩ | ⟨rfl, ht, hdepth, hsess⟩
      · exact hquiet (hname rfl hne) ⟨rfl, hlift ht⟩
      · refine .opened ht (by simp [hwords]) hdepth ?_
        rw [hsess, hcheck.user, working_checkPermission hs hrun]
    · rename_i hsu
      have hadd : name = useraddName := by
        rcases hnames with h1 | h1 | h1
        · exact absurd h1 hsu
        · exact absurd h1 hsudo
        · exact h1
      rw [if_pos hadd] at h
      obtain ⟨hr, ht⟩ := runUseradd_spec (s := { s with space := u }) hu h
      exact hquiet (hname rfl hne) ⟨hr, hlift ht⟩
  split at h
  · rename_i hleave
    obtain ⟨-, ⟨-, hdepth, rfl, hret⟩ | ⟨hno, user, rfl, hin⟩⟩ := runExit_spec hs h
    · exact .returned hdepth hret
    · refine .loggedIn user hin fun hexit => ?_
      rw [hwords] at hexit
      by_contra hdepth
      exact hno ⟨by simpa using hexit, hdepth⟩
  rename_i hleave
  have hne : name ≠ exitName := fun e => hleave (.inl e)
  split at h
  · simp only [Option.some.injEq, Prod.mk.injEq] at h
    obtain ⟨rfl, -, rfl⟩ := h
    exact hquiet (hname rfl hne) ⟨rfl, hsame⟩
  · simp only [Option.some.injEq, Prod.mk.injEq] at h
    obtain ⟨rfl, -, rfl⟩ := h
    exact hquiet (hname rfl hne) ⟨rfl, hprogram⟩

/-! ## Runs -/

/-- A command line that came back to the prompt. -/
structure Step where
  before : Shell Trees
  line : Line Trees
  reports : List Report
  after : Shell Trees

/-- The command lines since the start, the latest one first, and the shell at the prompt. -/
inductive Run : List Step → Shell Trees → Prop
  | start {salt : Name → Name} {space : Space Trees} {sessions : Nat → Session} {typed : List Name} {s : Shell Trees} :
      shellStart salt space sessions typed = some s → Run [] s
  | line {h : List Step} {s t : Shell Trees} {line : Line Trees} {reports : List Report} : Run h s → Harmless line.program →
      execute line s = some (t, reports) → Run (⟨s, line, reports, t⟩ :: h) t

def Report.isWelcome : Report → Bool
  | welcome _ => true
  | _ => false

/-- The sessions that are left and not returned to, the innermost first: `su` at the prompt
opens one, in the place where it is typed; `exit` returns to the last one, and a login ends all. -/
def outer : List Step → List Session
  | [] => []
  | step :: h =>
    if step.reports.any Report.isWelcome then []
    else if .returned ∈ step.reports then (outer h).tail
    else if .opened ∈ step.reports ∧ step.line.words.head? = some suName then
      ⟨step.before.space.user, step.before.space.working⟩ :: outer h
    else outer h

/-- The line ends a session under `sudo`, and the `sudo` is granted. -/
def Slips (step : Step) : Prop :=
  step.line.compound = false ∧ step.line.words.head? = some sudoName ∧ Leaves step.line.words ∧
    Granted step.before.space step.line.typed

/-- What the last line of a run should leave: a login, its user without outer sessions; `exit` with
saved sessions, the user of the matching `su`, in its working directory if that is still
a directory the user may enter. -/
structure Identity (step : Step) (h : List Step) : Prop where
  login : ∀ user, .welcome user ∈ step.reports → step.after.space.user = user ∧ step.after.depth = 0
  exits : step.line.compound = false → step.line.words.head? = some exitName → step.before.depth ≠ 0 →
    .returned ∈ step.reports
  returned : .returned ∈ step.reports → ∃ session others, outer h = session :: others ∧
    step.after.space.user = session.user ∧ ∃ ws, Normal ws ∧ session.cwd = render ws ∧
      ((exec (fsCd session.cwd) (step.before.space.as session.user)).1 = 0 → step.after.space.working = session.cwd) ∧
      (Settled step.before.space → (step.before.space.as session.user).node ws = some .dir →
        (step.before.space.as session.user).may ws modeX = true → step.after.space.working = session.cwd)

/-- `sessions` holds the stack `l`, the outermost session first. -/
def Stacked (sessions : Nat → Session) : List Session → Prop
  | [] => True
  | session :: l => sessions l.length = session ∧ Stacked sessions l

theorem Stacked.congr {sessions sessions' : Nat → Session} {l : List Session} (h : Stacked sessions l)
    (heq : ∀ i < l.length, sessions' i = sessions i) : Stacked sessions' l := by
  induction l with
  | nil => trivial
  | cons session l ih =>
    refine ⟨(heq _ (by simp)).trans h.1, ih h.2 fun i hi => heq i ?_⟩
    simp only [List.length_cons]
    omega

/-- What a run without slips keeps. -/
structure Ranked (h : List Step) (s : Shell Trees) : Prop where
  working : Working s.space
  depth : s.depth = (outer h).length
  stack : Stacked s.sessions (outer h)
  spelled : ∀ session ∈ outer h, ∃ ws, Normal ws ∧ session.cwd = render ws

theorem outer_returned {step : Step} {h : List Step} (hr : step.reports = [.returned]) : outer (step :: h) = (outer h).tail := by
  simp [outer, hr, Report.isWelcome]

theorem outer_opened {step : Step} {h : List Step} (hr : step.reports = [.opened])
    (hsu : step.line.words.head? = some suName) :
    outer (step :: h) = ⟨step.before.space.user, step.before.space.working⟩ :: outer h := by
  simp [outer, hr, hsu, Report.isWelcome]

theorem outer_welcome {step : Step} {h : List Step} {user : Name} (hr : step.reports = [.welcome user]) :
    outer (step :: h) = [] := by
  simp [outer, hr, Report.isWelcome]

theorem outer_stays {step : Step} {h : List Step} (hr : ∀ r ∈ step.reports, r = .opened ∧ step.line.words.head? = some sudoName) :
    outer (step :: h) = outer h := by
  have hw : step.reports.any Report.isWelcome = false := by
    rw [List.any_eq_false]
    intro r hmem
    rw [(hr r hmem).1]
    simp [Report.isWelcome]
  have hret : Report.returned ∉ step.reports := fun hmem => by simpa using (hr _ hmem).1
  have hsu : ¬ (Report.opened ∈ step.reports ∧ step.line.words.head? = some suName) := by
    rintro ⟨hmem, hsu⟩
    have := (hr _ hmem).2.symm.trans hsu
    exact absurd (Option.some.inj this) (by decide)
  rw [outer, hw, if_neg (by simp), if_neg hret, if_neg hsu]

theorem placed_shellInit (space : Space Trees) : Placed (shellInit space) := by
  have hinit : ∀ u : Space Trees, Placed (exec fsInit u).2 := by
    intro u
    refine ⟨fun hno => ?_, fun _ => ?_⟩
    · simp [fsInit, exec_onEngine] at hno
    · simp [fsInit, exec_onEngine, Engine.extInit]
  unfold shellInit
  split
  · exact hinit space
  · have hselect := (@stays_onEngine _ (Engine.diskSelect (ε := Trees) false ram0) (fun _ h => h)
      (exec fsInit space).2).placed (hinit space)
    split
    · rename_i u hrun
      rw [hrun] at hselect
      exact hselect
    · exact hinit _

theorem shellStart_spec {salt : Name → Name} {space : Space Trees} {sessions : Nat → Session} {typed : List Name}
    {s : Shell Trees} (h : shellStart salt space sessions typed = some s) : Working s.space ∧ s.depth = 0 := by
  unfold shellStart at h
  obtain ⟨⟨t, rest, user⟩, hlogin, h⟩ := Option.bind_eq_some_iff.1 h
  simp only [Option.pure_def, Option.some.injEq] at h
  subst h
  obtain ⟨hp, ha, -⟩ := doLogin_spec (placed_shellInit space) hlogin
  exact ⟨⟨hp, ha⟩, rfl⟩

theorem Ranked.step {h : List Step} {step : Step} (hr : Ranked h step.before)
    (he : Effect step.line step.before step.after step.reports) (hno : ¬ Slips step) : Ranked (step :: h) step.after := by
  obtain ⟨s, line, reports, t⟩ := step
  dsimp only at hr he hno ⊢
  cases he with
  | stays ht hrep _ =>
    have houter : outer (⟨s, line, reports, t⟩ :: h) = outer h := outer_stays hrep
    refine ⟨ht.working, ?_, ?_, ?_⟩ <;> rw [houter]
    · exact ht.depth.trans hr.depth
    · exact hr.stack.congr fun i hi => ht.below i (hr.depth ▸ hi)
    · exact hr.spelled
  | opened ht hsu hdepth hsess =>
    have houter : outer (⟨s, line, [.opened], t⟩ :: h) = ⟨s.space.user, s.space.working⟩ :: outer h := outer_opened rfl hsu
    refine ⟨ht, ?_, ?_, ?_⟩ <;> rw [houter]
    · rw [hdepth, hr.depth, List.length_cons]
    · refine ⟨?_, hr.stack.congr fun i hi => ?_⟩
      · rw [hsess, hr.depth, Function.update_self]
      · rw [hsess, hr.depth, Function.update_of_ne (Nat.ne_of_lt hi)]
    · intro session hmem
      rcases List.mem_cons.1 hmem with rfl | hmem
      · exact hr.working.placed.working hr.working.active
      · exact hr.spelled session hmem
  | returned hdepth hret =>
    have houter : outer (⟨s, line, [.returned], t⟩ :: h) = (outer h).tail := outer_returned rfl
    have hlen := hr.depth
    have hstack := hr.stack
    have hspelled := hr.spelled
    refine ⟨?_, ?_, ?_, ?_⟩
    · rw [hret.space]
      exact (restore_spec hr.working _).1.stays (stays_settingsLoad _)
    all_goals
      rw [houter]
      cases ho : outer h with
      | nil => simp [ho] at hlen; exact absurd hlen hdepth
      | cons session others =>
        rw [ho] at hlen hstack hspelled
        first
          | exact (hret.depth.trans (by rw [hlen]; rfl))
          | (rw [hret.sessions]; exact hstack.2)
          | exact fun x hx => hspelled x (by simpa using Or.inr hx)
  | loggedIn user hin _ =>
    have houter : outer (⟨s, line, [.welcome user], t⟩ :: h) = [] := outer_welcome rfl
    refine ⟨hin.working, ?_, ?_, ?_⟩ <;> rw [houter]
    · exact hin.depth
    · trivial
    · simp
  | undone hc hsudo hleaves hgranted => exact absurd ⟨hc, hsudo, hleaves, hgranted⟩ hno

theorem Run.ranked {h : List Step} {s : Shell Trees} (hrun : Run h s) (hno : ∀ step ∈ h, ¬ Slips step) : Ranked h s := by
  induction hrun with
  | start hs =>
    obtain ⟨hw, hd⟩ := shellStart_spec hs
    exact ⟨hw, hd, trivial, by simp [outer]⟩
  | line hprev hharm hexec ih =>
    have hr := ih fun step hmem => hno step (by simp [hmem])
    exact @Ranked.step _ ⟨_, _, _, _⟩ hr (execute_effect hharm hr.working hexec) (hno _ (by simp))

theorem Ranked.identity {h : List Step} {step : Step} (hr : Ranked h step.before)
    (he : Effect step.line step.before step.after step.reports) (hno : ¬ Slips step) : Identity step h := by
  obtain ⟨s, line, reports, t⟩ := step
  dsimp only at hr he hno
  cases he with
  | stays ht hrep hexit =>
    refine ⟨fun user hmem => ?_, fun hc hhead _ => absurd hhead (hexit hc), fun hmem => ?_⟩
    · simpa using (hrep _ hmem).1
    · simpa using (hrep _ hmem).1
  | opened ht hsu hdepth hsess =>
    refine ⟨by simp, fun _ hhead _ => ?_, by simp⟩
    have := hsu.symm.trans hhead
    exact absurd (Option.some.inj this) (by decide)
  | returned hdepth hret =>
    refine ⟨by simp, fun _ _ _ => by simp, fun _ => ?_⟩
    have hlen := hr.depth
    have hstack := hr.stack
    cases ho : outer h with
    | nil =>
      rw [ho] at hlen
      exact absurd hlen hdepth
    | cons session others =>
    rw [ho] at hlen hstack
    obtain ⟨ws, hws, hcwd⟩ := hr.spelled session (by simp [ho])
    have htop : s.sessions (s.depth - 1) = session := by
      rw [hlen]
      exact hstack.1
    have hspace := hret.space
    rw [htop] at hspace
    have hrestore := restore_spec hr.working session
    have hworking : t.space.working = (restore session s.space).working := by
      rw [hspace]
      exact ((sameTable_settingsLoad _).2 hrestore.1.active).2.2
    have hcd : (exec (fsCd session.cwd) (s.space.as session.user)).1 = 0 → t.space.working = session.cwd := by
      intro h0
      rw [hworking]
      refine fsCd_working (s := s.space.as session.user) hr.working.active ?_ h0
      rw [hcwd]
      exact normalize_render _ hws
    refine ⟨session, others, rfl, ?_, ws, hws, hcwd, hcd, fun hset hdir hmay => hcd ?_⟩
    · rw [hspace]
      exact (stays_settingsLoad _).user.trans hrestore.2
    · rw [hcwd]
      exact exec_fsCd_there (hset.as session.user) hws hdir hmay
  | loggedIn user hin hexit =>
    refine ⟨fun user' hmem => ?_, fun _ hhead hdepth => absurd (hexit hhead) hdepth, by simp⟩
    obtain rfl : user' = user := by simpa using hmem
    exact ⟨hin.user, hin.depth⟩
  | undone hc hsudo hleaves hgranted => exact absurd ⟨hc, hsudo, hleaves, hgranted⟩ hno

/-- In a run without slips every line leaves the right user working. -/
theorem session_identity {h : List Step} {s : Shell Trees} (hrun : Run h s) (hno : ∀ step ∈ h, ¬ Slips step) :
    ∀ pre step rest, h = pre ++ step :: rest → Identity step rest := by
  induction hrun with
  | start hs => intro pre step rest heq; simp at heq
  | @line h s t line reports hprev hharm hexec ih =>
    intro pre step rest heq
    have hno' : ∀ step ∈ h, ¬ Slips step := fun step hmem => hno step (by simp [hmem])
    cases pre with
    | nil =>
      obtain ⟨rfl, rfl⟩ := List.cons.inj heq
      have hr := hprev.ranked hno'
      exact @Ranked.identity _ ⟨s, line, reports, t⟩ hr (execute_effect hharm hr.working hexec) (hno _ (by simp))
    | cons first pre => exact ih hno' pre step rest (List.cons.inj heq).2

/-! ## `exit`, and `sudo logout` -/

/-- A volume with the accounts `root`, password `r`, and `u`, password `u`. -/
def accounts : Space Trees where
  mounts _ := ⟨false, noDisk, []⟩
  working := [slash]
  active := false
  activeVolume := none
  user := root
  renamedAcl := []
  renameGuard := []
  renamedAclNeeded := false
  engine := {
    volumes := fun d => if d = ⟨2, 0, 2048, 1⟩ then some ⟨[([[101, 116, 99]], .dir), ([[104, 111, 109, 101]], .dir),
      ([[104, 111, 109, 101], [117]], .dir),
      ([[101, 116, 99], [117, 115, 101, 114, 112, 97, 115, 115, 119, 100, 46, 99, 102, 103]],
        .file false [114, 111, 111, 116, 58, 114, 10, 117, 58, 117, 10])]⟩ else none
    probe := fun _ _ d => (d, false)
    selected := ⟨2, 0, 2048, 1⟩
    mounted := true
    cwd := []
    refuses := fun _ => false
    clock := 0 }

/-- `words`, with `typed` at the prompts. -/
def plainLine (words typed : List Name) : Line Trees := ⟨false, words, typed, fun _ => [], [], id⟩

theorem harmless_plainLine (words typed : List Name) : Harmless (plainLine words typed).program :=
  ⟨fun _ => rfl, fun _ h => h, fun _ _ h => h⟩

theorem started_isSome : (shellStart (fun _ => []) accounts (fun _ => ⟨[], []⟩) [[117], [117]]).isSome = true := by decide

/-- The first prompt of `u`. -/
def prompt : Shell Trees := (shellStart (fun _ => []) accounts (fun _ => ⟨[], []⟩) [[117], [117]]).get started_isSome

theorem run_prompt : Run [] prompt := .start (Option.some_get _).symm

theorem inner_isSome : (execute (plainLine [suName] [[114]]) prompt).isSome = true := by decide

/-- `su`, with root's password. -/
def inner : Shell Trees × List Report := (execute (plainLine [suName] [[114]]) prompt).get inner_isSome

theorem back_isSome : (execute (plainLine [exitName] []) inner.1).isSome = true := by decide

/-- `exit` after it. -/
def back : Shell Trees × List Report := (execute (plainLine [exitName] []) inner.1).get back_isSome

theorem session_identity_back : back.1.space.user = [117] ∧ back.1.space.working = [47, 104, 111, 109, 101, 47, 117] := by
  have hsu : Run [⟨prompt, plainLine [suName] [[114]], inner.2, inner.1⟩] inner.1 :=
    .line run_prompt (harmless_plainLine _ _) (Option.some_get inner_isSome).symm
  have hexit := Run.line hsu (harmless_plainLine [exitName] []) (Option.some_get back_isSome).symm
  have hno : ∀ step ∈ [(⟨inner.1, plainLine [exitName] [], back.2, back.1⟩ : Step),
      ⟨prompt, plainLine [suName] [[114]], inner.2, inner.1⟩], ¬ Slips step := by
    rintro step hmem ⟨-, hsudo, -⟩
    rcases List.mem_cons.1 hmem with rfl | hmem
    · exact absurd (Option.some.inj hsudo) (by decide)
    · obtain rfl := List.mem_singleton.1 hmem
      exact absurd (Option.some.inj hsudo) (by decide)
  obtain ⟨session, others, ho, hu, ws, -, -, hcd, -⟩ :=
    (session_identity hexit hno [] _ _ rfl).returned (by decide)
  have houter : outer [⟨prompt, plainLine [suName] [[114]], inner.2, inner.1⟩] =
      [⟨[117], [47, 104, 111, 109, 101, 47, 117]⟩] := by
    have huser : prompt.space.user = [117] := by decide
    have hwork : prompt.space.working = [47, 104, 111, 109, 101, 47, 117] := by decide
    rw [outer_opened (by decide) rfl, huser, hwork]
    rfl
  obtain ⟨rfl, -⟩ := List.cons.inj (ho.symm.trans houter)
  exact ⟨hu, hcd (by decide)⟩

theorem relogin_isSome : (execute (plainLine [sudoName, logoutName] [[114], root, [114]]) prompt).isSome = true := by decide

/-- `sudo logout` of `u`, and a login of `root`. -/
def relogin : Shell Trees × List Report :=
  (execute (plainLine [sudoName, logoutName] [[114], root, [114]]) prompt).get relogin_isSome

/-- After `sudo logout` the user of before works on, not the one who has logged in. -/
theorem sudo_logout_undone :
    ¬ ∀ h s, Run h s → ∀ pre step rest, h = pre ++ step :: rest → Identity step rest := by
  intro hall
  have hrun : Run [⟨prompt, plainLine [sudoName, logoutName] [[114], root, [114]], relogin.2, relogin.1⟩] relogin.1 :=
    .line run_prompt (harmless_plainLine _ _) (Option.some_get relogin_isSome).symm
  have huser := ((hall _ _ hrun [] _ [] rfl).login root (by decide)).1
  exact absurd huser (by decide)

end Barnix.Bssh
