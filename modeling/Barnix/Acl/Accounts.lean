import Barnix.Acl.Lines
import Barnix.Vfs.Accounts
import Barnix.Vfs.Copy
import Barnix.Vfs.Removals
/-!
# New accounts

`account_create` copies the account list and puts a line behind it. Together
with the old lines it is a list again when the old text ends with a newline; a
last line without one, which the scanners accept, swallows the new account.
-/

namespace Barnix.Acl

open Vfs

/-! ## Account lists -/

/-- A line `name:secret` that the scanners read as it was written. -/
structure Account where
  name : Name
  secret : Name
  plain : ∀ c ∈ name, c ≠ 0 ∧ c ≠ colon ∧ c ≠ newline
  line : ∀ c ∈ secret, c ≠ 0 ∧ c ≠ newline

namespace Account

def text (a : Account) : Name := a.name ++ colon :: a.secret

variable (a : Account)

theorem text_ne_nil : a.text ≠ [] := by simp [text]

theorem newline_notMem_text : newline ∉ a.text := by
  intro h
  rcases List.mem_append.1 h with h | h
  · exact (a.plain _ h).2.2 rfl
  rcases List.mem_cons.1 h with h | h
  · exact absurd h (by decide)
  · exact (a.line _ h).2 rfl

end Account

/-- The text of an account list. -/
def roll (as : List Account) : Name := unlines (as.map Account.text)

@[simp] theorem roll_nil : roll [] = [] := rfl

@[simp] theorem roll_cons (a : Account) (as : List Account) : roll (a :: as) = a.text ++ newline :: roll as := by
  simp [roll, unlines]

@[simp] theorem roll_append (as bs : List Account) : roll (as ++ bs) = roll as ++ roll bs := by
  simp [roll, unlines]

/-- The text spells the accounts, perhaps without the last newline. -/
def Spells (p : Name) (as : List Account) : Prop := p = roll as ∨ p ++ [newline] = roll as

/-- A text that `authenticate_user` can parse. -/
def Parsable (p : Name) : Prop := ∃ as, Spells p as

/-- Another line can be put behind the text. -/
def Whole (p : Name) : Prop := p = [] ∨ p.getLast? = some newline

instance (p : Name) : Decidable (Whole p) := inferInstanceAs (Decidable (_ ∨ _))

theorem Spells.cons {p : Name} {a : Account} {as : List Account} (h : Spells p (a :: as)) :
    ∃ rest, p = a.text ++ rest ∧ (rest = [] ∨ ∃ r, rest = newline :: r) ∧ Spells (rest.drop 1) as := by
  rcases h with h | h
  · exact ⟨newline :: roll as, by rw [h, roll_cons], .inr ⟨_, rfl⟩, .inl rfl⟩
  · rw [roll_cons] at h
    obtain hnil | ⟨r, c, hr⟩ := List.eq_nil_or_concat' (roll as)
    · rw [hnil] at h
      exact ⟨[], by simpa using List.append_inj_left' h rfl, .inl rfl, .inl hnil.symm⟩
    · rw [hr, ← List.cons_append, ← List.append_assoc] at h
      obtain ⟨hp, hc⟩ := List.append_inj' h rfl
      refine ⟨newline :: r, hp, .inr ⟨r, rfl⟩, .inr ?_⟩
      rw [List.drop_one, List.tail_cons, hr, ← hc]

/-! ## The scanners -/

/-- The secret of the first account with this name. -/
def secretOf (user : Name) (as : List Account) : Option Name := (as.find? (·.name = user)).map (·.secret)

theorem scanPassword_spells {user password : Name} {as : List Account} {rounds : Nat} {p : Name} (h : Spells p as)
    (hlen : p.length ≤ rounds) : scanPassword user password rounds p = (secretOf user as).any (passwordMatches password) := by
  induction as generalizing rounds p with
  | nil =>
    obtain rfl : p = [] := by
      rcases h with h | h
      · exact h
      · simp at h
    cases rounds <;> rfl
  | cons a as ih =>
    obtain ⟨rest, rfl, hrest, hspells⟩ := h.cons
    have hname : ∀ b ∈ a.name, decide (b ≠ colon ∧ b ≠ newline) = true := fun b hb => by simpa using (a.plain b hb).2
    have hsecret : ∀ b ∈ a.secret, decide (b ≠ newline) = true := fun b hb => by simpa using (a.line b hb).2
    have htake : (a.secret ++ rest).takeWhile (fun b => decide (b ≠ newline)) = a.secret := by
      rcases hrest with rfl | ⟨r, rfl⟩
      · rw [List.append_nil]
        exact List.takeWhile_eq_self_iff.2 hsecret
      · exact takeWhile_stop hsecret (by simp)
    have hdrop : (a.secret ++ rest).dropWhile (fun b => decide (b ≠ newline)) = rest := by
      rcases hrest with rfl | ⟨r, rfl⟩
      · rw [List.append_nil]
        exact List.dropWhile_eq_nil_iff.2 hsecret
      · exact dropWhile_stop hsecret (by simp)
    rw [Account.text, List.append_assoc, List.cons_append] at hlen ⊢
    obtain ⟨rounds, rfl⟩ : ∃ k, rounds = k + 1 := by
      rw [List.length_append, List.length_cons] at hlen
      exact Nat.exists_eq_add_one_of_ne_zero (by omega)
    have hfew : (rest.drop 1).length ≤ rounds := by
      rw [List.length_append, List.length_cons, List.length_append] at hlen
      rw [List.length_drop]
      omega
    have hspan : (a.name ++ colon :: (a.secret ++ rest)).span (fun b => decide (b ≠ colon ∧ b ≠ newline)) =
        (a.name, colon :: (a.secret ++ rest)) := span_stop hname (by decide)
    rw [scanPassword, if_neg (by simp), hspan]
    dsimp only
    rw [if_neg (by simp), htake, hdrop, ih hspells hfew]
    by_cases ha : a.name = user
    · simp [secretOf, ha]
    · simp [secretOf, ha]

/-- A name is the mark of a line only for its own account. -/
theorem isPrefixOf_account {user : Name} (hu : colon ∉ user) (a : Account) (rest : Name) :
    (user ++ [colon]).isPrefixOf (a.text ++ rest) = decide (a.name = user) := by
  have hname : colon ∉ a.name := fun h => (a.plain _ h).2.1 rfl
  have hiff := isPrefixOf_field (x := []) (y := a.secret ++ rest) hu hname
  rw [Bool.eq_iff_iff, decide_eq_true_eq, Account.text, List.append_assoc, List.cons_append, hiff]
  constructor
  · exact fun h => h.1.symm
  · exact fun h => ⟨h.symm, rfl⟩

theorem hasLine_spells {user : Name} (hu : colon ∉ user) {as : List Account} {rounds : Nat} {p : Name} (h : Spells p as)
    (hlen : p.length ≤ rounds) : hasLine (user ++ [colon]) rounds p = as.any (·.name = user) := by
  induction as generalizing rounds p with
  | nil =>
    obtain rfl : p = [] := by
      rcases h with h | h
      · exact h
      · simp at h
    cases rounds <;> rfl
  | cons a as ih =>
    obtain ⟨rest, rfl, hrest, hspells⟩ := h.cons
    have hdrop : (a.text ++ rest).dropWhile (fun b => decide (b ≠ newline)) = rest := by
      have htext : ∀ b ∈ a.text, decide (b ≠ newline) = true := by
        intro b hb
        rw [decide_eq_true_eq]
        rintro rfl
        exact a.newline_notMem_text hb
      rcases hrest with rfl | ⟨r, rfl⟩
      · rw [List.append_nil]
        exact List.dropWhile_eq_nil_iff.2 htext
      · exact dropWhile_stop htext (by simp)
    have hpos := List.length_pos_of_ne_nil a.text_ne_nil
    rw [List.length_append] at hlen
    obtain ⟨rounds, rfl⟩ : ∃ k, rounds = k + 1 := Nat.exists_eq_add_one_of_ne_zero (by omega)
    have hfew : (rest.drop 1).length ≤ rounds := by
      rw [List.length_drop]
      omega
    rw [hasLine, if_neg (by simp [a.text_ne_nil]), isPrefixOf_account hu, hdrop, ih hspells hfew, List.any_cons]

/-! ## The new line -/

theorem getLast?_roll {as : List Account} (h : as ≠ []) : (roll as).getLast? = some newline := by
  obtain ⟨bs, a, rfl⟩ := (List.eq_nil_or_concat' as).resolve_left h
  rw [roll_append, roll_cons, roll_nil, ← List.append_assoc]
  simp

/-- Without its last newline, the text ends in the line of the last account. -/
theorem Spells.last {p : Name} {as : List Account} (h : p ++ [newline] = roll as) :
    ∃ bs b, as = bs ++ [b] ∧ p = roll bs ++ b.text := by
  have hne : as ≠ [] := by
    rintro rfl
    simp at h
  obtain ⟨bs, b, rfl⟩ := (List.eq_nil_or_concat' as).resolve_left hne
  refine ⟨bs, b, rfl, ?_⟩
  rw [roll_append, roll_cons, roll_nil, ← List.append_assoc] at h
  exact List.append_inj_left' h rfl

theorem Spells.whole_iff {p : Name} {as : List Account} (h : Spells p as) : Whole p ↔ p = roll as := by
  constructor
  · intro hw
    refine h.resolve_right fun h => ?_
    obtain ⟨bs, b, rfl, rfl⟩ := Spells.last h
    rcases hw with hw | hw
    · exact b.text_ne_nil (List.append_eq_nil_iff.1 hw).2
    · rw [List.getLast?_append_of_ne_nil _ b.text_ne_nil] at hw
      exact b.newline_notMem_text (List.mem_of_getLast? hw)
  · rintro rfl
    by_cases has : as = []
    · exact .inl (by rw [has, roll_nil])
    · exact .inr (getLast?_roll has)

/-- The account list after the new line. -/
def grown (p user secret : Name) : Name := p ++ user ++ [colon] ++ secret ++ [newline]

/-- Behind a whole text the new line is an account. -/
theorem grown_roll (as : List Account) (a : Account) : grown (roll as) a.name a.secret = roll (as ++ [a]) := by
  simp [grown, Account.text]

/-- Behind a text without its last newline it becomes a part of the last secret. -/
theorem grown_glued (bs : List Account) (b : Account) {user secret : Name} (hu : ∀ c ∈ user, c ≠ 0 ∧ c ≠ newline)
    (hs : ∀ c ∈ secret, c ≠ 0 ∧ c ≠ newline) :
    ∃ b' : Account, b'.name = b.name ∧ grown (roll bs ++ b.text) user secret = roll (bs ++ [b']) := by
  refine ⟨⟨b.name, b.secret ++ user ++ [colon] ++ secret, b.plain, fun c hc => ?_⟩, rfl, by simp [grown, Account.text]⟩
  simp only [List.mem_append, List.mem_singleton] at hc
  rcases hc with ((hc | hc) | rfl) | hc
  · exact b.line c hc
  · exact hu c hc
  · decide
  · exact hs c hc

/-! ## Reading the list -/

/-- The components of `/etc/userpasswd.cfg`. -/
def passwdParts : List Name := [[101, 116, 99], [117, 115, 101, 114, 112, 97, 115, 115, 119, 100, 46, 99, 102, 103]]

theorem normal_passwdParts : Normal passwdParts := ⟨by decide, by decide⟩

theorem normalize_userpasswdCfg (working : Name) : normalize working userpasswdCfg = some (render passwdParts) :=
  normalize_render working normal_passwdParts

/-- The mounts of a namespace that starts. -/
theorem mounts_start {s : Space Trees} (ha : s.active = false) : (start s).mounts = fun i =>
    if i = 0 then ⟨s.engine.ready, s.engine.selected, [slash]⟩ else ⟨false, noDisk, []⟩ := by
  simp [start, namespaceStart, ha, onEngine, Engine.engineReady, Engine.diskSelection, Engine.extGetcwd]

/-- Before the start, the engine finds at a path what the namespace shows there. -/
theorem findNode_start {s : Space Trees} (hs : Sound s) (ha : s.active = false) {ps : List Name} (hps : Normal ps) :
    s.engine.findNode (render ps) = (start s).node ps := by
  have htable : Table (start s).mounts := mounts_start ha ▸ .single _ _
  cases hr : s.engine.ready with
  | false =>
    have hno : volumeFor (start s).mounts (render ps) = none := by
      rw [htable.volumeFor_eq_none hps]
      intro v ms hv
      have hused := hv.used
      rw [mounts_start ha] at hused
      by_cases hv0 : v = 0 <;> simp [hv0, hr] at hused
    rw [node_of_no_volume hno, Trees.findNode, Trees.find, if_pos (by simp [hr])]
    rfl
  | true =>
    have hmounted : Mounted (start s).mounts 0 [] := by
      rw [mounts_start ha]
      exact ⟨hr, ⟨by simp, by decide⟩, rfl⟩
    have hvol : volumeFor (start s).mounts (render ps) = some 0 := by
      rw [htable.volumeFor_eq_some hps]
      refine ⟨[], hmounted, List.nil_prefix, fun w ns hns _ hne => ?_⟩
      have hused := hns.used
      simp [mounts_start ha, hne] at hused
    obtain ⟨l, hl⟩ := hs.start.located hps hvol
    obtain ⟨ms, hms, hpath, hsplit⟩ := hl.split
    obtain rfl : ms = [] := render_inj hms.1 (by simp) (hpath.symm.trans hmounted.path)
    obtain rfl : ps = l := hsplit
    have hload : Loaded (start s) 0 (start s) := by
      refine ⟨.refl hs.start, ?_⟩
      simp [start, namespaceStart, ha, onEngine, Engine.engineReady, hr]
    rw [← hload.findNode hps hl, start_engine]

theorem exec_routed_inactive {α : Type} {s : Space Trees} (ha : s.active = false) (name : Name) (parent : Bool) (bad : α)
    (op : Name → StateM Trees α) : exec (routed name parent bad op) s = exec (onEngine (op name)) s := by
  simp [routed, ha]

theorem privateRead_start {s : Space Trees} (hs : Sound s) {ps : List Name} (hps : Normal ps) (cap : Nat) :
    (exec (privateRead (render ps) cap) s).1 = ((start s).file ps).bind fun d => if cap ≤ d.length then none else some d := by
  cases ha : s.active with
  | true =>
    obtain ⟨t, -, ht⟩ := exec_privateRead (hs ha) hps (normalize_render s.working hps) cap
    rw [ht, start_of_active ha]
  | false =>
    have hsize : exec (plainSize (render ps)) s = (((start s).file ps).elim (-1) fun d => (d.length : Int), s) := by
      rw [Space.file, ← findNode_start hs ha hps]
      rw [plainSize, exec_routed_inactive ha]
      show (s.engine.size (render ps), s) = _
      rw [Trees.size]
      rcases s.engine.findNode (render ps) with _ | _ | _ <;> rfl
    have hread : ∀ n, exec (plainRead (render ps) 0 n) s = (((start s).file ps).map (·.take n), s) := by
      intro n
      rw [Space.file, ← findNode_start hs ha hps]
      rw [plainRead, exec_routed_inactive ha]
      show (s.engine.read (render ps) 0 n, s) = _
      rw [Trees.read]
      rcases s.engine.findNode (render ps) with _ | _ | _ <;> simp [fileData]
    cases hf : (start s).file ps with
    | none => simp [privateRead, hsize, hf]
    | some d =>
      by_cases hc : cap ≤ d.length
      · simp [privateRead, hsize, hf, hc]
      · have hpos : ¬ (d.length : Int) < 0 := by omega
        simp [privateRead, hsize, hread, hf, hc, hpos]

/-- The accounts as text: what the scanners see of the file. -/
def accountText (s : Space Trees) : Name := cstr (((start s).file passwdParts).getD [])

/-- The answer of `authenticate_user`. -/
def login (s : Space Trees) (user password : Name) : Bool := (exec (authenticateUser user password) s).1

theorem login_eq {s : Space Trees} (hs : Sound s) (hfit : ∀ d, (start s).file passwdParts = some d → d.length < 4096)
    (user password : Name) : login s user password =
      (validUser user && scanPassword user password (accountText s).length (accountText s)) := by
  have hread : (exec (privateRead userpasswdCfg 4096) s).1 = _ := privateRead_start hs normal_passwdParts 4096
  cases hu : validUser user with
  | false => simp [login, authenticateUser, hu]
  | true =>
    cases hf : (start s).file passwdParts with
    | none =>
      rw [hf] at hread
      simp [login, authenticateUser, hu, hread, accountText, hf, cstr, scanPassword]
    | some d =>
      rw [hf, Option.bind_some, if_neg (Nat.not_le.2 (hfit d hf))] at hread
      simp [login, authenticateUser, hu, hread, accountText, hf]

/-- With a list of accounts, the secret of the first one of this name decides. -/
theorem login_spells {s : Space Trees} (hs : Sound s) (hfit : ∀ d, (start s).file passwdParts = some d → d.length < 4096)
    {as : List Account} (has : Spells (accountText s) as) (user password : Name) :
    login s user password = (validUser user && (secretOf user as).any (passwordMatches password)) := by
  rw [login_eq hs hfit, scanPassword_spells has (Nat.le_refl _)]

/-! ## Making an account -/

/-- Settled states stay settled. -/
def Framed (s t : Space Trees) : Prop := Settled s → Frame s t

instance : Std.Refl Framed := ⟨fun _ h => (Steady.refl h).frame⟩

instance : IsTrans (Space Trees) Framed := ⟨fun _ _ _ h h' hs => (h hs).trans (h' (h hs).settled)⟩

theorem framed_checked {α : Type} {name : Name} {mode : UInt8} {denied : α} {x : StateM (Space Trees) α} (hx : Moves Framed x) :
    Moves Framed (checked name mode denied x) := by
  intro s hs
  obtain ⟨t, ht, he⟩ := exec_checked hs name mode denied x
  rw [he]
  split
  · exact ht.frame.trans (hx t ht.settled)
  · exact ht.frame

theorem framed_read {α : Type} (name : Name) (bad : α) (f : Trees → Name → α) :
    Moves Framed (routed name false bad fun n => modifyGet fun e : Trees => (f e n, e)) := by
  intro s hs
  cases hn : normalize s.working name with
  | none =>
    have he : exec (routed name false bad fun n => modifyGet fun e : Trees => (f e n, e)) s = (bad, s) := by
      simp [routed, hs.active, route, hn]
    rw [he]
    exact (Steady.refl hs).frame
  | some path =>
    obtain ⟨ps, rfl, hps⟩ := normalize_spec hn
    rcases exec_routed_read hs hps hn f bad with ⟨-, h⟩ | ⟨v, l, t, -, hload, h⟩
    · rw [h]
      exact (Steady.refl hs).frame
    · rw [h]
      exact hload.toSteady.frame

theorem framed_change (name : Name) (g : Trees → Name → Option Tree) :
    Moves Framed (routed name true (-1) fun n => modifyGet fun e : Trees => e.change (g e n)) := by
  intro s hs
  cases hn : normalize s.working name with
  | none =>
    have he : exec (routed name true (-1) fun n => modifyGet fun e : Trees => e.change (g e n)) s = (-1, s) := by
      simp [routed, hs.active, route, hn]
    rw [he]
    exact (Steady.refl hs).frame
  | some path =>
    obtain ⟨ps, rfl, hps⟩ := normalize_spec hn
    obtain ⟨u, hu, ⟨h, -⟩ | ⟨_, _, _, _, _, _, -, -, -, -, -, h, -⟩⟩ := exec_routed_change hs hps hn g
    · rw [h]
      exact hu
    · rw [h]
      exact hu

theorem framed_fsMkdir (name : Name) : Moves Framed (fsMkdir (ε := Trees) name) :=
  framed_checked (framed_change name fun e n => e.created n .dir)

theorem framed_fsWrite (name : Name) (data : List UInt8) : Moves Framed (fsWrite (ε := Trees) name data) :=
  framed_checked (framed_change name fun e n => e.writtenPath n data)

theorem framed_ensureDir (name : Name) : Moves Framed (ensureDir (ε := Trees) name) := by
  have hdir : Moves Framed (fsIsDir (ε := Trees) name) := framed_checked (framed_read name false fun e n => e.findNode n == some .dir)
  exact hdir.bind fun _ => .ite (.pure _) ((framed_fsMkdir name).bind fun _ => .pure _)

theorem framed_privateRead (name : Name) (cap : Nat) : Moves Framed (privateRead (ε := Trees) name cap) := by
  have hsize : Moves Framed (plainSize (ε := Trees) name) := framed_read name (-1) Trees.size
  refine hsize.bind fun n => .ite (.pure _) (.bind (framed_read name none fun e m => e.read m 0 n.toNat) fun data => ?_)
  cases data <;> exact .pure _

/-- The state of root's account creation. -/
def AtRoot (s : Space Trees) : Prop := Settled s ∧ s.user = root

theorem atRoot_framed {α : Type} {x : StateM (Space Trees) α} (hx : Moves Framed x) : Ends AtRoot x fun _ => AtRoot :=
  .of_moves hx fun _ _ h hs => ⟨(h hs.1).settled, (h hs.1).user.trans hs.2⟩

/-- Whatever happens to the files of the account, its list is the old one with a new line. -/
theorem addAccount_spec (user encoded data : Name) : Ends AtRoot (addAccount user encoded data) fun ok t =>
    ok = true → Settled t ∧ t.file passwdParts = some (grown (cstr data) user encoded) := by
  have hfail : Ends AtRoot (pure false) fun ok t =>
      ok = true → Settled t ∧ t.file passwdParts = some (grown (cstr data) user encoded) := .pure fun _ _ h => by simp at h
  unfold addAccount
  refine .bind (atRoot_framed (framed_fsMkdir _)) fun _ => .bind (atRoot_framed (framed_fsMkdir _)) fun _ => ?_
  refine .bind (atRoot_framed (framed_ensureDir _)) fun _ => .ite (fun _ => hfail) fun _ => ?_
  refine .bind (atRoot_framed (framed_ensureDir _)) fun _ => .ite (fun _ => hfail) fun _ => ?_
  refine .bind (atRoot_framed (framed_privateRead _ _)) fun _ => ?_
  refine .bind (atRoot_framed (framed_fsWrite _ _)) fun _ => .ite (fun _ => hfail) fun _ => ?_
  intro s hs hok
  obtain ⟨u, hu, ⟨he, -⟩ | ⟨he, hfile, -⟩⟩ := exec_plainWrite hs.1 normal_passwdParts (normalize_userpasswdCfg s.working)
    (grown (cstr data) user encoded)
  all_goals
    have hw : exec (fsWrite userpasswdCfg (cstr data ++ user ++ [colon] ++ encoded ++ [newline])) s = _ :=
      (exec_checked_root hs.2 _ _ _ _).trans he
    rw [exec_bind, hw] at hok ⊢
  · simp at hok
  · exact ⟨hu.settled, hfile⟩

/-- What has been checked when the account is made. -/
structure Made (s : Space Trees) (user password encoded : Name) (t : Space Trees) : Prop where
  valid : validUser user = true
  short : password.length < maxPassword
  fits : ∀ d, (start s).file passwdParts = some d → d.length < 4096
  fresh : hasLine (user ++ [colon]) (accountText s).length (accountText s) = false
  room : (grown (accountText s) user encoded).length < 4096
  settled : Settled t
  file : t.file passwdParts = some (grown (accountText s) user encoded)

theorem length_cstr_le (data : Name) : (cstr data).length ≤ data.length := (List.takeWhile_prefix _).length_le

theorem length_grown (p user secret : Name) : (grown p user secret).length = p.length + user.length + secret.length + 2 := by
  simp only [grown, List.length_append, List.length_singleton]
  omega

theorem length_passwordEncode (password : Name) {salt : Name} (h : salt.length = 16) : (passwordEncode password salt).length = 86 := by
  have hdigest := length_iterated salt (password.take 63) (List.range 4096) _ (length_sha256 (salt ++ password.take 63))
  simp only [passwordEncode, List.length_append, length_hex, hdigest, h]
  decide

theorem length_of_validUser {user : Name} (h : validUser user = true) : user.length < maxUsername := by
  simp only [validUser, Bool.and_eq_true, decide_eq_true_eq] at h
  exact h.1.1.2

theorem accountCreate_spec {s : Space Trees} (hs : Sound s) {salt user password : Name} (hsalt : salt.length = 16)
    (h : (exec (accountCreate salt user password) s).1 = true) :
    Made s user password (passwordEncode password salt) (exec (accountCreate salt user password) s).2 := by
  have hstart : exec namespaceStart s = ((), start s) := rfl
  have hset := hs.start
  have hencoded := length_passwordEncode password hsalt
  unfold accountCreate at h ⊢
  generalize passwordEncode password salt = encoded at h hencoded ⊢
  rw [exec_bind, hstart] at h ⊢
  dsimp only at h ⊢
  rw [exec_bind, exec_get] at h ⊢
  dsimp only at h ⊢
  split at h
  · simp at h
  rename_i hargs
  rw [if_neg hargs]
  simp only [Bool.or_eq_true, not_or, decide_eq_true_eq, not_le] at hargs
  obtain ⟨⟨⟨⟨⟨hroot, hvalid⟩, -⟩, hshort⟩, -⟩, -⟩ := hargs
  have hroot : (start s).user = root := by simpa using hroot
  have hvalid : validUser user = true := by simpa using hvalid
  have hname := length_of_validUser hvalid
  obtain ⟨t, ht, hread⟩ := exec_privateRead hset normal_passwdParts (normalize_userpasswdCfg (start s).working) 4096
  have hread : exec (privateRead userpasswdCfg 4096) (start s) = _ := hread
  have hat : AtRoot t := ⟨ht.settled, ht.user.trans hroot⟩
  rw [exec_bind, hread] at h ⊢
  cases hf : (start s).file passwdParts with
  | none =>
    obtain ⟨u, hu, hsize⟩ := exec_fsSize ht.settled normal_passwdParts (normalize_userpasswdCfg t.working)
    have hsize : exec (fsSize userpasswdCfg) t = _ := hsize
    rw [may_root hat.2, if_pos rfl, ht.file, hf] at hsize
    have hatu : AtRoot u := ⟨hu.settled, hu.user.trans hat.2⟩
    have htext : accountText s = [] := by simp [accountText, hf, cstr]
    rw [hf] at h
    simp only [Option.bind_none, exec_bind, hsize, Option.elim_none] at h ⊢
    rw [if_neg (by decide)] at h ⊢
    obtain ⟨hsettled, hfile⟩ := addAccount_spec user encoded [] u hatu h
    have hempty : cstr [] = [] := rfl
    rw [hempty] at hfile
    refine ⟨hvalid, hshort, fun d hd => ?_, ?_, ?_, hsettled, by rw [htext]; exact hfile⟩
    · rw [hf] at hd
      cases hd
    · rw [htext]
      rfl
    · unfold maxUsername at hname
      rw [length_grown, htext, hencoded, List.length_nil]
      omega
  | some d =>
    rw [hf, Option.bind_some] at h
    rw [Option.bind_some]
    by_cases hfit : 4096 ≤ d.length
    · -- a list that does not fit is there
      obtain ⟨u, hu, hsize⟩ := exec_fsSize ht.settled normal_passwdParts (normalize_userpasswdCfg t.working)
      have hsize : exec (fsSize userpasswdCfg) t = _ := hsize
      rw [may_root hat.2, if_pos rfl, ht.file, hf] at hsize
      rw [if_pos hfit] at h
      simp [hsize] at h
    have htext : accountText s = cstr d := by simp [accountText, hf]
    rw [if_neg hfit] at h ⊢
    dsimp only at h ⊢
    split at h
    · simp at h
    rename_i hfresh
    rw [if_neg hfresh]
    split at h
    · simp at h
    rename_i hroom
    rw [if_neg hroom]
    obtain ⟨hsettled, hfile⟩ := addAccount_spec user encoded d t hat h
    rw [← htext] at hfile
    refine ⟨hvalid, hshort, fun d' hd' => ?_, by simpa [htext] using hfresh, ?_, hsettled, hfile⟩
    · obtain rfl := Option.some.inj (hf.symm.trans hd')
      exact Nat.lt_of_not_le hfit
    · have hle := length_cstr_le d
      rw [length_grown, htext]
      omega

/-! ## The law -/

theorem accountSalt_spec (nonce : UInt32) (user : Name) :
    (accountSalt nonce user).length = 16 ∧ ∀ c ∈ accountSalt nonce user, c ≠ 0 ∧ c ≠ newline := salt_digits _

/-- An encoding is matched by the passwords with the same one. -/
theorem passwordMatches_encoding (password : Name) {salt : Name} (hsalt : salt.length = 16) (q : Name) :
    passwordMatches q (passwordEncode password salt) =
      (decide (q.length ≤ 63) && passwordEncode q salt == passwordEncode password salt) := by
  have hlen := length_passwordEncode password hsalt
  obtain ⟨hex, heq⟩ : ∃ hex, passwordEncode password salt = passwordMark ++ (salt ++ 36 :: hex) := by
    simp only [passwordEncode, List.append_assoc, List.singleton_append]
    exact ⟨_, rfl⟩
  have hmark : passwordMark.isPrefixOf (passwordEncode password salt) = true := by
    rw [heq]
    exact List.isPrefixOf_iff_prefix.2 (List.prefix_append _ _)
  have hsep : (passwordEncode password salt).getD 21 0 = 36 := by
    have h21 : 21 = passwordMark.length + (salt.length + 0) := by rw [hsalt]; rfl
    rw [heq, List.getD_eq_getElem?_getD, h21, List.getElem?_append_right (by omega), Nat.add_sub_cancel_left,
      List.getElem?_append_right (by omega), Nat.add_sub_cancel_left]
    rfl
  have hmix : ((passwordEncode password salt).drop 5).take 16 = salt := by
    have h5 : 5 = passwordMark.length := rfl
    rw [heq, h5, List.drop_left, ← hsalt, List.take_left]
  rw [passwordMatches, hmark, hlen, hsep, hmix]
  by_cases hq : q.length ≤ 63
  · simp [hq, Nat.not_lt.2 hq]
  · simp [hq, Nat.lt_of_not_le hq]

theorem plain_account {user : Name} (h : validUser user = true) : ∀ c ∈ user, c ≠ 0 ∧ c ≠ colon ∧ c ≠ newline := by
  intro c hc
  have hplain := plain_of_validUser h c hc
  refine ⟨hplain.1, ?_, hplain.2.2⟩
  rintro rfl
  simp only [validUser, Bool.and_eq_true, List.all_eq_true] at h
  exact absurd (h.2 colon hc) (by decide)

theorem secretOf_append (user : Name) (as : List Account) (a : Account) :
    secretOf user (as ++ [a]) = (secretOf user as).or (if a.name = user then some a.secret else none) := by
  simp only [secretOf, List.find?_append, List.find?_singleton, decide_eq_true_eq]
  cases as.find? (·.name = user) with
  | none => by_cases ha : a.name = user <;> simp [ha]
  | some b => rfl

namespace Made

variable {s t : Space Trees} {user password salt : Name}

/-- What the scanners see afterwards. -/
theorem accountText (h : Made s user password (passwordEncode password salt) t) (hsalt : salt.length = 16)
    (hclean : ∀ c ∈ salt, c ≠ 0 ∧ c ≠ newline) :
    Acl.accountText t = grown (Acl.accountText s) user (passwordEncode password salt) := by
  rw [Acl.accountText, start_of_active h.settled.active, h.file, Option.getD_some, cstr_of_notMem]
  intro h0
  simp only [grown, List.mem_append, List.mem_singleton] at h0
  rcases h0 with (((h0 | h0) | h0) | h0) | h0
  · have := List.mem_takeWhile_imp h0
    simp at this
  · exact (plain_account h.valid 0 h0).1 rfl
  · exact absurd h0 (by decide)
  · exact ((lockText_passwordEncode password hsalt hclean).1 0 h0).1 rfl
  · exact absurd h0 (by decide)

theorem reads (h : Made s user password (passwordEncode password salt) t) :
    ∀ d, (start t).file passwdParts = some d → d.length < 4096 := by
  intro d hd
  rw [start_of_active h.settled.active, h.file] at hd
  obtain rfl := Option.some.inj hd
  exact h.room

theorem colon_notMem {encoded : Name} (h : Made s user password encoded t) : colon ∉ user :=
  fun hc => (plain_account h.valid _ hc).2.1 rfl

/-- The account is not in the old list. -/
theorem secretOf_eq_none {encoded : Name} (h : Made s user password encoded t) {as : List Account}
    (has : Spells (Acl.accountText s) as) : secretOf user as = none := by
  have hfresh := h.fresh
  rw [hasLine_spells h.colon_notMem has (Nat.le_refl _)] at hfresh
  rw [secretOf, Option.map_eq_none_iff, List.find?_eq_none]
  intro a ha hname
  have := List.any_eq_false.1 hfresh a ha
  exact this hname

/-- Behind a text without its last newline, the account is not found again. -/
theorem login_unended (h : Made s user password (passwordEncode password salt) t) (hsalt : salt.length = 16)
    (hclean : ∀ c ∈ salt, c ≠ 0 ∧ c ≠ newline) (hlist : Parsable (Acl.accountText s)) (hno : ¬ Whole (Acl.accountText s))
    (q : Name) : login t user q = false := by
  obtain ⟨as, has⟩ := hlist
  have hlast : Acl.accountText s ++ [newline] = roll as := has.resolve_left fun he => hno (has.whole_iff.2 he)
  obtain ⟨bs, b, rfl, htext⟩ := Spells.last hlast
  have huser : ∀ c ∈ user, c ≠ 0 ∧ c ≠ newline := fun c hc => ⟨(plain_account h.valid c hc).1, (plain_account h.valid c hc).2.2⟩
  obtain ⟨b', hname, hgrown⟩ := grown_glued bs b huser (lockText_passwordEncode password hsalt hclean).1
  have hspells : Spells (Acl.accountText t) (bs ++ [b']) := .inl (by rw [h.accountText hsalt hclean, htext, hgrown])
  have hnone := h.secretOf_eq_none has
  rw [secretOf_append, Option.or_eq_none_iff, ← hname] at hnone
  have hb : b'.name ≠ user := fun he => by simp [he] at hnone
  rw [login_spells (fun _ => h.settled) h.reads hspells, secretOf_append, hnone.1, if_neg hb]
  exact Bool.and_false _

/-- Behind a whole text, the account is the last of the list. -/
theorem spells_whole (h : Made s user password (passwordEncode password salt) t) (hsalt : salt.length = 16)
    (hclean : ∀ c ∈ salt, c ≠ 0 ∧ c ≠ newline) {as : List Account} (has : Acl.accountText s = roll as) :
    ∃ a : Account, a.name = user ∧ a.secret = passwordEncode password salt ∧ Spells (Acl.accountText t) (as ++ [a]) := by
  refine ⟨⟨user, _, plain_account h.valid, (lockText_passwordEncode password hsalt hclean).1⟩, rfl, rfl, .inl ?_⟩
  rw [h.accountText hsalt hclean, has, ← grown_roll]

end Made

/-- The law of a new account: it is known by its password and others with the same encoding
only, and the other accounts are what they were. -/
structure Law (s t : Space Trees) (user password salt : Name) : Prop where
  known : login t user password = true
  others : ∀ q, passwordEncode q salt ≠ passwordEncode password salt → login t user q = false
  kept : ∀ v q, v ≠ user → login t v q = login s v q

/-- A volume with this account list, and root at work. -/
def holding (list : Name) : Space Trees where
  mounts _ := ⟨false, noDisk, []⟩
  working := [slash]
  active := false
  activeVolume := none
  user := root
  renamedAcl := []
  renameGuard := []
  renamedAclNeeded := false
  engine := {
    volumes := fun d => if d = ⟨2, 0, 2048, 1⟩ then some ⟨[([[101, 116, 99]], .dir), (passwdParts, .file false list)]⟩ else none
    probe := fun _ _ d => (d, false)
    selected := ⟨2, 0, 2048, 1⟩
    mounted := true
    cwd := []
    refuses := fun _ => false
    clock := 0 }

theorem sound_holding (list : Name) : Sound (holding list) := fun h => by simp [holding] at h

/-- `root:r` -/
def rootAccount : Account := ⟨root, [114], by decide +kernel, by decide +kernel⟩

end Barnix.Acl
