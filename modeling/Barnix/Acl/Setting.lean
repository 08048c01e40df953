import Barnix.Acl.Rename
/-!
# Setting rights

`set_file_permissions` turns a well-formed access list into a well-formed one:
it replaces the record of one user for one path.
-/

namespace Barnix.Acl

open Vfs

/-! ## Locks -/

/-- The bytes of a stored lock. -/
def LockText (lock : Name) : Prop := (∀ c ∈ lock, c ≠ 0 ∧ c ≠ newline) ∧ lock.length < 96

theorem hexDigit_ne (n : Nat) (h : n < 16) : hexDigit n ≠ 0 ∧ hexDigit n ≠ newline := by
  have : ∀ n : Fin 16, hexDigit n ≠ 0 ∧ hexDigit n ≠ newline := by decide
  exact this ⟨n, h⟩

theorem length_sha256 (data : List UInt8) : (sha256 data).length = 32 := by
  simp [sha256, Digest.words]

theorem length_hex (d : List UInt8) :
    (d.flatMap fun b => [hexDigit (b.toNat / 16), hexDigit (b.toNat % 16)]).length = 2 * d.length := by
  induction d with
  | nil => rfl
  | cons b d ih =>
    rw [List.flatMap_cons, List.length_append, ih, List.length_cons, List.length_cons, List.length_cons, List.length_nil]
    omega

theorem length_iterated (salt word : Name) (rounds : List Nat) (d : List UInt8) (hd : d.length = 32) :
    (rounds.foldl (fun d _ => sha256 (d ++ salt ++ word)) d).length = 32 := by
  induction rounds generalizing d with
  | nil => exact hd
  | cons _ rounds ih => exact ih _ (length_sha256 _)

theorem lockText_passwordEncode (password : Name) {salt : Name} (hlen : salt.length = 16)
    (hsalt : ∀ c ∈ salt, c ≠ 0 ∧ c ≠ newline) : LockText (passwordEncode password salt) := by
  have hdigest := length_iterated salt (password.take 63) (List.range 4096) _ (length_sha256 (salt ++ password.take 63))
  constructor
  · intro c hc
    simp only [passwordEncode, List.mem_append, List.mem_flatMap, List.mem_cons, List.not_mem_nil, or_false] at hc
    rcases hc with ((hc | hc) | rfl) | ⟨b, -, rfl | rfl⟩
    · have : ∀ c ∈ passwordMark, c ≠ 0 ∧ c ≠ newline := by decide +kernel
      exact this c hc
    · exact hsalt c hc
    · decide
    · exact hexDigit_ne _ (by have := b.toNat_lt; omega)
    · exact hexDigit_ne _ (Nat.mod_lt _ (by decide))
  · simp only [passwordEncode, List.length_append, length_hex, hdigest, hlen]
    decide

theorem foldl_digits (next : UInt32 → UInt32) {digit : UInt32 → UInt8} (hd : ∀ m, digit m ≠ 0 ∧ digit m ≠ newline)
    (l : List Nat) (m : UInt32) (out : Name) (hout : ∀ c ∈ out, c ≠ 0 ∧ c ≠ newline) :
    (l.foldl (fun (acc : UInt32 × Name) _ => (next acc.1, acc.2 ++ [digit (next acc.1)])) (m, out)).2.length =
        out.length + l.length ∧
      ∀ c ∈ (l.foldl (fun (acc : UInt32 × Name) _ => (next acc.1, acc.2 ++ [digit (next acc.1)])) (m, out)).2,
        c ≠ 0 ∧ c ≠ newline := by
  induction l generalizing m out with
  | nil => exact ⟨rfl, hout⟩
  | cons k l ih =>
    obtain ⟨h1, h2⟩ := ih (next m) (out ++ [digit (next m)]) fun c hc => by
      rcases List.mem_append.1 hc with hc | hc
      · exact hout c hc
      · exact List.mem_singleton.1 hc ▸ hd _
    rw [List.foldl_cons]
    refine ⟨h1.trans ?_, h2⟩
    simp only [List.length_append, List.length_cons, List.length_nil]
    omega

theorem salt_digits (mix : UInt32) :
    ((List.range 16).foldl (fun (acc : UInt32 × Name) _ =>
        (acc.1 * 1664525 + 1013904223, acc.2 ++ [hexDigit ((acc.1 * 1664525 + 1013904223) >>> 28).toNat])) (mix, [])).2.length = 16 ∧
      ∀ c ∈ ((List.range 16).foldl (fun (acc : UInt32 × Name) _ =>
        (acc.1 * 1664525 + 1013904223, acc.2 ++ [hexDigit ((acc.1 * 1664525 + 1013904223) >>> 28).toNat])) (mix, [])).2,
        c ≠ 0 ∧ c ≠ newline := by
  have hdigit : ∀ m : UInt32, hexDigit (m >>> 28).toNat ≠ 0 ∧ hexDigit (m >>> 28).toNat ≠ newline := by
    intro m
    refine hexDigit_ne _ ?_
    have hm := m.toNat_lt
    rw [UInt32.toNat_shiftRight, Nat.shiftRight_eq_div_pow]
    exact Nat.div_lt_of_lt_mul hm
  exact foldl_digits (fun m => m * 1664525 + 1013904223) hdigit (List.range 16) mix [] (by simp)

theorem lockSalt_spec (path : Name) :
    (lockSalt path).length = 16 ∧ ∀ c ∈ lockSalt path, c ≠ 0 ∧ c ≠ newline := salt_digits _

theorem lockText_newLock {user path password lock encoded : Name} (hl : LockText lock)
    (h : newLock user path password lock = .ok encoded) : LockText encoded := by
  rw [newLock] at h
  split at h
  · split at h
    · exact Except.ok.inj h ▸ hl
    split at h
    · simp at h
    · rw [← Except.ok.inj h]
      exact lockText_passwordEncode _ (lockSalt_spec path).1 (lockSalt_spec path).2
  split at h
  · simp at h
  by_cases hif : (if lock ≠ [] then passwordMatches password lock else beneath path (home user)) = true
  · rw [if_pos hif] at h
    exact Except.ok.inj h ▸ hl
  · rw [if_neg hif] at h
    simp at h

theorem lockText_lockFor {rs : List Record} (h : ∀ r ∈ rs, r.Clean) (ps : List Name) : LockText (lockFor rs ps) := by
  rw [lockFor]
  cases hn : nearest Record.depth (guards ps) rs with
  | none => exact ⟨by simp, by simp⟩
  | some r =>
    have hr := h r (nearest_spec hn).1
    exact ⟨hr.lock, hr.short⟩

/-! ## The access list -/

/-- An access list the kernel wrote itself: a text of clean records that fits. -/
def WellFormed (acl : Option Name) : Prop :=
  ∀ data, acl = some data → ∃ rs : List Record, (∀ r ∈ rs, r.Clean) ∧ data = text rs ∧ data.length < aclCap

theorem WellFormed.records {acl : Option Name} (h : WellFormed acl) :
    ∃ rs : List Record, (∀ r ∈ rs, r.Clean) ∧ acl.getD [] = text rs ∧ (text rs).length < aclCap := by
  cases acl with
  | none => exact ⟨[], by simp, rfl, by decide⟩
  | some data =>
    obtain ⟨rs, hrs, rfl, hlen⟩ := h data rfl
    exact ⟨rs, hrs, rfl, hlen⟩

theorem plain_of_validUser {user : Name} (h : validUser user = true) : Plain user := by
  intro c hc
  simp only [validUser, Bool.and_eq_true, List.all_eq_true] at h
  have hc := h.2 c hc
  refine ⟨?_, ?_, ?_⟩
  all_goals
    rintro rfl
    revert hc
    decide

theorem plain_rights {rights : Name} (h : rights.all [modeR, modeW, modeX].contains = true) : Plain rights := by
  intro c hc
  have := List.all_eq_true.1 h c hc
  have hcase : ∀ c ∈ [modeR, modeW, modeX], c ≠ 0 ∧ c ≠ bar ∧ c ≠ newline := by decide +kernel
  exact hcase c (by simpa using this)

/-! ## The execute bits -/

/-- Both trees have the same directories and the same contents. -/
def Alike (t t' : Tree) : Prop :=
  ∀ q, (t.get q = some .dir ↔ t'.get q = some .dir) ∧ fileData (t.get q) = fileData (t'.get q)

theorem Alike.isSome {t t' : Tree} (h : Alike t t') (q : List Name) : (t.get q).isSome = (t'.get q).isSome := by
  obtain ⟨h1, h2⟩ := h q
  rcases hg : t.get q with _ | _ | _ <;> rcases hg' : t'.get q with _ | _ | _ <;>
    simp [hg, hg', fileData] at h1 h2 ⊢

theorem Alike.follow {t t' : Tree} (h : Alike t t') (p l : List Name) : t.follow p l = t'.follow p l := by
  induction l generalizing p with
  | nil => rfl
  | cons c l ih =>
    simp only [Tree.follow, ih, h.isSome, ne_eq, (h p).1]

theorem Replaced.acl_alike {s u : Space Trees} {v : Fin 8} {tree old : Tree} (h : Replaced s v tree u) (hs : Settled s)
    (hv : (s.mounts v).used = true) (hold : s.engine.volumes (s.mounts v).disk = some old) (halike : Alike tree old) :
    u.acl = s.acl := by
  cases hw : volumeFor s.mounts (render accessParts) with
  | none =>
    rw [Space.acl, Space.acl, Space.file, Space.file, node_of_no_volume hw, node_of_no_volume (h.1.mounts ▸ hw)]
  | some w =>
    obtain ⟨l, hl⟩ := hs.located normal_accessParts hw
    rw [Space.acl, Space.acl, Space.file, Space.file, h.node hs hv hl]
    split
    · rename_i hwv
      subst hwv
      rw [hl.node hold, halike.follow]
      cases old.follow [] l with
      | none => rfl
      | some q => exact (halike q).2
    · rfl

theorem alike_executable {e : Trees} {name : Name} {tree : Tree} (h : e.executable name = some tree) :
    Alike tree e.tree := by
  rw [Trees.executable] at h
  obtain ⟨p, -, hp⟩ := Option.bind_eq_some_iff.1 h
  obtain ⟨n, hn, hnode⟩ := Option.map_eq_some_iff.1 hp
  cases n with
  | dir =>
    obtain rfl : e.tree = tree := by simpa using hnode
    exact fun q => ⟨Iff.rfl, rfl⟩
  | file x data =>
    obtain rfl : e.tree.put p (.file true data) = tree := by simpa using hnode
    have hne : p ≠ [] := by
      rintro rfl
      simp [Vfs.Tree.get] at hn
    intro q
    rw [Tree.get_put _ hne]
    split
    · rename_i hq
      subst hq
      simp [hn, fileData]
    · exact ⟨Iff.rfl, rfl⟩

/-- The execute bits of one file are the only change. -/
theorem Replaced.node_executable {s u t : Space Trees} {v : Fin 8} {ps l : List Name} {tree : Tree} (hs : Settled s)
    (hps : Normal ps) (hl : Located s ps v l) (hload : Loaded s v t) (hg : t.engine.executable (render l) = some tree)
    (hrep : Replaced s v tree u) {qs : List Name} (hqs : Normal qs) (hne : qs ≠ ps) : u.node qs = s.node qs := by
  have hvalid := hl.valid hps
  rw [Trees.executable, hload.find hvalid] at hg
  obtain ⟨p, hf, hp⟩ := Option.bind_eq_some_iff.1 hg
  obtain rfl : p = l := by simpa using Tree.follow_eq hvalid hf
  obtain ⟨n, hn, hnode⟩ := Option.map_eq_some_iff.1 hp
  cases n with
  | dir =>
    obtain rfl : t.engine.tree = tree := by simpa using hnode
    exact hrep.node_eq hs hl.used hload.tree hqs fun _ _ _ _ => rfl
  | file x data =>
    obtain rfl : t.engine.tree.put p (.file true data) = tree := by simpa using hnode
    obtain rfl | ⟨q, c, rfl⟩ := List.eq_nil_or_concat' p
    · simp [Vfs.Tree.get] at hn
    · exact (hrep.node_put hs hps hl hload (Tree.entry_of_follow hvalid hf) (by simp [hn])).2 qs hqs hne

theorem exec_makeExecutable {s : Space Trees} (hs : Settled s) {ps : List Name} (hps : Normal ps) (hn : (s.node ps).isSome) :
    ∃ r t, exec (makeExecutable (render ps)) s = (r, t) ∧ Frame s t ∧ t.acl = s.acl ∧
      (∀ qs, Normal qs → qs ≠ ps → t.node qs = s.node qs) ∧ (r = 0 ↔ s.engine.refuses s.engine.clock = false) := by
  have hnorm := normalize_render s.working hps
  cases hv : volumeFor s.mounts (render ps) with
  | none => simp [node_of_no_volume hv] at hn
  | some v =>
    obtain ⟨l, hl⟩ := hs.located hps hv
    obtain ⟨t, ht, hload, -⟩ := exec_route hs hps hnorm hl
    have hexec : ∀ r u, exec (onEngine (modifyGet fun e : Trees => e.change (t.engine.executable (render l)))) t = (r, u) →
        exec (makeExecutable (render ps)) s = (r, u) := by
      intro r u hu
      simp only [makeExecutable, exec_bind, ht]
      exact hu
    obtain ⟨u, hu, ⟨he, hvol, hwhy⟩ | ⟨tree, hg, hok, he, hrep, -⟩⟩ := exec_extChange hload (t.engine.executable (render l))
    · have hsome : t.engine.executable (render l) ≠ none := by
        rw [← hload.findNode hps hl, Trees.findNode] at hn
        obtain ⟨n, hn⟩ := Option.isSome_iff_exists.1 hn
        obtain ⟨q, hq, hget⟩ := Option.bind_eq_some_iff.1 hn
        simp [Trees.executable, hq, hget]
      refine ⟨-1, u, hexec _ _ he, hu, ?_, fun qs _ _ => node_congr hu.mounts hvol qs, ?_⟩
      · rw [Space.acl, Space.file, node_congr hu.mounts hvol, Space.acl, Space.file]
      · simp [hwhy.resolve_left hsome]
    · exact ⟨0, u, hexec _ _ he, hu, Replaced.acl_alike hrep hs hl.used hload.tree (alike_executable hg),
        fun _ => Replaced.node_executable hs hps hl hload hg hrep, by simp [hok]⟩

/-! ## The operation -/

theorem exec_pathFound {s : Space Trees} (hs : Settled s) {ps : List Name} (hps : Normal ps) :
    ∃ u, Steady s u ∧ exec (pathFound (render ps)) s = ((s.node ps).isSome, u) := by
  obtain ⟨t, ht, hsize⟩ := exec_plainSize hs hps (normalize_render _ hps)
  simp only [pathFound, exec_bind, hsize]
  cases hn : s.node ps with
  | none =>
    obtain ⟨u, hu, hdir⟩ := exec_plainIsDir ht.settled hps (normalize_render _ hps)
    rw [ht.node, hn] at hdir
    exact ⟨u, ht.trans hu, by simp [Space.file, hn, fileData, hdir]⟩
  | some n =>
    cases n with
    | dir =>
      obtain ⟨u, hu, hdir⟩ := exec_plainIsDir ht.settled hps (normalize_render _ hps)
      rw [ht.node, hn] at hdir
      exact ⟨u, ht.trans hu, by simp [Space.file, hn, fileData, hdir]⟩
    | file x data => exact ⟨t, ht, by simp [Space.file, hn, fileData]⟩

/-- The access list as it is read into a buffer. -/
def listText (s : Space Trees) : Name :=
  cstr ((s.acl.bind fun d => if aclCap ≤ d.length then none else some d).getD [])

/-- The text that replaces `data`. -/
def newText (ps : List Name) (user rights lock data : Name) : Name :=
  keepLines (render ps ++ [bar] ++ user ++ [bar]) data.length data ++ render ps ++ [bar] ++ user ++ [bar] ++ rights ++
    [bar] ++ lock ++ [newline]

/-- The new text fits in the buffer. -/
def NewFits (ps : List Name) (user rights lock data : Name) : Prop :=
  (newText ps user rights lock data).length + 2 < aclCap

theorem newFits_iff {ps : List Name} {user rights spec lock data : Name} (hspec : user.length + rights.length + 1 = spec.length) :
    NewFits ps user rights lock data ↔
      ¬ aclCap ≤ (keepLines (render ps ++ [bar] ++ user ++ [bar]) data.length data).length + (render ps).length +
        spec.length + lock.length + 5 := by
  simp only [NewFits, newText, List.length_append, List.length_singleton]
  omega

theorem exec_replaceRecord {s : Space Trees} (hs : Settled s) {ps : List Name} (hps : Normal ps)
    {user rights spec lock data : Name} (hspec : user.length + rights.length + 1 = spec.length) :
    ∃ r t, exec (replaceRecord (render ps) user rights spec lock data) s = (r, t) ∧ Frame s t ∧
      (∀ qs, Normal qs → qs ≠ accessParts → qs ≠ ps → t.node qs = s.node qs) ∧
      ((r ≠ 0 ∧ t.acl = s.acl ∧ (s.acl ≠ none → (s.node ps).isSome → NewFits ps user rights lock data →
          s.engine.refuses s.engine.clock = true)) ∨
        ((s.node ps).isSome ∧ NewFits ps user rights lock data ∧ s.engine.refuses s.engine.clock = false ∧
          t.acl = some (newText ps user rights lock data) ∧
          (r = 0 ↔ (rights.contains modeX = true → s.engine.refuses (s.engine.clock + 1) = false)))) := by
  obtain ⟨u, hu, hf⟩ := exec_pathFound hs hps
  simp only [replaceRecord, exec_bind, hf]
  cases hfound : (s.node ps).isSome with
  | false => exact ⟨-1, u, rfl, hu.frame, fun qs _ _ _ => hu.node qs, .inl ⟨by simp, hu.acl, by simp⟩⟩
  | true =>
  have hfits := @newFits_iff ps user rights spec lock data hspec
  rw [Bool.not_true, if_neg (by simp)]
  split
  · rename_i hroom
    exact ⟨-1, u, rfl, hu.frame, fun qs _ _ _ => hu.node qs, .inl ⟨by simp, hu.acl, fun _ _ h => absurd hroom (hfits.1 h)⟩⟩
  rename_i hroom
  have hfit := hfits.2 hroom
  have hrefuse := hu.kept.refuses
  have hclock := hu.kept.clock
  obtain ⟨w, hw, ⟨he, hvol, hwhy⟩ | ⟨he, hout, hck, hok, hnode, -⟩⟩ :=
    exec_plainWrite_access hu.settled (newText ps user rights lock data)
  · have he : exec (plainWrite accessCfg (keepLines (render ps ++ [bar] ++ user ++ [bar]) data.length data ++ render ps ++
        [bar] ++ user ++ [bar] ++ rights ++ [bar] ++ lock ++ [newline])) u = (-1, w) := he
    rw [exec_bind, he]
    dsimp only
    rw [if_neg (by simp)]
    refine ⟨-1, w, rfl, hu.frame.trans hw, fun qs _ _ _ => ?_, .inl ⟨by simp, ?_, fun hne _ _ => ?_⟩⟩
    · rw [node_congr hw.mounts hvol, hu.node]
    · rw [Space.acl, Space.file, node_congr hw.mounts hvol, ← Space.file, ← Space.acl, hu.acl]
    · rw [← hrefuse, ← hclock]
      refine hwhy ?_ (by rw [hu.acl]; exact hne)
      unfold NewFits at hfit
      omega
  · have he : exec (plainWrite accessCfg (keepLines (render ps ++ [bar] ++ user ++ [bar]) data.length data ++ render ps ++
        [bar] ++ user ++ [bar] ++ rights ++ [bar] ++ lock ++ [newline])) u = (0, w) := he
    rw [hrefuse, hclock] at hok
    rw [exec_bind, he]
    dsimp only
    by_cases hx : rights.contains modeX = true
    · rw [if_pos ⟨rfl, hx⟩]
      have hthere : (w.node ps).isSome := by
        by_cases hp : ps = accessParts
        · subst hp
          rw [Space.acl, Space.file] at hout
          cases hn : w.node accessParts with
          | none => simp [hn, fileData] at hout
          | some n => rfl
        · rw [hnode ps hps hp, hu.node]
          exact hfound
      obtain ⟨r, z, hmark, hz, hlist, hothers, hr⟩ := exec_makeExecutable hw.settled hps hthere
      rw [hmark]
      refine ⟨r, z, rfl, (hu.frame.trans hw).trans hz, fun qs hqs hqa hqp => ?_, .inr ⟨rfl, hfit, hok, hlist.trans hout, ?_⟩⟩
      · rw [hothers qs hqs hqp, hnode qs hqs hqa, hu.node]
      · rw [hr, hck, hw.refuses, hrefuse, hclock]
        exact ⟨fun h _ => h, fun h => h hx⟩
    · rw [if_neg fun h => hx h.2]
      refine ⟨0, w, rfl, hu.frame.trans hw, fun qs hqs hqa _ => ?_,
        .inr ⟨rfl, hfit, hok, hout, fun _ h => absurd h hx, fun _ => rfl⟩⟩
      rw [hnode qs hqs hqa, hu.node]

/-- The arguments of a call of `set_file_permissions` that nothing refuses. -/
structure Request (s : Space Trees) (name spec password : Name) (ps : List Name) (user rights lock : Name) : Prop where
  name : normalize s.working name = some (render ps)
  normal : Normal ps
  noBar : bar ∉ render ps
  noLine : newline ∉ render ps
  spec : 61 ∈ spec ∧ user = spec.takeWhile (fun c => decide (c ≠ 61)) ∧
    rights = (spec.dropWhile (fun c => decide (c ≠ 61))).drop 1
  account : validUser user = true
  modes : rights.all [modeR, modeW, modeX].contains = true ∧ rights.length ≤ 3
  unlocked : ∃ old, lockOf (render ps) (listText s) = some old ∧ newLock s.user (render ps) password old = .ok lock
  found : (s.node ps).isSome
  fits : NewFits ps user rights lock (listText s)

theorem length_spec {spec : Name} (h : 61 ∈ spec) :
    (spec.takeWhile (fun c => decide (c ≠ 61))).length + ((spec.dropWhile (fun c => decide (c ≠ 61))).drop 1).length + 1 =
      spec.length := by
  have hsplit := congrArg List.length (List.takeWhile_append_dropWhile (p := fun c : UInt8 => decide (c ≠ 61)) (l := spec))
  have hne : spec.dropWhile (fun c : UInt8 => decide (c ≠ 61)) ≠ [] := by
    intro hnil
    have := List.dropWhile_eq_nil_iff.1 hnil 61 h
    simp at this
  have := List.length_pos_of_ne_nil hne
  rw [List.length_append] at hsplit
  rw [List.length_drop]
  omega

theorem newLock_error {user path password lock : Name} {e : Int} (h : newLock user path password lock = .error e) : e ≠ 0 := by
  rw [newLock] at h
  split at h
  · split at h
    · simp at h
    split at h
    · rw [← Except.error.inj h]
      decide
    · simp at h
  split at h
  · rw [← Except.error.inj h]
    decide
  by_cases hif : (if lock ≠ [] then passwordMatches password lock else beneath path (home user)) = true
  · rw [if_pos hif] at h
    simp at h
  · rw [if_neg hif] at h
    rw [← Except.error.inj h]
    decide

/-- A call replaces the access list by the new text, or leaves it alone. -/
theorem exec_setFilePermissions {s : Space Trees} (hs : Settled s) (name spec password : Name) :
    ∃ r t, exec (setFilePermissions name spec password) s = (r, t) ∧ Frame s t ∧
      (∀ ps, normalize s.working name = some (render ps) → ∀ qs, Normal ps → Normal qs → qs ≠ accessParts → qs ≠ ps →
        t.node qs = s.node qs) ∧
      ((r ≠ 0 ∧ t.acl = s.acl ∧ (s.acl ≠ none → ∀ ps user rights lock, Request s name spec password ps user rights lock →
          s.engine.refuses s.engine.clock = true)) ∨
        ∃ ps user rights lock, Request s name spec password ps user rights lock ∧
          s.engine.refuses s.engine.clock = false ∧ t.acl = some (newText ps user rights lock (listText s)) ∧
          (r = 0 ↔ (rights.contains modeX = true → s.engine.refuses (s.engine.clock + 1) = false))) := by
  have hrefl := (Steady.refl hs).frame
  simp only [setFilePermissions, exec_bind, exec_namespaceStart hs, exec_get]
  cases hn : normalize s.working name with
  | none =>
    exact ⟨-1, s, rfl, hrefl, fun _ _ _ _ _ _ _ => rfl, .inl ⟨by simp, rfl, fun _ ps _ _ _ h => by simp [h.name] at hn⟩⟩
  | some path =>
  obtain ⟨ps, rfl, hps⟩ := normalize_spec hn
  have hparts : ∀ {qs user rights lock}, Request s name spec password qs user rights lock → qs = ps := fun h =>
    render_inj h.normal.1 hps.1 (Option.some.inj (h.name.symm.trans hn))
  dsimp only
  split
  · rename_i hsep
    refine ⟨-1, s, rfl, hrefl, fun _ _ _ _ _ _ _ => rfl, .inl ⟨by simp, rfl, fun _ qs _ _ _ h => ?_⟩⟩
    obtain rfl := hparts h
    simp [h.noBar, h.noLine] at hsep
  rename_i hsep
  split
  · rename_i hu
    refine ⟨-1, s, rfl, hrefl, fun _ _ _ _ _ _ _ => rfl, .inl ⟨by simp, rfl, fun _ qs _ _ _ h => ?_⟩⟩
    have hlen : ¬ maxUsername ≤ (spec.takeWhile (fun c => decide (c ≠ 61))).length := by
      have := h.account
      rw [h.spec.2.1] at this
      simp only [validUser, Bool.and_eq_true, decide_eq_true_eq] at this
      omega
    have := h.account
    rw [h.spec.2.1] at this
    have hcontains : spec.contains 61 = true := by simpa using h.spec.1
    simp only [Bool.or_eq_true, Bool.not_eq_true', decide_eq_true_eq] at hu
    rcases hu with (hu | hu) | hu
    · exact absurd (hcontains.symm.trans hu) (by simp)
    · exact absurd hu hlen
    · exact absurd (this.symm.trans hu) (by simp)
  rename_i hu
  split
  · rename_i hr
    refine ⟨-1, s, rfl, hrefl, fun _ _ _ _ _ _ _ => rfl, .inl ⟨by simp, rfl, fun _ qs _ _ _ h => ?_⟩⟩
    have hright := h.modes
    rw [h.spec.2.2] at hright
    simp only [Bool.or_eq_true, Bool.not_eq_true', decide_eq_true_eq] at hr
    rcases hr with hr | hr
    · exact absurd (hright.1.symm.trans hr) (by simp)
    · omega
  rename_i hr
  simp only [Bool.or_eq_true, not_or, Bool.not_eq_true', Bool.not_eq_false, decide_eq_true_eq, Bool.not_eq_true] at hsep hu hr
  obtain ⟨t, ht, hread⟩ := exec_privateRead hs normal_accessParts (normalize_accessCfg s.working) aclCap
  have hlist : cstr (((s.file accessParts).bind fun d => if aclCap ≤ d.length then none else some d).getD []) = (listText s) := rfl
  simp only [exec_bind, hread, hlist]
  have hkt := ht.kept
  cases hold : lockOf (render ps) (listText s) with
  | none =>
    refine ⟨-1, t, rfl, ht.frame, fun _ _ qs _ _ _ _ => ht.node qs, .inl ⟨by simp, ht.acl, fun _ qs _ _ _ h => ?_⟩⟩
    obtain rfl := hparts h
    obtain ⟨old, ho, -⟩ := h.unlocked
    simp [ho] at hold
  | some old =>
  dsimp only
  cases hlock : newLock s.user (render ps) password old with
  | error e =>
    refine ⟨e, t, rfl, ht.frame, fun _ _ qs _ _ _ _ => ht.node qs, .inl ⟨newLock_error hlock, ht.acl, fun _ qs _ _ _ h => ?_⟩⟩
    obtain rfl := hparts h
    obtain ⟨old', ho, hok⟩ := h.unlocked
    obtain rfl := Option.some.inj (ho.symm.trans hold)
    simp [hok] at hlock
  | ok lock =>
  have hcontains : 61 ∈ spec := by simpa using hu.1.1
  obtain ⟨r, w, he, hw, hothers, h⟩ := @exec_replaceRecord t ht.settled ps hps _ ((spec.dropWhile (fun c => decide (c ≠ 61))).drop 1) spec
    lock (listText s) (length_spec hcontains)
  rw [hkt.node, hkt.refuses, hkt.clock] at h
  refine ⟨r, w, he, ht.frame.trans hw, fun qs hq rs hqs hrs hra hrq => ?_, ?_⟩
  · obtain rfl := render_inj hps.1 hqs.1 (Option.some.inj hq)
    rw [hothers rs hrs hra hrq, ht.node]
  rcases h with ⟨hr0, hacl, hwhy⟩ | ⟨hfound, hfit, hok, hacl, hr0⟩
  · refine .inl ⟨hr0, hacl.trans ht.acl, fun hne qs user rights lock' h => ?_⟩
    obtain rfl := hparts h
    obtain ⟨old', ho, hok⟩ := h.unlocked
    obtain rfl := Option.some.inj (ho.symm.trans hold)
    obtain rfl := Except.ok.inj (hok.symm.trans hlock)
    obtain ⟨-, rfl, rfl⟩ := h.spec
    exact hwhy (by rw [hkt.acl]; exact hne) h.found h.fits
  · refine .inr ⟨ps, _, _, lock, ⟨hn, hps, by simpa using hsep.1, by simpa using hsep.2, ⟨hcontains, rfl, rfl⟩, hu.2,
      ⟨hr.1, by omega⟩, ⟨old, hold, hlock⟩, hfound, hfit⟩, hok, hacl, hr0⟩

/-! ## Well-formed lists -/

theorem listText_eq {s : Space Trees} {rs : List Record} (hacl : s.acl.getD [] = text rs) (hrs : ∀ r ∈ rs, r.Clean)
    (hlen : (text rs).length < aclCap) : (listText s) = text rs := by
  rw [listText]
  cases h : s.acl with
  | none => simpa [h, cstr] using hacl
  | some d =>
    obtain rfl : d = text rs := by simpa [h] using hacl
    rw [Option.bind_some, if_neg (Nat.not_le.2 hlen), Option.getD_some, cstr_text hrs]

/-- A granted request puts a clean record at the end. -/
theorem Request.newText_eq {s : Space Trees} {name spec password user rights lock : Name} {ps : List Name}
    (h : Request s name spec password ps user rights lock) (hnul : 0 ∉ render ps) {rs : List Record}
    (hrs : ∀ r ∈ rs, r.Clean) (hlist : (listText s) = text rs) :
    (⟨ps, user, rights, lock⟩ : Record).Clean ∧
      newText ps user rights lock (listText s) = text (rs.filter (fun r => !isFor ps user r) ++ [⟨ps, user, rights, lock⟩]) := by
  have hpath : Plain (render ps) := by
    intro c hc
    refine ⟨?_, ?_, ?_⟩ <;> rintro rfl
    · exact hnul hc
    · exact h.noBar hc
    · exact h.noLine hc
  obtain ⟨old, hold, hlock⟩ := h.unlocked
  rw [hlist, lockOf_text h.normal hrs] at hold
  have hlocktext := lockText_newLock (Option.some.inj hold ▸ lockText_lockFor hrs ps) hlock
  have hnew : (⟨ps, user, rights, lock⟩ : Record).Clean :=
    ⟨h.normal, hpath, plain_of_validUser h.account, plain_rights h.modes.1, hlocktext.1, hlocktext.2⟩
  refine ⟨hnew, ?_⟩
  rw [newText, hlist, keepLines_text h.normal hpath hnew.user hrs (length_le_text rs)]
  simp [Record.line, Record.path]

theorem wellFormed_setFilePermissions {s : Space Trees} (hs : Settled s) (hacl : WellFormed s.acl) (name spec password : Name)
    (hnul : ∀ path, normalize s.working name = some path → 0 ∉ path) :
    Frame s (exec (setFilePermissions name spec password) s).2 ∧
      WellFormed (exec (setFilePermissions name spec password) s).2.acl := by
  obtain ⟨r, t, he, hf, -, ⟨-, h, -⟩ | ⟨ps, user, rights, lock, hreq, -, h, -⟩⟩ :=
    exec_setFilePermissions hs name spec password
  · rw [he]
    exact ⟨hf, h ▸ hacl⟩
  · rw [he]
    refine ⟨hf, fun data hd => ?_⟩
    obtain ⟨rs, hrs, hdata, hlen⟩ := hacl.records
    have hlist := listText_eq hdata hrs hlen
    obtain ⟨hnew, htext⟩ := hreq.newText_eq (hnul _ hreq.name) hrs hlist
    have hfits := hreq.fits
    unfold NewFits at hfits
    rw [htext] at h hfits
    obtain rfl := Option.some.inj (hd.symm.trans h)
    refine ⟨_, fun q hq => ?_, rfl, by omega⟩
    rcases List.mem_append.1 hq with hq | hq
    · exact hrs q (List.mem_filter.1 hq).1
    · exact List.mem_singleton.1 hq ▸ hnew

end Barnix.Acl
