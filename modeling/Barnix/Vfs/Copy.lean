import Barnix.Vfs.Changes
import Mathlib.Data.List.TakeWhile
/-!
# Copies onto existing names

`fs_cp` looks for an existing destination with functions that also check rights,
and before the namespace is active the engine takes a path for an entry of its
working directory. The two cases in which a copy replaces a file.
-/

namespace Barnix.Vfs

section
variable {s : Space Trees} {name : Name} {ps : List Name}

/-- The right `mode` on the path `ps`. -/
def Space.may (s : Space Trees) (ps : List Name) (mode : UInt8) : Bool := judge s.acl s.user (some (render ps)) mode

theorem Steady.may {t : Space Trees} (h : Steady s t) (ps : List Name) (mode : UInt8) : t.may ps mode = s.may ps mode := by
  rw [Space.may, h.acl, h.user, Space.may]

theorem may_root (hu : s.user = root) (ps : List Name) (mode : UInt8) : s.may ps mode = true := by
  simp [Space.may, judge, hu]

/-! ## Questions about one name -/

theorem exec_checked_may {α : Type} (hs : Settled s) (hn : normalize s.working name = some (render ps)) (mode : UInt8)
    (denied : α) (x : StateM (Space Trees) α) :
    ∃ t, Steady s t ∧ exec (checked name mode denied x) s = if s.may ps mode then exec x t else (denied, t) := by
  obtain ⟨t, ht, h⟩ := exec_checked hs name mode denied x
  rw [hn] at h
  exact ⟨t, ht, h⟩

theorem exec_fsSize (hs : Settled s) (hps : Normal ps) (hn : normalize s.working name = some (render ps)) :
    ∃ t, Steady s t ∧ exec (fsSize name) s =
      (if s.may ps modeR then (s.file ps).elim (-1) fun d => (d.length : Int) else -13, t) := by
  obtain ⟨t, ht, h⟩ := exec_checked_may hs hn modeR (-13) (plainSize name)
  obtain ⟨u, hu, hsize⟩ := exec_plainSize ht.settled hps (ht.working ▸ hn)
  rw [show exec (fsSize name) s = _ from h]
  cases s.may ps modeR with
  | true => exact ⟨u, ht.trans hu, by rw [if_pos rfl, if_pos rfl, hsize, ht.file]⟩
  | false => exact ⟨t, ht, rfl⟩

theorem exec_fsIsDir (hs : Settled s) (hps : Normal ps) (hn : normalize s.working name = some (render ps)) :
    ∃ t, Steady s t ∧ exec (fsIsDir name) s = (s.may ps modeX && s.node ps == some .dir, t) := by
  obtain ⟨t, ht, h⟩ := exec_checked_may hs hn modeX false (plainIsDir name)
  obtain ⟨u, hu, hdir⟩ := exec_plainIsDir ht.settled hps (ht.working ▸ hn)
  rw [show exec (fsIsDir name) s = _ from h]
  cases s.may ps modeX with
  | true => exact ⟨u, ht.trans hu, by rw [if_pos rfl, hdir, ht.node, Bool.true_and]⟩
  | false => exact ⟨t, ht, by rw [if_neg (by simp), Bool.false_and]⟩

theorem exec_fsRead (hs : Settled s) (hps : Normal ps) (hn : normalize s.working name = some (render ps)) (n : Nat) :
    ∃ t, Steady s t ∧ exec (fsRead name 0 n) s =
      (if s.may ps modeR then (s.file ps).elim (.error (-1)) fun d => .ok (d.take n) else .error (-13), t) := by
  obtain ⟨t, ht, h⟩ : ∃ t, Steady s t ∧ exec (fsRead name 0 n) s = _ := exec_checked_may hs hn modeR _ _
  obtain ⟨u, hu, hread⟩ := exec_plainRead ht.settled hps (ht.working ▸ hn) n
  rw [h]
  cases s.may ps modeR with
  | true =>
    refine ⟨u, ht.trans hu, ?_⟩
    rw [if_pos rfl, if_pos rfl, exec_bind, hread, ht.file]
    cases s.file ps <;> rfl
  | false => exact ⟨t, ht, rfl⟩

/-- Writing to a path that is there: only a file takes it, if the data fits and the
engine does not refuse. -/
theorem exec_fsWrite_existing (hs : Settled s) (hps : Normal ps) (hn : normalize s.working name = some (render ps))
    (hthere : s.node ps ≠ none) (data : List UInt8) :
    (s.may ps modeW = true ∧ s.file ps ≠ none ∧ data.length ≤ maxFileSize ∧ s.engine.refuses s.engine.clock = false ∧
        (exec (fsWrite name data) s).1 = 0) ∨
      (¬ (s.may ps modeW = true ∧ s.file ps ≠ none ∧ data.length ≤ maxFileSize ∧ s.engine.refuses s.engine.clock = false) ∧
        (exec (fsWrite name data) s).1 ≠ 0 ∧ (exec (fsWrite name data) s).2.engine.volumes = s.engine.volumes) := by
  obtain ⟨t, ht, h⟩ := exec_checked_may hs hn modeW (-13) (plainWrite name data)
  rw [show exec (fsWrite name data) s = _ from h]
  cases hmay : s.may ps modeW with
  | false => exact .inr ⟨by simp, by simp, by simpa using ht.volumes⟩
  | true =>
  rw [if_pos rfl]
  have hclock : t.engine.refuses t.engine.clock = s.engine.refuses s.engine.clock := by
    obtain ⟨_, _, _, _, rfl⟩ := ht.same
    rfl
  obtain ⟨u, hu, ⟨he, hvol, hwhy⟩ | ⟨v, l, p, c, w, tree, hl, hload, hentry, rfl, hg, he, -, -, hok⟩⟩ :=
    exec_routed_change ht.settled hps (ht.working ▸ hn) fun e n => e.writtenPath n data
  · right
    have he : exec (plainWrite name data) t = (-1, u) := he
    refine ⟨fun ⟨_, hfile, hlen, hok⟩ => ?_, by simp [he], by rw [he]; exact hvol.trans ht.volumes⟩
    have := refuses_of_hindered hps hlen (by rwa [ht.file]) hwhy
    rw [hclock, hok] at this
    simp at this
  · left
    have he : exec (plainWrite name data) t = (0, u) := he
    have hc : validName c = true := hl.valid hps c (by simp [hentry.1])
    have hp : ∀ d ∈ w.engine.cwd, validName d = true := fun d hd => hl.valid hps d (by simp [hentry.1, hd])
    rw [Trees.writtenPath_of_no_slash (validName_iff.1 hc).2.2.1] at hg
    have hnode : w.engine.tree.get l = s.node ps := by
      rw [← ht.node, hl.node hload.tree]
      exact (hentry.node hp hc).symm
    have hlen : data.length ≤ maxFileSize := by
      unfold Trees.written at hg
      split at hg
      · rename_i hcond
        exact hcond.2.1
      · simp at hg
    obtain ⟨hne, -⟩ := Trees.written_eq hg
    rw [← hentry.1, hnode] at hne
    refine ⟨rfl, ?_, hlen, hclock ▸ hok, by rw [he]⟩
    rw [Space.file]
    rcases hn' : s.node ps with _ | _ | ⟨x, d⟩
    · exact absurd hn' hthere
    · exact absurd hn' hne
    · simp [fileData]

end

/-! ## Copies in an active namespace -/

/-- The destination is a file that the user may write and not read, so it is not seen,
and the write goes through. -/
structure Unseen (s : Space Trees) (source dest : Name) : Prop where
  paths : ∃ a b data, Normal a ∧ Normal b ∧ normalize s.working source = some (render a) ∧
    normalize s.working dest = some (render b) ∧ s.file a = some data ∧ data.length ≤ maxFileSize ∧ s.file b ≠ none ∧
    s.may a modeR = true ∧ s.may b modeW = true ∧ s.may b modeR = false
  accepted : s.engine.refuses s.engine.clock = false

/-- The part of `fs_cp` after its two checks, in an active namespace. -/
def copyEntry (source dest : Name) : StateM (Space Trees) Int := do
  let size ← fsSize source
  if size < 0 then return -1
  if 0 ≤ (← fsSize dest) then return -1
  if ← fsIsDir dest then return -1
  match ← fsRead source 0 size.toNat with
  | .error _ => return -1
  | .ok data => if data.length ≠ size.toNat then return -1 else fsWrite dest data

theorem exec_copyEntry {s : Space Trees} (hs : Settled s) {source dest : Name} {a b : List Name} (hna : Normal a)
    (hnb : Normal b) (hsrc : normalize s.working source = some (render a))
    (hdst : normalize s.working dest = some (render b)) (hr : s.may a modeR = true) (hw : s.may b modeW = true)
    (hthere : s.node b ≠ none) :
    (Unseen s source dest ∧ (exec (copyEntry source dest) s).1 = 0) ∨
      (¬ Unseen s source dest ∧ (exec (copyEntry source dest) s).1 ≠ 0 ∧
        (exec (copyEntry source dest) s).2.engine.volumes = s.engine.volumes) := by
  have hunseen : Unseen s source dest ↔ ∃ data, s.file a = some data ∧ data.length ≤ maxFileSize ∧ s.file b ≠ none ∧
      s.may b modeR = false ∧ s.engine.refuses s.engine.clock = false := by
    constructor
    · rintro ⟨⟨a', b', data, hna', hnb', hsrc', hdst', hfile, hlen, hb, -, -, hno⟩, hok⟩
      obtain rfl := render_inj hna'.1 hna.1 (Option.some.inj (hsrc'.symm.trans hsrc))
      obtain rfl := render_inj hnb'.1 hnb.1 (Option.some.inj (hdst'.symm.trans hdst))
      exact ⟨data, hfile, hlen, hb, hno, hok⟩
    · rintro ⟨data, hfile, hlen, hb, hno, hok⟩
      exact ⟨⟨a, b, data, hna, hnb, hsrc, hdst, hfile, hlen, hb, hr, hw, hno⟩, hok⟩
  rw [hunseen]
  have hstop : ∀ t : Space Trees, Steady s t → exec (copyEntry source dest) s = (-1, t) →
      (exec (copyEntry source dest) s).1 ≠ 0 ∧ (exec (copyEntry source dest) s).2.engine.volumes = s.engine.volumes := by
    intro t ht h
    rw [h]
    exact ⟨by simp, ht.volumes⟩
  -- the source
  obtain ⟨t₁, ht₁, h₁⟩ := exec_fsSize hs hna hsrc
  rw [hr, if_pos rfl] at h₁
  cases hfile : s.file a with
  | none =>
    refine .inr ⟨by simp, hstop t₁ ht₁ ?_⟩
    rw [hfile] at h₁
    simp [copyEntry, h₁]
  | some data =>
  rw [hfile] at h₁
  have hpos : ¬ (data.length : Int) < 0 := by omega
  -- the destination
  obtain ⟨t₂, ht₂, h₂⟩ := exec_fsSize ht₁.settled hnb (ht₁.working ▸ hdst)
  rw [ht₁.may, ht₁.file] at h₂
  have hs₂ := ht₁.trans ht₂
  by_cases hseen : s.may b modeR = true ∧ s.file b ≠ none
  · obtain ⟨old, hold⟩ := Option.ne_none_iff_exists'.1 hseen.2
    refine .inr ⟨by rintro ⟨-, -, -, -, hno, -⟩; simp [hseen.1] at hno, hstop t₂ hs₂ ?_⟩
    rw [hseen.1, hold] at h₂
    simp [copyEntry, h₁, hpos, h₂]
  have hneg : (exec (fsSize dest) t₁).1 < 0 := by
    rw [h₂]
    cases hmay : s.may b modeR with
    | false => simp
    | true =>
      have hnone : s.file b = none := by
        by_contra hne
        exact hseen ⟨hmay, hne⟩
      rw [hnone]
      simp
  have hneg' : ¬ 0 ≤ (exec (fsSize dest) t₁).1 := by omega
  obtain ⟨t₃, ht₃, h₃⟩ := exec_fsIsDir ht₂.settled hnb (hs₂.working ▸ hdst)
  rw [hs₂.may, hs₂.node] at h₃
  have hs₃ := hs₂.trans ht₃
  have h₂' : (exec (fsSize dest) t₁).2 = t₂ := by rw [h₂]
  cases hdir : s.may b modeX && s.node b == some .dir with
  | true =>
    rw [hdir] at h₃
    refine .inr ⟨?_, hstop t₃ hs₃ ?_⟩
    · rintro ⟨-, -, -, hb, -⟩
      rw [Bool.and_eq_true, beq_iff_eq] at hdir
      have := hdir.2
      simp [Space.file, this, fileData] at hb
    · simp [copyEntry, h₁, hpos, hneg', h₂', h₃]
  | false =>
  rw [hdir] at h₃
  -- the copy
  obtain ⟨t₄, ht₄, h₄⟩ := exec_fsRead ht₃.settled hna (hs₃.working ▸ hsrc) data.length
  rw [hs₃.may, hs₃.file, hr, hfile] at h₄
  have hs₄ := hs₃.trans ht₄
  have hrun : exec (copyEntry source dest) s = exec (fsWrite dest data) t₄ := by
    simp [copyEntry, h₁, hpos, hneg', h₂', h₃, h₄]
  have hclock : t₄.engine.refuses t₄.engine.clock = s.engine.refuses s.engine.clock := by
    obtain ⟨_, _, _, _, rfl⟩ := hs₄.same
    rfl
  rw [hrun]
  rcases exec_fsWrite_existing hs₄.settled hnb (hs₄.working ▸ hdst) (by rwa [hs₄.node]) data with
    ⟨-, hb, hlen, hok, h0⟩ | ⟨hno, h0, hvol⟩
  · rw [hs₄.file] at hb
    refine .inl ⟨⟨data, rfl, hlen, hb, ?_, hclock ▸ hok⟩, h0⟩
    by_contra hmay
    exact hseen ⟨by simpa using hmay, hb⟩
  · refine .inr ⟨?_, h0, hvol.trans hs₄.volumes⟩
    rintro ⟨data', hd, hlen, hb, -, hok⟩
    obtain rfl := Option.some.inj hd
    exact hno ⟨hs₄.may b modeW ▸ hw, by rwa [hs₄.file], hlen, hclock ▸ hok⟩

/-- In an active namespace, a copy onto something that is there either replaces an
unseen file or changes nothing. -/
theorem exec_fsCp_existing {s : Space Trees} (hs : Settled s) (source : Name) {dest : Name} {b : List Name} (hnb : Normal b)
    (hdst : normalize s.working dest = some (render b)) (hthere : s.node b ≠ none) :
    (Unseen s source dest ∧ (exec (fsCp source dest) s).1 = 0) ∨
      (¬ Unseen s source dest ∧ (exec (fsCp source dest) s).1 ≠ 0 ∧
        (exec (fsCp source dest) s).2.engine.volumes = s.engine.volumes) := by
  obtain ⟨t₁, ht₁, h₁⟩ := exec_checked hs source modeR (-13) (checked dest modeW (-13) do
    if !(← get).active then onEngine (Engine.extCp source dest)
    else copyEntry source dest : StateM (Space Trees) Int)
  obtain ⟨t₂, ht₂, h₂⟩ := exec_checked_may ht₁.settled (ht₁.working ▸ hdst) modeW (-13) (do
    if !(← get).active then onEngine (Engine.extCp source dest)
    else copyEntry source dest : StateM (Space Trees) Int)
  have hs₂ := ht₁.trans ht₂
  have h₁ : exec (fsCp source dest) s = _ := h₁
  have hunseen : ∀ t, Steady s t → (Unseen t source dest ↔ Unseen s source dest) := by
    intro t ht
    have hclock : t.engine.refuses t.engine.clock = s.engine.refuses s.engine.clock := by
      obtain ⟨_, _, _, _, rfl⟩ := ht.same
      rfl
    constructor <;>
    · rintro ⟨hpaths, hok⟩
      refine ⟨?_, by simpa [hclock] using hok⟩
      simpa only [ht.working, ht.file, ht.may] using hpaths
  cases hj : judge s.acl s.user (normalize s.working source) modeR with
  | false =>
    rw [hj] at h₁
    rw [h₁]
    refine .inr ⟨?_, by simp, ht₁.volumes⟩
    rintro ⟨⟨a, -, -, -, -, hsrc, -, -, -, -, hr, -⟩, -⟩
    rw [Space.may, ← hsrc, hj] at hr
    simp at hr
  | true =>
  rw [hj, if_pos rfl, h₂, ht₁.may] at h₁
  cases hw : s.may b modeW with
  | false =>
    rw [hw] at h₁
    rw [h₁]
    refine .inr ⟨?_, by simp, hs₂.volumes⟩
    rintro ⟨⟨a, b', -, -, hnb', -, hdst', -, -, -, -, hw', -⟩, -⟩
    obtain rfl := render_inj hnb'.1 hnb.1 (Option.some.inj (hdst'.symm.trans hdst))
    simp [hw] at hw'
  | true =>
  rw [hw, if_pos rfl] at h₁
  have hrun : exec (fsCp source dest) s = exec (copyEntry source dest) t₂ := by
    rw [h₁]
    simp [ht₂.settled.active]
  rw [hrun]
  cases hsrc : normalize s.working source with
  | none =>
    -- only root gets here, and there is no source
    refine .inr ⟨by rintro ⟨⟨a, -, -, -, -, hsrc', -⟩, -⟩; simp [hsrc] at hsrc', ?_⟩
    rw [hsrc] at hj
    have hu : t₂.user = root := by
      rw [hs₂.user]
      by_contra hu
      simp [judge, hu] at hj
    have hsize : exec (fsSize source) t₂ = (-1, t₂) := by
      simp [fsSize, checked, checkPermission, hu, plainSize, routed, ht₂.settled.active, route, hs₂.working, hsrc]
    have : exec (copyEntry source dest) t₂ = (-1, t₂) := by simp [copyEntry, hsize]
    rw [this]
    exact ⟨by simp, hs₂.volumes⟩
  | some path =>
    obtain ⟨a, rfl, hna⟩ := normalize_spec hsrc
    rw [hsrc] at hj
    rcases exec_copyEntry ht₂.settled hna hnb (hs₂.working ▸ hsrc) (hs₂.working ▸ hdst) (by rwa [hs₂.may])
      (by rwa [hs₂.may]) (by rwa [hs₂.node]) with ⟨hun, h0⟩ | ⟨hun, h0, hvol⟩
    · exact .inl ⟨(hunseen t₂ hs₂).1 hun, h0⟩
    · exact .inr ⟨fun h => hun ((hunseen t₂ hs₂).2 h), h0, hvol.trans hs₂.volumes⟩

/-! ## Copies before the namespace is active -/

/-- One component of a path, spelled in the directory `p`. -/
def descend (p : List Name) (c : Name) : List Name :=
  if c = dot then p else if c = dotdot then p.dropLast else p ++ [c]

/-- The place that `name` spells when the engine is in the directory `cwd`. -/
def resolve (cwd : List Name) (name : Name) : List Name :=
  (components name).foldl descend (if name.head? = some slash then [] else cwd)

theorem Tree.follow_descend {t : Tree} {p l q : List Name} (h : t.follow p l = some q) : l.foldl descend p = q := by
  induction l generalizing p with
  | nil => simpa [follow] using h
  | cons c l ih =>
    rw [List.foldl_cons]
    rw [follow] at h
    split at h
    · simp at h
    split at h
    · rename_i hdot
      rw [descend, if_pos hdot]
      exact ih h
    rename_i hdot
    split at h
    · simp at h
    split at h
    · rename_i hdotdot
      rw [descend, if_neg hdot, if_pos hdotdot]
      exact ih h
    rename_i hdotdot
    split at h
    · rw [descend, if_neg hdot, if_neg hdotdot]
      exact ih h
    · simp at h

/-- A path with a slash is its parent and its last name. -/
theorem split_last {name : Name} (h : slash ∈ name) :
    ∃ pre, name = pre ++ slash :: baseName name ∧ parentName name = (if pre = [] then [slash] else pre) := by
  obtain ⟨base, rest, hrev⟩ : ∃ base rest, name.reverse = base ++ slash :: rest ∧ base = name.reverse.takeWhile (· ≠ slash) := by
    refine ⟨_, (name.reverse.dropWhile (· ≠ slash)).tail, ?_, rfl⟩
    have hne : name.reverse.dropWhile (· ≠ slash) ≠ [] := by
      intro hnil
      rw [List.dropWhile_eq_nil_iff] at hnil
      simpa using hnil slash (by simpa using h)
    obtain ⟨c, l, hcl⟩ := List.exists_cons_of_ne_nil hne
    have hc : c = slash := by
      have := List.head_dropWhile_not (· ≠ slash) hne
      simp only [hcl, List.head_cons] at this
      simpa using this
    conv_lhs => rw [← List.takeWhile_append_dropWhile (p := (· ≠ slash)) (l := name.reverse)]
    rw [hcl, hc, List.tail_cons]
  obtain ⟨hrev, hbase⟩ := hrev
  have hname : name = rest.reverse ++ slash :: baseName name := by
    rw [baseName, ← hbase]
    have := congrArg List.reverse hrev
    simpa using this
  refine ⟨rest.reverse, hname, ?_⟩
  have hlen : name.length - (baseName name).length - 1 = rest.reverse.length := by
    have := congrArg List.length hname
    simp only [List.length_append, List.length_cons] at this
    omega
  have htake : name.take (name.length - (baseName name).length - 1) = rest.reverse := by
    rw [hlen]
    conv_lhs => rw [hname]
    exact List.take_left
  rw [parentName, htake]

theorem slash_notMem_baseName (name : Name) : slash ∉ baseName name := by
  intro h
  rw [baseName, List.mem_reverse] at h
  simpa using List.mem_takeWhile_imp h

theorem resolve_split {cwd : List Name} {name : Name} (h : slash ∈ name) (hbase : validName (baseName name) = true) :
    resolve cwd name = resolve cwd (parentName name) ++ [baseName name] := by
  obtain ⟨hne, -, -, hdot, hdotdot⟩ := validName_iff.1 hbase
  obtain ⟨pre, hname, hparent⟩ := split_last h
  have hcomp : components name = components pre ++ [baseName name] := by
    conv_lhs => rw [hname]
    rw [components_append, components_name hne (slash_notMem_baseName name)]
  have hpre : components (parentName name) = components pre ∧ (parentName name).head? = name.head? := by
    rw [hparent]
    split
    · rename_i hnil
      refine ⟨by rw [hnil]; rfl, ?_⟩
      rw [hname, hnil]
      rfl
    · rename_i hnil
      obtain ⟨c, l, rfl⟩ := List.exists_cons_of_ne_nil hnil
      refine ⟨rfl, ?_⟩
      rw [hname]
      rfl
  rw [resolve, resolve, hcomp, hpre.1, hpre.2, List.foldl_append, List.foldl_cons, List.foldl_nil]
  rw [descend, if_neg hdot, if_neg hdotdot]

theorem resolve_name {cwd : List Name} {name : Name} (h : validName name = true) : resolve cwd name = cwd ++ [name] := by
  obtain ⟨hne, -, hs, hdot, hdotdot⟩ := validName_iff.1 h
  have hhead : name.head? ≠ some slash := by
    intro he
    exact hs (List.mem_of_mem_head? he)
  rw [resolve, if_neg hhead, components_name hne hs, List.foldl_cons, List.foldl_nil, descend, if_neg hdot, if_neg hdotdot]

/-- The destination is a path to a file, which the engine looks for as one entry of its
working directory; the write then finds it. -/
structure Misplaced (e : Trees) (source dest : Name) : Prop where
  source : ∃ x data, e.findNode source = some (.file x data) ∧ data.length ≤ maxFileSize
  path : slash ∈ dest ∧ (parentName dest).length < pathCap ∧ validName (baseName dest) = true
  file : ∃ p x old, e.find (parentName dest) = some p ∧ e.tree.get p = some .dir ∧
    e.tree.get (p ++ [baseName dest]) = some (.file x old)
  here : e.tree.get e.cwd = some .dir ∧ e.tree.get (e.cwd ++ [dest]) = none
  accepted : e.refuses e.clock = false

theorem Misplaced.there {e : Trees} {source dest : Name} (h : Misplaced e source dest) :
    e.ready = true ∧ e.tree.get (resolve e.cwd dest) ≠ none := by
  obtain ⟨p, x, old, hfind, -, hfile⟩ := h.file
  unfold Trees.find at hfind
  split at hfind
  · simp at hfind
  rename_i hready
  refine ⟨by simpa using (not_or.1 hready).2, ?_⟩
  have hp : resolve e.cwd (parentName dest) = p := Tree.follow_descend hfind
  rw [resolve_split h.path.1 h.path.2.2, hp, hfile]
  simp

/-- What `ext_cp` does to a destination that is there. -/
theorem exec_extCp_existing (e : Trees) (source dest : Name) (hready : e.ready = true)
    (hthere : e.tree.get (resolve e.cwd dest) ≠ none) :
    (Misplaced e source dest ∧ (e.change (e.copied source dest)).1 = 0) ∨
      (¬ Misplaced e source dest ∧ (e.change (e.copied source dest)).1 ≠ 0 ∧
        (e.change (e.copied source dest)).2.volumes = e.volumes) := by
  -- the engine has a next tree exactly when the file is misplaced
  have hcopied : (e.copied source dest).isSome = true ↔ Misplaced { e with refuses := fun _ => false } source dest := by
    constructor
    · intro h
      obtain ⟨tree, htree⟩ := Option.isSome_iff_exists.1 h
      unfold Trees.copied at htree
      split at htree
      swap
      · simp at htree
      rename_i x data hsource
      split at htree
      · simp at htree
      rename_i hcond
      simp only [not_or, not_not, Bool.not_eq_true, Option.isSome_eq_false_iff, Option.isNone_iff_eq_none] at hcond
      obtain ⟨hcwd, -, -, hnone⟩ := hcond
      unfold Trees.writtenPath at htree
      split at htree
      · rename_i hslash
        split at htree
        · simp at htree
        rename_i hlen
        obtain ⟨p, hfind, hw⟩ := Option.bind_eq_some_iff.1 htree
        unfold Trees.written at hw
        split at hw
        swap
        · simp at hw
        rename_i hcond
        have hp : resolve e.cwd (parentName dest) = p := by
          unfold Trees.find at hfind
          split at hfind
          · simp at hfind
          · exact Tree.follow_descend hfind
        have hslash : slash ∈ dest := by simpa using hslash
        rw [resolve_split hslash hcond.1, hp] at hthere
        split at hw
        · rename_i hg
          exact absurd hg hthere
        · rename_i y old hg
          exact ⟨⟨x, data, hsource, hcond.2.1⟩, ⟨hslash, Nat.lt_of_not_le hlen, hcond.1⟩,
            ⟨p, y, old, hfind, hcond.2.2, hg⟩, ⟨hcwd, hnone⟩, rfl⟩
        · simp at hw
      · -- one name, which the engine did not find
        unfold Trees.written at htree
        split at htree
        · rename_i hcond
          rw [resolve_name hcond.1] at hthere
          exact absurd hnone hthere
        · simp at htree
    · rintro ⟨⟨x, data, hsource, hdata⟩, ⟨hslash, hlen, hbase⟩, ⟨p, y, old, hfind, hdir, hfile⟩, ⟨hcwd, hnone⟩, -⟩
      have hsource : e.findNode source = some (.file x data) := hsource
      have hfind : e.find (parentName dest) = some p := hfind
      have hdir : e.tree.get p = some .dir := hdir
      have hfile : e.tree.get (p ++ [baseName dest]) = some (.file y old) := hfile
      have hcwd : e.tree.get e.cwd = some .dir := hcwd
      have hnone : e.tree.get (e.cwd ++ [dest]) = none := hnone
      have hdots : dest ≠ dot ∧ dest ≠ dotdot := by
        constructor <;>
        · rintro rfl
          simp [dot, dotdot, slash] at hslash
      have hdata' : data.length ≤ (12 + 256) * 1024 := hdata
      rw [Trees.copied, hsource]
      dsimp only
      rw [if_neg (by simp [hcwd, hdots, hnone]), Trees.writtenPath, if_pos (by simpa using hslash), if_neg (by omega), hfind,
        Option.bind_some, Trees.written, if_pos ⟨hbase, hdata', hdir⟩, hfile]
      rfl
  have hsplit : Misplaced e source dest ↔ (e.copied source dest).isSome = true ∧ e.refuses e.clock = false := by
    rw [hcopied]
    exact ⟨fun h => ⟨⟨h.source, h.path, h.file, h.here, rfl⟩, h.accepted⟩,
      fun h => ⟨h.1.source, h.1.path, h.1.file, h.1.here, h.2⟩⟩
  rw [hsplit]
  cases hnext : e.copied source dest with
  | none => exact .inr ⟨by simp, by simp [Trees.change], rfl⟩
  | some tree =>
    cases hok : e.refuses e.clock with
    | true => exact .inr ⟨by simp, by simp [Trees.change, hok], by simp [Trees.change, hok]⟩
    | false => exact .inl ⟨by simp, by simp [Trees.change, hok, hready]⟩

/-! ## Copies onto existing names -/

theorem start_engine (s : Space Trees) : (start s).engine = s.engine := by
  cases h : s.active <;> simp [start, namespaceStart, h, exec_onEngine, Engine.engineReady, Engine.extGetcwd]

/-- Something is there at the normalized `name`. Users other than root start the
namespace with their first check; before that a name is relative to the engine's
working directory. -/
inductive Existing (s : Space Trees) (name : Name) : Prop
  | routed (b : List Name) : s.active = true ∨ s.user ≠ root → Normal b →
      normalize (start s).working name = some (render b) → (start s).node b ≠ none → Existing s name
  | early : s.active = false → s.user = root → s.engine.ready = true →
      s.engine.tree.get (resolve s.engine.cwd name) ≠ none → Existing s name

/-- The copy replaces a file. -/
inductive Replaces (s : Space Trees) (source dest : Name) : Prop
  | unseen : s.active = true ∨ s.user ≠ root → Unseen (start s) source dest → Replaces s source dest
  | misplaced : s.active = false → s.user = root → Misplaced s.engine source dest → Replaces s source dest

/-- A copy onto something that is there fails and changes no file. -/
def CopySafe (s : Space Trees) (source dest : Name) : Prop :=
  Existing s dest → (exec (fsCp source dest) s).1 ≠ 0 ∧ (exec (fsCp source dest) s).2.engine.volumes = s.engine.volumes

/-- The user `u` owns `/a`, may write `/b` and not read it, and the engine has `/d/b`. -/
def writeOnly : Space Trees where
  mounts _ := ⟨false, noDisk, []⟩
  working := [slash]
  active := false
  activeVolume := none
  user := [117]
  renamedAcl := []
  renameGuard := []
  renamedAclNeeded := false
  engine := {
    volumes := fun d => if d = ⟨2, 0, 2048, 1⟩ then some ⟨[([[101, 116, 99]], .dir),
      (accessParts, .file false [47, 97, 124, 117, 124, 114, 119, 124, 10, 47, 98, 124, 117, 124, 119, 124, 10]),
      ([[97]], .file false [1]), ([[98]], .file false [2]), ([[100]], .dir), ([[100], [98]], .file false [3])]⟩ else none
    probe := fun _ _ d => (d, false)
    selected := ⟨2, 0, 2048, 1⟩
    mounted := true
    cwd := []
    refuses := fun _ => false
    clock := 0 }

theorem sound_writeOnly : Sound writeOnly := fun h => by simp [writeOnly] at h

end Barnix.Vfs
