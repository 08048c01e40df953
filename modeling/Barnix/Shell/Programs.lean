import Barnix.Linux.Elf
import Barnix.Vfs.Normalize
import Barnix.Vfs.World
import Mathlib.Data.List.Infix
/-!
# Programs of the kernel's own ABI

`run_once` of `elf.c`. A program of the kernel's own ABI runs inside the kernel, so
users other than root may start only those in `/bin`. The gate looks at the text of
the name, while the loader follows its normalized path.
-/

namespace Barnix.Shell

open Vfs
open Linux (ElfError ElfPlan elfValidate)

/-- The static data of `elf.c`: `recovery` holds the cached tools by number, an empty one being absent. -/
structure Loader (ε : Type) where
  space : Space ε
  running : Bool
  recovery : Nat → List UInt8

/-- `recovery_names` -/
def recoveryNames : List Name :=
  [bin ++ [47, 109, 111, 117, 110, 116], bin ++ [47, 117, 110, 109, 111, 117, 110, 116],
    bin ++ [47, 100, 101, 118, 105, 99, 101, 115], bin ++ [47, 102, 111, 114, 109, 97, 116], bin ++ [47, 102, 100, 105, 115, 107]]

/-- Why a program is not started. -/
inductive RunError where
  | nested
  | notFound
  | denied
  | cannotLoad
  | cannotRead
  | invalid (error : ElfError)
  | noDirectory
  | native

/-- What is printed; the first ones of a user have the name behind them. -/
def RunError.text : RunError → String
  | nested => "nested execution is unsupported"
  | notFound => "Command not found: "
  | denied => "Permission denied: "
  | cannotLoad => "Cannot load executable: "
  | cannotRead => "command not found: cannot read executable"
  | invalid error => "ELF: " ++ error.text
  | noDirectory => ""
  | native => "Native ABI programs must be installed in /bin by root; use Linux ELF for user programs"

/-- Where `run_once` gets to: a message, `linux_run_image`, or `elf_enter`. -/
inductive Started where
  | failed (error : RunError)
  | linux (image : List UInt8)
  | native (image : List UInt8) (plan : ElfPlan)

variable {ε : Type} [Engine ε]

def onFiles {α : Type} (x : StateM (Space ε) α) : StateM (Loader ε) α :=
  zoom Loader.space (fun s m => { m with space := s }) x

/-- `strncmp(canonical,"/bin/",5)||strstr(canonical,"/../")||strstr(canonical,"/./")` finds nothing. -/
def gate (canonical : Name) : Bool :=
  decide (bin ++ [slash] <+: canonical) && !decide (slash :: dotdot ++ [slash] <:+: canonical) &&
    !decide (slash :: dot ++ [slash] <:+: canonical)

/-- The text that the gate looks at. -/
def canonicalText (cwd name : Name) : Name := if name.head? = some slash then name else cwd ++ [slash] ++ name

/-- The check of a native program, for users other than root. -/
def nativeAllowed (name : Name) : StateM (Space ε) (Except RunError Unit) := do
  if (← get).user = root then return .ok ()
  if name.head? = some slash then return if gate name then .ok () else .error .native
  match ← fsGetcwd pathCap with
  | .error _ => return .error .noDirectory
  | .ok cwd => return if gate (canonicalText cwd name) then .ok () else .error .native

/-- The image of a program: the file, or for root a cached copy. -/
def programImage (name : Name) : StateM (Loader ε) (Except RunError (List UInt8)) := do
  match ← onFiles (fsLoadExecutable (ε := ε) name maxFileSize) with
  | .ok image => return .ok image
  | .error e =>
    let m ← get
    if m.space.user ≠ root then
      return .error (if e = -2 then .notFound else if e = -13 then .denied else .cannotLoad)
    match recoveryNames.zipIdx.find? fun r => name == r.1 && m.recovery r.2 != [] with
    | some r => return .ok (m.recovery r.2)
    | none => return .error .cannotRead

def runOnce (name : Name) : StateM (Loader ε) Started := do
  if (← get).running then return .failed .nested
  match ← programImage name with
  | .error e => return .failed e
  | .ok image =>
    match elfValidate image with
    | .error e => return .failed (.invalid e)
    | .ok plan =>
      if !plan.legacy then return .linux image
      match ← onFiles (nativeAllowed (ε := ε) name) with
      | .error e => return .failed e
      | .ok _ => return .native image plan

/-! ## What the gate says of a path -/

/-- The components before the last one are not `d` when no `/d/` stands in the text. -/
theorem not_mem_dropLast_splitOn {d : Name} (hd : slash ∉ d) (n : Nat) : ∀ {rest : Name}, rest.length ≤ n →
    ¬ slash :: d ++ [slash] <:+: slash :: rest → d ∉ (rest.splitOn slash).dropLast := by
  induction n with
  | zero =>
    intro rest hlen _
    obtain rfl := List.length_eq_zero_iff.1 (Nat.le_zero.1 hlen)
    simp
  | succ n ih =>
    intro rest hlen hfree
    by_cases hslash : slash ∈ rest
    · obtain ⟨before, after, rfl, hbefore⟩ := List.eq_append_cons_of_mem hslash
      rw [List.splitOn_append_cons_self_of_not_mem hbefore, List.dropLast_cons_of_ne_nil (List.splitOn_ne_nil _ _)]
      intro hmem
      rcases List.mem_cons.1 hmem with rfl | hmem
      · exact hfree ⟨[], after, by simp⟩
      · rw [List.length_append, List.length_cons] at hlen
        refine ih (by omega) (fun hin => hfree ?_) hmem
        exact hin.trans ⟨slash :: before, [], by simp⟩
    · rw [List.splitOn_eq_singleton hslash]
      simp

/-- Components that neither stay nor go up are pushed. -/
theorem foldl_push_plain {parts : List Name} (h : dot ∉ parts ∧ dotdot ∉ parts) (stack : List Name) :
    ∃ more, parts.foldl push stack = stack ++ more := by
  induction parts generalizing stack with
  | nil => exact ⟨[], (List.append_nil _).symm⟩
  | cons c parts ih =>
    obtain ⟨hdot, hdotdot⟩ := h
    rw [List.mem_cons, not_or] at hdot hdotdot
    rw [List.foldl_cons, push, if_neg (Ne.symm hdotdot.1)]
    by_cases hnamed : Named c
    · obtain ⟨more, hmore⟩ := ih ⟨hdot.2, hdotdot.2⟩ (stack ++ [c])
      exact ⟨c :: more, by rw [if_pos hnamed, hmore, List.append_assoc]; rfl⟩
    · rw [if_neg hnamed]
      exact ih ⟨hdot.2, hdotdot.2⟩ stack

/-- The component `bin`. -/
def binPart : Name := [98, 105, 110]

/-- What passes the gate means `/`, or something at or beneath `/bin`. -/
theorem gate_stack {canonical : Name} (h : gate canonical = true) :
    (canonical.splitOn slash).foldl push [] = [] ∨ ∃ more, (canonical.splitOn slash).foldl push [] = binPart :: more := by
  simp only [gate, Bool.and_eq_true, decide_eq_true_eq, Bool.not_eq_true', decide_eq_false_iff_not] at h
  obtain ⟨⟨⟨rest, rfl⟩, hup⟩, hstay⟩ := h
  have hsplit : (bin ++ [slash] ++ rest).splitOn slash = [] :: binPart :: rest.splitOn slash := by
    rw [List.append_assoc, List.singleton_append, List.splitOn_append_cons_self]
    rfl
  have hsuffix : slash :: rest <:+: bin ++ [slash] ++ rest := ⟨bin, [], by simp⟩
  have hplain : dot ∉ (rest.splitOn slash).dropLast ∧ dotdot ∉ (rest.splitOn slash).dropLast :=
    ⟨not_mem_dropLast_splitOn (by decide) rest.length (Nat.le_refl _) fun hin => hstay (hin.trans hsuffix),
      not_mem_dropLast_splitOn (by decide) rest.length (Nat.le_refl _) fun hin => hup (hin.trans hsuffix)⟩
  obtain ⟨more, hmore⟩ := foldl_push_plain hplain [binPart]
  have hne := List.splitOn_ne_nil slash rest
  rw [hsplit, List.foldl_cons, List.foldl_cons, ← List.dropLast_append_getLast hne, List.foldl_append, List.foldl_cons, List.foldl_nil]
  have hstart : push (push [] []) binPart = [binPart] := by decide
  rw [hstart, hmore]
  -- only the last component can still stay or go up
  generalize (rest.splitOn slash).getLast hne = last
  unfold push
  split
  · exact .inr ⟨more ++ [last], rfl⟩
  split
  · cases more with
    | nil => exact .inl rfl
    | cons c more => exact .inr ⟨(c :: more).dropLast, rfl⟩
  · exact .inr ⟨more, rfl⟩

/-- The gate's text and `normalize` spell the same. -/
theorem canonicalText_spelled (working name : Name) :
    ((canonicalText working name).splitOn slash).foldl push [] = stacked working name := by
  unfold canonicalText stacked spelled
  split
  · rfl
  · rw [List.append_assoc, List.singleton_append, List.splitOn_append_cons_self]

/-! ## What the loader reads -/

theorem exec_execCheck {s : Space Trees} {name : Name} {ps : List Name} (hs : Settled s) (hps : Normal ps)
    (hn : normalize s.working name = some (render ps)) :
    ∃ t n, Steady s t ∧ exec (routed name false (-1) Engine.extExecCheck) s = (n, t) ∧ n ≤ 0 ∧
      (n = 0 ↔ ∃ data, s.node ps = some (.file true data)) := by
  rcases exec_routed_read hs hps hn Trees.execCheck (-1) with ⟨hv, h⟩ | ⟨v, l, t, hl, hload, h⟩
  · refine ⟨s, -1, .refl hs, h, by decide, ?_⟩
    rw [node_of_no_volume hv]
    simp
  · refine ⟨t, _, hload.toSteady, h, ?_⟩
    rw [Trees.execCheck, hload.ready, hload.findNode hps hl]
    rcases s.node ps with _ | _ | ⟨x, data⟩
    · simp
    · simp
    · cases x <;> simp

/-- `fs_load_executable` behind the check of the right. -/
def loadProgram (name : Name) (capacity : Nat) : StateM (Space ε) (Except Int (List UInt8)) := do
  let n ← programSize name
  if n < 0 then return .error n
  if (capacity : Int) < n then return .error (-5)
  match ← plainRead name 0 n.toNat with
  | some data => return if data.length = n.toNat then .ok data else .error (-5)
  | none => return .error (-5)

theorem exec_loadProgram {s : Space Trees} {name : Name} {ps : List Name} (hs : Settled s) (hps : Normal ps)
    (hn : normalize s.working name = some (render ps)) (capacity : Nat) :
    ∃ t r, Steady s t ∧ exec (loadProgram name capacity) s = (r, t) ∧
      ∀ image, r = .ok image ↔ s.node ps = some (.file true image) ∧ image.length ≤ capacity := by
  obtain ⟨t, n, ht, hcheck, hle, hexecutable⟩ := exec_execCheck hs hps hn
  unfold loadProgram programSize
  simp only [exec_bind, hcheck]
  by_cases hn0 : n = 0
  · obtain ⟨data, hdata⟩ := hexecutable.1 hn0
    obtain ⟨u, hu, hsize⟩ := exec_plainSize ht.settled hps (ht.working ▸ hn)
    have hfile : s.file ps = some data := by rw [Space.file, hdata]; rfl
    rw [ht.file, hfile] at hsize
    have hpos : ¬ (data.length : Int) < 0 := by omega
    simp only [hn0, ne_eq, not_true_eq_false, if_false, hsize, Option.elim_some, exec_pure, hpos]
    by_cases hlong : (capacity : Int) < data.length
    · refine ⟨u, .error (-5), ht.trans hu, by simp [hlong], fun image => ⟨fun h => (by cases h), fun h => ?_⟩⟩
      rw [hdata] at h
      obtain ⟨h, hle⟩ := h
      cases h
      omega
    · obtain ⟨v, hv, hread⟩ := exec_plainRead hu.settled hps (hu.working ▸ ht.working ▸ hn) data.length
      rw [hu.file, ht.file, hfile, Option.map_some, List.take_length] at hread
      refine ⟨v, .ok data, (ht.trans hu).trans hv, by simp [hlong, hread], fun image => ?_⟩
      rw [hdata]
      constructor
      · rintro ⟨⟩
        exact ⟨rfl, by omega⟩
      · rintro ⟨⟨⟩, -⟩
        rfl
  · have hneg : n < 0 := by omega
    refine ⟨t, .error n, ht, by simp [hn0, hneg], fun image => ⟨fun h => (by cases h), fun h => ?_⟩⟩
    exact absurd (hexecutable.2 ⟨image, h.1⟩) hn0

/-- A program is loaded when it is an executable file that the user may execute. -/
theorem exec_fsLoadExecutable {s : Space Trees} (hs : Settled s) (hu : s.user ≠ root) (name : Name) (capacity : Nat) :
    ∃ t r, Steady s t ∧ exec (fsLoadExecutable name capacity) s = (r, t) ∧ ∀ image,
      r = .ok image ↔ judge s.acl s.user (normalize s.working name) modeX = true ∧
          ∃ ps, normalize s.working name = some (render ps) ∧ Normal ps ∧ s.node ps = some (.file true image) ∧ image.length ≤ capacity := by
  obtain ⟨t, ht, hcheck⟩ := exec_checked hs name modeX (.error (-13)) (loadProgram name capacity)
  have hload : fsLoadExecutable name capacity = checked name modeX (.error (-13)) (loadProgram (ε := Trees) name capacity) := rfl
  rw [hload, hcheck]
  by_cases hj : judge s.acl s.user (normalize s.working name) modeX = true
  · cases hn : normalize s.working name with
    | none => simp [judge, hu, hn] at hj
    | some path =>
      obtain ⟨ps, rfl, hps⟩ := normalize_spec hn
      obtain ⟨u, r, htu, hr, himage⟩ := exec_loadProgram ht.settled hps (ht.working ▸ hn) capacity
      refine ⟨u, r, ht.trans htu, ?_, fun image => ?_⟩
      · rw [if_pos (hn ▸ hj), hr]
      · rw [himage, ht.node]
        constructor
        · exact fun h => ⟨hn ▸ hj, ps, rfl, hps, h⟩
        · rintro ⟨-, qs, hqs, hnormal, h⟩
          rwa [render_inj hps.1 hnormal.1 (Option.some.inj hqs)]
  · exact ⟨t, .error (-13), ht, by rw [if_neg hj], fun image => ⟨fun h => (by cases h), fun h => absurd h.1 hj⟩⟩

theorem exec_nativeAllowed {s : Space Trees} (hs : Settled s) (hu : s.user ≠ root) (hcwd : s.working.length < pathCap) (name : Name) :
    ∃ r, exec (nativeAllowed name) s = (r, s) ∧ (r = .ok () ↔ gate (canonicalText s.working name) = true) := by
  unfold nativeAllowed canonicalText
  by_cases habs : name.head? = some slash
  · cases hg : gate name <;> simp [hu, habs, hg]
  · have hroom : ¬ pathCap < s.working.length + 1 := by omega
    cases hg : gate (s.working ++ [slash] ++ name) <;>
      simp [hu, habs, fsGetcwd, hs.active, hroom, Nat.not_le.2 hcwd, canonicalText, hg, -List.append_assoc]

/-- The user may execute the file that the name stands for, and it fits. -/
def Loads (s : Space Trees) (name : Name) (image : List UInt8) : Prop :=
  judge s.acl s.user (normalize s.working name) modeX = true ∧
    ∃ ps, normalize s.working name = some (render ps) ∧ Normal ps ∧ s.node ps = some (.file true image) ∧ image.length ≤ maxFileSize

/-- When `elf_enter` is reached for a user other than root. -/
theorem runOnce_native_iff {m : Loader Trees} (hs : Sound m.space) (hu : m.space.user ≠ root)
    (hcwd : (start m.space).working.length < pathCap) (name : Name) (image : List UInt8) (plan : ElfPlan) :
    (exec (runOnce name) m).1 = .native image plan ↔
      m.running = false ∧ Loads (start m.space) name image ∧ elfValidate image = .ok plan ∧ plan.legacy = true ∧
        gate (canonicalText (start m.space).working name) = true := by
  have hu' : (start m.space).user ≠ root := by simpa using hu
  obtain ⟨t, r, ht, hload, himage⟩ := exec_fsLoadExecutable hs.start hu' name maxFileSize
  have hstart : exec (fsLoadExecutable (ε := Trees) name maxFileSize) m.space = (r, t) := by
    rw [← hload]
    exact exec_checked_start m.space hu name modeX _ _
  cases hrun : m.running with
  | true => simp [runOnce, hrun]
  | false =>
  have htu : t.user ≠ root := by rw [ht.user]; exact hu'
  cases r with
  | error e =>
    have hno : ¬ Loads (start m.space) name image := fun h => by cases (himage image).2 h
    simp [runOnce, hrun, programImage, onFiles, hstart, htu, hno]
  | ok loaded =>
    have hiff : Loads (start m.space) name image ↔ loaded = image := (himage image).symm.trans (by simp)
    rw [hiff]
    obtain ⟨a, hallowed, hgate⟩ := exec_nativeAllowed ht.settled htu (by rw [ht.working]; exact hcwd) name
    rw [ht.working] at hgate
    rw [← hgate]
    have hread : exec (programImage name) m = (.ok loaded, { m with space := t }) := by simp [programImage, onFiles, hstart]
    have hgated : exec (onFiles (nativeAllowed name)) { m with space := t } = (a, { m with space := t }) := by
      simp [onFiles, hallowed]
    rw [hrun] at hread hgated
    cases hplan : elfValidate loaded with
    | error e =>
      have hanswer : (exec (runOnce name) m).1 = .failed (.invalid e) := by simp [runOnce, hrun, hread, hplan]
      rw [hanswer]
      refine ⟨fun h => (by cases h), ?_⟩
      rintro ⟨-, rfl, hplan', -⟩
      rw [hplan] at hplan'
      cases hplan'
    | ok p =>
      cases hlegacy : p.legacy with
      | false =>
        have hanswer : (exec (runOnce name) m).1 = .linux loaded := by simp [runOnce, hrun, hread, hplan, hlegacy]
        rw [hanswer]
        refine ⟨fun h => (by cases h), ?_⟩
        rintro ⟨-, rfl, hplan', hnative, -⟩
        rw [hplan] at hplan'
        cases hplan'
        rw [hlegacy] at hnative
        cases hnative
      | true =>
        cases a with
        | error e =>
          have hanswer : (exec (runOnce name) m).1 = .failed e := by simp [runOnce, hrun, hread, hplan, hlegacy, hgated]
          rw [hanswer]
          exact ⟨fun h => (by cases h), fun h => nomatch h.2.2.2.2⟩
        | ok u =>
          have hanswer : (exec (runOnce name) m).1 = .native loaded p := by simp [runOnce, hrun, hread, hplan, hlegacy, hgated]
          rw [hanswer]
          constructor
          · rintro ⟨⟩
            exact ⟨rfl, rfl, hplan, hlegacy, rfl⟩
          · rintro ⟨-, rfl, hplan', -⟩
            rw [hplan] at hplan'
            cases hplan'
            rfl

theorem render_binPart : render [binPart] = bin := rfl

/-- The root is a directory. -/
theorem node_root (s : Space Trees) (executable : Bool) (data : List UInt8) : s.node [] ≠ some (.file executable data) := by
  unfold Space.node
  cases volumeFor s.mounts (render []) with
  | none => exact nofun
  | some v =>
    dsimp only
    cases s.engine.volumes (s.mounts v).disk with
    | none => exact nofun
    | some t => simp [Vfs.Tree.follow, Vfs.Tree.get]

/-- A native image runs only from a file of its content, strictly beneath `/bin`. -/
def FromBin (m : Loader Trees) (name : Name) : Prop :=
  ∀ image plan, (exec (runOnce name) m).1 = .native image plan →
    ∃ path, normalize (start m.space).working name = some path ∧ (beneath path bin = true ∧ path ≠ bin) ∧
      (start m.space).file (components path) = some image

/-- `/bin` itself is a program of the kernel's own ABI that the user may execute, and the name passes the
gate and stands for it. -/
structure BinItself (m : Loader Trees) (name : Name) : Prop where
  idle : m.running = false
  path : normalize (start m.space).working name = some bin
  passes : gate (canonicalText (start m.space).working name) = true
  allowed : judge (start m.space).acl m.space.user (some bin) modeX = true
  file : ∃ image plan, (start m.space).node [binPart] = some (.file true image) ∧ image.length ≤ maxFileSize ∧
    elfValidate image = .ok plan ∧ plan.legacy = true

theorem normalize_stack {working name path : Name} (h : normalize working name = some path) :
    path = render (stacked working name) ∧ Normal (stacked working name) := by
  rw [normalize_answer] at h
  obtain ⟨parts, hparts, rfl⟩ := Option.map_eq_some_iff.1 h
  obtain ⟨rfl, hnormal⟩ := answer_some hparts
  exact ⟨rfl, hnormal⟩

theorem BinItself.not_fromBin {m : Loader Trees} {name : Name} (h : BinItself m name) (hs : Sound m.space) (hu : m.space.user ≠ root)
    (hcwd : (start m.space).working.length < pathCap) : ¬ FromBin m name := by
  intro hfrom
  obtain ⟨image, plan, hnode, hlen, hplan, hlegacy⟩ := h.file
  have hload : Loads (start m.space) name image := by
    refine ⟨?_, [binPart], h.path.trans (by rw [render_binPart]), ⟨by decide, by decide⟩, hnode, hlen⟩
    rw [start_user, h.path]
    exact h.allowed
  obtain ⟨path, hpath, hstrict, -⟩ :=
    hfrom image plan ((runOnce_native_iff hs hu hcwd name image plan).2 ⟨h.idle, hload, hplan, hlegacy, h.passes⟩)
  rw [h.path] at hpath
  exact hstrict.2 (Option.some.inj hpath).symm

theorem native_from_bin {m : Loader Trees} (hs : Sound m.space) (hu : m.space.user ≠ root)
    (hcwd : (start m.space).working.length < pathCap) (name : Name) : FromBin m name ↔ ¬ BinItself m name := by
  constructor
  · exact fun h hbin => hbin.not_fromBin hs hu hcwd h
  · intro hno image plan hnative
    obtain ⟨hidle, ⟨hallowed, ps, hn, hps, hnode, hlen⟩, hplan, hlegacy, hgate⟩ := (runOnce_native_iff hs hu hcwd name image plan).1 hnative
    obtain ⟨hpath, hnormal⟩ := normalize_stack hn
    obtain rfl := render_inj hps.1 hnormal.1 hpath
    have hstack := gate_stack hgate
    rw [canonicalText_spelled] at hstack
    refine ⟨_, hn, ?_, ?_⟩
    · rcases hstack with hroot | ⟨more, hmore⟩
      · rw [hroot] at hnode
        exact absurd hnode (node_root _ _ _)
      · have hne : more ≠ [] := by
          rintro rfl
          rw [hmore] at hn hnode
          refine hno ⟨hidle, hn, hgate, ?_, image, plan, hnode, hlen, hplan, hlegacy⟩
          rwa [hn, start_user] at hallowed
        rw [hmore] at hps ⊢
        rw [← render_binPart]
        refine ⟨(beneath_render hps.1 (fun c hc => hps.1 c (by simp_all))).2 ⟨more, rfl⟩, fun he => hne ?_⟩
        have := render_inj hps.1 (fun c hc => hps.1 c (by simp_all)) he
        exact (List.cons.inj this).2
    · rw [components_render hps.1, Space.file, hnode]
      rfl

/-! ## A file in the place of `/bin` -/

/-- A program of one segment for the kernel's own ABI. -/
def nativeImage : List UInt8 :=
  [0x7f, 69, 76, 70, 1, 1, 1, 255, 9, 0, 0, 0, 0, 0, 0, 0] ++
  [2, 0, 3, 0, 1, 0, 0, 0, 0x54, 0, 0, 1, 52, 0, 0, 0, 0, 0, 0, 0, 0, 0, 0, 0, 52, 0, 32, 0, 1, 0, 0, 0, 0, 0, 0, 0] ++
  [1, 0, 0, 0, 0, 0, 0, 0, 0, 0, 0, 1, 0, 0, 0, 1, 86, 0, 0, 0, 86, 0, 0, 0, 5, 0, 0, 0, 1, 0, 0, 0] ++
  [0xcd, 0x80]

def nativePlan : ElfPlan := ⟨0x1000054, 0x1000000, 52, 1, 0x1000034, true, [⟨0, 0x1000000, 86, 86⟩]⟩

theorem elfValidate_nativeImage : elfValidate nativeImage = .ok nativePlan := by decide +kernel

/-- The volume whose `/bin` is a program, and a user `alice` on it. -/
def binLoader : Loader Trees where
  space := {
    mounts := fun i => if i.val = 0 then ⟨true, noDisk, [slash]⟩ else ⟨false, noDisk, []⟩
    working := [slash]
    active := true
    activeVolume := (List.finRange 8).head?
    user := [97, 108, 105, 99, 101]
    renamedAcl := []
    renameGuard := []
    renamedAclNeeded := false
    engine := ⟨fun _ => some ⟨[([binPart], .file true nativeImage)]⟩, fun _ _ d => (d, false), noDisk, true, [], fun _ => false, 0⟩ }
  running := false
  recovery := fun _ => []

theorem binLoader_sound : Sound binLoader.space := by
  intro _
  have hused : ∀ i, (binLoader.space.mounts i).used = true → i = 0 := by
    intro i hi
    by_contra hne
    simp [binLoader, hne] at hi
  refine ⟨rfl, fun i hi => ?_, fun i j hi hj _ => (hused i hi).trans (hused j hj).symm, fun i _ => ⟨_, rfl⟩, fun v hv => ?_⟩
  · rw [hused i hi]
    exact ⟨[], ⟨by simp, by decide⟩, rfl⟩
  · obtain rfl : 0 = v := Option.some.inj hv
    exact ⟨rfl, rfl, rfl⟩

/-- `/bin/.` -/
def binDot : Name := bin ++ [slash] ++ dot

theorem binLoader_start : start binLoader.space = binLoader.space := start_of_active rfl

theorem binItself_binLoader : BinItself binLoader binDot := by
  refine ⟨rfl, ?_, ?_, ?_, nativeImage, nativePlan, ?_, by decide, elfValidate_nativeImage, rfl⟩
  · rw [binLoader_start]
    decide
  · rw [binLoader_start]
    decide
  · rw [binLoader_start]
    decide
  · rw [binLoader_start]
    decide

/-- `alice` starts `/bin` itself in the kernel by the name `/bin/.`. -/
theorem native_from_bin_dot : Sound binLoader.space ∧ binLoader.space.user ≠ root ∧ ¬ FromBin binLoader binDot := by
  have hcwd : (start binLoader.space).working.length < pathCap := by
    rw [binLoader_start]
    decide
  exact ⟨binLoader_sound, by decide, binItself_binLoader.not_fromBin binLoader_sound (by decide) hcwd⟩

theorem native_from_bin_alice : FromBin binLoader [98] :=
  (native_from_bin binLoader_sound (by decide) (by rw [binLoader_start]; decide) [98]).2 fun h => by
    have := h.path
    rw [binLoader_start] at this
    exact absurd this (by decide)

end Barnix.Shell
