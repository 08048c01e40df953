import Barnix.Lib.Nearest
import Barnix.Vfs.Permissions
import Mathlib.Data.List.TakeDrop
import Mathlib.Data.List.TakeWhile
/-!
# Records of the access list

An access list written by `set_file_permissions` is a text of clean records.
The scanners of `permissions.c` read back exactly these records: a decision is
the right of the nearest record, the lock is the lock of the nearest record
that has one.
-/

namespace Barnix.Acl

open Vfs

structure Record where
  parts : List Name
  user : Name
  rights : Name
  lock : Name
deriving DecidableEq

namespace Record

def path (r : Record) : Name := render r.parts

def depth (r : Record) : Nat := r.path.length

def line (r : Record) : Name :=
  r.path ++ [bar] ++ r.user ++ [bar] ++ r.rights ++ [bar] ++ r.lock ++ [newline]

end Record

def text (rs : List Record) : Name := rs.flatMap Record.line

/-- The bytes a field can hold. -/
def Plain (field : Name) : Prop := ∀ c ∈ field, c ≠ 0 ∧ c ≠ bar ∧ c ≠ newline

/-- A record that the scanners read as it was written. -/
structure Record.Clean (r : Record) : Prop where
  normal : Normal r.parts
  path : Plain r.path
  user : Plain r.user
  rights : Plain r.rights
  lock : ∀ c ∈ r.lock, c ≠ 0 ∧ c ≠ newline
  short : r.lock.length < 96

@[simp] theorem text_nil : text [] = [] := rfl

@[simp] theorem text_cons (r : Record) (rs : List Record) : text (r :: rs) = r.line ++ text rs := rfl

@[simp] theorem text_append (rs qs : List Record) : text (rs ++ qs) = text rs ++ text qs := by
  simp [text]

/-! ## Fields -/

theorem takeWhile_stop {p : UInt8 → Bool} {field rest : Name} {c : UInt8} (h : ∀ b ∈ field, p b = true) (hc : p c = false) :
    (field ++ c :: rest).takeWhile p = field := by
  rw [List.takeWhile_append_of_pos h, List.takeWhile_cons_of_neg (by simp [hc]), List.append_nil]

theorem dropWhile_stop {p : UInt8 → Bool} {field rest : Name} {c : UInt8} (h : ∀ b ∈ field, p b = true) (hc : p c = false) :
    (field ++ c :: rest).dropWhile p = c :: rest := by
  rw [List.dropWhile_append_of_pos h, List.dropWhile_cons_of_neg (by simp [hc])]

theorem span_stop {p : UInt8 → Bool} {field rest : Name} {c : UInt8} (h : ∀ b ∈ field, p b = true) (hc : p c = false) :
    (field ++ c :: rest).span p = (field, c :: rest) := by
  rw [List.span_eq_takeWhile_dropWhile, takeWhile_stop h hc, dropWhile_stop h hc]

theorem Plain.field {f : Name} (h : Plain f) : ∀ b ∈ f, decide (b ≠ bar ∧ b ≠ newline) = true :=
  fun b hb => by simpa using (h b hb).2

theorem Plain.noBar {f : Name} (h : Plain f) : ∀ b ∈ f, decide (b ≠ bar) = true :=
  fun b hb => by simpa using (h b hb).2.1

theorem Plain.noLine {f : Name} (h : Plain f) : ∀ b ∈ f, decide (b ≠ newline) = true :=
  fun b hb => by simpa using (h b hb).2.2

theorem Record.Clean.lockField {r : Record} (h : r.Clean) : ∀ b ∈ r.lock, decide (b ≠ newline) = true :=
  fun b hb => by simpa using (h.lock b hb).2

theorem line_append (r : Record) (rest : Name) :
    r.line ++ rest = r.path ++ bar :: (r.user ++ bar :: (r.rights ++ bar :: (r.lock ++ newline :: rest))) := by
  simp [Record.line]

theorem length_line (r : Record) : r.line.length = r.depth + r.user.length + r.rights.length + r.lock.length + 4 := by
  simp only [Record.line, Record.depth, List.length_append, List.length_singleton]
  omega

theorem length_le_text (rs : List Record) : rs.length ≤ (text rs).length := by
  induction rs with
  | nil => simp
  | cons r rs ih =>
    simp [length_line]
    omega

theorem cstr_text {rs : List Record} (h : ∀ r ∈ rs, r.Clean) : cstr (text rs) = text rs := by
  rw [cstr, List.takeWhile_eq_self_iff]
  intro c hc
  simp only [text, List.mem_flatMap] at hc
  obtain ⟨r, hr, hc⟩ := hc
  have hr := h r hr
  have hnz : c ≠ 0 := by
    simp only [Record.line, List.mem_append, List.mem_singleton] at hc
    rcases hc with ((((((hc | rfl) | hc) | rfl) | hc) | rfl) | hc) | rfl
    · exact (hr.path c hc).1
    · decide
    · exact (hr.user c hc).1
    · decide
    · exact (hr.rights c hc).1
    · decide
    · exact (hr.lock c hc).1
    · decide
  simpa using hnz

/-! ## Decisions -/

/-- The record speaks about this user and path. -/
def covers (user : Name) (ps : List Name) (r : Record) : Bool := r.user == user && r.parts.isPrefixOf ps

/-- The policy that a list of records states. -/
def verdict (rs : List Record) (user : Name) (ps : List Name) (mode : UInt8) : Bool :=
  match nearest Record.depth (covers user ps) rs with
  | some r => r.rights.contains mode
  | none => defaultRight user (render ps) mode

theorem covers_eq {user : Name} {ps : List Name} {r : Record} (hr : Normal r.parts) (hps : Normal ps) :
    covers user ps r = (beneath (render ps) r.path && r.user == user) := by
  have : beneath (render ps) r.path = r.parts.isPrefixOf ps := by
    rw [Bool.eq_iff_iff, Record.path, beneath_render hps.1 hr.1, List.isPrefixOf_iff_prefix]
  rw [covers, this, Bool.and_comm]

/-- The scan's accumulator when `best` is the nearest record so far. -/
def accumulated (default : Bool) (mode : UInt8) : Option Record → Bool × Int
  | none => (default, -1)
  | some r => (r.rights.contains mode, r.depth)

theorem scanRights_line {user path : Name} {mode : UInt8} {r : Record} (hr : r.Clean) (rounds : Nat) (rest : Name)
    (allowed : Bool) (specificity : Int) :
    scanRights user path mode (rounds + 1) (r.line ++ rest) allowed specificity =
      if beneath path r.path && r.user == user && specificity ≤ r.depth then
        scanRights user path mode rounds rest (r.rights.contains mode) r.depth
      else scanRights user path mode rounds rest allowed specificity := by
  have hne : r.line ++ rest ≠ [] := by simp [Record.line]
  have hlock : (r.lock ++ newline :: rest).dropWhile (fun c => decide (c ≠ newline)) = newline :: rest :=
    dropWhile_stop hr.lockField (by decide)
  rw [scanRights, if_neg hne, line_append, span_stop hr.path.field (by decide)]
  dsimp only
  rw [if_neg (by simp), span_stop hr.user.noBar (by decide)]
  dsimp only
  rw [span_stop hr.rights.field (by decide)]
  dsimp only
  rw [if_pos rfl, hlock, List.drop_one, List.tail_cons, Record.depth]
  split <;> rfl

theorem accumulated_closer {user : Name} {ps : List Name} {r : Record} (hr : Normal r.parts) (hps : Normal ps)
    (default : Bool) (mode : UInt8) (best : Option Record) :
    accumulated default mode (closerOf Record.depth (covers user ps) best r) =
      if beneath (render ps) r.path && r.user == user && (accumulated default mode best).2 ≤ r.depth then
        (r.rights.contains mode, (r.depth : Int))
      else accumulated default mode best := by
  rw [closerOf, covers_eq hr hps]
  cases hc : beneath (render ps) r.path && r.user == user with
  | false => simp
  | true =>
    cases best with
    | none => simp [accumulated]
    | some b => by_cases hd : b.depth ≤ r.depth <;> simp [accumulated, hd]

theorem scanRights_text {user : Name} {ps : List Name} {mode : UInt8} (hps : Normal ps) (default : Bool) {rs : List Record}
    (h : ∀ r ∈ rs, r.Clean) {rounds : Nat} (hn : rs.length ≤ rounds) (best : Option Record) :
    scanRights user (render ps) mode rounds (text rs) (accumulated default mode best).1 (accumulated default mode best).2 =
      (accumulated default mode (rs.foldl (closerOf Record.depth (covers user ps)) best)).1 := by
  induction rs generalizing rounds best with
  | nil => cases rounds <;> simp [scanRights]
  | cons r rs ih =>
    obtain ⟨rounds, rfl⟩ : ∃ k, rounds = k + 1 := ⟨rounds - 1, by simp at hn; omega⟩
    have hr := h r (by simp)
    rw [text_cons, scanRights_line hr, List.foldl_cons,
      ← ih (fun q hq => h q (by simp [hq])) (by simpa using hn), accumulated_closer hr.normal hps]
    split <;> rfl

theorem textAllows_text {user : Name} {ps : List Name} (mode : UInt8) (hps : Normal ps) {rs : List Record}
    (h : ∀ r ∈ rs, r.Clean) : textAllows user (render ps) mode (text rs) = verdict rs user ps mode := by
  have := @scanRights_text user ps mode hps (defaultRight user (render ps) mode) rs h _ (length_le_text rs) none
  rw [textAllows]
  refine this.trans ?_
  rw [verdict, nearest]
  cases rs.foldl (closerOf Record.depth (covers user ps)) none <;> rfl

/-! ## Locks -/

/-- The record has a lock for this path. A lock on `/` guards only `/` itself. -/
def guards (ps : List Name) (r : Record) : Bool :=
  r.parts.isPrefixOf ps && (r.parts ≠ [] || ps = []) && r.lock ≠ []

/-- The lock that a list of records puts on a path. -/
def lockFor (rs : List Record) (ps : List Name) : Name :=
  match nearest Record.depth (guards ps) rs with
  | some r => r.lock
  | none => []

theorem guards_eq {ps : List Name} {r : Record} (hr : Normal r.parts) (hps : Normal ps) :
    guards ps r = (r.path.isPrefixOf (render ps) &&
      (((render ps).drop r.path.length).head? == none || ((render ps).drop r.path.length).head? == some slash) &&
      r.lock ≠ []) := by
  rw [guards]
  congr 1
  by_cases h : r.parts = []
  · cases ps with
    | nil => simp [Record.path, h, slash]
    | cons c ps =>
      obtain ⟨hne, -, hs, -⟩ := validName_iff.1 (hps.1 c (by simp))
      obtain ⟨b, c, rfl⟩ := List.exists_cons_of_ne_nil hne
      have hb : b ≠ slash := by rintro rfl; simp at hs
      simp [Record.path, h, render_of_ne_nil, hb]
  · have hpath : (r.path == [slash]) = false := by
      simpa [Record.path] using fun e => h (render_inj hr.1 (by simp) e)
    have : covers r.user ps r = _ := covers_eq hr hps
    simp only [covers, beneath, hpath, beq_self_eq_true, Bool.true_and, Bool.false_or, Bool.and_true] at this
    simp [h, this]

theorem scanLock_line {ps : List Name} {r : Record} (hr : r.Clean) (hps : Normal ps) (rounds : Nat) (rest lock : Name)
    (depth : Int) :
    scanLock (render ps) (rounds + 1) (r.line ++ rest) lock depth =
      if guards ps r = true ∧ depth ≤ r.depth then scanLock (render ps) rounds rest r.lock r.depth
      else scanLock (render ps) rounds rest lock depth := by
  have hne : r.line ++ rest ≠ [] := by simp [Record.line]
  have hskip : skipField (skipField (bar :: (r.user ++ bar :: (r.rights ++ bar :: (r.lock ++ newline :: rest))))) =
      bar :: (r.lock ++ newline :: rest) := by
    have hfirst : (r.user ++ bar :: (r.rights ++ bar :: (r.lock ++ newline :: rest))).dropWhile
        (fun c => decide (c ≠ bar ∧ c ≠ newline)) = _ := dropWhile_stop hr.user.field (by decide)
    simp only [skipField, List.drop_one, List.tail_cons, hfirst]
    exact dropWhile_stop hr.rights.field (by decide)
  have hlock : (bar :: (r.lock ++ newline :: rest)).dropWhile (fun c => decide (c ≠ newline)) = newline :: rest := by
    rw [List.dropWhile_cons_of_pos (by decide)]
    exact dropWhile_stop hr.lockField (by decide)
  have hsecret : (r.lock ++ newline :: rest).takeWhile (fun c => decide (c ≠ newline)) = r.lock :=
    takeWhile_stop hr.lockField (by decide)
  rw [scanLock, if_neg hne, line_append, takeWhile_stop hr.path.noBar (by decide), dropWhile_stop hr.path.noBar (by decide)]
  dsimp only
  rw [hskip, hlock, List.head?_cons, if_pos rfl, List.drop_one, List.tail_cons, hsecret, List.drop_one, List.tail_cons,
    if_neg (Nat.not_le.2 hr.short), guards_eq hr.normal hps]
  simp only [Bool.and_eq_true, decide_eq_true_eq, and_assoc]
  rfl

/-- The scan's accumulator when `best` is the nearest lock so far. -/
def lockSoFar : Option Record → Name × Int
  | none => ([], -1)
  | some r => (r.lock, r.depth)

theorem scanLock_text {ps : List Name} (hps : Normal ps) {rs : List Record} (h : ∀ r ∈ rs, r.Clean) {rounds : Nat}
    (hn : rs.length ≤ rounds) (best : Option Record) :
    scanLock (render ps) rounds (text rs) (lockSoFar best).1 (lockSoFar best).2 =
      some (lockSoFar (rs.foldl (closerOf Record.depth (guards ps)) best)).1 := by
  induction rs generalizing rounds best with
  | nil => cases rounds <;> simp [scanLock]
  | cons r rs ih =>
    obtain ⟨rounds, rfl⟩ : ∃ k, rounds = k + 1 := ⟨rounds - 1, by simp at hn; omega⟩
    have hr := h r (by simp)
    rw [text_cons, scanLock_line hr hps, List.foldl_cons, ← ih (fun q hq => h q (by simp [hq])) (by simpa using hn)]
    have hstep : lockSoFar (closerOf Record.depth (guards ps) best r) =
        if guards ps r = true ∧ (lockSoFar best).2 ≤ r.depth then (r.lock, (r.depth : Int)) else lockSoFar best := by
      rw [closerOf]
      cases guards ps r with
      | false => simp
      | true =>
        cases best with
        | none => simp [lockSoFar]
        | some b => by_cases hd : b.depth ≤ r.depth <;> simp [lockSoFar, hd]
    rw [hstep]
    split <;> rfl

theorem lockOf_text {ps : List Name} (hps : Normal ps) {rs : List Record} (h : ∀ r ∈ rs, r.Clean) :
    lockOf (render ps) (text rs) = some (lockFor rs ps) := by
  rw [lockOf]
  refine (scanLock_text hps h (length_le_text rs) none).trans ?_
  rw [lockFor, nearest]
  cases rs.foldl (closerOf Record.depth (guards ps)) none <;> rfl

/-! ## Replacing a record -/

theorem isPrefixOf_field {sep : UInt8} {a b x y : Name} (ha : sep ∉ a) (hb : sep ∉ b) :
    (a ++ sep :: x).isPrefixOf (b ++ sep :: y) = true ↔ a = b ∧ x.isPrefixOf y = true := by
  induction a generalizing b with
  | nil =>
    cases b with
    | nil => simp
    | cons d b =>
      have : sep ≠ d := by rintro rfl; simp at hb
      simp [this]
  | cons c a ih =>
    simp only [List.mem_cons, not_or] at ha
    cases b with
    | nil => simp [Ne.symm ha.1]
    | cons d b =>
      simp only [List.mem_cons, not_or] at hb
      simp only [List.cons_append, List.isPrefixOf_cons_cons, Bool.and_eq_true, beq_iff_eq, ih ha.2 hb.2, List.cons.injEq]
      exact and_assoc.symm

theorem Plain.bar_notMem {f : Name} (h : Plain f) : bar ∉ f := fun hb => (h bar hb).2.1 rfl

/-- The record of this user for this path. -/
def isFor (ps : List Name) (user : Name) (r : Record) : Bool := r.parts == ps && r.user == user

theorem keepLines_text {ps : List Name} {user : Name} (hps : Normal ps) (hp : Plain (render ps)) (hu : Plain user)
    {rs : List Record} (h : ∀ r ∈ rs, r.Clean) {rounds : Nat} (hn : rs.length ≤ rounds) :
    keepLines (render ps ++ [bar] ++ user ++ [bar]) rounds (text rs) = text (rs.filter fun r => !isFor ps user r) := by
  induction rs generalizing rounds with
  | nil => cases rounds <;> simp [keepLines]
  | cons r rs ih =>
    obtain ⟨rounds, rfl⟩ : ∃ k, rounds = k + 1 := ⟨rounds - 1, by simp at hn; omega⟩
    have hr := h r (by simp)
    have hne : text (r :: rs) ≠ [] := by simp [Record.line]
    have hbody : ∀ b ∈ r.path ++ bar :: (r.user ++ bar :: (r.rights ++ bar :: r.lock)), decide (b ≠ newline) = true := by
      intro b hb
      simp only [List.mem_append, List.mem_cons] at hb
      rcases hb with hb | rfl | hb | rfl | hb | rfl | hb
      · exact hr.path.noLine b hb
      · decide
      · exact hr.user.noLine b hb
      · decide
      · exact hr.rights.noLine b hb
      · decide
      · exact hr.lockField b hb
    have hline : text (r :: rs) =
        (r.path ++ bar :: (r.user ++ bar :: (r.rights ++ bar :: r.lock))) ++ newline :: text rs := by
      simp [Record.line]
    have hmark : (render ps ++ [bar] ++ user ++ [bar]).isPrefixOf (text (r :: rs)) = isFor ps user r := by
      rw [Bool.eq_iff_iff, text_cons, line_append,
        show render ps ++ [bar] ++ user ++ [bar] = render ps ++ bar :: (user ++ bar :: []) by simp,
        isPrefixOf_field hp.bar_notMem hr.path.bar_notMem, isPrefixOf_field hu.bar_notMem hr.user.bar_notMem]
      simp only [isFor, Bool.and_eq_true, beq_iff_eq, List.isPrefixOf_nil_left, and_true]
      refine and_congr ⟨fun e => (render_inj hps.1 hr.normal.1 e).symm, fun e => ?_⟩ eq_comm
      rw [Record.path, e]
    rw [keepLines, if_neg hne, hmark, hline, takeWhile_stop hbody (by decide), dropWhile_stop hbody (by decide),
      List.drop_one, List.tail_cons, ih (fun q hq => h q (by simp [hq])) (by simpa using hn)]
    cases hfor : isFor ps user r with
    | true => simp [hfor]
    | false => simp [hfor, Record.line]

end Barnix.Acl
