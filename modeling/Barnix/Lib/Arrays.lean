import Mathlib.Data.List.Induction
/-!
# Arrays of characters

C code over arrays of bytes whose every access is checked: an index past the end of
an array stops the code. What an array holds is said by splitting its list of bytes at
the index, so that an access is answered by the list's shape alone.
-/

namespace Barnix

/-- How C code ends other than by running through: by giving up, by an access outside
of an array, or by a loop that takes more rounds than it was given. -/
inductive Stop where
  | failed
  | overrun
  | unfinished
deriving DecidableEq

abbrev Checked := Except Stop

theorem ok_bind {α β : Type} (a : α) (f : α → Checked β) : (Except.ok a >>= f) = f a := rfl

theorem bind_eq_ok {α β : Type} {x : Checked α} {f : α → Checked β} {r : β} (h : x >>= f = .ok r) : ∃ a, x = .ok a ∧ f a = .ok r := by
  cases x with
  | error e => cases h
  | ok a => exact ⟨a, rfl, h⟩

/-- The bytes of an array. -/
abbrev Cells := List UInt8

namespace Cells

def peek (a : Cells) (i : Nat) : Checked UInt8 :=
  match a[i]? with
  | some c => .ok c
  | none => .error .overrun

def poke (a : Cells) (i : Nat) (c : UInt8) : Checked Cells :=
  if i < a.length then .ok (a.set i c) else .error .overrun

/-- The bytes one after the other, from index `i` on. -/
def pokes (a : Cells) (i : Nat) : List UInt8 → Checked Cells
  | [] => .ok a
  | c :: bytes => do
    let a ← a.poke i c
    pokes a (i + 1) bytes

/-- `strcpy` to index `i`. -/
def strcpy (a : Cells) (i : Nat) (s : List UInt8) : Checked Cells := a.pokes i (s ++ [0])

/-- `while (f(a[i])) i++`, for at most `n` rounds. -/
def scan (a : Cells) (f : UInt8 → Bool) : Nat → Nat → Checked Nat
  | 0, _ => .error .unfinished
  | n + 1, i => do
    let c ← a.peek i
    if f c then scan a f n (i + 1) else .ok i

/-- `strcmp` of what stands at index `i`, with a string and its NUL: whether they differ. -/
def differs (a : Cells) (i : Nat) : List UInt8 → Checked Bool
  | [] => .ok false
  | d :: s => do
    let c ← a.peek i
    if c = d then differs a (i + 1) s else .ok true

def strcmp (a : Cells) (s : List UInt8) : Checked Bool := a.differs 0 (s ++ [0])

/-- `strlen` -/
def strlen (a : Cells) : Checked Nat := a.scan (· ≠ 0) (a.length + 1) 0

/-- `memcpy` of `n` bytes of `src`, from `j` on, to index `i`. -/
def memcpy (a : Cells) (i : Nat) (src : Cells) (j : Nat) : Nat → Checked Cells
  | 0 => .ok a
  | n + 1 => do
    let c ← src.peek j
    let a ← a.poke i c
    memcpy a (i + 1) src (j + 1) n

/-- `s` stands at the start of the array, with its NUL. -/
def Holds (a : Cells) (s : List UInt8) : Prop := 0 ∉ s ∧ ∃ rest, a = s ++ 0 :: rest

/-! ## Single accesses -/

theorem peek_append (before : Cells) (c : UInt8) (rest : Cells) : (before ++ c :: rest).peek before.length = .ok c := by
  simp [peek]

theorem peek_zero (c : UInt8) (rest : Cells) : peek (c :: rest) 0 = .ok c := rfl

theorem poke_append (before : Cells) (c d : UInt8) (rest : Cells) :
    (before ++ c :: rest).poke before.length d = .ok (before ++ d :: rest) := by
  simp [poke]

/-- Writing over as many bytes as there are. -/
theorem pokes_append (before : Cells) {old bytes : List UInt8} (h : old.length = bytes.length) (rest : Cells) :
    (before ++ old ++ rest).pokes before.length bytes = .ok (before ++ bytes ++ rest) := by
  induction bytes generalizing before old with
  | nil =>
    obtain rfl := List.length_eq_zero_iff.1 h
    rfl
  | cons c bytes ih =>
    obtain ⟨d, old, rfl⟩ := List.exists_cons_of_length_eq_add_one h
    have hstep := ih (before ++ [c]) (show old.length = bytes.length by simpa using h)
    rw [pokes, show before ++ d :: old ++ rest = before ++ d :: (old ++ rest) by simp, poke_append, ok_bind]
    simpa using hstep

/-- An array with room for `n` more bytes has `n` bytes to overwrite. -/
theorem exists_room {a before rest : Cells} (ha : a = before ++ rest) {n : Nat} (h : before.length + n ≤ a.length) :
    ∃ old rest', old.length = n ∧ a = before ++ old ++ rest' := by
  subst ha
  refine ⟨rest.take n, rest.drop n, ?_, ?_⟩
  · rw [List.length_append] at h
    rw [List.length_take]
    omega
  · rw [List.append_assoc, List.take_append_drop]

theorem pokes_fits {a : Cells} {i : Nat} {bytes : List UInt8} (h : i + bytes.length ≤ a.length) :
    ∃ a', a.pokes i bytes = .ok a' ∧ a'.length = a.length := by
  obtain ⟨old, rest, hold, ha⟩ := exists_room (List.take_append_drop i a).symm (n := bytes.length)
    (by rw [List.length_take]; omega)
  have hi : (a.take i).length = i := by
    rw [List.length_take]
    omega
  have hpokes := pokes_append (a.take i) hold rest
  rw [← ha, hi] at hpokes
  have hlen := congrArg List.length ha
  refine ⟨_, hpokes, ?_⟩
  simp only [List.length_append] at hlen ⊢
  omega

theorem pokes_overruns {a : Cells} {i : Nat} {bytes : List UInt8} (hne : bytes ≠ []) (h : a.length < i + bytes.length) :
    a.pokes i bytes = .error .overrun := by
  induction bytes generalizing a i with
  | nil => exact absurd rfl hne
  | cons c bytes ih =>
    rw [List.length_cons] at h
    rw [pokes, poke]
    split
    · rename_i hi
      cases bytes with
      | nil =>
        rw [List.length_nil] at h
        omega
      | cons d bytes => exact ih (List.cons_ne_nil _ _) (by rw [List.length_set]; omega)
    · rfl

theorem pokes_start {a a' : Cells} {bytes : List UInt8} (h : a.pokes 0 bytes = .ok a') :
    a'.length = a.length ∧ ∃ rest, a' = bytes ++ rest := by
  by_cases hfits : bytes.length ≤ a.length
  · have hlen : (a.take bytes.length).length = bytes.length := List.length_take_of_le hfits
    have hwrite := pokes_append [] hlen (a.drop bytes.length)
    rw [List.nil_append, List.take_append_drop, List.nil_append] at hwrite
    obtain rfl := Except.ok.inj (h.symm.trans hwrite)
    exact ⟨by rw [List.length_append, List.length_drop]; omega, _, rfl⟩
  · have hne : bytes ≠ [] := fun hnil => hfits (by rw [hnil]; exact Nat.zero_le _)
    rw [pokes_overruns hne (by omega)] at h
    cases h

theorem strcpy_start {a : Cells} {s : List UInt8} (h : s.length < a.length) :
    a.strcpy 0 s = .ok (s ++ 0 :: a.drop (s.length + 1)) := by
  have hlen : (a.take (s.length + 1)).length = (s ++ [0]).length := by
    rw [List.length_take_of_le h, List.length_append, List.length_singleton]
  have hwrite := pokes_append [] hlen (a.drop (s.length + 1))
  rw [List.nil_append, List.take_append_drop, List.nil_append, List.append_assoc] at hwrite
  exact hwrite

theorem strcpy_append {a before rest : Cells} (ha : a = before ++ rest) {s : List UInt8}
    (h : before.length + s.length < a.length) :
    ∃ rest', a.strcpy before.length s = .ok (before ++ s ++ 0 :: rest') ∧ (before ++ s ++ 0 :: rest').length = a.length := by
  obtain ⟨old, rest', hover, rfl⟩ := exists_room ha (n := s.length + 1) (by omega)
  have hlen : old.length = (s ++ [0]).length := by simp [hover]
  refine ⟨rest', ?_, ?_⟩
  · rw [strcpy, pokes_append before hlen]
    simp
  · simp [hover]
    omega

/-! ## Reading a longer array -/

/-- What a computation finds in an array, it finds in every longer one. -/
def Stable {α : Type} (x : Cells → Checked α) : Prop := ∀ a rest r, x a = .ok r → x (a ++ rest) = .ok r

namespace Stable

variable {α β : Type}

theorem ok (r : α) : Stable fun _ => .ok r := fun _ _ _ h => h

theorem error (e : Stop) : Stable fun _ => (.error e : Checked α) := fun _ _ _ h => nomatch h

theorem peek (i : Nat) : Stable fun a => a.peek i := by
  intro a rest c h
  dsimp only [Cells.peek] at h ⊢
  split at h
  · rename_i d hd
    rw [List.getElem?_append_left (List.getElem?_eq_some_iff.1 hd).1, hd]
    exact h
  · cases h

theorem bind {x : Cells → Checked α} {f : α → Cells → Checked β} (hx : Stable x) (hf : ∀ r, Stable (f r)) :
    Stable fun a => x a >>= fun r => f r a := by
  intro a rest s h
  dsimp only at h ⊢
  cases hr : x a with
  | error e =>
    rw [hr] at h
    cases h
  | ok r =>
    rw [hr] at h
    rw [hx a rest r hr]
    exact hf r a rest s h

theorem ite {c : Prop} [Decidable c] {x y : Cells → Checked α} (hx : Stable x) (hy : Stable y) :
    Stable fun a => if c then x a else y a := by
  by_cases h : c
  · simp only [h, if_true]
    exact hx
  · simp only [h, if_false]
    exact hy

end Stable

/-! ## Scans -/

theorem scan_append {f : UInt8 → Bool} (before : Cells) {run : List UInt8} (hrun : ∀ c ∈ run, f c = true) {d : UInt8}
    (hd : f d = false) (rest : Cells) {n : Nat} (hn : run.length < n) :
    (before ++ run ++ d :: rest).scan f n before.length = .ok (before.length + run.length) := by
  induction run generalizing before n with
  | nil =>
    obtain ⟨n, rfl⟩ := Nat.exists_eq_add_one.2 hn
    rw [List.append_nil, scan, peek_append, ok_bind, hd]
    rfl
  | cons c run ih =>
    obtain ⟨n, rfl⟩ := Nat.exists_eq_add_one.2 (Nat.lt_of_le_of_lt (Nat.zero_le _) hn)
    have hstep := ih (before ++ [c]) (fun e he => hrun e (by simp [he])) (n := n) (by simpa using hn)
    have hc : f c = true := hrun c (by simp)
    rw [scan, show before ++ c :: run ++ d :: rest = before ++ c :: (run ++ d :: rest) by simp, peek_append,
      ok_bind, hc, if_pos rfl]
    have hshape : before ++ c :: (run ++ d :: rest) = before ++ [c] ++ run ++ d :: rest := by simp
    rw [hshape, show before.length + 1 = (before ++ [c]).length by simp, hstep]
    congr 1
    simp only [List.length_append, List.length_cons, List.length_nil]
    omega

theorem strlen_holds {a : Cells} {s : List UInt8} (h : a.Holds s) : a.strlen = .ok s.length := by
  obtain ⟨hs, rest, rfl⟩ := h
  have hrun : ∀ c ∈ s, decide (c ≠ 0) = true := by
    intro c hc
    exact decide_eq_true fun h => hs (h ▸ hc)
  have hscan := scan_append [] hrun (d := 0) rfl rest (n := (s ++ 0 :: rest).length + 1)
    (by rw [List.length_append]; omega)
  simpa [strlen] using hscan

/-! ## Comparisons -/

theorem differs_append (before : Cells) {s t : List UInt8} (hs : 0 ∉ s) (ht : 0 ∉ t) (rest : Cells) :
    (before ++ s ++ 0 :: rest).differs before.length (t ++ [0]) = .ok (decide (s ≠ t)) := by
  induction t generalizing before s with
  | nil =>
    cases s with
    | nil =>
      rw [List.append_nil, List.nil_append, differs, peek_append, ok_bind, if_pos rfl]
      rfl
    | cons c s =>
      have hc : c ≠ 0 := fun h => hs (by simp [h])
      rw [show before ++ c :: s ++ 0 :: rest = before ++ c :: (s ++ 0 :: rest) by simp, List.nil_append, differs,
        peek_append, ok_bind, if_neg hc]
      rfl
  | cons d t ih =>
    have hd : d ≠ 0 := fun h => ht (by simp [h])
    have ht' : 0 ∉ t := fun h => ht (by simp [h])
    rw [List.cons_append, differs]
    cases s with
    | nil =>
      rw [List.append_nil, peek_append, ok_bind, if_neg (Ne.symm hd)]
      rfl
    | cons c s =>
      rw [show before ++ c :: s ++ 0 :: rest = before ++ c :: (s ++ 0 :: rest) by simp, peek_append, ok_bind]
      by_cases hcd : c = d
      · have hstep := ih (before ++ [c]) (s := s) (fun h => hs (by simp [h])) ht'
        rw [if_pos hcd]
        simpa [hcd] using hstep
      · rw [if_neg hcd]
        simp [hcd]

theorem strcmp_holds {a : Cells} {s t : List UInt8} (h : a.Holds s) (ht : 0 ∉ t) :
    a.strcmp t = .ok (decide (s ≠ t)) := by
  obtain ⟨hs, rest, rfl⟩ := h
  exact differs_append [] hs ht rest

/-! ## Copies -/

theorem memcpy_append (before : Cells) {old : List UInt8} (rest srcBefore bytes srcRest : Cells)
    (h : old.length = bytes.length) :
    (before ++ old ++ rest).memcpy before.length (srcBefore ++ bytes ++ srcRest) srcBefore.length bytes.length =
      .ok (before ++ bytes ++ rest) := by
  induction bytes generalizing before old srcBefore with
  | nil =>
    obtain rfl := List.length_eq_zero_iff.1 h
    rfl
  | cons c bytes ih =>
    obtain ⟨d, old, rfl⟩ := List.exists_cons_of_length_eq_add_one h
    have hstep := ih (before ++ [c]) (srcBefore ++ [c]) (show old.length = bytes.length by simpa using h)
    rw [List.length_cons, memcpy, show srcBefore ++ c :: bytes ++ srcRest = srcBefore ++ c :: (bytes ++ srcRest) by simp,
      peek_append, ok_bind, show before ++ d :: old ++ rest = before ++ d :: (old ++ rest) by simp, poke_append, ok_bind]
    simpa using hstep

/-- What a copy that stays in both arrays leaves at every index. -/
theorem memcpy_getElem? {src : Cells} {n : Nat} : ∀ {a : Cells} {i j : Nat}, i + n ≤ a.length → j + n ≤ src.length →
    ∃ a', a.memcpy i src j n = .ok a' ∧ a'.length = a.length ∧
      ∀ k, a'[k]? = if i ≤ k ∧ k < i + n then src[j + (k - i)]? else a[k]? := by
  induction n with
  | zero =>
    intro a i j _ _
    refine ⟨a, rfl, rfl, fun k => ?_⟩
    rw [if_neg (by omega)]
  | succ n ih =>
    intro a i j ha hsrc
    have hi : i < a.length := by omega
    have hj : j < src.length := by omega
    obtain ⟨a', hcopy, hlen, hget⟩ := @ih (a.set i src[j]) (i + 1) (j + 1) (by rw [List.length_set]; omega) (by omega)
    refine ⟨a', ?_, by rw [hlen, List.length_set], fun k => ?_⟩
    · rw [memcpy, peek, List.getElem?_eq_getElem hj, ok_bind, poke, if_pos hi, ok_bind, hcopy]
    · rw [hget, List.getElem?_set]
      by_cases hfirst : k = i
      · subst hfirst
        rw [if_neg (by omega), if_pos rfl, if_pos hi, if_pos (by omega), Nat.sub_self, Nat.add_zero, List.getElem?_eq_getElem hj]
      · rw [if_neg (Ne.symm hfirst)]
        by_cases hk : i + 1 ≤ k ∧ k < i + 1 + n
        · rw [if_pos hk, if_pos (by omega), show j + 1 + (k - (i + 1)) = j + (k - i) by omega]
        · rw [if_neg hk, if_neg (by omega)]

/-- A copy that leaves room for at least one byte behind it. -/
theorem memcpy_room {a before tail : Cells} (ha : a = before ++ tail) (srcBefore bytes srcRest : Cells)
    (h : before.length + bytes.length < a.length) :
    ∃ c rest, a.memcpy before.length (srcBefore ++ bytes ++ srcRest) srcBefore.length bytes.length =
      .ok (before ++ bytes ++ c :: rest) ∧ (before ++ bytes ++ c :: rest).length = a.length := by
  obtain ⟨old, rest, hover, rfl⟩ := exists_room ha (n := bytes.length + 1) (by omega)
  obtain ⟨old, c, rfl⟩ : ∃ old' c, old = old' ++ [c] := by
    rcases List.eq_nil_or_concat old with rfl | ⟨old', c, rfl⟩
    · simp at hover
    · exact ⟨old', c, List.concat_eq_append⟩
  have hover' : old.length = bytes.length := by simpa using hover
  refine ⟨c, rest, ?_, ?_⟩
  · rw [show before ++ (old ++ [c]) ++ rest = before ++ old ++ c :: rest by simp]
    exact memcpy_append before (c :: rest) srcBefore bytes srcRest hover'
  · simp [hover']

end Cells

end Barnix
