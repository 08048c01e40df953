import Barnix.Lib.Arrays
import Barnix.Text.Boundaries
/-!
# The text editor

`macro.c`: bytes of a document and a position in it, moved and edited key by key. What it is to be is a
list of characters with a cursor between two of them. `document` is its first `length` bytes.
-/

namespace Barnix.Macro

/-- `EDITOR_BYTES`, and the size of `scratch` -/
def editorBytes : Nat := 32768
def scratchBytes : Nat := 128

/-- `keyboard.h` -/
def keyUp : Nat := 0x100
def keyDown : Nat := 0x101
def keyLeft : Nat := 0x102
def keyRight : Nat := 0x103
def keyHome : Nat := 0x104
def keyEnd : Nat := 0x105
def keyDelete : Nat := 0x106
def keyEscape : Nat := 0x107
def keyMouse : Nat := 0x108

/-! ## Positions -/

def nextChar (document : List UInt8) (p : Nat) : Nat :=
  if p ≥ document.length then document.length
  else p + 1 + ((document.drop (p + 1)).takeWhile continuation).length

/-- `do p--; while (p && continuation(document[p]))` -/
def previousChar (document : List UInt8) : Nat → Nat
  | 0 => 0
  | p + 1 => if p ≠ 0 ∧ continuation (document.getD p 0) = true then previousChar document p else p

def lineStart (document : List UInt8) : Nat → Nat
  | 0 => 0
  | p + 1 => if document.getD p 0 ≠ 10 then lineStart document p else p + 1

def lineEnd (document : List UInt8) (p : Nat) : Nat := p + ((document.drop p).takeWhile (· ≠ 10)).length

def lineNumber (document : List UInt8) (p : Nat) : Nat := (document.take p).count 10

/-- `start_of_line_number`, of what is left of the document at `p`. -/
def startLoop : List UInt8 → Nat → Nat → Nat
  | _, 0, p => p
  | [], _, p => p
  | c :: rest, number + 1, p => startLoop rest (if c = 10 then number else number + 1) (p + 1)

def startOfLineNumber (document : List UInt8) (number : Nat) : Nat := startLoop document number 0

/-- `for (; begin < p; n++) begin = next_char(begin);` -/
def columnLoop (document : List UInt8) (p : Nat) : Nat → Nat → Checked Nat
  | 0, _ => .error .unfinished
  | rounds + 1, begin_ =>
    if begin_ < p then do
      let n ← columnLoop document p rounds (nextChar document begin_)
      .ok (n + 1)
    else .ok 0

def column (document : List UInt8) (p : Nat) : Checked Nat := columnLoop document p (document.length + 1) (lineStart document p)

def positionAtColumn (document : List UInt8) : Nat → Nat → Nat
  | 0, p => p
  | wanted + 1, p =>
    if p < document.length ∧ document.getD p 0 ≠ 10 then positionAtColumn document wanted (nextChar document p) else p

/-- `for (i = position; i + n <= length; i++)` of `find_text`, on what is left of the document at `i`. -/
def search (needle : List UInt8) : List UInt8 → Nat → Option Nat
  | text, i =>
    if text.length < needle.length then none
    else if needle.isPrefixOf text then some i
    else
      match text with
      | [] => none
      | _ :: text => search needle text (i + 1)

/-! ## The editor -/

/-- Where `main` waits for a key: in its loop, or in that of `find_text` with `scratch`; or it has
returned. -/
inductive Mode where
  | editing
  | finding (scratch : List UInt8)
  | quit

structure Editor where
  document : List UInt8
  position : Nat
  mode : Mode

def insertBytes (at_ : Nat) (data : List UInt8) (s : Editor) : Editor :=
  if data.length > editorBytes - s.document.length then s
  else { s with document := s.document.take at_ ++ data ++ s.document.drop at_, position := at_ + data.length }

def removeBytes (at_ count : Nat) (s : Editor) : Editor :=
  let count := if count > s.document.length - at_ then s.document.length - at_ else count
  { s with document := s.document.take at_ ++ s.document.drop (at_ + count), position := at_ }

/-- A key of `find_text` -/
def findText (scratch : List UInt8) (key : Nat) (s : Editor) : Editor :=
  if key = 10 then
    if scratch = [] then { s with mode := .editing }
    else { s with mode := .editing, position := (search scratch (s.document.drop s.position) s.position).getD s.position }
  else if key = keyEscape then { s with mode := .editing }
  else if key = 8 then { s with mode := .finding (scratch.take (previousChar scratch scratch.length)) }
  else if key ≥ 32 ∧ key ≠ 127 then
    if scratch.length + (utf8Encode key).length < scratchBytes then { s with mode := .finding (scratch ++ utf8Encode key) } else s
  else s

/-- `KEY_UP` and `KEY_DOWN` -/
def lineKey (key : Nat) (s : Editor) : Checked Editor := do
  let target := lineNumber s.document s.position
  let col ← column s.document s.position
  let target := if key = keyUp ∧ target ≠ 0 then target - 1 else if key = keyDown then target + 1 else target
  .ok { s with position := positionAtColumn s.document col (startOfLineNumber s.document target) }

/-- A key of `main` -/
def mainKey (key : Nat) (s : Editor) : Checked Editor :=
  if key = 19 then .ok s
  else if key = 17 then .ok { s with mode := .quit }
  else if key = 6 then .ok { s with mode := .finding [] }
  else if key = keyLeft then .ok { s with position := previousChar s.document s.position }
  else if key = keyRight then .ok { s with position := nextChar s.document s.position }
  else if key = keyHome then .ok { s with position := lineStart s.document s.position }
  else if key = keyEnd then .ok { s with position := lineEnd s.document s.position }
  else if key = keyUp ∨ key = keyDown then lineKey key s
  else if key = 8 then
    let s := { s with position := previousChar s.document s.position }
    .ok (removeBytes s.position (nextChar s.document s.position - s.position) s)
  else if key = keyDelete then .ok (removeBytes s.position (nextChar s.document s.position - s.position) s)
  else if key = 10 then .ok (insertBytes s.position [10] s)
  else if key ≥ 32 ∧ key ≠ 127 then .ok (insertBytes s.position (utf8Encode key) s)
  else .ok s

def press (s : Editor) (key : Nat) : Checked Editor :=
  match s.mode with
  | .editing => mainKey key s
  | .finding scratch => .ok (findText scratch key s)
  | .quit => .ok s

/-- The document of a file, and the keys. -/
def edit (file : List UInt8) (keys : List Nat) : Checked Editor := keys.foldlM press ⟨file, 0, .editing⟩

/-! ## Characters with a cursor -/

inductive SheetMode where
  | editing
  | finding (query : List Char)
  | quit

structure Sheet where
  text : List Char
  cursor : Nat
  mode : SheetMode

/-- The character of a key, `?` where the key is none. -/
def charOf (key : Nat) : Char := if key.isValidChar then Char.ofNat key else '?'

namespace Sheet

def line (text : List Char) : List Char := text.takeWhile (· ≠ '\n')

/-- The characters of the line before the cursor. -/
def column (s : Sheet) : Nat := (line (s.text.take s.cursor).reverse).length

/-- The lines before that of the cursor. -/
def row (s : Sheet) : Nat := (s.text.take s.cursor).count '\n'

/-- Where a line begins; the end of the text, if it has fewer lines. -/
def rowStart : Nat → List Char → Nat
  | 0, _ => 0
  | _, [] => 0
  | n + 1, c :: text => rowStart (if c = '\n' then n else n + 1) text + 1

/-- To the same column of another line, or to its end. -/
def toRow (n : Nat) (s : Sheet) : Sheet :=
  { s with cursor := rowStart n s.text + min s.column (line (s.text.drop (rowStart n s.text))).length }

/-- The characters before the first occurrence. -/
def firstMatch (query : List Char) : List Char → Option Nat
  | [] => if query = [] then some 0 else none
  | c :: text => if query.isPrefixOf (c :: text) then some 0 else (firstMatch query text).map (· + 1)

/-- A character before the cursor, if there is room. -/
def insert (c : Char) (s : Sheet) : Sheet :=
  if (utf8Text s.text).length + (utf8Encode c.toNat).length ≤ editorBytes then
    { s with text := s.text.take s.cursor ++ c :: s.text.drop s.cursor, cursor := s.cursor + 1 }
  else s

def backspace (s : Sheet) : Sheet :=
  if s.cursor = 0 then s else { s with text := s.text.eraseIdx (s.cursor - 1), cursor := s.cursor - 1 }

def delete (s : Sheet) : Sheet := { s with text := s.text.eraseIdx s.cursor }

def find (query : List Char) (s : Sheet) : Sheet :=
  match query, firstMatch query (s.text.drop s.cursor) with
  | _ :: _, some n => { s with cursor := s.cursor + n }
  | _, _ => s

def findKey (query : List Char) (key : Nat) (s : Sheet) : Sheet :=
  if key = 10 then { s.find query with mode := .editing }
  else if key = keyEscape then { s with mode := .editing }
  else if key = 8 then { s with mode := .finding query.dropLast }
  else if key ≥ 32 ∧ key ≠ 127 then
    if (utf8Text (query ++ [charOf key])).length < scratchBytes then { s with mode := .finding (query ++ [charOf key]) } else s
  else s

def mainKey (key : Nat) (s : Sheet) : Sheet :=
  if key = 17 then { s with mode := .quit }
  else if key = 6 then { s with mode := .finding [] }
  else if key = keyLeft then { s with cursor := s.cursor - 1 }
  else if key = keyRight then { s with cursor := min (s.cursor + 1) s.text.length }
  else if key = keyHome then { s with cursor := s.cursor - s.column }
  else if key = keyEnd then { s with cursor := s.cursor + (line (s.text.drop s.cursor)).length }
  else if key = keyUp then s.toRow (s.row - 1)
  else if key = keyDown then s.toRow (s.row + 1)
  else if key = 8 then s.backspace
  else if key = keyDelete then s.delete
  else if key = 10 then s.insert '\n'
  else if key ≥ 32 ∧ key ≠ 127 then s.insert (charOf key)
  else s

def press (s : Sheet) (key : Nat) : Sheet :=
  match s.mode with
  | .editing => s.mainKey key
  | .finding query => s.findKey query key
  | .quit => s

end Sheet

/-- What waits for a key in the editor and in the sheet. -/
def SameMode : Mode → SheetMode → Prop
  | .editing, .editing => True
  | .finding scratch, .finding query => scratch = utf8Text query
  | .quit, .quit => True
  | _, _ => False

/-- The document is the text in UTF-8, and the position is where the character at the cursor begins. -/
structure Shows (s : Editor) (z : Sheet) : Prop where
  document : s.document = utf8Text z.text
  bounded : s.document.length ≤ editorBytes
  cursor : z.cursor ≤ z.text.length
  position : s.position = (utf8Text (z.text.take z.cursor)).length
  mode : SameMode s.mode z.mode

/-- A key that `main` has a meaning for, and no backspace at the start of a text. -/
def Plain (s : Editor) (key : Nat) : Prop :=
  match s.mode with
  | .editing => key ≠ keyEscape ∧ key ≠ keyMouse ∧ (key = 8 → s.position = 0 → s.document = [])
  | _ => True

/-- Every key is plain where it is pressed. -/
def AllPlain : Editor → List Nat → Prop
  | _, [] => True
  | s, key :: keys => Plain s key ∧ ∀ s', press s key = .ok s' → AllPlain s' keys

/-! ## Scans over characters -/

theorem takeWhile_tails {tails : List UInt8} (h : ∀ t ∈ tails, continuation t = true) (b : List Char) :
    (tails ++ utf8Text b).takeWhile continuation = tails := by
  have hrest : (utf8Text b).takeWhile continuation = [] := by
    cases hb : utf8Text b with
    | nil => rfl
    | cons x xs => rw [List.takeWhile_cons_of_neg (Bool.eq_false_iff.1 (head_utf8Text x (by rw [hb]; rfl)))]
  rw [List.takeWhile_append_of_pos h, hrest, List.append_nil]

theorem nextChar_end (a : List Char) : nextChar (utf8Text a) (utf8Text a).length = (utf8Text a).length := by
  rw [nextChar, if_pos (Nat.le_refl _)]

theorem nextChar_cons (a : List Char) (c : Char) (b : List Char) :
    nextChar (utf8Text (a ++ c :: b)) (utf8Text a).length = (utf8Text (a ++ [c])).length := by
  obtain ⟨lead, tails, hshape⟩ := exists_shape c
  rw [utf8Text_append, utf8Text_append, utf8Text_cons, utf8Text_singleton, hshape.bytes, nextChar, if_neg]
  · have hdrop : (utf8Text a ++ (lead :: tails ++ utf8Text b)).drop ((utf8Text a).length + 1) = tails ++ utf8Text b := by
      rw [List.drop_append, List.cons_append, List.drop_eq_nil_of_le (Nat.le_succ _), Nat.add_sub_cancel_left]
      rfl
    rw [hdrop, takeWhile_tails hshape.continues, List.length_append, List.length_cons]
    omega
  · rw [List.length_append, List.length_append, List.length_cons]
    omega

theorem getD_append (a : List UInt8) (x : UInt8) (rest : List UInt8) : (a ++ x :: rest).getD a.length 0 = x := by
  rw [List.getD_eq_getElem?_getD, List.getElem?_append_right (Nat.le_refl _), Nat.sub_self]
  rfl

theorem previousChar_tails {tails : List UInt8} (h : ∀ t ∈ tails, continuation t = true) {lead : UInt8} (hlead : continuation lead = false)
    (a : List UInt8) : ∀ rest, previousChar (a ++ lead :: tails ++ rest) (a.length + tails.length + 1) = a.length := by
  induction tails using List.reverseRecOn with
  | nil =>
    intro rest
    rw [previousChar, if_neg]
    · rfl
    · rw [List.append_assoc, List.cons_append, List.length_nil, Nat.add_zero, getD_append, hlead]
      exact fun h => Bool.false_ne_true h.2
  | append_singleton tails t ih =>
    intro rest
    rw [List.forall_mem_append] at h
    have hstep := ih h.1 (t :: rest)
    have hshape : a ++ lead :: (tails ++ [t]) ++ rest = a ++ lead :: tails ++ t :: rest := by simp
    have hlen : (a ++ lead :: tails).length = a.length + tails.length + 1 := by
      rw [List.length_append, List.length_cons]
      omega
    rw [hshape, List.length_append, List.length_singleton, previousChar, if_pos, ← Nat.add_assoc, hstep]
    refine ⟨by omega, ?_⟩
    rw [← Nat.add_assoc, ← hlen, getD_append]
    exact h.2 t (List.mem_singleton_self t)

theorem previousChar_append (a : List Char) (c : Char) (rest : List UInt8) :
    previousChar (utf8Text (a ++ [c]) ++ rest) (utf8Text (a ++ [c])).length = (utf8Text a).length := by
  obtain ⟨lead, tails, hshape⟩ := exists_shape c
  have hstep := previousChar_tails hshape.continues hshape.starts (utf8Text a) rest
  rw [utf8Text_append, utf8Text_singleton, hshape.bytes, List.length_append, List.length_cons]
  exact hstep

/-! ## Lines -/

theorem line_newline (b : List Char) : Sheet.line ('\n' :: b) = [] := rfl

theorem line_cons {c : Char} (h : c ≠ '\n') (b : List Char) : Sheet.line (c :: b) = c :: Sheet.line b :=
  List.takeWhile_cons_of_pos (p := fun c => decide (c ≠ '\n')) (decide_eq_true h)

theorem encode_newline : utf8Encode ('\n').toNat = [10] := rfl

theorem mem_encode_newline {c : Char} (h : c ≠ '\n') : 10 ∉ utf8Encode c.toNat := by
  obtain ⟨lead, tails, hshape⟩ := exists_shape c
  rw [hshape.bytes, List.mem_cons, not_or]
  refine ⟨fun hlead => h (hshape.newline.1 hlead.symm), fun hmem => ?_⟩
  exact absurd (hshape.continues 10 hmem) (by decide)

theorem count_newline (a : List Char) : (utf8Text a).count 10 = a.count '\n' := by
  induction a with
  | nil => rfl
  | cons c a ih =>
    rw [utf8Text_cons, List.count_append, ih]
    by_cases hc : c = '\n'
    · rw [hc, encode_newline, List.count_cons_self, List.count_nil, List.count_cons_self, Nat.zero_add, Nat.add_comm]
    · rw [List.count_eq_zero.2 (mem_encode_newline hc), List.count_cons_of_ne hc, Nat.zero_add]

theorem takeWhile_newline (b : List Char) : (utf8Text b).takeWhile (· ≠ 10) = utf8Text (Sheet.line b) := by
  induction b with
  | nil => rfl
  | cons c b ih =>
    rw [utf8Text_cons]
    by_cases hc : c = '\n'
    · rw [hc, encode_newline, line_newline]
      rfl
    · have hbytes : ∀ x ∈ utf8Encode c.toNat, decide (x ≠ 10) = true := fun x hx => decide_eq_true fun h => mem_encode_newline hc (h ▸ hx)
      rw [List.takeWhile_append_of_pos hbytes, ih, line_cons hc, utf8Text_cons]

/-- Over bytes that are no newlines. -/
theorem lineStart_append {bytes : List UInt8} (h : 10 ∉ bytes) (a : List UInt8) : ∀ rest,
    lineStart (a ++ bytes ++ rest) (a.length + bytes.length) = lineStart (a ++ bytes ++ rest) a.length := by
  induction bytes using List.reverseRecOn with
  | nil => exact fun _ => rfl
  | append_singleton bytes x ih =>
    intro rest
    rw [List.mem_append, not_or, List.mem_singleton] at h
    have hstep := ih h.1 (x :: rest)
    have hshape : a ++ (bytes ++ [x]) ++ rest = a ++ bytes ++ x :: rest := by simp
    have hlen : (a ++ bytes).length = a.length + bytes.length := List.length_append
    rw [hshape, List.length_append, List.length_singleton, ← Nat.add_assoc, lineStart, if_pos, hstep]
    rw [← hlen, getD_append]
    exact fun heq => h.2 heq.symm

theorem lineStart_text (a : List Char) : ∀ rest,
    lineStart (utf8Text a ++ rest) (utf8Text a).length = (utf8Text (a.take (a.length - (Sheet.line a.reverse).length))).length := by
  induction a using List.reverseRecOn with
  | nil => exact fun _ => rfl
  | append_singleton a c ih =>
    intro rest
    rw [utf8Text_append, utf8Text_singleton, List.reverse_append, List.reverse_singleton, List.singleton_append]
    by_cases hc : c = '\n'
    · rw [hc, encode_newline, line_newline, List.length_nil, Nat.sub_zero, List.take_length, utf8Text_append,
        utf8Text_singleton, encode_newline, List.length_append, List.length_singleton, lineStart, if_neg]
      rw [List.append_assoc, List.singleton_append, getD_append]
      exact fun h => h rfl
    · have hstep := ih (utf8Encode c.toNat ++ rest)
      rw [← List.append_assoc] at hstep
      rw [List.length_append, lineStart_append (mem_encode_newline hc), hstep, line_cons hc, List.length_append, List.length_singleton,
        List.length_cons, Nat.add_sub_add_right, List.take_append_of_le_length (Nat.sub_le _ _)]

theorem startLoop_append {bytes : List UInt8} (h : 10 ∉ bytes) (number : Nat) : ∀ rest p,
    startLoop (bytes ++ rest) (number + 1) p = startLoop rest (number + 1) (p + bytes.length) := by
  induction bytes with
  | nil => exact fun _ _ => rfl
  | cons x bytes ih =>
    intro rest p
    rw [List.mem_cons, not_or] at h
    rw [List.cons_append, startLoop, if_neg fun heq => h.1 heq.symm, ih h.2, List.length_cons, Nat.add_assoc, Nat.add_comm 1]

theorem startLoop_text (cs : List Char) : ∀ number p,
    startLoop (utf8Text cs) number p = p + (utf8Text (cs.take (Sheet.rowStart number cs))).length := by
  induction cs with
  | nil =>
    intro number p
    cases number <;> rfl
  | cons c cs ih =>
    intro number p
    cases number with
    | zero =>
      rw [Sheet.rowStart]
      · unfold startLoop
        rfl
    | succ number =>
      rw [Sheet.rowStart, List.take_succ_cons, utf8Text_cons, utf8Text_cons, List.length_append]
      by_cases hc : c = '\n'
      · rw [if_pos hc, hc, encode_newline, List.singleton_append, startLoop, if_pos rfl, ih, List.length_singleton]
        omega
      · rw [if_neg hc, startLoop_append (mem_encode_newline hc), ih]
        omega

theorem columnLoop_text (l : List Char) : ∀ {rounds : Nat} (a b : List Char), l.length < rounds →
    columnLoop (utf8Text (a ++ l ++ b)) (utf8Text (a ++ l)).length rounds (utf8Text a).length = .ok l.length := by
  induction l with
  | nil =>
    intro rounds a b hrounds
    obtain ⟨rounds, rfl⟩ := Nat.exists_eq_add_one.2 hrounds
    rw [List.append_nil, columnLoop, if_neg (Nat.lt_irrefl _)]
    rfl
  | cons c l ih =>
    intro rounds a b hrounds
    rw [List.length_cons] at hrounds
    obtain ⟨rounds, rfl⟩ := Nat.exists_eq_add_one.2 (Nat.lt_of_le_of_lt (Nat.zero_le _) hrounds)
    have hstep := @ih rounds (a ++ [c]) b (by omega)
    have hbefore : (utf8Text a).length < (utf8Text (a ++ c :: l)).length := by
      obtain ⟨lead, tails, hshape⟩ := exists_shape c
      rw [utf8Text_append, utf8Text_cons, hshape.bytes, List.length_append, List.length_append, List.length_cons]
      omega
    have hshape : a ++ [c] ++ l = a ++ c :: l := by simp
    have hshape' : a ++ c :: l ++ b = a ++ c :: (l ++ b) := by simp
    rw [hshape, hshape'] at hstep
    rw [columnLoop, if_pos hbefore, hshape', nextChar_cons, hstep, ok_bind, List.length_cons]

theorem positionAtColumn_text (wanted : Nat) : ∀ a b : List Char,
    positionAtColumn (utf8Text (a ++ b)) wanted (utf8Text a).length = (utf8Text (a ++ (Sheet.line b).take wanted)).length := by
  induction wanted with
  | zero =>
    intro a b
    rw [List.take_zero, List.append_nil]
    rfl
  | succ wanted ih =>
    intro a b
    cases b with
    | nil =>
      rw [positionAtColumn, if_neg]
      · rw [Sheet.line, List.takeWhile_nil, List.take_nil, List.append_nil]
      · rw [List.append_nil]
        exact fun h => Nat.lt_irrefl _ h.1
    | cons c b =>
      obtain ⟨lead, tails, hshape⟩ := exists_shape c
      have hfirst : (utf8Text (a ++ c :: b)).getD (utf8Text a).length 0 = lead := by
        rw [utf8Text_append, utf8Text_cons, hshape.bytes]
        exact getD_append _ _ _
      have hlen : (utf8Text a).length < (utf8Text (a ++ c :: b)).length := by
        rw [utf8Text_append, utf8Text_cons, hshape.bytes, List.length_append, List.length_append, List.length_cons]
        omega
      rw [positionAtColumn, hfirst]
      by_cases hc : c = '\n'
      · rw [if_neg fun h => h.2 (hshape.newline.2 hc), hc, line_newline, List.take_nil, List.append_nil]
      · have hstep := ih (a ++ [c]) b
        rw [List.append_assoc, List.singleton_append] at hstep
        rw [if_pos ⟨hlen, fun h => hc (hshape.newline.1 h)⟩, nextChar_cons, hstep, line_cons hc, List.take_succ_cons, List.append_assoc,
          List.singleton_append]

/-! ## Searching -/

theorem search_short {needle text : List UInt8} (h : text.length < needle.length) (i : Nat) : search needle text i = none := by
  unfold search
  rw [if_pos h]

theorem search_cons (needle : List UInt8) (x : UInt8) (text : List UInt8) (i : Nat) :
    search needle (x :: text) i = if needle.isPrefixOf (x :: text) then some i else search needle text (i + 1) := by
  by_cases hshort : (x :: text).length < needle.length
  · have hnone : ¬ needle.isPrefixOf (x :: text) = true := fun h => by
      have hle := (List.isPrefixOf_iff_prefix.1 h).length_le
      omega
    rw [List.length_cons] at hshort
    rw [search_short (by rw [List.length_cons]; omega), if_neg hnone, search_short (by omega)]
  · rw [search, if_neg hshort]

theorem search_tails {needle : List UInt8} {b : UInt8} (hb : continuation b = false) {tails : List UInt8}
    (h : ∀ t ∈ tails, continuation t = true) (rest : List UInt8) :
    ∀ i, search (b :: needle) (tails ++ rest) i = search (b :: needle) rest (i + tails.length) := by
  induction tails with
  | nil => exact fun _ => rfl
  | cons t tails ih =>
    intro i
    rw [List.forall_mem_cons] at h
    have hother : (b == t) = false := by
      apply beq_false_of_ne
      rintro rfl
      exact Bool.false_ne_true (hb.symm.trans h.1)
    have hnone : ¬ (b :: needle).isPrefixOf (t :: (tails ++ rest)) = true := by
      unfold List.isPrefixOf
      rw [hother]
      exact Bool.false_ne_true
    rw [List.cons_append, search_cons, if_neg hnone, ih h.2, List.length_cons, Nat.add_assoc, Nat.add_comm 1]

/-- Bytes are found where characters are. -/
theorem search_text {query : List Char} (hquery : query ≠ []) (text : List Char) : ∀ i,
    search (utf8Text query) (utf8Text text) i = (Sheet.firstMatch query text).map fun n => i + (utf8Text (text.take n)).length := by
  obtain ⟨q, more, rfl⟩ := List.exists_cons_of_ne_nil hquery
  obtain ⟨lead, tails, hshape⟩ := exists_shape q
  have hneedle : utf8Text (q :: more) = lead :: (tails ++ utf8Text more) := by rw [utf8Text_cons, hshape.bytes]; rfl
  induction text with
  | nil =>
    intro i
    rw [search_short, Sheet.firstMatch, if_neg hquery]
    · rfl
    · rw [hneedle]
      exact Nat.succ_pos _
  | cons c text ih =>
    intro i
    obtain ⟨lead', tails', hshape'⟩ := exists_shape c
    have hbytes : utf8Text (c :: text) = lead' :: (tails' ++ utf8Text text) := by rw [utf8Text_cons, hshape'.bytes]; rfl
    have hsame : (utf8Text (q :: more)).isPrefixOf (lead' :: (tails' ++ utf8Text text)) = (q :: more).isPrefixOf (c :: text) := by
      rw [← hbytes, Bool.eq_iff_iff, List.isPrefixOf_iff_prefix, List.isPrefixOf_iff_prefix, utf8Text_prefix_iff]
    rw [hbytes, search_cons, hsame, Sheet.firstMatch]
    by_cases hhere : (q :: more).isPrefixOf (c :: text) = true
    · rw [if_pos hhere, if_pos hhere]
      rfl
    · rw [if_neg hhere, if_neg hhere, hneedle, search_tails hshape.starts hshape'.continues, ← hneedle, ih, Option.map_map]
      congr 1
      funext n
      rw [Function.comp_apply, List.take_succ_cons, utf8Text_cons, hshape'.bytes, List.length_append, List.length_cons]
      omega

/-! ## Moving the cursor -/

theorem length_le_utf8Text (cs : List Char) : cs.length ≤ (utf8Text cs).length := by
  induction cs with
  | nil => exact Nat.le_refl 0
  | cons c cs ih =>
    obtain ⟨lead, tails, hshape⟩ := exists_shape c
    rw [utf8Text_cons, hshape.bytes, List.length_append, List.length_cons, List.length_cons]
    omega

theorem take_line (b : List Char) : b.take (Sheet.line b).length = Sheet.line b :=
  (List.prefix_iff_eq_take.1 (List.takeWhile_prefix _)).symm

theorem length_line_le (b : List Char) : (Sheet.line b).length ≤ b.length := (List.takeWhile_prefix _).length_le

theorem rowStart_le (n : Nat) (text : List Char) : Sheet.rowStart n text ≤ text.length := by
  induction text generalizing n with
  | nil => cases n <;> exact Nat.le_refl 0
  | cons c text ih =>
    cases n with
    | zero => exact Nat.zero_le _
    | succ n => exact Nat.succ_le_succ (ih _)

theorem firstMatch_le {query : List Char} (text : List Char) : ∀ {n}, Sheet.firstMatch query text = some n → n ≤ text.length := by
  induction text with
  | nil =>
    intro n h
    unfold Sheet.firstMatch at h
    split at h
    · exact Nat.le_of_eq (Option.some.inj h).symm
    · cases h
  | cons c text ih =>
    intro n h
    unfold Sheet.firstMatch at h
    split at h
    · exact Option.some.inj h ▸ Nat.zero_le _
    · obtain ⟨m, hm, rfl⟩ := Option.map_eq_some_iff.1 h
      exact Nat.succ_le_succ (ih hm)

namespace Shows

variable {s : Editor} {z : Sheet}

theorem split (h : Shows s z) : s.document = utf8Text (z.text.take z.cursor) ++ utf8Text (z.text.drop z.cursor) := by
  rw [h.document, ← utf8Text_append, List.take_append_drop]

theorem move (h : Shows s z) {p k : Nat} (hk : k ≤ z.text.length) (hp : p = (utf8Text (z.text.take k)).length) :
    Shows { s with position := p } { z with cursor := k } := ⟨h.document, h.bounded, hk, hp, h.mode⟩

theorem left (h : Shows s z) : Shows { s with position := previousChar s.document s.position } { z with cursor := z.cursor - 1 } := by
  apply h.move (Nat.le_trans (Nat.sub_le _ _) h.cursor)
  rw [h.split, h.position]
  cases hk : z.cursor with
  | zero => rfl
  | succ k =>
    have hlt : k < z.text.length := by
      have hcursor := h.cursor
      omega
    rw [← List.take_concat_get' _ _ hlt, previousChar_append]
    rfl

theorem right (h : Shows s z) :
    Shows { s with position := nextChar s.document s.position } { z with cursor := min (z.cursor + 1) z.text.length } := by
  apply h.move (Nat.min_le_right _ _)
  rw [h.document, h.position]
  rcases Nat.lt_or_ge z.cursor z.text.length with hlt | hge
  · have hnext := nextChar_cons (z.text.take z.cursor) z.text[z.cursor] (z.text.drop (z.cursor + 1))
    rw [← List.drop_eq_getElem_cons hlt, List.take_append_drop, List.take_concat_get' _ _ hlt] at hnext
    rw [hnext, Nat.min_eq_left hlt]
  · rw [List.take_of_length_le hge, nextChar_end, Nat.min_eq_right (by omega), List.take_length]

theorem home (h : Shows s z) : Shows { s with position := lineStart s.document s.position } { z with cursor := z.cursor - z.column } := by
  apply h.move (Nat.le_trans (Nat.sub_le _ _) h.cursor)
  rw [h.split, h.position, lineStart_text, List.length_take_of_le h.cursor, List.take_take, Nat.min_eq_left (Nat.sub_le _ _)]
  rfl

theorem end_ (h : Shows s z) : Shows { s with position := lineEnd s.document s.position }
    { z with cursor := z.cursor + (Sheet.line (z.text.drop z.cursor)).length } := by
  apply h.move
  · have hlen := length_line_le (z.text.drop z.cursor)
    have hcursor := h.cursor
    rw [List.length_drop] at hlen
    omega
  · rw [h.split, h.position, lineEnd, List.drop_left, takeWhile_newline, List.take_add, take_line, utf8Text_append, List.length_append]

theorem column_eq (h : Shows s z) : column s.document s.position = .ok z.column := by
  have hcolumn : z.column ≤ z.cursor := by
    have hlen := length_line_le (z.text.take z.cursor).reverse
    rw [List.length_reverse, List.length_take_of_le h.cursor] at hlen
    exact hlen
  have hcursor := h.cursor
  have hbegin := h.home.position
  dsimp only at hbegin
  have hline : ((z.text.take z.cursor).drop (z.cursor - z.column)).length = z.column := by
    rw [List.length_drop, List.length_take_of_le h.cursor]
    omega
  have htake : z.text.take (z.cursor - z.column) ++ (z.text.take z.cursor).drop (z.cursor - z.column) = z.text.take z.cursor := by
    have hinner : z.text.take (z.cursor - z.column) = (z.text.take z.cursor).take (z.cursor - z.column) := by
      rw [List.take_take, Nat.min_eq_left (Nat.sub_le _ _)]
    rw [hinner, List.take_append_drop]
  have hrounds : z.column < s.document.length + 1 := by
    have hlen := length_le_utf8Text z.text
    rw [h.document]
    omega
  have hloop := @columnLoop_text ((z.text.take z.cursor).drop (z.cursor - z.column)) (s.document.length + 1)
    (z.text.take (z.cursor - z.column)) (z.text.drop z.cursor) (by rw [hline]; exact hrounds)
  rw [htake, List.take_append_drop, ← h.document, ← h.position, ← hbegin, hline] at hloop
  exact hloop

theorem toRow (h : Shows s z) (n : Nat) :
    Shows { s with position := positionAtColumn s.document z.column (startOfLineNumber s.document n) } (z.toRow n) := by
  have hrow := rowStart_le n z.text
  apply h.move
  · have hlen := length_line_le (z.text.drop (Sheet.rowStart n z.text))
    rw [List.length_drop] at hlen
    have hmin := Nat.min_le_right z.column (Sheet.line (z.text.drop (Sheet.rowStart n z.text))).length
    omega
  · have hposition := positionAtColumn_text z.column (z.text.take (Sheet.rowStart n z.text)) (z.text.drop (Sheet.rowStart n z.text))
    rw [List.take_append_drop] at hposition
    rw [h.document, startOfLineNumber, startLoop_text, Nat.zero_add, hposition, List.take_add, ← List.take_take, take_line]

theorem row_eq (h : Shows s z) : lineNumber s.document s.position = z.row := by
  rw [lineNumber, h.split, h.position, List.take_left, count_newline]
  rfl

/-! ## Editing -/

theorem insert (h : Shows s z) {c : Char} {data : List UInt8} (hdata : data = utf8Encode c.toNat) :
    Shows (insertBytes s.position data s) (z.insert c) := by
  have hbounded := h.bounded
  have hsplit := h.split
  unfold insertBytes Sheet.insert
  rw [← h.document, ← hdata]
  by_cases hroom : s.document.length + data.length ≤ editorBytes
  · rw [if_neg (by omega), if_pos hroom]
    have hbefore : s.document.take s.position = utf8Text (z.text.take z.cursor) := by rw [hsplit, h.position, List.take_left]
    have hafter : s.document.drop s.position = utf8Text (z.text.drop z.cursor) := by rw [hsplit, h.position, List.drop_left]
    have hcursor := h.cursor
    refine ⟨?_, ?_, ?_, ?_, h.mode⟩
    · dsimp only
      rw [hbefore, hafter, hdata, utf8Text_append, utf8Text_cons, List.append_assoc]
    · dsimp only
      rw [List.length_append, List.length_append, Nat.add_right_comm, ← List.length_append, List.take_append_drop]
      exact hroom
    · dsimp only
      rw [List.length_append, List.length_cons, List.length_take_of_le hcursor, List.length_drop]
      omega
    · dsimp only
      have htake : (z.text.take z.cursor ++ c :: z.text.drop z.cursor).take (z.cursor + 1) = z.text.take z.cursor ++ [c] := by
        rw [List.take_append, List.length_take_of_le hcursor, Nat.add_sub_cancel_left, List.take_take, Nat.min_eq_right (Nat.le_succ _)]
        rfl
      rw [htake, utf8Text_append, utf8Text_singleton, List.length_append, ← hdata, h.position]
  · rw [if_pos (by omega), if_neg hroom]
    exact h

theorem delete (h : Shows s z) : Shows (removeBytes s.position (nextChar s.document s.position - s.position) s) z.delete := by
  have hcursor := h.cursor
  have hposition := h.position
  have hnext := h.right.position
  dsimp only at hnext
  unfold removeBytes Sheet.delete
  rw [hnext, hposition]
  rcases Nat.lt_or_ge z.cursor z.text.length with hlt | hge
  · obtain ⟨lead, tails, hshape⟩ := exists_shape z.text[z.cursor]
    have hdrop := List.drop_eq_getElem_cons hlt
    have hlen : (utf8Text (z.text.take (z.cursor + 1))).length = (utf8Text (z.text.take z.cursor)).length + (lead :: tails).length := by
      rw [← List.take_concat_get' _ _ hlt, utf8Text_append, utf8Text_singleton, List.length_append, hshape.bytes]
    have hdocument : s.document = utf8Text (z.text.take z.cursor) ++ ((lead :: tails) ++ utf8Text (z.text.drop (z.cursor + 1))) := by
      rw [h.split, hdrop, utf8Text_cons, hshape.bytes]
    rw [Nat.min_eq_left hlt, hlen, Nat.add_sub_cancel_left]
    have htotal : ¬ (lead :: tails).length > s.document.length - (utf8Text (z.text.take z.cursor)).length := by
      rw [hdocument, List.length_append, List.length_append]
      omega
    dsimp only
    rw [if_neg htotal]
    have hremoved : s.document.take (utf8Text (z.text.take z.cursor)).length ++
        s.document.drop ((utf8Text (z.text.take z.cursor)).length + (lead :: tails).length) = utf8Text (z.text.eraseIdx z.cursor) := by
      rw [hdocument, List.take_left, ← List.drop_drop, List.drop_left, List.drop_left, ← utf8Text_append, List.eraseIdx_eq_take_drop_succ]
    refine ⟨hremoved, ?_, ?_, ?_, h.mode⟩
    · dsimp only
      have hbounded := h.bounded
      rw [List.length_append, List.length_take, List.length_drop]
      omega
    · dsimp only
      rw [List.length_eraseIdx_of_lt hlt]
      omega
    · dsimp only
      rw [List.eraseIdx_eq_take_drop_succ, List.take_left' (List.length_take_of_le hcursor)]
  · have hwhole : z.text.take z.cursor = z.text := List.take_of_length_le hge
    have hend : (utf8Text z.text).length = s.position := by rw [hposition, hwhole]
    rw [Nat.min_eq_right (by omega), List.take_length, hwhole, Nat.sub_self, List.eraseIdx_of_length_le hge, hend]
    dsimp only
    rw [if_neg (Nat.not_lt_zero _), Nat.add_zero, List.take_append_drop]
    exact h

theorem backspace (h : Shows s z) (hplain : s.position = 0 → s.document = []) :
    Shows (removeBytes (previousChar s.document s.position)
      (nextChar s.document (previousChar s.document s.position) - previousChar s.document s.position)
      { s with position := previousChar s.document s.position }) z.backspace := by
  have hdelete := h.left.delete
  dsimp only at hdelete
  unfold Sheet.backspace
  by_cases hzero : z.cursor = 0
  · have hposition : s.position = 0 := by rw [h.position, hzero]; rfl
    have htext : z.text = [] := utf8Text_eq_nil.1 (h.document ▸ hplain hposition)
    have hsame : ({ z with cursor := z.cursor - 1 } : Sheet).delete = z := by
      cases z
      dsimp only at htext hzero
      rw [htext, hzero]
      rfl
    rw [if_pos hzero]
    exact hsame ▸ hdelete
  · rw [if_neg hzero]
    exact hdelete

/-! ## Finding -/

theorem find (h : Shows s z) (query : List Char) :
    Shows (findText (utf8Text query) 10 s) { z.find query with mode := .editing } := by
  have hdrop : s.document.drop s.position = utf8Text (z.text.drop z.cursor) := by rw [h.split, h.position, List.drop_left]
  unfold findText
  rw [if_pos rfl, hdrop]
  cases query with
  | nil =>
    rw [if_pos utf8Text_nil]
    exact ⟨h.document, h.bounded, h.cursor, h.position, trivial⟩
  | cons q query =>
    rw [if_neg fun hnil => List.cons_ne_nil _ _ (utf8Text_eq_nil.1 hnil), search_text (List.cons_ne_nil q query)]
    unfold Sheet.find
    cases hmatch : Sheet.firstMatch (q :: query) (z.text.drop z.cursor) with
    | none => exact ⟨h.document, h.bounded, h.cursor, h.position, trivial⟩
    | some n =>
      have hlen := firstMatch_le _ hmatch
      have hcursor := h.cursor
      rw [List.length_drop] at hlen
      refine ⟨h.document, h.bounded, ?_, ?_, trivial⟩
      · dsimp only
        omega
      · change s.position + (utf8Text ((z.text.drop z.cursor).take n)).length = _
        rw [h.position, List.take_add, utf8Text_append, List.length_append]

theorem encode_charOf (key : Nat) : utf8Encode key = utf8Encode (charOf key).toNat := by
  unfold charOf
  by_cases hvalid : key.isValidChar
  · have hvalue : (Char.ofNat key).toNat = key := by
      rw [Char.ofNat, dif_pos hvalid]
      rfl
    rw [if_pos hvalid, hvalue]
  · rw [if_neg hvalid]
    unfold Nat.isValidChar at hvalid
    change _ = [0x3f]
    unfold utf8Encode
    rw [if_neg (by omega), if_neg (by omega)]
    split
    · rfl
    · rw [if_neg (by omega), if_pos (by omega)]

/-- A key of the dialog. -/
theorem findKey (h : Shows s z) (query : List Char) (key : Nat) :
    Shows (findText (utf8Text query) key s) (z.findKey query key) := by
  unfold Sheet.findKey
  by_cases h10 : key = 10
  · rw [if_pos h10, h10]
    exact h.find query
  unfold findText
  rw [if_neg h10, if_neg h10]
  by_cases hescape : key = keyEscape
  · rw [if_pos hescape, if_pos hescape]
    exact ⟨h.document, h.bounded, h.cursor, h.position, trivial⟩
  rw [if_neg hescape, if_neg hescape]
  by_cases h8 : key = 8
  · rw [if_pos h8, if_pos h8]
    refine ⟨h.document, h.bounded, h.cursor, h.position, ?_⟩
    change (utf8Text query).take _ = utf8Text query.dropLast
    rcases List.eq_nil_or_concat query with rfl | ⟨query, c, rfl⟩
    · rfl
    · rw [List.concat_eq_append]
      have hprevious := previousChar_append query c []
      rw [List.append_nil] at hprevious
      rw [hprevious, List.dropLast_concat, utf8Text_append, List.take_left]
  rw [if_neg h8, if_neg h8]
  by_cases hchar : key ≥ 32 ∧ key ≠ 127
  · rw [if_pos hchar, if_pos hchar, encode_charOf, utf8Text_append, utf8Text_singleton, List.length_append]
    by_cases hroom : (utf8Text query).length + (utf8Encode (charOf key).toNat).length < scratchBytes
    · rw [if_pos hroom, if_pos hroom]
      refine ⟨h.document, h.bounded, h.cursor, h.position, ?_⟩
      change _ = utf8Text (query ++ [charOf key])
      rw [utf8Text_append, utf8Text_singleton]
    · rw [if_neg hroom, if_neg hroom]
      exact h
  · rw [if_neg hchar, if_neg hchar]
    exact h

/-! ## Keys -/

theorem lineKey (h : Shows s z) {key : Nat} (hkey : key = keyUp ∨ key = keyDown) :
    ∃ s', Macro.lineKey key s = .ok s' ∧ Shows s' (z.toRow (if key = keyUp then z.row - 1 else z.row + 1)) := by
  have htarget : (if key = keyUp ∧ z.row ≠ 0 then z.row - 1 else if key = keyDown then z.row + 1 else z.row) =
      if key = keyUp then z.row - 1 else z.row + 1 := by
    rcases hkey with rfl | rfl
    · rw [if_pos rfl]
      by_cases hzero : z.row = 0
      · rw [if_neg fun h => h.2 hzero, if_neg (by decide), hzero]
      · rw [if_pos ⟨rfl, hzero⟩]
    · rw [if_neg fun h => absurd h.1 (by decide), if_pos rfl, if_neg (by decide)]
  refine ⟨_, ?_, h.toRow (if key = keyUp then z.row - 1 else z.row + 1)⟩
  unfold Macro.lineKey
  rw [h.column_eq, ok_bind, h.row_eq]
  dsimp only
  rw [htarget]

/-- A plain key of `main` has its meaning. -/
theorem mainKey (h : Shows s z) {key : Nat} (hplain : key = 8 → s.position = 0 → s.document = []) :
    ∃ s', Macro.mainKey key s = .ok s' ∧ Shows s' (z.mainKey key) := by
  have hwaits : ∀ {m : Mode} {m' : SheetMode}, SameMode m m' → Shows { s with mode := m } { z with mode := m' } :=
    fun hm => ⟨h.document, h.bounded, h.cursor, h.position, hm⟩
  unfold Macro.mainKey Sheet.mainKey
  by_cases h19 : key = 19
  · rw [if_pos h19, h19]
    exact ⟨s, rfl, h⟩
  rw [if_neg h19]
  by_cases h17 : key = 17
  · rw [if_pos h17, if_pos h17]
    exact ⟨_, rfl, hwaits trivial⟩
  rw [if_neg h17, if_neg h17]
  by_cases h6 : key = 6
  · rw [if_pos h6, if_pos h6]
    exact ⟨_, rfl, hwaits rfl⟩
  rw [if_neg h6, if_neg h6]
  by_cases hleft : key = keyLeft
  · rw [if_pos hleft, if_pos hleft]
    exact ⟨_, rfl, h.left⟩
  rw [if_neg hleft, if_neg hleft]
  by_cases hright : key = keyRight
  · rw [if_pos hright, if_pos hright]
    exact ⟨_, rfl, h.right⟩
  rw [if_neg hright, if_neg hright]
  by_cases hhome : key = keyHome
  · rw [if_pos hhome, if_pos hhome]
    exact ⟨_, rfl, h.home⟩
  rw [if_neg hhome, if_neg hhome]
  by_cases hend : key = keyEnd
  · rw [if_pos hend, if_pos hend]
    exact ⟨_, rfl, h.end_⟩
  rw [if_neg hend, if_neg hend]
  by_cases hup : key = keyUp
  · have hline := h.lineKey (.inl hup)
    rw [if_pos hup] at hline
    rw [if_pos (.inl hup), if_pos hup]
    exact hline
  by_cases hdown : key = keyDown
  · have hline := h.lineKey (.inr hdown)
    rw [if_neg hup] at hline
    rw [if_pos (.inr hdown), if_neg hup, if_pos hdown]
    exact hline
  rw [if_neg (not_or.2 ⟨hup, hdown⟩), if_neg hup, if_neg hdown]
  by_cases h8 : key = 8
  · rw [if_pos h8, if_pos h8]
    exact ⟨_, rfl, h.backspace (hplain h8)⟩
  rw [if_neg h8, if_neg h8]
  by_cases hdelete : key = keyDelete
  · rw [if_pos hdelete, if_pos hdelete]
    exact ⟨_, rfl, h.delete⟩
  rw [if_neg hdelete, if_neg hdelete]
  by_cases h10 : key = 10
  · rw [if_pos h10, if_pos h10]
    exact ⟨_, rfl, h.insert encode_newline.symm⟩
  rw [if_neg h10, if_neg h10]
  by_cases hchar : key ≥ 32 ∧ key ≠ 127
  · rw [if_pos hchar, if_pos hchar]
    exact ⟨_, rfl, h.insert (encode_charOf key)⟩
  · rw [if_neg hchar, if_neg hchar]
    exact ⟨s, rfl, h⟩

theorem press (h : Shows s z) {key : Nat} (hplain : Plain s key) : ∃ s', Macro.press s key = .ok s' ∧ Shows s' (z.press key) := by
  have hmode := h.mode
  unfold Macro.press Sheet.press
  unfold Plain at hplain
  cases hs : s.mode with
  | editing =>
    cases hz : z.mode with
    | editing =>
      rw [hs] at hplain
      exact h.mainKey hplain.2.2
    | finding query =>
      rw [hs, hz] at hmode
      exact hmode.elim
    | quit =>
      rw [hs, hz] at hmode
      exact hmode.elim
  | finding scratch =>
    cases hz : z.mode with
    | editing =>
      rw [hs, hz] at hmode
      exact hmode.elim
    | finding query =>
      rw [hs, hz] at hmode
      obtain rfl : scratch = utf8Text query := hmode
      exact ⟨_, rfl, h.findKey query key⟩
    | quit =>
      rw [hs, hz] at hmode
      exact hmode.elim
  | quit =>
    cases hz : z.mode with
    | editing =>
      rw [hs, hz] at hmode
      exact hmode.elim
    | finding query =>
      rw [hs, hz] at hmode
      exact hmode.elim
    | quit => exact ⟨s, rfl, h⟩

theorem run (keys : List Nat) : ∀ {s : Editor} {z : Sheet}, Shows s z → AllPlain s keys →
    ∃ s', keys.foldlM Macro.press s = .ok s' ∧ Shows s' (keys.foldl Sheet.press z) := by
  induction keys with
  | nil => exact fun {s} _ h _ => ⟨s, rfl, h⟩
  | cons key keys ih =>
    rintro s z h ⟨hplain, hkeys⟩
    obtain ⟨s', hpress, hshows⟩ := h.press hplain
    obtain ⟨s'', hrun, hshows'⟩ := ih hshows (hkeys s' hpress)
    refine ⟨s'', ?_, hshows'⟩
    rw [List.foldlM_cons, hpress]
    exact hrun

end Shows

/-- The editor is a list of characters with a cursor, as long as no backspace is pressed at the start of
a text. -/
theorem edit_refines (text : List Char) (hbounded : (utf8Text text).length ≤ editorBytes) (keys : List Nat)
    (hplain : AllPlain ⟨utf8Text text, 0, .editing⟩ keys) :
    ∃ s, edit (utf8Text text) keys = .ok s ∧ Shows s (keys.foldl Sheet.press ⟨text, 0, .editing⟩) := by
  apply Shows.run keys _ hplain
  exact ⟨rfl, hbounded, Nat.zero_le _, rfl, trivial⟩

theorem edit_refines_letter : ∃ s, edit (utf8Text ['a']) [98] = .ok s ∧ Shows s ([98].foldl Sheet.press ⟨['a'], 0, .editing⟩) :=
  edit_refines ['a'] (by decide) [98] ⟨⟨by decide, by decide, fun h => absurd h (by decide)⟩, fun _ _ => trivial⟩

/-- A backspace at the start removes the character behind the cursor. -/
theorem backspace_removes : ¬ ∃ s, edit (utf8Text ['a']) [8] = .ok s ∧ Shows s ([8].foldl Sheet.press ⟨['a'], 0, .editing⟩) := by
  rintro ⟨s, hedit, hshows⟩
  have hempty : edit (utf8Text ['a']) [8] = .ok ⟨[], 0, .editing⟩ := rfl
  obtain rfl := Except.ok.inj (hempty.symm.trans hedit)
  exact absurd hshows.document (by decide)

end Barnix.Macro
