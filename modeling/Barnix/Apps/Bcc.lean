import Barnix.Lib.Arrays
import Barnix.Path
import Mathlib.Data.List.TakeWhile
/-!
# The self-hosted compiler

`bcc.c`: the text of one output call of a source file is decoded and put into a template of an ELF
program. The end of the literal is found by two loops, `decode_string` and one of `main`. A pointer
into the source is what is left of it from there on; its end is the NUL.
-/

namespace Barnix.Bcc

/-- `MARKER`: `BCC_OUTPUT_MESSAGE` and 47 underscores. -/
def marker : List UInt8 :=
  [66, 67, 67, 95, 79, 85, 84, 80, 85, 84, 95, 77, 69, 83, 83, 65, 71, 69] ++ List.replicate 47 95

/-- `MESSAGE_MAX`, `SOURCE_MAX` and `OUTPUT_MAX` -/
def messageMax : Nat := 128
def sourceMax : Nat := 32768
def outputMax : Nat := 65536

def putsName : Name := [112, 117, 116, 115]
def printfName : Name := [112, 114, 105, 110, 116, 102]
def mainName : Name := [105, 110, 116, 32, 109, 97, 105, 110]
def returnName : Name := [114, 101, 116, 117, 114, 110]
def elfName : Name := [46, 101, 108, 102]

/-! ## Scanners -/

def blank (c : UInt8) : Bool := c == 32 || c == 9 || c == 13 || c == 10

def space (text : Name) : Name := text.dropWhile blank

/-- What is left from the first occurrence on. -/
def find : Name → Name → Option Name
  | [], needle => if needle = [] then some [] else none
  | c :: text, needle => if needle.isPrefixOf (c :: text) then some (c :: text) else find text needle

/-- The index of the first occurrence. -/
def findBytes (data needle : List UInt8) : Option Nat :=
  if needle = [] ∨ data.length < needle.length then none
  else (List.range (data.length - needle.length + 1)).find? fun i => needle.isPrefixOf (data.drop i)

/-- `for (p = find(text, name); p; p = find(p + 1, name))` -/
def callLoop (name : Name) : Nat → Option Name → Option Name
  | 0, _ => none
  | _, none => none
  | rounds + 1, some p =>
    let after := space (p.drop name.length)
    if after.head? = some 40 then some after else callLoop name rounds (find p.tail name)

def findCall (text name : Name) : Option Name := callLoop name (text.length + 1) (find text name)

/-- The byte behind a backslash. -/
def escaped (c : UInt8) : Option UInt8 :=
  if c = 110 then some 10
  else if c = 114 then some 13
  else if c = 116 then some 9
  else if c = 34 ∨ c = 92 then some c
  else none

/-- The loop of `decode_string` behind the opening quote sign, with the message so far. -/
def decodeLoop : Name → Name → Option Name
  | [], _ => none
  | c :: text, out =>
    if c = 34 then some out
    else if c = 92 then
      match text with
      | [] => none
      | e :: text =>
        match escaped e with
        | none => none
        | some d => if out.length + 1 ≥ messageMax then none else decodeLoop text (out ++ [d])
    else if out.length + 1 ≥ messageMax then none
    else decodeLoop text (out ++ [c])

def hasMain (text : Name) : Bool :=
  match find text mainName with
  | none => false
  | some p =>
    let p := space (p.drop 8)
    let close := p.dropWhile (· ≠ 41)
    p.head? == some 40 && close.head? == some 41 && (space close.tail).head? == some 123

/-- `statement_end`: whether there is one. -/
def statementEnd (text : Name) : Bool := ((space text).dropWhile fun c => c ≠ 59 && c ≠ 10).head? == some 59

/-! ## Compiling -/

/-- The call that is compiled. -/
def outputCall (source : Name) : Option Name := (findCall source putsName).or (findCall source printfName)

def missingParenthesis : String := "bcc: expected ')' after string literal"
def missingSemicolon : String := "bcc: expected ';' after output call"

/-- `main` up to the check of the return statement: the message. -/
def messageOf (source : Name) : Except String Name :=
  if hasMain source = false then .error "bcc: expected int main(...) { ... }"
  else
    match outputCall source with
    | none => .error "bcc: supported source is puts(\"text\") or printf(\"text\") in main"
    | some call =>
      match call.dropWhile (· ≠ 34) with
      | [] => .error "bcc: expected one string literal"
      | _ :: literal =>
        match decodeLoop literal [] with
        | none => .error "bcc: expected one string literal"
        | some message =>
          let after := space ((literal.dropWhile (· ≠ 34)).drop 1)
          if after.head? ≠ some 41 then .error missingParenthesis
          else if (space after.tail).head? ≠ some 59 then .error missingSemicolon
          else if (find message [37]).isSome then .error "bcc: format arguments are not supported yet"
          else
            match find source returnName with
            | none => .ok message
            | some ret => if statementEnd (ret.drop 6) then .ok message else .error "bcc: expected ';' after return"

/-- `copy` into an array of some capacity. -/
def copy (from_ : Name) (capacity : Nat) : Name := from_.take (capacity - 1)

/-- `output_name` -/
def outputName (input : Name) : Option Name :=
  let name := copy (input.reverse.takeWhile (· ≠ slash)).reverse 64
  let dot := match name.reverse.idxOf? 46 with
    | none => name.length
    | some k => if k + 1 = name.length then name.length else name.length - 1 - k
  let name := name.take dot ++ copy elfName (64 - dot)
  if name.length < 24 then some name else none

/-- The name of the output file. -/
def nameOf (argv : List Name) : Except String Name :=
  let name := match argv with
    | [_, _, output] => some (copy output 64)
    | [_, input] => outputName input
    | _ => none
  match name with
  | none => .error "bcc: output name is too long"
  | some name =>
    if name = [] ∨ name.length > 23 then .error "bcc: output must be a Barnix ELF filename of 23 characters or fewer"
    else if slash ∈ name then .error "bcc: output must be a filename, not a path"
    else .ok name

/-- The template with the message in the place of the marker. -/
def elfOf (template : Cells) (message : Name) : Except String Cells :=
  if template.length > outputMax then .error "bcc: built-in template is too large"
  else
    match findBytes template marker with
    | none => .error "bcc: built-in template is invalid"
    | some embedded =>
      if message.length > marker.length then .error "bcc: built-in template is invalid"
      else
        match template.pokes embedded ((List.range marker.length).map fun i => message.getD i 0) with
        | .ok output => .ok output
        | .error _ => .error "bcc: built-in template is invalid"

/-- The calls of the kernel: a file's bytes, and the results of writing one and of its mode. -/
structure Kernel where
  read : Name → Option (List UInt8)
  write : Name → Cells → Int
  user : Name
  chmod : Name → Name → Int

/-- What a run writes, and what it says. -/
structure Outcome where
  emitted : Option (Name × Cells)
  text : String

/-- `main` up to the write of the output file. -/
def compile (k : Kernel) (template : Cells) (argv : List Name) : Except String (Name × Cells) := do
  if argv.length < 2 ∨ argv.length > 3 then .error "usage: bcc SOURCE.c [OUTPUT.elf]"
  let some content := k.read (argv.getD 1 []) | .error "bcc: cannot read source"
  let message ← messageOf ((content.take (sourceMax - 1)).takeWhile (· ≠ 0))
  let name ← nameOf argv
  let output ← elfOf template message
  .ok (name, output)

def main (k : Kernel) (template : Cells) (argv : List Name) : Outcome :=
  match compile k template argv with
  | .error text => ⟨none, text⟩
  | .ok (name, output) =>
    if k.write name output ≠ 0 then ⟨some (name, output), "bcc: cannot write output (check permissions and space)"⟩
    else
      let user := copy k.user 64
      if user.length + 5 ≥ 64 then ⟨some (name, output), "bcc: username is too long"⟩
      else if k.chmod name (user ++ [61, 114, 119, 120]) ≠ 0 then
        ⟨some (name, output), "bcc: output was written but could not be marked executable"⟩
      else ⟨some (name, output), "BCC: compiled native Barnix ELF"⟩

/-! ## Literals -/

/-- What stands between the quote signs of a literal, and the bytes it stands for. -/
inductive Literal : Name → Name → Prop where
  | nil : Literal [] []
  | char {c : UInt8} {body message : Name} : c ≠ 34 → c ≠ 92 → Literal body message → Literal (c :: body) (c :: message)
  | escape {e d : UInt8} {body message : Name} : escaped e = some d → Literal body message → Literal (92 :: e :: body) (d :: message)

/-- A source that is to be compiled: its output call is applied to one literal without a percent sign
that the template has room for, and blanks, `)` and `;` follow. -/
structure Valid (k : Kernel) (template : Cells) (argv : List Name) (body message name : Name) (embedded : Nat) : Prop where
  args : argv.length = 2 ∨ argv.length = 3
  source : ∃ content, k.read (argv.getD 1 []) = some content ∧
    let source := (content.take (sourceMax - 1)).takeWhile (· ≠ 0)
    hasMain source = true ∧ (∀ ret, find source returnName = some ret → statementEnd (ret.drop 6) = true) ∧
    ∃ before behind between rest, (∀ c ∈ before ++ behind ++ between, blank c = true) ∧
      outputCall source = some (40 :: before ++ 34 :: body ++ 34 :: behind ++ 41 :: between ++ 59 :: rest)
  literal : Literal body message
  room : message.length ≤ marker.length
  percent : 37 ∉ message
  named : nameOf argv = .ok name
  fits : template.length ≤ outputMax
  marked : findBytes template marker = some embedded

/-- The template with the message and zeros in the place of the marker. -/
def patched (template : Cells) (embedded : Nat) (message : Name) : Cells :=
  template.take embedded ++ (message ++ List.replicate (marker.length - message.length) 0) ++ template.drop (embedded + marker.length)

/-- The run does not miss `)` or `;`, and emits the patched template. -/
def Compiles (k : Kernel) (template : Cells) (argv : List Name) (message name : Name) (embedded : Nat) : Prop :=
  (main k template argv).text ≠ missingParenthesis ∧ (main k template argv).text ≠ missingSemicolon ∧
    (main k template argv).emitted = some (name, patched template embedded message)

/-- No quote sign stands in the literal, or blanks, `)`, blanks and `;` follow the first one. -/
def Closed (body : Name) : Prop :=
  34 ∉ body ∨ ∃ before behind between rest, 34 ∉ before ∧ (∀ c ∈ behind ++ between, blank c = true) ∧
    body = before ++ 34 :: behind ++ 41 :: between ++ 59 :: rest

/-! ## The first scanner -/

/-- `decode_string` goes through a literal up to its closing quote sign. -/
theorem decodeLoop_literal {body message : Name} (h : Literal body message) (rest : Name) : ∀ {out : Name},
    out.length + message.length < messageMax → decodeLoop (body ++ 34 :: rest) out = some (out ++ message) := by
  induction h with
  | nil =>
    intro out _
    rw [List.nil_append, List.append_nil]
    unfold decodeLoop
    rw [if_pos rfl]
  | @char c body message hquote hslash _ ih =>
    intro out hroom
    rw [List.length_cons] at hroom
    rw [List.cons_append]
    unfold decodeLoop
    rw [if_neg hquote, if_neg hslash, if_neg (by omega), ih]
    · rw [List.append_assoc, List.singleton_append]
    · rw [List.length_append, List.length_singleton]
      omega
  | @escape e d body message he _ ih =>
    intro out hroom
    rw [List.length_cons] at hroom
    rw [List.cons_append, List.cons_append]
    unfold decodeLoop
    rw [if_neg (by decide), if_pos rfl]
    dsimp only
    rw [he]
    dsimp only
    rw [if_neg (by omega), ih]
    · rw [List.append_assoc, List.singleton_append]
    · rw [List.length_append, List.length_singleton]
      omega

/-! ## The second scanner -/

/-- Blanks, `)`, blanks and `;` at the start. -/
def Ends (text : Name) : Prop := ∃ behind between rest, (∀ c ∈ behind ++ between, blank c = true) ∧
  text = behind ++ 41 :: between ++ 59 :: rest

theorem space_append {blanks : Name} (h : ∀ c ∈ blanks, blank c = true) {c : UInt8} (hc : blank c = false) (rest : Name) :
    space (blanks ++ c :: rest) = c :: rest := by
  rw [space, List.dropWhile_append_of_pos h, List.dropWhile_cons_of_neg (by rw [hc]; exact Bool.false_ne_true)]

theorem space_split (text : Name) : ∃ blanks, (∀ c ∈ blanks, blank c = true) ∧ text = blanks ++ space text :=
  ⟨text.takeWhile blank, fun _ hc => List.mem_takeWhile_imp hc, List.takeWhile_append_dropWhile.symm⟩

theorem ends_iff {text : Name} : Ends text ↔ (space text).head? = some 41 ∧ (space (space text).tail).head? = some 59 := by
  constructor
  · rintro ⟨behind, between, rest, hblank, rfl⟩
    rw [List.forall_mem_append] at hblank
    have hfirst : space (behind ++ 41 :: between ++ 59 :: rest) = 41 :: (between ++ 59 :: rest) := by
      rw [List.append_assoc]
      exact space_append hblank.1 rfl _
    rw [hfirst, List.tail_cons, space_append hblank.2 rfl]
    exact ⟨rfl, rfl⟩
  · rintro ⟨hparenthesis, hsemicolon⟩
    obtain ⟨behind, hbehind, htext⟩ := space_split text
    obtain ⟨after, hafter⟩ := List.head?_eq_some_iff.1 hparenthesis
    rw [hafter, List.tail_cons] at hsemicolon
    obtain ⟨between, hbetween, hrest⟩ := space_split after
    obtain ⟨rest, hend⟩ := List.head?_eq_some_iff.1 hsemicolon
    refine ⟨behind, between, rest, List.forall_mem_append.2 ⟨hbehind, hbetween⟩, ?_⟩
    rw [htext, hafter, hrest, hend, List.append_assoc]
    rfl

/-- What `Ends` sees stands before any quote sign. -/
theorem ends_before_quote {text rest : Name} (h : Ends (text ++ 34 :: rest)) : Ends text := by
  obtain ⟨behind, between, after, hblank, htext⟩ := h
  have hquote : 34 ∉ behind ++ 41 :: between ++ [59] := by
    intro hmem
    have hblanks : 34 ∈ behind ++ between := by simpa using hmem
    exact absurd (hblank 34 hblanks) (by decide)
  have hsplit : text ++ 34 :: rest = behind ++ 41 :: between ++ [59] ++ after := by rw [htext, List.append_assoc _ [59]]; rfl
  rcases List.append_eq_append_iff.1 hsplit with ⟨inner, hwhole, hinner⟩ | ⟨inner, htext', -⟩
  · cases inner with
    | nil =>
      rw [List.append_nil] at hwhole
      exact ⟨behind, between, [], hblank, hwhole.symm⟩
    | cons c inner =>
      obtain ⟨rfl, -⟩ := List.cons.inj hinner
      exact absurd (hwhole ▸ List.mem_append_right _ (List.mem_cons_self ..)) hquote
  · exact ⟨behind, between, inner, hblank, by rw [htext', List.append_assoc _ [59]]; rfl⟩

theorem ends_append {text : Name} (h : Ends text) (more : Name) : Ends (text ++ more) := by
  obtain ⟨behind, between, rest, hblank, rfl⟩ := h
  exact ⟨behind, between, rest ++ more, hblank, by simp⟩

/-- What the second scanner takes for the text behind the literal. -/
def behindQuote (literal : Name) : Name := (literal.dropWhile (· ≠ 34)).drop 1

theorem behindQuote_append {before : Name} (h : 34 ∉ before) (rest : Name) : behindQuote (before ++ 34 :: rest) = rest := by
  have hbefore : ∀ c ∈ before, decide (c ≠ 34) = true := fun c hc => decide_eq_true fun heq => h (heq ▸ hc)
  rw [behindQuote, List.dropWhile_append_of_pos hbefore, List.dropWhile_cons_of_neg (by decide)]
  rfl

/-- The scanners agree on the closed literals. -/
theorem ends_behindQuote {body rest : Name} (h : Ends rest) : Ends (behindQuote (body ++ 34 :: rest)) ↔ Closed body := by
  by_cases hquote : 34 ∈ body
  · obtain ⟨before, inner, rfl, hbefore⟩ := List.eq_append_cons_of_mem hquote
    rw [List.append_assoc, List.cons_append, behindQuote_append hbefore]
    constructor
    · intro hends
      obtain ⟨behind, between, after, hblank, rfl⟩ := ends_before_quote hends
      exact .inr ⟨before, behind, between, after, hbefore, hblank, by simp⟩
    · rintro (hnone | ⟨before', behind, between, after, hbefore', hblank, hbody⟩)
      · exact absurd hquote hnone
      · have hinner : inner = behind ++ 41 :: between ++ 59 :: after := by
          have hleft := behindQuote_append hbefore inner
          rw [hbody, List.append_assoc, List.append_assoc, List.cons_append, behindQuote_append hbefore'] at hleft
          simpa using hleft.symm
        exact ends_append ⟨behind, between, after, hblank, hinner⟩ _
  · rw [behindQuote_append hquote]
    exact ⟨fun _ => .inl hquote, fun _ => h⟩

/-! ## The message and the program -/

theorem find_none {c : UInt8} {text : Name} (h : c ∉ text) : find text [c] = none := by
  induction text with
  | nil => rfl
  | cons d text ih =>
    rw [List.mem_cons, not_or] at h
    have hfirst : [c].isPrefixOf (d :: text) = false := by
      unfold List.isPrefixOf
      rw [beq_false_of_ne h.1, Bool.false_and]
    unfold find
    rw [hfirst]
    exact ih h.2

theorem elfOf_eq {template : Cells} {message : Name} {embedded : Nat} (hfits : template.length ≤ outputMax)
    (hmarked : findBytes template marker = some embedded) (hroom : message.length ≤ marker.length) :
    elfOf template message = .ok (patched template embedded message) := by
  have hpadded : (List.range marker.length).map (fun i => message.getD i 0) =
      message ++ List.replicate (marker.length - message.length) 0 := by
    apply List.ext_getElem
    · rw [List.length_map, List.length_range, List.length_append, List.length_replicate]
      omega
    · intro i hi hi'
      rw [List.getElem_map, List.getElem_range, List.getElem_append]
      split
      · rename_i hlt
        rw [List.getD_eq_getElem?_getD, List.getElem?_eq_getElem hlt]
        rfl
      · rename_i hge
        rw [List.getElem_replicate, List.getD_eq_getElem?_getD, List.getElem?_eq_none (Nat.not_lt.1 hge)]
        rfl
  have hlen : (message ++ List.replicate (marker.length - message.length) 0).length = marker.length := by
    rw [List.length_append, List.length_replicate]
    omega
  unfold findBytes at hmarked
  split at hmarked
  · cases hmarked
  rename_i hlong
  have hat := List.mem_range.1 (List.mem_of_find?_eq_some hmarked)
  have hfound := List.find?_some hmarked
  obtain ⟨rest, hrest⟩ := List.isPrefixOf_iff_prefix.1 hfound
  have htake : (template.take embedded).length = embedded := List.length_take_of_le (by omega)
  have hdrop : rest = template.drop (embedded + marker.length) := by
    rw [← List.drop_drop, ← hrest, List.drop_left]
  have hsplit : template = template.take embedded ++ marker ++ rest := by
    rw [List.append_assoc, hrest, List.take_append_drop]
  have hpokes := Cells.pokes_append (template.take embedded) hlen.symm rest
  rw [← hsplit, htake] at hpokes
  rw [elfOf, if_neg (by omega), findBytes, if_neg hlong, hmarked]
  dsimp only
  rw [if_neg (by omega), hpadded, hpokes, hdrop]
  rfl

section

variable {k : Kernel} {template : Cells} {argv : List Name} {body message name : Name} {embedded : Nat}

/-- A valid source is compiled when the second scanner finds the end of the call, and else one of the
two characters is said to be missing. -/
theorem compile_eq (h : Valid k template argv body message name embedded) : ∃ rest, Ends rest ∧
    compile k template argv =
      let after := space (behindQuote (body ++ 34 :: rest))
      if after.head? ≠ some 41 then .error missingParenthesis
      else if (space after.tail).head? ≠ some 59 then .error missingSemicolon
      else .ok (name, patched template embedded message) := by
  obtain ⟨content, hread, hmain, hreturn, before, behind, between, rest, hblank, hcall⟩ := h.source
  rw [List.forall_mem_append, List.forall_mem_append] at hblank
  refine ⟨behind ++ 41 :: between ++ 59 :: rest, ⟨behind, between, rest, List.forall_mem_append.2 ⟨hblank.1.2, hblank.2⟩, rfl⟩, ?_⟩
  have hargs := h.args
  have hroom := h.room
  have hmarker : marker.length = 65 := rfl
  have hskip : (40 :: before ++ 34 :: body ++ 34 :: behind ++ 41 :: between ++ 59 :: rest).dropWhile (· ≠ 34) =
      34 :: (body ++ 34 :: (behind ++ 41 :: between ++ 59 :: rest)) := by
    have hopen : ∀ c ∈ 40 :: before, decide (c ≠ 34) = true := by
      intro c hc
      apply decide_eq_true
      rintro rfl
      rcases List.mem_cons.1 hc with hc | hc
      · exact absurd hc (by decide)
      · exact absurd (hblank.1.1 34 hc) (by decide)
    rw [List.append_assoc, List.append_assoc, List.append_assoc, List.append_assoc, List.dropWhile_append_of_pos hopen,
      List.cons_append, List.dropWhile_cons_of_neg (by decide)]
    simp
  have hdecode := @decodeLoop_literal _ _ h.literal (behind ++ 41 :: between ++ 59 :: rest) []
    (by change 0 + message.length < 128; omega)
  have hpercent : ¬ (find message [37]).isSome = true := by
    rw [find_none h.percent]
    exact Bool.false_ne_true
  have hmessage : messageOf ((content.take (sourceMax - 1)).takeWhile (· ≠ 0)) =
      let after := space (behindQuote (body ++ 34 :: (behind ++ 41 :: between ++ 59 :: rest)))
      if after.head? ≠ some 41 then .error missingParenthesis
      else if (space after.tail).head? ≠ some 59 then .error missingSemicolon
      else .ok message := by
    unfold messageOf
    rw [if_neg (by rw [hmain]; exact fun h => nomatch h), hcall]
    dsimp only
    rw [hskip]
    dsimp only
    rw [hdecode, List.nil_append]
    dsimp only
    rw [if_neg hpercent]
    cases hret : find ((content.take (sourceMax - 1)).takeWhile (· ≠ 0)) returnName with
    | none => rfl
    | some ret =>
      dsimp only
      rw [if_pos (hreturn ret hret)]
      rfl
  unfold compile
  rw [if_neg (by omega), hread]
  simp only [hmessage, h.named]
  dsimp only [bind, Except.bind, pure, Except.pure]
  generalize space (behindQuote (body ++ 34 :: (behind ++ 41 :: between ++ 59 :: rest))) = after
  by_cases hparenthesis : after.head? ≠ some 41
  · rw [if_pos hparenthesis, if_pos hparenthesis]
  rw [if_neg hparenthesis, if_neg hparenthesis]
  by_cases hsemicolon : (space after.tail).head? ≠ some 59
  · rw [if_pos hsemicolon, if_pos hsemicolon]
  · rw [if_neg hsemicolon, if_neg hsemicolon]
    dsimp only
    rw [elfOf_eq h.fits h.marked h.room]

theorem main_error {text : String} (h : compile k template argv = .error text) : main k template argv = ⟨none, text⟩ := by
  rw [main, h]

theorem main_emits {output : Cells} (h : compile k template argv = .ok (name, output)) :
    (main k template argv).text ≠ missingParenthesis ∧ (main k template argv).text ≠ missingSemicolon ∧
      (main k template argv).emitted = some (name, output) := by
  rw [main, h]
  dsimp only
  split
  · refine ⟨?_, ?_, rfl⟩ <;> dsimp only <;> decide
  split
  · refine ⟨?_, ?_, rfl⟩ <;> dsimp only <;> decide
  split
  · refine ⟨?_, ?_, rfl⟩ <;> dsimp only <;> decide
  · refine ⟨?_, ?_, rfl⟩ <;> dsimp only <;> decide

theorem compiles_of_closed (h : Valid k template argv body message name embedded) (hclosed : Closed body) :
    Compiles k template argv message name embedded := by
  obtain ⟨rest, hends, hcompile⟩ := compile_eq h
  obtain ⟨hparenthesis, hsemicolon⟩ := ends_iff.1 ((ends_behindQuote hends).2 hclosed)
  apply main_emits
  rw [hcompile]
  dsimp only
  rw [if_neg (not_not_intro hparenthesis), if_neg (not_not_intro hsemicolon)]

theorem not_compiles (h : Valid k template argv body message name embedded) (hopen : ¬ Closed body) :
    ¬ Compiles k template argv message name embedded := by
  obtain ⟨rest, hends, hcompile⟩ := compile_eq h
  have hmissed : ¬ Ends (behindQuote (body ++ 34 :: rest)) := fun hclosed => hopen ((ends_behindQuote hends).1 hclosed)
  rw [ends_iff] at hmissed
  rintro ⟨hparenthesis, hsemicolon, -⟩
  dsimp only at hcompile
  by_cases hfirst : (space (behindQuote (body ++ 34 :: rest))).head? = some 41
  · have hsecond := fun h => hmissed ⟨hfirst, h⟩
    rw [if_neg (not_not_intro hfirst), if_pos hsecond] at hcompile
    exact hsemicolon (by rw [main_error hcompile])
  · rw [if_pos hfirst] at hcompile
    exact hparenthesis (by rw [main_error hcompile])

/-- A valid source is compiled exactly when its literal is closed for the scanner that knows no
escapes. -/
theorem compiles_iff_closed (h : Valid k template argv body message name embedded) :
    Compiles k template argv message name embedded ↔ Closed body := by
  constructor
  · intro hcompiles
    by_contra hopen
    exact not_compiles h hopen hcompiles
  · exact compiles_of_closed h

end

/-- A kernel with the source `int main(){puts("…");}`. -/
def putting (body : Name) : Kernel where
  read _ := some (mainName ++ [40, 41, 123] ++ putsName ++ [40, 34] ++ body ++ [34, 41, 59, 125])
  write _ _ := 0
  user := [97]
  chmod _ _ := 0

/-- `puts("a");` -/
theorem valid_letter : Valid (putting [97]) marker [[98], [97, 46, 99], [97]] [97] [97] [97] 0 where
  args := .inr rfl
  source := ⟨_, rfl, by decide +kernel, by decide +kernel, [], [], [], [125], (fun _ h => nomatch h), by decide +kernel⟩
  literal := .char (by decide) (by decide) .nil
  room := by decide
  percent := by decide
  named := by decide +kernel
  fits := by decide +kernel
  marked := by decide +kernel

theorem compiles_iff_closed_letter : Compiles (putting [97]) marker [[98], [97, 46, 99], [97]] [97] [97] 0 ↔ Closed [97] :=
  compiles_iff_closed valid_letter

/-- `puts("\"");` is valid and not compiled. -/
theorem quote_missed : Valid (putting [92, 34]) marker [[98], [97, 46, 99], [97]] [92, 34] [34] [97] 0 ∧
    ¬ Compiles (putting [92, 34]) marker [[98], [97, 46, 99], [97]] [34] [97] 0 := by
  constructor
  · exact {
      args := .inr rfl
      source := ⟨_, rfl, by decide +kernel, by decide +kernel, [], [], [], [125], (fun _ h => nomatch h), by decide +kernel⟩
      literal := .escape rfl .nil
      room := by decide
      percent := by decide
      named := by decide +kernel
      fits := by decide +kernel
      marked := by decide +kernel }
  · rintro ⟨hparenthesis, -, -⟩
    exact hparenthesis (by decide +kernel)

end Barnix.Bcc
