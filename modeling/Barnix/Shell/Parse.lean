import Barnix.Path
import Mathlib.Data.List.TakeWhile
/-!
# Parsing a command line

`shell_parse.c`: the words, pipes and redirections of one line. Words are copied into the
plan's storage, and everything else in the plan points there.
-/

namespace Barnix.Shell

def lineMax : Nat := 128
def argsMax : Nat := 64
def stagesMax : Nat := 2
def redirectsMax : Nat := 8

inductive RedirectKind where
  | input
  | output
  | append
deriving DecidableEq

/-- A path is where it begins in the storage. -/
structure Redirect where
  kind : RedirectKind
  path : Nat
deriving DecidableEq

/-- The first cells of the arrays; the cells behind them are still zero. -/
structure Command where
  argv : List Nat
  redirects : List Redirect
deriving DecidableEq

def Command.argc (c : Command) : Nat := c.argv.length

def Command.empty : Command := ⟨[], []⟩

/-- Cell `i` of `argv`, which has one more than `SHELL_ARGS_MAX`. -/
def Command.arg (c : Command) (i : Nat) : Option Nat := c.argv[i]?

structure Plan where
  count : Nat
  compound : Bool
  commands : List Command
  storage : List UInt8
deriving DecidableEq

/-- The string that begins at `k` in the storage. -/
def Plan.text (p : Plan) (k : Nat) : Name := (p.storage.drop k).takeWhile (· ≠ 0)

/-! ## Tokens -/

def quoteChar : UInt8 := 0x27
def doubleChar : UInt8 := 0x22
def escapeChar : UInt8 := 0x5c
def blank : UInt8 := 0x20

def space (c : UInt8) : Bool := c == blank || c == 0x09

/-- `|`, `<`, `>`, `&`, `;`, `(` and `)`. -/
def operator (c : UInt8) : Bool :=
  c == 0x7c || c == 0x3c || c == 0x3e || c == 0x26 || c == 0x3b || c == 0x28 || c == 0x29

def digit (c : UInt8) : Bool := 0x30 ≤ c && c ≤ 0x39

inductive Token where
  | stop
  | word (at_ : Nat)
  | pipe
  | redirect (kind : RedirectKind)
  | error (text : String)
deriving DecidableEq

/-- The lexer: the rest of the line and the storage used so far. -/
structure Lexer where
  rest : List UInt8
  storage : List UInt8
deriving DecidableEq

def tooLong : String := "command is too long"

/-- `emit`; none when the storage is full. -/
def emit (storage : List UInt8) (c : UInt8) : Option (List UInt8) :=
  if storage.length = lineMax then none else some (storage ++ [c])

/-- The word at `start` ends before `rest`. -/
def endWord (start : Nat) (quote : Option UInt8) (number : Bool) (rest storage : List UInt8) : Token × Lexer :=
  if quote.isSome then (.error "unclosed quote", ⟨rest, storage⟩)
  else if number && (rest.head? == some 0x3c || rest.head? == some 0x3e) then
    (.error "descriptor redirection is unsupported", ⟨rest, storage⟩)
  else
    match emit storage 0 with
    | none => (.error tooLong, ⟨rest, storage⟩)
    | some storage => (.word start, ⟨rest, storage⟩)

/-- The loop of `next` over a word: the open quote, and whether it is a number so far. -/
def lexWord (start : Nat) (quote : Option UInt8) (number : Bool) : List UInt8 → List UInt8 → Token × Lexer
  | [], storage => endWord start quote number [] storage
  | c :: p, storage =>
    if quote = none ∧ (space c || operator c) then endWord start quote number (c :: p) storage
    else if quote = none ∧ (c = quoteChar ∨ c = doubleChar) then lexWord start (some c) false p storage
    else if quote = some c then lexWord start none number p storage
    else if c = escapeChar ∧ quote ≠ some quoteChar then
      match p with
      | [] => (.error "unfinished escape", ⟨[], storage⟩)
      | d :: p' =>
        -- inside double quotes a backslash before an ordinary character is kept
        if quote = some doubleChar ∧ d ≠ doubleChar ∧ d ≠ escapeChar ∧ d ≠ 0x24 ∧ d ≠ 0x60 then
          match emit storage c with
          | none => (.error tooLong, ⟨p, storage⟩)
          | some storage => lexWord start quote false (d :: p') storage
        else
          match emit storage d with
          | none => (.error tooLong, ⟨p', storage⟩)
          | some storage => lexWord start quote false p' storage
    else
      match emit storage c with
      | none => (.error tooLong, ⟨p, storage⟩)
      | some storage => lexWord start quote (number && digit c) p storage

/-- `next` -/
def next (s : Lexer) : Token × Lexer :=
  match s.rest.dropWhile space with
  | [] => (.stop, s)
  | c :: p =>
    if operator c then
      if c = 0x3e ∧ p.head? = some 0x3e then (.redirect .append, { s with rest := p.tail })
      else if (c ≠ 0x7c ∧ c ≠ 0x3c ∧ c ≠ 0x3e) ∨ p.head? = some c then (.error "unsupported shell operator", s)
      else (if c = 0x7c then .pipe else .redirect (if c = 0x3c then .input else .output), { s with rest := p })
    else lexWord s.storage.length none true (c :: p) s.storage

/-! ## Commands -/

/-- What `shell_parse` knows after some tokens: the stages before this one and this one. -/
structure Parse where
  lexer : Lexer
  done : List Command
  command : Command
  compound : Bool
deriving DecidableEq

/-- The token loop of `shell_parse`, for so many rounds: the error, if there is one. -/
def tokens : Nat → Parse → Option (Option String × Parse)
  | 0, _ => none
  | rounds + 1, s =>
    match next s.lexer with
    | (.stop, lexer) => some (none, { s with lexer })
    | (.error text, lexer) => some (some text, { s with lexer })
    | (.word k, lexer) =>
      if s.command.argc = argsMax then some (some "too many arguments", { s with lexer })
      else tokens rounds { s with lexer, command := { s.command with argv := s.command.argv ++ [k] } }
    | (.pipe, lexer) =>
      if s.command.argc = 0 then some (some "missing command before pipe", { s with lexer })
      else if s.done.length + 1 = stagesMax then some (some "at most two commands per pipeline", { s with lexer })
      else tokens rounds { lexer, done := s.done ++ [s.command], command := .empty, compound := true }
    | (.redirect kind, lexer) =>
      if s.command.redirects.length = redirectsMax then some (some "too many redirections", { s with lexer })
      else
        match next lexer with
        | (.error text, lexer) => some (some text, { s with lexer })
        | (.word k, lexer) =>
          tokens rounds { s with
            lexer, compound := true
            command := { s.command with redirects := s.command.redirects ++ [⟨kind, k⟩] } }
        | (_, lexer) => some (some "missing redirection path", { s with lexer })

/-- The loop over the characters of the line. -/
def checkLine : Nat → List UInt8 → Option String
  | _, [] => none
  | length, c :: line =>
    if c = 0x0a ∨ c = 0x0d then some "multiline commands are unsupported"
    else if length + 1 = lineMax then some tooLong
    else checkLine (length + 1) line

/-- The stages, up to the first that has no command. -/
def checkStages (p : Plan) : List Command → Option String
  | [] => none
  | c :: cs =>
    match c.argv with
    | [] => some "missing command"
    | name :: _ => if p.storage.getD name 0 = 0 then some "empty command name" else checkStages p cs

/-- The plan of a parse that did not end well. -/
def Parse.plan (s : Parse) : Plan := ⟨0, s.compound, s.done ++ [s.command], s.lexer.storage⟩

/-- The end of `shell_parse`, behind its token loop. -/
def Parse.finish (s : Parse) : Option String × Plan :=
  if (s.plan.commands.head?.map Command.argc).getD 0 = 0 ∧ s.compound = false then (none, s.plan)
  else
    match checkStages s.plan s.plan.commands with
    | some text => (some text, s.plan)
    | none => (none, { s.plan with count := s.plan.commands.length })

/-- `shell_parse`: the error, if there is one, and the plan. -/
def shellParse (line : List UInt8) : Option (Option String × Plan) :=
  let line := line.takeWhile (· ≠ 0)
  match checkLine 0 line with
  | some text => some (some text, ⟨0, false, [.empty], []⟩)
  | none =>
    match tokens (line.length + 1) ⟨⟨line, []⟩, [], .empty, false⟩ with
    | none => none
    | some (some text, s) => some (some text, s.plan)
    | some (none, s) => some s.finish

/-! ## Room in the storage -/

theorem emit_some {storage : List UInt8} (h : storage.length < lineMax) (c : UInt8) : emit storage c = some (storage ++ [c]) := by
  unfold emit
  rw [if_neg (Nat.ne_of_lt h)]

theorem emit_eq {storage storage' : List UInt8} {c : UInt8} (h : emit storage c = some storage') : storage' = storage ++ [c] := by
  unfold emit at h
  split at h
  · cases h
  · exact (Option.some.inj h).symm

theorem full_of_emit {storage : List UInt8} {c : UInt8} (h : emit storage c = none) : storage.length = lineMax := by
  unfold emit at h
  split at h
  · assumption
  · cases h

/-- The storage has room for a word that the rest of the line may begin with, and for its end. Behind a
word there is a separator, which leaves room for the end of the word. -/
def Lexer.Room (s : Lexer) : Prop :=
  s.storage.length + s.rest.length < lineMax ∨
    (s.storage.length + s.rest.length ≤ lineMax ∧ ∀ c ∈ s.rest.head?, (space c || operator c) = true)

/-- How the word at `start` ends. -/
structure WordEnds (start : Nat) (p storage : List UInt8) (r : Token × Lexer) : Prop where
  result : (r.1 = .word start ∧ ∃ w, r.2.storage = storage ++ w ++ [0]) ∨
    ∃ text w, r.1 = .error text ∧ text ≠ tooLong ∧ r.2.storage = storage ++ w
  rest : r.2.rest <:+ p
  room : r.2.storage.length + r.2.rest.length ≤ lineMax
  separated : r.1 = .word start → ∀ c ∈ r.2.rest.head?, (space c || operator c) = true

theorem WordEnds.skip {start : Nat} {p p' storage : List UInt8} {r : Token × Lexer} (h : WordEnds start p' storage r)
    (hp : p' <:+ p) : WordEnds start p storage r := ⟨h.result, h.rest.trans hp, h.room, h.separated⟩

theorem WordEnds.stored {start : Nat} {p p' storage : List UInt8} {c : UInt8} {r : Token × Lexer}
    (h : WordEnds start p' (storage ++ [c]) r) (hp : p' <:+ p) : WordEnds start p storage r := by
  refine ⟨?_, h.rest.trans hp, h.room, h.separated⟩
  rcases h.result with ⟨hword, w, hw⟩ | ⟨text, w, htext, hne, hw⟩
  · exact .inl ⟨hword, c :: w, by rw [hw, List.append_assoc storage, List.singleton_append]⟩
  · exact .inr ⟨text, c :: w, htext, hne, by rw [hw, List.append_assoc, List.singleton_append]⟩

theorem WordEnds.failed {start : Nat} {p storage rest : List UInt8} {text : String} (hne : text ≠ tooLong) (hrest : rest <:+ p)
    (hroom : storage.length + p.length < lineMax) : WordEnds start p storage (.error text, ⟨rest, storage⟩) := by
  refine ⟨.inr ⟨text, [], rfl, hne, (List.append_nil _).symm⟩, hrest, ?_, fun h => nomatch h⟩
  have := hrest.length_le
  dsimp only
  omega

theorem endWord_ends (start : Nat) (quote : Option UInt8) (number : Bool) {rest storage : List UInt8}
    (hroom : storage.length + rest.length < lineMax)
    (hsep : quote = none → ∀ c ∈ rest.head?, (space c || operator c) = true) :
    WordEnds start rest storage (endWord start quote number rest storage) := by
  unfold endWord
  by_cases hq : quote.isSome = true
  · rw [if_pos hq]
    exact .failed (by decide) (List.suffix_refl _) hroom
  rw [if_neg hq]
  split
  · exact .failed (by decide) (List.suffix_refl _) hroom
  · rw [emit_some (by omega)]
    refine ⟨.inl ⟨rfl, [], by rw [List.append_nil]⟩, List.suffix_refl _, ?_, fun _ => hsep (by simpa using hq)⟩
    dsimp only
    rw [List.length_append, List.length_singleton]
    omega

/-- A word finds room: every character that is stored was taken from the line before. -/
theorem lexWord_ends (start : Nat) (quote : Option UInt8) (number : Bool) (p storage : List UInt8)
    (hroom : storage.length + p.length < lineMax) : WordEnds start p storage (lexWord start quote number p storage) := by
  fun_induction lexWord start quote number p storage with
  | case1 quote number storage => exact endWord_ends start quote number hroom fun _ c hc => by cases hc
  | case2 quote number c p storage hsep =>
    refine endWord_ends start quote number hroom fun _ d hd => ?_
    obtain rfl := Option.mem_some.1 hd
    exact hsep.2
  | case3 quote number c p storage _ _ ih =>
    rw [List.length_cons] at hroom
    exact (ih (by omega)).skip (List.suffix_cons ..)
  | case4 number c p storage _ _ ih =>
    rw [List.length_cons] at hroom
    exact (ih (by omega)).skip (List.suffix_cons ..)
  | case5 => exact .failed (by decide) (List.suffix_cons ..) hroom
  | case6 quote number c storage _ _ _ _ d p _ hfull => exact absurd (full_of_emit hfull) (by omega)
  | case7 quote number c storage _ _ _ _ d p _ storage' hemit ih =>
    obtain rfl := emit_eq hemit
    simp only [List.length_cons, List.length_append, List.length_nil] at hroom ih
    exact (ih (by omega)).stored (List.suffix_cons ..)
  | case8 quote number c storage _ _ _ _ d p _ hfull => exact absurd (full_of_emit hfull) (by omega)
  | case9 quote number c storage _ _ _ _ d p _ storage' hemit ih =>
    obtain rfl := emit_eq hemit
    simp only [List.length_cons, List.length_append, List.length_nil] at hroom ih
    exact (ih (by omega)).stored ((List.suffix_cons ..).trans (List.suffix_cons ..))
  | case10 quote number c p storage _ _ _ _ hfull => exact absurd (full_of_emit hfull) (by omega)
  | case11 quote number c p storage _ _ _ _ storage' hemit ih =>
    obtain rfl := emit_eq hemit
    simp only [List.length_cons, List.length_append, List.length_nil] at hroom ih
    exact (ih (by omega)).stored (List.suffix_cons ..)

/-- A word is not empty in the line. -/
theorem lexWord_rest {start : Nat} {number : Bool} {c : UInt8} {p storage : List UInt8} (hc : (space c || operator c) = false)
    (hroom : storage.length + (c :: p).length < lineMax) :
    (lexWord start none number (c :: p) storage).2.rest.length < (c :: p).length := by
  rw [List.length_cons] at hroom ⊢
  have hshort : ∀ (p' storage' : List UInt8) (quote : Option UInt8) (number : Bool), p' <:+ p → storage'.length + p'.length < lineMax →
      (lexWord start quote number p' storage').2.rest.length < p.length + 1 := by
    intro p' storage' quote number hp hroom'
    have h1 := (lexWord_ends start quote number p' storage' hroom').rest.length_le
    have h2 := hp.length_le
    omega
  have hsep : ¬((none : Option UInt8) = none ∧ (space c || operator c) = true) := by
    rintro ⟨-, h⟩
    rw [hc] at h
    cases h
  rw [lexWord.eq_def]
  dsimp only
  rw [if_neg hsep]
  by_cases hquote : (none : Option UInt8) = none ∧ (c = quoteChar ∨ c = doubleChar)
  · rw [if_pos hquote]
    exact hshort p storage _ _ (List.suffix_refl _) (by omega)
  rw [if_neg hquote, if_neg (Option.some_ne_none c).symm]
  split
  · cases p with
    | nil => exact Nat.zero_lt_one
    | cons d p =>
      dsimp only
      rw [List.length_cons] at hroom
      rw [if_neg fun h => (Option.some_ne_none _ h.1.symm), emit_some (by omega)]
      refine hshort p _ _ _ (List.suffix_cons ..) ?_
      rw [List.length_append, List.length_singleton]
      omega
  · rw [emit_some (by omega)]
    refine hshort p _ _ _ (List.suffix_refl _) ?_
    rw [List.length_append, List.length_singleton]
    omega

/-! ## Every line -/

/-- There is a string at `k`. -/
def Points (storage : List UInt8) (k : Nat) : Prop := k < storage.length ∧ 0 ∈ storage.drop k

theorem Points.mono {storage storage' : List UInt8} {k : Nat} (h : Points storage k) (hp : storage <+: storage') : Points storage' k := by
  obtain ⟨more, rfl⟩ := hp
  refine ⟨Nat.lt_of_lt_of_le h.1 (by rw [List.length_append]; omega), ?_⟩
  rw [List.drop_append_of_le_length (Nat.le_of_lt h.1)]
  exact List.mem_append_left _ h.2

/-- A token that was taken with room left. -/
structure Taken (s : Lexer) (r : Token × Lexer) : Prop where
  stored : s.storage <+: r.2.storage
  bounded : r.2.storage.length ≤ lineMax
  text : r.1 ≠ .error tooLong
  room : (∀ text, r.1 ≠ .error text) → r.2.Room
  shorter : r.1 = .stop ∨ (∃ text, r.1 = .error text) ∨ r.2.rest.length < s.rest.length
  points : ∀ k, r.1 = .word k → Points r.2.storage k

theorem Lexer.Room.bounded {s : Lexer} (h : s.Room) : s.storage.length ≤ lineMax := by
  rcases h with h | h
  · omega
  · have := h.1
    omega

/-- Behind blanks there is room for a word. -/
theorem Lexer.Room.lt {s : Lexer} (h : s.Room) {c : UInt8} {p : List UInt8} (hrest : s.rest.dropWhile space = c :: p) :
    s.storage.length + (if operator c then p else c :: p).length < lineMax := by
  have hsuffix := (List.dropWhile_suffix space (l := s.rest)).length_le
  rw [hrest, List.length_cons] at hsuffix
  have hlen : (if operator c then p else c :: p).length ≤ p.length + 1 := by
    split
    · exact Nat.le_succ _
    · exact Nat.le_refl _
  rcases h with h | ⟨h, hsep⟩
  · omega
  · cases hl : s.rest with
    | nil =>
      rw [hl] at hrest
      cases hrest
    | cons d q =>
      rw [hl] at hrest hsep h
      rw [List.length_cons] at h
      by_cases hd : space d = true
      · -- a blank was skipped
        rw [List.dropWhile_cons_of_pos hd] at hrest
        have := (List.dropWhile_suffix space (l := q)).length_le
        rw [hrest, List.length_cons] at this
        omega
      · rw [List.dropWhile_cons_of_neg hd] at hrest
        obtain ⟨rfl, rfl⟩ := List.cons.inj hrest
        have hop := hsep d rfl
        rw [Bool.not_eq_true] at hd
        rw [hd, Bool.false_or] at hop
        rw [if_pos hop]
        omega

/-- A token that stores nothing. -/
theorem Taken.plain {s lexer : Lexer} {token : Token} (h : s.Room) (hstorage : lexer.storage = s.storage)
    (htext : token ≠ .error tooLong) (hword : ∀ k, token ≠ .word k) (hroom : (∀ text, token ≠ .error text) → lexer.Room)
    (hshort : token = .stop ∨ (∃ text, token = .error text) ∨ lexer.rest.length < s.rest.length) : Taken s (token, lexer) :=
  ⟨hstorage ▸ List.prefix_refl _, hstorage ▸ h.bounded, htext, hroom, hshort, fun k hk => absurd hk (hword k)⟩

theorem next_taken {s : Lexer} (h : s.Room) : Taken s (next s) := by
  unfold next
  cases hrest : s.rest.dropWhile space with
  | nil => exact .plain h rfl (by simp) (by simp) (fun _ => h) (.inl rfl)
  | cons c p =>
    have hlt := h.lt hrest
    have hle := (List.dropWhile_suffix space (l := s.rest)).length_le
    rw [hrest, List.length_cons] at hle
    dsimp only
    by_cases hop : operator c = true
    · rw [if_pos hop] at hlt
      rw [if_pos hop]
      have htail := List.length_tail (l := p)
      split
      · refine .plain h rfl (by simp) (by simp) (fun _ => .inl ?_) (.inr (.inr ?_))
        · dsimp only
          omega
        · dsimp only
          omega
      split
      · exact .plain h rfl (by simp [tooLong]) (by simp) (fun hno => absurd rfl (hno _)) (.inr (.inl ⟨_, rfl⟩))
      · refine .plain h rfl ?_ (fun k => ?_) (fun _ => .inl hlt) (.inr (.inr ?_))
        · split <;> simp
        · split <;> simp
        · dsimp only
          omega
    · rw [if_neg hop] at hlt
      rw [if_neg hop]
      have hsep : (space c || operator c) = false := by
        have := List.head_dropWhile_not space (l := s.rest) (by rw [hrest]; exact List.cons_ne_nil _ _)
        simp only [hrest, List.head_cons] at this
        rw [this, Bool.eq_false_iff.2 hop]
        rfl
      have hends := lexWord_ends s.storage.length none true (c :: p) s.storage hlt
      have hshorter := @lexWord_rest s.storage.length true _ _ _ hsep hlt
      rw [List.length_cons] at hshorter
      generalize lexWord s.storage.length none true (c :: p) s.storage = r at hends hshorter
      have hroom := hends.room
      rcases hends.result with ⟨hword, w, hw⟩ | ⟨text, w, htext, hne, hw⟩
      · refine ⟨⟨w ++ [0], by rw [hw, List.append_assoc]⟩, by omega, by simp [hword], fun _ => .inr ⟨hroom, hends.separated hword⟩,
          .inr (.inr (by omega)), fun k hk => ?_⟩
        obtain rfl := Token.word.inj (hword.symm.trans hk)
        rw [hw]
        refine ⟨by simp, ?_⟩
        rw [List.append_assoc, List.drop_left]
        exact List.mem_append_right _ (List.mem_singleton_self 0)
      · refine ⟨⟨w, hw.symm⟩, by omega, ?_, fun hno => absurd htext (hno text), .inr (.inl ⟨text, htext⟩), fun k hk => ?_⟩
        · rw [htext]
          exact fun h => hne (Token.error.inj h)
        · rw [htext] at hk
          cases hk

/-- A command inside of its arrays, whose words are in the storage. -/
structure Command.Fits (c : Command) (storage : List UInt8) : Prop where
  argc : c.argc ≤ argsMax
  redirects : c.redirects.length ≤ redirectsMax
  argv : ∀ k ∈ c.argv, Points storage k
  paths : ∀ r ∈ c.redirects, Points storage r.path

theorem Command.Fits.mono {c : Command} {storage storage' : List UInt8} (h : c.Fits storage) (hp : storage <+: storage') :
    c.Fits storage' :=
  ⟨h.argc, h.redirects, fun k hk => (h.argv k hk).mono hp, fun r hr => (h.paths r hr).mono hp⟩

theorem Command.fits_empty (storage : List UInt8) : Command.empty.Fits storage :=
  ⟨Nat.zero_le _, Nat.zero_le _, fun _ h => absurd h List.not_mem_nil, fun _ h => absurd h List.not_mem_nil⟩

/-- A plan inside of its arrays. -/
structure Plan.Fits (p : Plan) : Prop where
  storage : p.storage.length ≤ lineMax
  commands : p.commands.length ≤ stagesMax
  command : ∀ c ∈ p.commands, c.Fits p.storage

theorem Plan.Fits.lexer {s : Parse} (h : s.plan.Fits) {lexer : Lexer} (hp : s.lexer.storage <+: lexer.storage)
    (hbounded : lexer.storage.length ≤ lineMax) : Parse.plan { s with lexer } |>.Fits :=
  ⟨hbounded, h.commands, fun c hc => (h.command c hc).mono hp⟩

/-- Another command in the stage of the parse. -/
theorem Plan.Fits.update {s : Parse} (h : s.plan.Fits) {c : Command} (hc : c.Fits s.lexer.storage) (compound : Bool) :
    Parse.plan { s with command := c, compound } |>.Fits := by
  refine ⟨h.storage, ?_, fun d hd => ?_⟩
  · have := h.commands
    simpa [Parse.plan] using this
  · rcases List.mem_append.1 hd with hd | hd
    · exact h.command d (List.mem_append_left _ hd)
    · obtain rfl := List.mem_singleton.1 hd
      exact hc

theorem Parse.fits_command {s : Parse} (h : s.plan.Fits) : s.command.Fits s.lexer.storage :=
  h.command _ (List.mem_append_right _ (List.mem_singleton_self _))

/-- With a round for every character of the line the loop ends, inside of the arrays. -/
theorem tokens_fits (rounds : Nat) {s : Parse} (hfits : s.plan.Fits) (hroom : s.lexer.Room) (hrounds : s.lexer.rest.length < rounds) :
    ∃ e t, tokens rounds s = some (e, t) ∧ t.plan.Fits ∧ e ≠ some tooLong := by
  induction rounds generalizing s with
  | zero => exact absurd hrounds (Nat.not_lt_zero _)
  | succ rounds ih =>
    have htaken := next_taken hroom
    unfold tokens
    generalize next s.lexer = r at htaken
    obtain ⟨token, lexer⟩ := r
    have hnew := hfits.lexer htaken.stored htaken.bounded
    cases token with
    | stop => exact ⟨none, _, rfl, hnew, by simp⟩
    | error text => exact ⟨some text, _, rfl, hnew, fun h => htaken.text (congrArg Token.error (Option.some.inj h))⟩
    | word k =>
      have hshort : lexer.rest.length < s.lexer.rest.length := by simpa using htaken.shorter
      dsimp only
      by_cases hfull : s.command.argc = argsMax
      · rw [if_pos hfull]
        exact ⟨_, _, rfl, hnew, by simp [tooLong]⟩
      · rw [if_neg hfull]
        have hc := Parse.fits_command hnew
        have hword : Command.Fits ⟨s.command.argv ++ [k], s.command.redirects⟩ lexer.storage := by
          refine ⟨?_, hc.redirects, fun m hm => ?_, hc.paths⟩
          · have := hc.argc
            unfold Command.argc at hfull this ⊢
            rw [List.length_append, List.length_singleton]
            dsimp only at this
            omega
          · rcases List.mem_append.1 hm with hm | hm
            · exact hc.argv m hm
            · obtain rfl := List.mem_singleton.1 hm
              exact htaken.points m rfl
        exact ih (hnew.update hword s.compound) (htaken.room (by simp)) (by dsimp only; omega)
    | pipe =>
      have hshort : lexer.rest.length < s.lexer.rest.length := by simpa using htaken.shorter
      dsimp only
      by_cases hnone : s.command.argc = 0
      · rw [if_pos hnone]
        exact ⟨_, _, rfl, hnew, by simp [tooLong]⟩
      rw [if_neg hnone]
      by_cases hstages : s.done.length + 1 = stagesMax
      · rw [if_pos hstages]
        exact ⟨_, _, rfl, hnew, by simp [tooLong]⟩
      · rw [if_neg hstages]
        refine @ih ⟨lexer, s.done ++ [s.command], .empty, true⟩ ⟨hnew.storage, ?_, fun c hc => ?_⟩ (htaken.room (by simp))
          (by dsimp only; omega)
        · have := hnew.commands
          simp only [Parse.plan, List.length_append, List.length_singleton] at this ⊢
          omega
        · rcases List.mem_append.1 hc with hc | hc
          · exact hnew.command c hc
          · obtain rfl := List.mem_singleton.1 hc
            exact Command.fits_empty _
    | redirect kind =>
      have hshort : lexer.rest.length < s.lexer.rest.length := by simpa using htaken.shorter
      dsimp only
      by_cases hfull : s.command.redirects.length = redirectsMax
      · rw [if_pos hfull]
        exact ⟨_, _, rfl, hnew, by simp [tooLong]⟩
      rw [if_neg hfull]
      have htarget := next_taken (htaken.room (by simp))
      generalize next lexer = r at htarget
      obtain ⟨target, lexer'⟩ := r
      have hlater := hnew.lexer htarget.stored htarget.bounded
      cases target with
      | error text => exact ⟨some text, _, rfl, hlater, fun h => htarget.text (congrArg Token.error (Option.some.inj h))⟩
      | stop => exact ⟨_, _, rfl, hlater, by simp [tooLong]⟩
      | pipe => exact ⟨_, _, rfl, hlater, by simp [tooLong]⟩
      | redirect kind' => exact ⟨_, _, rfl, hlater, by simp [tooLong]⟩
      | word k =>
        have hshort' : lexer'.rest.length < lexer.rest.length := by simpa using htarget.shorter
        have hc := Parse.fits_command hlater
        have hpath : Command.Fits ⟨s.command.argv, s.command.redirects ++ [⟨kind, k⟩]⟩ lexer'.storage := by
          refine ⟨hc.argc, ?_, hc.argv, fun r hr => ?_⟩
          · have := hc.redirects
            dsimp only at this ⊢
            rw [List.length_append, List.length_singleton]
            omega
          · rcases List.mem_append.1 hr with hr | hr
            · exact hc.paths r hr
            · obtain rfl := List.mem_singleton.1 hr
              exact htarget.points k rfl
        exact ih (hlater.update hpath true) (htarget.room (by simp)) (by dsimp only; omega)

theorem checkLine_length {length : Nat} {line : List UInt8} (hlt : length < lineMax) :
    (checkLine length line = none → length + line.length < lineMax) ∧
    (checkLine length line = some tooLong → lineMax ≤ length + line.length) := by
  induction line generalizing length with
  | nil => exact ⟨fun _ => hlt, by simp [checkLine]⟩
  | cons c line ih =>
    unfold checkLine
    rw [List.length_cons]
    by_cases hnew : c = 0x0a ∨ c = 0x0d
    · rw [if_pos hnew]
      exact ⟨by simp, by simp [tooLong]⟩
    rw [if_neg hnew]
    by_cases hfull : length + 1 = lineMax
    · rw [if_pos hfull]
      exact ⟨by simp, fun _ => by omega⟩
    · rw [if_neg hfull]
      have := @ih (length + 1) (by omega)
      exact ⟨fun h => by have := this.1 h; omega, fun h => by have := this.2 h; omega⟩

/-- The name of a command that is ready to run. -/
def Command.Named (c : Command) (storage : List UInt8) : Prop := ∃ name, c.arg 0 = some name ∧ storage.getD name 0 ≠ 0

theorem checkStages_named {p : Plan} {cs : List Command} (h : checkStages p cs = none) : ∀ c ∈ cs, c.Named p.storage := by
  induction cs with
  | nil => exact fun c hc => absurd hc List.not_mem_nil
  | cons c cs ih =>
    unfold checkStages at h
    cases hargv : c.argv with
    | nil =>
      rw [hargv] at h
      cases h
    | cons name rest =>
      rw [hargv] at h
      dsimp only at h
      by_cases hempty : p.storage.getD name 0 = 0
      · rw [if_pos hempty] at h
        cases h
      · rw [if_neg hempty] at h
        intro d hd
        rcases List.mem_cons.1 hd with rfl | hd
        · exact ⟨name, by rw [Command.arg, hargv]; rfl, hempty⟩
        · exact ih h d hd

theorem checkStages_text {p : Plan} {cs : List Command} : checkStages p cs ≠ some tooLong := by
  induction cs with
  | nil => simp [checkStages]
  | cons c cs ih =>
    unfold checkStages
    split
    · simp [tooLong]
    · split
      · simp [tooLong]
      · exact ih

/-- What any line gives: a plan inside of its arrays. -/
structure Parsed (line : List UInt8) (e : Option String) (p : Plan) : Prop where
  fits : p.Fits
  failed : e ≠ none → p.count = 0
  text : (line.takeWhile (· ≠ 0)).length < lineMax → e ≠ some tooLong
  stages : p.count ≤ p.commands.length
  named : ∀ c ∈ p.commands.take p.count, c.Named p.storage
  ended : ∀ c ∈ p.commands, c.arg c.argc = none

theorem Command.arg_argc (c : Command) : c.arg c.argc = none := List.getElem?_eq_none (Nat.le_refl _)

theorem shellParse_parsed (line : List UInt8) : ∃ e p, shellParse line = some (e, p) ∧ Parsed line e p := by
  unfold shellParse
  dsimp only
  have hlength := @checkLine_length 0 (line.takeWhile (· ≠ 0)) (by decide)
  have hnone : ∀ (q : Plan), q.count = 0 → ∀ c ∈ q.commands.take q.count, c.Named q.storage := by
    intro q hq c hc
    rw [hq, List.take_zero] at hc
    exact absurd hc List.not_mem_nil
  cases hcheck : checkLine 0 (line.takeWhile (· ≠ 0)) with
  | some text =>
    refine ⟨_, _, rfl, ⟨Nat.zero_le _, by simp [stagesMax], fun c hc => ?_⟩, fun _ => rfl, fun hlt h => ?_, Nat.zero_le _, hnone _ rfl, fun c _ => c.arg_argc⟩
    · obtain rfl := List.mem_singleton.1 hc
      exact Command.fits_empty _
    · rw [hcheck, h] at hlength
      have := hlength.2 rfl
      omega
  | none =>
    have hlt := hlength.1 hcheck
    rw [Nat.zero_add] at hlt
    have hstart : (Parse.plan ⟨⟨line.takeWhile (· ≠ 0), []⟩, [], .empty, false⟩).Fits := by
      refine ⟨Nat.zero_le _, by simp [Parse.plan, stagesMax], fun c hc => ?_⟩
      obtain rfl := List.mem_singleton.1 hc
      exact Command.fits_empty _
    obtain ⟨e, t, htokens, hfits, htext⟩ := tokens_fits ((line.takeWhile (· ≠ 0)).length + 1) hstart
      (.inl (by simpa using hlt)) (Nat.lt_succ_self _)
    rw [htokens]
    cases e with
    | some text => exact ⟨_, _, rfl, hfits, fun _ => rfl, fun _ => htext, Nat.zero_le _, hnone _ rfl, fun c _ => c.arg_argc⟩
    | none =>
      refine ⟨t.finish.1, t.finish.2, rfl, ?_⟩
      unfold Parse.finish
      split
      · exact ⟨hfits, fun h => absurd rfl h, fun _ => by simp, Nat.zero_le _, hnone _ rfl, fun c _ => c.arg_argc⟩
      · cases hstages : checkStages t.plan t.plan.commands with
        | some text =>
          exact ⟨hfits, fun _ => rfl, fun _ h => checkStages_text (hstages.trans h), Nat.zero_le _, hnone _ rfl, fun c _ => c.arg_argc⟩
        | none =>
          refine ⟨⟨hfits.storage, hfits.commands, hfits.command⟩, fun h => absurd rfl h, fun _ => by simp, Nat.le_refl _,
            fun c hc => ?_, fun c _ => c.arg_argc⟩
          exact checkStages_named hstages c (List.mem_of_mem_take hc)

/-! ## Quoted words -/

/-- A word between single quotes; a quote in it is written as `'\''`. -/
def quoteBody (w : Name) : List UInt8 :=
  w.flatMap fun c => if c = quoteChar then [quoteChar, escapeChar, quoteChar, quoteChar] else [c]

def quoteWord (w : Name) : List UInt8 := quoteChar :: (quoteBody w ++ [quoteChar])

/-- Words joined by blanks. -/
def quoteLine : List Name → List UInt8
  | [] => []
  | w :: ws => quoteWord w ++ ws.flatMap fun w => blank :: quoteWord w

/-- Inside of quotes the word is stored as it is. -/
theorem lexWord_body (start : Nat) (w rest storage : List UInt8) (hroom : storage.length + w.length < lineMax) :
    lexWord start (some quoteChar) false (quoteBody w ++ rest) storage = lexWord start (some quoteChar) false rest (storage ++ w) := by
  induction w generalizing storage with
  | nil => rw [List.append_nil]; rfl
  | cons c w ih =>
    rw [List.length_cons] at hroom
    have hnext := ih (storage ++ [c]) (by rw [List.length_append, List.length_singleton]; omega)
    rw [List.append_assoc, List.singleton_append] at hnext
    rw [← hnext, quoteBody, List.flatMap_cons, List.append_assoc]
    by_cases hc : c = quoteChar
    · -- the quote is closed, escaped outside and opened again
      subst hc
      rw [if_pos rfl]
      show lexWord start (some quoteChar) false (quoteChar :: escapeChar :: quoteChar :: quoteChar :: (quoteBody w ++ rest)) storage = _
      rw [lexWord.eq_def]
      dsimp only
      rw [if_neg (by decide), if_neg (by decide), if_pos rfl, lexWord.eq_def]
      dsimp only
      rw [if_neg (by decide), if_neg (by decide), if_neg (by decide), if_pos (by decide), if_neg (by decide), emit_some (by omega)]
      dsimp only
      rw [lexWord.eq_def]
      dsimp only
      rw [if_neg (by decide), if_pos (by decide)]
    · rw [if_neg hc, List.singleton_append, lexWord.eq_def]
      dsimp only
      rw [if_neg (by simp), if_neg (by simp), if_neg (by simpa using Ne.symm hc), if_neg (by simp), emit_some (by omega)]
      rfl

/-- A quoted word before a blank or the end of the line. -/
theorem next_quoteWord {before rest storage : List UInt8} {w : Name} (hbefore : before = [] ∨ before = [blank])
    (hrest : ∀ c ∈ rest.head?, c = blank) (hroom : storage.length + w.length < lineMax) :
    next ⟨before ++ (quoteWord w ++ rest), storage⟩ = (.word storage.length, ⟨rest, storage ++ w ++ [0]⟩) := by
  have hskip : (before ++ (quoteWord w ++ rest)).dropWhile space = quoteChar :: (quoteBody w ++ quoteChar :: rest) := by
    have hword : quoteWord w ++ rest = quoteChar :: (quoteBody w ++ quoteChar :: rest) := by
      rw [quoteWord, List.cons_append, List.append_assoc]
      rfl
    rw [hword]
    rcases hbefore with rfl | rfl
    · exact List.dropWhile_cons_of_neg (by decide)
    · rw [List.singleton_append, List.dropWhile_cons_of_pos (by decide), List.dropWhile_cons_of_neg (by decide)]
  have hsep : ∀ c ∈ rest.head?, (space c || operator c) = true := by
    intro c hc
    rw [hrest c hc]
    rfl
  have hend : lexWord storage.length none false rest (storage ++ w) =
      (.word storage.length, ⟨rest, storage ++ w ++ [0]⟩) := by
    have hemit : emit (storage ++ w) 0 = some (storage ++ w ++ [0]) := emit_some (by rw [List.length_append]; exact hroom) 0
    have hfinish : endWord storage.length none false rest (storage ++ w) = (.word storage.length, ⟨rest, storage ++ w ++ [0]⟩) := by
      unfold endWord
      rw [if_neg (by decide), Bool.false_and, if_neg (by decide), hemit]
    cases rest with
    | nil => exact hfinish
    | cons c rest =>
      rw [lexWord.eq_def]
      dsimp only
      rw [if_pos ⟨rfl, hsep c rfl⟩]
      exact hfinish
  unfold next
  dsimp only
  rw [hskip]
  dsimp only
  rw [if_neg (by decide), lexWord.eq_def]
  dsimp only
  rw [if_neg (by decide), if_pos (by decide), lexWord_body _ _ _ _ hroom, lexWord.eq_def]
  dsimp only
  rw [if_neg (by simp), if_neg (by simp), if_pos rfl]
  exact hend

/-- Where the words begin that are stored one after another. -/
def starts : Nat → List Name → List Nat
  | _, [] => []
  | n, w :: ws => n :: starts (n + w.length + 1) ws

/-- The words in the storage, each with its end. -/
def stored (ws : List Name) : List UInt8 := ws.flatMap fun w => w ++ [0]

theorem length_starts (n : Nat) (ws : List Name) : (starts n ws).length = ws.length := by
  induction ws generalizing n with
  | nil => rfl
  | cons w ws ih => rw [starts, List.length_cons, List.length_cons, ih]

theorem tokens_words (rounds : Nat) (ws : List Name) (s : Parse) (hrest : s.lexer.rest = ws.flatMap fun w => blank :: quoteWord w)
    (hrounds : ws.length < rounds) (hroom : s.lexer.storage.length + (stored ws).length ≤ lineMax)
    (hargs : s.command.argc + ws.length ≤ argsMax) :
    tokens rounds s = some (none, { s with
      lexer := ⟨[], s.lexer.storage ++ stored ws⟩
      command := { s.command with argv := s.command.argv ++ starts s.lexer.storage.length ws } }) := by
  induction rounds generalizing ws s with
  | zero => exact absurd hrounds (Nat.not_lt_zero _)
  | succ rounds ih =>
    obtain ⟨⟨rest, storage⟩, done, command, compound⟩ := s
    dsimp only at hrest hroom hargs ⊢
    subst hrest
    unfold tokens
    cases ws with
    | nil =>
      simp only [List.flatMap_nil, next, List.dropWhile_nil, stored, starts, List.append_nil]
    | cons w ws =>
      have hstored : stored (w :: ws) = w ++ [0] ++ stored ws := List.flatMap_cons
      rw [hstored, List.length_append, List.length_append, List.length_singleton] at hroom
      rw [List.length_cons] at hargs hrounds
      have hnext := @next_quoteWord [blank] (ws.flatMap fun w => blank :: quoteWord w) storage w (.inr rfl) (fun c hc => ?_) (by omega)
      · rw [List.flatMap_cons, List.cons_append, ← List.singleton_append, hnext]
        dsimp only
        rw [if_neg (by unfold Command.argc at hargs ⊢; omega)]
        rw [ih ws ⟨⟨ws.flatMap fun w => blank :: quoteWord w, storage ++ w ++ [0]⟩, done, ⟨command.argv ++ [storage.length], command.redirects⟩, compound⟩ rfl (by omega)
          (by simp only [List.length_append, List.length_singleton]; omega)
          (by simp only [Command.argc, List.length_append, List.length_singleton] at hargs ⊢; omega)]
        simp only [hstored, starts, List.append_assoc, List.length_append, List.length_singleton, List.singleton_append, Nat.add_assoc]
      · cases ws with
        | nil => cases hc
        | cons v vs => exact (Option.mem_some.1 hc).symm

/-! ## The whole line -/

/-- A word that can be part of a line. -/
def Plain (w : Name) : Prop := ∀ c ∈ w, c ≠ 0 ∧ c ≠ 0x0a ∧ c ≠ 0x0d

theorem plain_quoteWord {w : Name} (h : Plain w) : Plain (quoteWord w) := by
  have hchars : ∀ c ∈ ([quoteChar, escapeChar, blank] : List UInt8), c ≠ 0 ∧ c ≠ 0x0a ∧ c ≠ 0x0d := by
    simp [quoteChar, escapeChar, blank]
  intro c hc
  rcases List.mem_cons.1 hc with rfl | hc
  · exact hchars _ (by simp)
  rcases List.mem_append.1 hc with hc | hc
  · obtain ⟨d, hd, hc⟩ := List.mem_flatMap.1 hc
    split at hc
    · simp only [List.mem_cons, List.not_mem_nil, or_false] at hc
      rcases hc with rfl | rfl | rfl | rfl <;> exact hchars _ (by simp)
    · obtain rfl := List.mem_singleton.1 hc
      exact h c hd
  · obtain rfl := List.mem_singleton.1 hc
    exact hchars _ (by simp)

theorem plain_quoteLine {ws : List Name} (h : ∀ w ∈ ws, Plain w) : Plain (quoteLine ws) := by
  cases ws with
  | nil => exact fun c hc => absurd hc List.not_mem_nil
  | cons w ws =>
    intro c hc
    rcases List.mem_append.1 hc with hc | hc
    · exact plain_quoteWord (h w (List.mem_cons_self ..)) c hc
    · obtain ⟨v, hv, hc⟩ := List.mem_flatMap.1 hc
      rcases List.mem_cons.1 hc with rfl | hc
      · exact ⟨by decide, by decide, by decide⟩
      · exact plain_quoteWord (h v (List.mem_cons_of_mem _ hv)) c hc

theorem checkLine_plain {length : Nat} {line : List UInt8} (h : Plain line) (hlt : length + line.length < lineMax) :
    checkLine length line = none := by
  induction line generalizing length with
  | nil => rfl
  | cons c line ih =>
    rw [List.length_cons] at hlt
    have hc := h c (List.mem_cons_self ..)
    unfold checkLine
    rw [if_neg (by simp [hc]), if_neg (by omega)]
    exact ih (fun d hd => h d (List.mem_cons_of_mem _ hd)) (by omega)

theorem length_quoteWord (w : Name) : w.length + 2 ≤ (quoteWord w).length := by
  have hbody : w.length ≤ (quoteBody w).length := by
    induction w with
    | nil => exact Nat.zero_le _
    | cons c w ih =>
      rw [quoteBody, List.flatMap_cons, List.length_append, List.length_cons]
      have : 1 ≤ (if c = quoteChar then [quoteChar, escapeChar, quoteChar, quoteChar] else [c]).length := by
        split
        · exact Nat.le_add_left 1 3
        · exact Nat.le_refl 1
      unfold quoteBody at ih
      omega
  rw [quoteWord, List.length_cons, List.length_append, List.length_singleton]
  omega

theorem length_stored (ws : List Name) : (stored ws).length + ws.length ≤ (ws.flatMap fun w => blank :: quoteWord w).length := by
  induction ws with
  | nil => exact Nat.le_refl _
  | cons w ws ih =>
    have := length_quoteWord w
    unfold stored at ih ⊢
    simp only [List.flatMap_cons, List.length_append, List.length_cons, List.length_nil]
    omega

/-- The strings that begin where the words were stored. -/
theorem text_starts (before : List UInt8) {ws : List Name} (h : ∀ w ∈ ws, Plain w) :
    (starts before.length ws).map (fun k => ((before ++ stored ws).drop k).takeWhile (· ≠ 0)) = ws := by
  induction ws generalizing before with
  | nil => rfl
  | cons w ws ih =>
    have hw : (w ++ 0 :: stored ws).takeWhile (· ≠ 0) = w := by
      rw [List.takeWhile_append_of_pos fun c hc => by simpa using (h w (List.mem_cons_self ..) c hc).1]
      rw [List.takeWhile_cons_of_neg (by simp), List.append_nil]
    have hrest := ih (before ++ w ++ [0]) fun v hv => h v (List.mem_cons_of_mem _ hv)
    have hsame : before ++ stored (w :: ws) = before ++ w ++ [0] ++ stored ws := by
      unfold stored
      rw [List.flatMap_cons, ← List.append_assoc, ← List.append_assoc]
    have hlength : (before ++ w ++ [0]).length = before.length + w.length + 1 := by
      rw [List.length_append, List.length_append, List.length_singleton]
    rw [hlength] at hrest
    rw [starts, List.map_cons, hsame, hrest, List.append_assoc, List.append_assoc, List.drop_left]
    rw [List.singleton_append, hw]

/-- A line of quoted words is one simple command of these words. -/
theorem shellParse_quoteLine {w : Name} {ws : List Name} (hplain : ∀ v ∈ w :: ws, Plain v) (hname : w ≠ [])
    (hargs : (w :: ws).length ≤ argsMax) (hline : (quoteLine (w :: ws)).length < lineMax) :
    shellParse (quoteLine (w :: ws)) = some (none, ⟨1, false, [⟨starts 0 (w :: ws), []⟩], stored (w :: ws)⟩) := by
  have hall := plain_quoteLine hplain
  have hwhole : (quoteLine (w :: ws)).takeWhile (· ≠ 0) = quoteLine (w :: ws) :=
    List.takeWhile_eq_self_iff.2 fun c hc => by simpa using (hall c hc).1
  have hsplit : stored (w :: ws) = w ++ [0] ++ stored ws := List.flatMap_cons
  have hcount := length_stored ws
  have hquote := length_quoteWord w
  rw [List.length_cons] at hargs
  have hlength : (quoteLine (w :: ws)).length = (quoteWord w).length + (ws.flatMap fun w => blank :: quoteWord w).length := by
    rw [quoteLine, List.length_append]
  have htokens : tokens ((quoteLine (w :: ws)).length + 1) ⟨⟨quoteLine (w :: ws), []⟩, [], .empty, false⟩ =
      some (none, ⟨⟨[], stored (w :: ws)⟩, [], ⟨starts 0 (w :: ws), []⟩, false⟩) := by
    have hnext := @next_quoteWord [] (ws.flatMap fun w => blank :: quoteWord w) [] w (.inl rfl) (fun c hc => ?_) (by
      rw [List.length_nil]
      omega)
    · rw [List.nil_append] at hnext
      unfold tokens
      rw [show quoteLine (w :: ws) = quoteWord w ++ ws.flatMap fun w => blank :: quoteWord w from rfl, hnext]
      dsimp only
      rw [if_neg (by decide), tokens_words _ ws _ rfl (by rw [List.length_append]; omega)
        (by simp only [List.length_append, List.length_singleton, List.length_nil]; omega)
        (by simp only [Command.argc, Command.empty, List.length_append, List.length_singleton, List.length_nil]; omega)]
      simp only [hsplit, starts, List.nil_append, List.length_append, List.length_singleton, List.length_nil, Command.empty,
        List.singleton_append, Nat.zero_add]
    · cases ws with
      | nil => cases hc
      | cons v vs => exact (Option.mem_some.1 hc).symm
  obtain ⟨c, w, rfl⟩ := List.exists_cons_of_ne_nil hname
  have hc : ¬c = 0 := (hplain _ (List.mem_cons_self ..) c (List.mem_cons_self ..)).1
  unfold shellParse
  dsimp only
  rw [hwhole, checkLine_plain hall (by omega)]
  dsimp only
  rw [htokens]
  have hstages : checkStages ⟨0, false, [⟨starts 0 ((c :: w) :: ws), []⟩], stored ((c :: w) :: ws)⟩
      [⟨starts 0 ((c :: w) :: ws), []⟩] = none := by
    unfold checkStages
    dsimp only [starts]
    have hfirst : (stored ((c :: w) :: ws)).getD 0 0 = c := rfl
    rw [hfirst, if_neg hc]
    rfl
  refine congrArg some ?_
  have hplan : Parse.plan ⟨⟨[], stored ((c :: w) :: ws)⟩, [], ⟨starts 0 ((c :: w) :: ws), []⟩, false⟩ =
      ⟨0, false, [⟨starts 0 ((c :: w) :: ws), []⟩], stored ((c :: w) :: ws)⟩ := rfl
  unfold Parse.finish
  rw [hplan, hstages, if_neg (by simp [Command.argc, starts])]
  rfl

/-- Words that fit a line between quotes are parsed as they are, and every line whatsoever
is parsed inside of the arrays of the plan. -/
theorem shell_parse_quoted :
    (∀ (w : Name) (ws : List Name), (∀ v ∈ w :: ws, Plain v) → w ≠ [] → (w :: ws).length ≤ argsMax →
      (quoteLine (w :: ws)).length < lineMax → ∃ c p, shellParse (quoteLine (w :: ws)) = some (none, p) ∧
        p.count = 1 ∧ p.compound = false ∧ p.commands = [c] ∧ c.redirects = [] ∧ c.argv.map p.text = w :: ws) ∧
    ∀ line : List UInt8, ∃ e p, shellParse line = some (e, p) ∧ Parsed line e p := by
  refine ⟨fun w ws hplain hname hargs hline => ?_, shellParse_parsed⟩
  refine ⟨_, _, shellParse_quoteLine hplain hname hargs hline, rfl, rfl, rfl, rfl, ?_⟩
  exact text_starts [] hplain

/-- `echo 'it'\''s'` -/
theorem shell_parse_quoted_echo : ∃ c p, shellParse (quoteLine [[0x65, 0x63, 0x68, 0x6f], [0x69, 0x74, 0x27, 0x73]]) = some (none, p) ∧
    p.count = 1 ∧ p.compound = false ∧ p.commands = [c] ∧ c.redirects = [] ∧
    c.argv.map p.text = [[0x65, 0x63, 0x68, 0x6f], [0x69, 0x74, 0x27, 0x73]] :=
  shell_parse_quoted.1 _ _ (by simp [Plain]) (by decide) (by decide) (by decide)

end Barnix.Shell
