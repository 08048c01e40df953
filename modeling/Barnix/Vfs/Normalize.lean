import Barnix.Lib.Arrays
import Barnix.Path
import Mathlib.Data.List.TakeWhile
/-!
# Normalizing in place

`normalize` as `vfs.inc` runs it, over the arrays `input` and `out`, and what its
answer means: components are pushed on a stack, and `..` pops.
-/

namespace Barnix

namespace Cells

/-- `while (len > 1 && out[len - 1] != '/') len--` -/
def back (out : Cells) : Nat → Checked Nat
  | 0 => .ok 0
  | len + 1 =>
    if 0 < len then do
      let c ← out.peek len
      if c = slash then .ok (len + 1) else back out len
    else .ok (len + 1)

/-- The `..` branch: the length of `out` without its last component. -/
def pop (out : Cells) (len : Nat) : Checked Nat := do
  let len ← out.back len
  .ok (if 1 < len then len - 1 else len)

/-- The other branch: `size` bytes of `input` from `start` on become the last component. -/
def append (input : Cells) (start size : Nat) (out : Cells) (len : Nat) : Checked (Cells × Nat) :=
  if maxName < size ∨ pathCap ≤ len + size + 1 then .error .failed
  else if 1 < len then do
    let out ← out.poke len slash
    let out ← out.memcpy (len + 1) input start size
    .ok (out, len + 1 + size)
  else do
    let out ← out.memcpy len input start size
    .ok (out, len + size)

/-- `!size || (size == 1 && *start == '.')` -/
def skipped (input : Cells) (start size : Nat) : Checked Bool :=
  if size = 0 then .ok true
  else if size = 1 then do
    let c ← input.peek start
    .ok (c = 46)
  else .ok false

/-- `size == 2 && start[0] == '.' && start[1] == '.'` -/
def climbs (input : Cells) (start size : Nat) : Checked Bool :=
  if size = 2 then do
    let c ← input.peek start
    if c = 46 then do
      let d ← input.peek (start + 1)
      .ok (d = 46)
    else .ok false
  else .ok false

/-- One component, of `size` bytes at `start`. -/
def component (input : Cells) (start size : Nat) (out : Cells) (len : Nat) : Checked (Cells × Nat) := do
  if ← input.skipped start size then .ok (out, len)
  else if ← input.climbs start size then do
    let len ← out.pop len
    let out ← out.poke len 0
    .ok (out, len)
  else do
    let r ← input.append start size out len
    let out ← r.1.poke r.2 0
    .ok (out, r.2)

/-- `while (*p)`, for at most `n` rounds. -/
def walkFrom (input : Cells) : Nat → Nat → Cells → Nat → Checked Cells
  | 0, _, _, _ => .error .unfinished
  | n + 1, p, out, len => do
    let c ← input.peek p
    if c = 0 then .ok out
    else do
      let start ← input.scan (· = slash) (input.length + 1) p
      let stop ← input.scan (fun c => c ≠ 0 ∧ c ≠ slash) (input.length + 1) start
      let r ← input.component start (stop - start) out len
      walkFrom input n stop r.1 r.2

/-- `input`, with the name behind the working directory where it is relative. -/
def prepared (working name : Name) (input : Cells) : Checked Cells := do
  let input ← input.poke 0 0
  if name.head? = some slash then do
    let n ← input.strlen
    input.strcpy n name
  else do
    let input ← input.strcpy 0 working
    if ← input.strcmp [slash] then do
      let n ← input.strlen
      let input ← input.strcpy n [slash]
      let n ← input.strlen
      input.strcpy n name
    else do
      let n ← input.strlen
      input.strcpy n name

/-- `normalize`, with whatever the array `input` holds before. -/
def normalize (working name : Name) (input out : Cells) : Checked Cells :=
  if name = [] ∨ pathCap ≤ name.length then .error .failed
  else do
    let input ← input.prepared working name
    let out ← out.poke 0 slash
    let out ← out.poke 1 0
    input.walkFrom (input.length + 1) 0 out 1

end Cells

/-! ## The meaning -/

/-- The absolute paths without empty, `.` and `..` components that fit in an array of `PATH_CAP`. -/
def Canonical (path : Name) : Prop :=
  ∃ parts : List Name, path = render parts ∧ (∀ c ∈ parts, c ≠ [] ∧ slash ∉ c ∧ c ≠ dot ∧ c ≠ dotdot) ∧
    path.length < pathCap ∧ 0 ∉ path

/-- A component that names an entry, rather than saying where to stay or go up. -/
def Named (c : Name) : Prop := c ≠ [] ∧ c ≠ dot ∧ c ≠ dotdot

instance (c : Name) : Decidable (Named c) := inferInstanceAs (Decidable (_ ∧ _))

/-- The stack after one more component. -/
def push (stack : List Name) (c : Name) : List Name :=
  if Named c then stack ++ [c] else if c = dotdot then stack.dropLast else stack

/-- The answer of `normalize` over components, without the path's text. -/
def answer (working name : Name) : Option (List Name) :=
  if name = [] ∨ pathCap ≤ name.length then none else walk [] (components (absolute working name))

/-- What stands between the slashes of the working directory and of the name. -/
def spelled (working name : Name) : List Name :=
  (if name.head? = some slash then [] else working.splitOn slash) ++ name.splitOn slash

/-- The stack that a name means in a working directory. -/
def stacked (working name : Name) : List Name := (spelled working name).foldl push []

/-- Some component to be pushed is too long, or makes the path so far too long. -/
def TooLong (stack parts : List Name) : Prop :=
  ∃ before c after, parts = before ++ c :: after ∧ Named c ∧
    (maxName < c.length ∨ pathCap ≤ (render (before.foldl push stack ++ [c])).length)

/-- The names without a path in a working directory. -/
def Rejected (working name : Name) : Prop := name = [] ∨ pathCap ≤ name.length ∨ TooLong [] (spelled working name)

/-! ## One component -/

namespace Cells

theorem back_append (before : Cells) {comp : Name} (hcomp : slash ∉ comp) (rest : Cells) :
    (before ++ slash :: (comp ++ rest)).back (before.length + 1 + comp.length) = .ok (before.length + 1) := by
  induction comp using List.reverseRec generalizing rest with
  | nil =>
    rw [List.length_nil, Nat.add_zero, List.nil_append, back]
    by_cases hb : 0 < before.length
    · rw [if_pos hb, peek_append, ok_bind, if_pos rfl]
    · rw [if_neg hb]
  | append_singleton comp c ih =>
    have hc : c ≠ slash := fun h => hcomp (by simp [h])
    have hpeek := peek_append (before ++ slash :: comp) c rest
    have hlen : (before ++ slash :: comp).length = before.length + 1 + comp.length := by simp; omega
    have hstep := ih (fun h => hcomp (by simp [h])) (c :: rest)
    rw [hlen] at hpeek
    rw [List.length_append, List.length_singleton, ← Nat.add_assoc,
      show before ++ slash :: (comp ++ [c] ++ rest) = before ++ slash :: comp ++ c :: rest by simp, back,
      if_pos (by omega), hpeek, ok_bind, if_neg hc]
    simpa using hstep

theorem render_concat (parts : List Name) (c : Name) : render (parts ++ [c]) = joined parts ++ slash :: c := by
  rw [render_of_ne_nil (by simp), joined_append, joined_cons, joined_nil, List.append_nil]

theorem pop_holds {out : Cells} {parts : List Name} (h : out.Holds (render parts)) (hparts : ∀ c ∈ parts, slash ∉ c) :
    out.pop (render parts).length = .ok (render parts.dropLast).length := by
  obtain ⟨-, rest, rfl⟩ := h
  rcases List.eq_nil_or_concat parts with rfl | ⟨parts, c, rfl⟩
  · rfl
  have hback := back_append (joined parts) (hparts c (by simp)) (0 :: rest)
  have hlen : (render (parts ++ [c])).length = (joined parts).length + 1 + c.length := by
    rw [render_concat]
    simp
    omega
  rw [List.concat_eq_append, pop, hlen, render_concat, List.append_assoc, List.cons_append, hback, ok_bind, List.dropLast_concat]
  cases parts with
  | nil => rfl
  | cons d parts =>
    rw [render_of_ne_nil (List.cons_ne_nil d parts), if_pos (by simp)]
    rfl

theorem skipped_append (before : Cells) (comp : Name) (rest : Cells) :
    (before ++ comp ++ rest).skipped before.length comp.length = .ok (decide (comp = [] ∨ comp = dot)) := by
  match comp with
  | [] => rfl
  | [c] =>
    rw [List.append_assoc, List.singleton_append, skipped, if_neg (by simp), if_pos List.length_singleton, peek_append, ok_bind]
    simp [dot]
  | c :: d :: comp =>
    rw [skipped, if_neg (by simp), if_neg (by simp)]
    simp [dot]

theorem climbs_append (before : Cells) (comp : Name) (rest : Cells) :
    (before ++ comp ++ rest).climbs before.length comp.length = .ok (decide (comp = dotdot)) := by
  match comp with
  | [] => rfl
  | [c] =>
    rw [climbs, if_neg (by simp)]
    simp [dotdot]
  | [c, d] =>
    have hpeek := peek_append (before ++ [c]) d rest
    rw [climbs, if_pos (by simp), show before ++ [c, d] ++ rest = before ++ c :: (d :: rest) by simp, peek_append, ok_bind]
    rw [List.append_assoc, List.length_append, List.length_singleton, List.singleton_append] at hpeek
    by_cases hc : c = 46
    · rw [if_pos hc, hpeek, ok_bind]
      simp [dotdot, hc]
    · rw [if_neg hc]
      simp [dotdot, hc]
  | c :: d :: e :: comp =>
    rw [climbs, if_neg (by simp)]
    simp [dotdot]

/-- `out` holds the path of these components. -/
def HoldsPath (out : Cells) (parts : List Name) : Prop :=
  out.Holds (render parts) ∧ out.length = pathCap ∧ ∀ c ∈ parts, c ≠ [] ∧ slash ∉ c

/-- The end of the path is cut off, or a byte put there anew. -/
theorem poke_end {before : Cells} {c : UInt8} {rest : Cells} (h : 0 ∉ before) (hlen : (before ++ c :: rest).length = pathCap) :
    ∃ out, (before ++ c :: rest).poke before.length 0 = .ok out ∧ out.Holds before ∧ out.length = pathCap :=
  ⟨_, poke_append before c 0 rest, ⟨h, rest, rfl⟩, by simpa using hlen⟩

theorem append_holds (before : Cells) {comp : Name} (hnul : 0 ∉ comp) (rest : Cells) {out : Cells} {parts : List Name}
    (hout : out.HoldsPath parts) (hname : comp.length ≤ maxName)
    (hfits : (render parts).length + comp.length + 1 < pathCap) :
    ∃ c rest', 0 ∉ render (parts ++ [comp]) ∧ (render (parts ++ [comp]) ++ c :: rest').length = pathCap ∧
      append (before ++ comp ++ rest) before.length comp.length out (render parts).length =
        .ok (render (parts ++ [comp]) ++ c :: rest', (render (parts ++ [comp])).length) := by
  obtain ⟨⟨h0, tail, rfl⟩, hlen, hparts⟩ := hout
  have hnul' : 0 ∉ render (parts ++ [comp]) := by
    rw [render_concat]
    cases parts with
    | nil => simpa [slash] using hnul
    | cons d parts =>
      rw [render_of_ne_nil (List.cons_ne_nil d parts)] at h0
      simp only [List.mem_append, List.mem_cons, not_or]
      exact ⟨h0, by decide, hnul⟩
  rw [append, if_neg (by omega)]
  cases parts with
  | nil =>
    -- the first component comes right behind the slash of the root
    obtain ⟨c, rest', hcopy, hlen'⟩ := memcpy_room (show render [] ++ 0 :: tail = render [] ++ 0 :: tail from rfl)
      before comp rest (by rw [hlen]; omega)
    refine ⟨c, rest', hnul', by rw [render_concat]; exact hlen'.trans hlen, ?_⟩
    rw [if_neg (by simp), hcopy, ok_bind, render_concat]
    simp
    omega
  | cons d parts =>
    have hr : render (d :: parts) = joined (d :: parts) := render_of_ne_nil (List.cons_ne_nil d parts)
    obtain ⟨c, rest', hcopy, hlen'⟩ := memcpy_room
      (show render (d :: parts) ++ slash :: tail = render (d :: parts) ++ [slash] ++ tail by simp) before comp rest
      (by simp at hlen ⊢; omega)
    have hshape : render (d :: parts ++ [comp]) = render (d :: parts) ++ [slash] ++ comp := by
      rw [render_concat, hr, List.append_assoc, List.singleton_append]
    refine ⟨c, rest', hnul', by rw [hshape, hlen', ← hlen]; simp, ?_⟩
    have hd : 1 < (render (d :: parts)).length := by
      have := List.length_pos_of_ne_nil (hparts d (by simp)).1
      rw [hr]
      simp
      omega
    rw [if_pos hd, poke_append, ok_bind,
      show (render (d :: parts)).length + 1 = (render (d :: parts) ++ [slash]).length by simp, hcopy, ok_bind, hshape]
    rw [show (render (d :: parts) ++ [slash] ++ comp).length = (render (d :: parts) ++ [slash]).length + comp.length from
      List.length_append]

/-- The path without its last component is where it was. -/
theorem Holds.parent {out : Cells} {parts : List Name} (h : out.Holds (render parts)) :
    ∃ c rest, out = render parts.dropLast ++ c :: rest ∧ 0 ∉ render parts.dropLast := by
  obtain ⟨hnul, tail, rfl⟩ := h
  rcases List.eq_nil_or_concat parts with rfl | ⟨parts, d, rfl⟩
  · exact ⟨0, tail, rfl, hnul⟩
  rw [List.concat_eq_append, List.dropLast_concat]
  rw [List.concat_eq_append, render_concat] at hnul
  rw [render_concat]
  cases parts with
  | nil =>
    cases d with
    | nil => exact ⟨0, tail, rfl, by decide⟩
    | cons c d => exact ⟨c, d ++ 0 :: tail, rfl, by decide⟩
  | cons e parts =>
    rw [render_of_ne_nil (List.cons_ne_nil e parts)]
    exact ⟨slash, d ++ 0 :: tail, by simp, fun h0 => hnul (List.mem_append_left _ h0)⟩

/-- What the code shows of an answer of `walk`: its failure, or the path in `out`. -/
def Shows (r : Checked (Cells × Nat)) : Option (List Name) → Prop
  | none => r = .error .failed
  | some parts => ∃ out, r = .ok (out, (render parts).length) ∧ out.HoldsPath parts

theorem component_shows (before : Cells) {comp : Name} (hcomp : 0 ∉ comp ∧ slash ∉ comp) (rest : Cells) {out : Cells}
    {parts : List Name} (hout : out.HoldsPath parts) :
    Shows (component (before ++ comp ++ rest) before.length comp.length out (render parts).length)
      (walk parts (if comp = [] then [] else [comp])) := by
  obtain ⟨hholds, hlen, hparts⟩ := hout
  rw [component, skipped_append, ok_bind]
  by_cases hempty : comp = []
  · rw [if_pos hempty, if_pos (by simp [hempty])]
    exact ⟨out, rfl, hholds, hlen, hparts⟩
  rw [if_neg hempty, walk]
  by_cases hdot : comp = dot
  · rw [if_pos hdot, if_pos (by simp [hdot])]
    exact ⟨out, rfl, hholds, hlen, hparts⟩
  rw [if_neg hdot, if_neg (by simp [hempty, hdot]), climbs_append, ok_bind]
  by_cases hdotdot : comp = dotdot
  · rw [if_pos hdotdot, if_pos (by simp [hdotdot]), pop_holds hholds fun c hc => (hparts c hc).2, ok_bind]
    obtain ⟨c, rest', hshape, hnul⟩ := hholds.parent
    rw [hshape] at hlen ⊢
    obtain ⟨out', hpoke, hout'⟩ := poke_end hnul hlen
    rw [hpoke, ok_bind]
    exact ⟨out', rfl, hout'.1, hout'.2, fun d hd => hparts d (List.dropLast_subset _ hd)⟩
  · rw [if_neg hdotdot, if_neg (by simp [hdotdot])]
    by_cases hfit : maxName < comp.length ∨ pathCap ≤ (render parts).length + comp.length + 1
    · rw [if_pos hfit, append, if_pos hfit]
      rfl
    · obtain ⟨c, rest', hnul, hlen', happend⟩ :=
        append_holds before hcomp.1 rest ⟨hholds, hlen, hparts⟩ (by omega) (by omega)
      obtain ⟨out', hpoke, hout'⟩ := poke_end hnul hlen'
      rw [if_neg hfit, happend, ok_bind, hpoke, ok_bind]
      refine ⟨out', rfl, hout'.1, hout'.2, fun d hd => ?_⟩
      rcases List.mem_append.1 hd with hd | hd
      · exact hparts d hd
      · obtain rfl := List.mem_singleton.1 hd
        exact ⟨hempty, hcomp.2⟩

/-! ## The loop -/

/-- A text as the slashes it starts with, the component behind them, and the rest. -/
theorem exists_component (text : Name) :
    ∃ slashes comp rest, text = slashes ++ comp ++ rest ∧ (∀ c ∈ slashes, c = slash) ∧ slash ∉ comp ∧
      (rest = [] ∨ rest.head? = some slash ∧ comp ≠ []) ∧
      components text = (if comp = [] then [] else [comp]) ++ components rest := by
  induction text with
  | nil => exact ⟨[], [], [], rfl, nofun, by simp, .inl rfl, rfl⟩
  | cons c text ih =>
    by_cases hc : c = slash
    · obtain ⟨slashes, comp, rest, rfl, hslashes, h⟩ := ih
      subst hc
      refine ⟨slash :: slashes, comp, rest, rfl, ?_, h.1, h.2.1, ?_⟩
      · intro d hd
        rcases List.mem_cons.1 hd with rfl | hd
        · rfl
        · exact hslashes d hd
      · rw [components_cons_slash]
        exact h.2.2
    have hsplit := List.takeWhile_append_dropWhile (p := (· ≠ slash)) (l := c :: text)
    have hrest := List.head?_dropWhile_not (· ≠ slash) (c :: text)
    have hcomp : (c :: text).takeWhile (· ≠ slash) ≠ [] := by simp [hc]
    have hslash : slash ∉ (c :: text).takeWhile (· ≠ slash) := fun h => by
      simpa using List.mem_takeWhile_imp h
    generalize (c :: text).takeWhile (· ≠ slash) = comp at *
    generalize (c :: text).dropWhile (· ≠ slash) = rest at *
    refine ⟨[], comp, rest, hsplit.symm, nofun, hslash, ?_, ?_⟩
    · cases rest with
      | nil => exact .inl rfl
      | cons d rest => exact .inr ⟨by simpa using hrest, hcomp⟩
    · rw [← hsplit, if_neg hcomp]
      cases rest with
      | nil => rw [List.append_nil, components_name hcomp hslash]; rfl
      | cons d rest =>
        obtain rfl : d = slash := by simpa using hrest
        rw [components_append, components_name hcomp hslash, components_cons_slash]

theorem walk_append (out a b : List Name) : walk out (a ++ b) = (walk out a).bind fun out => walk out b := by
  induction a generalizing out with
  | nil => rfl
  | cons c a ih =>
    rw [List.cons_append, walk, walk]
    split
    · exact ih out
    split
    · exact ih out.dropLast
    split
    · rfl
    · exact ih (out ++ [c])

/-- What the whole loop shows of an answer of `walk`. -/
def Ended (r : Checked Cells) : Option (List Name) → Prop
  | none => r = .error .failed
  | some parts => ∃ out, r = .ok out ∧ out.HoldsPath parts

/-- The loop from the text that is left, which is shorter after every round. -/
theorem walkFrom_ended {text : Name} (h0 : 0 ∉ text) (before rest : Cells) {out : Cells} {parts : List Name}
    (hout : out.HoldsPath parts) {n : Nat} (hn : text.length < n) :
    Ended (walkFrom (before ++ text ++ 0 :: rest) n before.length out (render parts).length)
      (walk parts (components text)) := by
  induction n generalizing text before out parts with
  | zero => omega
  | succ n ih =>
    rw [walkFrom]
    cases htext : text with
    | nil =>
      rw [List.append_nil, peek_append, ok_bind, if_pos rfl]
      exact ⟨out, rfl, hout⟩
    | cons c tail =>
    have hc : c ≠ 0 := fun h => h0 (by simp [htext, h])
    rw [show before ++ c :: tail ++ 0 :: rest = before ++ c :: (tail ++ 0 :: rest) by simp, peek_append, ok_bind, if_neg hc,
      show before ++ c :: (tail ++ 0 :: rest) = before ++ (c :: tail) ++ 0 :: rest by simp, ← htext]
    obtain ⟨slashes, comp, next, hparts, hslashes, hcomp, hnext, hcomponents⟩ := exists_component text
    have hcomp0 : 0 ∉ comp := fun h => h0 (by simp [hparts, h])
    have hnext0 : 0 ∉ next := fun h => h0 (by simp [hparts, h])
    -- the first scan stops behind the slashes, the second one behind the component
    obtain ⟨d, tail', htail', hd⟩ : ∃ d tail', comp ++ next ++ 0 :: rest = d :: tail' ∧ d ≠ slash := by
      cases comp with
      | nil =>
        obtain rfl : next = [] := by simpa using hnext
        exact ⟨0, rest, rfl, by decide⟩
      | cons d comp => exact ⟨d, _, rfl, fun h => hcomp (by simp [h])⟩
    obtain ⟨e, tail'', htail'', he⟩ : ∃ e tail'', next ++ 0 :: rest = e :: tail'' ∧ (e = 0 ∨ e = slash) := by
      cases next with
      | nil => exact ⟨0, rest, rfl, .inl rfl⟩
      | cons e next => exact ⟨e, _, rfl, .inr (by simpa using hnext.resolve_left (List.cons_ne_nil e next) |>.1)⟩
    have hrounds : slashes.length + comp.length < (before ++ text ++ 0 :: rest).length + 1 := by
      rw [hparts]
      simp
      omega
    have hlen : (before ++ slashes).length = before.length + slashes.length := List.length_append
    have hfirst := scan_append before (f := (· = slash)) (fun b (hb : b ∈ slashes) => decide_eq_true (hslashes b hb))
      (decide_eq_false hd) tail' (n := (before ++ text ++ 0 :: rest).length + 1) (by omega)
    have hsecond := scan_append (before ++ slashes) (f := fun b => b ≠ 0 ∧ b ≠ slash)
      (fun b (hb : b ∈ comp) => decide_eq_true ⟨fun h => hcomp0 (h ▸ hb), fun h => hcomp (h ▸ hb)⟩)
      (decide_eq_false fun h => he.elim h.1 h.2) tail'' (n := (before ++ text ++ 0 :: rest).length + 1) (by omega)
    rw [show before ++ slashes ++ d :: tail' = before ++ text ++ 0 :: rest by rw [hparts, ← htail']; simp] at hfirst
    rw [show before ++ slashes ++ comp ++ e :: tail'' = before ++ text ++ 0 :: rest by rw [hparts, ← htail'']; simp,
      hlen] at hsecond
    rw [hfirst, ok_bind, hsecond, ok_bind, Nat.add_sub_cancel_left, hcomponents, walk_append]
    have hround := component_shows (before ++ slashes) ⟨hcomp0, hcomp⟩ (next ++ 0 :: rest) hout
    rw [show before ++ slashes ++ comp ++ (next ++ 0 :: rest) = before ++ text ++ 0 :: rest by rw [hparts]; simp,
      hlen] at hround
    cases hwalk : walk parts (if comp = [] then [] else [comp]) with
    | none =>
      rw [hwalk] at hround
      rw [show component _ _ _ _ _ = _ from hround]
      rfl
    | some parts' =>
      rw [hwalk] at hround
      obtain ⟨out', hrun, hout'⟩ := hround
      rw [hrun, ok_bind, Option.bind_some]
      have hshorter : next.length < text.length := by
        have hlen := congrArg List.length hparts
        simp only [List.length_append] at hlen
        rcases hnext with rfl | ⟨-, hne⟩
        · rw [htext]
          simp
        · have := List.length_pos_of_ne_nil hne
          omega
      have hstep := ih hnext0 (before ++ slashes ++ comp) hout' (by omega)
      rw [show before ++ slashes ++ comp ++ next ++ 0 :: rest = before ++ text ++ 0 :: rest by rw [hparts]; simp,
        List.length_append, hlen] at hstep
      exact hstep

/-! ## The whole function -/

/-- `input` has room for the longest working directory, a slash, the longest name and its NUL. -/
theorem prepared_holds {working name : Name} (hworking : 0 ∉ working) (hname : 0 ∉ name)
    (hfit : working.length + name.length + 1 < 2 * pathCap) {input : Cells} (hinput : input.length = 2 * pathCap) :
    ∃ input', input.prepared working name = .ok input' ∧ input'.Holds (absolute working name) ∧
      input'.length = 2 * pathCap := by
  have hcopy : ∀ {a : Cells} {s t : List UInt8}, a.Holds s → 0 ∉ t → a.length = 2 * pathCap →
      s.length + t.length < 2 * pathCap →
      ∃ a', a.strcpy s.length t = .ok a' ∧ a'.Holds (s ++ t) ∧ a'.length = 2 * pathCap := by
    rintro a s t ⟨hs, rest, rfl⟩ ht hlen hroom
    obtain ⟨rest', hrun, hlen'⟩ := strcpy_append (show s ++ 0 :: rest = s ++ 0 :: rest from rfl)
      (show s.length + t.length < (s ++ 0 :: rest).length by omega)
    exact ⟨_, hrun, ⟨by simp [hs, ht], rest', rfl⟩, hlen'.trans hlen⟩
  obtain ⟨c, rest, rfl⟩ : ∃ c rest, input = c :: rest := by
    cases input with
    | nil => simp [pathCap] at hinput
    | cons c rest => exact ⟨c, rest, rfl⟩
  have hempty : Holds (0 :: rest) [] := ⟨by simp, rest, rfl⟩
  rw [prepared, show poke (c :: rest) 0 0 = .ok (0 :: rest) from poke_append [] c 0 rest, ok_bind, absolute]
  by_cases habs : name.head? = some slash
  · obtain ⟨a, hrun, ha, hlen⟩ := hcopy hempty hname hinput (by simp; omega)
    rw [if_pos habs, if_pos habs, strlen_holds hempty, ok_bind, hrun]
    exact ⟨a, rfl, ha, hlen⟩
  obtain ⟨a, hrun, ha, hlen⟩ := hcopy hempty hworking hinput (by simp; omega)
  rw [List.nil_append] at ha
  rw [if_neg habs, if_neg habs, show strcpy (0 :: rest) 0 working = .ok a from hrun, ok_bind,
    strcmp_holds ha (by decide), ok_bind]
  by_cases hroot : working = [slash]
  · obtain ⟨a', hrun', ha', hlen'⟩ := hcopy ha hname hlen (by omega)
    rw [if_pos hroot, if_neg (by simp [hroot]), strlen_holds ha, ok_bind, hrun']
    exact ⟨a', rfl, ha', hlen'⟩
  · obtain ⟨b, hrunb, hb, hlenb⟩ := hcopy (t := [slash]) ha (by decide) hlen (by simp; omega)
    obtain ⟨a', hrun', ha', hlen'⟩ := hcopy hb hname hlenb (by simp; omega)
    rw [if_neg hroot, if_pos (by simp [hroot]), strlen_holds ha, ok_bind, hrunb, ok_bind, strlen_holds hb, ok_bind, hrun']
    exact ⟨a', rfl, ha', hlen'⟩

/-- The code computes the answer of the model by components, in the room it has. -/
theorem normalize_ended {working name : Name} (hworking : 0 ∉ working) (hlong : working.length < pathCap)
    (hname : 0 ∉ name) {input out : Cells} (hinput : input.length = 2 * pathCap) (hout : out.length = pathCap) :
    Ended (normalize working name input out)
      (answer working name) := by
  rw [normalize, answer]
  by_cases hbad : name = [] ∨ pathCap ≤ name.length
  · rw [if_pos hbad, if_pos hbad]
    rfl
  obtain ⟨input', hrun, ⟨h0, rest, rfl⟩, -⟩ := prepared_holds hworking hname (by omega) hinput
  obtain ⟨c, d, tail, rfl⟩ : ∃ c d tail, out = c :: d :: tail := by
    cases out with
    | nil => simp [pathCap] at hout
    | cons c out =>
      cases out with
      | nil => simp [pathCap] at hout
      | cons d tail => exact ⟨c, d, tail, rfl⟩
  have hroot : HoldsPath (slash :: 0 :: tail) [] :=
    ⟨⟨by decide, tail, rfl⟩, hout, fun c hc => absurd hc List.not_mem_nil⟩
  rw [if_neg hbad, if_neg hbad, hrun, ok_bind,
    show poke (c :: d :: tail) 0 slash = .ok (slash :: d :: tail) from poke_append [] c slash (d :: tail), ok_bind,
    show poke (slash :: d :: tail) 1 0 = .ok (slash :: 0 :: tail) from poke_append [slash] d 0 tail, ok_bind]
  exact walkFrom_ended h0 [] rest hroot (by rw [List.length_append]; omega)

end Cells

/-! ## The stack -/

theorem tooLong_cons (stack : List Name) (c : Name) (parts : List Name) : TooLong stack (c :: parts) ↔
    Named c ∧ (maxName < c.length ∨ pathCap ≤ (render (stack ++ [c])).length) ∨ TooLong (push stack c) parts := by
  constructor
  · rintro ⟨before, d, after, hparts, hd⟩
    cases before with
    | nil =>
      obtain ⟨rfl, rfl⟩ := List.cons.inj hparts
      exact .inl hd
    | cons e before =>
      obtain ⟨rfl, rfl⟩ := List.cons.inj hparts
      exact .inr ⟨before, d, after, rfl, hd⟩
  · rintro (h | ⟨before, d, after, rfl, hd⟩)
    · exact ⟨[], c, parts, rfl, h⟩
    · exact ⟨c :: before, d, after, rfl, hd⟩

/-- The first component has one byte less to spare in the code, which no name is long enough to notice. -/
theorem fits_iff (stack : List Name) (c : Name) :
    (maxName < c.length ∨ pathCap ≤ (render stack).length + c.length + 1) ↔
      (maxName < c.length ∨ pathCap ≤ (render (stack ++ [c])).length) := by
  rw [Cells.render_concat]
  cases stack with
  | nil =>
    simp only [render_nil, joined_nil, List.nil_append, List.length_cons, List.length_nil, pathCap, maxName]
    omega
  | cons d stack =>
    rw [render_of_ne_nil (List.cons_ne_nil d stack), List.length_append, List.length_cons]
    omega

theorem walk_none_iff (stack parts : List Name) : walk stack (parts.filter (· ≠ [])) = none ↔ TooLong stack parts := by
  induction parts generalizing stack with
  | nil =>
    constructor
    · nofun
    · rintro ⟨before, c, after, h, -⟩
      simp at h
  | cons c parts ih =>
    rw [tooLong_cons]
    by_cases hempty : c = []
    · subst hempty
      rw [List.filter_cons_of_neg (by simp), ih]
      simp [Named, push, dotdot]
    rw [List.filter_cons_of_pos (by simpa using hempty), walk]
    by_cases hdot : c = dot
    · subst hdot
      rw [if_pos rfl, ih]
      simp [Named, push, dot, dotdot]
    by_cases hdotdot : c = dotdot
    · subst hdotdot
      rw [if_neg hdot, if_pos rfl, ih]
      simp [Named, push]
    have hnamed : Named c := ⟨hempty, hdot, hdotdot⟩
    rw [if_neg hdot, if_neg hdotdot]
    by_cases hlong : maxName < c.length ∨ pathCap ≤ (render stack).length + c.length + 1
    · rw [if_pos hlong]
      exact ⟨fun _ => .inl ⟨hnamed, (fits_iff stack c).1 hlong⟩, fun _ => rfl⟩
    · rw [if_neg hlong, ih, push, if_pos hnamed]
      exact ⟨.inr, fun h => h.resolve_left fun h => hlong ((fits_iff stack c).2 h.2)⟩

theorem walk_some {stack parts res : List Name} (h : walk stack (parts.filter (· ≠ [])) = some res) :
    res = parts.foldl push stack := by
  induction parts generalizing stack with
  | nil => exact (Option.some.inj h).symm
  | cons c parts ih =>
    rw [List.foldl_cons]
    by_cases hempty : c = []
    · subst hempty
      rw [List.filter_cons_of_neg (by simp)] at h
      exact ih h
    rw [List.filter_cons_of_pos (by simpa using hempty), walk] at h
    by_cases hdot : c = dot
    · subst hdot
      rw [if_pos rfl] at h
      exact ih h
    by_cases hdotdot : c = dotdot
    · subst hdotdot
      rw [if_neg hdot, if_pos rfl] at h
      exact ih h
    rw [if_neg hdot, if_neg hdotdot] at h
    split at h
    · cases h
    · rw [push, if_pos ⟨hempty, hdot, hdotdot⟩]
      exact ih h

/-- The code walks over what is spelled, without the empty components. -/
theorem components_absolute (working name : Name) :
    components (absolute working name) = (spelled working name).filter (· ≠ []) := by
  rw [absolute, spelled]
  by_cases habs : name.head? = some slash
  · rw [if_pos habs, if_pos habs]
    rfl
  rw [if_neg habs, if_neg habs, List.filter_append]
  by_cases hroot : working = [slash]
  · subst hroot
    exact components_cons_slash name
  · rw [if_neg hroot, List.append_assoc, List.singleton_append]
    exact components_append working name

theorem Canonical.nul {path : Name} (h : Canonical path) : 0 ∉ path := h.choose_spec.2.2.2

theorem Canonical.short {path : Name} (h : Canonical path) : path.length < pathCap := h.choose_spec.2.2.1

/-- What an array shows of a path is canonical. -/
theorem Cells.HoldsPath.canonical {out : Cells} {parts : List Name} (h : out.HoldsPath parts) (hnormal : Normal parts) :
    Canonical (render parts) := by
  refine ⟨parts, rfl, fun c hc => ?_, hnormal.2, h.1.1⟩
  obtain ⟨hne, -, hslash, hdot, hdotdot⟩ := validName_iff.1 (hnormal.1 c hc)
  exact ⟨hne, hslash, hdot, hdotdot⟩

/-- The model by components says the same. -/
theorem normalize_answer (working name : Name) : normalize working name = (answer working name).map render := by
  rw [normalize, answer]
  split
  · rfl
  · rfl

theorem answer_none_iff (working name : Name) : answer working name = none ↔ Rejected working name := by
  rw [answer, Rejected, components_absolute]
  by_cases hbad : name = [] ∨ pathCap ≤ name.length
  · rw [if_pos hbad]
    exact ⟨fun _ => hbad.elim .inl fun h => .inr (.inl h), fun _ => rfl⟩
  · rw [if_neg hbad, walk_none_iff]
    rw [not_or] at hbad
    simp [hbad.1, hbad.2]

theorem answer_some {working name : Name} {parts : List Name} (h : answer working name = some parts) :
    parts = stacked working name ∧ Normal parts := by
  rw [answer] at h
  split at h
  · cases h
  · exact ⟨walk_some (components_absolute working name ▸ h), walk_spec ⟨by simp, by decide⟩ (components_spec _) h⟩

theorem answer_render (working : Name) {parts : List Name} (h : Normal parts) : answer working (render parts) = some parts := by
  have hlen : ¬ pathCap ≤ (render parts).length := Nat.not_le.2 h.2
  rw [answer, if_neg (by simp [render_ne_nil, hlen]), absolute, if_pos (head_render parts), components_render h.1,
    walk_normal (by simpa using h)]
  rfl

/-- In every working directory, a name is rejected exactly when it has no path, and otherwise the
array shows the stack that the name means: a canonical path, which stays as it is when it
is normalized again. No access leaves its array. -/
theorem normalize_stacked {working name : Name} (hworking : Canonical working) (hname : 0 ∉ name) {input out : Cells}
    (hinput : input.length = 2 * pathCap) (hout : out.length = pathCap) :
    (Cells.normalize working name input out = .error .failed ↔ Rejected working name) ∧
    Cells.normalize working name input out ≠ .error .overrun ∧
    Cells.normalize working name input out ≠ .error .unfinished ∧
    (¬ Rejected working name → Canonical (render (stacked working name)) ∧
      (∀ c ∈ stacked working name, c.length ≤ maxName) ∧
      (∃ out', Cells.normalize working name input out = .ok out' ∧ out'.Holds (render (stacked working name)) ∧
        out'.length = pathCap) ∧
      ∀ working' input' out', Canonical working' → input'.length = 2 * pathCap → out'.length = pathCap →
        ∃ again, Cells.normalize working' (render (stacked working name)) input' out' = .ok again ∧
          again.Holds (render (stacked working name))) := by
  have hended := Cells.normalize_ended hworking.nul hworking.short hname hinput hout
  rw [← answer_none_iff]
  cases hanswer : answer working name with
  | none =>
    rw [hanswer] at hended
    rw [show Cells.normalize working name input out = .error .failed from hended]
    exact ⟨⟨fun _ => rfl, fun _ => rfl⟩, nofun, nofun, fun h => absurd rfl h⟩
  | some parts =>
    rw [hanswer] at hended
    obtain ⟨out', hrun, hholds⟩ := hended
    obtain ⟨rfl, hnormal⟩ := answer_some hanswer
    rw [hrun]
    refine ⟨⟨nofun, nofun⟩, nofun, nofun, fun _ => ⟨hholds.canonical hnormal, fun c hc => ?_, ?_, ?_⟩⟩
    · exact (validName_iff.1 (hnormal.1 c hc)).2.1
    · exact ⟨out', rfl, hholds.1, hholds.2.1⟩
    · intro working' input' out'' hworking' hinput' hout''
      have hagain := Cells.normalize_ended hworking'.nul hworking'.short hholds.1.1 hinput' hout''
      rw [answer_render working' hnormal] at hagain
      obtain ⟨again, hrun', hholds'⟩ := hagain
      exact ⟨again, hrun', hholds'.1⟩

/-- `../x` below `/a/b`, with arrays of zeros. -/
theorem normalize_stacked_up :
    ∃ out', Cells.normalize [47, 97, 47, 98] [46, 46, 47, 120] (List.replicate 512 0) (List.replicate 256 0) = .ok out' ∧
      out'.Holds [47, 97, 47, 120] := by
  have hworking : Canonical [47, 97, 47, 98] := ⟨[[97], [98]], by decide⟩
  have hname : 0 ∉ ([46, 46, 47, 120] : Name) := by decide
  have hinput : (List.replicate 512 0 : Cells).length = 2 * pathCap := List.length_replicate
  have hout : (List.replicate 256 0 : Cells).length = pathCap := List.length_replicate
  have hok : ¬ Rejected [47, 97, 47, 98] [46, 46, 47, 120] := by
    rw [← answer_none_iff]
    decide +kernel
  obtain ⟨out', hrun, hholds, -⟩ := ((normalize_stacked hworking hname hinput hout).2.2.2 hok).2.2.1
  exact ⟨out', hrun, hholds⟩

end Barnix
