import Mathlib.Data.List.Basic
/-!
# Path strings

Names and paths are C strings without their terminating NUL. `normalize` and
`beneath` are the two functions every access decision is made with.
-/

namespace Barnix

/-- A C string without its terminating NUL. -/
abbrev Name := List UInt8

def slash : UInt8 := 47
def bar : UInt8 := 124
def newline : UInt8 := 10
def dot : Name := [46]
def dotdot : Name := [46, 46]

/-- `MAX_NAME` and `PATH_CAP`. -/
def maxName : Nat := 23
def pathCap : Nat := 256

/-- The nonempty components of a path. -/
def components (path : Name) : List Name := (path.splitOn slash).filter (· ≠ [])

/-- The absolute path with these components. -/
def render : List Name → Name
  | [] => [slash]
  | parts => parts.flatMap (slash :: ·)

/-- The component loop of `normalize`, with the components written so far. -/
def walk : List Name → List Name → Option (List Name)
  | out, [] => some out
  | out, part :: parts =>
    if part = dot then walk out parts
    else if part = dotdot then walk out.dropLast parts
    else if maxName < part.length ∨ pathCap ≤ (render out).length + part.length + 1 then none
    else walk (out ++ [part]) parts

/-- What `normalize` walks over: a relative name comes after the working
directory. -/
def absolute (working name : Name) : Name :=
  if name.head? = some slash then name
  else (if working = [slash] then working else working ++ [slash]) ++ name

def normalize (working name : Name) : Option Name :=
  if name = [] ∨ pathCap ≤ name.length then none
  else (walk [] (components (absolute working name))).map render

/-- `path` is `parent` or lies below it. -/
def beneath (path parent : Name) : Bool :=
  parent == [slash] ||
    (parent.isPrefixOf path && ((path.drop parent.length).head? == none || (path.drop parent.length).head? == some slash))

/-- The name after the last slash. -/
def baseName (path : Name) : Name := (path.reverse.takeWhile (· ≠ slash)).reverse

/-- The path before the last slash, `/` when that is the first byte. -/
def parentName (path : Name) : Name :=
  let parent := path.take (path.length - (baseName path).length - 1)
  if parent = [] then [slash] else parent

/-- `valid_name`: a name a directory entry can be given. -/
def validName (name : Name) : Bool :=
  name ≠ [] && name.length ≤ maxName && !name.contains slash && name ≠ dot && name ≠ dotdot

/-! ## Normal paths -/

/-- The components of a path that `normalize` writes. -/
def Normal (parts : List Name) : Prop := (∀ c ∈ parts, validName c = true) ∧ (render parts).length < pathCap

theorem validName_iff {c : Name} : validName c = true ↔
    c ≠ [] ∧ c.length ≤ maxName ∧ slash ∉ c ∧ c ≠ dot ∧ c ≠ dotdot := by
  simp [validName, and_assoc]

/-- The path with these components, without the `/` of the empty one. -/
def joined (parts : List Name) : Name := parts.flatMap (slash :: ·)

@[simp] theorem joined_nil : joined [] = [] := rfl

@[simp] theorem joined_cons (c : Name) (parts : List Name) : joined (c :: parts) = slash :: c ++ joined parts := rfl

@[simp] theorem joined_append (a b : List Name) : joined (a ++ b) = joined a ++ joined b := by
  simp [joined]

@[simp] theorem render_nil : render [] = [slash] := rfl

theorem render_of_ne_nil {parts : List Name} (h : parts ≠ []) : render parts = joined parts := by
  cases parts with
  | nil => exact absurd rfl h
  | cons c parts => rfl

theorem components_append (a r : Name) : components (a ++ slash :: r) = components a ++ components r := by
  simp [components, List.splitOn_append_cons_self]

theorem components_cons_slash (r : Name) : components (slash :: r) = components r := by
  simpa [components] using components_append [] r

theorem components_name {c : Name} (h : c ≠ []) (hs : slash ∉ c) : components c = [c] := by
  simp [components, List.splitOn_eq_singleton hs, h]

theorem components_joined_append {parts : List Name} (h : ∀ c ∈ parts, validName c = true) (r : Name)
    (hr : r = [] ∨ r.head? = some slash) : components (joined parts ++ r) = parts ++ components r := by
  induction parts with
  | nil => rfl
  | cons c parts ih =>
    obtain ⟨hc, -, hs, -⟩ := validName_iff.1 (h c (by simp))
    have hrest := ih fun d hd => h d (by simp [hd])
    have hnext : joined parts ++ r = [] ∨ (joined parts ++ r).head? = some slash := by
      cases parts with
      | nil => simpa using hr
      | cons d parts => simp
    rw [joined_cons, List.cons_append, List.cons_append, components_cons_slash, List.append_assoc, List.cons_append,
      ← hrest]
    cases hj : joined parts ++ r with
    | nil =>
      rw [List.append_nil, components_name hc hs]
      rfl
    | cons d tail =>
      rw [hj] at hnext
      obtain rfl : d = slash := by simpa using hnext
      rw [components_append, components_name hc hs, components_cons_slash]
      rfl

theorem components_joined {parts : List Name} (h : ∀ c ∈ parts, validName c = true) :
    components (joined parts) = parts := by
  have := components_joined_append h [] (.inl rfl)
  rwa [List.append_nil, show components [] = [] from rfl, List.append_nil] at this

theorem components_render {parts : List Name} (h : ∀ c ∈ parts, validName c = true) :
    components (render parts) = parts := by
  cases parts with
  | nil => rfl
  | cons c parts => exact components_joined h

theorem render_inj {a b : List Name} (ha : ∀ c ∈ a, validName c = true) (hb : ∀ c ∈ b, validName c = true)
    (h : render a = render b) : a = b := by
  rw [← components_render ha, h, components_render hb]

theorem render_ne_nil (parts : List Name) : render parts ≠ [] := by
  cases parts with
  | nil => simp
  | cons c parts => simp [render]

theorem head_render (parts : List Name) : (render parts).head? = some slash := by
  cases parts with
  | nil => rfl
  | cons c parts => rfl

theorem render_append {a : List Name} (ha : a ≠ []) (b : List Name) : render (a ++ b) = render a ++ joined b := by
  rw [render_of_ne_nil (by simp [ha]), render_of_ne_nil ha, joined_append]

/-- Being beneath is being an extension. -/
theorem beneath_render {p q : List Name} (hp : ∀ c ∈ p, validName c = true) (hq : ∀ c ∈ q, validName c = true) :
    beneath (render p) (render q) = true ↔ q <+: p := by
  constructor
  · intro h
    by_cases hq0 : q = []
    · simp [hq0]
    rw [beneath, Bool.or_eq_true, Bool.and_eq_true, List.isPrefixOf_iff_prefix] at h
    rcases h with h | ⟨⟨r, hr⟩, h⟩
    · have : q = [] := render_inj hq (by simp) (by simpa using h)
      exact absurd this hq0
    · rw [← hr, List.drop_left] at h
      have hr' : r = [] ∨ r.head? = some slash := by
        cases r with
        | nil => exact .inl rfl
        | cons d r => simpa using h
      have : components (render p) = q ++ components r := by
        rw [← hr, render_of_ne_nil hq0, components_joined_append hq r hr']
      rw [components_render hp] at this
      exact ⟨_, this.symm⟩
  · rintro ⟨r, rfl⟩
    by_cases hq0 : q = []
    · simp [beneath, hq0]
    rw [render_append hq0, beneath, Bool.or_eq_true, Bool.and_eq_true, List.isPrefixOf_iff_prefix]
    refine .inr ⟨⟨_, rfl⟩, ?_⟩
    rw [List.drop_left]
    cases r with
    | nil => simp
    | cons d r => simp

/-- What is beneath a prefix stays beneath it further down. -/
theorem beneath_mono {p q : List Name} (h : p <+: q) {parent : Name} (hb : beneath (render p) parent = true) :
    beneath (render q) parent = true := by
  rw [beneath, Bool.or_eq_true, Bool.and_eq_true, List.isPrefixOf_iff_prefix] at hb ⊢
  rcases hb with hb | ⟨⟨r, hr⟩, hb⟩
  · exact .inl hb
  obtain ⟨w, rfl⟩ := h
  by_cases hp : p = []
  · subst hp
    cases parent with
    | nil => exact .inr ⟨List.nil_prefix, by simp [head_render]⟩
    | cons c parent =>
      obtain ⟨rfl, hr'⟩ := List.cons.inj hr
      obtain ⟨rfl, -⟩ := List.append_eq_nil_iff.1 hr'
      exact .inl rfl
  · refine .inr ⟨⟨r ++ joined w, by rw [render_append hp, ← hr, List.append_assoc]⟩, ?_⟩
    rw [render_append hp, ← hr, List.append_assoc, List.drop_left]
    rw [← hr, List.drop_left] at hb
    cases r with
    | nil => cases w <;> simp
    | cons c r => simpa using hb

theorem length_render_lt {p q : List Name} (h : q <+: p) (hne : q ≠ p) (hp : ∀ c ∈ p, validName c = true) :
    (render q).length < (render p).length := by
  obtain ⟨r, rfl⟩ := h
  have hr : r ≠ [] := by rintro rfl; simp at hne
  obtain ⟨c, r, rfl⟩ := List.exists_cons_of_ne_nil hr
  have hc : c ≠ [] := (validName_iff.1 (hp c (by simp))).1
  have hlen : 0 < c.length := List.length_pos_of_ne_nil hc
  by_cases hq : q = []
  · subst hq
    simp [render_of_ne_nil]
    omega
  · simp [render_append hq]

theorem baseName_render (parts : List Name) {c : Name} (hs : slash ∉ c) : baseName (render (parts ++ [c])) = c := by
  have hne : ∀ a ∈ c.reverse, decide (a ≠ slash) = true := by
    intro a ha
    rw [List.mem_reverse] at ha
    exact decide_eq_true fun h => hs (h ▸ ha)
  rw [render_of_ne_nil (by simp), joined_append, joined_cons, joined_nil, baseName, List.append_nil,
    List.reverse_append, List.reverse_cons, List.append_assoc, List.takeWhile_append_of_pos hne]
  simp

theorem baseName_root : baseName [slash] = [] := rfl

theorem parentName_render (parts : List Name) {c : Name} (hs : slash ∉ c) :
    parentName (render (parts ++ [c])) = render parts := by
  rw [parentName, baseName_render parts hs]
  have : (render (parts ++ [c])).take ((render (parts ++ [c])).length - c.length - 1) = joined parts := by
    rw [render_of_ne_nil (by simp), joined_append, joined_cons, joined_nil, List.append_nil]
    rw [show (joined parts ++ slash :: c).length - c.length - 1 = (joined parts).length by simp; omega]
    exact List.take_left
  simp only [this]
  cases parts with
  | nil => rfl
  | cons d parts => rfl

/-! ## Normalizing -/

theorem walk_spec {out parts : List Name} {res : List Name} (hout : Normal out)
    (hparts : ∀ c ∈ parts, c ≠ [] ∧ slash ∉ c) (h : walk out parts = some res) : Normal res := by
  induction parts generalizing out with
  | nil =>
    obtain rfl : out = res := by simpa [walk] using h
    exact hout
  | cons c parts ih =>
    have hrest : ∀ d ∈ parts, d ≠ [] ∧ slash ∉ d := fun d hd => hparts d (by simp [hd])
    rw [walk] at h
    split at h
    · exact ih hout hrest h
    · split at h
      · refine ih ⟨fun d hd => hout.1 d (List.dropLast_subset _ hd), ?_⟩ hrest h
        by_cases ho : out = []
        · simp [ho, pathCap]
        · have hlast := List.dropLast_append_getLast ho
          have hpre : out.dropLast <+: out := ⟨_, hlast⟩
          have hne : out.dropLast ≠ out := by
            intro he
            have := congrArg List.length he
            rw [List.length_dropLast] at this
            have := List.length_pos_of_ne_nil ho
            omega
          exact Nat.lt_trans (length_render_lt hpre hne hout.1) hout.2
      · rename_i hdot hdotdot
        split at h
        · simp at h
        · rename_i hlen
          have hlen : c.length ≤ maxName ∧ (render out).length + c.length + 1 < pathCap := by
            constructor <;> omega
          refine ih ⟨?_, ?_⟩ hrest h
          · intro d hd
            rcases List.mem_append.1 hd with hd | hd
            · exact hout.1 d hd
            · obtain rfl : d = c := by simpa using hd
              have := hparts d (by simp)
              exact validName_iff.2 ⟨this.1, hlen.1, this.2, hdot, hdotdot⟩
          · by_cases ho : out = []
            · subst ho
              simp [render_of_ne_nil] at hlen ⊢
              omega
            · simp [render_append ho]
              omega

theorem not_mem_of_mem_splitOn {x : UInt8} {name c : Name} (h : c ∈ name.splitOn x) : x ∉ c := by
  induction name generalizing c with
  | nil =>
    obtain rfl : c = [] := by simpa using h
    simp
  | cons b name ih =>
    rw [List.splitOn_cons_eq_if_modifyHead] at h
    split at h
    · rcases List.mem_cons.1 h with rfl | h
      · simp
      · exact ih h
    · rename_i hb
      cases hl : name.splitOn x with
      | nil => simp [hl] at h
      | cons d rest =>
        rw [hl] at ih h
        rcases List.mem_cons.1 h with rfl | h
        · have := ih (c := d) (by simp)
          simp only [List.mem_cons, not_or]
          exact ⟨by simpa using Ne.symm (by simpa using hb), this⟩
        · exact ih (by simp [h])

theorem components_spec (path : Name) : ∀ c ∈ components path, c ≠ [] ∧ slash ∉ c := by
  intro c hc
  simp only [components, List.mem_filter, decide_eq_true_eq] at hc
  exact ⟨hc.2, not_mem_of_mem_splitOn hc.1⟩

theorem normalize_spec {working name path : Name} (h : normalize working name = some path) :
    ∃ parts, path = render parts ∧ Normal parts := by
  rw [normalize] at h
  split at h
  · simp at h
  · obtain ⟨parts, hw, rfl⟩ := Option.map_eq_some_iff.1 h
    exact ⟨parts, rfl, walk_spec ⟨by simp, by simp [pathCap]⟩ (components_spec _) hw⟩

theorem walk_normal {out parts : List Name} (h : Normal (out ++ parts)) : walk out parts = some (out ++ parts) := by
  induction parts generalizing out with
  | nil => simp [walk]
  | cons c parts ih =>
    obtain ⟨-, hle, -, hdot, hdotdot⟩ := validName_iff.1 (h.1 c (by simp))
    have hlen : (render out).length + c.length + 1 < pathCap := by
      by_cases ho : out = []
      · simp [ho, pathCap, maxName] at hle ⊢
        omega
      · have := h.2
        simp [render_append ho] at this
        omega
    rw [walk, if_neg hdot, if_neg hdotdot, if_neg (by omega), ih (by simpa using h)]
    simp

theorem normalize_render (working : Name) {parts : List Name} (h : Normal parts) :
    normalize working (render parts) = some (render parts) := by
  have hlen : ¬ pathCap ≤ (render parts).length := by have := h.2; omega
  rw [normalize, if_neg (by simp [render_ne_nil, hlen]), absolute, if_pos (head_render parts),
    components_render h.1, walk_normal (by simpa using h)]
  simp

/-- A name from the root has one meaning in every working directory. -/
theorem normalize_absolute {name : Name} (h : name.head? = some slash) (w w' : Name) :
    normalize w name = normalize w' name := by
  simp [normalize, absolute, h]

end Barnix
