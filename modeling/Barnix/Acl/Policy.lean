import Barnix.Acl.Failures
import Mathlib.Data.List.Infix
/-!
# What the access list means

The abstract policy: a table of rights by path and user. The nearest entry above
a path decides, and without one the home and the programs are open. The text
that `set_file_permissions` writes means this policy; the locks in it guard
further changes.
-/

namespace Barnix.Acl

open Vfs

/-! ## The policy -/

/-- The rights granted to a user on a path. -/
def Policy := List Name → Name → Option Name

namespace Policy

def empty : Policy := fun _ _ => none

/-- The last grant for a path and user replaces earlier ones. -/
def grant (π : Policy) (ps : List Name) (user rights : Name) : Policy :=
  fun qs v => if qs = ps ∧ v = user then some rights else π qs v

/-- The entry on the path itself, or the one nearest above it. -/
def entry (π : Policy) (user : Name) (ps : List Name) : Option Name := ps.inits.reverse.findSome? fun qs => π qs user

def allows (π : Policy) (user : Name) (ps : List Name) (mode : UInt8) : Bool :=
  match π.entry user ps with
  | some rights => rights.contains mode
  | none => (homeParts user).isPrefixOf ps ||
      (mode == modeX && ([[98, 105, 110]].isPrefixOf ps || ps == [] || ps == homesParts))

theorem entry_nil (π : Policy) (user : Name) : π.entry user [] = π [] user := by
  cases h : π [] user <;> simp [entry, h]

theorem entry_concat (π : Policy) (user : Name) (ps : List Name) (c : Name) :
    π.entry user (ps ++ [c]) = (π (ps ++ [c]) user).or (π.entry user ps) := by
  have hinits : (ps ++ [c]).inits.reverse = (ps ++ [c]) :: ps.inits.reverse := by
    rw [List.inits_append]
    simp
  rw [entry, hinits, List.findSome?_cons]
  cases π (ps ++ [c]) user <;> rfl

end Policy

theorem defaultRight_eq {user : Name} (hu : validUser user = true) {ps : List Name} (hps : ∀ c ∈ ps, validName c = true)
    (mode : UInt8) :
    defaultRight user (render ps) mode = ((homeParts user).isPrefixOf ps ||
      (mode == modeX && ([[98, 105, 110]].isPrefixOf ps || ps == [] || ps == homesParts))) := by
  have hhome : beneath (render ps) (home user) = (homeParts user).isPrefixOf ps := by
    rw [home_eq, Bool.eq_iff_iff, beneath_render hps (valid_homeParts hu), List.isPrefixOf_iff_prefix]
  have hbin : beneath (render ps) bin = [[98, 105, 110]].isPrefixOf ps := by
    rw [show bin = render [[98, 105, 110]] from rfl, Bool.eq_iff_iff, beneath_render hps (by decide),
      List.isPrefixOf_iff_prefix]
  have hroot : (render ps == [slash]) = (ps == []) := by
    rw [Bool.eq_iff_iff, beq_iff_eq, beq_iff_eq]
    exact ⟨fun e => render_inj (b := []) hps (by simp) e, fun e => by rw [e]; rfl⟩
  have hhomes : (render ps == homes) = (ps == homesParts) := by
    rw [Bool.eq_iff_iff, beq_iff_eq, beq_iff_eq]
    exact ⟨fun e => render_inj hps (by decide) e, fun e => by rw [e]; rfl⟩
  rw [defaultRight, hhome, hbin, hroot, hhomes]
  cases (homeParts user).isPrefixOf ps <;> cases mode == modeX <;> cases [[98, 105, 110]].isPrefixOf ps <;>
    cases ps == [] <;> cases ps == homesParts <;> rfl

/-! ## Lists that state a policy -/

/-- The records state the policy. -/
def States (rs : List Record) (π : Policy) : Prop :=
  ∀ ps user, (nearest Record.depth (isFor ps user) rs).map Record.rights = π ps user

theorem isFor_iff {ps : List Name} {user : Name} {r : Record} : isFor ps user r = true ↔ r.parts = ps ∧ r.user = user := by
  simp [isFor]

theorem States.grant {rs : List Record} {π : Policy} (h : States rs π) (ps : List Name) (user rights lock : Name) :
    States (rs.filter (fun r => !isFor ps user r) ++ [⟨ps, user, rights, lock⟩]) (π.grant ps user rights) := by
  intro qs v
  rw [nearest_concat, nearest_filter, closerOf, Policy.grant]
  by_cases hkey : qs = ps ∧ v = user
  · obtain ⟨rfl, rfl⟩ := hkey
    have hnone : nearest Record.depth (fun r => isFor qs v r && !isFor qs v r) rs = none :=
      nearest_eq_none.2 fun r _ => by simp
    rw [hnone]
    simp [isFor]
  · have hother : isFor qs v ⟨ps, user, rights, lock⟩ = false := by
      rw [Bool.eq_false_iff]
      intro e
      obtain ⟨h1, h2⟩ := isFor_iff.1 e
      exact hkey ⟨h1.symm, h2.symm⟩
    have hsame : nearest Record.depth (fun r => isFor qs v r && !isFor ps user r) rs = nearest Record.depth (isFor qs v) rs := by
      refine nearest_congr fun r _ => ?_
      cases hq : isFor qs v r with
      | false => rfl
      | true =>
        rw [Bool.true_and, Bool.not_eq_true', Bool.eq_false_iff]
        intro e
        obtain ⟨h1, h2⟩ := isFor_iff.1 hq
        obtain ⟨h3, h4⟩ := isFor_iff.1 e
        exact hkey ⟨h1.symm.trans h3, h2.symm.trans h4⟩
    rw [hother, hsame, if_neg hkey]
    simpa using h qs v

/-- The nearest record above a path is the nearest entry. -/
theorem States.entry {rs : List Record} {π : Policy} (h : States rs π) {ps : List Name} (hps : ∀ c ∈ ps, validName c = true)
    (user : Name) : (nearest Record.depth (covers user ps) rs).map Record.rights = π.entry user ps := by
  induction ps using List.reverseRecOn with
  | nil =>
    rw [Policy.entry_nil, ← h]
    congr 1
    refine nearest_congr fun r _ => ?_
    rw [Bool.eq_iff_iff, isFor_iff, covers, Bool.and_eq_true, beq_iff_eq, List.isPrefixOf_iff_prefix, List.prefix_nil]
    exact and_comm
  | append_singleton ps c ih =>
    have ih := ih fun d hd => hps d (by simp [hd])
    have hdeep : ∀ r ∈ rs, ∀ q ∈ rs, covers user (ps ++ [c]) r = true → covers user (ps ++ [c]) q = true →
        (r.parts == ps ++ [c]) = false → (q.parts == ps ++ [c]) = true → r.depth < q.depth := by
      intro r _ q _ hr hq hr' hq'
      have hq' : q.parts = ps ++ [c] := by simpa using hq'
      have hne : r.parts ≠ q.parts := by rw [hq']; simpa using hr'
      exact length_render_lt (hq' ▸ prefix_of_covers hr) hne fun d hd => hps d ((prefix_of_covers hq).subset hd)
    rw [nearest_split (fun r => r.parts == ps ++ [c]) hdeep, Option.map_or, Policy.entry_concat, ← ih, ← h]
    congr 2
    · refine nearest_congr fun r _ => ?_
      rw [Bool.eq_iff_iff, isFor_iff, covers]
      simp only [Bool.and_eq_true, beq_iff_eq, List.isPrefixOf_iff_prefix]
      constructor
      · rintro ⟨⟨h1, -⟩, h2⟩
        exact ⟨h2, h1⟩
      · rintro ⟨h1, h2⟩
        exact ⟨⟨h2, h1 ▸ List.prefix_rfl⟩, h1⟩
    · refine nearest_congr fun r _ => ?_
      rw [Bool.eq_iff_iff, covers, covers]
      simp only [Bool.and_eq_true, beq_iff_eq, List.isPrefixOf_iff_prefix, Bool.not_eq_true', beq_eq_false_iff_ne, ne_eq]
      constructor
      · rintro ⟨⟨h1, h2⟩, h3⟩
        exact ⟨h1, (List.prefix_concat_iff.1 h2).resolve_left h3⟩
      · rintro ⟨h1, h2⟩
        refine ⟨⟨h1, h2.trans (List.prefix_append _ _)⟩, fun e => ?_⟩
        have := h2.length_le
        rw [e, List.length_append, List.length_singleton] at this
        omega

theorem States.verdict {rs : List Record} {π : Policy} (h : States rs π) {user : Name} (hu : validUser user = true)
    {ps : List Name} (hps : ∀ c ∈ ps, validName c = true) (mode : UInt8) : verdict rs user ps mode = π.allows user ps mode := by
  rw [Acl.verdict, Policy.allows, ← h.entry hps, ← defaultRight_eq hu hps]
  cases nearest Record.depth (covers user ps) rs <;> rfl

/-! ## Granting -/

/-- The policy and the state after successful calls of `set_file_permissions`,
made by any users from a state without an access list. -/
inductive Granted : Policy → Space Trees → Prop
  | init {s : Space Trees} : Sound s → (start s).acl = none → Granted .empty (start s)
  | call {π : Policy} {s t : Space Trees} {ps : List Name} (user name spec password : Name) : Granted π s →
      normalize s.working name = some (render ps) → Normal ps → 0 ∉ render ps →
      exec (setFilePermissions name spec password) (s.as user) = (0, t) →
      Granted (π.grant ps (spec.takeWhile (· ≠ 61)) ((spec.dropWhile (· ≠ 61)).drop 1)) t

/-- The access list is the text of these clean records. -/
structure Holds (rs : List Record) (s : Space Trees) : Prop where
  settled : Settled s
  acl : s.acl.getD [] = text rs
  clean : ∀ r ∈ rs, r.Clean
  short : (text rs).length < aclCap

theorem Holds.as {rs : List Record} {s : Space Trees} (h : Holds rs s) (user : Name) : Holds rs (s.as user) :=
  ⟨h.settled.as user, h.acl, h.clean, h.short⟩

/-- A granted request replaces one record. -/
theorem Holds.set {rs : List Record} {s t : Space Trees} (h : Holds rs s) {name spec password user rights lock : Name}
    {ps : List Name} (hreq : Request s name spec password ps user rights lock) (hnul : 0 ∉ render ps) (ht : Settled t)
    (hacl : t.acl = some (newText ps user rights lock (listText s))) :
    Holds (rs.filter (fun r => !isFor ps user r) ++ [⟨ps, user, rights, lock⟩]) t := by
  have hlist := listText_eq h.acl h.clean h.short
  obtain ⟨hnew, htext⟩ := hreq.newText_eq hnul h.clean hlist
  have hfits := hreq.fits
  unfold NewFits at hfits
  rw [htext] at hacl hfits
  refine ⟨ht, by rw [hacl]; rfl, fun r hr => ?_, by omega⟩
  rcases List.mem_append.1 hr with hr | hr
  · exact h.clean r (List.mem_filter.1 hr).1
  · exact List.mem_singleton.1 hr ▸ hnew

theorem Granted.spec {π : Policy} {s : Space Trees} (h : Granted π s) : ∃ rs, Holds rs s ∧ States rs π := by
  induction h with
  | init hs hnone => exact ⟨[], ⟨hs.start, by rw [hnone]; rfl, by simp, by decide⟩, fun _ _ => rfl⟩
  | @call π s t ps user name spec password _ hn hps hnul he ih =>
    obtain ⟨rs, hrs, hstates⟩ := ih
    have hrs' := hrs.as user
    obtain ⟨r, t', he', hf, -, ⟨hr, -⟩ | ⟨qs, user', rights, lock, hreq, -, hacl, -⟩⟩ :=
      exec_setFilePermissions hrs'.settled name spec password
    · exact absurd (Prod.mk.inj (he'.symm.trans he)).1 hr
    · obtain ⟨-, rfl⟩ := Prod.mk.inj (he'.symm.trans he)
      obtain rfl : qs = ps := render_inj hreq.normal.1 hps.1 (Option.some.inj (hreq.name.symm.trans hn))
      obtain ⟨-, rfl, rfl⟩ := hreq.spec
      exact ⟨_, hrs'.set hreq hnul hf.settled hacl, hstates.grant _ _ _ lock⟩

end Barnix.Acl
