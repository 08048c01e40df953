import Barnix.Text.Utf8
/-!
# Characters in bytes

Where the characters of an encoded text begin: every byte but the first of a character continues it.
Scans over the bytes therefore go from character to character, and an encoded text occurs in another
one only where its characters do.
-/

namespace Barnix

/-- `continuation` of `macro.c` -/
def continuation (c : UInt8) : Bool := c.toNat &&& 0xc0 == 0x80

theorem continuation_iff {c : UInt8} : continuation c = true ↔ 0x80 ≤ c.toNat ∧ c.toNat < 0xc0 := by
  rw [continuation, beq_iff_eq, tail_iff c.toNat_lt]

theorem Utf8Form.bytes_shape (f : Utf8Form) (k : Nat) : ∀ v, v / 64 ^ k < f.limit → ∃ tails, f.bytes k v = .ofNat (f.lead + v / 64 ^ k) :: tails ∧
    ∀ t ∈ tails, continuation t = true := by
  induction k with
  | zero =>
    intro v _
    refine ⟨[], ?_, fun _ h => nomatch h⟩
    rw [pow_zero, Nat.div_one]
    rfl
  | succ k ih =>
    intro v hv
    have hdiv : v / 64 / 64 ^ k = v / 64 ^ (k + 1) := by rw [Nat.div_div_eq_div_mul, ← pow_succ']
    obtain ⟨tails, hbytes, htails⟩ := ih (v / 64) (by rwa [hdiv])
    refine ⟨tails ++ [.ofNat (0x80 + v % 64)], ?_, ?_⟩
    · rw [Utf8Form.bytes, hbytes, hdiv]
      rfl
    · rw [List.forall_mem_append]
      refine ⟨htails, fun t ht => ?_⟩
      have hb : (UInt8.ofNat (0x80 + v % 64)).toNat = 0x80 + v % 64 := toNat_ofNat (by omega)
      rw [List.mem_singleton.1 ht, continuation_iff, hb]
      omega

/-- The bytes of a character: one that continues nothing, and those that continue it. -/
structure Shape (c : Char) (lead : UInt8) (tails : List UInt8) : Prop where
  bytes : utf8Encode c.toNat = lead :: tails
  starts : continuation lead = false
  continues : ∀ t ∈ tails, continuation t = true
  newline : lead = 10 ↔ c = '\n'

theorem exists_shape (c : Char) : ∃ lead tails, Shape c lead tails := by
  by_cases h80 : c.toNat < 0x80
  · have hb : (UInt8.ofNat c.toNat).toNat = c.toNat := toNat_ofNat (by omega)
    refine ⟨.ofNat c.toNat, [], ?_, ?_, fun _ h => (nomatch h), fun h => ?_, ?_⟩
    · rw [utf8Encode, if_pos h80]
    · rw [Bool.eq_false_iff, Ne, continuation_iff, hb]
      omega
    · have hten : c.toNat = 10 := by rw [← hb, h]; rfl
      exact Char.ext (UInt32.toNat_inj.1 hten)
    · rintro rfl
      rfl
  · have hvalid : c.toNat.isValidChar := c.valid
    have hmax : c.toNat ≤ 0x10ffff := by
      unfold Nat.isValidChar at hvalid
      omega
    obtain ⟨f, hmin, hlt, hlow, hhigh⟩ := Utf8Form.exists_form (Nat.le_of_not_lt h80) hmax
    obtain ⟨tails, hbytes, htails⟩ := f.bytes_shape f.tails c.toNat ((Nat.div_lt_iff_lt_mul (Nat.pow_pos (by decide))).2 hlt)
    have hb : (UInt8.ofNat (f.lead + c.toNat / 64 ^ f.tails)).toNat = f.lead + c.toNat / 64 ^ f.tails := toNat_ofNat (by omega)
    refine ⟨_, tails, (f.encode_eq hmin hlt hvalid).trans hbytes, ?_, htails, fun h => ?_, ?_⟩
    · rw [Bool.eq_false_iff, Ne, continuation_iff, hb]
      omega
    · rw [h] at hb
      change 10 = _ at hb
      omega
    · rintro rfl
      exact absurd (by decide : ('\n').toNat < 0x80) h80

theorem utf8Text_nil : utf8Text [] = [] := rfl

theorem utf8Text_cons (c : Char) (cs : List Char) : utf8Text (c :: cs) = utf8Encode c.toNat ++ utf8Text cs := List.flatMap_cons

theorem utf8Text_append (a b : List Char) : utf8Text (a ++ b) = utf8Text a ++ utf8Text b := List.flatMap_append

theorem utf8Text_singleton (c : Char) : utf8Text [c] = utf8Encode c.toNat := by rw [utf8Text_cons, utf8Text_nil, List.append_nil]

theorem utf8Text_eq_nil {cs : List Char} : utf8Text cs = [] ↔ cs = [] := by
  constructor
  · intro h
    cases cs with
    | nil => rfl
    | cons c cs =>
      obtain ⟨lead, tails, hshape⟩ := exists_shape c
      rw [utf8Text_cons, hshape.bytes] at h
      cases h
  · rintro rfl
    rfl

/-- What an encoded text begins with is the first byte of a character. -/
theorem head_utf8Text {cs : List Char} : ∀ b ∈ (utf8Text cs).head?, continuation b = false := by
  intro b hb
  cases cs with
  | nil => cases hb
  | cons c cs =>
    obtain ⟨lead, tails, hshape⟩ := exists_shape c
    rw [utf8Text_cons, hshape.bytes] at hb
    exact Option.some.inj hb ▸ hshape.starts

/-- One text begins with another when its bytes do. -/
theorem utf8Text_prefix_iff {query cs : List Char} : utf8Text query <+: utf8Text cs ↔ query <+: cs := by
  constructor
  · rintro ⟨rest, h⟩
    have hquery := decode_text .fresh query
    have hcs := decode_text .fresh cs
    have hseam : Utf8Decoder.fresh.seam = [] := rfl
    rw [hseam, ite_self, List.nil_append] at hquery hcs
    have hstart : query.map Char.toNat <+: cs.map Char.toNat := by
      rw [← hcs, ← h, utf8Decode_append]
      exact hquery ▸ List.prefix_append _ _
    have hinj : Function.Injective Char.toNat := fun a b hab => Char.ext (UInt32.toNat_inj.1 hab)
    exact (List.prefix_map_iff_of_injective hinj).1 hstart
  · rintro ⟨rest, rfl⟩
    rw [utf8Text_append]
    exact List.prefix_append _ _

end Barnix
