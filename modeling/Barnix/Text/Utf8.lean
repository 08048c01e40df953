import Mathlib.Data.List.Infix
import Mathlib.Tactic.IntervalCases
/-!
# UTF-8 streams

The decoder of `text.c`, one byte at a time, and its encoder. The decoder finds what was
encoded, finds its way again after any other bytes, and takes nothing but shortest forms.
-/

namespace Barnix

structure Utf8Decoder where
  value : Nat
  minimum : Nat
  remaining : Nat
deriving DecidableEq

/-- A decoder that has read nothing, `{0}`. -/
def Utf8Decoder.fresh : Utf8Decoder := ⟨0, 0, 0⟩

def questionMark : Nat := 0x3f

/-- The value of a finished sequence, as `utf8_feed` reports it. -/
def utf8Value (minimum c : Nat) : Nat :=
  if c < minimum ∨ 0x10ffff < c ∨ (0xd800 ≤ c ∧ c ≤ 0xdfff) then questionMark else c

/-- The part of `utf8_feed` about a byte that continues nothing. -/
def utf8Start (s : Utf8Decoder) (out : List Nat) (b : Nat) : List Nat × Utf8Decoder :=
  if b < 0x80 then (out ++ [b], s)
  else if 0xc2 ≤ b ∧ b ≤ 0xf4 then
    (out, { remaining := if b < 0xe0 then 1 else if b < 0xf0 then 2 else 3
            minimum := if b < 0xe0 then 0x80 else if b < 0xf0 then 0x800 else 0x10000
            value := b &&& (if b < 0xe0 then 31 else if b < 0xf0 then 15 else 7) })
  else (out ++ [questionMark], s)

/-- `utf8_feed`: the values it reports and the decoder after it. -/
def utf8Feed (s : Utf8Decoder) (byte : UInt8) : List Nat × Utf8Decoder :=
  let b := byte.toNat
  if s.remaining ≠ 0 then
    if b &&& 0xc0 = 0x80 then
      let value := ((s.value <<< 6) ||| (b &&& 63)) % 2 ^ 32
      let remaining := s.remaining - 1
      if remaining ≠ 0 then ([], { s with value, remaining })
      else ([utf8Value s.minimum value], { s with value, remaining })
    else utf8Start { s with remaining := 0 } [questionMark] b
  else utf8Start s [] b

/-- `utf8_encode` -/
def utf8Encode (c : Nat) : List UInt8 :=
  if c < 0x80 then [UInt8.ofNat c]
  else if c < 0x800 then [UInt8.ofNat (0xc0 ||| c >>> 6), UInt8.ofNat (0x80 ||| (c &&& 63))]
  else if 0xd800 ≤ c ∧ c ≤ 0xdfff then [0x3f]
  else if c < 0x10000 then
    [UInt8.ofNat (0xe0 ||| c >>> 12), UInt8.ofNat (0x80 ||| (c >>> 6 &&& 63)), UInt8.ofNat (0x80 ||| (c &&& 63))]
  else if 0x10ffff < c then [0x3f]
  else
    [UInt8.ofNat (0xf0 ||| c >>> 18), UInt8.ofNat (0x80 ||| (c >>> 12 &&& 63)), UInt8.ofNat (0x80 ||| (c >>> 6 &&& 63)),
      UInt8.ofNat (0x80 ||| (c &&& 63))]

/-- A decoder that is fed byte after byte. -/
def utf8Decode (s : Utf8Decoder) : List UInt8 → List Nat × Utf8Decoder
  | [] => ([], s)
  | b :: bs => ((utf8Feed s b).1 ++ (utf8Decode (utf8Feed s b).2 bs).1, (utf8Decode (utf8Feed s b).2 bs).2)

theorem utf8Decode_append (s : Utf8Decoder) (a b : List UInt8) : utf8Decode s (a ++ b) =
    ((utf8Decode s a).1 ++ (utf8Decode (utf8Decode s a).2 b).1, (utf8Decode (utf8Decode s a).2 b).2) := by
  induction a generalizing s with
  | nil => rfl
  | cons x a ih =>
    rw [List.cons_append, utf8Decode, ih, utf8Decode]
    simp only [List.append_assoc]

/-! ## Bits as arithmetic -/

theorem and_63 (n : Nat) : n &&& 63 = n % 64 := Nat.and_two_pow_sub_one_eq_mod n 6

theorem and_31 (n : Nat) : n &&& 31 = n % 32 := Nat.and_two_pow_sub_one_eq_mod n 5

theorem and_15 (n : Nat) : n &&& 15 = n % 16 := Nat.and_two_pow_sub_one_eq_mod n 4

theorem and_7 (n : Nat) : n &&& 7 = n % 8 := Nat.and_two_pow_sub_one_eq_mod n 3

/-- The bytes that continue a sequence. -/
theorem tail_iff {b : Nat} (h : b < 256) : b &&& 0xc0 = 0x80 ↔ 0x80 ≤ b ∧ b < 0xc0 := by
  have hall : ∀ b < 256, (b &&& 0xc0 = 0x80 ↔ 0x80 ≤ b ∧ b < 0xc0) := by decide +kernel
  exact hall b h

/-- A sequence takes six bits from each of its tails. -/
theorem shift_or (v t : Nat) : v <<< 6 ||| t % 64 = v * 64 + t % 64 := by
  rw [← Nat.shiftLeft_add_eq_or_of_lt (Nat.mod_lt _ (by decide)), Nat.shiftLeft_eq]

theorem or_80 {x : Nat} (h : x < 64) : 0x80 ||| x = 0x80 + x := (Nat.two_pow_add_eq_or_of_lt (i := 7) (by omega) 1).symm

/-! ## Sequences of several bytes -/

/-- The forms of a sequence, by their number of bytes. -/
inductive Utf8Form where
  | two
  | three
  | four

namespace Utf8Form

def lead : Utf8Form → Nat
  | two => 0xc0
  | three => 0xe0
  | four => 0xf0

/-- What the bits of the lead byte are less than. -/
def limit : Utf8Form → Nat
  | two => 32
  | three => 16
  | four => 8

def tails : Utf8Form → Nat
  | two => 1
  | three => 2
  | four => 3

def minimum : Utf8Form → Nat
  | two => 0x80
  | three => 0x800
  | four => 0x10000

/-- The lead byte and the first `k` tails of a sequence whose bits so far are `v`. -/
def bytes (f : Utf8Form) : Nat → Nat → List UInt8
  | 0, v => [UInt8.ofNat (f.lead + v)]
  | k + 1, v => f.bytes k (v / 64) ++ [UInt8.ofNat (0x80 + v % 64)]

theorem lead_add_limit (f : Utf8Form) : f.lead + f.limit ≤ 256 := by
  cases f <;> decide

/-- A byte that starts a sequence has one of the forms. -/
theorem exists_lead {b : Nat} (h : 0xc2 ≤ b) (h' : b ≤ 0xf4) : ∃ f : Utf8Form, f.lead ≤ b ∧ b < f.lead + f.limit := by
  by_cases h2 : b < 0xe0
  · exact ⟨two, by simp only [lead]; omega, by simp only [lead, limit]; omega⟩
  by_cases h3 : b < 0xf0
  · exact ⟨three, by simp only [lead]; omega, by simp only [lead, limit]; omega⟩
  · exact ⟨four, by simp only [lead]; omega, by simp only [lead, limit]; omega⟩

/-- A scalar value that is not one byte has a form. -/
theorem exists_form {c : Nat} (h : 0x80 ≤ c) (h' : c ≤ 0x10ffff) : ∃ f : Utf8Form, f.minimum ≤ c ∧ c < f.limit * 64 ^ f.tails ∧
    0xc2 ≤ f.lead + c / 64 ^ f.tails ∧ f.lead + c / 64 ^ f.tails ≤ 0xf4 := by
  by_cases h2 : c < 0x800
  · exact ⟨two, h, h2, by simp only [lead, tails]; omega, by simp only [lead, tails]; omega⟩
  by_cases h3 : c < 0x10000
  · exact ⟨three, Nat.le_of_not_lt h2, h3, by simp only [lead, tails]; omega, by simp only [lead, tails]; omega⟩
  · exact ⟨four, Nat.le_of_not_lt h3, by simp only [limit, tails]; omega, by simp only [lead, tails]; omega, by simp only [lead, tails]; omega⟩

/-- What the encoder writes is a sequence of the shortest form. -/
theorem encode_eq (f : Utf8Form) {c : Nat} (hmin : f.minimum ≤ c) (hlt : c < f.limit * 64 ^ f.tails) (hc : c.isValidChar) :
    utf8Encode c = f.bytes f.tails c := by
  have h80 : 0x80 ≤ c := Nat.le_trans (by cases f <;> decide) hmin
  unfold utf8Encode
  rw [if_neg (by omega)]
  unfold Nat.isValidChar at hc
  cases f with
  | two =>
    have hlead : 0xc0 ||| c >>> 6 = 0xc0 + c / 64 := by
      rw [Nat.shiftRight_eq_div_pow]
      exact (Nat.two_pow_add_eq_or_of_lt (i := 6) (by simp only [limit, tails] at hlt; omega) 3).symm
    rw [if_pos (show c < 0x800 from hlt), hlead, and_63, or_80 (Nat.mod_lt _ (by decide))]
    rfl
  | three =>
    have h800 : 0x800 ≤ c := hmin
    have h10000 : c < 0x10000 := hlt
    have hlead : 0xe0 ||| c >>> 12 = 0xe0 + c / 64 / 64 := by
      rw [Nat.shiftRight_eq_div_pow, Nat.div_div_eq_div_mul]
      exact (Nat.two_pow_add_eq_or_of_lt (i := 5) (by omega) 7).symm
    rw [if_neg (by omega), if_neg (by omega), if_pos h10000, hlead, and_63, and_63, or_80 (Nat.mod_lt _ (by decide)),
      or_80 (Nat.mod_lt _ (by decide)), Nat.shiftRight_eq_div_pow]
    rfl
  | four =>
    have h10000 : 0x10000 ≤ c := hmin
    have h200000 : c < 0x200000 := hlt
    have hlead : 0xf0 ||| c >>> 18 = 0xf0 + c / 64 / 64 / 64 := by
      rw [Nat.shiftRight_eq_div_pow, Nat.div_div_eq_div_mul, Nat.div_div_eq_div_mul]
      exact (Nat.two_pow_add_eq_or_of_lt (i := 4) (by omega) 15).symm
    have h12 : c >>> 12 = c / 64 / 64 := by
      rw [Nat.shiftRight_eq_div_pow, Nat.div_div_eq_div_mul]
    rw [if_neg (by omega), if_neg (by omega), if_neg (by omega), if_neg (by omega), hlead, h12, and_63, and_63, and_63,
      or_80 (Nat.mod_lt _ (by decide)), or_80 (Nat.mod_lt _ (by decide)), or_80 (Nat.mod_lt _ (by decide)),
      Nat.shiftRight_eq_div_pow]
    rfl

end Utf8Form

/-! ## One byte -/

/-- What a decoder reports when its sequence is broken off. -/
def Utf8Decoder.seam (s : Utf8Decoder) : List Nat := if s.remaining ≠ 0 then [questionMark] else []

/-- A byte that continues nothing starts afresh. -/
theorem feed_start (s : Utf8Decoder) {b : UInt8} (h : b.toNat < 0x80 ∨ 0xc0 ≤ b.toNat) :
    utf8Feed s b = utf8Start { s with remaining := 0 } s.seam b.toNat := by
  have hb : ¬b.toNat &&& 0xc0 = 0x80 := by
    rw [tail_iff b.toNat_lt]
    omega
  unfold utf8Feed Utf8Decoder.seam
  obtain ⟨value, minimum, remaining⟩ := s
  by_cases hr : remaining = 0
  · subst hr
    rfl
  · simp only [ne_eq, hr, not_false_eq_true, if_true]
    rw [if_neg hb]

/-- A byte that continues a sequence is taken into it. -/
theorem feed_tail {s : Utf8Decoder} {b : UInt8} (hs : s.remaining ≠ 0) (hb : 0x80 ≤ b.toNat) (hb' : b.toNat < 0xc0)
    (hv : s.value < 2 ^ 26) : utf8Feed s b =
      if s.remaining = 1 then ([utf8Value s.minimum (s.value * 64 + b.toNat % 64)], ⟨s.value * 64 + b.toNat % 64, s.minimum, 0⟩)
      else ([], ⟨s.value * 64 + b.toNat % 64, s.minimum, s.remaining - 1⟩) := by
  have hvalue : ((s.value <<< 6) ||| (b.toNat &&& 63)) % 2 ^ 32 = s.value * 64 + b.toNat % 64 := by
    rw [and_63, shift_or]
    omega
  unfold utf8Feed
  rw [if_pos hs, if_pos ((tail_iff b.toNat_lt).2 ⟨hb, hb'⟩), hvalue]
  by_cases h1 : s.remaining = 1
  · rw [if_neg (by omega), if_pos h1, h1]
  · rw [if_pos (by omega), if_neg h1]

/-- A tail that comes between sequences is reported. -/
theorem feed_stray {s : Utf8Decoder} {b : UInt8} (hs : s.remaining = 0) (hb : 0x80 ≤ b.toNat) (hb' : b.toNat < 0xc0) :
    utf8Feed s b = ([questionMark], s) := by
  unfold utf8Feed utf8Start
  rw [if_neg (by simpa using hs), if_neg (by omega), if_neg (by omega)]
  rfl

/-- The byte that starts a sequence of form `f`. -/
theorem start_lead (f : Utf8Form) (s : Utf8Decoder) (out : List Nat) {v : Nat} (hv : v < f.limit) (h : 0xc2 ≤ f.lead + v)
    (h' : f.lead + v ≤ 0xf4) : utf8Start s out (f.lead + v) = (out, ⟨v, f.minimum, f.tails⟩) := by
  unfold utf8Start
  rw [if_neg (by omega), if_pos ⟨h, h'⟩]
  cases f with
  | two =>
    simp only [Utf8Form.limit] at hv
    have h1 : Utf8Form.two.lead + v < 0xe0 := by simp only [Utf8Form.lead]; omega
    have h2 : Utf8Form.two.lead + v &&& 31 = v := by
      rw [and_31]
      simp only [Utf8Form.lead]
      omega
    rw [if_pos h1, if_pos h1, if_pos h1, h2]
    rfl
  | three =>
    simp only [Utf8Form.limit] at hv
    have h0 : ¬Utf8Form.three.lead + v < 0xe0 := by simp only [Utf8Form.lead]; omega
    have h1 : Utf8Form.three.lead + v < 0xf0 := by simp only [Utf8Form.lead]; omega
    have h2 : Utf8Form.three.lead + v &&& 15 = v := by
      rw [and_15]
      simp only [Utf8Form.lead]
      omega
    rw [if_neg h0, if_neg h0, if_neg h0, if_pos h1, if_pos h1, if_pos h1, h2]
    rfl
  | four =>
    simp only [Utf8Form.limit] at hv
    have h0 : ¬Utf8Form.four.lead + v < 0xe0 := by simp only [Utf8Form.lead]; omega
    have h1 : ¬Utf8Form.four.lead + v < 0xf0 := by simp only [Utf8Form.lead]; omega
    have h2 : Utf8Form.four.lead + v &&& 7 = v := by
      rw [and_7]
      simp only [Utf8Form.lead]
      omega
    rw [if_neg h0, if_neg h0, if_neg h0, if_neg h1, if_neg h1, if_neg h1, h2]
    rfl

/-! ## Decoding what was encoded -/

theorem toNat_ofNat {n : Nat} (h : n < 256) : (UInt8.ofNat n).toNat = n := by
  rw [UInt8.toNat_ofNat']
  exact Nat.mod_eq_of_lt h

theorem limit_mul (f : Utf8Form) {k : Nat} (h : k ≤ f.tails) : f.limit * 64 ^ k ≤ 2 ^ 26 := by
  have hpow : 64 ^ k ≤ 64 ^ f.tails := Nat.pow_le_pow_right (by decide) h
  have hall : f.limit * 64 ^ f.tails ≤ 2 ^ 26 := by cases f <;> decide
  exact Nat.le_trans (Nat.mul_le_mul_left _ hpow) hall

/-- The bits before the last tail. -/
theorem div_lt {f : Utf8Form} {k v : Nat} (h : v < f.limit * 64 ^ (k + 1)) : v / 64 < f.limit * 64 ^ k := by
  rw [Nat.div_lt_iff_lt_mul (by decide), Nat.mul_assoc, ← pow_succ]
  exact h

/-- Any decoder takes a sequence that is not yet complete, and only reports what it breaks off. -/
theorem decode_started (f : Utf8Form) (s : Utf8Decoder) {k v : Nat} (hk : k < f.tails) (hv : v < f.limit * 64 ^ k)
    (h : 0xc2 ≤ f.lead + v / 64 ^ k) (h' : f.lead + v / 64 ^ k ≤ 0xf4) :
    utf8Decode s (f.bytes k v) = (s.seam, ⟨v, f.minimum, f.tails - k⟩) := by
  induction k generalizing v with
  | zero =>
    rw [pow_zero, Nat.div_one] at h h'
    rw [pow_zero, Nat.mul_one] at hv
    have hb : (UInt8.ofNat (f.lead + v)).toNat = f.lead + v := toNat_ofNat (by have := f.lead_add_limit; omega)
    show ((utf8Feed s _).1 ++ [], (utf8Feed s _).2) = _
    rw [feed_start s (by omega), hb, start_lead f _ _ hv h h', List.append_nil]
    rfl
  | succ k ih =>
    have hdiv : v / 64 / 64 ^ k = v / 64 ^ (k + 1) := by rw [Nat.div_div_eq_div_mul, ← pow_succ']
    have hb : (UInt8.ofNat (0x80 + v % 64)).toNat = 0x80 + v % 64 := toNat_ofNat (by omega)
    have hlt := div_lt hv
    have hbound := limit_mul f (Nat.le_of_lt (Nat.lt_of_succ_lt hk))
    rw [Utf8Form.bytes, utf8Decode_append, ih (Nat.lt_of_succ_lt hk) hlt (by rw [hdiv]; exact h) (by rw [hdiv]; exact h')]
    dsimp only [utf8Decode]
    rw [feed_tail (by dsimp only; omega) (by omega) (by omega) (Nat.lt_of_lt_of_le hlt hbound), if_neg (by dsimp only; omega)]
    have hvalue : v / 64 * 64 + (0x80 + v % 64) % 64 = v := by omega
    dsimp only
    rw [hb, hvalue, List.append_nil, List.append_nil, Nat.sub_sub]

/-- A complete sequence gives its value, if that is one of the shortest form. -/
theorem decode_bytes (f : Utf8Form) (s : Utf8Decoder) {v : Nat} (hv : v < f.limit * 64 ^ f.tails)
    (h : 0xc2 ≤ f.lead + v / 64 ^ f.tails) (h' : f.lead + v / 64 ^ f.tails ≤ 0xf4) :
    utf8Decode s (f.bytes f.tails v) = (s.seam ++ [utf8Value f.minimum v], ⟨v, f.minimum, 0⟩) := by
  obtain ⟨k, hk⟩ : ∃ k, f.tails = k + 1 := by cases f <;> exact ⟨_, rfl⟩
  rw [hk] at hv h h' ⊢
  have hdiv : v / 64 / 64 ^ k = v / 64 ^ (k + 1) := by rw [Nat.div_div_eq_div_mul, ← pow_succ']
  have hb : (UInt8.ofNat (0x80 + v % 64)).toNat = 0x80 + v % 64 := toNat_ofNat (by omega)
  have hlt := div_lt hv
  have hbound := limit_mul f (show k ≤ f.tails by omega)
  have hone : f.tails - k = 1 := by omega
  rw [Utf8Form.bytes, utf8Decode_append,
    decode_started f s (by omega) hlt (by rw [hdiv]; exact h) (by rw [hdiv]; exact h')]
  dsimp only [utf8Decode]
  rw [feed_tail (by dsimp only; omega) (by omega) (by omega) (Nat.lt_of_lt_of_le hlt hbound), if_pos hone]
  have hvalue : v / 64 * 64 + (0x80 + v % 64) % 64 = v := by omega
  dsimp only
  rw [hb, hvalue, List.append_nil]

/-- One encoded character. -/
theorem decode_encode (s : Utf8Decoder) (c : Char) :
    ∃ t : Utf8Decoder, t.remaining = 0 ∧ utf8Decode s (utf8Encode c.toNat) = (s.seam ++ [c.toNat], t) := by
  have hvalid : c.toNat.isValidChar := c.valid
  by_cases h80 : c.toNat < 0x80
  · have hb : (UInt8.ofNat c.toNat).toNat = c.toNat := toNat_ofNat (by omega)
    refine ⟨{ s with remaining := 0 }, rfl, ?_⟩
    rw [utf8Encode, if_pos h80]
    dsimp only [utf8Decode]
    rw [feed_start s (by omega), utf8Start, hb, if_pos h80, List.append_nil]
  · have hmax : c.toNat ≤ 0x10ffff := by
      unfold Nat.isValidChar at hvalid
      omega
    obtain ⟨f, hmin, hlt, h, h'⟩ := Utf8Form.exists_form (Nat.le_of_not_lt h80) hmax
    refine ⟨⟨c.toNat, f.minimum, 0⟩, rfl, ?_⟩
    have hvalue : utf8Value f.minimum c.toNat = c.toNat := by
      unfold utf8Value
      unfold Nat.isValidChar at hvalid
      exact if_neg (by omega)
    rw [f.encode_eq hmin hlt hvalid, decode_bytes f s hlt h h', hvalue]

/-- The bytes of a text. -/
def utf8Text (cs : List Char) : List UInt8 := cs.flatMap fun c => utf8Encode c.toNat

theorem decode_text (s : Utf8Decoder) (cs : List Char) :
    (utf8Decode s (utf8Text cs)).1 = (if cs = [] then [] else s.seam) ++ cs.map Char.toNat := by
  induction cs generalizing s with
  | nil => rfl
  | cons c cs ih =>
    obtain ⟨t, ht, hdecode⟩ := decode_encode s c
    have hseam : t.seam = [] := by
      unfold Utf8Decoder.seam
      rw [if_neg (by simpa using ht)]
    rw [utf8Text, List.flatMap_cons, utf8Decode_append, hdecode, if_neg (List.cons_ne_nil _ _)]
    show s.seam ++ [c.toNat] ++ (utf8Decode t (utf8Text cs)).1 = _
    rw [ih t, hseam, ite_self, List.nil_append, List.append_assoc]
    rfl

/-! ## Any bytes -/

theorem valid_value (minimum c : Nat) : (utf8Value minimum c).isValidChar := by
  unfold utf8Value
  split
  · exact .inl (by decide)
  · unfold Nat.isValidChar
    omega

theorem valid_start (s : Utf8Decoder) {out : List Nat} (h : ∀ c ∈ out, c.isValidChar) (b : Nat) :
    ∀ c ∈ (utf8Start s out b).1, c.isValidChar := by
  unfold utf8Start
  intro c hc
  split at hc
  · rename_i hb
    rcases List.mem_append.1 hc with hc | hc
    · exact h c hc
    · obtain rfl := List.mem_singleton.1 hc
      exact .inl (by omega)
  split at hc
  · exact h c hc
  · rcases List.mem_append.1 hc with hc | hc
    · exact h c hc
    · obtain rfl := List.mem_singleton.1 hc
      exact .inl (by decide)

/-- Only scalar values are reported. -/
theorem valid_feed (s : Utf8Decoder) (b : UInt8) : ∀ c ∈ (utf8Feed s b).1, c.isValidChar := by
  unfold utf8Feed
  dsimp only
  split
  · split
    · split
      · exact fun c hc => absurd hc List.not_mem_nil
      · intro c hc
        obtain rfl := List.mem_singleton.1 hc
        exact valid_value _ _
    · refine valid_start _ (fun c hc => ?_) _
      obtain rfl := List.mem_singleton.1 hc
      exact .inl (by decide)
  · exact valid_start _ (fun c hc => absurd hc List.not_mem_nil) _

theorem valid_decode (s : Utf8Decoder) (bs : List UInt8) : ∀ c ∈ (utf8Decode s bs).1, c.isValidChar := by
  induction bs generalizing s with
  | nil => exact fun c hc => absurd hc List.not_mem_nil
  | cons b bs ih =>
    intro c hc
    rcases List.mem_append.1 hc with hc | hc
    · exact valid_feed s b c hc
    · exact ih _ c hc

theorem length_start (s : Utf8Decoder) (out : List Nat) (b : Nat) : (utf8Start s out b).1.length ≤ out.length + 1 := by
  unfold utf8Start
  split
  · simp
  split <;> simp

theorem length_feed (s : Utf8Decoder) (b : UInt8) : (utf8Feed s b).1.length ≤ 2 := by
  unfold utf8Feed
  dsimp only
  split
  · split
    · split
      · exact Nat.zero_le _
      · exact Nat.le_succ _
    · exact length_start _ _ _
  · exact Nat.le_succ_of_le (length_start _ _ _)

/-- The bytes that a decoder has taken without reporting a value are the start of a
sequence. -/
def Utf8Decoder.Holds (s : Utf8Decoder) (bs : List UInt8) : Prop :=
  s.remaining = 0 ∨ ∃ (f : Utf8Form) (k : Nat), k + s.remaining = f.tails ∧ s.minimum = f.minimum ∧ s.value < f.limit * 64 ^ k ∧
    f.bytes k s.value <:+ bs

/-- A byte that is reported as itself, or that is the last one of a sequence of the shortest
form. -/
def Received (bs : List UInt8) (out : List Nat) : Prop := ∀ c ∈ out, c ≠ questionMark → utf8Encode c <:+ bs

theorem ofNat_toNat_eq {b : UInt8} {n : Nat} (h : b.toNat = n) : UInt8.ofNat n = b := by
  rw [← h, UInt8.ofNat_toNat]

theorem holds_start (s : Utf8Decoder) (hs : s.remaining = 0) {out : List Nat} (hout : ∀ c ∈ out, c = questionMark) (bs : List UInt8)
    (b : UInt8) : (utf8Start s out b.toNat).2.Holds (bs ++ [b]) ∧ Received (bs ++ [b]) (utf8Start s out b.toNat).1 := by
  have hsilent : ∀ rest : List Nat, (∀ c ∈ rest, c ≠ questionMark → utf8Encode c <:+ bs ++ [b]) →
      Received (bs ++ [b]) (out ++ rest) := by
    intro rest hrest c hc hne
    rcases List.mem_append.1 hc with hc | hc
    · exact absurd (hout c hc) hne
    · exact hrest c hc hne
  unfold utf8Start
  by_cases h80 : b.toNat < 0x80
  · rw [if_pos h80]
    refine ⟨.inl hs, hsilent _ fun c hc _ => ?_⟩
    obtain rfl := List.mem_singleton.1 hc
    rw [utf8Encode, if_pos h80, UInt8.ofNat_toNat]
    exact List.suffix_append _ _
  rw [if_neg h80]
  by_cases hlead : 0xc2 ≤ b.toNat ∧ b.toNat ≤ 0xf4
  · -- the sequence begins with this byte
    obtain ⟨f, hf, hf'⟩ := Utf8Form.exists_lead hlead.1 hlead.2
    obtain ⟨v, hv⟩ := Nat.exists_eq_add_of_le hf
    have hstart := start_lead f s out (v := v) (by omega) (by omega) (by omega)
    rw [← hv, utf8Start, if_neg h80] at hstart
    rw [hstart]
    refine ⟨.inr ⟨f, 0, Nat.zero_add _, rfl, by dsimp only; omega, ?_⟩, ?_⟩
    · rw [Utf8Form.bytes, ofNat_toNat_eq hv]
      exact List.suffix_append _ _
    · rw [← List.append_nil out]
      exact hsilent [] fun c hc => absurd hc List.not_mem_nil
  · rw [if_neg hlead]
    refine ⟨.inl hs, hsilent _ fun c hc hne => ?_⟩
    exact absurd (List.mem_singleton.1 hc) hne

theorem holds_feed {s : Utf8Decoder} {bs : List UInt8} (h : s.Holds bs) (b : UInt8) :
    (utf8Feed s b).2.Holds (bs ++ [b]) ∧ Received (bs ++ [b]) (utf8Feed s b).1 := by
  by_cases htail : 0x80 ≤ b.toNat ∧ b.toNat < 0xc0
  · obtain ⟨hb, hb'⟩ := htail
    by_cases hs : s.remaining = 0
    · rw [feed_stray hs hb hb']
      exact ⟨.inl hs, fun c hc hne => absurd (List.mem_singleton.1 hc) hne⟩
    · -- one more tail of the sequence
      obtain hs' | ⟨f, k, hk, hmin, hv, hbs⟩ := h
      · exact absurd hs' hs
      have hdiv : (s.value * 64 + b.toNat % 64) / 64 = s.value := by omega
      have hmod : 0x80 + (s.value * 64 + b.toNat % 64) % 64 = b.toNat := by omega
      have hlonger : f.bytes (k + 1) (s.value * 64 + b.toNat % 64) <:+ bs ++ [b] := by
        rw [Utf8Form.bytes, hdiv, hmod, UInt8.ofNat_toNat]
        obtain ⟨before, rfl⟩ := hbs
        exact ⟨before, by rw [List.append_assoc]⟩
      have hvalue : s.value * 64 + b.toNat % 64 < f.limit * 64 ^ (k + 1) := by
        rw [pow_succ, ← Nat.mul_assoc]
        omega
      rw [feed_tail hs hb hb' (Nat.lt_of_lt_of_le hv (limit_mul f (by omega)))]
      by_cases h1 : s.remaining = 1
      · rw [if_pos h1]
        refine ⟨.inl rfl, fun c hc hne => ?_⟩
        obtain rfl := List.mem_singleton.1 hc
        unfold utf8Value at hne ⊢
        by_cases hbad : s.value * 64 + b.toNat % 64 < s.minimum ∨ 0x10ffff < s.value * 64 + b.toNat % 64 ∨
            (0xd800 ≤ s.value * 64 + b.toNat % 64 ∧ s.value * 64 + b.toNat % 64 ≤ 0xdfff)
        · rw [if_pos hbad] at hne
          exact absurd rfl hne
        · rw [if_neg hbad]
          have hall : k + 1 = f.tails := by omega
          rw [hall] at hlonger hvalue
          rw [f.encode_eq (by omega) hvalue (by unfold Nat.isValidChar; omega)]
          exact hlonger
      · rw [if_neg h1]
        refine ⟨.inr ⟨f, k + 1, ?_, hmin, hvalue, hlonger⟩, fun c hc => absurd hc List.not_mem_nil⟩
        dsimp only
        omega
  · rw [feed_start s (by omega)]
    refine holds_start _ rfl (fun c hc => ?_) bs b
    unfold Utf8Decoder.seam at hc
    split at hc
    · exact List.mem_singleton.1 hc
    · exact absurd hc List.not_mem_nil

theorem holds_decode (bs : List UInt8) : (utf8Decode .fresh bs).2.Holds bs := by
  induction bs using List.reverseRecOn with
  | nil => exact .inl rfl
  | append_singleton bs b ih =>
    rw [utf8Decode_append]
    exact (holds_feed ih b).1

/-- A fresh decoder decodes every text. After any other bytes it decodes it too, with at most one
question mark at the seam. Whatever bytes it is fed, it reports scalar values only, other than `?` only
where they were just received in their shortest form, and at most two for a byte. -/
theorem utf8_stream :
    (∀ cs : List Char, (utf8Decode .fresh (utf8Text cs)).1 = cs.map Char.toNat) ∧
    (∀ (bs : List UInt8) (cs : List Char), ∃ seam : List Nat, (seam = [] ∨ seam = [questionMark]) ∧
      (utf8Decode .fresh (bs ++ utf8Text cs)).1 = (utf8Decode .fresh bs).1 ++ seam ++ cs.map Char.toNat) ∧
    (∀ bs : List UInt8, ∀ c ∈ (utf8Decode .fresh bs).1, c.isValidChar) ∧
    (∀ (bs : List UInt8) (b : UInt8), ∀ c ∈ (utf8Feed (utf8Decode .fresh bs).2 b).1, c ≠ questionMark →
      utf8Encode c <:+ bs ++ [b]) ∧
    ∀ (s : Utf8Decoder) (b : UInt8), (utf8Feed s b).1.length ≤ 2 := by
  refine ⟨fun cs => ?_, fun bs cs => ?_, valid_decode _, fun bs b => (holds_feed (holds_decode bs) b).2, length_feed⟩
  · rw [decode_text]
    show (if cs = [] then [] else []) ++ _ = _
    rw [ite_self, List.nil_append]
  · refine ⟨if cs = [] then [] else (utf8Decode .fresh bs).2.seam, ?_, ?_⟩
    · split
      · exact .inl rfl
      · unfold Utf8Decoder.seam
        split
        · exact .inr rfl
        · exact .inl rfl
    · rw [utf8Decode_append, List.append_assoc]
      exact congrArg _ (decode_text _ cs)

end Barnix
