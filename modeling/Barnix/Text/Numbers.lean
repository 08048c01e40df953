import Barnix.Lib.Arrays
import Barnix.Lib.Decimal
import Barnix.Lib.Words
/-!
# Numbers and texts

`itoa` and `atoi` of `barnix.c`. The digits are put into the buffer from the last to the first,
behind them the sign, and the string is reversed in place.
-/

namespace Barnix.Text

/-! ## Reversing -/

/-- `while (i < j)` of `reverse` -/
def reverseLoop : Nat → Nat → Int → Cells → Checked Cells
  | 0, _, _, _ => .error .unfinished
  | rounds + 1, i, j, str =>
    if (i : Int) < j then do
      let t ← str.peek i
      let u ← str.peek j.toNat
      let str ← str.poke i u
      let str ← str.poke j.toNat t
      reverseLoop rounds (i + 1) (j - 1) str
    else .ok str

def reverse (str : Cells) : Checked Cells := do
  let n ← str.strlen
  reverseLoop (str.length + 1) 0 ((n : Int) - 1) str

/-! ## Printing -/

/-- `while (value > 0)` of `itoa`: the digits from index `i` on. -/
def itoaLoop : Nat → Int32 → Nat → Cells → Checked (Nat × Cells)
  | 0, _, _, _ => .error .unfinished
  | rounds + 1, value, i, buffer =>
    if value > 0 then do
      let buffer ← buffer.poke i (48 + value % 10).toUInt32.toUInt8
      itoaLoop rounds (value / 10) (i + 1) buffer
    else .ok (i, buffer)

/-- `if (neg) buffer[i++] = '-';` -/
def putSign (neg : Bool) (i : Nat) (buffer : Cells) : Checked (Nat × Cells) :=
  if neg then do
    let buffer ← buffer.poke i 45
    .ok (i + 1, buffer)
  else .ok (i, buffer)

/-- `-value` wraps for the least `int`. -/
def itoa (value : Int32) (buffer : Cells) : Checked Cells :=
  if value = 0 then do
    let buffer ← buffer.poke 0 48
    buffer.poke 1 0
  else do
    let (i, buffer) ← itoaLoop 32 (if value < 0 then -value else value) 0 buffer
    let (i, buffer) ← putSign (value < 0) i buffer
    let buffer ← buffer.poke i 0
    reverse buffer

/-! ## Parsing -/

/-- The digits from index `i` on, behind `value`. -/
def atoiLoop (str : Cells) : Nat → Nat → Int32 → Checked Int32
  | 0, _, _ => .error .unfinished
  | rounds + 1, i, value => do
    let c ← str.peek i
    if IsDigit c then atoiLoop str rounds (i + 1) (value * 10 + (.ofInt c.toNat - 48))
    else .ok value

def atoi (str : Cells) : Checked Int32 := do
  let c ← str.peek 0
  let (sign, i) : Int32 × Nat := if c = 45 then (-1, 1) else (1, 0)
  let value ← atoiLoop str (str.length + 1) i 0
  .ok (value * sign)

/-- What `itoa` writes for a number is its decimal form, fits into 12 bytes with its NUL, and is parsed
to the number again. -/
def Prints (v : Int32) : Prop :=
  (signedOf v.toInt ++ [0]).length ≤ 12 ∧
    ∀ buffer : Cells, 12 ≤ buffer.length →
      itoa v buffer = .ok (signedOf v.toInt ++ 0 :: buffer.drop (signedOf v.toInt ++ [0]).length) ∧
        (itoa v buffer >>= atoi) = .ok v

/-! ## A string turned round -/

theorem reverseLoop_eq (mid : List UInt8) : ∀ {rounds : Nat} (before after : Cells), mid.length < rounds →
    reverseLoop rounds before.length (before.length + mid.length - 1) (before ++ mid ++ after) = .ok (before ++ mid.reverse ++ after) := by
  induction mid using List.bidirectionalRec with
  | nil =>
    intro rounds before after hrounds
    obtain ⟨rounds, rfl⟩ := Nat.exists_eq_add_one.2 hrounds
    rw [reverseLoop, if_neg (by rw [List.length_nil]; omega)]
    rfl
  | singleton c =>
    intro rounds before after hrounds
    obtain ⟨rounds, rfl⟩ := Nat.exists_eq_add_one.2 (Nat.lt_of_le_of_lt (Nat.zero_le _) hrounds)
    rw [reverseLoop, if_neg (by rw [List.length_singleton]; omega)]
    rfl
  | cons_append c mid d ih =>
    intro rounds before after hrounds
    have hlen : (c :: (mid ++ [d])).length = mid.length + 2 := by rw [List.length_cons, List.length_append, List.length_singleton]
    rw [hlen] at hrounds
    obtain ⟨rounds, rfl⟩ := Nat.exists_eq_add_one.2 (Nat.lt_of_le_of_lt (Nat.zero_le _) hrounds)
    have hlast : ((before.length : Int) + (mid.length + 2 : Nat) - 1).toNat = (before ++ c :: mid).length := by
      rw [List.length_append, List.length_cons]
      omega
    have hlast' : (before ++ c :: mid).length = (before ++ d :: mid).length := by
      rw [List.length_append, List.length_append, List.length_cons, List.length_cons]
    have hfirst : before ++ c :: (mid ++ [d]) ++ after = before ++ c :: (mid ++ d :: after) := by simp
    have hsecond : before ++ c :: (mid ++ d :: after) = before ++ c :: mid ++ d :: after := by simp
    have hthird : before ++ d :: (mid ++ d :: after) = before ++ d :: mid ++ d :: after := by simp
    have hstep := @ih rounds (before ++ [d]) (c :: after) (by omega)
    rw [reverseLoop, hlen, if_pos (by omega), hlast, hfirst, Cells.peek_append, ok_bind, hsecond, Cells.peek_append, ok_bind, ← hsecond,
      Cells.poke_append, ok_bind, hthird, hlast', Cells.poke_append, ok_bind]
    rw [List.length_append, List.length_singleton] at hstep
    convert hstep using 2
    · push_cast
      omega
    · simp
    · simp

theorem reverse_eq {s : List UInt8} (h : 0 ∉ s) (rest : Cells) : reverse (s ++ 0 :: rest) = .ok (s.reverse ++ 0 :: rest) := by
  have hlen : Cells.strlen (s ++ 0 :: rest) = .ok s.length := Cells.strlen_holds ⟨h, rest, rfl⟩
  have hloop := @reverseLoop_eq s ((s ++ 0 :: rest).length + 1) [] (0 :: rest) (by rw [List.length_append]; omega)
  rw [reverse, hlen, ok_bind]
  simpa using hloop

/-! ## The digits of a positive number -/

theorem toUInt8_digit {v : Int32} {n : Nat} (h : v.toInt = n) : (48 + v % 10).toUInt32.toUInt8 = .ofNat (48 + n % 10) := by
  have hdigit : (48 + v % 10).toInt = (48 + n % 10 : Nat) := by
    have hmod : (v % 10).toInt = (n % 10 : Nat) := by
      rw [Int32.toInt_mod, h]
      rfl
    rw [Int32.toInt_add, hmod]
    change (48 + ((n % 10 : Nat) : Int)).bmod (2 ^ 32) = _
    rw [Int.bmod_eq_of_le (by omega) (by omega)]
    rfl
  have hword := toInt_eq_toNat (48 + v % 10)
  apply UInt8.toNat_inj.1
  rw [toNat_digit (Nat.mod_lt _ (by decide)), UInt32.toNat_toUInt8]
  split at hword <;> omega

theorem toInt_div_ten {v : Int32} {n : Nat} (h : v.toInt = n) : (v / 10).toInt = (n / 10 : Nat) := by
  rw [Int32.toInt_div_of_ne_right _ _ (by decide), h]
  rfl

theorem itoaLoop_zero {v : Int32} (h : v.toInt = (0 : Nat)) {rounds : Nat} (hrounds : 0 < rounds) (i : Nat) (buffer : Cells) :
    itoaLoop rounds v i buffer = .ok (i, buffer) := by
  obtain ⟨rounds, rfl⟩ := Nat.exists_eq_add_one.2 hrounds
  rw [itoaLoop, if_neg]
  rw [gt_iff_lt, Int32.lt_iff_toInt_lt, h]
  exact Int.lt_irrefl 0

theorem itoaLoop_eq (n : Nat) : ∀ {v : Int32} {rounds : Nat} (before : Cells) {old : List UInt8} (rest : Cells), v.toInt = n → 0 < n →
    (decimalOf n).length < rounds → old.length = (decimalOf n).length →
    itoaLoop rounds v before.length (before ++ old ++ rest) =
      .ok (before.length + (decimalOf n).length, before ++ (decimalOf n).reverse ++ rest) := by
  induction n using decimalOf_induction with
  | small n hsmall =>
    intro v rounds before old rest hv hpos hrounds hold
    rw [decimalOf_small hsmall] at hrounds hold ⊢
    obtain ⟨c, rfl⟩ := List.length_eq_one_iff.1 hold
    obtain ⟨rounds, rfl⟩ := Nat.exists_eq_add_one.2 (Nat.lt_of_le_of_lt (Nat.zero_le _) hrounds)
    have hzero : (v / 10).toInt = (0 : Nat) := by rw [toInt_div_ten hv, Nat.div_eq_of_lt hsmall]
    have hgt : v > 0 := by
      rw [gt_iff_lt, Int32.lt_iff_toInt_lt, hv]
      exact Int.natCast_pos.2 hpos
    rw [itoaLoop, if_pos hgt, toUInt8_digit hv, Nat.mod_eq_of_lt hsmall, List.append_assoc, List.singleton_append,
      Cells.poke_append, ok_bind, itoaLoop_zero hzero (by simpa using hrounds)]
    simp
  | append n hmore ih =>
    intro v rounds before old rest hv hpos hrounds hold
    rw [decimalOf_append hmore, List.length_append, List.length_singleton] at hrounds hold
    obtain ⟨c, old, rfl⟩ := List.exists_cons_of_length_eq_add_one hold
    obtain ⟨rounds, rfl⟩ := Nat.exists_eq_add_one.2 (Nat.lt_of_le_of_lt (Nat.zero_le _) hrounds)
    have hgt : v > 0 := by
      rw [gt_iff_lt, Int32.lt_iff_toInt_lt, hv]
      exact Int.natCast_pos.2 hpos
    have hstep := ih (before ++ [.ofNat (48 + n % 10)]) rest (toInt_div_ten hv) (by omega) (show _ < rounds by omega)
      (show old.length = _ by simpa using hold)
    rw [itoaLoop, if_pos hgt, toUInt8_digit hv, List.append_assoc, List.cons_append, Cells.poke_append, ok_bind, decimalOf_append hmore]
    rw [List.length_append, List.length_singleton] at hstep
    simp only [List.append_assoc, List.cons_append, List.nil_append] at hstep ⊢
    rw [hstep]
    simp
    omega

/-! ## Printing a number -/

theorem not_mem_decimalOf {c : UInt8} (h : ¬ IsDigit c) (n : Nat) : c ∉ decimalOf n := fun hc => h ((numeral_decimalOf n).digits c hc)

theorem itoa_of_pos {v : Int32} {n : Nat} (hv : v.toInt = n) (hpos : 0 < n) (hn : (decimalOf n).length < 32) {old : List UInt8}
    (hold : old.length = (decimalOf n).length) (c : UInt8) (rest : Cells) :
    itoa v (old ++ c :: rest) = .ok (decimalOf n ++ 0 :: rest) := by
  have hnonzero : v ≠ 0 := by
    rintro rfl
    exact absurd hv (by rw [Int32.toInt_zero]; omega)
  have hnot : ¬ v < 0 := by
    rw [Int32.lt_iff_toInt_lt, hv]
    exact Int.not_lt.2 (Int.natCast_nonneg n)
  have hloop := itoaLoop_eq n [] (c :: rest) hv hpos hn hold
  rw [List.nil_append, List.nil_append, List.length_nil, Nat.zero_add] at hloop
  rw [itoa, if_neg hnonzero, if_neg hnot, hloop, ok_bind, decide_eq_false hnot]
  dsimp only
  rw [putSign, if_neg Bool.false_ne_true, ok_bind]
  dsimp only
  rw [← List.length_reverse, Cells.poke_append, ok_bind, reverse_eq, List.reverse_reverse]
  rw [List.mem_reverse]
  exact not_mem_decimalOf (by decide) n

/-- A number is negated before its digits are taken, so the least one has none. -/
theorem itoa_of_neg {v : Int32} {n : Nat} (hv : v.toInt = -n) (hpos : 0 < n) (hneg : (-v).toInt = n) (hn : (decimalOf n).length < 32)
    {old : List UInt8} (hold : old.length = (decimalOf n).length) (c d : UInt8) (rest : Cells) :
    itoa v (old ++ c :: d :: rest) = .ok (45 :: decimalOf n ++ 0 :: rest) := by
  have hlt : v < 0 := by
    rw [Int32.lt_iff_toInt_lt, hv, Int32.toInt_zero]
    omega
  have hnonzero : v ≠ 0 := by
    rintro rfl
    exact absurd hlt (by decide)
  have hloop := itoaLoop_eq n [] (c :: d :: rest) hneg hpos hn hold
  rw [List.nil_append, List.nil_append, List.length_nil, Nat.zero_add] at hloop
  rw [itoa, if_neg hnonzero, if_pos hlt, hloop, ok_bind, decide_eq_true hlt]
  dsimp only
  have hsigned : (decimalOf n).reverse ++ 45 :: d :: rest = (45 :: decimalOf n).reverse ++ d :: rest := by
    rw [List.reverse_cons, List.append_assoc]
    rfl
  have hlen : (decimalOf n).reverse.length + 1 = (45 :: decimalOf n).reverse.length := by
    rw [List.length_reverse, List.length_reverse, List.length_cons]
  rw [putSign, if_pos rfl, ← List.length_reverse, Cells.poke_append, ok_bind, ok_bind, hsigned]
  dsimp only
  rw [hlen, Cells.poke_append, ok_bind, reverse_eq, List.reverse_reverse]
  rw [List.mem_reverse, List.mem_cons, not_or]
  exact ⟨by decide, not_mem_decimalOf (by decide) n⟩

/-- The least number stays negative, and only its sign is written. -/
theorem itoa_least {v : Int32} (hv : v.toInt = -2147483648) (c d : UInt8) (rest : Cells) :
    itoa v (c :: d :: rest) = .ok (45 :: 0 :: rest) := by
  have hleast : v = -2147483648 := Int32.toInt_inj.1 hv
  have hloop : itoaLoop 32 (-v) 0 (c :: d :: rest) = .ok (0, c :: d :: rest) := by
    rw [hleast]
    rfl
  have hlt : v < 0 := by
    rw [hleast]
    decide
  rw [itoa, if_neg (by rw [hleast]; decide), if_pos hlt, hloop, ok_bind, decide_eq_true hlt]
  exact @reverse_eq [45] (by decide) rest

/-! ## Parsing it again -/

theorem atoiLoop_eq {c : UInt8} (hc : ¬ IsDigit c) (rest : Cells) (text : List UInt8) : ∀ {rounds : Nat} (before done : List UInt8),
    (∀ d ∈ text, IsDigit d) → text.length < rounds →
    atoiLoop (before ++ text ++ c :: rest) rounds before.length (.ofInt (numberOf done)) = .ok (.ofInt (numberOf (done ++ text))) := by
  induction text with
  | nil =>
    intro rounds before done _ hrounds
    obtain ⟨rounds, rfl⟩ := Nat.exists_eq_add_one.2 hrounds
    rw [List.append_nil, List.append_nil, atoiLoop, Cells.peek_append, ok_bind, if_neg hc]
  | cons d text ih =>
    intro rounds before done hdigits hrounds
    rw [List.forall_mem_cons] at hdigits
    rw [List.length_cons] at hrounds
    obtain ⟨rounds, rfl⟩ := Nat.exists_eq_add_one.2 (Nat.lt_of_le_of_lt (Nat.zero_le _) hrounds)
    have hnext : Int32.ofInt (numberOf done) * 10 + (.ofInt d.toNat - 48) = .ofInt (numberOf (done ++ [d])) := by
      obtain ⟨hlow, -⟩ := hdigits.1
      have hvalue : ((numberOf (done ++ [d]) : Nat) : Int) = numberOf done * 10 + ((d.toNat : Int) - 48) := by
        rw [numberOf_append]
        omega
      rw [hvalue, Int32.ofInt_add, Int32.ofInt_mul, Int32.ofInt_sub]
      rfl
    have hstep := ih (before ++ [d]) (done ++ [d]) hdigits.2 (show text.length < rounds by omega)
    rw [atoiLoop, List.append_assoc, List.cons_append, Cells.peek_append, ok_bind, if_pos hdigits.1, hnext]
    simpa using hstep

/-- The digits of a number and its sign are parsed to the number, as far as an `int` holds it. -/
theorem atoi_signedOf (k : Int) (rest : Cells) : atoi (signedOf k ++ 0 :: rest) = .ok (.ofInt k) := by
  have hdigits := (numeral_decimalOf k.natAbs).digits
  have hvalue := (numeral_decimalOf k.natAbs).value
  by_cases hneg : k < 0
  · have hloop := @atoiLoop_eq 0 (by decide) rest _ (([45] ++ decimalOf k.natAbs ++ 0 :: rest).length + 1) [45] [] hdigits
      (by rw [List.length_append, List.length_append]; omega)
    rw [List.nil_append, hvalue] at hloop
    have hk : -(k.natAbs : Int) = k := by omega
    rw [signedOf, if_pos hneg, atoi]
    change (do
      let value ← atoiLoop _ _ ([45] : Cells).length (.ofInt (numberOf []))
      .ok (value * -1)) = _
    rw [hloop, ok_bind, Int32.mul_neg, Int32.mul_one, ← Int32.ofInt_neg, hk]
  · obtain ⟨c, more, hshape⟩ := List.exists_cons_of_ne_nil (numeral_decimalOf k.natAbs).nonempty
    have hfirst : c ≠ 45 := by
      rintro rfl
      exact not_mem_decimalOf (by decide) _ (hshape ▸ List.mem_cons_self ..)
    have hloop := @atoiLoop_eq 0 (by decide) rest _ ((decimalOf k.natAbs ++ 0 :: rest).length + 1) [] [] hdigits
      (by rw [List.length_append]; omega)
    rw [List.nil_append, hvalue] at hloop
    have hk : (k.natAbs : Int) = k := by omega
    have hpeek : Cells.peek (decimalOf k.natAbs ++ 0 :: rest) 0 = .ok c := by rw [hshape]; rfl
    rw [signedOf, if_neg hneg, List.nil_append, atoi, hpeek, ok_bind, if_neg hfirst]
    change (do
      let value ← atoiLoop _ _ ([] : Cells).length (.ofInt (numberOf []))
      .ok (value * 1)) = _
    rw [hloop, ok_bind, Int32.mul_one, hk]

theorem split_at {buffer : Cells} {n : Nat} (h : n < buffer.length) : ∃ old c rest, old.length = n ∧ buffer = old ++ c :: rest := by
  refine ⟨buffer.take n, buffer[n], buffer.drop (n + 1), List.length_take_of_le (Nat.le_of_lt h), ?_⟩
  rw [← List.drop_eq_getElem_cons h, List.take_append_drop]

/-- Every `int` but the least one is printed and parsed again. -/
theorem prints_iff (v : Int32) : Prints v ↔ v.toInt ≠ -2147483648 := by
  have hlow := v.le_toInt
  have hhigh := v.toInt_lt
  constructor
  · rintro ⟨-, hprints⟩ hleast
    have hwritten := (hprints (List.replicate 12 0) (by decide)).1
    rw [hleast] at hwritten
    have hsign := hwritten.symm.trans (itoa_least hleast 0 0 (List.replicate 10 0))
    exact absurd (Except.ok.inj hsign) (by decide +kernel)
  · intro hv
    have hdigits : (decimalOf v.toInt.natAbs).length ≤ 10 := length_decimalOf (by omega) (by decide)
    have hlen : (signedOf v.toInt ++ [0]).length = (if v.toInt < 0 then 1 else 0) + (decimalOf v.toInt.natAbs).length + 1 := by
      rw [signedOf, List.length_append, List.length_append]
      split <;> rfl
    have hshort : (signedOf v.toInt ++ [0]).length ≤ 12 := by
      rw [hlen]
      split <;> omega
    refine ⟨hshort, fun buffer hbuffer => ?_⟩
    suffices hwritten : itoa v buffer = .ok (signedOf v.toInt ++ 0 :: buffer.drop (signedOf v.toInt ++ [0]).length) by
      refine ⟨hwritten, ?_⟩
      rw [hwritten, ok_bind, atoi_signedOf, Int32.ofInt_toInt]
    rw [hlen]
    rcases Int.lt_trichotomy v.toInt 0 with hneg | hzero | hpos
    · obtain ⟨old, c, after, hold, rfl⟩ := split_at (show (decimalOf v.toInt.natAbs).length < buffer.length by omega)
      have hafter : 0 < after.length := by
        rw [List.length_append, List.length_cons] at hbuffer
        omega
      obtain ⟨d, rest, rfl⟩ := List.exists_cons_of_length_pos hafter
      have hminus : (-v).toInt = v.toInt.natAbs := by
        rw [Int32.toInt_neg, Int.bmod_eq_of_le (by omega) (by omega)]
        omega
      rw [itoa_of_neg (by omega) (by omega) hminus (by omega) hold, signedOf, if_pos hneg, if_pos hneg, ← hold,
        show 1 + old.length + 1 = old.length + 2 by omega]
      simp
    · obtain rfl : v = 0 := Int32.toInt_inj.1 hzero
      obtain ⟨c, rest, rfl⟩ := List.exists_cons_of_length_pos (show 0 < buffer.length by omega)
      obtain ⟨d, rest, rfl⟩ := List.exists_cons_of_length_pos (show 0 < rest.length by rw [List.length_cons] at hbuffer; omega)
      rfl
    · obtain ⟨old, c, after, hold, rfl⟩ := split_at (show (decimalOf v.toInt.natAbs).length < buffer.length by omega)
      rw [itoa_of_pos (by omega) (by omega) (by omega) hold, signedOf, if_neg (by omega), if_neg (by omega), ← hold]
      simp

theorem not_prints_least : ¬ Prints (-2147483648) := by
  rintro ⟨-, hprints⟩
  have hread := (hprints (List.replicate 12 0) (by decide)).2
  have hzero : (itoa (-2147483648) (List.replicate 12 0) >>= atoi) = .ok 0 := rfl
  exact absurd (Except.ok.inj (hread.symm.trans hzero)) (by decide)

end Barnix.Text
