import Mathlib.Data.Nat.Digits.Lemmas
/-!
# Decimal numerals

Numbers as texts of digits. Loops that print one take its digits from the last to the first, so what
they do is said by `decimalOf_append`; loops that read one go the other way, as `numberOf` does.
-/

namespace Barnix

/-- A number in decimal. -/
def decimalOf (n : Nat) : List UInt8 := if n = 0 then [48] else (Nat.digits 10 n).reverse.map fun d => .ofNat (48 + d)

def signedOf (v : Int) : List UInt8 := (if v < 0 then [45] else []) ++ decimalOf v.natAbs

def IsDigit (c : UInt8) : Prop := 48 ≤ c.toNat ∧ c.toNat ≤ 57

instance : DecidablePred IsDigit := fun c => inferInstanceAs (Decidable (48 ≤ c.toNat ∧ c.toNat ≤ 57))

/-- What the digits of a text stand for. -/
def numberOf (text : List UInt8) : Nat := text.foldl (fun n c => 10 * n + (c.toNat - 48)) 0

structure Numeral (n : Nat) (text : List UInt8) : Prop where
  nonempty : text ≠ []
  digits : ∀ c ∈ text, IsDigit c
  value : numberOf text = n

/-- No numeral of the number is shorter. -/
structure Shortest (n : Nat) (text : List UInt8) : Prop where
  numeral : Numeral n text
  least : ∀ {other}, Numeral n other → text.length ≤ other.length

/-! ## The last digit -/

theorem decimalOf_small {n : Nat} (h : n < 10) : decimalOf n = [.ofNat (48 + n)] := by
  unfold decimalOf
  split
  · rename_i hzero
    rw [hzero]
    rfl
  · rename_i hpos
    rw [Nat.digits_of_lt 10 n hpos h]
    rfl

theorem decimalOf_append {n : Nat} (h : n / 10 ≠ 0) : decimalOf n = decimalOf (n / 10) ++ [.ofNat (48 + n % 10)] := by
  rw [decimalOf, if_neg (show n ≠ 0 by omega), decimalOf, if_neg h, Nat.digits_def' (by decide) (show 0 < n by omega),
    List.reverse_cons, List.map_append]
  rfl

/-- Induction on a number by its digits. -/
theorem decimalOf_induction {P : Nat → Prop} (small : ∀ n, n < 10 → P n) (append : ∀ n, n / 10 ≠ 0 → P (n / 10) → P n) (n : Nat) :
    P n := by
  induction n using Nat.strong_induction_on with
  | h n ih =>
    by_cases hlast : n / 10 = 0
    · exact small n (by omega)
    · exact append n hlast (ih _ (by omega))

theorem length_decimalOf {n room : Nat} (hn : n < 10 ^ room) (h : 0 < room) : (decimalOf n).length ≤ room := by
  unfold decimalOf
  split
  · exact h
  · rw [List.length_map, List.length_reverse]
    exact (Nat.digits_length_le_iff (by decide) n).2 hn

/-! ## Reading -/

theorem numberOf_append (text : List UInt8) (c : UInt8) : numberOf (text ++ [c]) = 10 * numberOf text + (c.toNat - 48) := by
  rw [numberOf, List.foldl_append]
  rfl

theorem toNat_digit {d : Nat} (h : d < 10) : (UInt8.ofNat (48 + d)).toNat = 48 + d := by
  rw [UInt8.toNat_ofNat']
  omega

theorem isDigit_digit {d : Nat} (h : d < 10) : IsDigit (.ofNat (48 + d)) := by
  unfold IsDigit
  rw [toNat_digit h]
  omega

theorem numberOf_lt {text : List UInt8} (h : ∀ c ∈ text, IsDigit c) : numberOf text < 10 ^ text.length := by
  induction text using List.reverseRecOn with
  | nil => exact Nat.one_pos
  | append_singleton text c ih =>
    rw [List.forall_mem_append] at h
    have hrest := ih h.1
    obtain ⟨-, hc⟩ := h.2 c (List.mem_singleton_self c)
    rw [numberOf_append, List.length_append, List.length_singleton, Nat.pow_succ]
    omega

theorem numeral_decimalOf (n : Nat) : Numeral n (decimalOf n) := by
  induction n using decimalOf_induction with
  | small n h =>
    rw [decimalOf_small h]
    refine ⟨List.cons_ne_nil _ _, fun c hc => ?_, ?_⟩
    · rw [List.mem_singleton.1 hc]
      exact isDigit_digit h
    · change 10 * 0 + ((UInt8.ofNat (48 + n)).toNat - 48) = n
      rw [toNat_digit h]
      omega
  | append n h ih =>
    have hlast : n % 10 < 10 := Nat.mod_lt _ (by decide)
    rw [decimalOf_append h]
    refine ⟨List.append_ne_nil_of_left_ne_nil ih.nonempty _, List.forall_mem_append.2 ⟨ih.digits, fun c hc => ?_⟩, ?_⟩
    · rw [List.mem_singleton.1 hc]
      exact isDigit_digit hlast
    · rw [numberOf_append, ih.value, toNat_digit hlast]
      omega

theorem shortest_decimalOf (n : Nat) : Shortest n (decimalOf n) where
  numeral := numeral_decimalOf n
  least {other} h := by
    have hvalue := numberOf_lt h.digits
    rw [h.value] at hvalue
    exact length_decimalOf hvalue (List.length_pos_iff.2 h.nonempty)

end Barnix
