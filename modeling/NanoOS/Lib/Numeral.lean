/-
# Numerals

The numeral of a number to a base: its digits, the most significant one first,
without leading zeros. As text it is a string of bytes, with upper-case letters
for the digits from ten on, and for a negative number a minus sign in front;
`parse` and `parseInt` read it back. `Nat.digits` has the digits the other way
round.

The last section has the division of machine integers that are not negative.

Key definitions: `numeral`, `text`, `intText`, `parse`, `parseInt`, `IsNumeral`.
Key theorems: `value_numeral`, `numeral_length_le`, `parse_text`, `text_plain`,
`parseInt_intText`.
-/
import Mathlib.Data.Nat.Digits.Lemmas

namespace Numeral

/-- The digits of `n` to the base `b`, the most significant one first. -/
def numeral (b n : ℕ) : List ℕ := if n = 0 then [0] else (Nat.digits b n).reverse

/-- The number that digits stand for. -/
def value (b : ℕ) (l : List ℕ) : ℕ := l.foldl (fun v d => b * v + d) 0

/-- The character of a digit. -/
def digitChar (d : ℕ) : BitVec 8 := if d < 10 then BitVec.ofNat 8 (48 + d) else BitVec.ofNat 8 (55 + d)

/-- The digit of a character. -/
def charDigit (c : BitVec 8) : Option ℕ :=
  if 48 ≤ c.toNat ∧ c.toNat ≤ 57 then some (c.toNat - 48)
  else if 65 ≤ c.toNat ∧ c.toNat ≤ 90 then some (c.toNat - 55)
  else none

/-- The numeral of `n` to the base `b`, as text. -/
def text (b n : ℕ) : List (BitVec 8) := (numeral b n).map digitChar

/-- One more digit. -/
def parseDigit (b v : ℕ) (c : BitVec 8) : Option ℕ := do
  let d ← charDigit c
  if d < b then some (b * v + d) else none

/-- The number that a text stands for, if it is made of digits of the base. -/
def parse (b : ℕ) (s : List (BitVec 8)) : Option ℕ := if s = [] then none else s.foldlM (parseDigit b) 0

/-- No zero stands in front of other digits. -/
def Plain (s : List (BitVec 8)) : Prop := s.head? = some 48#8 → s = [48#8]

/-- `s` is the numeral of `n`: digits of the base that stand for it, without
leading zeros. -/
structure IsNumeral (b : ℕ) (s : List (BitVec 8)) (n : ℕ) : Prop where
  parse : parse b s = some n
  plain : Plain s

/-- The numeral of an integer: with a minus sign if it is negative. -/
def intText (b : ℕ) (z : ℤ) : List (BitVec 8) := if z < 0 then 45#8 :: text b z.natAbs else text b z.natAbs

/-- The integer that a text stands for. -/
def parseInt (b : ℕ) (s : List (BitVec 8)) : Option ℤ :=
  if s.head? = some 45#8 then (parse b s.tail).map fun n => -(n : ℤ) else (parse b s).map fun n => (n : ℤ)

variable {b n : ℕ}

/-! ### Digits -/

theorem value_reverse (b : ℕ) (l : List ℕ) : value b l.reverse = Nat.ofDigits b l := by
  unfold value
  induction l with
  | nil => rfl
  | cons d l ih =>
    rw [List.reverse_cons, List.foldl_append, ih, Nat.ofDigits_cons, Nat.add_comm]
    rfl

/-- The numeral of `n` stands for `n`. -/
theorem value_numeral (b n : ℕ) : value b (numeral b n) = n := by
  unfold numeral
  split_ifs with h
  · rw [h]
    rfl
  · rw [value_reverse, Nat.ofDigits_digits]

theorem numeral_lt (hb : 1 < b) : ∀ d ∈ numeral b n, d < b := by
  unfold numeral
  split_ifs
  · intro d hd
    rw [List.mem_singleton.mp hd]
    omega
  · intro d hd
    exact Nat.digits_lt_base hb (List.mem_reverse.mp hd)

theorem numeral_ne_nil (b n : ℕ) : numeral b n ≠ [] := by
  unfold numeral
  split_ifs with h
  · exact List.cons_ne_nil 0 []
  · exact List.reverse_ne_nil_iff.mpr (Nat.digits_ne_nil_iff_ne_zero.mpr h)

theorem numeral_head (hn : n ≠ 0) : (numeral b n).head? ≠ some 0 := by
  have hne : Nat.digits b n ≠ [] := Nat.digits_ne_nil_iff_ne_zero.mpr hn
  unfold numeral
  rw [if_neg hn, List.head?_reverse, List.getLast?_eq_some_getLast hne]
  exact fun h => Nat.getLast_digit_ne_zero b hn (Option.some.inj h)

/-- As many digits as there are powers of the base below. -/
theorem numeral_length_le (hb : 1 < b) {k : ℕ} (hk : 0 < k) (hn : n < b ^ k) : (numeral b n).length ≤ k := by
  unfold numeral
  split_ifs with h
  · exact hk
  · rw [List.length_reverse]
    exact (Nat.digits_length_le_iff hb n).mpr hn

/-! ### Text -/

theorem charDigit_digitChar : ∀ d < 36, charDigit (digitChar d) = some d := by decide

theorem digitChar_eq_zero : ∀ d < 36, digitChar d = 48#8 → d = 0 := by decide

theorem digitChar_ne_minus : ∀ d < 36, digitChar d ≠ 45#8 := by decide

theorem text_ne_nil (b n : ℕ) : text b n ≠ [] := fun h => numeral_ne_nil b n (List.map_eq_nil_iff.mp h)

/-- The text is the digits of `Nat.digits`, the other way round. -/
theorem text_of_ne_zero (hn : n ≠ 0) : text b n = ((Nat.digits b n).map digitChar).reverse := by
  unfold text numeral
  rw [if_neg hn, List.map_reverse]

theorem text_length_le (hb : 1 < b) {k : ℕ} (hk : 0 < k) (hn : n < b ^ k) : (text b n).length ≤ k := by
  unfold text
  rw [List.length_map]
  exact numeral_length_le hb hk hn

theorem text_head (hb : 1 < b) (hb36 : b ≤ 36) {c : BitVec 8} (h : (text b n).head? = some c) :
    ∃ d < 36, (numeral b n).head? = some d ∧ digitChar d = c := by
  unfold text at h
  rw [List.head?_map] at h
  obtain ⟨d, hd, hc⟩ := Option.map_eq_some_iff.mp h
  have hlt := numeral_lt hb d (List.mem_of_head? hd)
  exact ⟨d, by omega, hd, hc⟩

/-- **No leading zeros.** -/
theorem text_plain (hb : 1 < b) (hb36 : b ≤ 36) (n : ℕ) : Plain (text b n) := by
  intro h
  obtain ⟨d, hd, hhead, hc⟩ := text_head hb hb36 h
  have hzero : n = 0 := by
    by_contra hn
    apply numeral_head (b := b) hn
    rw [hhead, digitChar_eq_zero d hd hc]
  rw [hzero]
  rfl

/-- The text of digits of the base is read digit by digit. -/
theorem foldlM_digits (hb36 : b ≤ 36) {l : List ℕ} (hl : ∀ d ∈ l, d < b) (v : ℕ) :
    (l.map digitChar).foldlM (parseDigit b) v = some (l.foldl (fun v d => b * v + d) v) := by
  induction l generalizing v with
  | nil => rfl
  | cons d l ih =>
    have hd := hl d List.mem_cons_self
    have hdigit : parseDigit b v (digitChar d) = some (b * v + d) := by
      unfold parseDigit
      rw [charDigit_digitChar d (by omega)]
      exact if_pos hd
    rw [List.map_cons, List.foldlM_cons, hdigit, List.foldl_cons]
    exact ih (fun e he => hl e (List.mem_cons_of_mem d he)) _

/-- **The text of a number is read back as the number.** -/
theorem parse_text (hb : 1 < b) (hb36 : b ≤ 36) (n : ℕ) : parse b (text b n) = some n := by
  unfold parse
  rw [if_neg (text_ne_nil b n)]
  calc (text b n).foldlM (parseDigit b) 0 = some (value b (numeral b n)) := foldlM_digits hb36 (numeral_lt hb) 0
    _ = some n := by rw [value_numeral]

theorem text_isNumeral (hb : 1 < b) (hb36 : b ≤ 36) (n : ℕ) : IsNumeral b (text b n) n :=
  ⟨parse_text hb hb36 n, text_plain hb hb36 n⟩

/-- The minus sign, if any, and then the numeral of the magnitude. -/
theorem intText_eq (b : ℕ) (z : ℤ) : intText b z = (if z < 0 then [45#8] else []) ++ text b z.natAbs := by
  unfold intText
  split_ifs
  · rfl
  · rfl

/-- **The text of an integer is read back as the integer.** -/
theorem parseInt_intText (hb : 1 < b) (hb36 : b ≤ 36) (z : ℤ) : parseInt b (intText b z) = some z := by
  unfold parseInt intText
  by_cases hz : z < 0
  · rw [if_pos hz, if_pos (by rfl), List.tail_cons, parse_text hb hb36]
    apply congrArg some
    show -(z.natAbs : ℤ) = z
    omega
  · have hsign : (text b z.natAbs).head? ≠ some 45#8 := by
      intro h
      obtain ⟨d, hd, -, hc⟩ := text_head hb hb36 h
      exact digitChar_ne_minus d hd hc
    rw [if_neg hz, if_neg hsign, parse_text hb hb36]
    apply congrArg some
    show (z.natAbs : ℤ) = z
    omega

/-! ### Division -/

section

variable {w : ℕ} {x y : BitVec w}

theorem toNat_sdiv (hx : x.msb = false) (hy : y.msb = false) : (x.sdiv y).toNat = x.toNat / y.toNat := by
  rw [BitVec.sdiv_eq, hx, hy]
  exact BitVec.toNat_udiv

theorem toNat_srem (hx : x.msb = false) (hy : y.msb = false) : (x.srem y).toNat = x.toNat % y.toNat := by
  rw [BitVec.srem_eq, hx, hy]
  exact BitVec.toNat_umod

end

end Numeral
