/-
# Bit fields

A word is made of fields, each with its width, the lowest one first. A field that is
read where the fields before it end is the value that was packed, as far as it fits.

Key definitions: `width`, `pack`, `field`.
Key theorems: `field_pack`, `field_add`.
-/
import Mathlib.Algebra.Order.Ring.Nat
import Mathlib.Tactic.Common
import Mathlib.Tactic.Ring

namespace BitField

/-- All the fields together have so many bits. -/
def width : List (ℕ × ℕ) → ℕ
  | [] => 0
  | (w, _) :: fs => w + width fs

/-- The word with the fields of a list of widths and values. -/
def pack : List (ℕ × ℕ) → ℕ
  | [] => 0
  | (w, v) :: fs => v % 2 ^ w + 2 ^ w * pack fs

/-- The field of `w` bits that begins at bit `i`. -/
def field (i w n : ℕ) : ℕ := n / 2 ^ i % 2 ^ w

variable {fs gs : List (ℕ × ℕ)} {i w v a b n : ℕ}

theorem pack_lt : pack fs < 2 ^ width fs := by
  induction fs with
  | nil => exact Nat.one_pos
  | cons f fs ih =>
    obtain ⟨w, v⟩ := f
    have hv : v % 2 ^ w < 2 ^ w := Nat.mod_lt _ (Nat.two_pow_pos w)
    calc v % 2 ^ w + 2 ^ w * pack fs < 2 ^ w + 2 ^ w * pack fs := Nat.add_lt_add_right hv _
      _ = 2 ^ w * (pack fs + 1) := by ring
      _ ≤ 2 ^ w * 2 ^ width fs := Nat.mul_le_mul_left _ ih
      _ = 2 ^ width ((w, v) :: fs) := (pow_add 2 w _).symm

theorem pack_append : pack (fs ++ gs) = pack fs + 2 ^ width fs * pack gs := by
  induction fs with
  | nil => simp [pack, width]
  | cons f fs ih =>
    obtain ⟨w, v⟩ := f
    show v % 2 ^ w + 2 ^ w * pack (fs ++ gs) = v % 2 ^ w + 2 ^ w * pack fs + 2 ^ (w + width fs) * pack gs
    rw [ih, pow_add]
    ring

/-- **A field is read back** behind the fields before it. -/
theorem field_pack (fs : List (ℕ × ℕ)) (w v : ℕ) (gs : List (ℕ × ℕ)) :
    field (width fs) w (pack (fs ++ (w, v) :: gs)) = v % 2 ^ w := by
  have hhigh : pack (fs ++ (w, v) :: gs) / 2 ^ width fs = pack ((w, v) :: gs) := by
    rw [pack_append, Nat.add_mul_div_left _ _ (Nat.two_pow_pos _), Nat.div_eq_of_lt pack_lt, Nat.zero_add]
  unfold field
  rw [hhigh]
  show (v % 2 ^ w + 2 ^ w * pack gs) % 2 ^ w = v % 2 ^ w
  rw [Nat.add_mul_mod_self_left, Nat.mod_mod]

/-- Two fields side by side are one. -/
theorem field_add (i a b n : ℕ) : field i (a + b) n = field i a n + 2 ^ a * field (i + a) b n := by
  unfold field
  rw [pow_add, pow_add, Nat.mod_mul, Nat.div_div_eq_div_mul]

theorem field_of_lt (hn : n < 2 ^ w) : field 0 w n = n := by
  unfold field
  rw [pow_zero, Nat.div_one, Nat.mod_eq_of_lt hn]

end BitField
