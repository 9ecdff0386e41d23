/-
# Linear congruential generators

The map that takes `x` to `a * x + c`, modulo a power of two. Where `a` is 1 modulo 4
and `c` is odd, it takes every value to itself after as many steps as there are values,
and not before: after `n` steps the value has changed by an odd multiple of
`1 + a + ... + a ^ (n - 1)`, and in this sum 2 is exactly as often as in `n`.

Key definitions: `lcg`, `geom`.
Key theorems: `iterate_lcg`, `two_pow_dvd_geom`, `iterate_lcg_eq_iff`.
-/
import Mathlib.Algebra.Order.Ring.Int
import Mathlib.Data.Int.ModEq
import Mathlib.Logic.Function.Iterate
import Mathlib.RingTheory.Coprime.Lemmas
import Mathlib.Tactic.LinearCombination
import Mathlib.Tactic.Ring

namespace Congruential

/-- A step of the generator. -/
def lcg (a c x : ℤ) : ℤ := a * x + c

/-- `1 + a + ... + a ^ (n - 1)`. -/
def geom (a : ℤ) : ℕ → ℤ
  | 0 => 0
  | n + 1 => a * geom a n + 1

variable {a c : ℤ}

/-- How far the value is after `n` steps. -/
theorem iterate_lcg (a c x : ℤ) (n : ℕ) : (lcg a c)^[n] x = x + ((a - 1) * x + c) * geom a n := by
  induction n with
  | zero =>
    show x = x + ((a - 1) * x + c) * 0
    ring
  | succ n ih =>
    rw [Function.iterate_succ_apply', ih]
    unfold lcg
    rw [geom]
    ring

theorem geom_add (a : ℤ) (m n : ℕ) : geom a (n + m) = geom a n * a ^ m + geom a m := by
  induction m with
  | zero =>
    rw [Nat.add_zero, pow_zero, mul_one]
    exact (add_zero _).symm
  | succ m ih =>
    rw [← Nat.add_assoc, geom, geom, ih, pow_succ]
    ring

/-! ### How often 2 is in the sum -/

theorem geom_odd (ha : a % 2 = 1) (n : ℕ) : geom a n % 2 = n % 2 := by
  induction n with
  | zero => rfl
  | succ n ih =>
    rw [geom, Int.add_emod, Int.mul_emod, ha, ih]
    push_cast
    omega

theorem pow_emod_four (ha : a % 4 = 1) (n : ℕ) : a ^ n % 4 = 1 := by
  induction n with
  | zero =>
    rw [pow_zero]
    rfl
  | succ n ih =>
    rw [pow_succ, Int.mul_emod, ih, ha]
    rfl

theorem two_pow_dvd_mul_odd {k : ℤ} (hk : k % 2 = 1) (w : ℕ) (x : ℤ) : (2 : ℤ) ^ w ∣ x * k ↔ (2 : ℤ) ^ w ∣ x := by
  have hcoprime : IsCoprime ((2 : ℤ) ^ w) k := by
    apply IsCoprime.pow_left
    refine ⟨-(k / 2), 1, ?_⟩
    have hdiv := Int.emod_add_mul_ediv k 2
    rw [hk] at hdiv
    linear_combination -hdiv
  exact ⟨hcoprime.dvd_of_dvd_mul_right, fun h => Dvd.dvd.mul_right h k⟩

/-- **2 is as often in the sum as in the number of its terms.** -/
theorem two_pow_dvd_geom (ha : a % 4 = 1) : ∀ w n : ℕ, (2 : ℤ) ^ w ∣ geom a n ↔ 2 ^ w ∣ n
  | 0, n => by
    rw [pow_zero, pow_zero]
    exact ⟨fun _ => one_dvd n, fun _ => one_dvd _⟩
  | w + 1, n => by
    have hodd : a % 2 = 1 := by omega
    rcases Nat.even_or_odd' n with ⟨m, rfl | rfl⟩
    · -- the two halves of the sum: the second is the first by `a ^ m`
      obtain ⟨k, hk, hsum⟩ : ∃ k, k % 2 = 1 ∧ geom a (2 * m) = 2 * (geom a m * k) := by
        refine ⟨(a ^ m + 1) / 2, ?_, ?_⟩
        · have hpow := pow_emod_four ha m
          omega
        · have hpow := pow_emod_four ha m
          have hhalf : 2 * ((a ^ m + 1) / 2) = a ^ m + 1 := by omega
          rw [two_mul, geom_add]
          linear_combination (-geom a m) * hhalf
      rw [hsum, pow_succ', pow_succ']
      rw [Int.mul_dvd_mul_iff_left two_ne_zero, two_pow_dvd_mul_odd hk, two_pow_dvd_geom ha w m,
        Nat.mul_dvd_mul_iff_left Nat.two_pos]
    · have hgeom := geom_odd hodd (2 * m + 1)
      constructor
      · intro h
        have h2 : (2 : ℤ) ∣ geom a (2 * m + 1) := (Dvd.intro_left _ (pow_succ (2 : ℤ) w).symm).trans h
        push_cast at hgeom
        omega
      · intro h
        have h2 : 2 ∣ 2 * m + 1 := (Dvd.intro_left _ (pow_succ 2 w).symm).trans h
        omega

/-! ### The period -/

/-- After `n` steps the generator is where it was, modulo `2 ^ w`, iff `2 ^ w` divides `n`. -/
theorem iterate_lcg_dvd (ha : a % 4 = 1) (hc : c % 2 = 1) (w n : ℕ) (x : ℤ) :
    (2 : ℤ) ^ w ∣ (lcg a c)^[n] x - x ↔ 2 ^ w ∣ n := by
  have hk : ((a - 1) * x + c) % 2 = 1 := by
    have heven : (a - 1) % 2 = 0 := by omega
    rw [Int.add_emod, Int.mul_emod, heven, hc, zero_mul]
    rfl
  have hsub : (lcg a c)^[n] x - x = geom a n * ((a - 1) * x + c) := by
    rw [iterate_lcg]
    ring
  rw [hsub, two_pow_dvd_mul_odd hk, two_pow_dvd_geom ha]

/-- **The full period**: two values of the generator are the same, modulo `2 ^ w`, iff
they are a multiple of `2 ^ w` steps apart. -/
theorem iterate_lcg_eq_iff (ha : a % 4 = 1) (hc : c % 2 = 1) (w : ℕ) (x : ℤ) (i j : ℕ) :
    (lcg a c)^[i] x ≡ (lcg a c)^[j] x [ZMOD 2 ^ w] ↔ i % 2 ^ w = j % 2 ^ w := by
  wlog hij : i ≤ j generalizing i j
  · rw [Int.modEq_comm, this j i (Nat.le_of_not_le hij)]
    exact eq_comm
  obtain ⟨n, rfl⟩ := Nat.exists_eq_add_of_le hij
  have hiter : (lcg a c)^[i + n] x = (lcg a c)^[n] ((lcg a c)^[i] x) := by
    rw [Nat.add_comm, Function.iterate_add_apply]
  rw [hiter, Int.modEq_iff_dvd, iterate_lcg_dvd ha hc]
  constructor
  · rintro ⟨k, rfl⟩
    exact (Nat.add_mul_mod_self_left i _ k).symm
  · intro h
    have hsub := Nat.sub_mod_eq_zero_of_mod_eq h.symm
    rw [Nat.add_sub_cancel_left] at hsub
    exact Nat.dvd_of_mod_eq_zero hsub

end Congruential
