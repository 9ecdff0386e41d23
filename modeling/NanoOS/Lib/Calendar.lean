/-
# The Gregorian calendar

A date and time of day, and the number of seconds up to it: `seconds` counts
whole years, whole months and days, in the proleptic calendar. A valid date
and time is determined by this number, so "`n` seconds later" has a meaning
that does not depend on how a clock computes it: `IsLater`.

`next` is the clock that carries from seconds up to years, and `tomorrow` its
day: both stay valid and advance the count by what they should.

Key definitions: `DateTime`, `DateTime.Valid`, `seconds`, `IsLater`, `next`,
`tomorrow`.
Key theorems: `seconds_injective`, `seconds_tomorrow`, `seconds_next`,
`IsLater.unique`.
-/
import Mathlib.Order.SuccPred.Basic
import Mathlib.Order.Monotone.Basic
import Mathlib.Algebra.Order.Ring.Int
import Mathlib.Data.Int.SuccPred
import Mathlib.Tactic.Common

namespace Calendar

/-- Every fourth year, but of the centuries only every fourth. -/
def IsLeap (y : ℤ) : Prop := y % 4 = 0 ∧ (y % 100 ≠ 0 ∨ y % 400 = 0)

instance (y : ℤ) : Decidable (IsLeap y) := inferInstanceAs (Decidable (_ ∧ _))

/-- The days of month `m` of year `y`. -/
def monthLength (y m : ℤ) : ℤ :=
  if m = 2 then (if IsLeap y then 29 else 28)
  else if m = 4 ∨ m = 6 ∨ m = 9 ∨ m = 11 then 30 else 31

/-- The days before year `y`. -/
def daysBeforeYear (y : ℤ) : ℤ := 365 * (y - 1) + (y - 1) / 4 - (y - 1) / 100 + (y - 1) / 400

/-- The days of the first `n` months of year `y`. -/
def firstMonths (y : ℤ) : ℕ → ℤ
  | 0 => 0
  | n + 1 => firstMonths y n + monthLength y (n + 1)

/-- A date and a time of day. -/
@[ext] structure DateTime where
  year : ℤ
  month : ℤ
  day : ℤ
  hour : ℤ
  minute : ℤ
  second : ℤ
  deriving DecidableEq

/-- There is such a day, and such a time. -/
structure DateTime.Valid (t : DateTime) : Prop where
  month : 1 ≤ t.month ∧ t.month ≤ 12
  day : 1 ≤ t.day ∧ t.day ≤ monthLength t.year t.month
  hour : 0 ≤ t.hour ∧ t.hour ≤ 23
  minute : 0 ≤ t.minute ∧ t.minute ≤ 59
  second : 0 ≤ t.second ∧ t.second ≤ 59

/-- The number of the day. -/
def dayNumber (t : DateTime) : ℤ :=
  daysBeforeYear t.year + firstMonths t.year (t.month - 1).toNat + (t.day - 1)

/-- The number of the second. -/
def seconds (t : DateTime) : ℤ := ((dayNumber t * 24 + t.hour) * 60 + t.minute) * 60 + t.second

/-- `u` is the date and time `n` seconds after `t`. -/
def IsLater (t : DateTime) (n : ℕ) (u : DateTime) : Prop := u.Valid ∧ seconds u = seconds t + n

variable {t u v : DateTime} {y m : ℤ} {n : ℕ}

/-! ### Years and months -/

theorem monthLength_bounds (y m : ℤ) : 28 ≤ monthLength y m ∧ monthLength y m ≤ 31 := by
  unfold monthLength
  split_ifs
  all_goals omega

theorem daysBeforeYear_succ (y : ℤ) :
    daysBeforeYear (y + 1) = daysBeforeYear y + if IsLeap y then 366 else 365 := by
  unfold daysBeforeYear IsLeap
  split_ifs
  all_goals omega

theorem daysBeforeYear_mono {y' : ℤ} (h : y ≤ y') : daysBeforeYear y ≤ daysBeforeYear y' := by
  have hmono : Monotone daysBeforeYear := monotone_int_of_le_succ fun y => by
    rw [daysBeforeYear_succ]
    split_ifs
    all_goals omega
  exact hmono h

theorem firstMonths_mono {n' : ℕ} (h : n ≤ n') : firstMonths y n ≤ firstMonths y n' := by
  have hmono : Monotone (firstMonths y) := monotone_nat_of_le_succ fun n => by
    have := (monthLength_bounds y (n + 1)).1
    simp only [firstMonths]
    omega
  exact hmono h

theorem firstMonths_year (y : ℤ) : firstMonths y 12 = if IsLeap y then 366 else 365 := by
  by_cases h : IsLeap y
  · simp [firstMonths, monthLength, h]
  · simp [firstMonths, monthLength, h]

theorem firstMonths_month (hm : 1 ≤ m) :
    firstMonths y m.toNat = firstMonths y (m - 1).toNat + monthLength y m := by
  have hk : m.toNat = (m - 1).toNat + 1 := by omega
  rw [hk, firstMonths]
  congr 2
  omega

/-! ### Days -/

theorem DateTime.Valid.dayNumber_bounds (ht : t.Valid) :
    daysBeforeYear t.year ≤ dayNumber t ∧ dayNumber t < daysBeforeYear (t.year + 1) ∧
    daysBeforeYear t.year + firstMonths t.year (t.month - 1).toNat ≤ dayNumber t ∧
    dayNumber t < daysBeforeYear t.year + firstMonths t.year t.month.toNat := by
  have hmonth := ht.month
  have hday := ht.day
  have h0 : firstMonths t.year 0 ≤ firstMonths t.year (t.month - 1).toNat := firstMonths_mono (Nat.zero_le _)
  have h12 : firstMonths t.year t.month.toNat ≤ firstMonths t.year 12 := firstMonths_mono (by omega)
  have hm := firstMonths_month (y := t.year) hmonth.1
  rw [firstMonths_year] at h12
  rw [daysBeforeYear_succ]
  unfold dayNumber
  change 0 ≤ _ at h0
  refine ⟨by omega, ?_, by omega, by omega⟩
  split_ifs at h12 ⊢
  all_goals omega

theorem date_eq (hu : u.Valid) (hv : v.Valid) (h : dayNumber u = dayNumber v) :
    u.year = v.year ∧ u.month = v.month ∧ u.day = v.day := by
  obtain ⟨hu1, hu2, hu3, hu4⟩ := hu.dayNumber_bounds
  obtain ⟨hv1, hv2, hv3, hv4⟩ := hv.dayNumber_bounds
  have hyear : u.year = v.year := by
    rcases lt_trichotomy u.year v.year with hlt | heq | hlt
    · have := daysBeforeYear_mono (show u.year + 1 ≤ v.year by omega)
      omega
    · exact heq
    · have := daysBeforeYear_mono (show v.year + 1 ≤ u.year by omega)
      omega
  have hum := hu.month
  have hvm := hv.month
  have hud := hu.day
  have hvd := hv.day
  have hnum := h
  unfold dayNumber at hnum
  rw [hyear] at hnum hu3 hu4
  have hmonth : u.month = v.month := by
    rcases lt_trichotomy u.month v.month with hlt | heq | hlt
    · have := firstMonths_mono (y := v.year) (show u.month.toNat ≤ (v.month - 1).toNat by omega)
      omega
    · exact heq
    · have := firstMonths_mono (y := v.year) (show v.month.toNat ≤ (u.month - 1).toNat by omega)
      omega
  rw [hmonth] at hnum
  exact ⟨hyear, hmonth, by omega⟩

/-- **A valid date and time is determined by its number of seconds.** -/
theorem seconds_injective (hu : u.Valid) (hv : v.Valid) (h : seconds u = seconds v) : u = v := by
  have := hu.hour
  have := hu.minute
  have := hu.second
  have := hv.hour
  have := hv.minute
  have := hv.second
  unfold seconds at h
  have hday : dayNumber u = dayNumber v := by omega
  obtain ⟨hyear, hmonth, hd⟩ := date_eq hu hv hday
  ext
  · exact hyear
  · exact hmonth
  · exact hd
  all_goals omega

theorem IsLater.unique (hu : IsLater t n u) (hv : IsLater t n v) : u = v :=
  seconds_injective hu.1 hv.1 (hu.2.trans hv.2.symm)

/-! ### The next day and the next second -/

/-- The same time of the next day. -/
def tomorrow (t : DateTime) : DateTime :=
  if t.day < monthLength t.year t.month then { t with day := t.day + 1 }
  else if t.month < 12 then { t with month := t.month + 1, day := 1 }
  else { t with year := t.year + 1, month := 1, day := 1 }

/-- The next second. -/
def next (t : DateTime) : DateTime :=
  if t.second < 59 then { t with second := t.second + 1 }
  else if t.minute < 59 then { t with minute := t.minute + 1, second := 0 }
  else if t.hour < 23 then { t with hour := t.hour + 1, minute := 0, second := 0 }
  else tomorrow { t with hour := 0, minute := 0, second := 0 }

theorem DateTime.Valid.tomorrow (ht : t.Valid) : (Calendar.tomorrow t).Valid := by
  have hmonth := ht.month
  have hday := ht.day
  unfold Calendar.tomorrow
  split_ifs with hd hm
  · exact ⟨hmonth, ⟨by dsimp only; omega, by dsimp only; omega⟩, ht.hour, ht.minute, ht.second⟩
  · have := (monthLength_bounds t.year (t.month + 1)).1
    exact ⟨⟨by dsimp only; omega, by dsimp only; omega⟩, ⟨by dsimp only; omega, by dsimp only; omega⟩,
      ht.hour, ht.minute, ht.second⟩
  · have := (monthLength_bounds (t.year + 1) 1).1
    exact ⟨⟨by dsimp only; omega, by dsimp only; omega⟩, ⟨by dsimp only; omega, by dsimp only; omega⟩,
      ht.hour, ht.minute, ht.second⟩

theorem DateTime.Valid.dayNumber_tomorrow (ht : t.Valid) :
    dayNumber (Calendar.tomorrow t) = dayNumber t + 1 := by
  have hmonth := ht.month
  have hday := ht.day
  have hlen := firstMonths_month (y := t.year) hmonth.1
  unfold Calendar.tomorrow
  split_ifs with hd hm
  · unfold dayNumber
    dsimp only
    omega
  · unfold dayNumber
    dsimp only
    rw [show t.month + 1 - 1 = t.month by omega, hlen]
    omega
  · -- the last day of the year
    have hyear := firstMonths_year t.year
    rw [show t.month = 12 by omega] at hlen hd
    unfold dayNumber
    dsimp only
    rw [daysBeforeYear_succ, ← hyear, show t.month = 12 by omega]
    change firstMonths t.year 12 = firstMonths t.year 11 + monthLength t.year 12 at hlen
    change daysBeforeYear t.year + firstMonths t.year 12 + 0 + (1 - 1) =
      daysBeforeYear t.year + firstMonths t.year 11 + (t.day - 1) + 1
    rw [show t.month = 12 by omega] at hday
    omega

theorem tomorrow_time (t : DateTime) : (tomorrow t).hour = t.hour ∧ (tomorrow t).minute = t.minute ∧
    (tomorrow t).second = t.second := by
  unfold tomorrow
  split_ifs
  all_goals exact ⟨rfl, rfl, rfl⟩

/-- A day is 86400 seconds. -/
theorem DateTime.Valid.seconds_tomorrow (ht : t.Valid) : seconds (Calendar.tomorrow t) = seconds t + 86400 := by
  obtain ⟨hh, hm, hs⟩ := tomorrow_time t
  unfold seconds
  rw [ht.dayNumber_tomorrow, hh, hm, hs]
  omega

theorem DateTime.Valid.midnight (ht : t.Valid) :
    DateTime.Valid { t with hour := 0, minute := 0, second := 0 } :=
  ⟨ht.month, ht.day, by dsimp only; omega, by dsimp only; omega, by dsimp only; omega⟩

theorem DateTime.Valid.next (ht : t.Valid) : (Calendar.next t).Valid := by
  have hhour := ht.hour
  have hminute := ht.minute
  have hsecond := ht.second
  unfold Calendar.next
  split_ifs with hs hm hh
  · exact ⟨ht.month, ht.day, hhour, hminute, by dsimp only; omega⟩
  · exact ⟨ht.month, ht.day, hhour, by dsimp only; omega, by dsimp only; omega⟩
  · exact ⟨ht.month, ht.day, by dsimp only; omega, by dsimp only; omega, by dsimp only; omega⟩
  · exact ht.midnight.tomorrow

/-- **The clock counts seconds.** -/
theorem DateTime.Valid.seconds_next (ht : t.Valid) : seconds (Calendar.next t) = seconds t + 1 := by
  have hhour := ht.hour
  have hminute := ht.minute
  have hsecond := ht.second
  unfold Calendar.next
  split_ifs with hs hm hh
  · unfold seconds
    change ((dayNumber t * 24 + t.hour) * 60 + t.minute) * 60 + (t.second + 1) = _
    omega
  · unfold seconds
    change ((dayNumber t * 24 + t.hour) * 60 + (t.minute + 1)) * 60 + 0 = _
    omega
  · unfold seconds
    change ((dayNumber t * 24 + (t.hour + 1)) * 60 + 0) * 60 + 0 = _
    omega
  · rw [ht.midnight.seconds_tomorrow]
    unfold seconds
    change ((dayNumber t * 24 + 0) * 60 + 0) * 60 + 0 + 86400 = _
    omega

end Calendar
