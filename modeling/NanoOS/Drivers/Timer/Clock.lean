/-
# The clock and the calendar

Once a second `update_jiffy` carries from seconds up to years. Its test for
the end of a month is `day >= md(year, month)`, so a month ends when its last
day comes: `tickSecond_eq` says that a second takes the clock to the next
second of the calendar, and from there a day further if that would be on the
last day of a month. The clock keeps valid all the same, and once it is ahead
it stays ahead.

`init_rt` reads the hour from the register of the day.

Key definitions: `Time.Valid`, `date`, `LastDay`, `ValidRtc`.
Key theorems: `tickSecond_eq`, `updateJiffy_seconds`, `clock_starts_valid`,
`clock_keeps_calendar`.
-/
import Mathlib.Tactic.IntervalCases
import Mathlib.Tactic.Ring
import NanoOS.Lib.Calendar
import NanoOS.Drivers.Timer.Timer

namespace NanoOS
namespace Timer

open Calendar

/-- There is such a day, and such a time. -/
structure Time.Valid (t : Time) : Prop where
  month : 1 ≤ t.month ∧ t.month ≤ 12
  day : 1 ≤ t.day ∧ t.day ≤ md t.year t.month
  hour : 0 ≤ t.hour ∧ t.hour ≤ 23
  minute : 0 ≤ t.minute ∧ t.minute ≤ 59
  second : 0 ≤ t.second ∧ t.second ≤ 59

/-- The date and time that `rt` stands for. -/
def date (t : Time) : DateTime := ⟨2000 + t.year, t.month, t.day, t.hour, t.minute, t.second⟩

/-- It is the last day of its month. -/
def LastDay (u : DateTime) : Prop := u.day = monthLength u.year u.month

instance (u : DateTime) : Decidable (LastDay u) := inferInstanceAs (Decidable (_ = _))

variable {t : Time} {s : Timer}

/-! ### One second -/

theorem leap_iff (y : ℤ) :
    (y.tmod 400 = 0 ∨ (y.tmod 4 = 0 ∧ y.tmod 100 ≠ 0)) ↔ IsLeap (2000 + y) := by
  have h : ∀ k : ℤ, y.tmod k = 0 ↔ y % k = 0 := fun k => by
    rw [← Int.dvd_iff_tmod_eq_zero, Int.dvd_iff_emod_eq_zero]
  rw [h, h, Ne, h]
  unfold IsLeap
  omega

/-- `md` is the length of the month. -/
theorem md_eq (y : ℤ) {m : ℤ} (hm : 1 ≤ m ∧ m ≤ 12) : md y m = monthLength (2000 + y) m := by
  unfold md monthLength
  simp only [leap_iff]
  obtain ⟨h1, h2⟩ := hm
  interval_cases m
  all_goals simp [tab]
  split_ifs <;> rfl

theorem valid_iff (t : Time) : Time.Valid t ↔ (date t).Valid := by
  constructor
  · intro h
    exact ⟨h.month, ⟨h.day.1, (md_eq t.year h.month) ▸ h.day.2⟩, h.hour, h.minute, h.second⟩
  · intro h
    have hmd : md t.year t.month = monthLength (2000 + t.year) t.month := md_eq t.year h.month
    exact ⟨h.month, ⟨h.day.1, by rw [hmd]; exact h.day.2⟩, h.hour, h.minute, h.second⟩

/-- The last two lines of the block: the ends of the month and of the year. -/
def rollDay (rt : Time) : Time :=
  let rt := if rt.day ≥ md rt.year rt.month then { rt with day := 1, month := rt.month + 1 } else rt
  if rt.month ≥ 13 then { rt with month := 1, year := rt.year + 1 } else rt

/-- From the last day of a month on, the day after it comes. -/
theorem rollDay_eq (hm : 1 ≤ t.month ∧ t.month ≤ 12) : date (rollDay t) =
    if t.day ≥ md t.year t.month then tomorrow (date { t with day := md t.year t.month }) else date t := by
  unfold rollDay tomorrow
  by_cases hd : t.day ≥ md t.year t.month
  · have hlast : ¬ (date { t with day := md t.year t.month }).day <
        monthLength (date { t with day := md t.year t.month }).year
          (date { t with day := md t.year t.month }).month := by
      simp only [date]
      rw [← md_eq t.year hm]
      omega
    simp only [if_pos hd, if_neg hlast]
    by_cases h12 : t.month < 12
    · rw [if_neg (by omega), if_pos (by exact h12)]
      rfl
    · rw [if_pos (by omega), if_neg (by exact h12)]
      simp only [date, DateTime.mk.injEq, and_true]
      omega
  · simp only [if_neg hd]
    rw [if_neg (by omega)]

/-- On a date that exists, only the last day of a month is passed over. -/
theorem rollDay_of_le (hm : 1 ≤ t.month ∧ t.month ≤ 12) (hd : t.day ≤ md t.year t.month) :
    date (rollDay t) = if LastDay (date t) then tomorrow (date t) else date t := by
  have hlast : LastDay (date t) ↔ t.day = md t.year t.month := by
    rw [md_eq t.year hm]
    rfl
  rw [rollDay_eq hm]
  by_cases he : t.day = md t.year t.month
  · rw [if_pos (by omega), if_pos (hlast.mpr he), ← he]
  · rw [if_neg (by omega), if_neg (fun h => he (hlast.mp h))]

/-- The lines of the block before that: the ends of the minute, the hour and
the day. -/
def tickDay (rt : Time) : Time :=
  let rt := { rt with second := rt.second + 1 }
  let rt := if rt.second ≥ 60 then { rt with second := 0, minute := rt.minute + 1 } else rt
  let rt := if rt.minute ≥ 60 then { rt with minute := 0, hour := rt.hour + 1 } else rt
  if rt.hour ≥ 24 then { rt with hour := 0, day := rt.day + 1 } else rt

theorem tickSecond_split (t : Time) : tickSecond t = rollDay (tickDay t) := rfl

theorem tickDay_of_lt (ht : Time.Valid t) (h : ¬ (t.second = 59 ∧ t.minute = 59 ∧ t.hour = 23)) :
    date (tickDay t) = next (date t) ∧ (tickDay t).year = t.year ∧ (tickDay t).month = t.month ∧
      (tickDay t).day = t.day := by
  have hhour := ht.hour
  have hminute := ht.minute
  have hsecond := ht.second
  unfold tickDay next date
  by_cases hs : t.second < 59
  · simp only [if_neg (show ¬ t.second + 1 ≥ 60 by omega), if_neg (show ¬ t.minute ≥ 60 by omega),
      if_neg (show ¬ t.hour ≥ 24 by omega), if_pos hs, and_self]
  by_cases hm : t.minute < 59
  · simp only [if_pos (show t.second + 1 ≥ 60 by omega), if_neg (show ¬ t.minute + 1 ≥ 60 by omega),
      if_neg (show ¬ t.hour ≥ 24 by omega), if_neg hs, if_pos hm, and_self]
  · simp only [if_pos (show t.second + 1 ≥ 60 by omega), if_pos (show t.minute + 1 ≥ 60 by omega),
      if_neg (show ¬ t.hour + 1 ≥ 24 by omega), if_neg hs, if_neg hm, if_pos (show t.hour < 23 by omega),
      and_self]

theorem tickDay_midnight (hs : t.second = 59) (hm : t.minute = 59) (hh : t.hour = 23) :
    tickDay t = { t with hour := 0, minute := 0, second := 0, day := t.day + 1 } ∧
      next (date t) = tomorrow (date { t with hour := 0, minute := 0, second := 0 }) := by
  unfold tickDay next date
  constructor
  · simp [hs, hm, hh]
  · simp [hs, hm, hh]

/-- **What a second does.** The next second of the calendar, or a day later if
that is on the last day of a month. -/
theorem tickSecond_eq (ht : Time.Valid t) : date (tickSecond t) =
    if LastDay (next (date t)) then tomorrow (next (date t)) else next (date t) := by
  have hmonth := ht.month
  have hday := ht.day
  have hmd := md_eq t.year hmonth
  rw [tickSecond_split]
  by_cases hmid : t.second = 59 ∧ t.minute = 59 ∧ t.hour = 23
  · obtain ⟨htick, hnext⟩ := tickDay_midnight hmid.1 hmid.2.1 hmid.2.2
    rw [htick, hnext]
    by_cases hlast : t.day = md t.year t.month
    · -- the month ends in time, and the first of a month is not its last day
      have htom : tomorrow (date { t with hour := 0, minute := 0, second := 0 }) = date (rollDay
          { t with hour := 0, minute := 0, second := 0, day := t.day + 1 }) := by
        rw [rollDay_eq (by exact hmonth), if_pos (by dsimp only; omega)]
        dsimp only
        rw [← hlast]
      have hfirst : ¬ LastDay (tomorrow (date { t with hour := 0, minute := 0, second := 0 })) := by
        unfold LastDay tomorrow
        rw [if_neg (by simp only [date]; omega)]
        split_ifs
        · have := (monthLength_bounds (2000 + t.year) (t.month + 1)).1
          simp only [date]
          omega
        · have := (monthLength_bounds (2000 + t.year + 1) 1).1
          simp only [date]
          omega
      rw [if_neg hfirst, htom]
    · have htom : tomorrow (date { t with hour := 0, minute := 0, second := 0 }) =
          date { t with hour := 0, minute := 0, second := 0, day := t.day + 1 } := by
        unfold tomorrow
        rw [if_pos (by simp only [date]; omega)]
        rfl
      rw [htom, rollDay_of_le (by exact hmonth) (by dsimp only; omega)]
  · obtain ⟨hnext, hy, hm, hd⟩ := tickDay_of_lt ht hmid
    rw [rollDay_of_le (by rw [hm]; exact hmonth) (by rw [hy, hm, hd]; exact hday.2), hnext]

/-- The clock stays valid, and goes ahead of the calendar by a day where a
last day of a month would come. -/
theorem tickSecond_seconds (ht : Time.Valid t) : Time.Valid (tickSecond t) ∧
    seconds (date (tickSecond t)) =
      seconds (date t) + 1 + if LastDay (next (date t)) then 86400 else 0 := by
  have hnext := ((valid_iff t).mp ht).next
  have hsec := ((valid_iff t).mp ht).seconds_next
  rw [valid_iff, tickSecond_eq ht]
  by_cases hl : LastDay (next (date t))
  · rw [if_pos hl, if_pos hl, hnext.seconds_tomorrow, hsec]
    exact ⟨hnext.tomorrow, rfl⟩
  · rw [if_neg hl, if_neg hl, hsec, add_zero]
    exact ⟨hnext, rfl⟩

/-! ### From the real-time clock on -/

theorem updateJiffy_valid (hs : Time.Valid s.rt) : Time.Valid (updateJiffy s).rt := by
  unfold updateJiffy
  dsimp only
  split
  · exact (tickSecond_seconds hs).1
  · exact hs

theorem iterate_updateJiffy_valid (hs : Time.Valid s.rt) (n : ℕ) : Time.Valid (updateJiffy^[n] s).rt := by
  induction n with
  | zero => exact hs
  | succ n ih =>
    rw [Function.iterate_succ_apply']
    exact updateJiffy_valid ih

/-- The number a byte stands for in BCD. -/
def bcdValue (b : BitVec 8) : ℕ := b.toNat / 16 * 10 + b.toNat % 16

/-- The registers hold a valid date and time in BCD. -/
structure ValidRtc (rtc : ℕ → BitVec 8) : Prop where
  digits : ∀ part ∈ [timeSecond, timeMinute, timeHour, timeDay, timeMonth, timeYear],
    (rtc part).toNat / 16 ≤ 9 ∧ (rtc part).toNat % 16 ≤ 9
  month : 1 ≤ bcdValue (rtc timeMonth) ∧ bcdValue (rtc timeMonth) ≤ 12
  day : 1 ≤ bcdValue (rtc timeDay) ∧
    (bcdValue (rtc timeDay) : ℤ) ≤ md (bcdValue (rtc timeYear)) (bcdValue (rtc timeMonth))
  hour : bcdValue (rtc timeHour) ≤ 23
  minute : bcdValue (rtc timeMinute) ≤ 59
  second : bcdValue (rtc timeSecond) ≤ 59

/-- The time the registers hold. -/
def rtcTime (rtc : ℕ → BitVec 8) : Time where
  year := bcdValue (rtc timeYear)
  month := bcdValue (rtc timeMonth)
  day := bcdValue (rtc timeDay)
  hour := bcdValue (rtc timeHour)
  minute := bcdValue (rtc timeMinute)
  second := bcdValue (rtc timeSecond)

theorem getTimePart_eq (rtc : ℕ → BitVec 8) (part : ℕ) : getTimePart rtc part = bcdValue (rtc part) := by
  have := (rtc part).isLt
  unfold getTimePart bcdValue
  dsimp only
  omega

variable {rtc : ℕ → BitVec 8}

theorem ValidRtc.rtcTime (h : ValidRtc rtc) : Time.Valid (rtcTime rtc) := by
  have hmonth := h.month
  have hday := h.day
  have hhour := h.hour
  have hminute := h.minute
  have hsecond := h.second
  refine ⟨?_, ⟨?_, hday.2⟩, ?_, ?_, ?_⟩
  all_goals
    simp only [Timer.rtcTime]
    omega

/-- `init_rt` shows the time of the registers, with the day for the hour. -/
theorem initRt_rt (rtc : ℕ → BitVec 8) (s : Timer) :
    (initRt rtc s).rt = { rtcTime rtc with hour := (bcdValue (rtc timeDay) : ℤ) } := by
  unfold initRt rtcTime
  simp only [getTimePart_eq]

/-- **The clock starts right iff the hour is the day.** From registers that
hold a valid date and time, `init_rt` shows that time and the clock stays
valid through all ticks, if the hour happens to be the number of the day;
otherwise it does not show that time. -/
theorem clock_starts_valid (rtc : ℕ → BitVec 8) (s : Timer) (hr : ValidRtc rtc) :
    ((∀ n, Time.Valid (getTime (updateJiffy^[n] (initRt rtc s)))) ∧ getTime (initRt rtc s) = rtcTime rtc) ↔
      bcdValue (rtc timeHour) = bcdValue (rtc timeDay) := by
  unfold getTime
  rw [initRt_rt]
  constructor
  · rintro ⟨-, hinit⟩
    have hhour := congrArg Time.hour hinit
    simp only [rtcTime, Nat.cast_inj] at hhour
    exact hhour.symm
  · intro heq
    have hinit : { rtcTime rtc with hour := (bcdValue (rtc timeDay) : ℤ) } = rtcTime rtc := by
      rw [← heq]
      rfl
    refine ⟨fun n => iterate_updateJiffy_valid ?_ n, hinit⟩
    rw [initRt_rt, hinit]
    exact hr.rtcTime

/-- The registers on 5 March 2024 at the hour `h`, by their BCD digits. -/
def march5 (h : BitVec 8) : ℕ → BitVec 8
  | 4 => h
  | 7 => 0x05
  | 8 => 0x03
  | 9 => 0x24
  | _ => 0x00

theorem validRtc_march5 {h : BitVec 8} (hd : h.toNat / 16 ≤ 9 ∧ h.toNat % 16 ≤ 9) (h23 : bcdValue h ≤ 23) :
    ValidRtc (march5 h) := by
  have hbyte : ∀ b ∈ ([0x00, 0x05, 0x03, 0x24] : List (BitVec 8)), b.toNat / 16 ≤ 9 ∧ b.toNat % 16 ≤ 9 := by
    decide
  refine ⟨?_, show 1 ≤ bcdValue 0x03 ∧ bcdValue 0x03 ≤ 12 by decide,
    show 1 ≤ bcdValue 0x05 ∧ (bcdValue 0x05 : ℤ) ≤ md (bcdValue 0x24) (bcdValue 0x03) by decide, h23,
    show bcdValue 0x00 ≤ 59 by decide, show bcdValue 0x00 ≤ 59 by decide⟩
  intro part hp
  simp only [List.mem_cons, List.not_mem_nil, or_false] at hp
  rcases hp with rfl | rfl | rfl | rfl | rfl | rfl
  · exact hbyte 0x00 (by decide)
  · exact hbyte 0x00 (by decide)
  · exact hd
  · exact hbyte 0x05 (by decide)
  · exact hbyte 0x03 (by decide)
  · exact hbyte 0x24 (by decide)

/-- At five o'clock on the fifth the clock is right. -/
theorem clock_starts_valid_five : getTime (initRt (march5 0x05) zero) = rtcTime (march5 0x05) :=
  ((clock_starts_valid (march5 0x05) zero (validRtc_march5 (by decide) (by decide))).mpr (by decide)).2

/-- At noon on the fifth the clock shows five o'clock. -/
theorem clock_starts_wrong :
    ¬ ∀ (rtc : ℕ → BitVec 8) (s : Timer), ValidRtc rtc →
      (∀ n, Time.Valid (getTime (updateJiffy^[n] (initRt rtc s)))) ∧ getTime (initRt rtc s) = rtcTime rtc := by
  intro h
  have hwrong := (h (march5 0x12) zero (validRtc_march5 (by decide) (by decide))).2
  exact absurd hwrong (by decide)

/-! ### The clock and the calendar -/

theorem long_of_range {x : ℤ} (hlo : -2147483648 ≤ x) (hhi : x < 2147483648) : long x = x := by
  unfold long Int.bmod
  dsimp only
  split
  all_goals omega

theorem tmod_hz (x : ℤ) : x.tmod hz = 0 ↔ x % 100 = 0 := by
  rw [← Int.dvd_iff_tmod_eq_zero, Int.dvd_iff_emod_eq_zero]
  rfl

theorem updateJiffy_within (hj : s.jiffy % 100 = 0) (hlo : -2147483648 ≤ s.jiffy) : ∀ {k : ℕ}, k < 100 →
    s.jiffy + k < 2147483648 → updateJiffy^[k] s = { s with jiffy := s.jiffy + k }
  | 0, _, _ => by simp
  | k + 1, hk, hhi => by
    rw [Function.iterate_succ_apply', updateJiffy_within hj hlo (by omega) (by omega)]
    have hlong : long (s.jiffy + k + 1) = s.jiffy + (k + 1 : ℕ) := by
      rw [long_of_range (by omega) (by omega)]
      push_cast
      ring
    have hmod : ¬ (s.jiffy + (k + 1 : ℕ)).tmod hz = 0 := by
      rw [tmod_hz]
      omega
    unfold updateJiffy
    dsimp only
    rw [hlong, if_neg hmod]

theorem updateJiffy_second (hj : s.jiffy % 100 = 0) (hlo : -2147483648 ≤ s.jiffy)
    (hhi : s.jiffy + 100 < 2147483648) :
    updateJiffy^[100] s = { s with jiffy := s.jiffy + 100, rt := tickSecond s.rt } := by
  rw [Function.iterate_succ_apply', updateJiffy_within hj hlo (by omega) (by omega)]
  have hlong : long (s.jiffy + (99 : ℕ) + 1) = s.jiffy + 100 := by
    rw [long_of_range (by omega) (by omega)]
    push_cast
    ring
  unfold updateJiffy
  dsimp only
  rw [hlong, if_pos ((tmod_hz _).mpr (by omega))]

/-- `n` seconds, as ticks. -/
theorem updateJiffy_seconds (hj : s.jiffy % 100 = 0) (hlo : -2147483648 ≤ s.jiffy) {n : ℕ}
    (hhi : s.jiffy + n * 100 < 2147483648) :
    updateJiffy^[n * 100] s = { s with jiffy := s.jiffy + n * 100, rt := tickSecond^[n] s.rt } := by
  induction n with
  | zero => simp
  | succ n ih =>
    have hn := ih (by push_cast at hhi; omega)
    rw [Nat.add_mul, Nat.one_mul, Nat.add_comm, Function.iterate_add_apply, hn]
    rw [updateJiffy_second (by dsimp only; omega) (by dsimp only; omega)
      (by push_cast at hhi; dsimp only; omega)]
    rw [Function.iterate_succ_apply']
    dsimp only
    congr 1
    push_cast
    ring

theorem iterate_tickSecond_valid (ht : Time.Valid t) (n : ℕ) : Time.Valid (tickSecond^[n] t) := by
  induction n with
  | zero => exact ht
  | succ n ih =>
    rw [Function.iterate_succ_apply']
    exact (tickSecond_seconds ih).1

/-- No last day of a month comes within `n` seconds. -/
def NoLastDay (t : DateTime) (n : ℕ) : Prop := ∀ k u, 1 ≤ k → k ≤ n → IsLater t k u → ¬ LastDay u

/-- As long as no last day comes the clock is the calendar; once one has
come it is ahead. -/
theorem tickSecond_iterate (ht : Time.Valid t) : ∀ n : ℕ,
    (NoLastDay (date t) n → IsLater (date t) n (date (tickSecond^[n] t))) ∧
    (¬ NoLastDay (date t) n → seconds (date t) + n < seconds (date (tickSecond^[n] t)))
  | 0 => by
    refine ⟨fun _ => ⟨(valid_iff t).mp ht, by simp⟩, fun h => absurd ?_ h⟩
    intro k u h1 h0
    omega
  | n + 1 => by
    obtain ⟨ih, ih'⟩ := tickSecond_iterate ht n
    have hvalid := iterate_tickSecond_valid ht n
    obtain ⟨hstep, hsec⟩ := tickSecond_seconds hvalid
    have hshort : NoLastDay (date t) (n + 1) → NoLastDay (date t) n := fun h k u h1 hk => h k u h1 (by omega)
    -- while the clock is right, its next second is the one of the calendar
    have hnext : NoLastDay (date t) n → IsLater (date t) (n + 1) (next (date (tickSecond^[n] t))) := by
      intro h
      have hv := (valid_iff _).mp hvalid
      refine ⟨hv.next, ?_⟩
      rw [hv.seconds_next, (ih h).2]
      push_cast
      ring
    rw [Function.iterate_succ_apply']
    constructor
    · intro h
      have hlast := h (n + 1) _ (by omega) (by omega) (hnext (hshort h))
      rw [tickSecond_eq hvalid, if_neg hlast]
      exact hnext (hshort h)
    · intro h
      push_cast
      by_cases hn : NoLastDay (date t) n
      · have hlast : LastDay (next (date (tickSecond^[n] t))) := by
          by_contra hlast
          apply h
          intro k u h1 hk hu
          rcases Nat.lt_or_ge k (n + 1) with hlt | hge
          · exact hn k u h1 (by omega) hu
          · obtain rfl : k = n + 1 := by omega
            rw [hu.unique (hnext hn)]
            exact hlast
        rw [if_pos hlast, (ih hn).2] at hsec
        omega
      · have := ih' hn
        split_ifs at hsec
        all_goals omega

/-- **The clock keeps the calendar up to the last day of a month.** From a
valid date and time, `n` seconds of ticks lead to the date and time `n`
seconds later iff none of the seconds on the way is on the last day of a
month. -/
theorem clock_keeps_calendar (s : Timer) (n : ℕ) (hv : Time.Valid s.rt) (hj : hz ∣ s.jiffy)
    (hlo : -2147483648 ≤ s.jiffy) (hhi : s.jiffy + n * hz < 2147483648) :
    IsLater (date s.rt) n (date (updateJiffy^[n * hz.toNat] s).rt) ↔ NoLastDay (date s.rt) n := by
  have hj' : s.jiffy % 100 = 0 := Int.emod_eq_zero_of_dvd hj
  have hrun : (updateJiffy^[n * 100] s).rt = tickSecond^[n] s.rt := by
    rw [updateJiffy_seconds hj' hlo hhi]
  obtain ⟨hin, hout⟩ := tickSecond_iterate hv n
  change IsLater (date s.rt) n (date (updateJiffy^[n * 100] s).rt) ↔ _
  rw [hrun]
  constructor
  · intro h
    by_contra hno
    have := hout hno
    have := h.2
    omega
  · exact hin

/-- The last second of 27 February 2024: 28 February is not the last day of that month. -/
theorem clock_keeps_calendar_first : IsLater (date ⟨24, 2, 27, 23, 59, 59⟩) 1
    (date (updateJiffy^[1 * hz.toNat] { zero with rt := ⟨24, 2, 27, 23, 59, 59⟩ }).rt) := by
  refine (clock_keeps_calendar { zero with rt := ⟨24, 2, 27, 23, 59, 59⟩ } 1
    ⟨by decide, by decide, by decide, by decide, by decide⟩ (by decide) (by decide) (by decide)).mpr ?_
  intro k u h1 hk hu
  obtain rfl : k = 1 := by omega
  have hmidnight : IsLater (date ⟨24, 2, 27, 23, 59, 59⟩) 1 (date ⟨24, 2, 28, 0, 0, 0⟩) :=
    ⟨⟨by decide, by decide, by decide, by decide, by decide⟩, by decide⟩
  rw [hu.unique hmidnight]
  decide

/-- A second on 31 January: it is February. -/
theorem last_day_skipped :
    ¬ ∀ (s : Timer) (n : ℕ), Time.Valid s.rt → hz ∣ s.jiffy → -2147483648 ≤ s.jiffy →
      s.jiffy + n * hz < 2147483648 → IsLater (date s.rt) n (date (updateJiffy^[n * hz.toNat] s).rt) := by
  intro h
  have hwrong := (h { zero with rt := ⟨0, 1, 31, 0, 0, 0⟩ } 1
    ⟨by decide, by decide, by decide, by decide, by decide⟩ (by decide) (by decide) (by decide)).2
  exact absurd hwrong (by decide +kernel)

end Timer
end NanoOS
