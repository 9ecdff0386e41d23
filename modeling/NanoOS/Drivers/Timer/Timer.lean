/-
# The timer: ticks, clock and alarms

`timer.c` counts the ticks of the timer interrupt in `jiffy`, keeps the date
and time in `rt`, and has 32 alarm timers, of which those in use are the bits
of `timer_active`. The interrupt handler `update_jiffy` advances the clock
once every `HZ` ticks and sends `UPDATE_TIMER` to the driver thread, which
sets alarms (`set_timer`) and sends `TIME_UP` for those that are due
(`run_timers`).

A `long` has 32 bits and wraps around; the fields of `rt` never come near
the limits of an `int`.

Key definitions: `Time`, `Timer`, `md`, `updateJiffy`, `initRt`, `setTimer`,
`runTimers`, `timerDriverThread`.
-/
import NanoOS.Drivers.Hal

namespace NanoOS

/-- `HZ`. -/
def hz : ℤ := 100

/-- `TIME_SECOND`. -/
def timeSecond : ℕ := 0x0

/-- `TIME_MINUTE`. -/
def timeMinute : ℕ := 0x2

/-- `TIME_HOUR`. -/
def timeHour : ℕ := 0x4

/-- `TIME_DAY`. -/
def timeDay : ℕ := 0x7

/-- `TIME_MONTH`. -/
def timeMonth : ℕ := 0x8

/-- `TIME_YEAR`. -/
def timeYear : ℕ := 0x9

/-- `NEW_TIMER`. -/
def newTimer : ℤ := 101

/-- `TIME_UP`. -/
def timeUp : ℤ := 102

/-- `UPDATE_TIMER`. -/
def updateTimer : ℤ := 103

/-- A `Time`; the year is counted from 2000. -/
structure Time where
  year : ℤ
  month : ℤ
  day : ℤ
  hour : ℤ
  minute : ℤ
  second : ℤ
  deriving DecidableEq

/-- A `struct timer_struct`. -/
structure TimerStruct where
  expire : ℕ
  pid : ℤ
  deriving DecidableEq

/-- The variables of `timer.c`. -/
structure Timer where
  jiffy : ℤ
  rt : Time
  timerActive : BitVec 32
  timer : ℕ → TimerStruct

namespace Timer

/-- The zero-initialised memory. -/
def zero : Timer := ⟨0, ⟨0, 0, 0, 0, 0, 0⟩, 0, fun _ => ⟨0, 0⟩⟩

/-- The conversion of an integer to `long`. -/
def long (x : ℤ) : ℤ := x.bmod 4294967296

/-! ### The clock -/

/-- `tab` of `md`. -/
def tab : List ℤ := [0, 31, 28, 31, 30, 31, 30, 31, 31, 30, 31, 30, 31]

/-- `md`. -/
def md (year month : ℤ) : ℤ :=
  let leap := year.tmod 400 = 0 ∨ (year.tmod 4 = 0 ∧ year.tmod 100 ≠ 0)
  tab.getD month.toNat 0 + if leap ∧ month = 2 then 1 else 0

/-- The block of `update_jiffy` that runs once a second. -/
def tickSecond (rt : Time) : Time :=
  let rt := { rt with second := rt.second + 1 }
  let rt := if rt.second ≥ 60 then { rt with second := 0, minute := rt.minute + 1 } else rt
  let rt := if rt.minute ≥ 60 then { rt with minute := 0, hour := rt.hour + 1 } else rt
  let rt := if rt.hour ≥ 24 then { rt with hour := 0, day := rt.day + 1 } else rt
  let rt := if rt.day ≥ md rt.year rt.month then { rt with day := 1, month := rt.month + 1 } else rt
  if rt.month ≥ 13 then { rt with month := 1, year := rt.year + 1 } else rt

/-- `update_jiffy`, up to the `send` of `UPDATE_TIMER`. -/
def updateJiffy (s : Timer) : Timer :=
  let s := { s with jiffy := long (s.jiffy + 1) }
  if s.jiffy.tmod hz = 0 then { s with rt := tickSecond s.rt } else s

/-- `get_time_part`, where `rtc` holds the registers of the real-time clock. -/
def getTimePart (rtc : ℕ → BitVec 8) (part : ℕ) : ℕ :=
  let bcd := (rtc part).toNat
  (bcd / 16 * 10 + bcd % 16) % 256

/-- `init_rt`. -/
def initRt (rtc : ℕ → BitVec 8) (s : Timer) : Timer :=
  { s with rt :=
    { year := getTimePart rtc timeYear
      month := getTimePart rtc timeMonth
      day := getTimePart rtc timeDay
      hour := getTimePart rtc timeDay
      minute := getTimePart rtc timeMinute
      second := getTimePart rtc timeSecond } }

/-- `get_time`. -/
def getTime (s : Timer) : Time := s.rt

/-! ### The alarms -/

/-- The loop of `set_timer` with `n` rounds to go, and then its assertion:
`none` if it fails. -/
def setLoop (active : BitVec 32) : ℕ → BitVec 32 → ℕ → Option (BitVec 32 × ℕ)
  | 0, _, _ => none
  | n + 1, test, usable =>
    if test &&& active = 0 then some (test, usable)
    else setLoop active n (if test + test = 0 then 1 else test + test) (usable + 1)

/-- `set_timer`. -/
def setTimer (sec pid : ℤ) (s : Timer) : Option Timer := do
  let (test, usable) ← setLoop s.timerActive 32 1 0
  return { s with
    timer := Function.update s.timer usable ⟨u32 (sec * hz + s.jiffy), pid⟩
    timerActive := s.timerActive ||| test }

/-- The message of an alarm to `pid`; `junk` is what the stack holds. -/
def timeUpMsg (tid : ℤ) (junk : Vector ℤ 5) (pid : ℤ) : MsgData := ⟨tid, pid, timeUp, junk⟩

/-- The loop of `run_timers` with `tp` at `timer[k]`, and the messages it
sends. The mask becomes 0 in its 33rd round at the latest. -/
def runLoop (tid : ℤ) (junk : Vector ℤ 5) : ℕ → BitVec 32 → ℕ → Timer → Timer × List MsgData
  | 0, _, _, s => (s, [])
  | n + 1, mask, k, s =>
    if mask = 0 then (s, [])
    else if mask > s.timerActive then (s, [])
    else if mask &&& s.timerActive = 0 then runLoop tid junk n (mask + mask) (k + 1) s
    else if (s.timer k).expire > u32 s.jiffy then runLoop tid junk n (mask + mask) (k + 1) s
    else
      let r := runLoop tid junk n (mask + mask) (k + 1) { s with timerActive := s.timerActive &&& ~~~mask }
      (r.1, timeUpMsg tid junk (s.timer k).pid :: r.2)

/-- `run_timers`, where `tid` is `TIMER`. -/
def runTimers (tid : ℤ) (junk : Vector ℤ 5) (s : Timer) : Timer × List MsgData := runLoop tid junk 33 1 0 s

/-- One round of `timer_driver_thread` with `receive` done, and the messages
it sends; `none` if an assertion fails. -/
def timerDriverThread (tid : ℤ) (junk : Vector ℤ 5) (m : MsgData) (s : Timer) : Option (Timer × List MsgData) :=
  if m.type = newTimer then (setTimer m.i0 m.src s).map fun s => (s, [])
  else if m.type = updateTimer then some (runTimers tid junk s)
  else none

end Timer
end NanoOS
