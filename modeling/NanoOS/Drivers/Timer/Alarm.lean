/-
# Alarms fire once and on time

The alarms in use are the bits of `timer_active`. `set_timer` looks for a bit
that is clear with a mask it doubles up to and past bit 31, and `run_timers`
goes over the bits in the same way, clearing those it fires and stopping when
no bit is left above the mask. `setLoop_spec` and `runLoop_spec` say that for
every pattern of bits the first takes a free slot if there is one, and the
second fires exactly the alarms that are due.

A log keeps the alarms that were set and what was sent at each `UPDATE_TIMER`.
What an update has to send is said of the log alone: the alarms it is the
first update for at which they are due.

Key definitions: `pending`, `Entry`, `waiting`, `Inv`.
Key theorems: `setLoop_spec`, `runLoop_spec`, `setTimer_spec`,
`runTimers_spec`, `alarms_fire_once`.
-/
import Mathlib.Data.Finset.Card
import Mathlib.Data.Finset.Range
import Mathlib.Data.BitVec
import NanoOS.Lib.Trans
import NanoOS.Drivers.Timer.Clock

namespace NanoOS
namespace Timer

open Trans

variable {s s' : Timer} {tid : ℤ} {junk : Vector ℤ 5}

/-! ### The loops -/

/-- The alarms in use. -/
def pending (s : Timer) : Finset ℕ := (Finset.range 32).filter fun k => s.timerActive.getLsbD k = true

/-- The alarm of slot `k` is due. -/
def Due (s : Timer) (k : ℕ) : Prop := (s.timer k).expire ≤ u32 s.jiffy

instance (s : Timer) : DecidablePred s.Due := fun k => inferInstanceAs (Decidable ((s.timer k).expire ≤ u32 s.jiffy))

theorem twoPow_double : ∀ k < 32, BitVec.twoPow 32 k + BitVec.twoPow 32 k = BitVec.twoPow 32 (k + 1) := by
  decide

theorem twoPow_ne_zero : ∀ k < 32, BitVec.twoPow 32 k ≠ 0 := by
  decide

theorem twoPow_and_eq_zero {a : BitVec 32} {k : ℕ} (hk : k < 32) :
    BitVec.twoPow 32 k &&& a = 0 ↔ a.getLsbD k = false := by
  rw [BitVec.and_comm, BitVec.and_twoPow]
  cases a.getLsbD k with
  | false => simp
  | true => simpa using twoPow_ne_zero k hk

/-- With the mask above all of `timer_active`, no bit is left. -/
theorem getLsbD_of_lt {a : BitVec 32} {k j : ℕ} (hk : k < 32) (h : BitVec.twoPow 32 k > a) (hj : k ≤ j) :
    a.getLsbD j = false := by
  have hlt : a.toNat < 2 ^ k := by
    have h' : a.toNat < (BitVec.twoPow 32 k).toNat := h
    rwa [BitVec.toNat_twoPow, Nat.mod_eq_of_lt (Nat.pow_lt_pow_right (by omega) hk)] at h'
  exact Nat.testBit_lt_two_pow (Nat.lt_of_lt_of_le hlt (Nat.pow_le_pow_right (by omega) hj))

/-- The loop of `set_timer` finds a free slot, or there is none. -/
theorem setLoop_spec (a : BitVec 32) : ∀ {n k : ℕ}, n + k = 32 →
    (∃ u, setLoop a n (BitVec.twoPow 32 k) k = some (BitVec.twoPow 32 u, u) ∧ u < 32 ∧ a.getLsbD u = false) ∨
    (setLoop a n (BitVec.twoPow 32 k) k = none ∧ ∀ j, k ≤ j → j < 32 → a.getLsbD j = true)
  | 0, k, hk => Or.inr ⟨rfl, fun j h1 h2 => by omega⟩
  | n + 1, k, hk => by
    have hk32 : k < 32 := by omega
    unfold setLoop
    by_cases hfree : BitVec.twoPow 32 k &&& a = 0
    · rw [if_pos hfree]
      exact Or.inl ⟨k, rfl, hk32, (twoPow_and_eq_zero hk32).mp hfree⟩
    · rw [if_neg hfree, twoPow_double k hk32]
      have hset : a.getLsbD k = true := by
        cases h : a.getLsbD k with
        | true => rfl
        | false => exact absurd ((twoPow_and_eq_zero hk32).mpr h) hfree
      -- from bit 31 the mask overflows, but then the loop is over
      have hrest : setLoop a n (if BitVec.twoPow 32 (k + 1) = 0 then 1 else BitVec.twoPow 32 (k + 1)) (k + 1) =
          setLoop a n (BitVec.twoPow 32 (k + 1)) (k + 1) := by
        cases n with
        | zero => rfl
        | succ n => rw [if_neg (twoPow_ne_zero (k + 1) (by omega))]
      rw [hrest]
      rcases setLoop_spec a (n := n) (k := k + 1) (by omega) with hfound | ⟨hnone, hall⟩
      · exact Or.inl hfound
      · refine Or.inr ⟨hnone, fun j hj hj32 => ?_⟩
        rcases Nat.eq_or_lt_of_le hj with rfl | hlt
        · exact hset
        · exact hall j hlt hj32

/-- The slots from `k` on whose alarm is set and due. -/
def dueFrom (k : ℕ) (s : Timer) : List ℕ :=
  (List.range' k (32 - k)).filter fun j => s.timerActive.getLsbD j && decide (s.Due j)

theorem dueFrom_succ {k : ℕ} (hk : k < 32) (s : Timer) : dueFrom k s =
    if s.timerActive.getLsbD k = true ∧ s.Due k then k :: dueFrom (k + 1) s else dueFrom (k + 1) s := by
  unfold dueFrom
  rw [show 32 - k = 32 - (k + 1) + 1 by omega, List.range'_succ, List.filter_cons]
  simp only [Bool.and_eq_true, decide_eq_true_eq]

theorem dueFrom_congr {k : ℕ} {a : BitVec 32} (h : ∀ j, k ≤ j → a.getLsbD j = s.timerActive.getLsbD j) :
    dueFrom k { s with timerActive := a } = dueFrom k s := by
  unfold dueFrom
  apply List.filter_congr
  intro j hj
  rw [List.mem_range'_1] at hj
  dsimp only
  rw [h j hj.1]
  rfl

theorem dueFrom_nil {k : ℕ} (h : ∀ j, k ≤ j → s.timerActive.getLsbD j = false) : dueFrom k s = [] := by
  unfold dueFrom
  rw [List.filter_eq_nil_iff]
  intro j hj
  rw [List.mem_range'_1] at hj
  simp [h j hj.1]

theorem getLsbD_clear {a : BitVec 32} {k : ℕ} (hk : k < 32) (j : ℕ) :
    (a &&& ~~~BitVec.twoPow 32 k).getLsbD j = (a.getLsbD j && decide (j ≠ k)) := by
  rw [BitVec.getLsbD_and, BitVec.getLsbD_not, BitVec.getLsbD_twoPow]
  by_cases hj : j < 32
  · by_cases hjk : k = j
    · simp [hj, hjk]
    · simp [hj, hjk, Ne.symm hjk, hk]
  · rw [BitVec.getLsbD_of_ge a j (by omega), Bool.false_and, Bool.false_and]

/-- The loop of `run_timers` may stop where no bit is left. -/
theorem runLoop_stop (tid : ℤ) (junk : Vector ℤ 5) {k : ℕ} (hno : ∀ j, k ≤ j → s.timerActive.getLsbD j = false) :
    ([] : List MsgData) = (dueFrom k s).map (fun j => timeUpMsg tid junk (s.timer j).pid) ∧
    ∃ a, s = { s with timerActive := a } ∧
      ∀ j, a.getLsbD j = (s.timerActive.getLsbD j && !(decide (k ≤ j) && decide (s.Due j))) := by
  refine ⟨by rw [dueFrom_nil hno]; rfl, s.timerActive, rfl, fun j => ?_⟩
  by_cases hj : k ≤ j
  · simp [hno j hj]
  · simp [hj]

/-- The loop of `run_timers` sends for the alarms that are set and due, and
clears their bits. -/
theorem runLoop_spec (tid : ℤ) (junk : Vector ℤ 5) : ∀ {n k : ℕ} (s : Timer), n + k = 33 →
    (runLoop tid junk n (BitVec.twoPow 32 k) k s).2 =
      (dueFrom k s).map (fun j => timeUpMsg tid junk (s.timer j).pid) ∧
    ∃ a, (runLoop tid junk n (BitVec.twoPow 32 k) k s).1 = { s with timerActive := a } ∧
      ∀ j, a.getLsbD j = (s.timerActive.getLsbD j && !(decide (k ≤ j) && decide (s.Due j)))
  | 0, k, s, hk => runLoop_stop tid junk fun j hj => BitVec.getLsbD_of_ge _ j (by omega)
  | n + 1, k, s, hk => by
    unfold runLoop
    by_cases h32 : k = 32
    · subst h32
      rw [if_pos (by decide)]
      exact runLoop_stop tid junk fun j hj => BitVec.getLsbD_of_ge _ j hj
    have hk32 : k < 32 := by omega
    rw [if_neg (twoPow_ne_zero k hk32)]
    by_cases hgt : BitVec.twoPow 32 k > s.timerActive
    · rw [if_pos hgt]
      exact runLoop_stop tid junk fun j hj => getLsbD_of_lt hk32 hgt hj
    rw [if_neg hgt, twoPow_double k hk32]
    by_cases hclear : BitVec.twoPow 32 k &&& s.timerActive = 0
    · -- not set
      have hbit := (twoPow_and_eq_zero hk32).mp hclear
      obtain ⟨hsent, a, hrun, ha⟩ := runLoop_spec tid junk (n := n) (k := k + 1) s (by omega)
      rw [if_pos hclear, dueFrom_succ hk32, if_neg (by simp [hbit])]
      refine ⟨hsent, a, hrun, fun j => ?_⟩
      rw [ha j]
      by_cases hj : j = k
      · simp [hj, hbit]
      · simp [show k + 1 ≤ j ↔ k ≤ j by omega]
    have hbit : s.timerActive.getLsbD k = true := by
      cases h : s.timerActive.getLsbD k with
      | true => rfl
      | false => exact absurd ((twoPow_and_eq_zero hk32).mpr h) hclear
    rw [if_neg hclear]
    by_cases hlate : (s.timer k).expire > u32 s.jiffy
    · -- set, but not due
      have hdue : ¬ s.Due k := Nat.not_le.mpr hlate
      obtain ⟨hsent, a, hrun, ha⟩ := runLoop_spec tid junk (n := n) (k := k + 1) s (by omega)
      rw [if_pos hlate, dueFrom_succ hk32, if_neg (fun h => hdue h.2)]
      refine ⟨hsent, a, hrun, fun j => ?_⟩
      rw [ha j]
      by_cases hj : j = k
      · simp [hj, hdue]
      · simp [show k + 1 ≤ j ↔ k ≤ j by omega]
    · -- it fires
      have hdue : s.Due k := Nat.not_lt.mp hlate
      obtain ⟨hsent, a, hrun, ha⟩ := runLoop_spec tid junk (n := n) (k := k + 1)
        { s with timerActive := s.timerActive &&& ~~~BitVec.twoPow 32 k } (by omega)
      rw [dueFrom_congr (fun j hj => by rw [getLsbD_clear hk32]; simp [show j ≠ k by omega])] at hsent
      rw [if_neg hlate, dueFrom_succ hk32, if_pos ⟨hbit, hdue⟩]
      dsimp only
      refine ⟨by rw [hsent]; rfl, a, hrun, fun j => ?_⟩
      rw [ha j]
      dsimp only
      rw [getLsbD_clear hk32]
      have hsame : Due { s with timerActive := s.timerActive &&& ~~~BitVec.twoPow 32 k } j ↔ s.Due j := Iff.rfl
      by_cases hj : j = k
      · simp [hj, hdue]
      · simp [show k + 1 ≤ j ↔ k ≤ j by omega, hj, hsame]

/-! ### `set_timer` and `run_timers` -/

theorem mem_pending {k : ℕ} : k ∈ s.pending ↔ k < 32 ∧ s.timerActive.getLsbD k = true := by
  rw [pending, Finset.mem_filter, Finset.mem_range]

/-- `set_timer` takes a free slot and leaves the others as they are, or its
assertion fails because there is none. -/
theorem setTimer_spec (sec pid : ℤ) (s : Timer) :
    (∃ u s', setTimer sec pid s = some s' ∧ u < 32 ∧ u ∉ s.pending ∧ s'.pending = insert u s.pending ∧
      s'.timer = Function.update s.timer u ⟨u32 (sec * hz + s.jiffy), pid⟩ ∧ s'.jiffy = s.jiffy) ∨
    (setTimer sec pid s = none ∧ s.pending.card = 32) := by
  have hone : (1 : BitVec 32) = BitVec.twoPow 32 0 := rfl
  unfold setTimer
  rw [hone]
  rcases setLoop_spec s.timerActive (n := 32) (k := 0) rfl with ⟨u, hloop, hu, hfree⟩ | ⟨hloop, hall⟩
  · left
    rw [hloop]
    refine ⟨u, _, rfl, hu, fun hm => ?_, ?_, rfl, rfl⟩
    · rw [mem_pending, hfree] at hm
      cases hm.2
    · ext j
      rw [Finset.mem_insert, mem_pending, mem_pending]
      dsimp only
      rw [BitVec.getLsbD_or, BitVec.getLsbD_twoPow]
      by_cases hj : j = u
      · simp [hj, hu]
      · simp [hj, Ne.symm hj]
  · right
    rw [hloop]
    refine ⟨rfl, ?_⟩
    have hfull : s.pending = Finset.range 32 := by
      ext j
      rw [mem_pending, Finset.mem_range]
      exact ⟨fun h => h.1, fun h => ⟨h, hall j (Nat.zero_le j) h⟩⟩
    rw [hfull, Finset.card_range]

/-- The assertion of `set_timer` fails iff all alarms are in use. -/
theorem setTimer_eq_none_iff (sec pid : ℤ) (s : Timer) : setTimer sec pid s = none ↔ s.pending.card = 32 := by
  rcases setTimer_spec sec pid s with ⟨u, s', hs, hu, hfree, -⟩ | ⟨hnone, hcard⟩
  · have hne : s.pending.card ≠ 32 := by
      intro hcard
      have hsub : s.pending ⊆ Finset.range 32 := Finset.filter_subset _ _
      have hfull := Finset.eq_of_subset_of_card_le hsub (by rw [hcard, Finset.card_range])
      rw [hfull, Finset.mem_range] at hfree
      exact hfree hu
    rw [hs]
    exact iff_of_false (by simp) hne
  · exact iff_of_true hnone hcard

/-- `run_timers` sends for the alarms that are due, and those that are not
stay. -/
theorem runTimers_spec (tid : ℤ) (junk : Vector ℤ 5) (s : Timer) :
    ((runTimers tid junk s).2 : Multiset MsgData) =
      (s.pending.filter s.Due).val.map (fun k => timeUpMsg tid junk (s.timer k).pid) ∧
    (runTimers tid junk s).1.pending = s.pending.filter (fun k => ¬ s.Due k) ∧
    (runTimers tid junk s).1.timer = s.timer ∧ (runTimers tid junk s).1.jiffy = s.jiffy := by
  have hone : (1 : BitVec 32) = BitVec.twoPow 32 0 := rfl
  obtain ⟨hsent, a, hrun, ha⟩ := runLoop_spec tid junk (n := 33) (k := 0) s rfl
  unfold runTimers
  rw [hone, hrun, hsent]
  refine ⟨?_, ?_, rfl, rfl⟩
  · have hdue : dueFrom 0 s = (List.range 32).filter fun j => s.timerActive.getLsbD j && decide (s.Due j) := by
      rw [dueFrom, List.range_eq_range']
    have hset : (s.pending.filter s.Due).val = (dueFrom 0 s : Multiset ℕ) := by
      rw [hdue, pending, Finset.filter_filter, Finset.filter_val, Finset.range_val, Multiset.range,
        Multiset.filter_coe]
      congr 1
      apply List.filter_congr
      intro j _
      simp [Bool.decide_and]
    rw [hset, Multiset.map_coe]
  · ext j
    rw [Finset.mem_filter, mem_pending, mem_pending]
    dsimp only
    rw [ha j]
    simp [and_assoc]

/-! ### The log -/

/-- What the log keeps: an alarm that was set, with the time at which it is
due; and an `UPDATE_TIMER` that was handled at time `t`, with the messages
sent. -/
inductive Entry
  | new (expire pid : ℤ)
  | update (t : ℤ) (sent : List MsgData)

/-- An update at which an alarm for `expire` is due. -/
def Entry.reaches (expire : ℤ) : Entry → Bool
  | .update t _ => expire ≤ t
  | .new _ _ => false

/-- The alarms that wait after a log: those that no update since has found
due. -/
def waiting : List Entry → List (ℤ × ℤ)
  | [] => []
  | .new expire pid :: log =>
    if log.any (Entry.reaches expire) then waiting log else (expire, pid) :: waiting log
  | .update _ _ :: log => waiting log

theorem waiting_new (expire pid : ℤ) : ∀ log, waiting (log ++ [.new expire pid]) = waiting log ++ [(expire, pid)]
  | [] => rfl
  | .new e p :: log => by
    have hany : (log ++ [Entry.new expire pid]).any (Entry.reaches e) = log.any (Entry.reaches e) := by
      simp [Entry.reaches]
    rw [List.cons_append, waiting, waiting, hany, waiting_new expire pid log]
    split <;> rfl
  | .update _ _ :: log => by
    rw [List.cons_append, waiting, waiting, waiting_new expire pid log]

theorem waiting_update (t : ℤ) (sent : List MsgData) : ∀ log,
    waiting (log ++ [.update t sent]) = (waiting log).filter fun x => t < x.1
  | [] => rfl
  | .new e p :: log => by
    have hany : (log ++ [Entry.update t sent]).any (Entry.reaches e) =
        (log.any (Entry.reaches e) || decide (e ≤ t)) := by
      simp [Entry.reaches]
    rw [List.cons_append, waiting, waiting, hany, waiting_update t sent log]
    by_cases hlog : log.any (Entry.reaches e) = true
    · rw [if_pos hlog, if_pos (by rw [hlog, Bool.true_or])]
    · rw [if_neg hlog, List.filter_cons]
      by_cases het : e ≤ t
      · rw [if_pos (by simp [het]), if_neg (by simpa using het)]
      · rw [if_neg (by simp [het, hlog]), if_pos (by simpa using het)]
  | .update _ _ :: log => by
    rw [List.cons_append, waiting, waiting, waiting_update t sent log]

/-- At time `t` an update sends one `TIME_UP` for each of the alarms `w` that
is due, to its pid. -/
def Fires (tid t : ℤ) (w : List (ℤ × ℤ)) (sent : List MsgData) : Prop :=
  (sent.map MsgData.dest).Perm ((w.filter fun x => x.1 ≤ t).map Prod.snd) ∧
  ∀ m ∈ sent, m.src = tid ∧ m.type = timeUp

/-- Every update in the log has sent what it should. -/
def Correct (tid : ℤ) (log : List Entry) : Prop :=
  ∀ before t sent after, log = before ++ .update t sent :: after → Fires tid t (waiting before) sent

theorem Correct.new {log : List Entry} (h : Correct tid log) (expire pid : ℤ) :
    Correct tid (log ++ [.new expire pid]) := by
  intro before t sent after heq
  rcases List.eq_nil_or_concat after with rfl | ⟨after', x, rfl⟩
  · have := (List.append_inj' heq rfl).2
    cases this
  · rw [List.concat_eq_append, ← List.cons_append, ← List.append_assoc] at heq
    exact h before t sent after' (List.append_inj' heq rfl).1

theorem Correct.update {log : List Entry} {t : ℤ} {sent : List MsgData} (h : Correct tid log)
    (hf : Fires tid t (waiting log) sent) : Correct tid (log ++ [.update t sent]) := by
  intro before t' sent' after heq
  rcases List.eq_nil_or_concat after with rfl | ⟨after', x, rfl⟩
  · obtain ⟨rfl, hx⟩ := List.append_inj' heq rfl
    cases hx
    exact hf
  · rw [List.concat_eq_append, ← List.cons_append, ← List.append_assoc] at heq
    exact h before t' sent' after' (List.append_inj' heq rfl).1

/-! ### Every run -/

/-- A tick, or a message that the driver handles; `junk` is what its stack
holds. -/
inductive Act
  | tick
  | handle (m : MsgData) (junk : Vector ℤ 5)

/-- `jiffy` does not overflow, and neither does the time of an alarm. -/
def Act.Ok (s : Timer) : Act → Prop
  | .tick => s.jiffy + 1 < 2147483648
  | .handle m _ => m.type = newTimer → 0 ≤ m.i0 ∧ m.i0 * hz + s.jiffy < 2147483648

instance (s : Timer) : DecidablePred (Act.Ok s)
  | .tick => inferInstanceAs (Decidable (s.jiffy + 1 < 2147483648))
  | .handle m _ => inferInstanceAs (Decidable (m.type = newTimer → 0 ≤ m.i0 ∧ m.i0 * hz + s.jiffy < 2147483648))

/-- One step; `none` if an assertion fails. -/
def step (tid : ℤ) (s : Timer) : Act → Option Timer
  | .tick => some s.updateJiffy
  | .handle m junk => (s.timerDriverThread tid junk m).map Prod.fst

/-- The log of a step. -/
def logged (tid : ℤ) (s : Timer) (a : Act) (log : List Entry) : List Entry :=
  match a with
  | .tick => log
  | .handle m junk =>
    match s.timerDriverThread tid junk m with
    | some (_, sent) =>
      if m.type = newTimer then log ++ [.new (m.i0 * hz + s.jiffy) m.src]
      else log ++ [.update s.jiffy sent]
    | none => log

/-- The alarm of a log, as it is in its slot. -/
def entry (x : ℤ × ℤ) : TimerStruct := ⟨x.1.toNat, x.2⟩

/-- The alarms in the slots are those that wait. -/
structure Inv (tid : ℤ) (p : Timer × List Entry) : Prop where
  jiffy : 0 ≤ p.1.jiffy ∧ p.1.jiffy < 2147483648
  times : ∀ x ∈ waiting p.2, 0 ≤ x.1
  slots : p.1.pending.val.map p.1.timer = (waiting p.2 : Multiset (ℤ × ℤ)).map entry
  correct : Correct tid p.2

theorem u32_of_range {x : ℤ} (hlo : 0 ≤ x) (hhi : x < 2147483648) : u32 x = x.toNat := by
  unfold u32
  rw [Int.emod_eq_of_lt hlo (by omega)]

theorem updateJiffy_fields (s : Timer) (hlo : 0 ≤ s.jiffy) (hhi : s.jiffy + 1 < 2147483648) :
    s.updateJiffy.jiffy = s.jiffy + 1 ∧ s.updateJiffy.pending = s.pending ∧ s.updateJiffy.timer = s.timer := by
  have hlong := long_of_range (x := s.jiffy + 1) (by omega) hhi
  unfold updateJiffy
  dsimp only
  rw [hlong]
  split
  · exact ⟨rfl, rfl, rfl⟩
  · exact ⟨rfl, rfl, rfl⟩

variable {p : Timer × List Entry}

theorem Inv.new (hI : Inv tid p) {u : ℕ} {expire pid : ℤ} (hfree : u ∉ p.1.pending)
    (hp : s'.pending = insert u p.1.pending) (hj : s'.jiffy = p.1.jiffy) (he : 0 ≤ expire)
    (ht : s'.timer = Function.update p.1.timer u ⟨expire.toNat, pid⟩) :
    Inv tid (s', p.2 ++ [.new expire pid]) := by
  refine ⟨hj ▸ hI.jiffy, fun x hx => ?_, ?_, hI.correct.new expire pid⟩
  · dsimp only at hx
    rw [waiting_new, List.mem_append, List.mem_singleton] at hx
    rcases hx with hx | rfl
    · exact hI.times x hx
    · exact he
  · have hold : p.1.pending.val.map s'.timer = p.1.pending.val.map p.1.timer := by
      apply Multiset.map_congr rfl
      intro k hk
      rw [ht, Function.update_of_ne (fun h => hfree (by rw [← h]; exact hk))]
    dsimp only
    rw [hp, Finset.insert_val_of_notMem hfree, Multiset.map_cons, hold, hI.slots, waiting_new,
      ← Multiset.coe_add, Multiset.map_add, Multiset.coe_singleton, Multiset.map_singleton, ht,
      Function.update_self, Multiset.add_comm, Multiset.singleton_add]
    rfl

theorem Inv.due_iff (hI : Inv tid p) {x : ℤ × ℤ} (hx : x ∈ waiting p.2) :
    (entry x).expire ≤ u32 p.1.jiffy ↔ x.1 ≤ p.1.jiffy := by
  have := hI.times x hx
  have := hI.jiffy
  rw [u32_of_range this.1 this.2]
  unfold entry
  dsimp only
  omega

theorem Inv.filter_slots (hI : Inv tid p) (q : TimerStruct → Prop) [DecidablePred q] :
    (p.1.pending.filter fun k => q (p.1.timer k)).val.map p.1.timer =
      ((waiting p.2).filter fun x => decide (q (entry x)) : Multiset (ℤ × ℤ)).map entry := by
  have hslots := congrArg (Multiset.filter q) hI.slots
  rw [Multiset.filter_map, Multiset.filter_map] at hslots
  rw [Finset.filter_val]
  exact hslots

/-- An update fires the alarms that are due, and the others wait on. -/
theorem Inv.update (hI : Inv tid p) (junk : Vector ℤ 5) :
    Inv tid ((p.1.runTimers tid junk).1, p.2 ++ [.update p.1.jiffy (p.1.runTimers tid junk).2]) := by
  obtain ⟨hsent, hpend, htimer, hjiffy⟩ := runTimers_spec tid junk p.1
  have hdue : ((waiting p.2).filter fun x => decide ((entry x).expire ≤ u32 p.1.jiffy)) =
      (waiting p.2).filter fun x => decide (x.1 ≤ p.1.jiffy) := by
    apply List.filter_congr
    intro x hx
    rw [decide_eq_decide]
    exact hI.due_iff hx
  have hlate : ((waiting p.2).filter fun x => decide (¬ (entry x).expire ≤ u32 p.1.jiffy)) =
      (waiting p.2).filter fun x => decide (p.1.jiffy < x.1) := by
    apply List.filter_congr
    intro x hx
    rw [decide_eq_decide, hI.due_iff hx]
    exact Int.not_le
  refine ⟨hjiffy ▸ hI.jiffy, fun x hx => ?_, ?_, hI.correct.update ⟨?_, fun m hm => ?_⟩⟩
  · dsimp only at hx
    rw [waiting_update] at hx
    exact hI.times x (List.mem_of_mem_filter hx)
  · dsimp only
    rw [hpend, htimer, waiting_update, ← hlate]
    exact hI.filter_slots fun x => ¬ x.expire ≤ u32 p.1.jiffy
  · -- the pids, as a multiset
    have hpids := congrArg (Multiset.map TimerStruct.pid) (hI.filter_slots fun x => x.expire ≤ u32 p.1.jiffy)
    rw [hdue, Multiset.map_map, Multiset.map_map] at hpids
    rw [← Multiset.coe_eq_coe, ← Multiset.map_coe, hsent, Multiset.map_map, ← Multiset.map_coe]
    exact hpids
  · have hm' : m ∈ ((p.1.runTimers tid junk).2 : Multiset MsgData) := hm
    rw [hsent, Multiset.mem_map] at hm'
    obtain ⟨k, -, rfl⟩ := hm'
    exact ⟨rfl, rfl⟩

theorem Inv.setTimer_eq_some (hI : Inv tid p) {sec pid : ℤ} (hsec : 0 ≤ sec)
    (hrange : sec * hz + p.1.jiffy < 2147483648) (hset : setTimer sec pid p.1 = some s') :
    0 ≤ sec * hz + p.1.jiffy ∧ ∃ u < 32, u ∉ p.1.pending ∧ s'.pending = insert u p.1.pending ∧
      s'.timer = Function.update p.1.timer u (entry (sec * hz + p.1.jiffy, pid)) ∧ s'.jiffy = p.1.jiffy := by
  have hexp : 0 ≤ sec * hz + p.1.jiffy := by
    have := hI.jiffy.1
    unfold hz
    omega
  refine ⟨hexp, ?_⟩
  rcases setTimer_spec sec pid p.1 with ⟨u, s1, hs, hu, hfree, hp, ht, hj⟩ | ⟨hnone, -⟩
  · rw [hset] at hs
    cases hs
    rw [u32_of_range hexp hrange] at ht
    exact ⟨u, hu, hfree, hp, ht, hj⟩
  · rw [hset] at hnone
    cases hnone

/-- A step of the driver or of the clock keeps the invariant. -/
theorem Inv.step {p' : Timer × List Entry} {a : Act} (hI : Inv tid p) (hok : a.Ok p.1)
    (h : withHistory (step tid) (logged tid) p a = some p') : Inv tid p' := by
  obtain ⟨s', log'⟩ := p'
  rw [withHistory_eq_some] at h
  obtain ⟨hst, hlog⟩ := h
  dsimp only at hst hlog
  subst hlog
  cases a with
  | tick =>
    obtain ⟨hj, hp, ht⟩ := updateJiffy_fields p.1 hI.jiffy.1 hok
    cases hst
    have hlo := hI.jiffy.1
    refine ⟨⟨?_, ?_⟩, hI.times, ?_, hI.correct⟩
    · dsimp only
      rw [hj]
      omega
    · dsimp only
      rw [hj]
      exact hok
    · dsimp only
      rw [hp, ht]
      exact hI.slots
  | handle m junk =>
    unfold Timer.step at hst
    unfold logged
    dsimp only at hst ⊢
    rw [Option.map_eq_some_iff] at hst
    obtain ⟨⟨s, sent⟩, hrun, rfl⟩ := hst
    rw [hrun]
    dsimp only
    unfold timerDriverThread at hrun
    by_cases hnew : m.type = newTimer
    · rw [if_pos hnew, Option.map_eq_some_iff] at hrun
      obtain ⟨s1, hset, heq⟩ := hrun
      cases heq
      obtain ⟨hsec, hrange⟩ := hok hnew
      obtain ⟨hexp, u, -, hfree, hp, ht, hj⟩ := hI.setTimer_eq_some hsec hrange hset
      rw [if_pos hnew]
      exact hI.new hfree hp hj hexp ht
    · rw [if_neg hnew] at hrun ⊢
      split at hrun
      · have hupd := hI.update junk
        rw [Option.some.inj hrun] at hupd
        exact hupd
      · cases hrun

theorem inv_init (tid : ℤ) (rtc : ℕ → BitVec 8) : Inv tid (initRt rtc zero, []) := by
  refine ⟨⟨Int.le_refl 0, ?_⟩, fun x hx => (List.not_mem_nil hx).elim, ?_, fun before t sent after h => ?_⟩
  · show (0 : ℤ) < 2147483648
    decide
  · have hempty : (initRt rtc zero).pending = ∅ := by
      show pending zero = ∅
      decide
    dsimp only
    rw [hempty]
    rfl
  · cases before <;> cases h

/-- **Alarms fire once and on time**: in every run, each update has sent one
`TIME_UP` for each alarm it was the first update for at which the alarm was
due, to the pid of the alarm, and nothing else. The alarms in use are those
that wait, a request takes a slot that is not in use and changes no other,
an update frees the slots of the alarms it fires and changes no other, and
the assertion of `set_timer` fails iff all 32 slots are in use. -/
theorem alarms_fire_once (tid : ℤ) (rtc : ℕ → BitVec 8) (p : Timer × List Entry)
    (hr : Reach (withHistory (step tid) (logged tid)) (fun p a => a.Ok p.1) (initRt rtc zero, []) p) :
    Correct tid p.2 ∧
    p.1.pending.val.map p.1.timer = (waiting p.2 : Multiset (ℤ × ℤ)).map entry ∧
    (∀ m junk, m.type = newTimer → Act.Ok p.1 (.handle m junk) →
      (p.1.timerDriverThread tid junk m = none ↔ p.1.pending.card = 32) ∧
      ∀ s' sent, p.1.timerDriverThread tid junk m = some (s', sent) →
        ∃ u < 32, u ∉ p.1.pending ∧ s'.pending = insert u p.1.pending ∧
          s'.timer = Function.update p.1.timer u (entry (m.i0 * hz + p.1.jiffy, m.src)) ∧ sent = []) ∧
    (∀ m junk, m.type = updateTimer →
      ∃ s' sent, p.1.timerDriverThread tid junk m = some (s', sent) ∧
        s'.pending = p.1.pending.filter (fun k => p.1.jiffy.toNat < (p.1.timer k).expire) ∧
        s'.timer = p.1.timer ∧ Fires tid p.1.jiffy (waiting p.2) sent) := by
  have hI : Inv tid p := hr.invariant (inv_init tid rtc) fun _ _ _ hI hok hst => hI.step hok hst
  refine ⟨hI.correct, hI.slots, fun m junk hm hok => ⟨?_, fun s' sent hrun => ?_⟩, fun m junk hm => ?_⟩
  · unfold timerDriverThread
    rw [if_pos hm, Option.map_eq_none_iff]
    exact setTimer_eq_none_iff m.i0 m.src p.1
  · unfold timerDriverThread at hrun
    rw [if_pos hm, Option.map_eq_some_iff] at hrun
    obtain ⟨s1, hset, heq⟩ := hrun
    cases heq
    obtain ⟨hsec, hrange⟩ := hok hm
    obtain ⟨-, u, hu, hfree, hp, ht, -⟩ := hI.setTimer_eq_some hsec hrange hset
    exact ⟨u, hu, hfree, hp, ht, rfl⟩
  · obtain ⟨-, hpend, htimer, -⟩ := runTimers_spec tid junk p.1
    have hfires : Fires tid p.1.jiffy (waiting p.2) (p.1.runTimers tid junk).2 :=
      (hI.update junk).correct p.2 p.1.jiffy _ [] rfl
    refine ⟨_, _, ?_, ?_, htimer, hfires⟩
    · unfold timerDriverThread
      rw [if_neg (by rw [hm]; decide), if_pos hm]
    · rw [hpend]
      apply Finset.filter_congr
      intro k _
      unfold Due
      rw [u32_of_range hI.jiffy.1 hI.jiffy.2, Nat.not_le]

/-- The time of an entry, and the pids of its alarm or of its messages. -/
def Entry.pids : Entry → ℤ × List ℤ
  | .new expire pid => (expire, [pid])
  | .update t sent => (t, sent.map MsgData.dest)

/-- Processes 7 and 9 set alarms. The first update finds only that of 7 due, and the one that comes a
second later finds that of 9 due. -/
theorem alarms_fire_once_now : ∃ p, Reach (withHistory (step 3) (logged 3)) (fun p a => a.Ok p.1)
    (initRt (fun _ => 0) zero, []) p ∧ p.2.map Entry.pids = [(1, [7]), (101, [9]), (1, [7])] ∧ Correct 3 p.2 ∧
    ∃ s' sent, p.1.timerDriverThread 3 #v[0, 0, 0, 0, 0] ⟨3, 3, updateTimer, #v[0, 0, 0, 0, 0]⟩ = some (s', sent) ∧
      sent.map MsgData.dest = [9] := by
  obtain ⟨p, hr, hlog, hwait, hjiffy⟩ : ∃ p, Reach (withHistory (step 3) (logged 3)) (fun p a => a.Ok p.1)
      (initRt (fun _ => 0) zero, []) p ∧ p.2.map Entry.pids = [(1, [7]), (101, [9]), (1, [7])] ∧
      waiting p.2 = [(101, 9)] ∧ p.1.jiffy = 101 :=
    Reach.exists_of_exec ([.tick, .handle ⟨7, 3, newTimer, #v[0, 0, 0, 0, 0]⟩ #v[0, 0, 0, 0, 0],
      .handle ⟨9, 3, newTimer, #v[1, 0, 0, 0, 0]⟩ #v[0, 0, 0, 0, 0],
      .handle ⟨3, 3, updateTimer, #v[0, 0, 0, 0, 0]⟩ #v[0, 0, 0, 0, 0]] ++ List.replicate 100 .tick)
      (by decide +kernel)
  obtain ⟨hcorrect, -, -, hnext⟩ := alarms_fire_once 3 _ p hr
  obtain ⟨s', sent, hrun, -, -, hfires, -⟩ := hnext ⟨3, 3, updateTimer, #v[0, 0, 0, 0, 0]⟩ #v[0, 0, 0, 0, 0] rfl
  rw [hwait, hjiffy] at hfires
  exact ⟨p, hr, hlog, hcorrect, s', sent, hrun, List.perm_singleton.mp hfires⟩

end Timer
end NanoOS
