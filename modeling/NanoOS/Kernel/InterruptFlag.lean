/-
# What calls leave the interrupt flag at

`lock` disables interrupts, and the `unlock` that brings `lock_count` to zero
enables them, whether they were enabled before or not. `create_kthread` saves
the flag on entry and restores it at the end, but only one way: if it was set
it is set again, and if it was clear the `unlock` of its `create_sem` decides.
So a call made with interrupts disabled and no lock held returns with
interrupts enabled; in `init_driver` that is every call.

An interrupt between two instructions gives the thread back its flag and
`lock_count` (`NanoOS.Kernel.LockDepth`), so the runs here are of the thread
alone.

Key definitions: `Nested`, `Returns`, `flagAfter`.
Key theorems: `Nested.run`, `interrupt_flag_restored`.
-/
import Mathlib.Logic.Relation
import NanoOS.Kernel.Machine

namespace NanoOS
namespace Kernel

open Relation

/-- The thread executes its next instruction. -/
def Executes (k k' : Kernel) : Prop := ∃ i rest, k.code = i :: rest ∧ k.execInstr rest i = some k'

/-- The calls as code. -/
def codeOf (me : ℕ) (cs : List Call) : List Instr := cs.flatMap (Call.code me)

/-- The calls, made in `k` one after the other, all return, and then the state is
`k'`. -/
def Returns (cs : List Call) (k k' : Kernel) : Prop :=
  ReflTransGen Executes { k with code := codeOf k.sched.current cs } k' ∧ k'.code = []

/-- Balanced sequences of `lock` and `unlock`, with `create_sem` and
`create_kthread` anywhere in them. -/
inductive Nested : List Call → Prop
  | nil : Nested []
  | createSem (a : ℕ) (v : ℤ) {cs : List Call} : Nested cs → Nested (.createSem a v :: cs)
  | createKthread {cs : List Call} : Nested cs → Nested (.createKthread :: cs)
  | locked {cs ds : List Call} : Nested cs → Nested ds → Nested (.lock :: (cs ++ .unlock :: ds))

/-- Outside an interrupt handler: `lock_flag` is zero, and `lock_count` is not
negative. -/
structure Outside (k : Kernel) : Prop where
  irq : k.flagIrq = false
  sleep : k.flagSleep = false
  depth : 0 ≤ k.lockCount

/-- The flag after the calls, made at some lock depth with flag `b`. -/
def flagAfter (cs : List Call) (depth : ℤ) (b : Bool) : Bool :=
  if depth = 0 then b || !cs.isEmpty else b && cs.all (· = .createKthread)

variable {k k' : Kernel} {cs ds : List Call} {rest : List Instr} {me : ℕ}

/-- The thread comes to `rest` with flag `b`, and is outside at the lock depth it
had. -/
def Goes (k : Kernel) (rest : List Instr) (b : Bool) : Prop :=
  ∃ k', ReflTransGen Executes k k' ∧ k'.code = rest ∧ Outside k' ∧ k'.lockCount = k.lockCount ∧ k'.intf = b

/-- The thread comes to a `create_kthread` that fails: there is no PCB left. -/
def NoPcb (k : Kernel) : Prop :=
  ∃ k' rest, ReflTransGen Executes k k' ∧ k'.code = .kthread :: rest ∧ k'.sched.createKthread = none

theorem executes_unique : Relator.RightUnique Executes := by
  rintro k k1 k2 ⟨i, rest, hc, h1⟩ ⟨i', rest', hc', h2⟩
  rw [hc] at hc'
  cases hc'
  rw [h1] at h2
  exact Option.some.inj h2

/-! ### The instructions -/

theorem executes_lock (hc : k.code = .lock :: rest) :
    Executes k { k with intf := false, lockCount := k.lockCount + 1, code := rest } := ⟨_, _, hc, rfl⟩

theorem executes_unlock (h : Outside k) (hc : k.code = .unlock :: rest) :
    Executes k { k with
      lockCount := k.lockCount - 1
      intf := if k.lockCount - 1 = 0 then true else k.intf
      code := rest } := by
  refine ⟨_, _, hc, ?_⟩
  unfold execInstr
  rw [h.irq, h.sleep]
  rfl

theorem Goes.of_steps {k1 : Kernel} {b : Bool} (hs : ReflTransGen Executes k k1) (hd : k1.lockCount = k.lockCount)
    (h : Goes k1 rest b) : Goes k rest b := by
  obtain ⟨k', hs', hc, hout, hd', hb⟩ := h
  exact ⟨k', hs.trans hs', hc, hout, hd'.trans hd, hb⟩

theorem NoPcb.of_steps {k1 : Kernel} (hs : ReflTransGen Executes k k1) (h : NoPcb k1) : NoPcb k := by
  obtain ⟨k', rest, hs', hc, hnone⟩ := h
  exact ⟨k', rest, hs.trans hs', hc, hnone⟩

/-! ### The flag -/

/-- A critical section leaves the flag set exactly if no lock is held after
it. -/
theorem flagAfter_cons {c : Call} (hc : c ≠ .createKthread) (cs : List Call) (depth : ℤ) (b : Bool) :
    flagAfter (c :: cs) depth b = decide (depth = 0) := by
  unfold flagAfter
  by_cases hd : depth = 0
  · simp [hd]
  · simp [hd, hc]

theorem flagAfter_settled (cs : List Call) (depth : ℤ) :
    flagAfter cs depth (decide (depth = 0)) = decide (depth = 0) := by
  unfold flagAfter
  by_cases hd : depth = 0
  · simp [hd]
  · simp [hd]

theorem flagAfter_createKthread (cs : List Call) (depth : ℤ) (b : Bool) :
    flagAfter cs depth (b || decide (depth = 0)) = flagAfter (.createKthread :: cs) depth b := by
  unfold flagAfter
  by_cases hd : depth = 0
  · simp [hd]
  · simp [hd]

/-! ### Runs -/

/-- The `unlock` of a critical section that was entered at depth `depth`. -/
theorem run_unlock (h : Outside k) {depth : ℤ} (hpos : 0 ≤ depth) (hd : k.lockCount = depth + 1) (hb : k.intf = false)
    (hc : k.code = .unlock :: rest) :
    ∃ k', Executes k k' ∧ k'.code = rest ∧ Outside k' ∧ k'.lockCount = depth ∧ k'.intf = decide (depth = 0) := by
  have hback : k.lockCount - 1 = depth := by omega
  refine ⟨_, executes_unlock h hc, rfl, ⟨h.irq, h.sleep, ?_⟩, hback, ?_⟩
  · exact hback ▸ hpos
  · dsimp only
    rw [hback, hb]
    by_cases hz : depth = 0
    · rw [if_pos hz, decide_eq_true hz]
    · rw [if_neg hz, decide_eq_false hz]

theorem run_createSem (h : Outside k) {a : ℕ} {v : ℤ} (hc : k.code = .lock :: .semInit a v :: .unlock :: rest) :
    ∃ k', ReflTransGen Executes k k' ∧ k'.code = rest ∧ Outside k' ∧ k'.lockCount = k.lockCount ∧
      k'.intf = decide (k.lockCount = 0) := by
  have hpos := h.depth
  have hlock := executes_lock hc
  have hinit : Executes { k with intf := false, lockCount := k.lockCount + 1, code := .semInit a v :: .unlock :: rest }
      { k with
        intf := false
        lockCount := k.lockCount + 1
        sched := k.sched.createSem (.user a) v
        code := .unlock :: rest } := ⟨_, _, rfl, rfl⟩
  obtain ⟨k', hunlock, hpost⟩ := run_unlock (k := { k with
    intf := false
    lockCount := k.lockCount + 1
    sched := k.sched.createSem (.user a) v
    code := .unlock :: rest }) ⟨h.irq, h.sleep, by dsimp only; omega⟩ hpos rfl rfl rfl
  exact ⟨k', ((ReflTransGen.single hlock).tail hinit).tail hunlock, hpost⟩

/-- `create_kthread`, up to the `unlock` of its `create_sem`. -/
theorem run_kthread (h : Outside k) (hc : k.code = .kthread :: rest) {r : ℕ × Sched}
    (hnew : k.sched.createKthread = some r) :
    ∃ k', Executes k k' ∧ Outside k' ∧ k'.lockCount = k.lockCount + 1 ∧ k'.intf = false ∧
      k'.code = .unlock :: .kthreadEnd r.1 k.intf :: rest := by
  have hpos := h.depth
  refine ⟨{ k with
    sched := r.2
    mail := k.mail.initBox r.1
    tf := Function.update k.tf r.1 ⟨[], true⟩
    locked := Function.update k.locked r.1 0
    intf := false
    lockCount := k.lockCount + 1
    code := .unlock :: .kthreadEnd r.1 k.intf :: rest }, ⟨_, _, hc, ?_⟩, ⟨h.irq, h.sleep, ?_⟩, rfl, rfl, rfl⟩
  · unfold execInstr
    rw [hnew]
    rfl
  · dsimp only
    omega

theorem run_createKthread (h : Outside k) (hc : k.code = .kthread :: rest) :
    (∃ k', ReflTransGen Executes k k' ∧ k'.code = rest ∧ Outside k' ∧ k'.lockCount = k.lockCount ∧
      k'.intf = (k.intf || decide (k.lockCount = 0))) ∨ NoPcb k := by
  have hpos := h.depth
  cases hnew : k.sched.createKthread with
  | none => exact .inr ⟨k, rest, .refl, hc, hnew⟩
  | some r =>
    left
    obtain ⟨k1, hexec, h1, hd1, hb1, hc1⟩ := run_kthread h hc hnew
    obtain ⟨k2, hunlock, hc2, h2, hd2, hb2⟩ := run_unlock h1 hpos hd1 hb1 hc1
    refine ⟨{ k2 with
      pid := Function.update k2.pid r.1 r.1
      intf := if k.intf then true else k2.intf
      code := rest }, ((ReflTransGen.single hexec).tail hunlock).tail ⟨_, _, hc2, rfl⟩, rfl,
      ⟨h2.irq, h2.sleep, h2.depth⟩, hd2, ?_⟩
    dsimp only
    rw [hb2]
    cases k.intf with
    | false => rfl
    | true => rfl

/-- **Balanced calls** return at the lock depth they were made at, unless there
is no PCB left, and the flag is what `flagAfter` says. -/
theorem Nested.run (hn : Nested cs) : ∀ {k : Kernel} {rest : List Instr}, Outside k → k.code = codeOf me cs ++ rest →
    Goes k rest (flagAfter cs k.lockCount k.intf) ∨ .createKthread ∈ cs ∧ NoPcb k := by
  induction hn with
  | nil =>
    intro k rest h hc
    refine .inl ⟨k, .refl, hc, h, rfl, ?_⟩
    unfold flagAfter
    simp
  | @createSem a v cs _ ih =>
    intro k rest h hc
    obtain ⟨k1, hs, hc1, h1, hd, hb⟩ := @run_createSem k (codeOf me cs ++ rest) h a v hc
    rcases ih h1 hc1 with hgoes | ⟨hmem, hfail⟩
    · rw [hd, hb, flagAfter_settled] at hgoes
      rw [flagAfter_cons (c := .createSem a v) nofun]
      exact .inl (hgoes.of_steps hs hd)
    · exact .inr ⟨List.mem_cons_of_mem _ hmem, hfail.of_steps hs⟩
  | @createKthread cs _ ih =>
    intro k rest h hc
    rcases @run_createKthread k (codeOf me cs ++ rest) h hc with ⟨k1, hs, hc1, h1, hd, hb⟩ | hfail
    · rcases ih h1 hc1 with hgoes | ⟨hmem, hfail⟩
      · rw [hd, hb, flagAfter_createKthread] at hgoes
        exact .inl (hgoes.of_steps hs hd)
      · exact .inr ⟨List.mem_cons_of_mem _ hmem, hfail.of_steps hs⟩
    · exact .inr ⟨List.mem_cons_self, hfail⟩
  | @locked cs ds _ _ ih ih' =>
    intro k rest h hc
    have hpos := h.depth
    have hcode : k.code = .lock :: (codeOf me cs ++ .unlock :: (codeOf me ds ++ rest)) := by
      rw [hc]
      unfold codeOf
      simp [Call.code]
    have hlock := executes_lock hcode
    have hone : ¬ k.lockCount + 1 = 0 := by omega
    -- inside, the flag stays clear
    have hinside : flagAfter cs (k.lockCount + 1) false = false := by
      unfold flagAfter
      rw [if_neg hone, Bool.false_and]
    rcases ih (k := { k with
      intf := false
      lockCount := k.lockCount + 1
      code := codeOf me cs ++ .unlock :: (codeOf me ds ++ rest) })
        ⟨h.irq, h.sleep, by dsimp only; omega⟩ rfl with hgoes | ⟨hmem, hfail⟩
    · obtain ⟨k1, hs, hc1, h1, hd1, hb1⟩ := hgoes
      obtain ⟨k2, hunlock, hc2, h2, hd2, hb2⟩ := run_unlock h1 hpos hd1 (hb1.trans hinside) hc1
      have hs2 : ReflTransGen Executes k k2 := ((ReflTransGen.single hlock).trans hs).tail hunlock
      rcases ih' h2 hc2 with hgoes | ⟨hmem, hfail⟩
      · rw [hd2, hb2, flagAfter_settled] at hgoes
        rw [flagAfter_cons (c := .lock) nofun]
        exact .inl (hgoes.of_steps hs2 hd2)
      · exact .inr ⟨by simp [hmem], hfail.of_steps hs2⟩
    · exact .inr ⟨by simp [hmem], hfail.of_steps (.single hlock)⟩

/-! ### Calls -/

theorem Outside.push (h : Outside k) (code : List Instr) : Outside { k with code := code } :=
  ⟨h.irq, h.sleep, h.depth⟩

theorem not_executes_of_code (hc : k.code = []) : ¬ Executes k k' := by
  rintro ⟨i, rest, hc', -⟩
  rw [hc] at hc'
  cases hc'

theorem not_executes_of_kthread (hc : k.code = .kthread :: rest) (hnone : k.sched.createKthread = none) :
    ¬ Executes k k' := by
  rintro ⟨i, rest', hc', hexec⟩
  rw [hc] at hc'
  cases hc'
  unfold execInstr at hexec
  rw [hnone] at hexec
  cases hexec

/-- A run that has come to an end has come to every run's end. -/
theorem end_unique {k0 k1 k2 : Kernel} (h1 : ReflTransGen Executes k0 k1) (h2 : ReflTransGen Executes k0 k2)
    (hend1 : ∀ k', ¬ Executes k1 k') (hend2 : ∀ k', ¬ Executes k2 k') : k1 = k2 := by
  rcases ReflTransGen.total_of_right_unique executes_unique h1 h2 with h12 | h21
  · rcases h12.cases_head with heq | ⟨k', hstep, -⟩
    · exact heq
    · exact absurd hstep (hend1 k')
  · rcases h21.cases_head with heq | ⟨k', hstep, -⟩
    · exact heq.symm
    · exact absurd hstep (hend2 k')

theorem Nested.returns (hn : Nested cs) (h : Outside k) (hret : Returns cs k k') :
    k'.lockCount = k.lockCount ∧ k'.intf = flagAfter cs k.lockCount k.intf := by
  obtain ⟨hs, hc⟩ := hret
  rcases hn.run (h.push (codeOf k.sched.current cs)) (List.append_nil _).symm with hgoes | ⟨-, hfail⟩
  · obtain ⟨k1, hs1, hc1, -, hd1, hb1⟩ := hgoes
    have heq := end_unique hs hs1 (fun _ => not_executes_of_code hc) (fun _ => not_executes_of_code hc1)
    exact heq ▸ ⟨hd1, hb1⟩
  · obtain ⟨k1, rest, hs1, hc1, hnone⟩ := hfail
    have heq := end_unique hs hs1 (fun _ => not_executes_of_code hc) (fun _ => not_executes_of_kthread hc1 hnone)
    rw [heq, hc1] at hc
    cases hc

theorem flagAfter_eq_iff {depth : ℤ} (hpos : 0 ≤ depth) (b : Bool) : flagAfter cs depth b = b ↔
    cs = [] ∨ (depth = 0 ↔ b = true) ∨ 0 < depth ∧ ∀ c ∈ cs, c = .createKthread := by
  unfold flagAfter
  by_cases hd : depth = 0
  · cases b <;> simp [hd]
  · have hlt : 0 < depth := by omega
    have hall : cs.all (· = .createKthread) = true ↔ ∀ c ∈ cs, c = .createKthread := by simp
    rw [if_neg hd]
    cases b with
    | false => simp [hd]
    | true =>
      rw [Bool.true_and, hall]
      constructor
      · exact fun h => .inr (.inr ⟨hlt, h⟩)
      · rintro (rfl | h | h)
        · exact nofun
        · exact absurd (h.mpr rfl) hd
        · exact h.2

/-- Balanced calls return, unless there is no PCB left for a thread they
create. -/
theorem Nested.exists_returns (hn : Nested cs) (h : Outside k) :
    (∃ k', Returns cs k k') ∨ .createKthread ∈ cs ∧ NoPcb { k with code := codeOf k.sched.current cs } := by
  rcases hn.run (h.push (codeOf k.sched.current cs)) (List.append_nil _).symm with hgoes | hfail
  · obtain ⟨k', hs, hc, -⟩ := hgoes
    exact .inl ⟨k', hs, hc⟩
  · exact .inr hfail

/-- **The interrupt flag** is restored by balanced calls exactly if it was set
and no lock was held, or it was clear and some were; by `create_kthread` alone
also if it was set and some were. `lock_count` is always restored, and the
calls return unless there is no PCB left for a thread. -/
theorem interrupt_flag_restored (hn : Nested cs) (h : Outside k) :
    ((∃ k', Returns cs k k') ∨ .createKthread ∈ cs ∧ NoPcb { k with code := codeOf k.sched.current cs }) ∧
      ∀ k', Returns cs k k' → k'.lockCount = k.lockCount ∧
        (k'.intf = k.intf ↔ cs = [] ∨ (k.lockCount = 0 ↔ k.intf = true) ∨
          0 < k.lockCount ∧ ∀ c ∈ cs, c = .createKthread) := by
  refine ⟨hn.exists_returns h, fun k' hret => ?_⟩
  obtain ⟨hd, hb⟩ := hn.returns h hret
  rw [hb]
  exact ⟨hd, flagAfter_eq_iff h.depth k.intf⟩

theorem interrupt_flag_restored_lock : ∃ k', Returns [.lock, .lock, .unlock, .createSem 0 1, .unlock] (boot true) k' ∧
    k'.lockCount = 0 ∧ k'.intf = true := by
  have hinner : Nested [.lock, .unlock, .createSem 0 1] := @Nested.locked [] _ .nil (.createSem 0 1 .nil)
  have hout : Outside (boot true) := ⟨rfl, rfl, Int.le_refl 0⟩
  obtain ⟨hex, hall⟩ := interrupt_flag_restored (@Nested.locked _ [] hinner .nil) hout
  obtain ⟨k', hret⟩ := hex.resolve_right fun h => absurd h.1 (by decide)
  obtain ⟨hd, hb⟩ := hall k' hret
  exact ⟨k', hret, hd, hb.mpr (.inr (.inl ⟨fun _ => rfl, fun _ => rfl⟩))⟩

/-- When the drivers are set up interrupts are disabled, and the locks of
`hal_register` enable them. -/
theorem interrupt_flag_raised : ∃ k', Returns [.lock, .lock, .unlock, .unlock] (boot false) k' ∧
    k'.intf ≠ (boot false).intf := by
  have hout : Outside (boot false) := ⟨rfl, rfl, Int.le_refl 0⟩
  have hn : Nested [.lock, .lock, .unlock, .unlock] :=
    @Nested.locked [.lock, .unlock] [] (@Nested.locked [] [] .nil .nil) .nil
  obtain ⟨k', hret⟩ := (hn.exists_returns hout).resolve_right fun h => absurd h.1 (by decide)
  have hraised := (hn.returns hout hret).2
  refine ⟨k', hret, ?_⟩
  rw [hraised]
  decide

end Kernel
end NanoOS
