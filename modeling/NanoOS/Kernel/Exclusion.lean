/-
# Mutual exclusion between `lock()` and `unlock()`

A thread between an outermost `lock()` and the `unlock()` that matches it runs
with interrupts disabled, so that no other thread and no handler gets in.
`unlock` enables them again when `lock_count` drops to 0, and also whenever
bit 1 of `lock_flag` is set, which `P` does before it goes to sleep. The bit is
global and stays set until that thread runs again: an inner `unlock` of
another thread then opens the critical section it is in (`leaks`). In a run
without such an `unlock` the exclusion holds.

Key definitions: `leaks`, `Asleep`, `Held`.
Key theorems: `Exec.held`, `Held.step`, `lock_excludes`.
-/
import NanoOS.Kernel.LockDepth

namespace NanoOS
namespace Kernel

open Trans Ringlist
open Sched (movedQ)

/-- The `unlock()` of `sleep_sem`, which the bit is meant for. -/
def sleepUnlock : List Instr → Bool
  | .unlock :: .int80 :: .pWake :: _ => true
  | _ => false

/-- The current thread is about to execute an inner `unlock()`, not the one of
`sleep_sem`, while the bit is set. -/
def leaks (k : Kernel) : Bool :=
  k.trap.isNone && k.code.head? == some .unlock && k.flagSleep && k.lockCount - 1 != 0 &&
    !sleepUnlock k.code

/-- The action is not a leaking `unlock()`. -/
def Tight (k : Kernel) : Action → Prop
  | .exec => k.leaks = false
  | _ => True

instance (k : Kernel) : DecidablePred k.Tight
  | .exec => inferInstanceAs (Decidable (k.leaks = false))
  | .call _ | .irq _ => inferInstanceAs (Decidable True)

/-- The sleeping part of `P` and `sleep`: about to trap, or back from it. -/
def Asleep (code : List Instr) : Prop := code.head? = some .int80 ∨ code.head? = some .pWake

instance : DecidablePred Asleep := fun code =>
  inferInstanceAs (Decidable (code.head? = some .int80 ∨ code.head? = some .pWake))

/-- The sleeping part of `P`. -/
def SleepingP (code : List Instr) : Prop := ∃ rest, code = .int80 :: .pWake :: rest ∨ code = .pWake :: rest

/-- `create_kthread` and its end. -/
def Plain : Instr → Prop
  | .kthread | .kthreadEnd _ _ => False
  | _ => True

/-- The code of a thread `d` deep in its locks. `create_kthread` is a call of
its own, and its last line enables interrupts only when it was made outside
of a critical section. -/
inductive Shape : ℤ → List Instr → Prop
  | plain {d : ℤ} {code : List Instr} (h : ∀ j ∈ code, Plain j) : Shape d code
  | kthread {d : ℤ} : Shape d [.kthread]
  | created {d : ℤ} {i : ℕ} {intr : Bool} (h : intr = true → d ≤ 1) : Shape d [.unlock, .kthreadEnd i intr]
  | ending {d : ℤ} {i : ℕ} {intr : Bool} (h : intr = true → d ≤ 0) : Shape d [.kthreadEnd i intr]

/-- What holds of a context `fr` that is `d` deep in its locks. -/
structure Held (d : ℤ) (fr : Frame) : Prop where
  masked : 0 < d → fr.intf = false ∨ SleepingP fr.code
  shape : Shape d fr.code

section held

variable {k k' : Kernel} {q q' : Node → List ℕ} {i : Instr} {rest : List Instr} {h : LockHist}

theorem Shape.tail {d : ℤ} (hS : Shape d (i :: rest)) (hi : Plain i) (hu : i ≠ .unlock) :
    ∀ j ∈ rest, Plain j := by
  cases hS with
  | plain h => exact fun j hj => h j (List.mem_cons_of_mem _ hj)
  | kthread => exact hi.elim
  | created _ => exact absurd rfl hu
  | ending _ => exact hi.elim

theorem plain_receive (me : ℕ) (src : ℤ) : ∀ j ∈ codeReceive me src, Plain j := by
  intro j hj
  rcases mem_codeReceive hj with rfl | rfl | rfl | rfl | rfl <;> trivial

theorem not_sleepingP (h1 : i ≠ .int80) (h2 : i ≠ .pWake) : ¬ SleepingP (i :: rest) := by
  rintro ⟨r, h | h⟩
  · exact h1 (List.cons.inj h).1
  · exact h2 (List.cons.inj h).1

/-- The code an instruction leaves has the shape it should have. -/
theorem Exec.shape (hx : Exec k q rest i k' q') (hc : k.code = i :: rest) (hk : i ≠ .kthread)
    (hu : i ≠ .unlock) {d d' : ℤ} (hS : Shape d (i :: rest)) : Shape d' k'.code := by
  by_cases hi : Plain i
  · have hr := hS.tail hi hu
    refine .plain ?_
    cases hx with
    | unlock => exact absurd rfl hu
    | kthread => exact hi.elim
    | kthreadEnd => exact hi.elim
    | int80 => simp
    | copyMsg hy => simpa [Plain, codeV] using hr
    | scanEnd =>
      simp only [codeV, List.cons_append, List.nil_append, List.mem_cons, List.mem_append]
      rintro j (rfl | rfl | rfl | rfl | hj | hj)
      all_goals first | trivial | exact plain_receive _ _ j hj | exact hr j hj
    | lock | take | pWake | raise | drop | makeReady | semInit | linkMsg | copyOut | hlt => exact hr
    | block | wake | sleepOn | wakeupTest | recvHead | scanFirst | scanHit | scanNext | recvNode =>
      simpa [Plain] using hr
  · cases hx with
    | kthread => exact absurd rfl hk
    | kthreadEnd =>
      cases hS with
      | plain h => exact absurd (h _ List.mem_cons_self) hi
      | ending _ => exact .plain (by simp)
    | _ => exact absurd trivial hi

/-- An instruction of the current thread keeps its interrupts masked while it
holds a lock. -/
theorem Exec.held (hx : Exec k q rest i k' q') (hB : Base k q) (hc : k.code = i :: rest)
    (ht : k.trap = none) (hleak : k.leaks = false) (hH : Held k.lockCount ⟨k.code, k.intf⟩) :
    Held k'.lockCount (k'.own k.sched.current) := by
  have hS : Shape k.lockCount (i :: rest) := hc ▸ hH.shape
  by_cases h80 : i = .int80
  · subst h80
    have hr := hS.tail trivial (by simp)
    have hown : k'.own k.sched.current = ⟨rest, k.intf⟩ := by cases hx; simp [own]
    have hlc : k'.lockCount = k.lockCount := by cases hx; rfl
    rw [hown, hlc]
    refine ⟨fun hd => ?_, .plain hr⟩
    -- asleep in `P` before the trap is asleep in `P` after it
    rcases hH.masked hd with h' | ⟨r, h' | h'⟩
    · exact Or.inl h'
    · rw [hc] at h'
      exact Or.inr ⟨r, Or.inr (List.cons.inj h').2⟩
    · rw [hc] at h'
      cases h'
  · rw [hx.own_current h80 ht]
    have hmask : i ≠ .pWake → 0 < k.lockCount → k.intf = false := fun hp hd =>
      (hH.masked hd).resolve_right (by rw [hc]; exact not_sleepingP h80 hp)
    by_cases hu : i = .unlock
    · subst hu
      have hirq := hB.thread ht
      cases hx with
      | unlock =>
        refine ⟨fun hd => ?_, ?_⟩
        · have hd' : 0 < k.lockCount - 1 := hd
          have h0 : k.lockCount - 1 ≠ 0 := by omega
          by_cases hf : k.flagSleep = true
          · -- the bit is set: this is the `unlock()` of `sleep_sem`
            have hsu : sleepUnlock (.unlock :: rest) = true := by
              simpa [leaks, ht, hc, hf, h0] using hleak
            right
            unfold sleepUnlock at hsu
            split at hsu
            · rename_i r he
              exact ⟨r, Or.inl (List.cons.inj he).2⟩
            · cases hsu
          · left
            simp only [hirq, hf, h0, if_false, Bool.false_eq_true]
            exact hmask (by simp) (by omega)
        · cases hS with
          | plain h => exact .plain fun j hj => h j (List.mem_cons_of_mem _ hj)
          | created h => exact .ending fun hb => by have := h hb; show k.lockCount - 1 ≤ 0; omega
    · by_cases hk : i = .kthread
      · subst hk
        cases hx with
        | kthread =>
          refine ⟨fun _ => Or.inl rfl, ?_⟩
          cases hS with
          | plain h => exact (h _ List.mem_cons_self).elim
          | kthread =>
            refine .created fun hb => ?_
            by_contra hd
            rw [hmask (by simp) (by simp only at hd; omega)] at hb
            cases hb
      · refine ⟨fun hd => Or.inl ?_, hx.shape hc hk hu hS⟩
        cases hx with
        | lock | block | pWake | wake => rfl
        | unlock => exact absurd rfl hu
        | int80 => exact absurd rfl h80
        | kthread => exact absurd rfl hk
        | kthreadEnd =>
          rename_i i intr
          have hi : intr = false := by
            rw [Bool.eq_false_iff]
            intro hb
            cases hS with
            | plain h => exact (h _ List.mem_cons_self).elim
            | ending h => have := h hb; simp only at hd; omega
          simp only [hi]
          exact hmask (by simp) hd
        | _ => exact hmask (by simp) hd

/-! ### The invariant -/

theorem shape_call (d : ℤ) (me : ℕ) (c : Call) : Shape d (c.code me) := by
  cases c with
  | createKthread => exact .kthread
  | receive src => exact .plain (plain_receive me src)
  | lock | unlock | P | V | sleep | wakeup | createSem | send =>
    exact .plain (by simp [Call.code, codeP, codeV, Plain])

/-- The nesting of the current thread after its next instruction. -/
theorem LockHist.depth_current (hc : k.code = i :: rest) (ht : k.trap = none) (h : LockHist) :
    (LockHist.upd k .exec h).depth =
      Function.update h.depth k.sched.current (h.depth k.sched.current + k.lockDelta) := by
  cases i with
  | int80 => simp [LockHist.upd, ht, hc, LockHist.leave, lockDelta]
  | _ => simp [LockHist.upd, ht, hc, LockHist.advance]

theorem Held.exec_thread (hH : ∀ t, Held (h.depth t) (k.own t)) (hA : Acc k h) (hB : Base k q)
    (hc : k.code = i :: rest) (ht : k.trap = none) (hleak : k.leaks = false)
    (hx : Exec k q rest i k' q') (t : ℕ) : Held ((LockHist.upd k .exec h).depth t) (k'.own t) := by
  have hd := hA.running ht
  rw [LockHist.depth_current hc ht]
  by_cases htc : t = k.sched.current
  · subst htc
    rw [Function.update_self, ← hd, ← hx.lockCount_eq hB hc]
    refine hx.held hB hc ht hleak ?_
    have h0 := hH k.sched.current
    rwa [own_current, ht, ← hd] at h0
  · rw [Function.update_of_ne htc]
    by_cases hk : i = .kthread
    · subst hk
      cases hx with
      | kthread hI hq hcr hcur hscr hin htok =>
        rename_i j r s
        rw [own_of_ne (by exact hcur ▸ htc)]
        by_cases htj : t = j
        · subst htj
          simp only [Function.update_self, hA.fresh t (hB.not_thread_of_free hq)]
          exact ⟨fun h0 => absurd h0 (by omega), .plain (by simp)⟩
        · simp only [Function.update_of_ne htj]
          rw [← own_of_ne htc]
          exact hH t
    · rw [hx.own_eq hk (some_ne_cpu htc)]
      exact hH t

/-- A step that is not a leaking `unlock()` keeps every critical section
closed. -/
theorem Held.step (hH : ∀ t, Held (h.depth t) (k.own t)) (hA : Acc k h) (hB : Base k q) {a : Action}
    (hleak : k.Tight a) (hx : Step k q a k' q') (t : ℕ) :
    Held ((LockHist.upd k a h).depth t) (k'.own t) := by
  cases hx with
  | exec hc hx =>
    rename_i i rest
    cases ht : k.trap with
    | none => exact Held.exec_thread hH hA hB hc ht hleak hx t
    | some fr =>
      have hs : k.trap.isSome = true := by rw [ht]; rfl
      have hi : HandlerInstr i := ((hB.handler hs).2.2 i (by rw [hc]; simp)).1
      have hk : i ≠ .kthread := by rintro rfl; exact hi
      have hu : LockHist.upd k .exec h = h := by simp [LockHist.upd, hs]
      rw [hu, hx.own_eq hk (by rw [cpu_handler hs]; simp)]
      exact hH t
  | proc hc ht hcur =>
    have hu : LockHist.upd k .exec h = h := by simp [LockHist.upd, ht]
    rw [hu, own_returnTo ht]
    exact hH t
  | call hc ht =>
    rename_i c
    have h0 := hH t
    by_cases htc : t = k.sched.current
    · subst htc
      rw [own_current, ht, hc] at h0
      have hown : ∀ code, Kernel.own { k with code := code } k.sched.current = ⟨code, k.intf⟩ := by
        simp [own, ht]
      rw [hown]
      refine ⟨fun hd => Or.inl ((h0.masked hd).resolve_right ?_), shape_call _ _ c⟩
      rintro ⟨r, h' | h'⟩ <;> cases h'
    · rw [own_of_ne htc] at h0
      rwa [own_of_ne (by exact htc)]
  | irq hi ht =>
    have h0 := hH t
    by_cases htc : t = k.sched.current
    · subst htc
      rw [own_current, ht] at h0
      have hown : ∀ code, Kernel.own { k with
          trap := some ⟨k.code, k.intf⟩
          intf := false
          flagIrq := true
          code := code } k.sched.current = ⟨k.code, k.intf⟩ := by
        simp [own]
      rw [hown]
      exact h0
    · rw [own_of_ne htc] at h0
      rwa [own_of_ne (by exact htc)]

end held

/-- **No one gets into a critical section.** In every run without a leaking
`unlock()`, when the current thread, outside `irq_handle` and outside the
sleeping part of `P` and `sleep`, holds a lock, then interrupts are disabled,
no interrupt is taken, and the next step is made by the same thread. -/
theorem lock_excludes {b : Bool} {p : Kernel × LockHist}
    (h : Reach lockStep (fun p a => p.1.Ok a ∧ Balanced a ∧ p.1.Tight a) (boot b, LockHist.init) p)
    (ht : p.1.trap = none) (hd : 0 < p.2.depth p.1.sched.current) (hs : ¬ Asleep p.1.code) :
    p.1.intf = false ∧ (∀ hs, p.1.step (.irq hs) = none) ∧
    ∀ a k', p.1.Ok a → p.1.step a = some k' →
      k'.trap = none ∧ k'.sched.current = p.1.sched.current := by
  have hI : ∃ q, Base p.1 q ∧ Acc p.1 p.2 ∧ ∀ t, Held (p.2.depth t) (p.1.own t) := by
    refine h.invariant (I := fun p => ∃ q, Base p.1 q ∧ Acc p.1 p.2 ∧ ∀ t, Held (p.2.depth t) (p.1.own t))
      ⟨_, base_boot b, acc_boot b, fun t => ⟨fun h0 => ?_, .plain (by simp [own_boot])⟩⟩ ?_
    · exact absurd h0 (by simp [LockHist.init])
    · rintro ⟨k, h⟩ a ⟨k', h'⟩ ⟨q, hB, hA, hH⟩ ⟨hok, hb, hleak⟩ hst
      obtain ⟨hst, rfl⟩ := withHistory_eq_some.mp hst
      obtain ⟨q', hx⟩ := hB.step_cases hok hst
      exact ⟨q', hB.of_step hok hx, hA.step hB hok hb hx, Held.step hH hA hB hleak hx⟩
  obtain ⟨q, hB, hA, hH⟩ := hI
  have hm : p.1.intf = false := by
    have h0 := (hH p.1.sched.current).masked hd
    rw [own_current, ht] at h0
    refine h0.resolve_right ?_
    rintro ⟨r, h' | h'⟩ <;> simp only [Option.getD_none] at h' <;> simp [Asleep, h'] at hs
  have hirq : ∀ hs, p.1.step (.irq hs) = none := fun hs => by simp [Kernel.step, hm]
  refine ⟨hm, hirq, fun a k' hok hst => ?_⟩
  obtain ⟨q', hx⟩ := hB.step_cases hok hst
  cases hx with
  | exec hc hx =>
    refine ⟨?_, hx.current_eq⟩
    rw [hx.trap_eq, ht]
    rintro rfl
    simp [Asleep, hc] at hs
  | proc _ ht' _ => rw [ht] at ht'; cases ht'
  | call _ _ => exact ⟨ht, rfl⟩
  | irq hi _ => rw [hm] at hi; cases hi

/-- Thread 1 in the inner section of two nested ones, while nobody sleeps. -/
theorem lock_excludes_nested : ∃ p, Reach lockStep (fun p a => p.1.Ok a ∧ Balanced a ∧ p.1.Tight a)
    (boot false, LockHist.init) p ∧ p.1.sched.current = 1 ∧ p.2.depth 1 = 2 ∧ p.1.intf = false := by
  have h : ∃ p, Reach lockStep (fun p a => p.1.Ok a ∧ Balanced a ∧ p.1.Tight a)
      (boot false, LockHist.init) p ∧ (p.1.sched.current = 1 ∧ p.2.depth 1 = 2 ∧ p.1.trap.isNone = true ∧
        ¬ Asleep p.1.code) := by
    rw [boot_eq]
    exact Reach.exists_of_exec
      [.call .createKthread, .exec, .exec, .exec, .call (.wakeup 1), .exec, .exec, .exec, .exec,
        .irq [], .exec, .call .lock, .exec, .call .lock, .exec] (by decide +kernel)
  obtain ⟨p, hr, hcur, hd, ht, hs⟩ := h
  have h1 := lock_excludes hr (Option.isNone_iff_eq_none.mp ht) (by rw [hcur, hd]; omega) hs
  exact ⟨p, hr, hcur, hd, h1.1⟩

/-- Thread 1 sleeps in `P`; thread 2 calls `lock`, `lock`, `unlock`, as
`hal_register` around `hal_get` does, and is then in its critical section with
interrupts enabled: a handler gets in. -/
theorem lock_leaks : ∃ p, Reach lockStep (fun p a => p.1.Ok a ∧ Balanced a) (boot false, LockHist.init) p ∧
    p.1.sched.current = 2 ∧ p.1.trap = none ∧ p.2.depth 2 = 1 ∧ ¬ Asleep p.1.code ∧ p.1.intf = true ∧
    (p.1.step (.irq [])).isSome = true := by
  have h : ∃ p, Reach lockStep (fun p a => p.1.Ok a ∧ Balanced a) (boot false, LockHist.init) p ∧
      (p.1.sched.current = 2 ∧ p.1.trap.isNone = true ∧ p.2.depth 2 = 1 ∧ ¬ Asleep p.1.code ∧
        p.1.intf = true) := by
    rw [boot_eq]
    exact Reach.exists_of_exec
      [.call .createKthread, .exec, .exec, .exec, .call (.wakeup 1), .exec, .exec, .exec, .exec,
        .call .createKthread, .exec, .exec, .exec, .call (.wakeup 2), .exec, .exec, .exec, .exec,
        .irq [], .exec, .call (.createSem 0 0), .exec, .exec, .exec,
        .call (.P (.user 0)), .exec, .exec, .exec, .exec, .exec,
        .call .lock, .exec, .call .lock, .exec, .call .unlock, .exec] (by decide +kernel)
  obtain ⟨p, hr, hcur, ht, hd, hs, hi⟩ := h
  have ht' := Option.isNone_iff_eq_none.mp ht
  exact ⟨p, hr, hcur, ht', hd, hs, hi, by simp [Kernel.step, hi, ht']⟩

end Kernel
end NanoOS
