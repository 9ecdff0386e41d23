/-
# The contexts of a run

A thread's instructions are in the CPU, in the trap frame of a running
`irq_handle`, or in the frame saved in its PCB; a handler's are in the CPU.
`ctx k c` is what context `c` executes next, wherever that is kept, with
`none` for the handler, and `cpu k` is the context the CPU is in. In this
view a step changes the code of one context only (`Exec.ctx`, `Step.ctx`),
and a switch of threads changes nothing.

The last section lets a fixed run be evaluated: the admissible actions are
decidable and `init_proc` has a closed form.

Key definitions: `ctx`, `cpu`.
Key theorems: `Exec.ctx`, `ctx_returnTo`, `ctx_call`, `ctx_irq`, `Run.base`.
-/
import NanoOS.Kernel.Base

namespace NanoOS
namespace Kernel

open Trans Ringlist
open Sched (movedQ)

/-- What context `c` executes next: `some t` is thread `t`, `none` the
interrupt handler. -/
def ctx (k : Kernel) : Option ℕ → List Instr
  | some t => (k.own t).code
  | none => if k.trap.isSome then k.code else []

/-- The context the CPU is in. -/
def cpu (k : Kernel) : Option ℕ := if k.trap.isSome then none else some k.sched.current

variable {k k' : Kernel} {q q' : Node → List ℕ} {i : Instr} {rest : List Instr}

theorem cpu_thread (h : k.trap = none) : k.cpu = some k.sched.current := by
  simp [cpu, h]

theorem cpu_handler (h : k.trap.isSome = true) : k.cpu = none := by
  simp [cpu, h]

@[simp] theorem ctx_cpu (k : Kernel) : k.ctx k.cpu = k.code := by
  cases h : k.trap with
  | none => simp [cpu, ctx, own_current, h]
  | some fr => simp [cpu, ctx, h]

theorem some_ne_cpu {t : ℕ} (h : t ≠ k.sched.current) : some t ≠ k.cpu := by
  unfold cpu
  split_ifs
  · simp
  · simpa using h

/-! ### What an instruction leaves alone -/

theorem Exec.current_eq (hx : Exec k q rest i k' q') : k'.sched.current = k.sched.current := by
  cases hx with
  | kthread _ _ _ hcur => exact hcur
  | _ => rfl

theorem Exec.trap_eq (hx : Exec k q rest i k' q') (hi : i ≠ .int80) : k'.trap = k.trap := by
  cases hx with
  | int80 => exact absurd rfl hi
  | _ => rfl

/-- Only `create_kthread` makes a thread and writes to a PCB's `tf` and
`locked`. -/
theorem Exec.saved_eq (hx : Exec k q rest i k' q') (hi : i ≠ .kthread) :
    k'.tf = k.tf ∧ k'.locked = k.locked ∧ k'.sched.created = k.sched.created := by
  cases hx with
  | kthread => exact absurd rfl hi
  | _ => exact ⟨rfl, rfl, rfl⟩

/-- An instruction leaves the contexts it is not executed in as they are. -/
theorem Exec.own_eq (hx : Exec k q rest i k' q') (hk : i ≠ .kthread) {t : ℕ} (h : some t ≠ k.cpu) :
    k'.own t = k.own t := by
  have htf := (hx.saved_eq hk).1
  by_cases htc : t = k.sched.current
  · subst htc
    cases ht : k.trap with
    | none => exact absurd (cpu_thread ht).symm h
    | some fr =>
      have h80 : i ≠ .int80 := by
        rintro rfl
        cases hx with
        | int80 ht' => rw [ht] at ht'; cases ht'
      simp [own, hx.current_eq, hx.trap_eq h80, ht]
  · rw [own_of_ne htc, own_of_ne (by rw [hx.current_eq]; exact htc), htf]

/-- An instruction of the current thread other than `int $0x80`. -/
theorem Exec.own_current (hx : Exec k q rest i k' q') (h80 : i ≠ .int80) (ht : k.trap = none) :
    k'.own k.sched.current = ⟨k'.code, k'.intf⟩ := by
  rw [← hx.current_eq, Kernel.own_current, hx.trap_eq h80, ht]
  rfl

/-! ### What a step does to the contexts -/

theorem ctx_advance (hcur : k'.sched.current = k.sched.current) (htrap : k'.trap = k.trap)
    (htf : ∀ t, t ≠ k.sched.current → (k'.tf t).code = (k.tf t).code) (c : Option ℕ) :
    k'.ctx c = if c = k.cpu then k'.code else k.ctx c := by
  have hcpu : k'.cpu = k.cpu := by simp [cpu, hcur, htrap]
  split_ifs with h
  · rw [h, ← hcpu, ctx_cpu]
  · cases c with
    | none =>
      cases ht : k.trap with
      | none => simp [ctx, htrap, ht]
      | some fr => exact absurd (cpu_handler (by rw [ht]; rfl)).symm h
    | some t =>
      by_cases htc : t = k.sched.current
      · subst htc
        cases ht : k.trap with
        | none => exact absurd (cpu_thread ht).symm h
        | some fr => simp [ctx, own, hcur, htrap, ht]
      · simp [ctx, own, hcur, htc, htf t htc]

/-- An instruction changes the code of the context it is executed in. After
`int $0x80` that context is the trap frame's. -/
theorem Exec.ctx (hB : Base k q) (hc : k.code = i :: rest) (hx : Exec k q rest i k' q') (c : Option ℕ) :
    k'.ctx c = if c = k.cpu then (if i = .int80 then rest else k'.code) else k.ctx c := by
  cases hx with
  | int80 ht =>
    rw [cpu_thread ht]
    cases c with
    | none => simp [Kernel.ctx, ht]
    | some t =>
      by_cases htc : t = k.sched.current
      · simp [Kernel.ctx, own, htc]
      · simp [Kernel.ctx, own, htc]
  | kthread hI hq hcr hcur hscr hin htok =>
    rename_i i r s
    simp only [reduceCtorEq, if_false]
    refine ctx_advance (k := k) (by exact hcur) (by rfl) (fun t htc => ?_) c
    by_cases hti : t = i
    · subst hti
      -- the PCB was free: it had nothing to execute before, and has not yet
      have h0 := hB.fresh t (hB.not_thread_of_free hq)
      rw [own_of_ne htc] at h0
      simp [h0]
    · simp [hti]
  | _ =>
    simp only [reduceCtorEq, if_false]
    exact ctx_advance (k := k) (by rfl) (by rfl) (by intros; rfl) c

/-- A switch of threads leaves every context as it is. -/
theorem ctx_returnTo {fr : Frame} {t : ℕ} (hc : k.code = []) (ht : k.trap = some fr) (c : Option ℕ) :
    (k.returnTo fr t).ctx c = k.ctx c := by
  cases c with
  | none => simp [ctx, ht, hc, returnTo]
  | some u => simp only [ctx, own_returnTo ht]

theorem ctx_call (ht : k.trap = none) (code : List Instr) (c : Option ℕ) :
    ctx { k with code := code } c = if c = some k.sched.current then code else k.ctx c := by
  rw [← cpu_thread ht]
  exact ctx_advance (k := k) (by rfl) (by rfl) (by intros; rfl) c

theorem ctx_irq (ht : k.trap = none) (code : List Instr) (c : Option ℕ) :
    ctx { k with trap := some ⟨k.code, k.intf⟩, intf := false, flagIrq := true, code := code } c =
      if c = none then code else k.ctx c := by
  cases c with
  | none => simp [ctx]
  | some t => simp [ctx, own, ht]

theorem ctx_none (ht : k.trap = none) : k.ctx none = [] := by
  simp [ctx, ht]

theorem ctx_boot (b : Bool) (c : Option ℕ) : (boot b).ctx c = [] := by
  cases c with
  | none => rfl
  | some t => exact own_boot b t

/-! ### Runs -/

/-- The states of the runs from `init_proc` on. -/
def Run (b : Bool) (k : Kernel) : Prop := Reach Kernel.step Ok (boot b) k

theorem Run.base {b : Bool} (h : Run b k) : ∃ q, Base k q := by
  refine Reach.invariant (I := fun k => ∃ q, Base k q) h ⟨_, base_boot b⟩ ?_
  rintro k a k' ⟨q, hB⟩ hok hs
  obtain ⟨q', hx⟩ := hB.step_cases hok hs
  exact ⟨q', hB.of_step hok hx⟩

/-- `init_proc` in closed form, for runs that are evaluated. -/
theorem boot_eq (b : Bool) :
    boot b = start { Sched.zero with links := Sched.initLinks (pcbPoolSize - 1) } b := by
  rw [boot, Sched.initProc_zero]

end Kernel
end NanoOS
