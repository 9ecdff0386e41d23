/-
# The range check in `wakeup`

`wakeup` returns at once when its argument lies outside `pcb_pool`; a comment
there says that the check hides a bug nobody understood. `V` passes it the
first element of a semaphore's wait list, so the check should never fire.

It fires for one semaphore only: `init_proc` sets up the `msg_list` of the
idle PCB but not its `msg_sem`, whose list head stays null. A `send` to pid 0,
where the handlers of the timer, the terminal and the disk send before their
driver threads exist, finds that list not empty and its first element null.

Key definitions: `VSound`, `ToThreads`.
Key theorems: `vSound_iff`, `wakeup_guard`.
-/
import NanoOS.Kernel.Context

namespace NanoOS
namespace Kernel

open Trans Ringlist
open Sched (movedQ)

/-- `V`, past its `lock()`, finds a sleeping PCB at the head of a list that is
not empty, and it raises the token or makes a thread ready. -/
structure VSound (k : Kernel) (σ : SemId) : Prop where
  head : listEmpty (.sem σ) k.sched.links = false →
    ∃ i, i < pcbPoolSize ∧ (k.sched.links (.sem σ)).next = some (.pcb i) ∧ k.sched.stat i = .sleeping
  effect : ∃ k', k.step .exec = some k' ∧
    (k'.sched.token σ = k.sched.token σ + 1 ∨ ∃ i, k.sched.stat i = .sleeping ∧ k'.sched.stat i = .ready)

/-- The calls an action makes. -/
def Action.calls : Action → List Call
  | .exec => []
  | .call c => [c]
  | .irq hs => hs

/-- A call that sends to the idle thread. -/
def Call.toIdle : Call → Bool
  | .send dest _ => dest = 0
  | _ => false

/-- Nothing is sent to the idle thread. -/
def ToThreads (a : Action) : Prop := ∀ c ∈ a.calls, Call.toIdle c = false

instance : DecidablePred ToThreads := fun a => inferInstanceAs (Decidable (∀ c ∈ a.calls, Call.toIdle c = false))

section guard

variable {k k' : Kernel} {q q' : Node → List ℕ} {σ : SemId} {site : VSite} {i : Instr} {rest : List Instr}

theorem Base.inited_ne (hB : Base k q) (h : k.sched.inited σ = true) : σ ≠ .msgSem 0 := by
  rintro rfl
  have := (hB.sched.bounds 0 (hB.sched.msgSem 0 h)).1
  omega

theorem Base.vSound (hB : Base k q) (hc : k.code = .vTest σ site :: rest) (hσ : k.sched.inited σ = true) :
    k.VSound σ := by
  have hl : k.sched.Live (.sem σ) := hσ
  cases hq : q (.sem σ) with
  | nil =>
    have he : listEmpty (.sem σ) k.sched.links = true := (hB.sched.listEmpty_iff hl).mpr hq
    have hs : k.step .exec = some { k with
        sched := { k.sched with token := Function.update k.sched.token σ (k.sched.token σ + 1) }
        code := rest } := by
      simp [step_exec hc, execInstr, Sched.V, wakes, he]
    exact ⟨fun h => absurd (he.symm.trans h) (by simp), _, hs, Or.inl (by simp)⟩
  | cons i r =>
    have hi : i ∈ q (.sem σ) := by rw [hq]; simp
    have hst : k.sched.stat i = .sleeping := (hB.sched.asleep i).mp (Or.inr ⟨σ, hi⟩)
    have hb := (hB.sched.bounds_of_mem hi).2
    have hn : (k.sched.links (.sem σ)).next = some (.pcb i) := by
      rw [hB.sched.next_head hl, hq]
      rfl
    have hne : ¬ listEmpty (.sem σ) k.sched.links = true := by
      rw [hB.sched.listEmpty_iff hl, hq]
      simp
    have hp : Sched.inPool (some (.pcb i)) = true := by
      simp only [Sched.inPool, decide_eq_true_eq]
      omega
    have hs : k.step .exec = some { k with
        sched := k.sched.makeReady i
        intf := false
        lockCount := k.lockCount + 1
        code := .unlock :: rest } := by
      rw [step_exec hc, execInstr, Sched.V, if_neg hne, hn, Sched.wakeup, if_pos hp,
        hB.wakes_of_mem hσ hq]
      simp [hst]
    exact ⟨fun _ => ⟨i, hb, hn, hst⟩, _, hs, Or.inr ⟨i, hst, by simp [Sched.makeReady]⟩⟩

/-- **The check fires for one semaphore only.** -/
theorem Base.vSound_iff (hB : Base k q) (hc : k.code = .vTest σ site :: rest) :
    k.VSound σ ↔ σ ≠ .msgSem 0 := by
  constructor
  · rintro h rfl
    obtain ⟨hne, hn, -⟩ := hB.idleSem
    obtain ⟨i, -, hi, -⟩ := h.head hne
    rw [hn] at hi
    cases hi
  · intro hσ
    exact hB.vSound hc ((hB.code (.vTest σ site) (by rw [hc]; simp)).resolve_right hσ)

/-! ### Runs without messages to the idle thread -/

/-- An instruction that does not lead to the semaphore of the idle thread. -/
def NotIdle : Instr → Prop
  | .vTest σ _ => σ ≠ .msgSem 0
  | .copyMsg dest _ => dest ≠ 0
  | _ => True

theorem notIdle_receive (me : ℕ) (src : ℤ) : ∀ j ∈ codeReceive me src, NotIdle j := by
  intro j hj
  rcases mem_codeReceive hj with rfl | rfl | rfl | rfl | rfl <;> trivial

theorem Base.notIdle_call (hB : Base k q) {c : Call} (hok : k.CallOk c) (hto : Call.toIdle c = false) :
    ∀ j ∈ c.code k.sched.current, NotIdle j := by
  intro j hj
  cases c with
  | receive src => exact notIdle_receive _ _ j hj
  | V σ =>
    simp only [Call.code, codeV, List.mem_cons, List.not_mem_nil, or_false] at hj
    rcases hj with rfl | rfl | rfl
    · trivial
    · exact hB.inited_ne hok
    · trivial
  | send dest x =>
    simp only [Call.code, List.mem_singleton] at hj
    subst hj
    simpa [Call.toIdle, NotIdle] using hto
  | P σ =>
    simp only [Call.code, codeP, List.mem_cons, List.not_mem_nil, or_false] at hj
    rcases hj with rfl | rfl | rfl <;> trivial
  | lock | unlock | sleep | wakeup | createSem | createKthread =>
    simp only [Call.code, List.mem_cons, List.not_mem_nil, or_false] at hj
    rcases hj with rfl | rfl | rfl <;> trivial

theorem Exec.notIdle (hB : Base k q) (hc : k.code = i :: rest) (hx : Exec k q rest i k' q')
    (h : ∀ j ∈ k.code, NotIdle j) : ∀ j ∈ k'.code, NotIdle j := by
  have hi : NotIdle i := h i (by rw [hc]; simp)
  have hok := hB.code i (by rw [hc]; simp)
  have hr : ∀ j ∈ rest, NotIdle j := fun j hj => h j (by rw [hc]; exact List.mem_cons_of_mem _ hj)
  cases hx with
  | copyMsg hy =>
    simp only [codeV, List.cons_append, List.nil_append, List.mem_cons]
    rintro j (rfl | rfl | rfl | rfl | rfl | rfl | hj)
    all_goals first | trivial | exact hr j hj | skip
    simpa [NotIdle] using hi
  | scanEnd =>
    simp only [codeV, List.cons_append, List.nil_append, List.mem_cons, List.mem_append]
    rintro j (rfl | rfl | rfl | rfl | hj | hj)
    all_goals first | trivial | exact hr j hj | exact notIdle_receive _ _ j hj | skip
    simpa [NotIdle, InstrOk] using hok
  | lock | unlock | take | pWake | raise | drop | makeReady | semInit | kthreadEnd | linkMsg | copyOut | hlt =>
    exact hr
  | int80 => simp
  | block | wake | sleepOn | wakeupTest | kthread | recvHead | scanFirst | scanHit | scanNext | recvNode =>
    simpa [NotIdle] using hr

/-- Nobody's code leads to the semaphore of the idle thread. -/
theorem Step.notIdle (hB : Base k q) {a : Action} (hok : k.Ok a) (hto : ToThreads a)
    (hx : Step k q a k' q') (h : ∀ c, ∀ j ∈ k.ctx c, NotIdle j) : ∀ c, ∀ j ∈ k'.ctx c, NotIdle j := by
  intro c j hj
  cases hx with
  | exec hc hx =>
    have hcode : ∀ j ∈ k.code, NotIdle j := by
      rw [← ctx_cpu]
      exact h _
    rw [hx.ctx hB hc] at hj
    split_ifs at hj with h1 h2
    · exact hcode j (by rw [hc]; exact List.mem_cons_of_mem _ hj)
    · exact hx.notIdle hB hc hcode j hj
    · exact h c j hj
  | proc hc ht hcur =>
    rw [ctx_returnTo hc ht] at hj
    exact h c j hj
  | call hc ht =>
    rw [ctx_call ht] at hj
    split_ifs at hj
    · exact hB.notIdle_call hok (hto _ (by simp [Action.calls])) j hj
    · exact h c j hj
  | irq hi ht =>
    rw [ctx_irq ht] at hj
    split_ifs at hj
    · obtain ⟨cl, hcm, hj⟩ := List.mem_flatMap.mp hj
      exact hB.notIdle_call (hok cl hcm).2 (hto cl hcm) j hj
    · exact h c j hj

end guard

/-- **When the range check fires.** In every run, `V` is sound exactly when
its semaphore is not the `msg_sem` of the idle PCB; and in a run in which
nothing is sent to the idle thread every `V` is sound. -/
theorem wakeup_guard (b : Bool) :
    (∀ k σ site rest, Run b k → k.code = .vTest σ site :: rest → (k.VSound σ ↔ σ ≠ .msgSem 0)) ∧
    (∀ k σ site rest, Reach step (fun k a => k.Ok a ∧ ToThreads a) (boot b) k →
      k.code = .vTest σ site :: rest → k.VSound σ) := by
  refine ⟨fun k σ site rest hr hc => ?_, fun k σ site rest hr hc => ?_⟩
  · obtain ⟨q, hB⟩ := Run.base hr
    exact hB.vSound_iff hc
  · have hI : ∃ q, Base k q ∧ ∀ c, ∀ j ∈ k.ctx c, NotIdle j := by
      refine hr.invariant (I := fun k => ∃ q, Base k q ∧ ∀ c, ∀ j ∈ k.ctx c, NotIdle j)
        ⟨_, base_boot b, by simp [ctx_boot]⟩ ?_
      rintro k a k' ⟨q, hB, hn⟩ ⟨hok, hto⟩ hs
      obtain ⟨q', hx⟩ := hB.step_cases hok hs
      exact ⟨q', hB.of_step hok hx, hx.notIdle hB hok hto hn⟩
    obtain ⟨q, hB, hn⟩ := hI
    refine (hB.vSound_iff hc).mpr (hn k.cpu (.vTest σ site) ?_)
    rw [ctx_cpu, hc]
    exact List.mem_cons_self

/-- Thread 1 is created and woken, and blocks in `P` on a semaphore; `V` from the idle thread finds
it there and wakes it. -/
theorem wakeup_guard_user : ∃ k rest, Run false k ∧ k.code = .vTest (.user 0) .call :: rest ∧
    (k.sched.links (.sem (.user 0))).next = some (.pcb 1) ∧ k.VSound (.user 0) ∧
    ∃ k', k.step .exec = some k' ∧ k.sched.stat 1 = .sleeping ∧ k'.sched.stat 1 = .ready := by
  have h : ∃ k, Reach step (fun k a => k.Ok a ∧ ToThreads a) (boot false) k ∧
      k.code = [.vTest (.user 0) .call, .unlock] ∧ (k.sched.links (.sem (.user 0))).next = some (.pcb 1) ∧
      (k.step .exec).any (fun k' => decide (k.sched.stat 1 = .sleeping ∧ k'.sched.stat 1 = .ready)) = true := by
    rw [boot_eq]
    exact Reach.exists_of_exec
      [.call (.createSem 0 0), .exec, .exec, .exec, .call .createKthread, .exec, .exec, .exec,
        .call (.wakeup 1), .exec, .exec, .exec, .exec, .irq [], .exec,
        .call (.P (.user 0)), .exec, .exec, .exec, .exec, .exec, .call (.V (.user 0)), .exec] (by decide +kernel)
  obtain ⟨k, hr, hc, hhead, hwoken⟩ := h
  have hrun : Run false k := hr.mono fun _ _ h => h.1
  have hsound := ((wakeup_guard false).1 k _ _ _ hrun hc).mpr (by simp)
  rw [Option.any_eq_true] at hwoken
  obtain ⟨k', hstep, hwoken⟩ := hwoken
  exact ⟨k, _, hrun, hc, hhead, hsound, k', hstep, of_decide_eq_true hwoken⟩

/-- A handler that sends to pid 0 before the driver thread exists: `V` finds a
null pointer at the head of a list it takes for not empty, and is dropped. -/
theorem wakeup_guard_fires : ∃ k, Run true k ∧ k.code = [.vTest (.msgSem 0) .send, .unlock] ∧
    ¬ k.VSound (.msgSem 0) ∧ k.step .exec = some { k with code := [.unlock] } := by
  have h : ∃ k, Reach step Ok (boot true) k ∧ k.code = [.vTest (.msgSem 0) .send, .unlock] := by
    rw [boot_eq]
    exact Reach.exists_of_exec
      [.irq [.send 0 { MsgData.zero with src := msgHardIntr, list := ⟨none, none⟩ }],
        .exec, .exec, .exec, .exec, .exec] (by decide +kernel)
  obtain ⟨k, hr, hc⟩ := h
  obtain ⟨q, hB⟩ := Run.base hr
  obtain ⟨-, -, hV, hw⟩ := hB.idleSem
  refine ⟨k, hr, hc, fun hs => (hB.vSound_iff hc).mp hs rfl, ?_⟩
  simp [step_exec hc, execInstr, hV, hw]

end Kernel
end NanoOS
