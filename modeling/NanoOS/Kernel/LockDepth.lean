/-
# Lock accounting across thread switches

`lock_count` is one global variable, saved in and loaded from `current->locked`
around `schedule`. Two history variables say what it should be: how deep each
thread is nested in its own `lock()` calls, and with which `lock_count` and
trap frame each thread last went into `irq_handle`.

Handlers call `lock` and `unlock` on top of whatever the interrupted thread
holds; what they have still to do to the counter is the `net` effect of the
code left to run.

Key definitions: `lockDelta`, `LockHist`, `Balanced`, `Acc`.
Key theorems: `Exec.lockCount_eq`, `Acc.step`, `lock_accounting`.
-/
import NanoOS.Kernel.Context

namespace NanoOS
namespace Kernel

open Trans Ringlist
open Sched (movedQ)

/-- The `lock()` calls less the `unlock()` calls of the next instruction: `P`
that blocks, `V` that wakes a thread and `create_kthread` each call `lock()`
inside. -/
def lockDelta (k : Kernel) : ℤ :=
  match k.code with
  | .lock :: _ | .kthread :: _ => 1
  | .unlock :: _ => -1
  | .pTest σ :: _ => if 0 < k.sched.token σ then 0 else 1
  | .vTest σ _ :: _ => if k.wakes σ then 1 else 0
  | _ => 0

/-- The `lock()` calls less the `unlock()` calls in a piece of handler code. -/
def net : List Instr → ℤ
  | [] => 0
  | .lock :: rest => net rest + 1
  | .unlock :: rest => net rest - 1
  | _ :: rest => net rest

/-- What each thread did with its locks. -/
structure LockHist where
  /-- The `lock()` calls of a thread not yet matched by its `unlock()`. -/
  depth : ℕ → ℤ
  /-- `lock_count` and the context in force when a thread last went into
  `irq_handle`; for a thread that has not run yet, those it starts with. -/
  out : ℕ → ℤ × Frame

namespace LockHist

def init : LockHist := ⟨fun _ => 0, fun _ => (0, ⟨[], false⟩)⟩

/-- The current thread goes into `irq_handle` with frame `fr`. -/
def leave (h : LockHist) (k : Kernel) (fr : Frame) : LockHist :=
  { h with out := Function.update h.out k.sched.current (k.lockCount, fr) }

/-- The next instruction, executed by the current thread, and the thread it
creates. -/
def advance (h : LockHist) (k : Kernel) : LockHist where
  depth := Function.update h.depth k.sched.current (h.depth k.sched.current + k.lockDelta)
  out :=
    match k.code, k.sched.createKthread with
    | .kthread :: _, some (i, _) => Function.update h.out i (0, ⟨[], true⟩)
    | _, _ => h.out

/-- The history after a step. What a handler does is not the thread's. -/
def upd (k : Kernel) (a : Action) (h : LockHist) : LockHist :=
  match a with
  | .call _ => h
  | .irq _ => h.leave k ⟨k.code, k.intf⟩
  | .exec =>
    if k.trap.isSome then h
    else match k.code with
      | .int80 :: rest => h.leave k ⟨rest, k.intf⟩
      | _ => h.advance k

end LockHist

/-- The handlers of an interrupt call `unlock` as often as `lock`. -/
def Balanced : Action → Prop
  | .irq hs => hs.count .lock = hs.count .unlock
  | _ => True

instance : DecidablePred Balanced
  | .irq hs => inferInstanceAs (Decidable (hs.count .lock = hs.count .unlock))
  | .exec | .call _ => inferInstanceAs (Decidable True)

/-- The machine with its lock history. -/
def lockStep : Kernel × LockHist → Action → Option (Kernel × LockHist) := withHistory step LockHist.upd

/-- The accounting: the counter agrees with the nesting of the current thread,
saved counters and frames with those of the others. -/
structure Acc (k : Kernel) (h : LockHist) : Prop where
  running : k.trap = none → k.lockCount = h.depth k.sched.current
  handler : ∀ fr, k.trap = some fr → k.lockCount + net k.code = h.depth k.sched.current ∧
    h.out k.sched.current = (h.depth k.sched.current, fr)
  saved : ∀ t, k.Thread t → t ≠ k.sched.current →
    k.locked t = h.depth t ∧ h.out t = (h.depth t, k.tf t)
  fresh : ∀ t, ¬ k.Thread t → h.depth t = 0

section acc

variable {k k' : Kernel} {q q' : Node → List ℕ} {i : Instr} {rest : List Instr} {h : LockHist}

/-! ### The counter -/

theorem Exec.lockCount_eq (hB : Base k q) (hc : k.code = i :: rest) (hx : Exec k q rest i k' q') :
    k'.lockCount = k.lockCount + k.lockDelta := by
  cases hx with
  | take hσ htok => simp [lockDelta, hc, htok]
  | block hσ htok h0 =>
    rename_i σ
    simp [lockDelta, hc, show ¬ 0 < k.sched.token σ by omega]
  | raise hσ hq => simp [lockDelta, hc, hB.wakes_of_empty hσ hq]
  | wake hσ hq hcr hst => simp [lockDelta, hc, hB.wakes_of_mem hσ hq]
  | drop hσ => simp [lockDelta, hc, hB.idleSem]
  | unlock => simp [lockDelta, hc]; omega
  | _ => simp [lockDelta, hc]

theorem Exec.net_eq (hB : Base k q) (hc : k.code = i :: rest) (hx : Exec k q rest i k' q')
    (hi : HandlerInstr i) : net k'.code + k.lockDelta = net k.code := by
  cases hx with
  | lock => simp [lockDelta, net, hc]
  | unlock => simp [lockDelta, net, hc]; omega
  | raise hσ hq => simp [lockDelta, net, hc, hB.wakes_of_empty hσ hq]
  | wake hσ hq hcr hst => simp [lockDelta, net, hc, hB.wakes_of_mem hσ hq]
  | drop hσ => simp [lockDelta, net, hc, hB.idleSem]
  | copyMsg hy => simp [lockDelta, net, hc, codeV]
  | linkMsg => simp [lockDelta, net, hc]
  | _ => exact hi.elim

theorem net_handler (me : ℕ) (hs : List Call) (h : ∀ c ∈ hs, HandlerCall c) :
    net (hs.flatMap (Call.code me)) = hs.count .lock - hs.count .unlock := by
  induction hs with
  | nil => simp [net]
  | cons c hs ih =>
    have ih' := ih fun c' hc' => h c' (List.mem_cons_of_mem _ hc')
    have hc := h c List.mem_cons_self
    rw [List.flatMap_cons]
    cases c with
    | lock | unlock | send dest x => simp [Call.code, net, ih']; try omega
    | V σ => simp [Call.code, codeV, net, ih']
    | _ => exact hc.elim

/-! ### The invariant -/

theorem Acc.exec_thread (hA : Acc k h) (hB : Base k q) (hc : k.code = i :: rest) (ht : k.trap = none)
    (hx : Exec k q rest i k' q') : Acc k' (LockHist.upd k .exec h) := by
  have hcur := hx.current_eq
  have hd := hA.running ht
  by_cases h80 : i = .int80
  · subst h80
    have hu : LockHist.upd k .exec h = h.leave k ⟨rest, k.intf⟩ := by simp [LockHist.upd, ht, hc]
    rw [hu]
    cases hx
    refine ⟨(fun h' => by cases h'), ?_, fun t htt hne => ?_, hA.fresh⟩
    · rintro fr' ⟨⟩
      simp [LockHist.leave, net, hd]
    · simpa [LockHist.leave, Function.update_apply, show t ≠ k.sched.current from hne] using
        hA.saved t htt hne
  · have hu : LockHist.upd k .exec h = h.advance k := by
      cases i <;> first | exact absurd rfl h80 | simp [LockHist.upd, ht, hc]
    have htrap := hx.trap_eq h80
    have hdepth : ∀ t, t ≠ k.sched.current → (h.advance k).depth t = h.depth t := fun t hne => by
      simp [LockHist.advance, hne]
    have hrun : k'.lockCount = (h.advance k).depth k'.sched.current := by
      rw [hcur, hx.lockCount_eq hB hc, hd]
      simp [LockHist.advance]
    rw [hu]
    by_cases hk : i = .kthread
    · subst hk
      cases hx with
      | kthread hI hq hcr hcur' hscr hin htok =>
        rename_i i r s
        have hcreate : ∃ s', k.sched.createKthread = some (i, s') := by
          have hnext := hB.sched.next_head (h := .free) trivial
          rw [hq] at hnext
          exact ⟨_, by simp [Sched.createKthread, hnext]; rfl⟩
        obtain ⟨s', hcreate⟩ := hcreate
        have hout : (h.advance k).out = Function.update h.out i (0, ⟨[], true⟩) := by
          simp [LockHist.advance, hc, hcreate]
        have hnew := hB.not_thread_of_free hq
        have hne : i ≠ k.sched.current := fun e => hnew (e ▸ hB.current)
        refine ⟨fun _ => hrun, fun fr h' => ?_, fun t htt hne' => ?_, fun t htt => ?_⟩
        · rw [ht] at h'; cases h'
        · have hne'' : t ≠ k.sched.current := hcur' ▸ hne'
          rw [hdepth t hne'', hout]
          by_cases hti : t = i
          · subst hti
            simp [hA.fresh t hnew]
          · have htt' : k.Thread t := by
              simpa [Thread, hscr, Function.update_apply, hti] using htt
            simpa [Function.update_apply, hti] using hA.saved t htt' hne''
        · have htt' : ¬ k.Thread t := fun h0 => htt (by
            rcases h0 with h0 | h0
            · exact Or.inl h0
            · right; simp [hscr, Function.update_apply, h0])
          rw [hdepth t fun e => htt' (e ▸ hB.current)]
          exact hA.fresh t htt'
    · obtain ⟨htf, hlk, hcr⟩ := hx.saved_eq hk
      have hth : ∀ t, k'.Thread t ↔ k.Thread t := fun t => by simp only [Thread, hcr]
      have hout : (h.advance k).out = h.out := by
        unfold LockHist.advance
        rw [hc]
        cases i <;> first | rfl | exact absurd rfl hk
      refine ⟨fun _ => hrun, fun fr h' => ?_, fun t htt hne => ?_, fun t htt => ?_⟩
      · rw [htrap, ht] at h'; cases h'
      · rw [hcur] at hne
        rw [hdepth t hne, hout, htf, hlk]
        exact hA.saved t ((hth t).mp htt) hne
      · have htt' := fun h0 => htt ((hth t).mpr h0)
        rw [hdepth t fun e => htt' (e ▸ hB.current)]
        exact hA.fresh t htt'

theorem Acc.exec_handler (hA : Acc k h) (hB : Base k q) (hc : k.code = i :: rest) {fr : Frame}
    (ht : k.trap = some fr) (hx : Exec k q rest i k' q') : Acc k' (LockHist.upd k .exec h) := by
  have hs : k.trap.isSome = true := by rw [ht]; rfl
  have hi : HandlerInstr i := ((hB.handler hs).2.2 i (by rw [hc]; simp)).1
  have h80 : i ≠ .int80 := by rintro rfl; exact hi
  have hk : i ≠ .kthread := by rintro rfl; exact hi
  have hu : LockHist.upd k .exec h = h := by simp [LockHist.upd, hs]
  obtain ⟨htf, hlk, hcr⟩ := hx.saved_eq hk
  have hcur := hx.current_eq
  have hth : ∀ t, k'.Thread t ↔ k.Thread t := fun t => by simp only [Thread, hcr]
  rw [hu]
  refine ⟨fun h' => ?_, fun fr' h' => ?_, fun t htt hne => ?_, fun t htt => ?_⟩
  · rw [hx.trap_eq h80, ht] at h'; cases h'
  · rw [hx.trap_eq h80] at h'
    have h1 := hx.lockCount_eq hB hc
    have h2 := hx.net_eq hB hc hi
    obtain ⟨h3, h4⟩ := hA.handler fr' h'
    rw [hcur]
    exact ⟨by omega, h4⟩
  · rw [hcur] at hne
    rw [htf, hlk]
    exact hA.saved t ((hth t).mp htt) hne
  · exact hA.fresh t fun h0 => htt ((hth t).mpr h0)

theorem Acc.returnTo (hA : Acc k h) {fr : Frame} {c : ℕ} (hc : k.code = [])
    (ht : k.trap = some fr) (hth : k.Thread c) :
    Acc (k.returnTo fr c) h ∧ (k.returnTo fr c).lockCount = (h.out c).1 ∧
      (⟨(k.returnTo fr c).code, (k.returnTo fr c).intf⟩ : Frame) = (h.out c).2 := by
  obtain ⟨hd, ho⟩ := hA.handler fr ht
  have hd' : k.lockCount = h.depth k.sched.current := by simpa [hc, net] using hd
  have hload : (k.returnTo fr c).lockCount = h.depth c ∧
      h.out c = (h.depth c, ⟨(k.returnTo fr c).code, (k.returnTo fr c).intf⟩) := by
    by_cases hcc : c = k.sched.current
    · subst hcc
      simp [Kernel.returnTo, hd', ho]
    · simpa [Kernel.returnTo, hcc] using hA.saved c hth hcc
  refine ⟨⟨fun _ => hload.1, (fun fr' h' => by cases h'), fun t htt hne => ?_, hA.fresh⟩, ?_, ?_⟩
  · have hne' : t ≠ c := hne
    by_cases htc : t = k.sched.current
    · subst htc
      simp [Kernel.returnTo, hd', ho]
    · simpa [Kernel.returnTo, htc] using hA.saved t htt htc
  · rw [hload.2, hload.1]
  · rw [hload.2]

/-- A step keeps the accounting. -/
theorem Acc.step (hA : Acc k h) (hB : Base k q) {a : Action} (hok : k.Ok a) (hb : Balanced a)
    (hx : Step k q a k' q') : Acc k' (LockHist.upd k a h) := by
  cases hx with
  | exec hc hx =>
    cases ht : k.trap with
    | none => exact hA.exec_thread hB hc ht hx
    | some fr => exact hA.exec_handler hB hc ht hx
  | proc hc ht hcur =>
    rename_i fr c
    have hth : k.Thread c := hcur.imp And.left fun hm => ((hB.sched.ready c).mp hm).1
    have hu : LockHist.upd k .exec h = h := by simp [LockHist.upd, ht]
    rw [hu]
    exact (hA.returnTo hc ht hth).1
  | call hc ht => exact ⟨hA.running, fun fr h' => absurd (ht.symm.trans h') (by simp), hA.saved, hA.fresh⟩
  | irq hi ht =>
    rename_i hs
    have hnet : net (hs.flatMap (Call.code k.sched.current)) = 0 := by
      have hb' : hs.count .lock = hs.count .unlock := hb
      rw [net_handler _ _ fun c hc => (hok c hc).1, hb']
      omega
    refine ⟨(fun h' => by cases h'), ?_, fun t htt hne => ?_, hA.fresh⟩
    · rintro fr' ⟨⟩
      simp [LockHist.upd, LockHist.leave, hnet, hA.running ht]
    · simpa [LockHist.upd, LockHist.leave, Function.update_apply, show t ≠ k.sched.current from hne] using
        hA.saved t htt hne

end acc

theorem acc_boot (b : Bool) : Acc (boot b) LockHist.init := by
  refine ⟨fun _ => rfl, (fun fr h => by cases h), fun t ht hne => ?_, fun _ _ => rfl⟩
  rcases ht with ht | ht
  · exact absurd ht hne
  · cases ht

theorem reach_acc {b : Bool} {ok : Kernel × LockHist → Action → Prop} {p : Kernel × LockHist}
    (hok : ∀ p a, ok p a → p.1.Ok a ∧ Balanced a)
    (h : Reach lockStep ok (boot b, LockHist.init) p) : ∃ q, Base p.1 q ∧ Acc p.1 p.2 := by
  refine h.invariant (I := fun p => ∃ q, Base p.1 q ∧ Acc p.1 p.2) ⟨_, base_boot b, acc_boot b⟩ ?_
  rintro ⟨k, h⟩ a ⟨k', h'⟩ ⟨q, hB, hA⟩ ho hs
  obtain ⟨hs, rfl⟩ := withHistory_eq_some.mp hs
  obtain ⟨ho, hb⟩ := hok _ _ ho
  obtain ⟨q', hx⟩ := hB.step_cases ho hs
  exact ⟨q', hB.of_step ho hx, hA.step hB ho hb hx⟩

/-- **The counter is the current thread's own.** In every run whose handlers
call `lock` and `unlock` equally often, outside `irq_handle` `lock_count` is
how deep the current thread is nested in its locks; and a thread is resumed
with the `lock_count` and the context it last went into `irq_handle` with. -/
theorem lock_accounting {b : Bool} {p : Kernel × LockHist}
    (h : Reach lockStep (fun p a => p.1.Ok a ∧ Balanced a) (boot b, LockHist.init) p) :
    (p.1.trap = none → p.1.lockCount = p.2.depth p.1.sched.current) ∧
    (∀ fr k', p.1.code = [] → p.1.trap = some fr → p.1.step .exec = some k' →
      k'.lockCount = (p.2.out k'.sched.current).1 ∧
      (⟨k'.code, k'.intf⟩ : Frame) = (p.2.out k'.sched.current).2) := by
  obtain ⟨q, hB, hA⟩ := reach_acc (fun _ _ h => h) h
  refine ⟨hA.running, fun fr k' hc ht hs => ?_⟩
  have hok : p.1.Ok .exec := by simp [Ok, execOk, hc]
  obtain ⟨q', hx⟩ := hB.step_cases hok hs
  cases hx with
  | exec hc' _ => rw [hc] at hc'; cases hc'
  | proc _ ht' hcur =>
    exact (hA.returnTo hc ht' (hcur.imp And.left fun hm => ((hB.sched.ready _).mp hm).1)).2

/-- Thread 1 blocks in `P` inside a critical section, two locks deep; the idle
thread is resumed with the counter it was interrupted with. -/
theorem lock_accounting_blocked : ∃ p k', Reach lockStep (fun p a => p.1.Ok a ∧ Balanced a)
    (boot false, LockHist.init) p ∧ p.1.sched.current = 1 ∧ p.1.lockCount = 2 ∧
    p.1.step .exec = some k' ∧ k'.sched.current = 0 ∧ k'.lockCount = (p.2.out 0).1 := by
  have h : ∃ p, Reach lockStep (fun p a => p.1.Ok a ∧ Balanced a) (boot false, LockHist.init) p ∧
      (p.1.code = [] ∧ p.1.sched.current = 1 ∧ p.1.lockCount = 2 ∧ p.1.trap.isSome = true ∧
        (p.1.step .exec).any (fun k' => k'.sched.current = 0) = true) := by
    rw [boot_eq]
    exact Reach.exists_of_exec
      [.call .createKthread, .exec, .exec, .exec, .call (.wakeup 1), .exec, .exec, .exec, .exec,
        .irq [.lock, .unlock], .exec, .exec, .exec, .call (.createSem 0 0), .exec, .exec, .exec,
        .call .lock, .exec, .call (.P (.user 0)), .exec, .exec, .exec, .exec] (by decide +kernel)
  obtain ⟨p, hr, hc, hcur, hl, ht, hs⟩ := h
  obtain ⟨fr, ht⟩ := Option.isSome_iff_exists.mp ht
  cases hk : p.1.step .exec with
  | none => simp [hk] at hs
  | some k' =>
    have h0 : k'.sched.current = 0 := by simpa [hk] using hs
    have h1 := (lock_accounting hr).2 fr k' hc ht hk
    rw [h0] at h1
    exact ⟨p, k', hr, hcur, hl, hk, h0, h1.1⟩

end Kernel
end NanoOS
