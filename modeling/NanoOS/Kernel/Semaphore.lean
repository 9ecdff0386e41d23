/-
# `P` and `V` on the preemptible machine

A `P` that blocks puts its thread on the semaphore's wait list, enables
interrupts and only then traps into the scheduler; a `V` from an interrupt can
come in between. `V` does not raise the token of a semaphore somebody waits
for: it makes the first waiting thread ready, which then goes on as if it had
taken the token.

The history keeps, for every semaphore, what was done to it
(`Semaphore.Hist`), and for every thread the semaphore it is blocked on. A
`P` counts when it takes its token or its thread is made ready, a `V` when it
raises the token or makes a thread ready. A thread that waits in `P` is only
made ready by `V`: `wakeup` is for threads that sleep (`NoSteal`).

Key definitions: `SemHist`, `NoSteal`, `SemInv`.
Key theorems: `SemInv.exec`, `SemInv.step`, `semaphore_lawful`.
-/
import NanoOS.Lib.Semaphore
import NanoOS.Kernel.Context

namespace NanoOS
namespace Kernel

open Trans Ringlist Semaphore
open Sched (movedQ)

/-- The thread `V` makes ready. -/
def woken (k : Kernel) (σ : SemId) : Option ℕ :=
  if k.wakes σ then
    match (k.sched.links (.sem σ)).next with
    | some (.pcb i) => some i
    | _ => none
  else none

/-- What was done to each semaphore, and which one each thread is blocked on. -/
structure SemHist where
  sem : SemId → Hist ℕ
  waiting : ℕ → Option SemId

namespace SemHist

def init : SemHist := ⟨fun _ => Hist.start 0, fun _ => none⟩

/-- Something is done to semaphore `σ`. -/
def on (h : SemHist) (σ : SemId) (f : Hist ℕ → Hist ℕ) : SemHist :=
  { h with sem := Function.update h.sem σ (f (h.sem σ)) }

/-- The history after a step. -/
def upd (k : Kernel) (a : Action) (h : SemHist) : SemHist :=
  match a, k.code with
  | .exec, .pTest σ :: _ =>
    if 0 < k.sched.token σ then h.on σ Hist.take
    else { h.on σ (Hist.block k.sched.current) with
      waiting := Function.update h.waiting k.sched.current (some σ) }
  | .exec, .vTest σ _ :: _ =>
    match k.woken σ with
    | some i => { h.on σ (Hist.wake i) with waiting := Function.update h.waiting i none }
    | none => h.on σ Hist.raise
  | .exec, .semInit a v :: _ => h.on (.user a) fun _ => Hist.start v
  | _, _ => h

end SemHist

/-- The machine with its semaphore history. -/
def semStep : Kernel × SemHist → Action → Option (Kernel × SemHist) := withHistory step SemHist.upd

/-- `wakeup` is about to make a thread ready that is blocked in `P`. -/
def steals (p : Kernel × SemHist) : Bool :=
  match p.1.code with
  | .makeReady i :: _ => (p.2.waiting i).isSome
  | _ => false

/-- The action does not take a thread out of a wait list behind the back of
`V`. -/
def NoSteal (p : Kernel × SemHist) : Action → Prop
  | .exec => steals p = false
  | _ => True

instance (p : Kernel × SemHist) : DecidablePred (NoSteal p)
  | .exec => inferInstanceAs (Decidable (steals p = false))
  | .call _ | .irq _ => inferInstanceAs (Decidable True)

/-- A blocked thread that still runs is on its way into the trap. -/
def GoingToSleep (code : List Instr) : Prop :=
  ∃ rest, code = .unlock :: .int80 :: .pWake :: rest ∨ code = .int80 :: .pWake :: rest

/-- Every semaphore that is set up is lawful, and the threads blocked on it
are the ones in its list. -/
structure SemInv (k : Kernel) (q : Node → List ℕ) (h : SemHist) : Prop where
  lawful : ∀ σ, k.sched.inited σ = true → Lawful (k.sched.token σ) (q (.sem σ)) (h.sem σ)
  fresh : ∀ i, k.sched.inited (.msgSem i) = false → i ≠ 0 → h.sem (.msgSem i) = Hist.start 0
  waiting : ∀ i σ, h.waiting i = some σ ↔ i ∈ q (.sem σ)
  going : k.trap = none → ∀ σ, h.waiting k.sched.current = some σ → GoingToSleep k.code

section sem

variable {k k' : Kernel} {q q' : Node → List ℕ} {i : Instr} {rest : List Instr} {h : SemHist} {σ : SemId}

/-! ### Whom `V` wakes -/

theorem Base.woken_of_mem (hB : Base k q) (hσ : k.sched.inited σ = true) {t : ℕ} {r : List ℕ}
    (hq : q (.sem σ) = t :: r) : k.woken σ = some t := by
  have hn : (k.sched.links (.sem σ)).next = some (.pcb t) := by
    rw [hB.sched.next_head (h := .sem σ) hσ, hq]
    rfl
  simp [woken, hB.wakes_of_mem hσ hq, hn]

theorem woken_of_not_wakes (h : k.wakes σ = false) : k.woken σ = none := by
  simp [woken, h]

/-! ### The wait lists when a PCB moves -/

theorem movedQ_sem_of_not_mem {t : ℕ} {n : Node} (ht : t ∉ q (.sem σ)) (hn : n ≠ .sem σ) :
    movedQ q t n (.sem σ) = q (.sem σ) := by
  simp [movedQ, Ne.symm hn, List.erase_of_not_mem ht]

/-- A PCB that waits for no semaphore moves between the other lists. -/
theorem SemInv.not_mem (hS : SemInv k q h) {t : ℕ} (ht : h.waiting t = none) (σ : SemId) :
    t ∉ q (.sem σ) := fun hm => by
  rw [(hS.waiting t σ).mpr hm] at ht
  cases ht

theorem GoingToSleep.head {j : Instr} (hg : GoingToSleep (j :: rest)) :
    (j = .unlock ∧ GoingToSleep rest) ∨ j = .int80 := by
  obtain ⟨r, hr | hr⟩ := hg
  · exact Or.inl ⟨(List.cons.inj hr).1, r, Or.inr (List.cons.inj hr).2⟩
  · exact Or.inr (List.cons.inj hr).1

/-- A thread that executes anything else than the way into the trap is not
blocked. -/
theorem SemInv.not_waiting (hS : SemInv k q h) (hc : k.code = i :: rest) (ht : k.trap = none)
    (hu : i ≠ .unlock) (h80 : i ≠ .int80) : h.waiting k.sched.current = none := by
  cases hw : h.waiting k.sched.current with
  | none => rfl
  | some σ =>
    have hg := hS.going ht σ hw
    rw [hc] at hg
    rcases hg.head with ⟨h', -⟩ | h'
    · exact absurd h' hu
    · exact absurd h' h80

theorem SemInv.quiet (hS : SemInv k q h) (hin : k'.sched.inited = k.sched.inited)
    (htok : k'.sched.token = k.sched.token) (hq : ∀ σ, q' (.sem σ) = q (.sem σ))
    (hg : k'.trap = none → ∀ σ, h.waiting k'.sched.current = some σ → GoingToSleep k'.code) :
    SemInv k' q' h := by
  refine ⟨fun σ hσ => ?_, fun i hi => ?_, fun i σ => ?_, hg⟩
  · rw [hin] at hσ
    rw [htok, hq]
    exact hS.lawful σ hσ
  · rw [hin] at hi
    exact hS.fresh i hi
  · rw [hq]
    exact hS.waiting i σ

/-! ### The instructions -/

/-- A step that does something to semaphore `σ` alone: the invariant follows
from what it does to it. -/
theorem SemInv.touch (hS : SemInv k q h) (σ : SemId) (f : Hist ℕ → Hist ℕ) (w : ℕ → Option SemId)
    (hother : ∀ τ, τ ≠ σ → k'.sched.inited τ = k.sched.inited τ ∧ k'.sched.token τ = k.sched.token τ ∧
      q' (.sem τ) = q (.sem τ))
    (hlaw : k'.sched.inited σ = true → Lawful (k'.sched.token σ) (q' (.sem σ)) (f (h.sem σ)))
    (hnew : ∀ i, σ = .msgSem i → i ≠ 0 → k'.sched.inited σ = true)
    (hw : ∀ i τ, w i = some τ ↔ i ∈ q' (.sem τ))
    (hg : k'.trap = none → ∀ τ, w k'.sched.current = some τ → GoingToSleep k'.code) :
    SemInv k' q' { h.on σ f with waiting := w } := by
  refine ⟨fun τ hτ => ?_, fun i hi h0 => ?_, hw, hg⟩
  · by_cases hτσ : τ = σ
    · subst hτσ
      simpa [SemHist.on] using hlaw hτ
    · obtain ⟨h1, h2, h3⟩ := hother τ hτσ
      rw [h1] at hτ
      simpa [SemHist.on, hτσ, h2, h3] using hS.lawful τ hτ
  · have hne : SemId.msgSem i ≠ σ := by
      rintro rfl
      rw [hnew i rfl h0] at hi
      cases hi
    rw [(hother _ hne).1] at hi
    simpa [SemHist.on, hne] using hS.fresh i hi h0

theorem SemInv.exec_vTest (hS : SemInv k q h) (hB : Base k q) {site : VSite}
    (hc : k.code = .vTest σ site :: rest) (hx : Exec k q rest (.vTest σ site) k' q')
    (hcur : k.trap = none → h.waiting k.sched.current = none) :
    SemInv k' q' (SemHist.upd k .exec h) := by
  have hgo : k.trap = none → ∀ τ, h.waiting k.sched.current = some τ → GoingToSleep k'.code :=
    fun ht τ hw => by
      rw [hcur ht] at hw
      cases hw
  cases hx with
  | raise hσ hq =>
    simp only [SemHist.upd, hc, woken_of_not_wakes (hB.wakes_of_empty hσ hq)]
    refine hS.touch σ Hist.raise h.waiting (fun τ hτ => ⟨rfl, by simp [hτ], rfl⟩) (fun _ => ?_)
      (fun _ _ _ => hσ) hS.waiting hgo
    have hL := hS.lawful σ hσ
    rw [hq] at hL ⊢
    simpa using hL.raise
  | wake hσ hq hcr hst =>
    rename_i t r
    simp only [SemHist.upd, hc, hB.woken_of_mem hσ hq]
    have ht : t ∈ q (.sem σ) := by rw [hq]; simp
    refine hS.touch σ (Hist.wake t) _ (fun τ hτ => ⟨rfl, rfl, ?_⟩) (fun _ => ?_) (fun _ _ _ => hσ)
      (fun j τ => ?_) fun htr τ hw => ?_
    · refine movedQ_sem_of_not_mem (fun hm => hτ ?_) (by simp)
      simpa using hB.sched.unique hm ht
    · have hL := hS.lawful σ hσ
      have hq' : movedQ q t .ready (.sem σ) = r := by simp [movedQ, hq]
      rw [hq] at hL
      rw [hq']
      exact hL.wake
    · rw [Sched.mem_movedQ hB.sched, Function.update_apply]
      by_cases hj : j = t
      · simp [hj]
      · simp [hj, hS.waiting j τ]
    · rw [Function.update_apply] at hw
      split_ifs at hw
      exact hgo htr τ hw
  | drop hσ =>
    simp only [SemHist.upd, hc, woken_of_not_wakes hB.idleSem.2.2.2]
    refine hS.touch (.msgSem 0) Hist.raise h.waiting (fun τ hτ => ⟨rfl, rfl, rfl⟩) (fun h' => ?_)
      (fun i h' h0 => absurd (SemId.msgSem.inj h').symm h0) hS.waiting hgo
    rw [hσ] at h'
    cases h'

/-- `create_kthread` sets up a semaphore that was not there. -/
theorem SemInv.exec_kthread (hS : SemInv k q h) (hB : Base k q) (hc : k.code = .kthread :: rest)
    (hx : Exec k q rest .kthread k' q')
    (hgo : k'.trap = none → ∀ σ, h.waiting k'.sched.current = some σ → GoingToSleep k'.code) :
    SemInv k' q' (SemHist.upd k .exec h) := by
  cases hx with
  | kthread hI hq hcr hcur hscr hin htok =>
    rename_i t r s
    have hu : SemHist.upd k .exec h = { h.on (.msgSem t) id with waiting := h.waiting } := by
      simp [SemHist.upd, hc, SemHist.on]
    have htf : t ∈ q .free := by rw [hq]; simp
    have hout : ∀ τ, t ∉ q (.sem τ) := fun τ hm => by cases hB.sched.unique hm htf
    have hq' : ∀ τ, movedQ q t .block (.sem τ) = q (.sem τ) := fun τ =>
      movedQ_sem_of_not_mem (hout τ) (by simp)
    have h0 : t ≠ 0 := fun e => hB.not_thread_of_free hq (Or.inl e)
    have hnew : k.sched.inited (.msgSem t) = false := by
      rw [Bool.eq_false_iff]
      intro h'
      exact hB.not_thread_of_free hq (Or.inr (hB.sched.msgSem t h'))
    rw [hu]
    refine hS.touch (.msgSem t) id h.waiting (fun τ hτ => ⟨by simp [hin, hτ], by simp [htok, hτ], hq' τ⟩)
      (fun _ => ?_) (fun _ _ _ => by simp [hin]) (fun j τ => by rw [hq', hS.waiting]) hgo
    have hd : q (.sem (.msgSem t)) = [] := hB.sched.dead _ (by simp [Sched.Live, hnew])
    rw [hq', hd, id, hS.fresh t hnew h0]
    simpa [htok] using lawful_start (α := ℕ) 0

theorem SemInv.exec_thread (hS : SemInv k q h) (hB : Base k q) (hc : k.code = i :: rest)
    (ht : k.trap = none) (hns : NoSteal (k, h) .exec) (hx : Exec k q rest i k' q') :
    SemInv k' q' (SemHist.upd k .exec h) := by
  by_cases hu : i = .unlock
  · subst hu
    cases hx with
    | unlock =>
      simp only [SemHist.upd, hc]
      refine hS.quiet rfl rfl (fun _ => rfl) fun _ σ hw => ?_
      have hg := hS.going ht σ hw
      rw [hc] at hg
      rcases hg.head with ⟨-, hg⟩ | h'
      · exact hg
      · cases h'
  by_cases h80 : i = .int80
  · subst h80
    cases hx with
    | int80 =>
      simp only [SemHist.upd, hc]
      exact hS.quiet rfl rfl (fun _ => rfl) fun h' => by cases h'
  -- whatever else it executes, the current thread is not blocked
  have hcur := hS.not_waiting hc ht hu h80
  have hstay : h.waiting k'.sched.current = none := by rw [hx.current_eq, hcur]
  have hgo : ∀ {P : Prop} (σ : SemId), h.waiting k'.sched.current = some σ → P := fun σ hw => by
    rw [hstay] at hw
    cases hw
  cases hx with
  | unlock => exact absurd rfl hu
  | int80 => exact absurd rfl h80
  | take hσ htok =>
    rename_i σ
    simp only [SemHist.upd, hc, if_pos htok]
    refine hS.touch σ Hist.take h.waiting (fun τ hτ => ⟨rfl, by simp [hτ], rfl⟩) (fun _ => ?_)
      (fun _ _ _ => hσ) hS.waiting fun _ => hgo
    simpa using (hS.lawful σ hσ).take htok
  | block hσ htok h0 =>
    rename_i σ
    simp only [SemHist.upd, hc, if_neg (show ¬ 0 < k.sched.token σ by omega)]
    have hout := hS.not_mem hcur
    refine hS.touch σ (Hist.block k.sched.current) _ (fun τ hτ => ⟨rfl, rfl, ?_⟩) (fun _ => ?_)
      (fun _ _ _ => hσ) (fun t τ => ?_) fun _ τ _ => ⟨rest, Or.inl rfl⟩
    · exact movedQ_sem_of_not_mem (hout τ) (by simpa using Ne.symm hτ)
    · have hq : movedQ q k.sched.current (.sem σ) (.sem σ) = q (.sem σ) ++ [k.sched.current] := by
        simp [movedQ, List.erase_of_not_mem (hout σ)]
      rw [hq]
      exact (hS.lawful σ hσ).block htok
    · rw [Sched.mem_movedQ hB.sched, Function.update_apply]
      by_cases htc : t = k.sched.current
      · simp [htc, eq_comm]
      · simp [htc, hS.waiting t τ]
  | raise | wake | drop => exact hS.exec_vTest hB hc (by constructor <;> assumption) fun _ => hcur
  | sleepOn =>
    simp only [SemHist.upd, hc]
    exact hS.quiet rfl rfl (fun τ => movedQ_sem_of_not_mem (hS.not_mem hcur τ) (by simp)) fun _ => hgo
  | makeReady =>
    rename_i t
    have hw : h.waiting t = none := by simpa [NoSteal, steals, hc] using hns
    simp only [SemHist.upd, hc]
    exact hS.quiet rfl rfl (fun τ => movedQ_sem_of_not_mem (hS.not_mem hw τ) (by simp)) fun _ => hgo
  | semInit hσ =>
    rename_i a v
    simp only [SemHist.upd, hc]
    refine hS.touch (.user a) (fun _ => Hist.start v) h.waiting (fun τ hτ => ?_) (fun _ => ?_)
      (fun _ h' => by cases h') hS.waiting fun _ => hgo
    · simp [Sched.createSem, hτ]
    · have hd : q (.sem (.user a)) = [] := hB.sched.dead _ (by simp [Sched.Live, hσ])
      rw [hd]
      simpa [Sched.createSem] using lawful_start (α := ℕ) v
  | kthread => exact hS.exec_kthread hB hc (by constructor <;> assumption) fun _ => hgo
  | _ =>
    simp only [SemHist.upd, hc]
    exact hS.quiet rfl rfl (fun _ => rfl) fun _ => hgo

theorem SemInv.exec_handler (hS : SemInv k q h) (hB : Base k q) (hc : k.code = i :: rest)
    (ht : k.trap.isSome = true) (hx : Exec k q rest i k' q') : SemInv k' q' (SemHist.upd k .exec h) := by
  have hi : HandlerInstr i := ((hB.handler ht).2.2 i (by rw [hc]; simp)).1
  have hne : ∀ {P : Prop}, k.trap = none → P := fun h' => by
    rw [h'] at ht
    cases ht
  cases hx with
  | raise | wake | drop => exact hS.exec_vTest hB hc (by constructor <;> assumption) hne
  | lock | unlock | copyMsg | linkMsg =>
    simp only [SemHist.upd, hc]
    exact hS.quiet rfl rfl (fun _ => rfl) hne
  | _ => exact hi.elim

/-- A step keeps every semaphore lawful. -/
theorem SemInv.step (hS : SemInv k q h) (hB : Base k q) {a : Action} (hns : NoSteal (k, h) a)
    (hx : Step k q a k' q') : SemInv k' q' (SemHist.upd k a h) := by
  cases hx with
  | exec hc hx =>
    cases ht : k.trap with
    | none => exact hS.exec_thread hB hc ht hns hx
    | some fr => exact hS.exec_handler hB hc (by rw [ht]; rfl) hx
  | proc hc ht hcur =>
    rename_i fr c
    simp only [SemHist.upd, hc]
    refine hS.quiet rfl rfl (fun _ => rfl) fun _ σ hw => ?_
    -- the thread that is resumed is ready, or the idle one: it is in no wait list
    have hm : c ∈ q (.sem σ) := (hS.waiting c σ).mp hw
    rcases hcur with ⟨rfl, -⟩ | hr
    · have := (hB.sched.bounds_of_mem hm).1
      omega
    · cases hB.sched.unique hm hr
  | call hc ht =>
    simp only [SemHist.upd]
    refine hS.quiet rfl rfl (fun _ => rfl) fun _ σ hw => ?_
    obtain ⟨r, hr | hr⟩ := hS.going ht σ hw <;> rw [hc] at hr <;> cases hr
  | irq hi ht =>
    simp only [SemHist.upd]
    exact hS.quiet rfl rfl (fun _ => rfl) fun h' => by cases h'

end sem

theorem semInv_boot (b : Bool) : SemInv (boot b) Sched.initQ SemHist.init := by
  refine ⟨fun σ hσ => ?_, fun _ _ _ => rfl, fun i σ => ?_, fun _ σ hw => ?_⟩
  · cases hσ
  · simp [SemHist.init, Sched.initQ]
  · cases hw

theorem reach_sem {b : Bool} {ok : Kernel × SemHist → Action → Prop} {p : Kernel × SemHist}
    (hok : ∀ p a, ok p a → p.1.Ok a ∧ NoSteal p a) (h : Reach semStep ok (boot b, SemHist.init) p) :
    ∃ q, Base p.1 q ∧ SemInv p.1 q p.2 := by
  refine h.invariant (I := fun p => ∃ q, Base p.1 q ∧ SemInv p.1 q p.2)
    ⟨_, base_boot b, semInv_boot b⟩ ?_
  rintro ⟨k, h⟩ a ⟨k', h'⟩ ⟨q, hB, hS⟩ ho hs
  obtain ⟨hs, rfl⟩ := withHistory_eq_some.mp hs
  obtain ⟨ho, hns⟩ := hok _ _ ho
  obtain ⟨q', hx⟩ := hB.step_cases ho hs
  exact ⟨q', hB.of_step ho hx, hS.step hB hns hx⟩

/-- **`P` and `V` are a semaphore.** In every run, for every semaphore set up
with a value that is not negative: the token is never negative, and 0 while
the wait list is not empty; the token and the `P` that went through make up
the value and the `V`; a thread blocked in `P` that has not been released by
`V` does not get past the trap; and the wait list is what is left of the
threads that blocked once those released are taken off its front. -/
theorem semaphore_lawful {b : Bool} {p : Kernel × SemHist} {σ : SemId}
    (h : Reach semStep (fun p a => p.1.Ok a ∧ NoSteal p a) (boot b, SemHist.init) p)
    (hσ : p.1.sched.inited σ = true) (hv : 0 ≤ (p.2.sem σ).value) :
    0 ≤ p.1.sched.token σ ∧
    (listEmpty (.sem σ) p.1.sched.links = false → p.1.sched.token σ = 0) ∧
    p.1.sched.token σ + (p.2.sem σ).taken = (p.2.sem σ).value + (p.2.sem σ).given ∧
    (p.2.waiting p.1.sched.current = some σ → p.1.trap = none → GoingToSleep p.1.code) ∧
    ∃ w : List ℕ, Ring p.1.sched.links (.sem σ) (w.map Node.pcb) ∧
      (∀ t, t ∈ w ↔ p.2.waiting t = some σ) ∧ (p.2.sem σ).blocked = (p.2.sem σ).released ++ w := by
  obtain ⟨q, hB, hS⟩ := reach_sem (fun _ _ h => h) h
  have hL := hS.lawful σ hσ
  have hl : p.1.sched.Live (.sem σ) := hσ
  refine ⟨hL.nonneg hv, fun he => hL.zero hv fun hq => ?_, hL.count, fun hw ht => hS.going ht σ hw,
    q (.sem σ), hB.sched.rings.ring _ hl, fun t => (hS.waiting t σ).symm, hL.fifo⟩
  rw [(hB.sched.listEmpty_iff hl).mpr hq] at he
  cases he

/-- Thread 1 blocks in `P` on a semaphore of value 0, and a handler's `V`
releases it: the token stays 0. -/
theorem semaphore_lawful_handover : ∃ p, Reach semStep (fun p a => p.1.Ok a ∧ NoSteal p a)
    (boot false, SemHist.init) p ∧ (p.2.sem (.user 0)).released = [1] ∧
    p.1.sched.token (.user 0) = 0 := by
  have h : ∃ p, Reach semStep (fun p a => p.1.Ok a ∧ NoSteal p a) (boot false, SemHist.init) p ∧
      (p.1.sched.inited (.user 0) = true ∧ (p.2.sem (.user 0)).value = 0 ∧
        (p.2.sem (.user 0)).taken = 1 ∧ (p.2.sem (.user 0)).given = 1 ∧
        (p.2.sem (.user 0)).released = [1]) := by
    rw [boot_eq]
    exact Reach.exists_of_exec
      [.call .createKthread, .exec, .exec, .exec, .call (.wakeup 1), .exec, .exec, .exec, .exec,
        .irq [], .exec, .call (.createSem 0 0), .exec, .exec, .exec,
        .call (.P (.user 0)), .exec, .exec, .exec, .irq [.V (.user 0)], .exec, .exec]
      (by decide +kernel)
  obtain ⟨p, hr, hσ, hv, ht, hg, hrel⟩ := h
  have h1 := (semaphore_lawful hr hσ (by omega)).2.2.1
  rw [ht, hg, hv] at h1
  exact ⟨p, hr, hrel, by omega⟩

end Kernel
end NanoOS
