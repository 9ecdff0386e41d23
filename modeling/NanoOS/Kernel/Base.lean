/-
# What holds of every machine run

The invariant `Base` that the results about the machine share: the
scheduler's lists are in order (`Sched.Inv`), every instruction still to come
in the context of a thread uses semaphores that are set up and threads that
exist, and inside `irq_handle` interrupts are masked and only what handlers
call is left to run.

`Exec` and `Step` say once what a step can do, case by case, with the lists
before and after. The invariants of the other modules are proved by cases on
them and do not look at the machine's definitions again.

Key definitions: `InstrOk`, `HandlerInstr`, `Base`, `Exec`, `Step`.
Key theorems: `own_returnTo`, `Base.exec_cases`, `Base.step_cases`, `Base.of_step`,
`base_boot`.
-/
import NanoOS.Process.SchedInv
import NanoOS.Kernel.Machine

namespace NanoOS
namespace Kernel

open Trans Ringlist
open Sched (movedQ)

/-! ### The contexts of the threads -/

section own

variable {k : Kernel} {t : ℕ}

theorem own_current (k : Kernel) : k.own k.sched.current = k.trap.getD ⟨k.code, k.intf⟩ := by
  simp [own]

theorem own_of_ne (h : t ≠ k.sched.current) : k.own t = k.tf t := by
  simp [own, h]

end own

/-! ### The invariant -/

/-- An instruction of thread `t` uses semaphores that are set up and threads
that exist. `send` to the idle thread reaches its semaphore, which nobody
sets up. -/
def InstrOk (s : Sched) (t : ℕ) : Instr → Prop
  | .pTest σ => s.inited σ = true
  | .vTest σ _ => s.inited σ = true ∨ σ = .msgSem 0
  | .sleepOn | .recvHead | .scanFirst _ | .scan _ _ | .recvNode _ => t ≠ 0
  | .wakeupTest i | .makeReady i => s.created i = true
  | .copyMsg dest _ | .linkMsg dest _ _ => dest = 0 ∨ s.created dest = true
  | _ => True

/-- The instructions a handler is made of. -/
def HandlerInstr : Instr → Prop
  | .lock | .unlock | .vTest _ _ | .copyMsg _ _ | .linkMsg _ _ _ => True
  | _ => False

/-- Threads and semaphores only come up. -/
structure Grow (s s' : Sched) : Prop where
  created : ∀ i, s.created i = true → s'.created i = true
  inited : ∀ σ, s.inited σ = true → s'.inited σ = true

theorem Grow.refl (s : Sched) : Grow s s := ⟨fun _ h => h, fun _ h => h⟩

theorem InstrOk.mono {s s' : Sched} {t : ℕ} {i : Instr} (hg : Grow s s') (h : InstrOk s t i) :
    InstrOk s' t i := by
  cases i with
  | pTest σ => exact hg.inited σ h
  | vTest σ _ => exact h.imp (hg.inited σ) id
  | wakeupTest i | makeReady i => exact hg.created i h
  | copyMsg dest _ | linkMsg dest _ _ => exact h.imp id (hg.created dest)
  | _ => exact h

/-- The invariant of the machine. -/
structure Base (k : Kernel) (q : Node → List ℕ) : Prop where
  sched : k.sched.Inv q
  up : ∀ i, k.sched.created i = true → k.sched.inited (.msgSem i) = true
  own : ∀ t, ∀ i ∈ (k.own t).code, InstrOk k.sched t i
  fresh : ∀ t, ¬ k.Thread t → (k.own t).code = []
  handler : k.trap.isSome = true →
    k.intf = false ∧ k.flagIrq = true ∧ ∀ i ∈ k.code, HandlerInstr i ∧ InstrOk k.sched k.sched.current i
  thread : k.trap = none → k.flagIrq = false

variable {k k' : Kernel} {q q' : Node → List ℕ}

theorem Base.current (hB : Base k q) : k.Thread k.sched.current := hB.sched.current

theorem Base.masked (hB : Base k q) (h : k.trap.isSome = true) : k.intf = false := (hB.handler h).1

theorem Base.code (hB : Base k q) : ∀ i ∈ k.code, InstrOk k.sched k.sched.current i := by
  intro i hi
  cases ht : k.trap with
  | none =>
    refine hB.own _ i ?_
    rw [own_current, ht]
    exact hi
  | some fr => exact ((hB.handler (by rw [ht]; rfl)).2.2 i hi).2

/-- A step that stays in the same context: the invariant follows from what it
does to the scheduler and from the code it leaves. -/
theorem Base.advance (hB : Base k q) (hI : k'.sched.Inv q') (hg : Grow k.sched k'.sched)
    (hup : ∀ i, k'.sched.created i = true → k.sched.created i = true ∨ k'.sched.inited (.msgSem i) = true)
    (hcur : k'.sched.current = k.sched.current) (htrap : k'.trap = k.trap)
    (hirq : k'.flagIrq = k.flagIrq) (htf : ∀ t, k'.tf t = k.tf t ∨ (k'.tf t).code = [])
    (hcode : ∀ i ∈ k'.code, InstrOk k'.sched k'.sched.current i ∧ (k.trap.isSome = true → HandlerInstr i))
    (hintf : k.trap.isSome = true → k'.intf = false) : Base k' q' := by
  have hown : ∀ t, t ≠ k.sched.current → ∀ i ∈ (k'.own t).code, i ∈ (k.own t).code := by
    intro t ht i hi
    rw [own_of_ne (hcur ▸ ht)] at hi
    rw [own_of_ne ht]
    rcases htf t with h | h
    · rwa [h] at hi
    · rw [h] at hi; cases hi
  refine ⟨hI, fun i hi => ?_, fun t i hi => ?_, fun t ht => ?_, fun h => ?_, fun h => ?_⟩
  · rcases hup i hi with h | h
    · exact hg.inited _ (hB.up i h)
    · exact h
  · by_cases htc : t = k.sched.current
    · rw [← hcur] at htc
      subst htc
      rw [own_current, htrap] at hi
      cases hk : k.trap with
      | none => rw [hk] at hi; exact (hcode i hi).1
      | some fr =>
        rw [hk] at hi
        rw [hcur]
        refine InstrOk.mono hg (hB.own _ i ?_)
        rw [own_current, hk]
        exact hi
    · exact (hB.own t i (hown t htc i hi)).mono hg
  · have htc : t ≠ k.sched.current := fun h => ht ((h.trans hcur.symm) ▸ hI.current)
    have h0 := hB.fresh t fun h => ht (h.imp id (hg.created t))
    refine List.eq_nil_iff_forall_not_mem.mpr fun i hi => ?_
    have hi' := hown t htc i hi
    rw [h0] at hi'
    cases hi'
  · rw [htrap] at h
    exact ⟨hintf h, hirq.trans (hB.handler h).2.1, fun i hi => ⟨(hcode i hi).2 h, (hcode i hi).1⟩⟩
  · rw [htrap] at h
    exact hirq.trans (hB.thread h)

/-- As `Base.advance`, for a step that leaves the scheduler and the saved
frames alone. -/
theorem Base.advance_code (hB : Base k q) (hs : k'.sched = k.sched) (htf : k'.tf = k.tf)
    (htrap : k'.trap = k.trap) (hirq : k'.flagIrq = k.flagIrq)
    (hcode : ∀ i ∈ k'.code, InstrOk k.sched k.sched.current i ∧ (k.trap.isSome = true → HandlerInstr i))
    (hintf : k.trap.isSome = true → k'.intf = false) : Base k' q := by
  refine hB.advance (hs ▸ hB.sched) (hs ▸ Grow.refl _) (fun i hi => Or.inl (hs ▸ hi)) (by rw [hs]) htrap
    hirq (fun t => Or.inl (by rw [htf])) (by rw [hs]; exact hcode) hintf

/-! ### What a step can do -/

/-- What executing an instruction, with `rest` to follow it, does to the
machine and to the scheduler's lists. -/
inductive Exec (k : Kernel) (q : Node → List ℕ) (rest : List Instr) :
    Instr → Kernel → (Node → List ℕ) → Prop
  | lock : Exec k q rest .lock { k with intf := false, lockCount := k.lockCount + 1, code := rest } q
  | unlock : Exec k q rest .unlock
      { k with
        lockCount := k.lockCount - 1
        intf := if k.flagIrq then k.intf
          else if k.flagSleep then true
          else if k.lockCount - 1 = 0 then true
          else k.intf
        code := rest } q
  /-- `P` takes a token. -/
  | take {σ : SemId} (hσ : k.sched.inited σ = true) (htok : 0 < k.sched.token σ) :
      Exec k q rest (.pTest σ)
        { k with
          sched := { k.sched with token := Function.update k.sched.token σ (k.sched.token σ - 1) }
          code := rest } q
  /-- `P` puts the thread to sleep. -/
  | block {σ : SemId} (hσ : k.sched.inited σ = true) (htok : k.sched.token σ ≤ 0)
      (h0 : k.sched.current ≠ 0) :
      Exec k q rest (.pTest σ)
        { k with
          sched := k.sched.sleepSem σ
          flagSleep := true
          intf := false
          lockCount := k.lockCount + 1
          code := .unlock :: .int80 :: .pWake :: rest } (movedQ q k.sched.current (.sem σ))
  | pWake : Exec k q rest .pWake { k with intf := false, flagSleep := false, code := rest } q
  /-- `V` raises the token. -/
  | raise {σ : SemId} {site : VSite} (hσ : k.sched.inited σ = true) (hq : q (.sem σ) = []) :
      Exec k q rest (.vTest σ site)
        { k with
          sched := { k.sched with token := Function.update k.sched.token σ (k.sched.token σ + 1) }
          code := rest } q
  /-- `V` wakes the first waiting thread. -/
  | wake {σ : SemId} {site : VSite} {i : ℕ} {r : List ℕ} (hσ : k.sched.inited σ = true)
      (hq : q (.sem σ) = i :: r) (hcr : k.sched.created i = true) (hst : k.sched.stat i = .sleeping) :
      Exec k q rest (.vTest σ site)
        { k with
          sched := k.sched.makeReady i
          intf := false
          lockCount := k.lockCount + 1
          code := .unlock :: rest } (movedQ q i .ready)
  /-- `V` on the semaphore of the idle thread does nothing. -/
  | drop {site : VSite} (hσ : k.sched.inited (.msgSem 0) = false) :
      Exec k q rest (.vTest (.msgSem 0) site) { k with code := rest } q
  | sleepOn : Exec k q rest .sleepOn
      { k with sched := k.sched.sleep, code := .unlock :: .int80 :: rest }
      (movedQ q k.sched.current .block)
  | int80 (ht : k.trap = none) : Exec k q rest .int80
      { k with trap := some ⟨rest, k.intf⟩, intf := false, flagIrq := true, code := [] } q
  | wakeupTest {i : ℕ} (hst : k.sched.stat i = .sleeping) :
      Exec k q rest (.wakeupTest i) { k with code := .lock :: .makeReady i :: .unlock :: rest } q
  | makeReady {i : ℕ} : Exec k q rest (.makeReady i)
      { k with sched := k.sched.makeReady i, code := rest } (movedQ q i .ready)
  | semInit {a : ℕ} {v : ℤ} (hσ : k.sched.inited (.user a) = false) :
      Exec k q rest (.semInit a v) { k with sched := k.sched.createSem (.user a) v, code := rest } q
  /-- `create_kthread` takes the first free PCB. -/
  | kthread {i : ℕ} {r : List ℕ} {s : Sched} (hI : s.Inv (movedQ q i .block)) (hq : q .free = i :: r)
      (hcr : k.sched.created i = false) (hcur : s.current = k.sched.current)
      (hscr : s.created = Function.update k.sched.created i true)
      (hin : s.inited = Function.update k.sched.inited (.msgSem i) true)
      (htok : s.token = Function.update k.sched.token (.msgSem i) 0) :
      Exec k q rest .kthread
        { k with
          sched := s
          mail := k.mail.initBox i
          tf := Function.update k.tf i ⟨[], true⟩
          locked := Function.update k.locked i 0
          intf := false
          lockCount := k.lockCount + 1
          code := .unlock :: .kthreadEnd i k.intf :: rest } (movedQ q i .block)
  | kthreadEnd {i : ℕ} {intr : Bool} : Exec k q rest (.kthreadEnd i intr)
      { k with
        pid := Function.update k.pid i i
        intf := if intr then true else k.intf
        code := rest } q
  | copyMsg {dest : ℕ} {x y : Msg} (hy : y = Mail.stamp (k.pid k.sched.current) dest x) :
      Exec k q rest (.copyMsg dest x)
        { k with
          mail := k.mail.copyMsg y
          code := .lock :: .linkMsg dest y.toMsgData k.mail.pFree :: .unlock ::
            (codeV (.msgSem dest) .send ++ rest) } q
  | linkMsg {dest : ℕ} {x : MsgData} {slot : ℕ} : Exec k q rest (.linkMsg dest x slot)
      { k with mail := k.mail.linkMsg dest, code := rest } q
  | recvHead {n : MailNode} (hn : (k.mail.links (.box k.sched.current)).next = some n) :
      Exec k q rest .recvHead
        { k with mail := k.mail.unlinkMsg n, code := .unlock :: .copyOut n :: rest } q
  | scanFirst {src : ℤ} {n : MailNode} (hn : (k.mail.links (.box k.sched.current)).next = some n) :
      Exec k q rest (.scanFirst src) { k with code := .scan src n :: rest } q
  /-- The scan is back at the list head. -/
  | scanEnd {src : ℤ} : Exec k q rest (.scan src (.box k.sched.current))
      { k with
        code := codeV (.msgSem k.sched.current) .giveBack ++
          .hlt :: (codeReceive k.sched.current src ++ rest) } q
  /-- The scan finds a message from `src`. -/
  | scanHit {src : ℤ} {n : MailNode} {x : Msg} (hx : k.mail.msgAt n = some x) (hsrc : x.src = src) :
      Exec k q rest (.scan src n) { k with code := .lock :: .recvNode n :: rest } q
  /-- The scan goes on. -/
  | scanNext {src : ℤ} {n n' : MailNode} {x : Msg} (hx : k.mail.msgAt n = some x) (hsrc : x.src ≠ src)
      (hn : (k.mail.links n).next = some n') :
      Exec k q rest (.scan src n) { k with code := .scan src n' :: rest } q
  | recvNode {n : MailNode} : Exec k q rest (.recvNode n)
      { k with mail := k.mail.unlinkMsg n, code := .unlock :: .copyOut n :: rest } q
  | copyOut {n : MailNode} {x : Msg} (hx : k.mail.msgAt n = some x) : Exec k q rest (.copyOut n)
      { k with inbox := Function.update k.inbox k.sched.current (some x), code := rest } q
  | hlt : Exec k q rest .hlt { k with code := rest } q

/-- The machine after `irq_handle`, entered with frame `fr`, and the return
into thread `c`. -/
def returnTo (k : Kernel) (fr : Frame) (c : ℕ) : Kernel :=
  { k with
    sched := { k.sched with current := c }
    tf := Function.update k.tf k.sched.current fr
    locked := Function.update k.locked k.sched.current k.lockCount
    lockCount := Function.update k.locked k.sched.current k.lockCount c
    flagIrq := false
    code := (Function.update k.tf k.sched.current fr c).code
    intf := (Function.update k.tf k.sched.current fr c).intf
    trap := none }

/-- The return from an interrupt changes nobody's context: it saves one and
loads another. -/
theorem own_returnTo {fr : Frame} (htrap : k.trap = some fr) {c : ℕ} (t : ℕ) :
    (k.returnTo fr c).own t = k.own t := by
  by_cases h1 : t = c
  · subst h1
    by_cases h2 : t = k.sched.current
    · simp [own, returnTo, h2, htrap]
    · simp [own, returnTo, h2]
  · by_cases h2 : t = k.sched.current
    · subst h2; simp [own, returnTo, h1, htrap]
    · simp [own, returnTo, h1, h2]

/-- What a step can do. -/
inductive Step (k : Kernel) (q : Node → List ℕ) : Action → Kernel → (Node → List ℕ) → Prop
  | exec {i : Instr} {rest : List Instr} {k' : Kernel} {q' : Node → List ℕ} (hc : k.code = i :: rest)
      (hx : Exec k q rest i k' q') : Step k q .exec k' q'
  /-- `schedule` picks the idle thread when nothing is ready, else a ready
  thread. -/
  | proc {fr : Frame} {c : ℕ} (hc : k.code = []) (ht : k.trap = some fr)
      (hcur : c = 0 ∧ q .ready = [] ∨ c ∈ q .ready) : Step k q .exec (k.returnTo fr c) q
  | call {c : Call} (hc : k.code = []) (ht : k.trap = none) :
      Step k q (.call c) { k with code := c.code k.sched.current } q
  | irq {hs : List Call} (hi : k.intf = true) (ht : k.trap = none) :
      Step k q (.irq hs)
        { k with
          trap := some ⟨k.code, k.intf⟩
          intf := false
          flagIrq := true
          code := hs.flatMap (Call.code k.sched.current) } q

variable {σ : SemId} {rest : List Instr}

theorem step_exec {i : Instr} (hc : k.code = i :: rest) : k.step .exec = k.execInstr rest i := by
  simp [Kernel.step, hc]

theorem mem_codeReceive {me : ℕ} {src : ℤ} {j : Instr} (hj : j ∈ codeReceive me src) :
    j = .lock ∨ j = .pTest (.msgSem me) ∨ j = .unlock ∨ j = .recvHead ∨ j = .scanFirst src := by
  unfold codeReceive codeP at hj
  split_ifs at hj
  · simp only [List.cons_append, List.nil_append, List.mem_cons, List.not_mem_nil, or_false] at hj
    tauto
  · simp only [List.cons_append, List.nil_append, List.mem_cons, List.not_mem_nil, or_false] at hj
    tauto

/-- The code that follows an instruction keeps to the contracts. -/
theorem Base.follow (hB : Base k q) {i : Instr} (hc : k.code = i :: rest) :
    ∀ j ∈ rest, InstrOk k.sched k.sched.current j ∧ (k.trap.isSome = true → HandlerInstr j) := by
  intro j hj
  have hm : j ∈ k.code := by rw [hc]; exact List.mem_cons_of_mem _ hj
  exact ⟨hB.code j hm, fun ht => ((hB.handler ht).2.2 j hm).1⟩

/-- An instruction a handler is not made of runs outside of one. -/
theorem Base.no_trap (hB : Base k q) {i : Instr} (hc : k.code = i :: rest) (hi : ¬ HandlerInstr i) :
    k.trap = none := by
  cases ht : k.trap with
  | none => rfl
  | some fr => exact absurd ((hB.handler (by rw [ht]; rfl)).2.2 i (by rw [hc]; simp)).1 hi

theorem Base.wakes_of_mem (hB : Base k q) (hσ : k.sched.inited σ = true) {i : ℕ} {r : List ℕ}
    (hq : q (.sem σ) = i :: r) : k.wakes σ = true := by
  have hl : k.sched.Live (.sem σ) := hσ
  have hne : listEmpty (.sem σ) k.sched.links = false := by
    rw [Bool.eq_false_iff]
    intro he
    rw [hB.sched.listEmpty_iff hl, hq] at he
    cases he
  have hb := (hB.sched.bounds_of_mem (i := i) (h := .sem σ) (by rw [hq]; simp)).2
  have hp : Sched.inPool (some (.pcb i)) = true := by
    simp only [Sched.inPool, decide_eq_true_eq]
    omega
  rw [wakes, hne, hB.sched.next_head hl, hq]
  simpa using hp

theorem Base.not_thread_of_free (hB : Base k q) {t : ℕ} {r : List ℕ} (hq : q .free = t :: r) :
    ¬ k.Thread t :=
  hB.sched.not_thread_of_free (by rw [hq]; exact List.mem_cons_self)

theorem Base.wakes_of_empty (hB : Base k q) (hσ : k.sched.inited σ = true) (hq : q (.sem σ) = []) :
    k.wakes σ = false := by
  have hl : k.sched.Live (.sem σ) := hσ
  simp [wakes, (hB.sched.listEmpty_iff hl).mpr hq]

/-- The list head of the idle thread's semaphore is null: the list is not
empty, and its first element is not in the pool. -/
theorem Base.idleSem (hB : Base k q) :
    listEmpty (.sem (.msgSem 0)) k.sched.links = false ∧ (k.sched.links (.sem (.msgSem 0))).next = none ∧
      k.sched.V (.msgSem 0) = some k.sched ∧ k.wakes (.msgSem 0) = false := by
  have hnull := hB.sched.idleSem
  exact ⟨by simp [listEmpty, hnull], by rw [hnull], hB.sched.V_idle, by simp [wakes, hnull, Sched.inPool]⟩

theorem Base.exec_pTest (hB : Base k q) (hc : k.code = .pTest σ :: rest) (hok : k.Ok .exec)
    (h : k.execInstr rest (.pTest σ) = some k') : ∃ q', Exec k q rest (.pTest σ) k' q' := by
  have hσ : k.sched.inited σ = true := hB.code (.pTest σ) (by rw [hc]; simp)
  simp only [execInstr] at h
  rcases hB.sched.P_cases hσ (by simpa only [Ok, execOk, hc, decide_eq_true_eq] using hok) with ⟨ht, hP, -⟩ | ⟨ht, h0, hP, -⟩
  · rw [if_pos ht, Option.some.injEq, hP] at h
    subst h
    exact ⟨_, .take hσ ht⟩
  · rw [if_neg (by omega), Option.some.injEq, hP] at h
    subst h
    exact ⟨_, .block hσ ht h0⟩

theorem Base.exec_vTest (hB : Base k q) {site : VSite} (hc : k.code = .vTest σ site :: rest)
    (h : k.execInstr rest (.vTest σ site) = some k') : ∃ q', Exec k q rest (.vTest σ site) k' q' := by
  simp only [execInstr, Option.map_eq_some_iff] at h
  obtain ⟨s, hV, h⟩ := h
  by_cases hσ : k.sched.inited σ = true
  · rcases hB.sched.V_cases hσ hV with ⟨hq, rfl, -⟩ | ⟨i, r, hq, hcr, hst, rfl, -⟩
    · rw [hB.wakes_of_empty hσ hq, if_neg (by simp)] at h
      subst h
      exact ⟨_, .raise hσ hq⟩
    · rw [hB.wakes_of_mem hσ hq, if_pos rfl] at h
      subst h
      exact ⟨_, .wake hσ hq hcr hst⟩
  · have h0 : σ = .msgSem 0 := (hB.code (.vTest σ site) (by rw [hc]; simp)).resolve_left hσ
    subst h0
    obtain ⟨-, -, hV0, hw⟩ := hB.idleSem
    rw [hV0, Option.some.injEq] at hV
    rw [hw, if_neg (by simp), ← hV] at h
    subst h
    exact ⟨_, .drop (by simpa using hσ)⟩

theorem Base.exec_kthread (hB : Base k q) (h : k.execInstr rest .kthread = some k') :
    ∃ q', Exec k q rest .kthread k' q' := by
  simp only [execInstr, Option.map_eq_some_iff] at h
  obtain ⟨⟨i, s⟩, hs, rfl⟩ := h
  obtain ⟨hI, hi, hcur⟩ := hB.sched.createKthread hs
  have hn := hB.sched.next_head (h := .free) trivial
  cases hq : q .free with
  | nil => rw [hq] at hi; cases hi
  | cons j r =>
    unfold Sched.createKthread at hs
    rw [hn, hq] at hs
    simp only [List.map_cons, List.headD_cons, Option.some.injEq, Prod.mk.injEq] at hs
    obtain ⟨rfl, rfl⟩ := hs
    exact ⟨_, .kthread hI hq ((hB.sched.free j).mp hi).2 hcur rfl rfl rfl⟩

/-- An instruction does what `Exec` says. -/
theorem Base.exec_cases (hB : Base k q) {i : Instr} (hc : k.code = i :: rest) (hok : k.Ok .exec)
    (h : k.step .exec = some k') : ∃ q', Exec k q rest i k' q' := by
  rw [step_exec hc] at h
  have hi := hB.code i (by rw [hc]; simp)
  cases i with
  | pTest σ => exact hB.exec_pTest hc hok h
  | vTest σ site => exact hB.exec_vTest hc h
  | kthread => exact hB.exec_kthread h
  | int80 =>
    have ht := hB.no_trap hc id
    rw [execInstr, ht, if_neg (by simp), Option.some.injEq] at h
    subst h
    exact ⟨_, .int80 ht⟩
  | semInit a v =>
    rw [execInstr, Option.some.injEq] at h
    subst h
    exact ⟨_, .semInit (by simpa [Ok, execOk, hc] using hok)⟩
  | wakeupTest i =>
    have hb := (hB.sched.bounds i hi).2
    rw [execInstr, if_pos (by simp only [Sched.inPool, decide_eq_true_eq]; omega)] at h
    split at h
    · rename_i hst
      rw [Option.some.injEq] at h
      subst h
      exact ⟨_, .wakeupTest hst⟩
    · cases h
  | copyMsg dest x =>
    rw [execInstr, Option.some.injEq] at h
    subst h
    exact ⟨_, .copyMsg rfl⟩
  | recvHead =>
    rw [execInstr, Option.map_eq_some_iff] at h
    obtain ⟨n, hn, rfl⟩ := h
    exact ⟨_, .recvHead hn⟩
  | scanFirst src =>
    rw [execInstr, Option.map_eq_some_iff] at h
    obtain ⟨n, hn, rfl⟩ := h
    exact ⟨_, .scanFirst hn⟩
  | scan src n =>
    rw [execInstr] at h
    split at h
    · rename_i hn
      rw [Option.some.injEq] at h
      subst h hn
      exact ⟨_, .scanEnd⟩
    · rw [Option.bind_eq_some_iff] at h
      obtain ⟨x, hx, h⟩ := h
      split at h
      · rename_i hsrc
        rw [Option.some.injEq] at h
        subst h
        exact ⟨_, .scanHit hx hsrc⟩
      · rename_i hsrc
        rw [Option.map_eq_some_iff] at h
        obtain ⟨n', hn', rfl⟩ := h
        exact ⟨_, .scanNext hx hsrc hn'⟩
  | copyOut n =>
    rw [execInstr, Option.map_eq_some_iff] at h
    obtain ⟨x, hx, rfl⟩ := h
    exact ⟨_, .copyOut hx⟩
  | lock | unlock | pWake | sleepOn | makeReady i | kthreadEnd i intr | linkMsg dest x slot
  | recvNode n | hlt =>
    rw [execInstr, Option.some.injEq] at h
    subst h
    exact ⟨_, by constructor⟩

/-- A step does what `Step` says. -/
theorem Base.step_cases (hB : Base k q) {a : Action} (hok : k.Ok a) (h : k.step a = some k') :
    ∃ q', Step k q a k' q' := by
  cases a with
  | exec =>
    cases hc : k.code with
    | cons i rest =>
      obtain ⟨q', hx⟩ := hB.exec_cases hc hok h
      exact ⟨q', .exec hc hx⟩
    | nil =>
      cases ht : k.trap with
      | none => simp [Kernel.step, hc, ht] at h
      | some fr =>
        obtain ⟨c, hs, hcur⟩ := hB.sched.schedule
        simp only [Kernel.step, hc, ht, proc, hs, Option.map_some, Option.some.injEq] at h
        subst h
        exact ⟨q, .proc hc ht hcur⟩
  | call c =>
    simp only [Kernel.step] at h
    split at h
    · rename_i hcode
      rw [Option.some.injEq] at h
      subst h
      exact ⟨q, .call hcode.1 hcode.2⟩
    · cases h
  | irq hs =>
    simp only [Kernel.step] at h
    split at h
    · rename_i hcode
      rw [Option.some.injEq] at h
      subst h
      exact ⟨q, .irq hcode.1 hcode.2⟩
    · cases h

/-! ### The invariant along a run -/

theorem Base.sem_ok (hB : Base k q) {dest : ℕ} (h : dest = 0 ∨ k.sched.created dest = true) :
    k.sched.inited (.msgSem dest) = true ∨ SemId.msgSem dest = .msgSem 0 := by
  rcases h with rfl | h
  · exact Or.inr rfl
  · exact Or.inl (hB.up dest h)

theorem Base.receive_ok (hB : Base k q) (h0 : k.sched.current ≠ 0) (src : ℤ) :
    ∀ j ∈ codeReceive k.sched.current src, InstrOk k.sched k.sched.current j := by
  have hup := hB.up _ (hB.current.resolve_left h0)
  intro j hj
  rcases mem_codeReceive hj with rfl | rfl | rfl | rfl | rfl
  · trivial
  · exact hup
  · trivial
  · exact h0
  · exact h0

theorem Base.call_ok (hB : Base k q) {c : Call} (h : k.CallOk c) :
    ∀ j ∈ c.code k.sched.current, InstrOk k.sched k.sched.current j := by
  intro j hj
  cases c with
  | receive src => exact hB.receive_ok h src j hj
  | P σ =>
    simp only [Call.code, codeP, List.mem_cons, List.not_mem_nil, or_false] at hj
    rcases hj with rfl | rfl | rfl
    · trivial
    · exact h
    · trivial
  | V σ =>
    simp only [Call.code, codeV, List.mem_cons, List.not_mem_nil, or_false] at hj
    rcases hj with rfl | rfl | rfl
    · trivial
    · exact Or.inl h
    · trivial
  | sleep =>
    simp only [Call.code, List.mem_cons, List.not_mem_nil, or_false] at hj
    rcases hj with rfl | rfl
    · trivial
    · exact h
  | createSem a v =>
    simp only [Call.code, List.mem_cons, List.not_mem_nil, or_false] at hj
    rcases hj with rfl | rfl | rfl <;> trivial
  | lock | unlock | wakeup i | createKthread | send dest x =>
    simp only [Call.code, List.mem_singleton] at hj
    subst hj
    exact h

/-- What a handler calls is made of handler instructions. -/
theorem handler_code {c : Call} (h : HandlerCall c) (me : ℕ) : ∀ j ∈ c.code me, HandlerInstr j := by
  intro j hj
  cases c with
  | V σ =>
    simp only [Call.code, codeV, List.mem_cons, List.not_mem_nil, or_false] at hj
    rcases hj with rfl | rfl | rfl <;> trivial
  | lock | unlock | send dest x =>
    simp only [Call.code, List.mem_singleton] at hj
    subst hj
    trivial
  | P σ | sleep | wakeup i | createSem a v | createKthread | receive src => exact h.elim

/-- What is left to execute after an instruction keeps to the contracts: what
the instruction adds (`new`) and what followed it. -/
theorem Base.pushed (hB : Base k q) {i : Instr} (hc : k.code = i :: rest) (new : List Instr)
    (hnew : ∀ j ∈ new, InstrOk k.sched k.sched.current j ∧ (k.trap.isSome = true → HandlerInstr j)) :
    ∀ j ∈ new ++ rest, InstrOk k.sched k.sched.current j ∧ (k.trap.isSome = true → HandlerInstr j) := by
  intro j hj
  rcases List.mem_append.mp hj with h | h
  · exact hnew j h
  · exact hB.follow hc j h

theorem Base.pushed_thread (hB : Base k q) {i : Instr} (hc : k.code = i :: rest) (ht : k.trap = none)
    (new : List Instr) (hnew : ∀ j ∈ new, InstrOk k.sched k.sched.current j) :
    ∀ j ∈ new ++ rest, InstrOk k.sched k.sched.current j ∧ (k.trap.isSome = true → HandlerInstr j) :=
  hB.pushed hc new fun j hj => ⟨hnew j hj, fun h => by rw [ht] at h; cases h⟩

/-- The code and flag of the context that is left when an interrupt comes. -/
theorem Base.enter (hB : Base k q) (fr : Frame) (ht : k.trap = none) (hfr : ∀ i ∈ fr.code, i ∈ k.code)
    (hk : k' = { k with trap := some fr, intf := false, flagIrq := true, code := k'.code })
    (hcode : ∀ i ∈ k'.code, HandlerInstr i ∧ InstrOk k.sched k.sched.current i) : Base k' q := by
  have hs : k'.sched = k.sched := by rw [hk]
  have hown : ∀ t, ∀ i ∈ (k'.own t).code, i ∈ (k.own t).code := by
    intro t i hi
    by_cases htc : t = k.sched.current
    · subst htc
      rw [← hs, own_current, hk] at hi
      rw [own_current, ht]
      exact hfr i hi
    · rw [own_of_ne (by rw [hs]; exact htc), hk] at hi
      rwa [own_of_ne htc]
  refine ⟨by rw [hs]; exact hB.sched, by rw [hs]; exact hB.up, fun t i hi => ?_, fun t htt => ?_,
    fun _ => ?_, fun h => ?_⟩
  · rw [hs]
    exact hB.own t i (hown t i hi)
  · have h0 := hB.fresh t fun h => htt (by unfold Thread; rwa [hs])
    refine List.eq_nil_iff_forall_not_mem.mpr fun i hi => ?_
    have hi' := hown t i hi
    rw [h0] at hi'
    cases hi'
  · rw [hs]
    exact ⟨by rw [hk], by rw [hk], hcode⟩
  · rw [hk] at h
    cases h

/-- `create_kthread` adds a thread with nothing to execute. -/
theorem Base.after_kthread (hB : Base k q) (hc : k.code = .kthread :: rest)
    (hx : Exec k q rest .kthread k' q') : Base k' q' := by
  have hnone := hB.no_trap hc id
  cases hx with
  | kthread hI hq hcr hcur hscr hin htok =>
    rename_i i r s
    have hg : Grow k.sched s := by
      refine ⟨fun j hj => ?_, fun σ hσ => ?_⟩
      · simp [hscr, Function.update_apply, hj]
      · simp [hin, Function.update_apply, hσ]
    refine hB.advance hI hg (fun j hj => ?_) hcur rfl rfl (fun t => ?_) ?_ (fun _ => rfl)
    · by_cases hji : j = i
      · right; simp [hji, hin]
      · left; simpa [hscr, Function.update_apply, hji] using hj
    · by_cases hti : t = i
      · right; simp [hti]
      · left; simp [hti]
    · intro j hj
      have h' := hB.pushed_thread hc hnone ([.unlock, .kthreadEnd i k.intf])
        (by simp [InstrOk]) j hj
      exact ⟨hcur ▸ h'.1.mono hg, h'.2⟩

/-- `send` has copied its message: the slot is to be linked, then comes its
`V`. -/
theorem Base.after_copyMsg (hB : Base k q) {dest : ℕ} {x : Msg} (hc : k.code = .copyMsg dest x :: rest)
    (hx : Exec k q rest (.copyMsg dest x) k' q') : Base k' q' := by
  have hi := hB.code (.copyMsg dest x) (by rw [hc]; simp)
  cases hx with
  | copyMsg hy =>
    rename_i y
    refine hB.advance_code rfl rfl rfl rfl (hB.pushed hc
      ([.lock, .linkMsg dest y.toMsgData k.mail.pFree, .unlock] ++ codeV (.msgSem dest) .send) ?_)
      (fun ht => hB.masked ht)
    simp only [codeV, List.cons_append, List.nil_append, List.mem_cons, List.not_mem_nil, or_false]
    rintro j (rfl | rfl | rfl | rfl | rfl | rfl)
    · exact ⟨trivial, fun _ => trivial⟩
    · exact ⟨hi, fun _ => trivial⟩
    · exact ⟨trivial, fun _ => trivial⟩
    · exact ⟨trivial, fun _ => trivial⟩
    · exact ⟨hB.sem_ok hi, fun _ => trivial⟩
    · exact ⟨trivial, fun _ => trivial⟩

theorem Base.exec (hB : Base k q) {i : Instr} (hc : k.code = i :: rest) (hx : Exec k q rest i k' q') :
    Base k' q' := by
  have hi := hB.code i (by rw [hc]; simp)
  have hr := hB.follow hc
  have hmask : k.trap.isSome = true → k.intf = false := fun ht => hB.masked ht
  have hnt : ∀ {p : Prop}, ¬ HandlerInstr i → k.trap.isSome = true → p := fun hn ht => by
    rw [hB.no_trap hc hn] at ht
    cases ht
  cases hx with
  | lock => exact hB.advance_code rfl rfl rfl rfl hr (fun _ => rfl)
  | unlock =>
    refine hB.advance_code rfl rfl rfl rfl hr fun ht => ?_
    -- inside `irq_handle` the first test of `unlock` returns
    simp only [(hB.handler ht).2.1, if_true]
    exact hB.masked ht
  | take hσ htok =>
    exact hB.advance (hB.sched.set_token _) ⟨fun _ h => h, fun _ h => h⟩ (fun _ => Or.inl) rfl rfl rfl
      (fun _ => Or.inl rfl) hr hmask
  | block hσ htok h0 =>
    have hI := hB.sched.sleepOn (h := .sem _) h0 hσ (Or.inr ⟨_, rfl⟩)
    exact hB.advance hI ⟨fun _ h => h, fun _ h => h⟩ (fun _ => Or.inl) rfl rfl rfl (fun _ => Or.inl rfl)
      (hB.pushed_thread hc (hB.no_trap hc id) ([.unlock, .int80, .pWake]) (by simp [InstrOk]))
      (fun _ => rfl)
  | raise hσ hq =>
    exact hB.advance (hB.sched.set_token _) ⟨fun _ h => h, fun _ h => h⟩ (fun _ => Or.inl) rfl rfl rfl
      (fun _ => Or.inl rfl) hr hmask
  | wake hσ hq hcr hst =>
    exact hB.advance (hB.sched.makeReady hcr) ⟨fun _ h => h, fun _ h => h⟩ (fun _ => Or.inl) rfl rfl rfl
      (fun _ => Or.inl rfl) (hB.pushed hc ([.unlock]) (by simp [InstrOk, HandlerInstr]))
      (fun _ => rfl)
  | sleepOn =>
    have hI := hB.sched.sleepOn (h := .block) hi trivial (Or.inl rfl)
    exact hB.advance hI ⟨fun _ h => h, fun _ h => h⟩ (fun _ => Or.inl) rfl rfl rfl (fun _ => Or.inl rfl)
      (hB.pushed_thread hc (hB.no_trap hc id) ([.unlock, .int80]) (by simp [InstrOk])) hmask
  | int80 ht =>
    refine hB.enter (⟨rest, k.intf⟩) ht (fun j hj => ?_) rfl (by simp)
    rw [hc]
    exact List.mem_cons_of_mem _ hj
  | makeReady =>
    exact hB.advance (hB.sched.makeReady hi) ⟨fun _ h => h, fun _ h => h⟩ (fun _ => Or.inl) rfl rfl rfl
      (fun _ => Or.inl rfl) hr hmask
  | semInit hσ =>
    rename_i a v
    have hd : q (.sem (.user a)) = [] := hB.sched.dead _ (by simp [Sched.Live, hσ])
    have hg : Grow k.sched (k.sched.createSem (.user a) v) := by
      refine ⟨fun _ h => h, fun σ h => ?_⟩
      simp only [Sched.createSem, Function.update_apply]
      split_ifs
      · rfl
      · exact h
    exact hB.advance (hB.sched.createSem hd (by simp)) hg (fun _ => Or.inl) rfl rfl rfl
      (fun _ => Or.inl rfl) (fun j hj => ⟨(hr j hj).1.mono hg, (hr j hj).2⟩) hmask
  | kthread => exact hB.after_kthread hc (by constructor <;> assumption)
  | wakeupTest hst =>
    refine hB.advance_code rfl rfl rfl rfl (hB.pushed_thread hc (hB.no_trap hc id)
      ([.lock, .makeReady _, .unlock]) ?_) hmask
    simp only [List.mem_cons, List.not_mem_nil, or_false]
    rintro j (rfl | rfl | rfl)
    · trivial
    · exact hi
    · trivial
  | copyMsg hy => exact hB.after_copyMsg hc (.copyMsg hy)
  | scanEnd =>
    rename_i src
    have hup := hB.up _ (hB.current.resolve_left hi)
    refine hB.advance_code rfl rfl rfl rfl ?_ hmask
    have h' := hB.pushed_thread hc (hB.no_trap hc id) (codeV (.msgSem k.sched.current) .giveBack ++
      .hlt :: codeReceive k.sched.current src) ?_
    · simpa using h'
    · simp only [codeV, List.cons_append, List.nil_append, List.mem_cons]
      rintro j (rfl | rfl | rfl | rfl | hj)
      · trivial
      · exact Or.inl hup
      · trivial
      · trivial
      · exact hB.receive_ok hi src j hj
  | scanHit hx hsrc =>
    refine hB.advance_code rfl rfl rfl rfl (hB.pushed_thread hc (hB.no_trap hc id)
      ([.lock, .recvNode _]) ?_) hmask
    simp only [List.mem_cons, List.not_mem_nil, or_false]
    rintro j (rfl | rfl)
    · trivial
    · exact hi
  | scanFirst hn | scanNext hx hsrc hn =>
    refine hB.advance_code rfl rfl rfl rfl (hB.pushed_thread hc (hB.no_trap hc id)
      ([.scan _ _]) ?_) hmask
    simp only [List.mem_singleton]
    rintro j rfl
    exact hi
  | recvHead hn | recvNode =>
    exact hB.advance_code rfl rfl rfl rfl (hB.pushed_thread hc (hB.no_trap hc id)
      ([.unlock, .copyOut _]) (by simp [InstrOk])) hmask
  | kthreadEnd => exact hB.advance_code rfl rfl rfl rfl hr (hnt id)
  | pWake => exact hB.advance_code rfl rfl rfl rfl hr (fun _ => rfl)
  | drop | linkMsg | copyOut | hlt => exact hB.advance_code rfl rfl rfl rfl hr hmask

/-- **The invariant holds along every run.** -/
theorem Base.of_step (hB : Base k q) {a : Action} (hok : k.Ok a) (hx : Step k q a k' q') : Base k' q' := by
  cases hx with
  | exec hc hx => exact hB.exec hc hx
  | proc hc ht hcur =>
    rename_i fr c
    have hc' : c = 0 ∨ k.sched.created c = true :=
      hcur.imp And.left fun hm => ((hB.sched.ready c).mp hm).1
    have hown : ∀ t, (k.returnTo fr c).own t = k.own t := own_returnTo ht
    refine ⟨hB.sched.set_current hc', hB.up, fun t i hi => ?_, fun t htt => ?_, fun h => ?_, fun _ => rfl⟩
    · rw [hown t] at hi
      exact hB.own t i hi
    · rw [hown t]
      exact hB.fresh t htt
    · cases h
  | call hc ht =>
    have hnt : ¬ k.trap.isSome = true := by rw [ht]; simp
    exact hB.advance_code rfl rfl rfl rfl
      (fun j hj => ⟨hB.call_ok hok j hj, fun h => absurd h hnt⟩) (fun h => absurd h hnt)
  | irq hi ht =>
    refine hB.enter (⟨k.code, k.intf⟩) ht (fun _ h => h) rfl fun j hj => ?_
    obtain ⟨c, hcm, hj⟩ := List.mem_flatMap.mp hj
    exact ⟨handler_code (hok c hcm).1 _ j hj, hB.call_ok (hok c hcm).2 j hj⟩

theorem own_boot (b : Bool) (t : ℕ) : ((boot b).own t).code = [] := by
  unfold own
  split <;> rfl

theorem base_boot (b : Bool) : Base (boot b) Sched.initQ := by
  refine ⟨Sched.inv_initProc, fun i hi => ?_, fun t i hi => ?_, fun t _ => own_boot b t, fun h => ?_, fun _ => rfl⟩
  · simp [boot, start, Sched.initProc, Sched.zero] at hi
  · rw [own_boot] at hi
    cases hi
  · cases h

end Kernel
end NanoOS
