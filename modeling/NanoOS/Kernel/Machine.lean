/-
# The kernel as a preemptible machine

Threads and interrupt handlers run the kernel's calls: `lock`, `unlock`, `P`,
`V`, `sleep`, `wakeup`, `create_sem`, `create_kthread`, `send`, `receive`. A
call is a list of instructions, and an instruction is a piece of it that no
interrupt can split: it starts where interrupts are disabled or is a single
access. Between two instructions an interrupt may come whenever the interrupt
flag is set.

The machine has one CPU: the instructions it is about to execute (`code`), the
interrupt flag (`intf`), and, inside `irq_handle`, the trap frame it was
entered with (`trap`). A frame holds what the interrupted context does next
and its flag. `irq_handle` runs the registered routines and then its `PROC`
part: it saves `tf` and `lock_count` in the PCB of the current thread, calls
`schedule` and restores those of the new one; `asm_do_irq` then returns into
the frame of the new thread. `int $0x80` enters at `PROC` directly.

A thread that is between two calls may make any call next, so a machine run
is a run of arbitrary threads. Inside `irq_handle` the flag is clear
(`Base.masked` in `NanoOS.Kernel.Base`), so a nested entry is not represented.

Instructions that end a critical section of the source are kept apart
(`unlock`), since they are what may set the flag again. `hlt` goes on at once:
that it waits for an interrupt only leaves out runs.
-/
import NanoOS.Process.Sched
import NanoOS.Process.Message

namespace NanoOS

/-- The three places that call `V`: a thread or handler itself, the end of
`send`, and a selective `receive` that found nothing. -/
inductive VSite
  | call
  | send
  | giveBack
  deriving DecidableEq

/-- The instructions. -/
inductive Instr
  /-- `lock()`: `cli(); lock_count++`. -/
  | lock
  /-- `unlock()`. -/
  | unlock
  /-- `P` after its `lock()`: take a token, or go to sleep up to the `unlock()`
  of `sleep_sem`. -/
  | pTest (σ : SemId)
  /-- `P` after `sleep_sem`: `cli(); lock_flag &= 0xfffffffd`. -/
  | pWake
  /-- `V` after its `lock()`: raise the token, or `wakeup` up to its `unlock()`. -/
  | vTest (σ : SemId) (site : VSite)
  /-- `sleep` after its `lock()`. -/
  | sleepOn
  /-- `int $0x80`. -/
  | int80
  /-- `wakeup` before its `lock()`. -/
  | wakeupTest (i : ℕ)
  /-- `wakeup` after its `lock()`. -/
  | makeReady (i : ℕ)
  /-- `create_sem` after its `lock()`. -/
  | semInit (a : ℕ) (v : ℤ)
  /-- `create_kthread` up to the `unlock()` of its `create_sem`. -/
  | kthread
  /-- The rest of `create_kthread`, with the flag it read on entry. -/
  | kthreadEnd (i : ℕ) (intr : Bool)
  /-- `send` up to its `lock()`. -/
  | copyMsg (dest : ℕ) (x : Msg)
  /-- `send` after its `lock()`, with the message it was given and the slot it
  copied it to. -/
  | linkMsg (dest : ℕ) (x : MsgData) (slot : ℕ)
  /-- `receive(ANY)` after its `lock()`. -/
  | recvHead
  /-- The start of the `list_foreach` of `receive`. -/
  | scanFirst (src : ℤ)
  /-- One round of it, with the node it looks at. -/
  | scan (src : ℤ) (n : MailNode)
  /-- `receive(src)` after its `lock()`. -/
  | recvNode (n : MailNode)
  /-- `*m = *msg_to_rcv`. -/
  | copyOut (n : MailNode)
  /-- `wait_intr()`. -/
  | hlt
  deriving DecidableEq

/-- What a trap frame says of the interrupted context: what it executes next
(`eip` and the stack) and the interrupt flag (`eflags`). -/
structure Frame where
  code : List Instr
  intf : Bool
  deriving DecidableEq

/-- The kernel's memory and the CPU. -/
structure Kernel where
  sched : Sched
  mail : Mail
  /-- `lock_count`. -/
  lockCount : ℤ
  /-- `lock_flag & 0x1`: inside `irq_handle`. -/
  flagIrq : Bool
  /-- `lock_flag & 0x2`: "going to sleep". -/
  flagSleep : Bool
  /-- `pcb_pool[i].locked`. -/
  locked : ℕ → ℤ
  /-- `*pcb_pool[i].tf`. -/
  tf : ℕ → Frame
  /-- `pcb_pool[i].pid`. -/
  pid : ℕ → ℤ
  /-- The message variable of a thread's last `receive`. -/
  inbox : ℕ → Option Msg
  code : List Instr
  intf : Bool
  /-- Inside `irq_handle`: its argument `*tf`. -/
  trap : Option Frame

/-- The calls. -/
inductive Call
  | lock
  | unlock
  | P (σ : SemId)
  | V (σ : SemId)
  | sleep
  | wakeup (i : ℕ)
  | createSem (a : ℕ) (v : ℤ)
  | createKthread
  | send (dest : ℕ) (x : Msg)
  | receive (src : ℤ)
  deriving DecidableEq

/-- `P(s)`. -/
def codeP (σ : SemId) : List Instr := [.lock, .pTest σ, .unlock]

/-- `V(s)`. -/
def codeV (σ : SemId) (site : VSite) : List Instr := [.lock, .vTest σ site, .unlock]

/-- `receive(src, m)` of thread `me`; without a match it starts over. -/
def codeReceive (me : ℕ) (src : ℤ) : List Instr :=
  codeP (.msgSem me) ++ if src = anySrc then [.lock, .recvHead] else [.scanFirst src]

/-- The instructions of a call made while thread `me` is current. -/
def Call.code (me : ℕ) : Call → List Instr
  | .lock => [.lock]
  | .unlock => [.unlock]
  | .P σ => codeP σ
  | .V σ => codeV σ .call
  | .sleep => [.lock, .sleepOn]
  | .wakeup i => [.wakeupTest i]
  | .createSem a v => [.lock, .semInit a v, .unlock]
  | .createKthread => [.kthread]
  | .send dest x => [.copyMsg dest x]
  | .receive src => codeReceive me src

namespace Kernel

/-- The idle thread runs, with `sched` for the scheduler's data and everything
else as `init_proc` leaves it. -/
def start (sched : Sched) (intf : Bool) : Kernel where
  sched := sched
  mail := Mail.initBox 0 Mail.zero
  lockCount := 0
  flagIrq := false
  flagSleep := false
  locked := fun _ => 0
  tf := fun _ => ⟨[], false⟩
  pid := fun _ => 0
  inbox := fun _ => none
  code := []
  intf := intf
  trap := none

/-- The kernel after `init_proc`. -/
def boot (intf : Bool) : Kernel := start (Sched.initProc Sched.zero) intf

/-- `wakeup` inside `V` gets past the range check: there is a thread to wake. -/
def wakes (k : Kernel) (σ : SemId) : Bool :=
  !listEmpty (.sem σ) k.sched.links && Sched.inPool (k.sched.links (.sem σ)).next

/-- One instruction, with `rest` to follow it. -/
def execInstr (k : Kernel) (rest : List Instr) : Instr → Option Kernel
  | .lock => some { k with intf := false, lockCount := k.lockCount + 1, code := rest }
  | .unlock =>
    -- `if (lock_flag & 0x1) return; if (lock_flag & 0x2) sti(); if (lock_count) return; sti();`
    some { k with
      lockCount := k.lockCount - 1
      intf := if k.flagIrq then k.intf
        else if k.flagSleep then true
        else if k.lockCount - 1 = 0 then true
        else k.intf
      code := rest }
  | .pTest σ =>
    if 0 < k.sched.token σ then some { k with sched := k.sched.P σ, code := rest }
    else some { k with
      sched := k.sched.P σ
      flagSleep := true
      intf := false
      lockCount := k.lockCount + 1
      code := .unlock :: .int80 :: .pWake :: rest }
  | .pWake => some { k with intf := false, flagSleep := false, code := rest }
  | .vTest σ _ =>
    (k.sched.V σ).map fun s =>
      if k.wakes σ then
        { k with sched := s, intf := false, lockCount := k.lockCount + 1, code := .unlock :: rest }
      else { k with sched := s, code := rest }
  | .sleepOn => some { k with sched := k.sched.sleep, code := .unlock :: .int80 :: rest }
  | .int80 =>
    -- `asm_do_irq` clears the flag and `irq_handle` goes to `PROC`
    if k.trap.isSome then none
    else some { k with trap := some ⟨rest, k.intf⟩, intf := false, flagIrq := true, code := [] }
  | .wakeupTest i =>
    if Sched.inPool (some (.pcb i)) then
      if k.sched.stat i = .sleeping then
        some { k with code := .lock :: .makeReady i :: .unlock :: rest }
      else none
    else some { k with code := rest }
  | .makeReady i => some { k with sched := k.sched.makeReady i, code := rest }
  | .semInit a v => some { k with sched := k.sched.createSem (.user a) v, code := rest }
  | .kthread =>
    k.sched.createKthread.map fun r =>
      { k with
        sched := r.2
        mail := k.mail.initBox r.1
        tf := Function.update k.tf r.1 ⟨[], true⟩
        locked := Function.update k.locked r.1 0
        intf := false
        lockCount := k.lockCount + 1
        code := .unlock :: .kthreadEnd r.1 k.intf :: rest }
  | .kthreadEnd i intr =>
    some { k with
      pid := Function.update k.pid i i
      intf := if intr then true else k.intf
      code := rest }
  | .copyMsg dest x =>
    let y := Mail.stamp (k.pid k.sched.current) dest x
    some { k with
      mail := k.mail.copyMsg y
      code := .lock :: .linkMsg dest y.toMsgData k.mail.pFree :: .unlock ::
        (codeV (.msgSem dest) .send ++ rest) }
  | .linkMsg dest _ _ => some { k with mail := k.mail.linkMsg dest, code := rest }
  | .recvHead =>
    (k.mail.links (.box k.sched.current)).next.map fun n =>
      { k with mail := k.mail.unlinkMsg n, code := .unlock :: .copyOut n :: rest }
  | .scanFirst src =>
    (k.mail.links (.box k.sched.current)).next.map fun n => { k with code := .scan src n :: rest }
  | .scan src n =>
    if n = .box k.sched.current then
      some { k with
        code := codeV (.msgSem k.sched.current) .giveBack ++
          .hlt :: (codeReceive k.sched.current src ++ rest) }
    else
      (k.mail.msgAt n).bind fun x =>
        if x.src = src then some { k with code := .lock :: .recvNode n :: rest }
        else (k.mail.links n).next.map fun n' => { k with code := .scan src n' :: rest }
  | .recvNode n => some { k with mail := k.mail.unlinkMsg n, code := .unlock :: .copyOut n :: rest }
  | .copyOut n =>
    (k.mail.msgAt n).map fun x =>
      { k with inbox := Function.update k.inbox k.sched.current (some x), code := rest }
  | .hlt => some { k with code := rest }

/-- The end of `irq_handle`, entered with frame `fr`, and the return of
`asm_do_irq` into the thread `schedule` picked. -/
def proc (k : Kernel) (fr : Frame) : Option Kernel :=
  let tf := Function.update k.tf k.sched.current fr
  let locked := Function.update k.locked k.sched.current k.lockCount
  k.sched.schedule.map fun s =>
    { k with
      sched := s
      tf := tf
      locked := locked
      lockCount := locked s.current
      flagIrq := false
      code := (tf s.current).code
      intf := (tf s.current).intf
      trap := none }

/-- What can happen next. -/
inductive Action
  /-- The CPU executes its next instruction. -/
  | exec
  /-- The running thread, between two calls, makes a call. -/
  | call (c : Call)
  /-- A hardware interrupt, whose registered routines make the calls `hs`. -/
  | irq (hs : List Call)

/-- The step. A call or an interrupt that cannot happen now, and a failed
assertion, are `none`. -/
def step (k : Kernel) : Action → Option Kernel
  | .exec =>
    match k.code, k.trap with
    | i :: rest, _ => k.execInstr rest i
    | [], some fr => k.proc fr
    | [], none => none
  | .call c =>
    if k.code = [] ∧ k.trap = none then some { k with code := c.code k.sched.current } else none
  | .irq hs =>
    if k.intf = true ∧ k.trap = none then
      some { k with
        trap := some ⟨k.code, k.intf⟩
        intf := false
        flagIrq := true
        code := hs.flatMap (Call.code k.sched.current) }
    else none

/-! ### What callers keep to -/

/-- A call respects its contract: the semaphores it uses are set up, the
threads it names exist, and the idle thread neither sleeps nor receives. -/
def CallOk (k : Kernel) : Call → Prop
  | .P σ | .V σ => k.sched.inited σ = true
  | .wakeup i => k.sched.created i = true
  | .send dest _ => dest = 0 ∨ k.sched.created dest = true
  | .sleep | .receive _ => k.sched.current ≠ 0
  | .lock | .unlock | .createSem _ _ | .createKthread => True

/-- What an interrupt handler may call. -/
def HandlerCall : Call → Prop
  | .lock | .unlock | .V _ | .send _ _ => True
  | _ => False

/-- A semaphore is set up once, and the idle thread does not block in `P`. -/
def execOk (k : Kernel) : Bool :=
  match k.code with
  | .pTest σ :: _ => decide (k.sched.current = 0 → 0 < k.sched.token σ)
  | .semInit a _ :: _ => !k.sched.inited (.user a)
  | _ => true

/-- The actions the kernel's own code can take: calls keep to their contracts
and handlers call only what handlers may. -/
def Ok (k : Kernel) : Action → Prop
  | .call c => k.CallOk c
  | .irq hs => ∀ c ∈ hs, HandlerCall c ∧ k.CallOk c
  | .exec => k.execOk = true

instance (k : Kernel) : DecidablePred k.CallOk
  | .P σ | .V σ => inferInstanceAs (Decidable (k.sched.inited σ = true))
  | .wakeup i => inferInstanceAs (Decidable (k.sched.created i = true))
  | .send dest _ => inferInstanceAs (Decidable (dest = 0 ∨ k.sched.created dest = true))
  | .sleep | .receive _ => inferInstanceAs (Decidable (k.sched.current ≠ 0))
  | .lock | .unlock | .createSem _ _ | .createKthread => inferInstanceAs (Decidable True)

instance : DecidablePred HandlerCall
  | .lock | .unlock | .V _ | .send _ _ => inferInstanceAs (Decidable True)
  | .P _ | .sleep | .wakeup _ | .createSem _ _ | .createKthread | .receive _ =>
    inferInstanceAs (Decidable False)

instance (k : Kernel) : DecidablePred k.Ok
  | .call c => inferInstanceAs (Decidable (k.CallOk c))
  | .irq hs => inferInstanceAs (Decidable (∀ c ∈ hs, HandlerCall c ∧ k.CallOk c))
  | .exec => inferInstanceAs (Decidable (k.execOk = true))

/-- The context of thread `t`: what it executes next and its flag, wherever
they are kept. -/
def own (k : Kernel) (t : ℕ) : Frame :=
  if t = k.sched.current then k.trap.getD ⟨k.code, k.intf⟩ else k.tf t

/-- The threads: the idle one and those created so far. -/
def Thread (k : Kernel) (t : ℕ) : Prop := t = 0 ∨ k.sched.created t = true

end Kernel

end NanoOS
