/-
# The scheduler's data and its operations

`process/util.c`, `process/lock.c` and `process/schedule.c` keep every PCB of
`pcb_pool` but the idle one in a circular list through its `list` field: in
`free`, `ready`, `block`, or the `block` list of a semaphore. This module
embeds the operations that move PCBs between these lists, each as the part of
it that runs with interrupts disabled (from a `cli` to the first point where
interrupts may be on again): `create_kthread` up to the `unlock` of its
`create_sem`, `sleep` and `sleep_sem` up to their `unlock`, `wakeup`, the
bodies of `P` and `V`, and `schedule`. What happens around them
(`lock_count`, the interrupt flag, the trap into the scheduler) is in
`NanoOS.Kernel.Machine`.

`none` is a failed assertion: the kernel panics and does not go on.
-/
import NanoOS.Adt.List

namespace NanoOS

open Ringlist

/-- `PCB_POOL_SIZE`. -/
def pcbPoolSize : ℕ := 2048

/-- `STAT_READY` (0) and `STAT_SLEEPING` (1). -/
inductive ProcStat
  | ready
  | sleeping
  deriving DecidableEq

/-- The semaphores: `pcb_pool[i].msg_sem`, and those declared elsewhere. -/
inductive SemId
  | msgSem (i : ℕ)
  | user (a : ℕ)
  deriving DecidableEq

/-- The `ListHead`s the scheduler uses: the three list heads, the `block`
field of a semaphore, and `pcb_pool[i].list`. -/
inductive Node
  | ready
  | block
  | free
  | sem (s : SemId)
  | pcb (i : ℕ)
  deriving DecidableEq

/-- The scheduler's memory. `created` and `inited` are history: which PCBs
`create_kthread` has handed out and which semaphores `create_sem` has set up. -/
structure Sched where
  links : Heap Node
  token : SemId → ℤ
  stat : ℕ → ProcStat
  current : ℕ
  created : ℕ → Bool
  inited : SemId → Bool

namespace Sched

/-- The zero-initialised memory the kernel starts with. -/
def zero : Sched where
  links := fun _ => ⟨none, none⟩
  token := fun _ => 0
  stat := fun _ => .ready
  current := 0
  created := fun _ => false
  inited := fun _ => false

/-- `init_proc`, its scheduler part: the three lists, then `pcb_pool[1]` to
`pcb_pool[PCB_POOL_SIZE - 1]` into `free`. -/
def initProc (s : Sched) : Sched :=
  let m := listInit .free (listInit .block (listInit .ready s.links))
  { s with links := (List.range' 1 (pcbPoolSize - 1)).foldl (fun m i => listAddBefore .free (.pcb i) m) m }

/-- `create_sem`. -/
def createSem (σ : SemId) (value : ℤ) (s : Sched) : Sched :=
  { s with
    links := listInit (.sem σ) s.links
    token := Function.update s.token σ value
    inited := Function.update s.inited σ true }

/-- `create_kthread`: the first free PCB goes to `block`, asleep, with an
empty `msg_sem`. -/
def createKthread (s : Sched) : Option (ℕ × Sched) :=
  match (s.links .free).next with
  | some (.pcb i) =>
    some (i, createSem (.msgSem i) 0
      { s with
        links := listAddBefore .block (.pcb i) (listDel (.pcb i) s.links)
        stat := Function.update s.stat i .sleeping
        created := Function.update s.created i true })
  | _ => none -- assert(free.next != &free)

/-- The common body of `sleep` and `sleep_sem`: the current thread goes to
the end of `list`. -/
def sleepOn (list : Node) (s : Sched) : Sched :=
  { s with
    links := listAddBefore list (.pcb s.current) (listDel (.pcb s.current) s.links)
    stat := Function.update s.stat s.current .sleeping }

/-- `sleep`, up to its `unlock`. -/
def sleep (s : Sched) : Sched := sleepOn .block s

/-- `sleep_sem`, up to its `unlock`. -/
def sleepSem (σ : SemId) (s : Sched) : Sched := sleepOn (.sem σ) s

/-- The body of `wakeup` between its `lock` and `unlock`. -/
def makeReady (i : ℕ) (s : Sched) : Sched :=
  { s with
    links := listAddBefore .ready (.pcb i) (listDel (.pcb i) s.links)
    stat := Function.update s.stat i .ready }

/-- The range check at the top of `wakeup` lets `p` through: `p` is not
before `pcb_pool[0]` and not after `pcb_pool[PCB_POOL_SIZE]`. The list heads
and the semaphores outside the PCBs are not in the pool; the `msg_sem` of a
PCB lies inside it, though it is no PCB. -/
def inPool : Option Node → Bool
  | some (.pcb i) => i ≤ pcbPoolSize
  | some (.sem (.msgSem i)) => i < pcbPoolSize
  | _ => false

/-- `wakeup`. A pointer that passes the check without being a PCB is read as
one: nothing is known of what follows. -/
def wakeup (p : Option Node) (s : Sched) : Option Sched :=
  if inPool p then
    match p with
    | some (.pcb i) => if s.stat i = .sleeping then some (makeReady i s) else none
    | _ => none
  else some s

/-- `P` between its `lock` and the trap or its `unlock`. -/
def P (σ : SemId) (s : Sched) : Sched :=
  if 0 < s.token σ then { s with token := Function.update s.token σ (s.token σ - 1) }
  else sleepSem σ s

/-- `V` between its `lock` and `unlock`. -/
def V (σ : SemId) (s : Sched) : Option Sched :=
  if listEmpty (.sem σ) s.links then
    some { s with token := Function.update s.token σ (s.token σ + 1) }
  else wakeup (s.links (.sem σ)).next s

/-- `current = (PCB*) p`. -/
def setCurrent (p : Option Node) (s : Sched) : Option Sched :=
  match p with
  | some (.pcb i) => some { s with current := i }
  | _ => none

/-- `schedule`. -/
def schedule (s : Sched) : Option Sched :=
  if listEmpty .ready s.links then some { s with current := 0 }
  else if s.current = 0 then setCurrent (s.links .ready).next s
  else if s.stat s.current = .sleeping then setCurrent (s.links .ready).next s
  else if (s.links (.pcb s.current)).next = some .ready then setCurrent (s.links .ready).next s
  else setCurrent (s.links (.pcb s.current)).next s

end Sched

end NanoOS
