/-
# Threads, drivers and their mailboxes

Any number of threads call `dev_read` and `dev_write`; the drivers receive
their requests, do what these ask for and send the replies; interrupt handlers
send their messages to the terminal and the disk driver; other threads
exchange messages of their own. Mailboxes are queues, from which `receive`
takes the oldest message, or the oldest one from a given sender.

A step is what one party does up to its next `send` or `receive`. A panic or a
failed assertion ends the run. The thread of the disk driver is the machine of
`NanoOS.Drivers.Ide.Thread`, which has its own mailbox.

Key definitions: `Setup`, `System`, `System.fire`, `Ok`, `traceStep`.
-/
import NanoOS.Lib.Rpc
import NanoOS.Drivers.Plain
import NanoOS.Drivers.Ide.Thread
import NanoOS.Drivers.Tty.Ttyd

namespace NanoOS

/-- What `send` does to the message: it sets `dest`, and `src` if that is 0. -/
def MsgData.stamp (me dest : ℤ) (m : MsgData) : MsgData :=
  { m with dest := dest, src := if m.src = 0 then me else m.src }

namespace Hal

open Trans Queue

/-- The driver threads. -/
inductive Driver
  | plain (k : Plain)
  | hda
  | tty
  deriving DecidableEq

/-- All of them. -/
def Driver.all : List Driver :=
  [.plain .null, .plain .zero, .plain .random, .plain .ram, .plain .mem, .plain .kmem, .hda, .tty]

theorem Driver.mem_all (d : Driver) : d ∈ Driver.all := by
  cases d with
  | plain k => cases k <;> decide
  | hda => decide
  | tty => decide

/-- What `init_driver` has fixed: the pids of the drivers and of the timer
thread, and the address of `file` in `ramdisk.c`. -/
structure Setup where
  pid : Driver → ℤ
  timer : ℤ
  file : ℤ
  injective : Function.Injective pid
  positive : ∀ d, 0 < pid d
  timer_ne : ∀ d, pid d ≠ timer

namespace Setup

variable (P : Setup)

/-- The devices, in the order of their registration. -/
def devices : List Dev :=
  [⟨"timer", P.timer, 0⟩, ⟨"tty1", P.pid .tty, 0⟩, ⟨"tty2", P.pid .tty, 1⟩, ⟨"tty3", P.pid .tty, 2⟩,
    ⟨"tty4", P.pid .tty, 3⟩, ⟨"hda", P.pid .hda, 0⟩, ⟨"mem", P.pid (.plain .mem), 0⟩,
    ⟨"kmem", P.pid (.plain .kmem), 0⟩, ⟨"null", P.pid (.plain .null), 0⟩, ⟨"zero", P.pid (.plain .zero), 0⟩,
    ⟨"random", P.pid (.plain .random), 0⟩, ⟨"ram", P.pid (.plain .ram), 0⟩]

/-- The pid of a driver. -/
def isDriver (x : ℤ) : Bool := Driver.all.any fun d => P.pid d = x

/-- A message of a driver. -/
def fromDriver (m : MsgData) : Bool := P.isDriver m.src

/-- The threads that may call `dev_read` and `dev_write`: all but the drivers
and the timer thread. -/
def Client (c : ℤ) : Prop := 0 ≤ c ∧ c ≠ P.timer ∧ P.isDriver c = false

instance : DecidablePred P.Client := fun _ => inferInstanceAs (Decidable (_ ∧ _ ∧ _))

end Setup

/-- `receive(src)` on a mailbox. -/
def receive (src : ℤ) (box : List MsgData) : Option (MsgData × List MsgData) :=
  takeFirst (fun x => src = anySrc || x.src = src) box

/-- The mailboxes but that of the disk driver; for every thread in `dev_rw`
the pid it waits for a message from; the messages the drivers are serving;
and the data of the drivers. -/
structure System where
  box : ℤ → List MsgData
  waiting : ℤ → Option ℤ
  hand : Driver → Option MsgData
  store : Store
  ide : Ide.Machine
  tty : Tty.Ttyd

/-- A request and the reply to it, if the step sends one. -/
abbrev Answered := Option (MsgData × MsgData)

/-- What happens between threads and drivers. -/
abbrev Event := Rpc.Event ℤ MsgData MsgData ℕ

/-- What happens next. -/
inductive Action
  /-- thread `c` calls `dev_read`; `data` is what is in the buffer -/
  | devRead (c : ℤ) (name : String) (reqPid buf offset len : ℤ) (data : ℕ → UInt8)
  /-- thread `c` calls `dev_write` -/
  | devWrite (c : ℤ) (name : String) (reqPid buf offset len : ℤ) (data : ℕ → UInt8)
  /-- the call of thread `c` returns -/
  | ret (c : ℤ)
  /-- another `send`, of a thread or an interrupt handler -/
  | send (me dest : ℤ) (m : MsgData)
  /-- another `receive`, of thread `c` -/
  | receive (c src : ℤ)
  /-- a thread writes to memory -/
  | write (mem : ℕ → BitVec 8)
  /-- IRQ 1 -/
  | sendKeymsg
  /-- IRQ 0, for the banner -/
  | sendUpdatemsg
  /-- IRQ 0, for the disk driver -/
  | timeIntr
  /-- IRQ 14 -/
  | ideIntr
  /-- a driver runs -/
  | plain (k : Plain)
  | tty (x : Tty.Input)
  | hda

namespace System

variable (P : Setup)

/-- The message arrives in the mailbox of `dest`. -/
def post (dest : ℤ) (m : MsgData) (data : ℕ → UInt8) (s : System) : System :=
  if dest = P.pid .hda then { s with ide := { s.ide with box := s.ide.box ++ [⟨m, data⟩] } }
  else { s with box := Function.update s.box dest (s.box dest ++ [m]) }

/-- `dev_rw`, up to its `receive`. -/
def devRw (type c : ℤ) (name : String) (reqPid buf offset len : ℤ) (data : ℕ → UInt8) (s : System) :
    Option (System × Option Event) :=
  if s.waiting c = none then
    (halGet name P.devices).map fun dev =>
      let m := (devRwMsg c type reqPid buf offset len dev).stamp c dev.pid
      ({ s.post P dev.pid m data with waiting := Function.update s.waiting c (some dev.pid) }, some (.called c m))
  else none

/-- The rest of `dev_rw`. -/
def ret (c : ℤ) (s : System) : Option (System × Option Event) :=
  (s.waiting c).bind fun src =>
    (receive src (s.box c)).map fun (m, box) =>
      ({ s with box := Function.update s.box c box, waiting := Function.update s.waiting c none },
        some (.returned c m.ret))

/-- `receive(ANY, &m)` of a driver. -/
def take (d : Driver) (s : System) : Option System :=
  (receive anySrc (s.box (P.pid d))).map fun (m, box) =>
    { s with box := Function.update s.box (P.pid d) box, hand := Function.update s.hand d (some m) }

/-- A step of a driver without interrupts. -/
def plain (k : Plain) (s : System) : Option (System × Answered) :=
  match s.hand (.plain k) with
  | none => (s.take P (.plain k)).map fun s => (s, none)
  | some m =>
    match k.thread P.file (P.pid (.plain k)) m s.store with
    | .ok (r, store) =>
      some ({ s with store := store, hand := Function.update s.hand (.plain k) none }, some (m, r))
    | .error _ => none

/-- A step of the terminal driver. -/
def ttyd (x : Tty.Input) (s : System) : Option (System × Answered) :=
  match s.hand .tty with
  | none => (s.take P .tty).map fun s => (s, none)
  | some m =>
    match s.tty.ttyd (P.pid .tty) x m with
    | .ok (t, o) =>
      some ({ s with tty := t, hand := Function.update s.hand .tty none },
        o.map fun rep => (s.tty.request m, rep.msg))
    | .error _ => none

/-- The reply the disk driver sends in its next step. -/
def ideAnswer (s : System) : Answered :=
  match s.ide.control with
  | .busy r (.done o) => o.reply.map fun m => (r.msg, m)
  | _ => none

/-- A step of the disk driver, or of one of its interrupt handlers. -/
def ideStep (a : Ide.Machine.Action) (s : System) : Option System :=
  (s.ide.step (P.pid .hda) a).bind fun i =>
    match i.control with
    | .panic _ => none
    | _ => some { s with ide := i }

/-- Driver `d` sends its reply. -/
def deliver (d : Driver) (p : System × Answered) : System × Option Event :=
  match p.2 with
  | none => (p.1, none)
  | some (m, r) => (p.1.post P r.dest (r.stamp (P.pid d) r.dest) fun _ => 0, some (.replied r.dest m r))

/-- A message of an interrupt handler to the terminal driver. -/
def hardIntr (type : ℤ) (s : System) : System :=
  s.post P (P.pid .tty) ⟨msgHardIntr, P.pid .tty, type, Vector.replicate 5 0⟩ fun _ => 0

/-- A step, and what happens between threads and drivers in it. -/
def fire (s : System) : Action → Option (System × Option Event)
  | .devRead c name reqPid buf offset len data => s.devRw P NanoOS.devRead c name reqPid buf offset len data
  | .devWrite c name reqPid buf offset len data => s.devRw P NanoOS.devWrite c name reqPid buf offset len data
  | .ret c => s.ret c
  | .send me dest m => some (s.post P dest (m.stamp me dest) fun _ => 0, none)
  | .receive c src =>
    if s.waiting c = none then
      (receive src (s.box c)).map fun (_, box) => ({ s with box := Function.update s.box c box }, none)
    else none
  | .write mem => some ({ s with store := { s.store with mem := mem } }, none)
  | .sendKeymsg => some (s.hardIntr P Tty.msgTtyGetkey, none)
  | .sendUpdatemsg => some (s.hardIntr P Tty.msgTtyUpdate, none)
  | .timeIntr => (s.ideStep P .tick).map fun s => (s, none)
  | .ideIntr => (s.ideStep P .irq).map fun s => (s, none)
  | .plain k => (s.plain P k).map (deliver P (.plain k))
  | .tty x => (s.ttyd P x).map (deliver P .tty)
  | .hda => (s.ideStep P .driver).map fun s' => deliver P .hda (s', s.ideAnswer)

/-- The step. -/
def step (s : System) (a : Action) : Option System := (s.fire P a).map Prod.fst

/-- The trace of a run grows by what happens between threads and drivers. -/
def record (s : System) (a : Action) (t : List Event) : List Event :=
  t ++ ((s.fire P a).bind Prod.snd).toList

/-- When the drivers start. -/
def boot (store : Store) (disk : ℕ → Ide.Sector) (cell : ℤ → Tty.Cell) : System where
  box := fun _ => []
  waiting := fun _ => none
  hand := fun _ => none
  store := store
  ide := Ide.Machine.boot disk
  tty := Tty.Ttyd.init cell

/-- What parties keep to. Requests are for the devices of the drivers here;
other threads and handlers do not write to the drivers, nor, but for messages
to the timer thread, in their names. -/
def Ok (_ : System × List Event) : Action → Prop
  | .devRead c name .. | .devWrite c name .. => P.Client c ∧ ∀ dev ∈ halGet name P.devices, P.isDriver dev.pid = true
  | .send me dest m =>
    P.isDriver dest = false ∧ (dest = P.timer ∨ P.isDriver (m.stamp me dest).src = false)
  | .receive c _ => P.isDriver c = false
  | _ => True

instance (P : Setup) (p : System × List Event) : DecidablePred (Ok P p)
  | .devRead c name _ _ _ _ _ | .devWrite c name _ _ _ _ _ =>
    inferInstanceAs (Decidable (P.Client c ∧ ∀ dev ∈ halGet name P.devices, P.isDriver dev.pid = true))
  | .send me dest m => inferInstanceAs (Decidable
      (P.isDriver dest = false ∧ (dest = P.timer ∨ P.isDriver (m.stamp me dest).src = false)))
  | .receive c _ => inferInstanceAs (Decidable (P.isDriver c = false))
  | .ret _ | .write _ | .sendKeymsg | .sendUpdatemsg | .timeIntr | .ideIntr | .plain _ | .tty _ | .hda =>
    inferInstanceAs (Decidable True)

/-- The system with its trace. -/
abbrev traceStep : System × List Event → Action → Option (System × List Event) := withHistory (step P) (record P)

/-! ### Where requests and replies are -/

/-- The requests a driver has: in its mailbox, in its hands, or waiting for a
line. -/
def load (s : System) : Driver → Multiset MsgData
  | .plain k => Tty.requests (s.box (P.pid (.plain k)) ++ (s.hand (.plain k)).toList)
  | .tty => Tty.requests (s.box (P.pid .tty) ++ (s.hand .tty).toList) + s.tty.held
  | .hda => Tty.requests ((s.ide.box ++ s.ide.service).map Ide.Request.msg)

/-- Those of thread `c` among them. -/
def of (c : ℤ) (l : Multiset MsgData) : Multiset MsgData := l.filter fun m => m.src = c

/-- The requests of thread `c` that the drivers have. -/
def pending (s : System) (c : ℤ) : Multiset MsgData := (Driver.all.map fun d => of c (s.load P d)).sum

/-- The messages of drivers in the mailbox of thread `c`. -/
def inbox (s : System) (c : ℤ) : List MsgData := (s.box c).filter P.fromDriver

end System
end Hal
end NanoOS
