/-
# The IDE thread, its mailbox and the disk

The driver waits for the disk by `receive(MSG_HARD_INTR)` inside
`disk_do_read` and `disk_do_write`, while requests of other threads, messages
of the timer and those of the disk come to the same mailbox. The machine here
runs the tasks of `NanoOS.Drivers.Ide.Task` a command at a time: the driver
issues one, the disk does it and raises its interrupt, and the wait loop ends
when the message of `ide_intr` is taken. The disk raises one interrupt for
each command and no others.

Key definitions: `Machine`, `Machine.step`, `record`, `Phase`, `Accounted`.
Key theorems: `Inv.step`, `Accounted.step`, `reach_inv`, `reach_accounted`.
-/
import NanoOS.Lib.Queue
import NanoOS.Drivers.Ide.Task

namespace NanoOS
namespace Ide

open Trans Queue

/-- `IDE_READY`. -/
def ideReady : ℤ := 1

/-- `WRITEBACK_TIME`. -/
def writebackTime : ℕ := 1

/-- `HZ`. -/
def hz : ℕ := 100

namespace Request

/-- From an interrupt handler. -/
def hardIntr (r : Request) : Bool := decide (r.msg.src = msgHardIntr)

/-- From a thread. -/
def client (r : Request) : Bool := !r.hardIntr

/-- From `ide_intr`. -/
def ready (r : Request) : Bool := r.hardIntr && decide (r.msg.type = ideReady)

/-- From `time_intr`. -/
def writeback (r : Request) : Bool := r.hardIntr && decide (r.msg.type = ideWriteback)

/-- `DEV_READ` or `DEV_WRITE` of a thread. -/
def Device (r : Request) : Prop := r.client = true ∧ (r.msg.type = devRead ∨ r.msg.type = devWrite)

instance (r : Request) : Decidable r.Device := inferInstanceAs (Decidable (_ ∧ _))

end Request

/-- A message of an interrupt handler. -/
def intr (ide type : ℤ) : Request := ⟨⟨msgHardIntr, ide, type, Vector.replicate 5 0⟩, fun _ => 0⟩

/-- Where the driver is. -/
inductive Control
  /-- at `receive(ANY, &m)` -/
  | loop
  /-- in the body of the loop, for message `r` -/
  | busy (r : Request) (t : Task)
  /-- in the wait loop for command `c` -/
  | wait (r : Request) (c : Command) (k : Drive → Task)
  | panic (p : Panic)

/-- In a wait loop. -/
def Control.waits : Control → Bool
  | wait _ _ _ => true
  | _ => false

/-- The mailbox of the IDE thread, the driver, memory and disk, the command
that the disk is at, and the counter of `time_intr`. -/
structure Machine where
  box : List Request
  control : Control
  drive : Drive
  outstanding : Option Command
  counter : ℕ

namespace Machine

variable (ide : ℤ)

/-- `init_ide`. -/
def boot (disk : ℕ → Sector) : Machine := ⟨[], .loop, (Drive.zero disk).cacheInit, none, 0⟩

/-- `counter` after a tick. -/
def nextCounter (s : Machine) : ℕ := (s.counter + 1) % (writebackTime * hz)

/-- `time_intr`. -/
def timeIntr (s : Machine) : Machine :=
  { s with
    counter := s.nextCounter
    box := if s.nextCounter = 0 then s.box ++ [intr ide ideWriteback] else s.box }

/-- `ide_intr`. -/
def ideIntr (s : Machine) : Machine := { s with box := s.box ++ [intr ide ideReady] }

/-- The disk does its command and raises IRQ 14. -/
def irq14 (s : Machine) : Option Machine :=
  s.outstanding.map fun c => ideIntr ide { s with outstanding := none, drive := c.perform s.drive }

/-- A step of the driver. It is `none` while it waits for a message, or for
the disk in `ide_prepare`, and after a panic. -/
def driver (s : Machine) : Option Machine :=
  match s.control with
  | .loop =>
    match s.box with
    | [] => none
    | r :: box =>
      match start ide r s.drive with
      | .ok t => some { s with box := box, control := .busy r t }
      | .error p => some { s with box := box, control := .panic p }
  | .busy _ (.done o) => some { s with control := .loop, drive := o.drive }
  | .busy r (.issue c d k) =>
    if s.outstanding.isNone then some { s with drive := d, outstanding := some c, control := .wait r c k } else none
  | .wait r c k =>
    match takeFirst Request.hardIntr s.box with
    | none => none
    | some (m, box) =>
      if m.msg.type = ideReady then some { s with box := box, control := .busy r (k s.drive) }
      else some { s with box := box, control := .wait r c k }
  | .panic _ => none

/-- What happens to the driver. -/
inductive Action
  /-- a request arrives -/
  | request (r : Request)
  /-- IRQ 0 -/
  | tick
  /-- IRQ 14 -/
  | irq
  /-- the thread runs -/
  | driver

/-- One step. -/
def step (s : Machine) : Action → Option Machine
  | .request r => some { s with box := s.box ++ [r] }
  | .tick => some (s.timeIntr ide)
  | .irq => s.irq14 ide
  | .driver => s.driver ide

/-- Threads send device requests. -/
def Admitted (_ : Machine) : Action → Prop
  | .request r => r.Device
  | _ => True

/-- The message that is being served. -/
def service (s : Machine) : List Request :=
  match s.control with
  | .busy r _ => [r]
  | .wait r _ _ => [r]
  | _ => []

end Machine

/-! ### What a run has done -/

/-- A message that was served. -/
structure Served where
  request : Request
  before : Drive
  outcome : Outcome

/-- What the disk and the driver do with a command. -/
inductive DiskEvent
  | issued (c : Command)
  | interrupt (c : Command)
  /-- the wait loop ends; for a read, the data is then transferred -/
  | returned (c : Command)

/-- The life of a command. -/
def Command.events (c : Command) : List DiskEvent := [.issued c, .interrupt c, .returned c]

/-- What has happened: the messages that arrived, those of the disk apart; the
messages served; memory and disk when the last message was taken; and the
events of the disk. -/
structure History where
  arrived : List Request
  served : List Served
  before : Drive
  disk : List DiskEvent

/-- Nothing has happened. -/
def History.init (d : Drive) : History := ⟨[], [], d, []⟩

/-- A step is recorded. -/
def record (ide : ℤ) (s : Machine) (a : Machine.Action) (g : History) : History :=
  match a with
  | .request r => { g with arrived := g.arrived ++ [r] }
  | .tick => if s.nextCounter = 0 then { g with arrived := g.arrived ++ [intr ide ideWriteback] } else g
  | .irq =>
    match s.outstanding with
    | some c => { g with disk := g.disk ++ [.interrupt c] }
    | none => g
  | .driver =>
    match s.control with
    | .loop => { g with before := s.drive }
    | .busy r (.done o) => { g with served := g.served ++ [⟨r, g.before, o⟩] }
    | .busy _ (.issue c _ _) => { g with disk := g.disk ++ [.issued c] }
    | .wait _ c _ =>
      match takeFirst Request.hardIntr s.box with
      | some (m, _) => if m.msg.type = ideReady then { g with disk := g.disk ++ [.returned c] } else g
      | none => g
    | .panic _ => g

/-- The machine with its history. -/
abbrev histStep (ide : ℤ) : Machine × History → Machine.Action → Option (Machine × History) :=
  withHistory (Machine.step ide) (record ide)

/-! ### Commands and their interrupts -/

namespace Request

variable {r : Request}

/-- What the mailbox holds: requests of threads, and messages of the two
handlers. -/
def Known (r : Request) : Prop := r.Device ∨ r.writeback = true ∨ r.ready = true

theorem ready_of_hardIntr (h : r.hardIntr = true) (ht : r.msg.type = ideReady) : r.ready = true := by
  unfold ready
  rw [h, ht]
  rfl

theorem not_ready_of_type (ht : r.msg.type ≠ ideReady) : r.ready = false := by
  unfold ready
  rw [decide_eq_false ht, Bool.and_false]

theorem Device.not_ready (h : r.Device) : r.ready = false := by
  have hc : r.hardIntr = false := by simpa [client] using h.1
  unfold ready
  rw [hc, Bool.false_and]

theorem ready_intr (ide : ℤ) : (intr ide ideReady).ready = true := rfl

theorem writeback_intr (ide : ℤ) : (intr ide ideWriteback).writeback = true := rfl

theorem writeback_not_ready (h : r.writeback = true) : r.ready = false := by
  unfold writeback at h
  rw [Bool.and_eq_true, decide_eq_true_iff] at h
  apply not_ready_of_type
  rw [h.2]
  decide

end Request

theorem start_ok (ide : ℤ) {r : Request} (d : Drive) (h : r.Device ∨ r.writeback = true) :
    ∃ t, start ide r d = .ok t ∧ serve ide r d = some t.run := by
  obtain ⟨t, ht⟩ : ∃ t, start ide r d = .ok t := by
    unfold start
    rcases h with ⟨hc, htype⟩ | hw
    · have hsrc : r.msg.src ≠ msgHardIntr := by
        simpa [Request.client, Request.hardIntr] using hc
      rw [if_neg hsrc]
      rcases htype with ht | ht
      · rw [if_pos ht]
        exact ⟨_, rfl⟩
      · rw [if_neg (show ¬ r.msg.type = devRead by rw [ht]; decide), if_pos ht]
        exact ⟨_, rfl⟩
    · rw [Request.writeback, Request.hardIntr, Bool.and_eq_true, decide_eq_true_iff, decide_eq_true_iff] at hw
      rw [if_pos hw.1, if_pos hw.2]
      exact ⟨_, rfl⟩
  refine ⟨t, ht, ?_⟩
  rw [start_run, ht]
  rfl

/-- How the driver, the disk and the messages of `ide_intr` stand to each
other; `cs` are the commands that are over. -/
inductive Phase (ide : ℤ) (s : Machine) (g : History) (cs : List Command) : Prop
  | loop (hc : s.control = .loop) (ho : s.outstanding = none) (hr : s.box.countP Request.ready = 0)
      (hd : g.disk = cs.flatMap Command.events)
  | busy (r : Request) (t : Task) (hc : s.control = .busy r t) (ho : s.outstanding = none)
      (hr : s.box.countP Request.ready = 0) (hd : g.disk = cs.flatMap Command.events)
      (hs : serve ide r g.before = some t.run)
  | issued (r : Request) (c : Command) (k : Drive → Task) (hc : s.control = .wait r c k)
      (ho : s.outstanding = some c) (hr : s.box.countP Request.ready = 0)
      (hd : g.disk = cs.flatMap Command.events ++ [.issued c])
      (hs : serve ide r g.before = some (k (c.perform s.drive)).run)
  | raised (r : Request) (c : Command) (k : Drive → Task) (hc : s.control = .wait r c k)
      (ho : s.outstanding = none) (hr : s.box.countP Request.ready = 1)
      (hd : g.disk = cs.flatMap Command.events ++ [.issued c, .interrupt c])
      (hs : serve ide r g.before = some (k s.drive).run)

namespace Phase

variable {ide : ℤ} {s : Machine} {g : History} {cs : List Command} {r : Request} {t : Task} {c : Command}
  {k : Drive → Task}

theorem of_loop (h : Phase ide s g cs) (hc : s.control = .loop) : s.outstanding = none ∧
    s.box.countP Request.ready = 0 ∧ g.disk = cs.flatMap Command.events := by
  cases h with
  | loop _ ho hr hd => exact ⟨ho, hr, hd⟩
  | busy _ _ hc' => exact absurd (hc.symm.trans hc') (by simp)
  | issued _ _ _ hc' => exact absurd (hc.symm.trans hc') (by simp)
  | raised _ _ _ hc' => exact absurd (hc.symm.trans hc') (by simp)

theorem of_busy (h : Phase ide s g cs) (hc : s.control = .busy r t) : s.outstanding = none ∧
    s.box.countP Request.ready = 0 ∧ g.disk = cs.flatMap Command.events ∧ serve ide r g.before = some t.run := by
  cases h with
  | loop hc' => exact absurd (hc.symm.trans hc') (by simp)
  | busy _ _ hc' ho hr hd hs =>
    rw [hc, Control.busy.injEq] at hc'
    obtain ⟨rfl, rfl⟩ := hc'
    exact ⟨ho, hr, hd, hs⟩
  | issued _ _ _ hc' => exact absurd (hc.symm.trans hc') (by simp)
  | raised _ _ _ hc' => exact absurd (hc.symm.trans hc') (by simp)

theorem of_wait (h : Phase ide s g cs) (hc : s.control = .wait r c k) :
    (s.outstanding = some c ∧ s.box.countP Request.ready = 0 ∧
      g.disk = cs.flatMap Command.events ++ [.issued c] ∧
      serve ide r g.before = some (k (c.perform s.drive)).run) ∨
    (s.outstanding = none ∧ s.box.countP Request.ready = 1 ∧
      g.disk = cs.flatMap Command.events ++ [.issued c, .interrupt c] ∧
      serve ide r g.before = some (k s.drive).run) := by
  cases h with
  | loop hc' => exact absurd (hc.symm.trans hc') (by simp)
  | busy _ _ hc' => exact absurd (hc.symm.trans hc') (by simp)
  | issued _ _ _ hc' ho hr hd hs =>
    rw [hc, Control.wait.injEq] at hc'
    obtain ⟨rfl, rfl, rfl⟩ := hc'
    exact Or.inl ⟨ho, hr, hd, hs⟩
  | raised _ _ _ hc' ho hr hd hs =>
    rw [hc, Control.wait.injEq] at hc'
    obtain ⟨rfl, rfl, rfl⟩ := hc'
    exact Or.inr ⟨ho, hr, hd, hs⟩

end Phase

/-- The invariant of the machine. -/
structure Inv (ide : ℤ) (s : Machine) (g : History) : Prop where
  known : ∀ r ∈ s.box, r.Known
  phase : ∃ cs, Phase ide s g cs
  log : ∀ e ∈ g.served, serve ide e.request e.before = some e.outcome

variable {ide : ℤ} {s s' : Machine} {g : History} {a : Machine.Action}

theorem inv_boot (disk : ℕ → Sector) : Inv ide (Machine.boot disk) (.init (Drive.zero disk).cacheInit) where
  known := fun _ hr => absurd hr List.not_mem_nil
  phase := ⟨[], .loop rfl rfl rfl rfl⟩
  log := fun _ he => absurd he List.not_mem_nil

theorem Phase.arrive {cs : List Command} {new : List Request} (h : Phase ide s g cs)
    (hnew : ∀ r ∈ new, r.ready = false) (n : ℕ) (l : List Request) :
    Phase ide { s with box := s.box ++ new, counter := n } { g with arrived := l } cs := by
  have hcount : (s.box ++ new).countP Request.ready = s.box.countP Request.ready := by
    have hzero : new.countP Request.ready = 0 :=
      List.countP_eq_zero.mpr fun r hr => Bool.not_eq_true _ ▸ hnew r hr
    rw [List.countP_append, hzero, Nat.add_zero]
  cases h with
  | loop hc ho hz hd => exact .loop hc ho (hcount.trans hz) hd
  | busy r t hc ho hz hd hs => exact .busy r t hc ho (hcount.trans hz) hd hs
  | issued r c k hc ho hz hd hs => exact .issued r c k hc ho (hcount.trans hz) hd hs
  | raised r c k hc ho hz hd hs => exact .raised r c k hc ho (hcount.trans hz) hd hs

theorem Inv.arrive {new : List Request} (h : Inv ide s g) (hnew : ∀ r ∈ new, r.Device ∨ r.writeback = true)
    (n : ℕ) (l : List Request) : Inv ide { s with box := s.box ++ new, counter := n } { g with arrived := l } := by
  obtain ⟨cs, hp⟩ := h.phase
  refine ⟨fun r hr => ?_, ⟨cs, hp.arrive (fun r hr => ?_) n l⟩, h.log⟩
  · rcases List.mem_append.mp hr with hr | hr
    · exact h.known r hr
    · rcases hnew r hr with hdev | hwb
      · exact Or.inl hdev
      · exact Or.inr (Or.inl hwb)
  · rcases hnew r hr with hdev | hwb
    · exact hdev.not_ready
    · exact Request.writeback_not_ready hwb

/-! ### The steps of the driver -/

/-- What the driver does next, without the panics. -/
inductive DriverStep (ide : ℤ) (s : Machine) (g : History) : Machine → History → Prop
  | take (r : Request) (box : List Request) (t : Task) (hc : s.control = .loop) (hb : s.box = r :: box)
      (hs : serve ide r s.drive = some t.run) :
      DriverStep ide s g { s with box := box, control := .busy r t } { g with before := s.drive }
  | reply (r : Request) (o : Outcome) (hc : s.control = .busy r (.done o)) :
      DriverStep ide s g { s with control := .loop, drive := o.drive }
        { g with served := g.served ++ [⟨r, g.before, o⟩] }
  | issue (r : Request) (c : Command) (d : Drive) (k : Drive → Task) (hc : s.control = .busy r (.issue c d k)) :
      DriverStep ide s g { s with drive := d, outstanding := some c, control := .wait r c k }
        { g with disk := g.disk ++ [.issued c] }
  | finish (r : Request) (c : Command) (k : Drive → Task) (m : Request) (box : List Request)
      (hc : s.control = .wait r c k) (ht : takeFirst Request.hardIntr s.box = some (m, box)) (hm : m.ready = true) :
      DriverStep ide s g { s with box := box, control := .busy r (k s.drive) }
        { g with disk := g.disk ++ [.returned c] }
  | drop (r : Request) (c : Command) (k : Drive → Task) (m : Request) (box : List Request)
      (hc : s.control = .wait r c k) (ht : takeFirst Request.hardIntr s.box = some (m, box)) (hm : m.ready = false) :
      DriverStep ide s g { s with box := box } g

theorem driverStep_wait {r : Request} {c : Command} {k : Drive → Task} (hc : s.control = .wait r c k)
    (hs : s.driver ide = some s') : DriverStep ide s g s' (record ide s .driver g) := by
  simp only [Machine.driver, hc] at hs
  simp only [record, hc]
  cases ht : takeFirst Request.hardIntr s.box with
  | none =>
    rw [ht] at hs
    cases hs
  | some x =>
    obtain ⟨m, box⟩ := x
    simp only [ht] at hs
    dsimp only
    by_cases hm : m.msg.type = ideReady
    · rw [if_pos hm, Option.some.injEq] at hs
      rw [if_pos hm, ← hs]
      exact .finish r c k m box hc ht (Request.ready_of_hardIntr (takeFirst_eq_some ht).1 hm)
    · rw [if_neg hm, Option.some.injEq, ← hc] at hs
      rw [if_neg hm, ← hs]
      exact .drop r c k m box hc ht (Request.not_ready_of_type hm)

theorem Inv.driverStep (h : Inv ide s g) (hs : s.driver ide = some s') :
    DriverStep ide s g s' (record ide s .driver g) := by
  obtain ⟨cs, hp⟩ := h.phase
  cases hp with
  | loop hc ho hz hd =>
    cases hb : s.box with
    | nil => simp [Machine.driver, hc, hb] at hs
    | cons r box =>
      have hr : r.Device ∨ r.writeback = true := by
        rw [hb] at hz
        have hno := List.countP_eq_zero.mp hz r List.mem_cons_self
        rcases h.known r (hb ▸ List.mem_cons_self) with hdev | hwb | hrd
        · exact Or.inl hdev
        · exact Or.inr hwb
        · exact absurd hrd hno
      obtain ⟨t, ht, hserve⟩ := start_ok ide s.drive hr
      simp only [Machine.driver, hc, hb, ht, Option.some.injEq] at hs
      subst hs
      simp only [record, hc]
      exact .take r box t hc hb hserve
  | busy r t hc ho hz hd hsv =>
    cases t with
    | done o =>
      simp only [Machine.driver, hc, Option.some.injEq] at hs
      subst hs
      simp only [record, hc]
      exact .reply r o hc
    | issue c d k =>
      simp only [Machine.driver, hc, ho, Option.isNone_none, if_true, Option.some.injEq] at hs
      subst hs
      simp only [record, hc]
      exact .issue r c d k hc
  | issued r c k hc => exact driverStep_wait hc hs
  | raised r c k hc => exact driverStep_wait hc hs

theorem Inv.tick (h : Inv ide s g) : Inv ide (s.timeIntr ide) (record ide s .tick g) := by
  unfold Machine.timeIntr record
  dsimp only
  by_cases hn : s.nextCounter = 0
  · rw [if_pos hn, if_pos hn]
    refine h.arrive (fun r hr => ?_) _ _
    rw [List.mem_singleton.mp hr]
    exact Or.inr (Request.writeback_intr ide)
  · rw [if_neg hn, if_neg hn]
    have hnone := @Inv.arrive ide s g [] h (fun r hr => absurd hr List.not_mem_nil) s.nextCounter g.arrived
    rw [List.append_nil] at hnone
    exact hnone

/-- The disk's interrupt comes while the driver waits for it. -/
theorem Inv.irq (h : Inv ide s g) (hs : s.irq14 ide = some s') : Inv ide s' (record ide s .irq g) := by
  obtain ⟨cs, hp⟩ := h.phase
  unfold Machine.irq14 at hs
  rw [Option.map_eq_some_iff] at hs
  obtain ⟨c, hc, rfl⟩ := hs
  have hbox : ∀ r ∈ s.box ++ [intr ide ideReady], r.Known := by
    intro r hr
    rcases List.mem_append.mp hr with hr | hr
    · exact h.known r hr
    · rw [List.mem_singleton.mp hr]
      exact Or.inr (Or.inr (Request.ready_intr ide))
  have hrec : record ide s .irq g = { g with disk := g.disk ++ [.interrupt c] } := by
    unfold record
    rw [hc]
  rw [hrec]
  refine ⟨hbox, ⟨cs, ?_⟩, h.log⟩
  cases hp with
  | loop _ ho => exact absurd (ho.symm.trans hc) (by simp)
  | busy _ _ _ ho => exact absurd (ho.symm.trans hc) (by simp)
  | raised _ _ _ _ ho => exact absurd (ho.symm.trans hc) (by simp)
  | issued r c' k hctl ho hz hd hsv =>
    rw [ho, Option.some.injEq] at hc
    subst hc
    refine .raised r c' k hctl rfl ?_ ?_ hsv
    · unfold Machine.ideIntr
      rw [List.countP_append, hz]
      rfl
    · rw [hd, List.append_assoc]
      rfl

theorem Inv.driver {g' : History} (h : Inv ide s g) (hs : DriverStep ide s g s' g') : Inv ide s' g' := by
  obtain ⟨cs, hp⟩ := h.phase
  cases hs with
  | take r box t hc hb hserve =>
    obtain ⟨ho, hz, hd⟩ := hp.of_loop hc
    rw [hb, List.countP_cons, Nat.add_eq_zero_iff] at hz
    refine ⟨fun x hx => h.known x (hb ▸ List.mem_cons_of_mem r hx), ⟨cs, ?_⟩, h.log⟩
    exact .busy r t rfl ho hz.1 hd hserve
  | reply r o hc =>
    obtain ⟨ho, hz, hd, hserve⟩ := hp.of_busy hc
    refine ⟨h.known, ⟨cs, .loop rfl ho hz hd⟩, fun e he => ?_⟩
    rcases List.mem_append.mp he with he | he
    · exact h.log e he
    · rw [List.mem_singleton.mp he]
      exact hserve
  | issue r c d k hc =>
    obtain ⟨-, hz, hd, hserve⟩ := hp.of_busy hc
    exact ⟨h.known, ⟨cs, .issued r c k rfl rfl hz (by rw [hd]) hserve⟩, h.log⟩
  | finish r c k m box hc ht hm =>
    have hcount := takeFirst_countP (q := Request.ready) ht
    rw [if_pos hm] at hcount
    rcases hp.of_wait hc with ⟨-, hz, -⟩ | ⟨ho, hz, hd, hserve⟩
    · omega
    · refine ⟨fun x hx => h.known x (takeFirst_subset ht x hx), ⟨cs ++ [c], ?_⟩, h.log⟩
      refine .busy r (k s.drive) rfl ho ?_ ?_ hserve
      · change box.countP Request.ready = 0
        omega
      · rw [hd, List.flatMap_append, List.append_assoc]
        rfl
  | drop r c k m box hc ht hm =>
    have hcount := takeFirst_countP (q := Request.ready) ht
    rw [if_neg (by rw [hm]; exact Bool.false_ne_true), Nat.add_zero] at hcount
    refine ⟨fun x hx => h.known x (takeFirst_subset ht x hx), ⟨cs, ?_⟩, h.log⟩
    rcases hp.of_wait hc with ⟨ho, hz, hd, hserve⟩ | ⟨ho, hz, hd, hserve⟩
    · exact .issued r c k hc ho (hcount.symm.trans hz) hd hserve
    · exact .raised r c k hc ho (hcount.symm.trans hz) hd hserve

/-- **The machine keeps its invariant.** -/
theorem Inv.step (h : Inv ide s g) (ha : s.Admitted a) (hs : s.step ide a = some s') :
    Inv ide s' (record ide s a g) := by
  cases a with
  | request r =>
    unfold Machine.step at hs
    rw [Option.some.injEq] at hs
    rw [← hs]
    refine h.arrive (fun x hx => ?_) s.counter _
    rw [List.mem_singleton.mp hx]
    exact Or.inl ha
  | tick =>
    unfold Machine.step at hs
    rw [Option.some.injEq] at hs
    rw [← hs]
    exact h.tick
  | irq => exact h.irq hs
  | driver => exact h.driver (h.driverStep hs)

/-! ### Every message is handled once, in the order of arrival -/

/-- The messages with `p` that have arrived were served, are being served, or
are in the mailbox, in this order. -/
def Accounted (p : Request → Bool) (s : Machine) (g : History) : Prop :=
  g.arrived.filter p = (g.served.map Served.request).filter p ++ s.service.filter p ++ s.box.filter p

/-- No wait loop takes a message with `p`. -/
def Spares (p : Request → Bool) (s : Machine) : Machine.Action → Prop
  | .driver => s.control.waits = true → ∀ y ∈ takeFirst Request.hardIntr s.box, p y.1 = false
  | _ => True

theorem Spares.wait {p : Request → Bool} (h : Spares p s .driver) {r m : Request} {c : Command} {k : Drive → Task}
    {box : List Request} (hc : s.control = .wait r c k) (ht : takeFirst Request.hardIntr s.box = some (m, box)) :
    p m = false :=
  h (by rw [hc]; rfl) (m, box) ht

/-- It is enough to spare some of the messages from interrupt handlers. -/
theorem Spares.of_hardIntr {p q : Request → Bool} (hq : ∀ r, r.hardIntr = true → p r = false → q r = false)
    (h : Spares p s a) : Spares q s a := by
  cases a with
  | driver =>
    intro hw y hy
    exact hq y.1 (takeFirst_eq_some (Option.mem_def.mp hy)).1 (h hw y hy)
  | request r => trivial
  | tick => trivial
  | irq => trivial

theorem spares_none (s : Machine) (a : Machine.Action) : Spares (fun _ => false) s a := by
  cases a with
  | driver =>
    intro _ _ _
    rfl
  | request r => trivial
  | tick => trivial
  | irq => trivial

theorem spares_client (s : Machine) (a : Machine.Action) : Spares Request.client s a := by
  refine (spares_none s a).of_hardIntr fun r hr _ => ?_
  rw [Request.client, hr]
  rfl

theorem accounted_boot (p : Request → Bool) (disk : ℕ → Sector) :
    Accounted p (Machine.boot disk) (.init (Drive.zero disk).cacheInit) := rfl

theorem Accounted.driver {p : Request → Bool} {g' : History} (h : Accounted p s g)
    (hp : Spares p s .driver) (hs : DriverStep ide s g s' g') : Accounted p s' g' := by
  unfold Accounted at h ⊢
  cases hs with
  | take r box t hc hb hserve =>
    have hcons : (r :: box).filter p = [r].filter p ++ box.filter p := by
      rw [← List.filter_append]
      rfl
    unfold Machine.service at h ⊢
    rw [hc, hb, hcons] at h
    rw [h, List.filter_nil, List.append_nil, ← List.append_assoc]
  | reply r o hc =>
    unfold Machine.service at h ⊢
    rw [hc] at h
    rw [h, List.map_append, List.filter_append, List.filter_nil, List.append_nil]
    rfl
  | issue r c d k hc =>
    unfold Machine.service at h ⊢
    rw [hc] at h
    exact h
  | finish r c k m box hc ht hm =>
    unfold Machine.service at h ⊢
    rw [hc] at h
    rw [h, takeFirst_filter ht (hp.wait hc ht)]
  | drop r c k m box hc ht hm =>
    rw [h, takeFirst_filter ht (hp.wait hc ht)]
    rfl

theorem Accounted.arrive {p : Request → Bool} (h : Accounted p s g) (new : List Request) (n : ℕ) :
    Accounted p { s with box := s.box ++ new, counter := n } { g with arrived := g.arrived ++ new } := by
  unfold Accounted at h ⊢
  rw [List.filter_append, h, List.filter_append, List.append_assoc]
  rfl

/-- **Messages that the wait loops spare are not lost.** -/
theorem Accounted.step {p : Request → Bool} (hready : ∀ r, r.ready = true → p r = false) (h : Accounted p s g)
    (hI : Inv ide s g) (hp : Spares p s a) (hs : s.step ide a = some s') : Accounted p s' (record ide s a g) := by
  cases a with
  | request r =>
    unfold Machine.step at hs
    rw [Option.some.injEq] at hs
    rw [← hs]
    exact h.arrive [r] s.counter
  | tick =>
    unfold Machine.step Machine.timeIntr at hs
    rw [Option.some.injEq] at hs
    rw [← hs]
    unfold record
    dsimp only
    by_cases hn : s.nextCounter = 0
    · rw [if_pos hn, if_pos hn]
      exact h.arrive [intr ide ideWriteback] s.nextCounter
    · rw [if_neg hn, if_neg hn]
      exact h
  | irq =>
    unfold Machine.step Machine.irq14 at hs
    dsimp only at hs
    rw [Option.map_eq_some_iff] at hs
    obtain ⟨c, hc, rfl⟩ := hs
    unfold record Machine.ideIntr Accounted
    dsimp only
    rw [hc, List.filter_append, List.filter_singleton, hready _ (Request.ready_intr ide), cond_false,
      List.append_nil]
    exact h
  | driver => exact h.driver hp (hI.driverStep hs)

/-! ### Runs -/

/-- The invariant of a run; `q` is a further condition on its steps. -/
theorem reach_inv {disk : ℕ → Sector} {ok : Machine × History → Machine.Action → Prop}
    (hok : ∀ x a, ok x a → x.1.Admitted a)
    (h : Reach (histStep ide) ok (Machine.boot disk, .init (Drive.zero disk).cacheInit) (s, g)) : Inv ide s g := by
  refine h.invariant (I := fun x => Inv ide x.1 x.2) (inv_boot disk) ?_
  intro x a x' hx ha hs
  rw [withHistory_eq_some] at hs
  rw [hs.2]
  exact hx.step (hok x a ha) hs.1

/-- The messages that the wait loops spare, over a run. -/
theorem reach_accounted {p : Request → Bool} (hready : ∀ r, r.ready = true → p r = false) {disk : ℕ → Sector}
    {ok : Machine × History → Machine.Action → Prop} (hok : ∀ x a, ok x a → x.1.Admitted a ∧ Spares p x.1 a)
    (h : Reach (histStep ide) ok (Machine.boot disk, .init (Drive.zero disk).cacheInit) (s, g)) :
    Accounted p s g := by
  have hboth : Inv ide s g ∧ Accounted p s g := by
    refine h.invariant (I := fun x => Inv ide x.1 x.2 ∧ Accounted p x.1 x.2) ⟨inv_boot disk, accounted_boot p disk⟩ ?_
    intro x a x' hx ha hs
    rw [withHistory_eq_some] at hs
    rw [hs.2]
    exact ⟨hx.1.step (hok x a ha).1 hs.1, hx.2.step hready hx.1 (hok x a ha).2 hs.1⟩
  exact hboth.2

end Ide
end NanoOS
