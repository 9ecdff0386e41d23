/-
# The calls of the IDE driver, with their disk commands

`cache_fetch` and `cache_writeback` wait for the disk in the middle of their
work: each `disk_do_read` and `disk_do_write` issues a command and goes on when
its interrupt has come. A `Task` is such a call as the commands it still has to
issue. With a disk that does its commands at once, the tasks come to the
functions of `NanoOS.Drivers.Ide.Cache` and `serve`.

Key definitions: `Command`, `Task`, `Task.run`, `start`.
Key theorems: `Task.cacheFetch_run`, `Task.cacheWriteback_run`, `start_run`,
`start_replies`.
-/
import NanoOS.Drivers.Ide.Driver

namespace NanoOS
namespace Ide

/-- A command to the disk. -/
inductive Command
  /-- `issue_read` -/
  | read (sector : ℕ)
  /-- `issue_write`, and the data -/
  | write (sector : ℕ) (buf : Sector)

/-- What the disk does for a command. -/
def Command.perform : Command → Drive → Drive
  | .read _, d => d
  | .write sector buf, d => d.diskDoWrite buf sector

/-- A call that is done, or one that has come as far as its next disk command:
what memory and disk are by then, and how it goes on from there. -/
inductive Task
  | done (o : Outcome)
  | issue (c : Command) (d : Drive) (k : Drive → Task)

namespace Task

/-- What comes of the call when the disk does its commands. -/
def run : Task → Outcome
  | done o => o
  | issue c d k => run (k (c.perform d))

/-- `disk_do_read`. -/
def diskDoRead (sector : ℕ) (k : Sector → Drive → Task) (d : Drive) : Task :=
  issue (.read sector) d fun d => k (d.disk sector) d

/-- `disk_do_write`. -/
def diskDoWrite (buf : Sector) (sector : ℕ) (k : Drive → Task) (d : Drive) : Task :=
  issue (.write sector buf) d k

/-- `cache_writeback`, for the slots that are left. -/
def writebackSlots (k : Drive → Task) : List ℕ → Drive → Task
  | [], d => k d
  | i :: is, d =>
    if (d.cache i).dirty = true then
      diskDoWrite (d.cache i).content (d.cache i).sector
        (fun d => writebackSlots k is (d.setSlot i { d.cache i with dirty := false })) d
    else writebackSlots k is d

/-- `cache_writeback`. -/
def cacheWriteback (k : Drive → Task) (d : Drive) : Task := writebackSlots k (List.range nrSecCache) d

/-- `cache_fetch`. -/
def cacheFetch (sector : ℕ) (k : Drive → Task) (d : Drive) : Task :=
  let ptr := d.cache (sector % nrSecCache)
  let load : Drive → Task := diskDoRead sector fun content d =>
    k (d.setSlot (sector % nrSecCache) ⟨sector, true, false, content⟩)
  if ptr.used = true ∧ ptr.sector = sector then k d -- cache hit, do nothing
  else if ptr.used = true ∧ ptr.dirty = true then diskDoWrite ptr.content ptr.sector load d
  else load d

/-- `read_byte`. -/
def readByte (offset : ℕ) (k : UInt8 → Drive → Task) (d : Drive) : Task :=
  cacheFetch (sectorOf offset)
    (fun d => k ((d.cache (sectorOf offset % nrSecCache)).content (byteOf offset)) d) d

/-- `write_byte`. -/
def writeByte (offset : ℕ) (data : UInt8) (k : Drive → Task) (d : Drive) : Task :=
  cacheFetch (sectorOf offset) (fun d =>
    let ptr := d.cache (sectorOf offset % nrSecCache)
    k (d.setSlot (sectorOf offset % nrSecCache)
      { ptr with content := Function.update ptr.content (byteOf offset) data, dirty := true })) d

/-- The loop of `DEV_READ`, from round `i` on with `n` rounds to go. -/
def readLoop (offset : ℤ) : ℕ → ℕ → (List UInt8 → Drive → Task) → Drive → Task
  | 0, _, k, d => k [] d
  | n + 1, i, k, d => readByte (u32 (offset + i)) (fun x d => readLoop offset n (i + 1) (fun xs => k (x :: xs)) d) d

/-- The loop of `DEV_WRITE`. -/
def writeLoop (offset : ℤ) (data : ℕ → UInt8) (k : Drive → Task) : ℕ → ℕ → Drive → Task
  | 0, _, d => k d
  | n + 1, i, d => writeByte (u32 (offset + i)) (data i) (fun d => writeLoop offset data k n (i + 1) d) d

end Task

/-- How the driver stops. -/
inductive Panic
  /-- `panic("IDE interrupt is leaking")` -/
  | leaking
  /-- `assert(0)` -/
  | assertion
  deriving DecidableEq

/-- The body of `ide_driver_thread` for a message. -/
def start (ide : ℤ) (r : Request) (d : Drive) : Except Panic Task :=
  let m := r.msg
  if m.src = msgHardIntr then
    if m.type = ideWriteback then .ok (Task.cacheWriteback (fun d => .done ⟨d, [], none⟩) d)
    else .error .leaking
  else if m.type = devRead then
    .ok (Task.readLoop m.offset (u32 m.len) 0 (fun xs d => .done ⟨d, xs, some (replyTo ide m)⟩) d)
  else if m.type = devWrite then
    .ok (Task.writeLoop m.offset r.data (fun d => .done ⟨d, [], some (replyTo ide m)⟩) (u32 m.len) 0 d)
  else .error .assertion

/-! ### With a disk that does its commands at once -/

namespace Task

variable {d : Drive}

theorem cacheFetch_run (sector : ℕ) (k : Drive → Task) (d : Drive) :
    (cacheFetch sector k d).run = (k (d.cacheFetch sector)).run := by
  unfold cacheFetch Drive.cacheFetch
  dsimp only
  split
  · rfl
  · split
    · rfl
    · rfl

theorem writebackSlots_run (k : Drive → Task) : ∀ (is : List ℕ) (d : Drive),
    (writebackSlots k is d).run = (k (is.foldl Drive.writebackSlot d)).run
  | [], _ => rfl
  | i :: is, d => by
    unfold writebackSlots
    rw [List.foldl_cons]
    unfold Drive.writebackSlot
    split
    · exact writebackSlots_run k is _
    · exact writebackSlots_run k is d

theorem cacheWriteback_run (k : Drive → Task) (d : Drive) : (cacheWriteback k d).run = (k d.cacheWriteback).run := by
  unfold cacheWriteback Drive.cacheWriteback
  exact writebackSlots_run k (List.range nrSecCache) d

theorem readLoop_run (offset : ℤ) : ∀ (n i : ℕ) (k : List UInt8 → Drive → Task) (d : Drive),
    (readLoop offset n i k d).run = (k (d.readLoop offset n i).1 (d.readLoop offset n i).2).run
  | 0, _, _, _ => rfl
  | n + 1, i, k, d => by
    unfold readLoop readByte Drive.readLoop Drive.readByte
    rw [cacheFetch_run]
    exact readLoop_run offset n (i + 1) _ _

theorem writeLoop_run (offset : ℤ) (data : ℕ → UInt8) (k : Drive → Task) : ∀ (n i : ℕ) (d : Drive),
    (writeLoop offset data k n i d).run = (k (d.writeLoop offset data n i)).run
  | 0, _, _ => rfl
  | n + 1, i, d => by
    unfold writeLoop writeByte Drive.writeLoop Drive.writeByte
    rw [cacheFetch_run]
    exact writeLoop_run offset data k n (i + 1) _

end Task

/-- **The tasks are the driver**: a message that is served is served by its
task. -/
theorem start_run (ide : ℤ) (r : Request) (d : Drive) :
    serve ide r d = (start ide r d).toOption.map Task.run := by
  unfold serve start
  dsimp only
  split
  · split
    · rw [Except.toOption, Option.map_some, Task.cacheWriteback_run, Task.run]
    · rfl
  · split
    · rw [Except.toOption, Option.map_some, Task.readLoop_run, Task.run]
    · split
      · rw [Except.toOption, Option.map_some, Task.writeLoop_run, Task.run]
      · rfl

/-! ### The reply -/

/-- The call ends with the reply `o`, whatever the disk does. -/
def Task.Replies (o : Option MsgData) : Task → Prop
  | done r => r.reply = o
  | issue _ _ k => ∀ d, (k d).Replies o

namespace Task

variable {o : Option MsgData}

theorem replies_cacheFetch {sector : ℕ} {k : Drive → Task} (hk : ∀ d, (k d).Replies o) (d : Drive) :
    (cacheFetch sector k d).Replies o := by
  have hload : ∀ d, (diskDoRead sector (fun content d =>
      k (d.setSlot (sector % nrSecCache) ⟨sector, true, false, content⟩)) d).Replies o := fun _ _ => hk _
  unfold cacheFetch
  dsimp only
  split
  · exact hk d
  · split
    · exact hload
    · exact hload d

theorem replies_writebackSlots {k : Drive → Task} (hk : ∀ d, (k d).Replies o) :
    ∀ (is : List ℕ) (d : Drive), (writebackSlots k is d).Replies o
  | [], d => hk d
  | i :: is, d => by
    unfold writebackSlots
    split
    · intro d'
      exact replies_writebackSlots hk is _
    · exact replies_writebackSlots hk is d

theorem replies_readLoop {offset : ℤ} : ∀ {n i : ℕ} {k : List UInt8 → Drive → Task},
    (∀ xs d, (k xs d).Replies o) → ∀ d, (readLoop offset n i k d).Replies o
  | 0, _, _, hk, d => hk [] d
  | n + 1, i, k, hk, d => by
    unfold readLoop readByte
    exact replies_cacheFetch (fun d => replies_readLoop (fun xs d => hk _ d) d) d

theorem replies_writeLoop {offset : ℤ} {data : ℕ → UInt8} {k : Drive → Task} (hk : ∀ d, (k d).Replies o) :
    ∀ (n i : ℕ) (d : Drive), (writeLoop offset data k n i d).Replies o
  | 0, _, d => hk d
  | n + 1, i, d => by
    unfold writeLoop writeByte
    exact replies_cacheFetch (fun d => replies_writeLoop hk n (i + 1) _) d

end Task

/-- What the driver answers to a message. -/
def reply (ide : ℤ) (m : MsgData) : Option MsgData := if m.src = msgHardIntr then none else some (replyTo ide m)

/-- The driver answers the requests of threads, and no messages of interrupt
handlers. -/
theorem start_replies {ide : ℤ} {r : Request} {d : Drive} {t : Task} (h : start ide r d = .ok t) :
    t.Replies (reply ide r.msg) := by
  unfold start at h
  unfold reply
  dsimp only at h
  split at h
  · rename_i hsrc
    rw [if_pos hsrc]
    split at h
    · cases h
      apply Task.replies_writebackSlots
      exact fun _ => rfl
    · cases h
  · rename_i hsrc
    rw [if_neg hsrc]
    split at h
    · cases h
      apply Task.replies_readLoop
      exact fun _ _ => rfl
    · split at h
      · cases h
        apply Task.replies_writeLoop
        exact fun _ => rfl
      · cases h

end Ide
end NanoOS
