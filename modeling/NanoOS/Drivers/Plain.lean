/-
# The drivers without interrupts

`null`, `zero`, `random`, `ram`, `mem` and `kmem` are loops that receive a
message, do the transfer and send the message back as the reply: `ret` is
written over `type`, and `src` and `dest` are turned round. `ram`, `mem` and
`kmem` refuse messages of interrupt handlers.

Key definitions: `Store`, `round`, `Plain.thread`.
Key theorems: `Plain.thread_ok`, `Plain.thread_answers`.
-/
import NanoOS.Drivers.Hal

namespace NanoOS

/-- `KOFFSET`. -/
def koffset : ℤ := 3221225472

/-- The memory of the kernel by address, and `next` of `random.c`. -/
structure Store where
  mem : ℕ → BitVec 8
  next : BitVec 8

namespace Store

/-- `memcpy(dest, src, size)`. -/
def memcpy (dest src : ℤ) (size : ℕ) (s : Store) : Store :=
  { s with
    mem := (List.range size).foldl
      (fun mem i => Function.update mem (u32 (dest + i)) (mem (u32 (src + i)))) s.mem }

/-- `memset(dest, data, size)`. -/
def memset (dest : ℤ) (data : BitVec 8) (size : ℕ) (s : Store) : Store :=
  { s with mem := (List.range size).foldl (fun mem i => Function.update mem (u32 (dest + i)) data) s.mem }

/-- `next` after `rand()`, which returns it. -/
def rand (next : BitVec 8) : BitVec 8 := next * 1103515245 + 12345

/-- The loop of `random_driver_thread`. -/
def fillRandom (dest : ℤ) (size : ℕ) (s : Store) : Store :=
  (List.range size).foldl
    (fun s i => ⟨Function.update s.mem (u32 (dest + i)) (rand s.next), rand s.next⟩) s

end Store

namespace Plain

/-- How a driver stops. -/
inductive Fault
  | panic (text : String)
  | assertion
  deriving DecidableEq

/-- What a transfer does: `ret`, and the memory. -/
abbrev Transfer := MsgData → Store → ℤ × Store

/-- One round of a driver loop of thread `me`, with `receive` done: the reply
and the memory. -/
def round (me : ℤ) (read write : Transfer) (m : MsgData) (s : Store) : Except Fault (MsgData × Store) :=
  if m.type = devRead then .ok (m.answer me (read m s).1, (read m s).2)
  else if m.type = devWrite then .ok (m.answer me (write m s).1, (write m s).2)
  else .error .assertion

/-- The same with `if (m.src == MSG_HARD_INTR) panic(text)` before it. -/
def guardedRound (text : String) (me : ℤ) (read write : Transfer) (m : MsgData) (s : Store) :
    Except Fault (MsgData × Store) :=
  if m.src = msgHardIntr then .error (.panic text) else round me read write m s

/-- `m.ret = 0`. -/
def nothing : Transfer := fun _ s => (0, s)

/-- `memcpy` from `m.offset`, with `base` added, to `m.buf`. -/
def copyOut (base : ℤ) : Transfer := fun m s => (m.len, s.memcpy m.buf (m.offset + base) (u32 m.len))

/-- `memcpy` from `m.buf` to `m.offset`, with `base` added. -/
def copyIn (base : ℤ) : Transfer := fun m s => (m.len, s.memcpy (m.offset + base) m.buf (u32 m.len))

/-- `null_driver_thread`. -/
def nullDriverThread (me : ℤ) : MsgData → Store → Except Fault (MsgData × Store) := round me nothing nothing

/-- `zero_driver_thread`. -/
def zeroDriverThread (me : ℤ) : MsgData → Store → Except Fault (MsgData × Store) :=
  round me (fun m s => (m.len, s.memset m.buf 0 (u32 m.len))) nothing

/-- `random_driver_thread`. Its loop compares `int`s. -/
def randomDriverThread (me : ℤ) : MsgData → Store → Except Fault (MsgData × Store) :=
  round me (fun m s => (m.len, s.fillRandom m.buf m.len.toNat)) nothing

/-- `ram_driver_thread` of `ramdisk.c`, with the address of `file`. -/
def ramDriverThread (disk me : ℤ) : MsgData → Store → Except Fault (MsgData × Store) :=
  guardedRound "RAMDISK unexpected hard interrupt" me (copyOut disk) (copyIn disk)

/-- `ram_driver_thread` of `mem.c`. -/
def memDriverThread (me : ℤ) : MsgData → Store → Except Fault (MsgData × Store) :=
  guardedRound "MEM unexpected hard interrupt" me (copyOut 0) (copyIn 0)

/-- `kmem_driver_thread`. -/
def kmemDriverThread (me : ℤ) : MsgData → Store → Except Fault (MsgData × Store) :=
  guardedRound "DEV_KMEM unexpected hard interrupt" me (copyOut koffset) (copyIn koffset)

end Plain

/-- These drivers. -/
inductive Plain
  | null
  | zero
  | random
  | ram
  | mem
  | kmem
  deriving DecidableEq

namespace Plain

/-- The round of a driver whose pid is `me`. -/
def thread (disk me : ℤ) : Plain → MsgData → Store → Except Fault (MsgData × Store)
  | null => nullDriverThread me
  | zero => zeroDriverThread me
  | random => randomDriverThread me
  | ram => ramDriverThread disk me
  | mem => memDriverThread me
  | kmem => kmemDriverThread me

variable {disk me : ℤ} {m r : MsgData} {s s' : Store}

theorem round_ok {read write : Transfer} (h : round me read write m s = .ok (r, s')) : ∃ ret, r = m.answer me ret := by
  unfold round at h
  split at h
  · cases h
    exact ⟨_, rfl⟩
  · split at h
    · cases h
      exact ⟨_, rfl⟩
    · cases h

theorem guardedRound_ok {text : String} {read write : Transfer}
    (h : guardedRound text me read write m s = .ok (r, s')) : ∃ ret, r = m.answer me ret := by
  unfold guardedRound at h
  split at h
  · cases h
  · exact round_ok h

/-- A driver that does not stop answers the message it took. -/
theorem thread_ok {k : Plain} (h : k.thread disk me m s = .ok (r, s')) : ∃ ret, r = m.answer me ret := by
  cases k with
  | null => exact round_ok h
  | zero =>
    unfold thread zeroDriverThread at h
    exact round_ok h
  | random =>
    unfold thread randomDriverThread at h
    exact round_ok h
  | ram => exact guardedRound_ok h
  | mem => exact guardedRound_ok h
  | kmem => exact guardedRound_ok h

theorem round_answers (read write : Transfer) (h : m.type = devRead ∨ m.type = devWrite) :
    ∃ ret s', round me read write m s = .ok (m.answer me ret, s') := by
  unfold round
  rcases h with h | h
  · rw [if_pos h]
    exact ⟨_, _, rfl⟩
  · rw [if_neg (by rw [h]; decide), if_pos h]
    exact ⟨_, _, rfl⟩

theorem guardedRound_answers (text : String) (read write : Transfer) (hm : m.fromThread)
    (h : m.type = devRead ∨ m.type = devWrite) :
    ∃ ret s', guardedRound text me read write m s = .ok (m.answer me ret, s') := by
  unfold guardedRound
  rw [if_neg hm]
  exact round_answers read write h

/-- A driver does not stop at a request. -/
theorem thread_answers (k : Plain) (disk me : ℤ) (s : Store) (hm : m.fromThread)
    (h : m.type = devRead ∨ m.type = devWrite) : ∃ ret s', k.thread disk me m s = .ok (m.answer me ret, s') := by
  cases k with
  | null => exact round_answers _ _ h
  | zero =>
    unfold thread zeroDriverThread
    exact round_answers _ _ h
  | random =>
    unfold thread randomDriverThread
    exact round_answers _ _ h
  | ram => exact guardedRound_answers _ _ _ hm h
  | mem => exact guardedRound_answers _ _ _ hm h
  | kmem => exact guardedRound_answers _ _ _ hm h

end Plain
end NanoOS
