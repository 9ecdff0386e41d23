/-
# The message pool and the mailboxes

`process/message.c` keeps all messages in flight in the static array
`msg_pool`. A message is a node of the circular list `msg_list` of the PCB it
was sent to; the cursor `p_free` goes round the array and picks the slot of
the next one. This module embeds the pieces `send` and `receive` are made of;
`NanoOS.Process.Mailbox` puts them together as single operations and
`NanoOS.Kernel.Machine` as the steps of a preemptible kernel.
-/
import NanoOS.Adt.List

namespace NanoOS

open Ringlist

/-- `MSG_POOL_SIZE`. -/
def msgPoolSize : ℕ := 512

/-- `ANY`: `receive` takes any message. -/
def anySrc : ℤ := -1

/-- `MSG_HARD_INTR`: the `src` of messages from interrupt handlers. -/
def msgHardIntr : ℤ := -2

/-- The `ListHead`s of the mailboxes: `pcb_pool[i].msg_list` and
`msg_pool[k].list`. -/
inductive MailNode
  | box (i : ℕ)
  | slot (k : ℕ)
  deriving DecidableEq

/-- The contents of a message. `type` shares its storage with `ret`, and `i`
with the fields of a device request (`req_pid`, `dev_id`, `buf`, `offset`,
`len`). -/
structure MsgData where
  src : ℤ
  dest : ℤ
  type : ℤ
  i : Vector ℤ 5
  deriving DecidableEq

/-- A `Msg`: its contents and its `list` field. -/
structure Msg extends MsgData where
  list : Links MailNode
  deriving DecidableEq

/-- The memory of `message.c` and the `msg_list` fields of the PCBs. -/
structure Mail where
  links : Heap MailNode
  pool : ℕ → MsgData
  pFree : ℕ

/-- A message with all fields zero. -/
def MsgData.zero : MsgData := ⟨0, 0, 0, Vector.replicate 5 0⟩

namespace Mail

/-- The zero-initialised memory. -/
def zero : Mail where
  links := fun _ => ⟨none, none⟩
  pool := fun _ => MsgData.zero
  pFree := 0

/-- `list_init(&pcb_pool[i].msg_list)`, in `init_proc` for the idle PCB and in
`create_kthread` for the others. -/
def initBox (i : ℕ) (m : Mail) : Mail := { m with links := listInit (.box i) m.links }

/-- The first lines of `send`: the destination, and the sender's pid if the
caller left `src` 0. -/
def stamp (pid : ℤ) (dest : ℕ) (x : Msg) : Msg :=
  { x with dest := dest, src := if x.src = 0 then pid else x.src }

/-- `msg_pool[p_free] = *m`, the `list` field included. -/
def copyMsg (x : Msg) (m : Mail) : Mail :=
  { m with
    pool := Function.update m.pool m.pFree x.toMsgData
    links := Function.update m.links (.slot m.pFree) x.list }

/-- The locked part of `send`: link `msg_pool[p_free]` in and advance the
cursor. -/
def linkMsg (dest : ℕ) (m : Mail) : Mail :=
  { m with
    links := listAddBefore (.box dest) (.slot m.pFree) m.links
    pFree := if m.pFree + 1 ≥ msgPoolSize then 0 else m.pFree + 1 }

/-- The locked part of `receive`: `list_del(&(msg_to_rcv->list))`. -/
def unlinkMsg (n : MailNode) (m : Mail) : Mail := { m with links := listDel n m.links }

/-- `*msg_to_rcv`. A list head is not a message. -/
def msgAt (m : Mail) : MailNode → Option Msg
  | .slot k => some { m.pool k with list := m.links (.slot k) }
  | .box _ => none

end Mail

end NanoOS
