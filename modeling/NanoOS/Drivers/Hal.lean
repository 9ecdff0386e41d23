/-
# Devices and their requests

A device is a name, the pid of the thread that serves it and a number by which
that thread tells its devices apart. A device request is a message whose `i`
holds `req_pid`, `dev_id`, `buf`, `offset` and `len`. The driver answers in the
same message: `ret` shares its storage with `type`.
-/
import NanoOS.Process.Message

namespace NanoOS

/-- `DEV_READ`. -/
def devRead : ℤ := 1

/-- `DEV_WRITE`. -/
def devWrite : ℤ := 2

namespace MsgData

/-- `m.i[0]`. -/
def i0 (m : MsgData) : ℤ := m.i[0]

/-- `m.req_pid`. -/
def reqPid (m : MsgData) : ℤ := m.i[0]

/-- `m.dev_id`. -/
def devId (m : MsgData) : ℤ := m.i[1]

/-- `m.buf`. -/
def buf (m : MsgData) : ℤ := m.i[2]

/-- `m.offset`. -/
def offset (m : MsgData) : ℤ := m.i[3]

/-- `m.len`. -/
def len (m : MsgData) : ℤ := m.i[4]

/-- `m.i[0] = x`. -/
def setI0 (x : ℤ) (m : MsgData) : MsgData := { m with i := m.i.set 0 x }

/-- `m.i[1] = x`. -/
def setI1 (x : ℤ) (m : MsgData) : MsgData := { m with i := m.i.set 1 x }

/-- `m.buf = x`. -/
def setBuf (x : ℤ) (m : MsgData) : MsgData := { m with i := m.i.set 2 x }

/-- `m.offset = x`. -/
def setOffset (x : ℤ) (m : MsgData) : MsgData := { m with i := m.i.set 3 x }

/-- `m.len = x`. -/
def setLen (x : ℤ) (m : MsgData) : MsgData := { m with i := m.i.set 4 x }

/-- `m.src = src; m.dest = dest; m.type = type`. -/
def setHead (src dest type : ℤ) (m : MsgData) : MsgData := { m with src := src, dest := dest, type := type }

variable (m : MsgData) (x src dest type : ℤ)

@[simp] theorem src_setHead : (m.setHead src dest type).src = src := rfl
@[simp] theorem type_setHead : (m.setHead src dest type).type = type := rfl
@[simp] theorem i0_setHead : (m.setHead src dest type).i0 = m.i0 := rfl
@[simp] theorem offset_setHead : (m.setHead src dest type).offset = m.offset := rfl
@[simp] theorem len_setHead : (m.setHead src dest type).len = m.len := rfl
@[simp] theorem i0_setI0 : (m.setI0 x).i0 = x := by simp [i0, setI0]
@[simp] theorem i0_setI1 : (m.setI1 x).i0 = m.i0 := by simp [i0, setI1]
@[simp] theorem i0_setBuf : (m.setBuf x).i0 = m.i0 := by simp [i0, setBuf]
@[simp] theorem i0_setOffset : (m.setOffset x).i0 = m.i0 := by simp [i0, setOffset]
@[simp] theorem i0_setLen : (m.setLen x).i0 = m.i0 := by simp [i0, setLen]
@[simp] theorem offset_setOffset : (m.setOffset x).offset = x := by simp [offset, setOffset]
@[simp] theorem offset_setLen : (m.setLen x).offset = m.offset := by simp [offset, setLen]
@[simp] theorem len_setLen : (m.setLen x).len = x := by simp [len, setLen]

end MsgData

/-- The conversion of an integer to `uint32_t`. -/
def u32 (x : ℤ) : ℕ := (x % 4294967296).toNat

/-- A `Dev`. -/
structure Dev where
  name : String
  pid : ℤ
  devId : ℤ

/-- `hal_get`, on the devices registered. -/
def halGet (name : String) (devices : List Dev) : Option Dev := devices.find? fun dev => dev.name = name

/-- The message `dev_rw` sends, for thread `me`, once `send` has set `dest`. -/
def devRwMsg (me type reqPid buf offset len : ℤ) (dev : Dev) : MsgData :=
  ⟨me, dev.pid, type, #v[reqPid, dev.devId, buf, offset, len]⟩

namespace MsgData

/-- `m.ret`, as the result of `dev_rw`. -/
def ret (m : MsgData) : ℕ := u32 m.type

/-- The reply of driver `me` to a request: `m.ret = ret; m.dest = m.src;
m.src = me`. -/
def answer (me ret : ℤ) (m : MsgData) : MsgData := { m with type := ret, dest := m.src, src := me }

/-- The message is not from an interrupt handler. -/
def fromThread (m : MsgData) : Prop := m.src ≠ msgHardIntr

instance : DecidablePred fromThread := fun m => inferInstanceAs (Decidable (m.src ≠ msgHardIntr))

end MsgData

end NanoOS
