/-
# The line editor and the cooked buffer of a console

`console.c` edits the line being typed in `lbuf`: a text that ends with a zero
byte, and the index `i` of the cursor in it. The editing keys move `pos`, the
cursor on the screen, along with `i`. Enter appends the line to the ring
`cbuf`, from which read requests are served; a request that finds the ring
empty waits on the stack `rstk`.

A panic or a failed assertion ends the run, and so does an access outside
`lbuf`, which the source does not check for.

Key definitions: `Console`, `conslAccept`, `conslFeed`, `readRequest`, `step`.
-/
import NanoOS.Drivers.Hal
import NanoOS.Drivers.Tty.Screen

namespace NanoOS
namespace Tty

/-- `NR_TTY`. -/
def nrTty : ℕ := 4

/-- `LBUF_SZ`. -/
def lbufSz : ℕ := 256

/-- `CBUF_SZ`. -/
def cbufSz : ℕ := 1024

/-- `RSTK_SZ`. -/
def rstkSz : ℕ := 16

/-- `K_BACK`. -/
def kBack : ℤ := 14

/-- `K_ENTR`. -/
def kEntr : ℤ := 28

/-- `K_HOME`. -/
def kHome : ℤ := 71

/-- `K_LEFT`. -/
def kLeft : ℤ := 75

/-- `K_RIGHT`. -/
def kRight : ℤ := 77

/-- `K_END`. -/
def kEnd : ℤ := 79

/-- `K_DEL`. -/
def kDel : ℤ := 83

/-- How the handling of an event can fail. -/
inductive Fault
  | lineBufferFull
  | cookedBufferFull
  | tooManyReadRequest
  | assertion
  /-- an access outside `lbuf`, which has `LBUF_SZ + 1` bytes, or outside `ttys` -/
  | outOfBounds
  deriving DecidableEq

/-- A `Console`. -/
structure Console extends Screen where
  lbuf : ℕ → BitVec 8
  cbuf : ℕ → BitVec 8
  i : ℕ
  f : ℕ
  r : ℕ
  rtop : ℕ
  rstk : ℕ → MsgData

/-- A reply to a read request, and the bytes `copy_from_kernel` put in its
buffer. -/
structure Reply where
  msg : MsgData
  data : List (BitVec 8)

namespace Console

/-- An operation on the screen. -/
def onScreen (g : Screen → Screen) (c : Console) : Console := { c with toScreen := g c.toScreen }

/-- `del`. -/
def del (c : Console) : Console :=
  onScreen (Screen.putc 32) { c with pos := c.pos - 1 }

/-- `movl`. -/
def movl (c : Console) : Bool × Console :=
  if c.i ≠ 0 then (true, { c with i := c.i - 1, pos := c.pos - 1 }) else (false, c)

/-- `c->lbuf[k]`. -/
def lbufAt (c : Console) (k : ℕ) : Except Fault (BitVec 8) :=
  if k < lbufSz + 1 then .ok (c.lbuf k) else .error .outOfBounds

/-- `movr`. -/
def movr (c : Console) : Except Fault (Bool × Console) := do
  let x ← c.lbufAt c.i
  return if x ≠ 0 then (true, { c with i := c.i + 1, pos := c.pos + 1 }) else (false, c)

/-- `while (movl(c));`, at most `n` rounds. -/
def homeLoop : ℕ → Console → Console
  | 0, c => c
  | n + 1, c => match c.movl with
    | (true, c) => homeLoop n c
    | (false, c) => c

/-- `while (movr(c));`, where `n` is how far `i` is from the end of `lbuf`. -/
def endLoop : ℕ → Console → Except Fault Console
  | 0, _ => .error .outOfBounds
  | n + 1, c => do
    match ← c.movr with
    | (true, c) => endLoop n c
    | (false, c) => return c

/-- The loop of `removec`, with `ptr` at `lbuf[k]` and `scr` at `vbuf[a]`; `n`
bytes of `lbuf` are left. -/
def removeLoop : ℕ → ℕ → ℤ → Console → Except Fault Console
  | 0, _, _, _ => .error .outOfBounds
  | n + 1, k, a, c =>
    if c.lbuf k = 0 then .ok c
    else removeLoop n (k + 1) (a + 1)
      { c with lbuf := Function.update c.lbuf k (c.lbuf (k + 1)), mem := c.mem.copy a (a + 1) }

/-- `removec`. -/
def removec (c : Console) : Except Fault Console :=
  let c1 := { c with i := c.i - 1 }
  removeLoop (lbufSz + 1 - c1.i) c1.i (c1.pos - 1) c1

/-- `backsp`. -/
def backsp (c : Console) : Except Fault Console :=
  if c.i > 0 then do
    let c ← c.removec
    let x ← c.lbufAt c.i
    return if x = 0 then c.del else { c with pos := c.pos - 1 }
  else return c

/-- `while (count --)` of `get_cooked`, with `n` rounds to go, and the bytes it
copies. -/
def getCookedLoop : ℕ → Console → List (BitVec 8) × Console
  | 0, c => ([], c)
  | n + 1, c =>
    let x := c.cbuf c.f
    let c := { c with f := (c.f + 1) % cbufSz }
    if x = 0 then ([], c)
    else ((x :: (getCookedLoop n c).1), (getCookedLoop n c).2)

/-- `get_cooked`. -/
def getCooked (count : ℤ) (c : Console) : Except Fault (List (BitVec 8) × Console) :=
  if c.f = c.r then .error .assertion else .ok (getCookedLoop (u32 count) c)

/-- `read_request`, where `c` is `ttys[m->dev_id]`. -/
def readRequest (tty : ℤ) (m : MsgData) (c : Console) : Except Fault (Console × Option Reply) :=
  if c.f = c.r then
    if c.rtop = rstkSz then .error .tooManyReadRequest
    else .ok ({ c with rstk := Function.update c.rstk c.rtop m, rtop := c.rtop + 1 }, none)
  else do
    let (data, c) ← c.getCooked m.len
    return (c, some ⟨{ m with type := data.length, dest := m.src, src := tty }, data⟩)

/-- The loop of `cook`, with `p` at `lbuf[k]`; `n` bytes of `lbuf` are left. -/
def cookLoop : ℕ → ℕ → Console → Except Fault Console
  | 0, _, _ => .error .outOfBounds
  | n + 1, k, c =>
    let x := c.lbuf k
    let c := { c with cbuf := Function.update c.cbuf c.r x, r := (c.r + 1) % cbufSz }
    if c.r = c.f then .error .cookedBufferFull
    else if x ≠ 0 then cookLoop n (k + 1) c
    else .ok c

/-- `cook`. A request of `rstk` is for this console. -/
def cook (tty : ℤ) (c : Console) : Except Fault (Console × Option Reply) := do
  let c ← cookLoop (lbufSz + 1) 0 c
  let c := { c with i := 0, lbuf := Function.update c.lbuf 0 0 }
  let c := c.onScreen fun s => s.cr.lf
  if c.rtop ≠ 0 then readRequest tty (c.rstk (c.rtop - 1)) { c with rtop := c.rtop - 1 }
  else return (c, none)

/-- `for (; c->lbuf[c->i + cc] != 0; cc ++);`, with `n` bytes of `lbuf` left. -/
def tailLoop (c : Console) : ℕ → ℕ → Except Fault ℕ
  | 0, _ => .error .outOfBounds
  | n + 1, cc => if c.lbuf (c.i + cc) ≠ 0 then tailLoop c n (cc + 1) else .ok cc

/-- The loop of `consl_accept` from `i = n` down. -/
def acceptLoop : ℕ → Console → Except Fault Console
  | 0, c => .ok c
  | n + 1, c =>
    let i := n + 1
    if c.i + i ≥ lbufSz then .error .lineBufferFull
    else
      let c := { c with lbuf := Function.update c.lbuf (c.i + i) (c.lbuf (c.i + i - 1)) }
      let c := if c.pos + (i : ℤ) = c.scr + c.wh + 1 then c.onScreen Screen.scrup else c
      acceptLoop n { c with mem := c.mem.copy (c.pos + i) (c.pos + i - 1) }

/-- `consl_accept`. -/
def conslAccept (ch : BitVec 8) (c : Console) : Except Fault Console := do
  let cc ← c.tailLoop (lbufSz + 1 - c.i) 0
  let c ← c.acceptLoop (cc + 1)
  let c := c.onScreen fun s => (s.putc ch).next
  if c.i ≥ lbufSz then .error .lineBufferFull
  else return { c with lbuf := Function.update c.lbuf c.i ch, i := c.i + 1 }

/-- `consl_feed`. The function keys choose the console that is shown, and
leave the consoles as they are. -/
def conslFeed (tty : ℤ) (key : ℤ) (c : Console) : Except Fault (Console × Option Reply) :=
  if key = kEntr then c.cook tty
  else if key = kDel then do
    let c ← c.movr
    let c ← c.2.backsp
    return (c, none)
  else if key = kBack then do
    let c ← c.backsp
    return (c, none)
  else if key = kLeft then .ok (c.movl.2, none)
  else if key = kRight then do
    let c ← c.movr
    return (c.2, none)
  else if key = kHome then .ok (c.homeLoop (c.i + 1), none)
  else if key = kEnd then do
    let c ← c.endLoop (lbufSz + 2 - c.i)
    return (c, none)
  else .ok (c, none)

/-- From `b[k]` on there is the string `t`: its bytes, and then the zero byte. -/
def Spells (b : ℕ → BitVec 8) : ℕ → List (BitVec 8) → Prop
  | k, [] => b k = 0
  | k, x :: t => b k = x ∧ x ≠ 0 ∧ Spells b (k + 1) t

instance (b : ℕ → BitVec 8) : ∀ (k : ℕ) (t : List (BitVec 8)), Decidable (Spells b k t)
  | k, [] => inferInstanceAs (Decidable (b k = 0))
  | k, x :: t =>
    have := instDecidableSpells b (k + 1) t
    inferInstanceAs (Decidable (b k = x ∧ x ≠ 0 ∧ Spells b (k + 1) t))

/-- `init_consl`, on a buffer that holds `cell`; `ttys` is zero before. -/
def init (cell : ℤ → Cell) : Console where
  toScreen := Screen.initConsl cell
  lbuf := fun _ => 0
  cbuf := fun _ => 0
  i := 0
  f := 0
  r := 0
  rtop := 0
  rstk := fun _ => MsgData.zero

/-- The cell `consl_sync` puts the hardware cursor on. The first row of the
hardware screen is the banner. -/
def hardwareCursor (c : Console) : ℤ := c.pos - c.scr + c.w

end Console

/-- The events on a console. -/
inductive Event
  /-- a key with a character -/
  | accept (ch : BitVec 8)
  /-- an editing key -/
  | feed (key : ℤ)
  /-- a byte of a `DEV_WRITE` -/
  | write (ch : BitVec 8)
  /-- a `DEV_READ` -/
  | read (m : MsgData)

namespace Console

/-- The handling of an event. -/
def handle (tty : ℤ) (c : Console) : Event → Except Fault (Console × Option Reply)
  | .accept ch => (c.conslAccept ch).map fun c => (c, none)
  | .feed key => c.conslFeed tty key
  | .write ch => .ok (c.onScreen fun s => s.conslWritec ch, none)
  | .read m => c.readRequest tty m

/-- One event; `none` if it ends in a fault. -/
def step (tty : ℤ) (c : Console) (e : Event) : Option Console :=
  ((c.handle tty e).map Prod.fst).toOption

end Console

/-! ### Results -/

theorem ok_of_bind {ε α β : Type} {x : Except ε α} {f : α → Except ε β} {b : β} (h : x >>= f = .ok b) :
    ∃ a, x = .ok a ∧ f a = .ok b := by
  cases x with
  | error e => cases h
  | ok a => exact ⟨a, rfl, h⟩

theorem ok_of_toOption {ε α β : Type} {x : Except ε (α × β)} {a : α}
    (h : (x.map Prod.fst).toOption = some a) : ∃ b, x = .ok (a, b) := by
  cases x with
  | error e => cases h
  | ok r =>
    obtain ⟨a', b⟩ := r
    cases h
    exact ⟨b, rfl⟩

end Tty
end NanoOS
