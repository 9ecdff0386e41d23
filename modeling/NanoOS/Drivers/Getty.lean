/-
# What is typed comes back in capitals

`init_getty` makes four threads of `getty`. Each takes the next name under the lock,
and from then on reads a line from the console of this name, turns its small letters
into capitals and writes it back, with a newline behind it. The lines come from
`ttyd`, which edits what is typed on the console that is shown, and other threads
write to the consoles in between.

`Typist` is what the keys do by themselves: it knows of no thread, no request and no
buffer. What the threads write is the echo of its lines, whoever runs when. The
messages wait in the mailbox of `ttyd` until it takes them, in any order.

Key definitions: `Getty`, `Terminals`, `Typist`, `Balanced`.
Key theorems: `readkey_typing`, `Balanced.enter`, `Balanced.request`, `Serves.step`,
`gettys_echo`.
-/
import Mathlib.Data.List.GetD
import NanoOS.Drivers.OwnReply
import NanoOS.Drivers.Tty.Cooked
import NanoOS.Drivers.Tty.Editor
import NanoOS.Drivers.Tty.Modifiers

namespace NanoOS
namespace Tty

open Trans Hal

/-! ### The threads -/

/-- Where a `getty` is; `count` bytes were read.
* `start`: before the lock, `read`: before `dev_read`
* `reading`: the request is in the mailbox of `ttyd`, `waiting`: `ttyd` has taken it
* `got`: after `dev_read`, `writing`: in the `dev_write` of the line
* `wrote`: after it, `ending`: in the `dev_write` of the newline -/
inductive Point
  | start
  | read
  | reading
  | waiting
  | got (count : ℕ)
  | writing (count : ℕ)
  | wrote
  | ending
  deriving DecidableEq

/-- A `getty`: the last digit of its `name`, and its `buf`. -/
structure Getty where
  digit : ℕ
  buf : ℕ → BitVec 8
  point : Point

/-- `name`, with its last character. -/
def ttyName (digit : ℕ) : String := String.ofList ['t', 't', 'y', Char.ofNat ('0'.toNat + digit)]

/-- The pids of the threads, the addresses of their `buf`s and of the string with the newline. -/
structure Threads where
  pid : Fin nrTty → ℤ
  buf : Fin nrTty → ℤ
  newline : ℤ
  injective : Function.Injective pid
  fromThread : ∀ i, pid i ≠ msgHardIntr

/-- `if (buf[i] >= 'a' && buf[i] <= 'z') buf[i] += 'A' - 'a'`. -/
def capital (b : BitVec 8) : BitVec 8 := if 97 ≤ b.toInt ∧ b.toInt ≤ 122 then b + BitVec.ofInt 8 (65 - 97) else b

namespace Getty

/-- The bytes of `buf` up to `n`. -/
def bytes (n : ℕ) (g : Getty) : List (BitVec 8) := (List.range n).map g.buf

/-- What the thread does by itself, with `tty_idx`: it takes a name, or comes to its next call of `dev_rw`,
which needs the device. -/
def run (P : Setup) (idx : ℕ) (g : Getty) : Option (ℕ × Getty) :=
  match g.point with
  | .start => some (idx + 1, { g with digit := idx, point := .read })
  | .read => (halGet (ttyName g.digit) P.devices).map fun _ => (idx, { g with point := .reading })
  | .got count => (halGet (ttyName g.digit) P.devices).map fun _ =>
      (idx, { g with buf := fun k => if k < count then capital (g.buf k) else g.buf k, point := .writing count })
  | .wrote => (halGet (ttyName g.digit) P.devices).map fun _ => (idx, { g with point := .ending })
  | _ => none

/-- The message of `dev_rw` that is in the mailbox of `ttyd`. -/
def msg (P : Setup) (T : Threads) (i : Fin nrTty) (g : Getty) : Option MsgData :=
  match g.point with
  | .reading => (halGet (ttyName g.digit) P.devices).map (devRwMsg (T.pid i) devRead (P.pid .tty) (T.buf i) 0 256)
  | .writing count =>
      (halGet (ttyName g.digit) P.devices).map (devRwMsg (T.pid i) devWrite (P.pid .tty) (T.buf i) 0 count)
  | .ending => (halGet (ttyName g.digit) P.devices).map (devRwMsg (T.pid i) devWrite (P.pid .tty) T.newline 0 1)
  | _ => none

/-- The bytes that are to be written. -/
def data (g : Getty) : ℕ → BitVec 8 := if g.point = .ending then fun _ => 10 else g.buf

/-- `ttyd` takes the message. -/
def taken (g : Getty) : Getty := if g.point = .reading then { g with point := .waiting } else g

/-- `receive` of a reply, in `dev_rw`; the bytes of a line are in `buf` by then. -/
def receive (rep : Reply) (g : Getty) : Getty :=
  match g.point with
  | .waiting => { g with
      buf := fun k => if k < rep.data.length then rep.data.getD k 0 else g.buf k, point := .got rep.msg.ret }
  | .writing _ => { g with point := .wrote }
  | .ending => { g with point := .read }
  | _ => g

end Getty

/-- `ttyd`, `tty_idx` and the threads. -/
structure Terminals where
  ttyd : Ttyd
  idx : ℕ
  getty : Fin nrTty → Getty

namespace Terminals

/-- After `init_tty`. -/
def init (cell : ℤ → Cell) (buf : Fin nrTty → ℕ → BitVec 8) : Terminals :=
  ⟨Ttyd.init cell, 1, fun i => ⟨0, buf i, .start⟩⟩

variable (P : Setup) (T : Threads)

/-- A reply comes to the thread that it is for. -/
def deliver (o : Option Reply) (s : Terminals) : Terminals :=
  match o with
  | none => s
  | some rep => { s with
      getty := fun i => if T.pid i = rep.msg.dest then (s.getty i).receive rep else s.getty i }

/-- Thread `i` runs. -/
def runGetty (i : Fin nrTty) (s : Terminals) : Option Terminals :=
  ((s.getty i).run P s.idx).map fun (idx, g) => { s with idx := idx, getty := Function.update s.getty i g }

/-- A round of `ttyd`. -/
def round (x : Input) (m : MsgData) (s : Terminals) : Option Terminals :=
  (s.ttyd.ttyd (P.pid .tty) x m).toOption.map fun (t, o) => deliver T o { s with ttyd := t }

/-- A round of `ttyd` with the message of thread `i`. -/
def serve (i : Fin nrTty) (s : Terminals) : Option Terminals :=
  ((s.getty i).msg P T i).bind fun m =>
    round P T ⟨0, (s.getty i).data⟩ m { s with getty := Function.update s.getty i (s.getty i).taken }

end Terminals

/-- What happens next. -/
inductive TermAct
  /-- a `getty` runs -/
  | run (i : Fin nrTty)
  /-- `ttyd` takes the message of a `getty` -/
  | serve (i : Fin nrTty)
  /-- `ttyd` takes a message of an interrupt, or of another thread -/
  | other (x : Input) (m : MsgData)

/-- The step; `none` if it is a panic, or if there is nothing to do. -/
def termStep (P : Setup) (T : Threads) (s : Terminals) : TermAct → Option Terminals
  | .run i => s.runGetty P i
  | .serve i => s.serve P T i
  | .other x m => s.round P T x m

/-- Only the `getty`s read from the consoles. -/
def TermOk (T : Threads) : TermAct → Prop
  | .run _ => True
  | .serve _ => True
  | .other _ m => m.src = msgHardIntr ∨ (m.type = devWrite ∧ ∀ i, T.pid i ≠ m.src)

/-! ### What it is for -/

/-- What is typed: the keys that are down, the console that is shown, and for each
console the text that is being edited and the lines that were ended. -/
structure Typist where
  keys : Keys
  current : Fin nrTty
  text : Fin nrTty → Editor (BitVec 8)
  lines : Fin nrTty → List (List (BitVec 8))

namespace Typist

theorem nrTty_pos : 0 < nrTty := by decide

/-- Nothing was typed. -/
def init : Typist := ⟨Keys.zero, ⟨0, nrTty_pos⟩, fun _ => .empty, fun _ => []⟩

/-- The text after the character of a key. -/
def typed (code : ℕ) (r : Typist) : Editor (BitVec 8) :=
  if r.keys.char code ≠ 0 then (r.text r.current).insert (BitVec.ofNat 8 (r.keys.char code)) else r.text r.current

/-- The console that a key chooses, from F1 on. -/
def chosen (code : ℕ) (r : Typist) : Fin nrTty :=
  if kF1 ≤ code then if hcode : code - kF1 < nrTty then ⟨code - kF1, hcode⟩ else r.current else r.current

/-- A scan code. -/
def key (code : ℕ) (r : Typist) : Typist :=
  if 128 ≤ code then { r with keys := r.keys.scan code }
  else
    { keys := r.keys.scan code
      current := r.chosen code
      text := Function.update r.text r.current (pressed code (r.typed code))
      lines := if (code : ℤ) = kEntr then
          Function.update r.lines r.current (r.lines r.current ++ [(r.typed code).text])
        else r.lines }

end Typist

/-- A line as it comes back. -/
def echo (l : List (BitVec 8)) : List (BitVec 8) := l.map capital ++ [10]

/-- What was typed, and what the `getty`s have written to each device. -/
structure TermLog where
  typist : Typist
  shown : ℤ → List (BitVec 8)

/-- Nothing yet. -/
def TermLog.init : TermLog := ⟨.init, fun _ => []⟩

/-- The log of an action. -/
def termLog (P : Setup) (T : Threads) (s : Terminals) (a : TermAct) (h : TermLog) : TermLog :=
  match a with
  | .run _ => h
  | .serve i =>
    match (s.getty i).msg P T i with
    | some m =>
      if m.type = devWrite then
        { h with
          shown := Function.update h.shown m.devId
            (h.shown m.devId ++ (List.range m.len.toNat).map (s.getty i).data) }
      else h
    | none => h
  | .other x m =>
    if m.src = msgHardIntr ∧ m.type = msgTtyGetkey then { h with typist := h.typist.key x.code } else h

/-! ### Keys -/

theorem halGet_ttyName (P : Setup) : ∀ j : Fin nrTty,
    halGet (ttyName (j + 1)) P.devices = some ⟨ttyName (j + 1), P.pid .tty, j⟩
  | ⟨0, _⟩ => rfl
  | ⟨1, _⟩ => rfl
  | ⟨2, _⟩ => rfl
  | ⟨3, _⟩ => rfl

/-- The same lines and the same requests wait. -/
structure SameQueue (c c' : Console) : Prop where
  cbuf : c'.cbuf = c.cbuf
  f : c'.f = c.f
  r : c'.r = c.r
  rtop : c'.rtop = c.rtop
  rstk : c'.rstk = c.rstk

namespace SameQueue

variable {c c' c'' : Console}

theorem refl (c : Console) : SameQueue c c := ⟨rfl, rfl, rfl, rfl, rfl⟩

theorem trans (h : SameQueue c c') (h' : SameQueue c' c'') : SameQueue c c'' :=
  ⟨h'.cbuf.trans h.cbuf, h'.f.trans h.f, h'.r.trans h.r, h'.rtop.trans h.rtop, h'.rstk.trans h.rstk⟩

theorem holding {ls : List (List (BitVec 8))} (h : SameQueue c c') (hc : Console.Holding c ls) :
    Console.Holding c' ls := by
  unfold Console.Holding
  rw [h.cbuf, h.f, h.r]
  exact hc

theorem held (h : SameQueue c c') : c'.held = c.held := Console.SameHeld.held ⟨h.rtop, h.rstk⟩

theorem writeAll (data : ℕ → BitVec 8) (n : ℕ) (c : Console) : SameQueue c (Ttyd.writeAll data n c) := by
  unfold Ttyd.writeAll
  induction n with
  | zero => exact refl c
  | succ n ih =>
    rw [List.range_succ, List.foldl_append, List.foldl_cons, List.foldl_nil]
    exact ih.trans ⟨rfl, rfl, rfl, rfl, rfl⟩

end SameQueue

section

variable {c c' : Console} {e : Editor (BitVec 8)} {tty : ℤ} {o : Option Reply}

theorem writeAll_line (data : ℕ → BitVec 8) (n : ℕ) (c : Console) :
    (Ttyd.writeAll data n c).lbuf = c.lbuf ∧ (Ttyd.writeAll data n c).i = c.i := by
  unfold Ttyd.writeAll
  induction n with
  | zero => exact ⟨rfl, rfl⟩
  | succ n ih =>
    rw [List.range_succ, List.foldl_append, List.foldl_cons, List.foldl_nil]
    exact ih

theorem conslAccept_sameQueue {ch : BitVec 8} (hL : Console.Edits c e) (h : c.conslAccept ch = .ok c') :
    SameQueue c c' := by
  rw [hL.line.conslAccept ch] at h
  by_cases hlen : e.text.length < 255
  · rw [if_pos hlen] at h
    cases h
    exact ⟨rfl, rfl, rfl, rfl, rfl⟩
  · rw [if_neg hlen] at h
    cases h

theorem movr_sameQueue {moved : Bool} (hL : Console.Edits c e) (h : c.movr = .ok (moved, c')) : SameQueue c c' := by
  rw [hL.line.movr] at h
  by_cases hi : c.i < e.text.length
  · rw [if_pos hi] at h
    cases h
    exact ⟨rfl, rfl, rfl, rfl, rfl⟩
  · rw [if_neg hi] at h
    cases h
    exact .refl c

theorem backsp_sameQueue (hL : Console.Edits c e) (h : c.backsp = .ok c') : SameQueue c c' := by
  rw [hL.line.backsp] at h
  by_cases hi : 0 < c.i
  · rw [if_pos hi] at h
    cases h
    exact ⟨rfl, rfl, rfl, rfl, rfl⟩
  · rw [if_neg hi] at h
    cases h
    exact .refl c

/-- Only Enter touches the lines that wait. -/
theorem conslFeed_sameQueue {key : ℤ} (hL : Console.Edits c e) (hkey : key ≠ kEntr)
    (h : c.conslFeed tty key = .ok (c', o)) : SameQueue c c' ∧ o = none := by
  unfold Console.conslFeed at h
  rw [if_neg hkey] at h
  by_cases hD : key = kDel
  · rw [if_pos hD] at h
    obtain ⟨⟨moved, c1⟩, h1, h⟩ := ok_of_bind h
    obtain ⟨c2, h2, h⟩ := ok_of_bind h
    cases h
    obtain ⟨moved', c1', h1', hL1⟩ := hL.movr
    rw [h1] at h1'
    cases h1'
    exact ⟨(movr_sameQueue hL h1).trans (backsp_sameQueue hL1 h2), rfl⟩
  rw [if_neg hD] at h
  by_cases hB : key = kBack
  · rw [if_pos hB] at h
    obtain ⟨c1, h1, h⟩ := ok_of_bind h
    cases h
    exact ⟨backsp_sameQueue hL h1, rfl⟩
  rw [if_neg hB] at h
  by_cases hl : key = kLeft
  · rw [if_pos hl] at h
    cases h
    unfold Console.movl
    by_cases hi : c.i ≠ 0
    · rw [if_pos hi]
      exact ⟨⟨rfl, rfl, rfl, rfl, rfl⟩, rfl⟩
    · rw [if_neg hi]
      exact ⟨.refl c, rfl⟩
  rw [if_neg hl] at h
  by_cases hr : key = kRight
  · rw [if_pos hr] at h
    obtain ⟨⟨moved, c1⟩, h1, h⟩ := ok_of_bind h
    cases h
    exact ⟨movr_sameQueue hL h1, rfl⟩
  rw [if_neg hr] at h
  by_cases hH : key = kHome
  · rw [if_pos hH, Console.homeLoop_eq _ _ (Nat.le_succ _)] at h
    cases h
    exact ⟨⟨rfl, rfl, rfl, rfl, rfl⟩, rfl⟩
  rw [if_neg hH] at h
  by_cases hE : key = kEnd
  · have hlen := hL.len
    rw [if_pos hE, hL.line.endLoop (by unfold lbufSz; omega)] at h
    cases h
    exact ⟨⟨rfl, rfl, rfl, rfl, rfl⟩, rfl⟩
  rw [if_neg hE] at h
  cases h
  exact ⟨.refl c, rfl⟩

theorem conslAccept_edits {ch : BitVec 8} (hL : Console.Edits c e) (hch : ch ≠ 0) (h : c.conslAccept ch = .ok c') :
    Console.Edits c' (e.insert ch) := by
  have haccept : (Event.accept ch).Ok := hch
  rcases hL.handle 0 haccept with ⟨c1, rep, h1, hE, -⟩ | ⟨h1, -⟩ | ⟨-, hno⟩
  · unfold Console.handle at h1
    dsimp only at h1
    rw [h] at h1
    cases h1
    exact hE
  · unfold Console.handle at h1
    dsimp only at h1
    rw [h] at h1
    cases h1
  · exact absurd rfl (hno ch)

theorem conslFeed_edits {key : ℤ} (hL : Console.Edits c e) (h : c.conslFeed tty key = .ok (c', o)) :
    Console.Edits c' (pressed key e) := by
  rcases hL.conslFeed tty key with ⟨c1, rep, h1, hE⟩ | hfail | hfail
  all_goals rw [h] at *
  · cases h1
    exact hE
  · cases hfail
  · cases hfail

end

theorem keychar_lt (row : ℤ) (code : ℕ) : keychar row code < 256 := by
  have hrow : ∀ l : List Char, (l.all fun x => decide (x.toNat < 256)) = true →
      (l.getD code '\x00').toNat < 256 := by
    intro l hl
    by_cases hcode : code < l.length
    · rw [List.getD_eq_getElem l _ hcode]
      exact of_decide_eq_true (List.all_eq_true.mp hl _ (List.getElem_mem hcode))
    · rw [List.getD_eq_default l _ (Nat.le_of_not_lt hcode)]
      decide
  unfold keychar
  by_cases h : row = 0
  · rw [if_pos h]
    exact hrow keychar0 (by decide)
  · rw [if_neg h]
    exact hrow keychar1 (by decide)

theorem Keys.char_lt (k : Keys) (code : ℕ) : k.char code < 256 := by
  unfold Keys.char
  by_cases h : 'a'.toNat ≤ keychar 0 code ∧ keychar 0 code ≤ 'z'.toNat
  · rw [if_pos h]
    exact keychar_lt _ code
  · rw [if_neg h]
    exact keychar_lt _ code

theorem Keys.char_enter (k : Keys) : k.char 28 = 0 := by
  have hrow : ∀ row, keychar row 28 = 0 := by
    intro row
    unfold keychar
    by_cases h : row = 0
    · rw [if_pos h]
      rfl
    · rw [if_neg h]
      rfl
  unfold Keys.char
  rw [if_neg (by rw [hrow]; decide)]
  exact hrow _

/-- The driver has what was typed. -/
structure Typing (s : Ttyd) (r : Typist) : Prop where
  keys : s.keys = r.keys
  current : s.current = r.current
  edits : ∀ j, Console.Edits (s.ttys j) (r.text j)

section

variable {s s' : Ttyd} {r : Typist} {tty : ℤ} {code : ℕ} {o : Option Reply}

/-- The character of a key is inserted on the console that is shown. -/
theorem acceptKey_typing (hT : Typing s r) (h : s.acceptKey code = .ok s') :
    s'.current = r.current ∧ (∀ j, j ≠ r.current → s'.ttys j = s.ttys j) ∧
      SameQueue (s.ttys r.current) (s'.ttys r.current) ∧ Console.Edits (s'.ttys r.current) (r.typed code) := by
  unfold Ttyd.acceptKey at h
  unfold Typist.typed
  rw [hT.keys, hT.current] at h
  by_cases hchar : r.keys.char code ≠ 0
  · rw [if_pos hchar] at h
    obtain ⟨c, hc, h⟩ := ok_of_bind h
    cases h
    have hch : BitVec.ofNat 8 (r.keys.char code) ≠ 0 := by
      intro hzero
      have hval := congrArg BitVec.toNat hzero
      rw [BitVec.toNat_ofNat, Nat.mod_eq_of_lt (r.keys.char_lt code)] at hval
      exact hchar hval
    rw [if_pos hchar]
    refine ⟨rfl, fun j hj => Function.update_of_ne hj _ _, ?_, ?_⟩
    · dsimp only
      rw [Function.update_self]
      exact conslAccept_sameQueue (hT.edits _) hc
    · dsimp only
      rw [Function.update_self]
      exact conslAccept_edits (hT.edits _) hch hc
  · rw [if_neg hchar] at h
    cases h
    rw [if_neg hchar]
    exact ⟨hT.current, fun _ _ => rfl, .refl _, hT.edits _⟩

/-- The keys that choose a console are handed to `consl_feed`. -/
theorem chosen_of_not_feeds (hfeed : ¬ feeds code = true) : ¬ (kF1 ≤ code ∧ code - kF1 < nrTty) := by
  rintro ⟨hlo, hhi⟩
  have hle : code ≤ kF6 := by
    unfold kF1 nrTty at *
    unfold kF6
    omega
  apply hfeed
  unfold feeds
  rw [Bool.or_eq_true, Bool.and_eq_true, decide_eq_true_eq, decide_eq_true_eq]
  exact Or.inr ⟨hlo, decide_eq_true hle⟩

theorem chosen_typing (hcurrent : s.current = r.current) : s.chosen code = r.chosen code := by
  unfold Ttyd.chosen Typist.chosen
  by_cases hlo : kF1 ≤ code
  · rw [if_pos hlo]
    by_cases hhi : code - kF1 < nrTty
    · rw [dif_pos ⟨hlo, hhi⟩, dif_pos hhi]
    · rw [dif_neg fun h => hhi h.2, dif_neg hhi]
      exact hcurrent
  · rw [dif_neg fun h => hlo h.1, if_neg hlo]
    exact hcurrent

theorem chosen_eq_of_not_feeds (hcurrent : s.current = r.current) (hfeed : ¬ feeds code = true) :
    r.chosen code = r.current := by
  calc r.chosen code = s.chosen code := (chosen_typing hcurrent).symm
    _ = s.current := dif_neg (chosen_of_not_feeds hfeed)
    _ = r.current := hcurrent

theorem pressed_of_not_feeds (hfeed : ¬ feeds code = true) (e : Editor (BitVec 8)) : pressed code e = e := by
  have hnot : (code : ℤ) ∉ [kEntr, kBack, kLeft, kRight, kHome, kEnd, kDel] := by
    intro hmem
    apply hfeed
    unfold feeds
    rw [Bool.or_eq_true, decide_eq_true_eq]
    exact Or.inl hmem
  simp only [List.mem_cons, List.not_mem_nil, or_false, not_or] at hnot
  obtain ⟨h1, h2, h3, h4, h5, h6, h7⟩ := hnot
  unfold pressed
  rw [if_neg h1, if_neg h7, if_neg h2, if_neg h3, if_neg h4, if_neg h5, if_neg h6]

/-- A key that goes down, where the driver has done to the console that is shown what
the key does to its text. -/
theorem Typing.key (hT : Typing s r) (hmake : ¬ 128 ≤ code) (hkeys : s'.keys = r.keys.scan code)
    (hcurrent : s'.current = r.chosen code) (hother : ∀ j, j ≠ r.current → s'.ttys j = s.ttys j)
    (hedits : Console.Edits (s'.ttys r.current) (pressed code (r.typed code))) : Typing s' (r.key code) := by
  unfold Typist.key
  rw [if_neg hmake]
  refine ⟨hkeys, hcurrent, fun j => ?_⟩
  dsimp only
  by_cases hj : j = r.current
  · rw [hj, Function.update_self]
    exact hedits
  · rw [Function.update_of_ne hj, hother j hj]
    exact hT.edits j

/-- Only Enter ends a line. -/
theorem lines_of_not_enter (henter : ¬ (code : ℤ) = kEntr) (r : Typist) : (r.key code).lines = r.lines := by
  unfold Typist.key
  by_cases hbreak : 128 ≤ code
  · rw [if_pos hbreak]
  · rw [if_neg hbreak]
    exact if_neg henter

theorem lines_enter (henter : (code : ℤ) = kEntr) (r : Typist) :
    (r.key code).lines = Function.update r.lines r.current (r.lines r.current ++ [(r.text r.current).text]) := by
  obtain rfl : code = 28 := Int.ofNat.inj henter
  have htyped : r.typed 28 = r.text r.current := by
    unfold Typist.typed
    rw [Keys.char_enter, if_neg (by decide)]
  unfold Typist.key
  rw [if_neg (by decide), htyped]
  dsimp only
  rw [if_pos henter]

theorem feed_typing (hT : Typing s r) {s1 : Ttyd} (h1 : s.acceptKey code = .ok s1) {c : Console}
    (hc : (s1.ttys r.current).conslFeed tty code = .ok (c, o)) :
    Console.Edits c (pressed code (r.typed code)) ∧
      (((r.key code).lines = r.lines ∧ o = none ∧ SameQueue (s.ttys r.current) c) ∨
        ((r.key code).lines = Function.update r.lines r.current (r.lines r.current ++ [(r.text r.current).text]) ∧
          (s.ttys r.current).cook tty = .ok (c, o))) := by
  obtain ⟨-, -, hqueue, hedits⟩ := acceptKey_typing hT h1
  refine ⟨conslFeed_edits hedits hc, ?_⟩
  by_cases henter : (code : ℤ) = kEntr
  · have hsame : s1 = s := by
      unfold Ttyd.acceptKey at h1
      rw [Int.ofNat.inj (henter : (code : ℤ) = ((28 : ℕ) : ℤ)), Keys.char_enter, if_neg (by decide)] at h1
      exact (Except.ok.inj h1).symm
    unfold Console.conslFeed at hc
    rw [if_pos henter, hsame] at hc
    exact Or.inr ⟨lines_enter henter r, hc⟩
  · obtain ⟨hsame, hnone⟩ := conslFeed_sameQueue hedits henter hc
    exact Or.inl ⟨lines_of_not_enter henter r, hnone, hqueue.trans hsame⟩

/-- **A scan code** does to the driver what it does to the text that is typed. Enter is
`cook`, for the text on the console that is shown; every other key leaves the lines that
wait as they are. -/
theorem readkey_typing (hT : Typing s r) (h : s.readkey tty code = .ok (s', o)) :
    Typing s' (r.key code) ∧ (∀ j, j ≠ r.current → s'.ttys j = s.ttys j) ∧
      (((r.key code).lines = r.lines ∧ o = none ∧ SameQueue (s.ttys r.current) (s'.ttys r.current)) ∨
        ((r.key code).lines = Function.update r.lines r.current (r.lines r.current ++ [(r.text r.current).text]) ∧
          (s.ttys r.current).cook tty = .ok (s'.ttys r.current, o))) := by
  have hkeys := readkey_keys h
  rw [hT.keys] at hkeys
  unfold Ttyd.readkey at h
  by_cases hbreak : 128 ≤ code
  · rw [if_pos hbreak] at h
    have hkey : r.key code = { r with keys := r.keys.scan code } := by
      unfold Typist.key
      rw [if_pos hbreak]
    rw [Except.ok.injEq, Prod.mk.injEq] at h
    obtain ⟨rfl, rfl⟩ := h
    rw [hkey]
    exact ⟨⟨hkeys, hT.current, hT.edits⟩, fun _ _ => rfl, Or.inl ⟨rfl, rfl, .refl _⟩⟩
  rw [if_neg hbreak] at h
  obtain ⟨s1, h1, h⟩ := ok_of_bind h
  obtain ⟨hcur, hother, hqueue, hedits⟩ := acceptKey_typing hT h1
  by_cases hfeed : feeds code = true
  · rw [if_pos hfeed] at h
    obtain ⟨⟨s2, o2⟩, h2, h⟩ := ok_of_bind h
    obtain ⟨⟨c, o1⟩, hc, h2⟩ := ok_of_bind h2
    simp only [pure, Except.pure, Except.ok.injEq, Prod.mk.injEq] at h h2
    obtain ⟨rfl, rfl⟩ := h2
    obtain ⟨rfl, rfl⟩ := h
    rw [hcur] at hc ⊢
    obtain ⟨hfed, hcases⟩ := feed_typing hT h1 hc
    have hothers : ∀ j, j ≠ r.current → Function.update s1.ttys r.current c j = s.ttys j := by
      intro j hj
      rw [Function.update_of_ne hj]
      exact hother j hj
    have hself : Function.update s1.ttys r.current c r.current = c := Function.update_self _ _ _
    rw [← hself] at hfed hcases
    exact ⟨hT.key hbreak hkeys (chosen_typing rfl) hothers hfed, hothers, hcases⟩
  rw [if_neg hfeed] at h
  by_cases hreset : code = kF12
  · rw [if_pos hreset] at h
    cases h
  rw [if_neg hreset] at h
  cases h
  have henter : ¬ (code : ℤ) = kEntr := by
    intro henter
    apply hfeed
    unfold feeds
    rw [Bool.or_eq_true, decide_eq_true_eq]
    exact Or.inl (henter ▸ List.mem_cons_self)
  have hchosen : s1.current = r.chosen code := hcur.trans (chosen_eq_of_not_feeds hcur hfeed).symm
  rw [← pressed_of_not_feeds hfeed (r.typed code)] at hedits
  exact ⟨hT.key hbreak hkeys hchosen hother hedits, hother, Or.inl ⟨lines_of_not_enter henter r, rfl, hqueue⟩⟩

end

/-! ### A console and its reader -/

/-- What the thread still has to write. -/
def Getty.owes (g : Getty) : List (BitVec 8) :=
  match g.point with
  | .got count => echo (g.bytes count)
  | .writing count => g.bytes count ++ [10]
  | .wrote => [10]
  | .ending => [10]
  | _ => []

/-- Of the lines of a console, `ls` wait for its reader `g`. What the reader has
written and what it owes is the echo of the others. It waits for `ttyd`, with its
request `m`, only when there is no line. -/
structure Balanced (m : MsgData) (g : Getty) (c : Console) (ls lines : List (List (BitVec 8)))
    (shown : List (BitVec 8)) : Prop where
  holding : Console.Holding c ls
  short : ∀ l ∈ ls, l.length ≤ 255
  count : ∀ n, g.point = .got n ∨ g.point = .writing n → n ≤ 255
  balance : shown ++ g.owes ++ ls.flatMap echo = lines.flatMap echo
  held : c.held = if g.point = .waiting then [m] else []
  blocked : g.point = .waiting → ls = []

section

variable {m : MsgData} {g g' : Getty} {c c' : Console} {ls lines : List (List (BitVec 8))}
  {shown shown' : List (BitVec 8)} {tty : ℤ} {o : Option Reply}

theorem held_length (c : Console) : c.held.length = c.rtop := by
  unfold Console.held
  rw [List.length_map, List.length_range]

/-- The reply of a request that was served says how many bytes there are. -/
theorem readRequest_count {rep : Reply} (h : c.readRequest tty m = .ok (c', some rep)) :
    rep.msg.type = rep.data.length := by
  unfold Console.readRequest at h
  by_cases he : c.f = c.r
  · rw [if_pos he] at h
    by_cases hfull : c.rtop = rstkSz
    · rw [if_pos hfull] at h
      cases h
    · rw [if_neg hfull] at h
      cases h
  · rw [if_neg he] at h
    obtain ⟨⟨data, c1⟩, h1, h⟩ := ok_of_bind h
    cases h
    rfl

theorem cook_count {rep : Reply} (h : c.cook tty = .ok (c', some rep)) : rep.msg.type = rep.data.length := by
  unfold Console.cook at h
  obtain ⟨c1, h1, h⟩ := ok_of_bind h
  dsimp only at h
  split_ifs at h
  · exact readRequest_count h
  · cases h

namespace Getty

theorem receive_line {rep : Reply} (hg : g.point = .waiting) (hcount : rep.msg.type = rep.data.length)
    (hlen : rep.data.length ≤ 255) :
    (g.receive rep).point = .got rep.data.length ∧ (g.receive rep).owes = echo rep.data := by
  have hret : rep.msg.ret = rep.data.length := by
    unfold MsgData.ret
    rw [hcount]
    unfold u32
    omega
  have hreceive : g.receive rep = { g with
      buf := fun k => if k < rep.data.length then rep.data.getD k 0 else g.buf k, point := .got rep.data.length } := by
    unfold receive
    rw [hg]
    dsimp only
    rw [hret]
  rw [hreceive]
  refine ⟨rfl, congrArg echo ?_⟩
  unfold bytes
  apply List.ext_getElem
  · rw [List.length_map, List.length_range]
  · intro k hk hk'
    rw [List.getElem_map, List.getElem_range]
    dsimp only
    rw [if_pos hk', List.getD_eq_getElem _ _ hk']

theorem receive_writing {rep : Reply} {n : ℕ} (hg : g.point = .writing n) :
    g.receive rep = { g with point := .wrote } := by
  unfold receive
  rw [hg]

theorem receive_ending {rep : Reply} (hg : g.point = .ending) : g.receive rep = { g with point := .read } := by
  unfold receive
  rw [hg]

end Getty

namespace Balanced

theorem same (h : Balanced m g c ls lines shown) (hq : SameQueue c c') : Balanced m g c' ls lines shown :=
  ⟨hq.holding h.holding, h.short, h.count, h.balance, hq.held.trans h.held, h.blocked⟩

theorem change (h : Balanced m g c ls lines shown) (hg : g.point ≠ .waiting) (hg' : g'.point ≠ .waiting)
    (hcount : ∀ n, g'.point = .got n ∨ g'.point = .writing n → n ≤ 255)
    (howes : shown' ++ g'.owes = shown ++ g.owes) (m' : MsgData) : Balanced m' g' c ls lines shown' where
  holding := h.holding
  short := h.short
  count := hcount
  balance := by
    rw [howes]
    exact h.balance
  held := by
    have hheld := h.held
    rw [if_neg hg] at hheld
    rw [if_neg hg']
    exact hheld
  blocked hw := absurd hw hg'

theorem waiting (h : Balanced m g c ls lines shown) (hg : g.point = .waiting) : c.rtop = 1 ∧ c.top = m := by
  have hheld := h.held
  rw [if_pos hg] at hheld
  have hlen := congrArg List.length hheld
  rw [held_length, List.length_singleton] at hlen
  refine ⟨hlen, ?_⟩
  unfold Console.held at hheld
  rw [hlen] at hheld
  unfold Console.top
  rw [hlen]
  exact (List.cons.inj hheld).1

theorem idle (h : Balanced m g c ls lines shown) (hg : g.point ≠ .waiting) : c.rtop = 0 := by
  have hheld := h.held
  rw [if_neg hg] at hheld
  rw [← held_length, hheld]
  rfl

theorem take_line {l : List (BitVec 8)} (hlen : l.length ≤ 255) (ls : List (List (BitVec 8))) :
    l.take 256 = l ∧ LineStream.rest 256 l ls = ls := by
  refine ⟨List.take_of_length_le (by omega), ?_⟩
  unfold LineStream.rest
  rw [if_pos (by omega)]

/-- **Enter**: the line waits, or goes to the reader. -/
theorem enter {e : Editor (BitVec 8)} (h : Balanced m g c ls lines shown) (hm : g.point = .waiting → m.len = 256)
    (hE : Console.Edits c e) (hc : c.cook tty = .ok (c', o)) :
    (o = none ∧ Balanced m g c' (ls ++ [e.text]) (lines ++ [e.text]) shown) ∨
    ∃ rep, g.point = .waiting ∧ o = some rep ∧ rep.msg.dest = m.src ∧
      Balanced m (g.receive rep) c' [] (lines ++ [e.text]) shown := by
  have hecho : (lines ++ [e.text]).flatMap echo = lines.flatMap echo ++ echo e.text := by
    rw [List.flatMap_append, List.flatMap_singleton]
  have hline : Console.Spells c.lbuf 0 e.text ∧ e.text.length ≤ 255 := ⟨hE.text, hE.len⟩
  rcases h.holding.cook hline hc with ⟨h0, ho, hhold, h0'⟩ | ⟨hne, hpop, rep, ho, hans⟩
  · left
    have hg : g.point ≠ .waiting := by
      intro hg
      have hone := (h.waiting hg).1
      omega
    refine ⟨ho, hhold, ?_, h.count, ?_, ?_, fun hw => absurd hw hg⟩
    · intro l hl
      rcases List.mem_append.mp hl with hl | hl
      · exact h.short l hl
      · rw [List.mem_singleton.mp hl]
        exact hE.len
    · calc shown ++ g.owes ++ (ls ++ [e.text]).flatMap echo
          = shown ++ g.owes ++ ls.flatMap echo ++ echo e.text := by
            rw [List.flatMap_append, List.flatMap_singleton, List.append_assoc (shown ++ g.owes)]
        _ = lines.flatMap echo ++ echo e.text := by rw [h.balance]
        _ = (lines ++ [e.text]).flatMap echo := hecho.symm
    · rw [if_neg hg]
      apply List.eq_nil_of_length_eq_zero
      rw [held_length, h0']
  · right
    have hg : g.point = .waiting := by
      by_contra hg
      exact hne (h.idle hg)
    obtain ⟨hone, htop⟩ := h.waiting hg
    have hls := h.blocked hg
    subst hls ho
    rw [htop, hm hg] at hans
    obtain ⟨l, ls', hl, -, hdata, hhold⟩ := hans
    obtain ⟨rfl, rfl⟩ := List.cons.inj hl
    obtain ⟨htake, hrest⟩ := take_line hE.len []
    have h256 : u32 256 = 256 := rfl
    rw [h256] at hdata hhold
    rw [htake] at hdata
    rw [hrest] at hhold
    have hlen : rep.data.length ≤ 255 := by
      rw [hdata]
      exact hE.len
    obtain ⟨hpoint, howes⟩ := Getty.receive_line hg (cook_count hc) hlen
    obtain ⟨-, ret, hrep⟩ := Console.cook_held hc
    refine ⟨rep, hg, rfl, ?_, hhold, fun l hl => absurd hl List.not_mem_nil, ?_, ?_, ?_, ?_⟩
    · rw [hrep, htop]
      rfl
    · rw [hpoint]
      rintro n (hn | hn)
      · cases hn
        exact hlen
      · cases hn
    · have hbalance := h.balance
      have hzero : g.owes = [] := by
        unfold Getty.owes
        rw [hg]
      rw [hzero, List.flatMap_nil, List.append_nil, List.append_nil] at hbalance
      rw [howes, hdata, hecho, ← hbalance, List.flatMap_nil, List.append_nil]
    · rw [hpoint, if_neg (by simp)]
      apply List.eq_nil_of_length_eq_zero
      rw [held_length, hpop, hone]
    · rw [hpoint]
      rintro ⟨⟩

/-- **A request** waits, or gets the next line. -/
theorem request (h : Balanced m g c ls lines shown) (hg : g.point = .reading) (hm : m.len = 256)
    (hr : c.readRequest tty m = .ok (c', o)) :
    (o = none ∧ c'.filled = c.filled ∧ Balanced m g.taken c' ls lines shown) ∨
    ∃ rep ls', o = some rep ∧ rep.msg.dest = m.src ∧ c'.filled < c.filled ∧
      Balanced m (g.taken.receive rep) c' ls' lines shown := by
  have hzero : g.owes = [] := by
    unfold Getty.owes
    rw [hg]
  have htaken : g.taken = { g with point := .waiting } := by
    unfold Getty.taken
    rw [if_pos hg]
  have hnot : g.point ≠ .waiting := by
    rw [hg]
    rintro ⟨⟩
  have hheld := h.held
  rw [if_neg hnot] at hheld
  have hhanded := Console.readRequest_held hr
  rcases h.holding.readRequest hr with ⟨hls, ho, hhold, htop⟩ | ⟨hls, hsame, rep, ho, hans⟩
  · left
    subst hls ho
    refine ⟨rfl, hhold.1.length_eq.trans h.holding.1.length_eq.symm, hhold, h.short, ?_, ?_, ?_, fun _ => rfl⟩
    · rw [htaken]
      rintro n (hn | hn)
      · cases hn
      · cases hn
    · have hbalance := h.balance
      rw [hzero] at hbalance
      rw [htaken]
      exact hbalance
    · rw [htaken, if_pos rfl]
      have hone : (c'.held : Multiset MsgData) = ([m] : List MsgData) := by
        have hafter : (c'.held : Multiset MsgData) = m ::ₘ (c.held : Multiset MsgData) := hhanded
        rw [hafter, hheld]
        rfl
      exact List.perm_singleton.mp (Multiset.coe_eq_coe.mp hone)
  · right
    subst ho
    obtain ⟨-, ret, hrep⟩ := hhanded
    obtain ⟨l, ls', rfl, -, hdata, hhold⟩ := hans
    have hl := h.short l List.mem_cons_self
    obtain ⟨htake, hrest⟩ := take_line hl ls'
    have h256 : u32 m.len = 256 := by
      rw [hm]
      rfl
    rw [h256] at hdata hhold
    rw [htake] at hdata
    rw [hrest] at hhold
    have hlen : rep.data.length ≤ 255 := by
      rw [hdata]
      exact hl
    have hwait : g.taken.point = .waiting := by rw [htaken]
    obtain ⟨hpoint, howes⟩ := Getty.receive_line hwait (readRequest_count hr) hlen
    refine ⟨rep, ls', rfl, ?_, ?_, hhold, fun l' hl' => h.short l' (List.mem_cons_of_mem _ hl'), ?_, ?_, ?_, ?_⟩
    · rw [hrep]
      rfl
    · have hafter : c'.filled = (LineStream.encode 0 ls').length := hhold.1.length_eq
      have hbefore : c.filled = (LineStream.encode 0 (l :: ls')).length := h.holding.1.length_eq
      rw [hafter, hbefore, LineStream.encode_cons, List.length_append, List.length_cons]
      omega
    · rw [hpoint]
      rintro n (hn | hn)
      · cases hn
        exact hlen
      · cases hn
    · calc shown ++ (g.taken.receive rep).owes ++ ls'.flatMap echo
          = shown ++ (echo l ++ ls'.flatMap echo) := by rw [howes, hdata, List.append_assoc]
        _ = shown ++ g.owes ++ (l :: ls').flatMap echo := by rw [hzero, List.append_nil, List.flatMap_cons]
        _ = lines.flatMap echo := h.balance
    · rw [hpoint, if_neg (by simp), hsame.held, hheld]
    · rw [hpoint]
      rintro ⟨⟩

end Balanced

end

/-! ### The driver and the threads -/

theorem eq_ok_of_toOption {ε α : Type} {x : Except ε α} {a : α} (h : x.toOption = some a) : x = .ok a := by
  cases x with
  | error e => cases h
  | ok b => exact congrArg Except.ok (Option.some.inj h)

/-- The device of a console. -/
def ttyDev (P : Setup) (j : Fin nrTty) : Dev := ⟨ttyName (j + 1), P.pid .tty, j⟩

/-- The request of thread `i` for a line of console `j`. -/
def lineRequest (P : Setup) (T : Threads) (i j : Fin nrTty) : MsgData :=
  devRwMsg (T.pid i) devRead (P.pid .tty) (T.buf i) 0 256 (ttyDev P j)

section

variable {m : MsgData} {j : Fin nrTty}

theorem devId_toNat (hdev : m.devId = j) (_ : 0 ≤ m.devId ∧ m.devId < nrTty) :
    (⟨m.devId.toNat, by omega⟩ : Fin nrTty) = j := by
  apply Fin.ext
  show m.devId.toNat = j
  omega

theorem ttyd_readRequest (t : Ttyd) (tty : ℤ) (x : Input) (hm : m.fromThread) (htype : m.type = devRead)
    (hdev : m.devId = j) : t.ttyd tty x m = t.onTty j (Console.readRequest tty m) := by
  have hrange : 0 ≤ m.devId ∧ m.devId < nrTty := by
    have hlt := j.isLt
    omega
  unfold Ttyd.ttyd
  rw [if_neg hm, if_pos htype, dif_pos hrange, devId_toNat hdev hrange]

theorem ttyd_writeAll (t : Ttyd) (tty : ℤ) (x : Input) (hm : m.fromThread) (htype : m.type = devWrite)
    (hdev : m.devId = j) : t.ttyd tty x m =
      .ok ({ t with ttys := Function.update t.ttys j (Ttyd.writeAll x.data m.len.toNat (t.ttys j)) },
        some ⟨m.answer tty m.len, []⟩) := by
  have hrange : 0 ≤ m.devId ∧ m.devId < nrTty := by
    have hlt := j.isLt
    omega
  unfold Ttyd.ttyd
  rw [if_neg hm, if_neg (by rw [htype]; decide), if_pos htype, dif_pos hrange, devId_toNat hdev hrange]
  rfl

theorem Typing.update {t : Ttyd} {r : Typist} {c : Console} (hT : Typing t r) (hc : Console.Edits c (r.text j)) :
    Typing { t with ttys := Function.update t.ttys j c } r := by
  refine ⟨hT.keys, hT.current, fun k => ?_⟩
  dsimp only
  by_cases hk : k = j
  · rw [hk, Function.update_self]
    exact hc
  · rw [Function.update_of_ne hk]
    exact hT.edits k

end

/-- The message of a thread in `dev_write`. -/
def lineWrite (P : Setup) (T : Threads) (i j : Fin nrTty) (buf len : ℤ) : MsgData :=
  devRwMsg (T.pid i) devWrite (P.pid .tty) buf 0 len (ttyDev P j)

theorem Getty.msg_reading (P : Setup) (T : Threads) (i : Fin nrTty) {j : Fin nrTty} {g : Getty}
    (hg : g.point = .reading) (hdigit : g.digit = j + 1) : g.msg P T i = some (lineRequest P T i j) := by
  unfold Getty.msg
  rw [hg, hdigit, halGet_ttyName]
  rfl

theorem Getty.msg_writing (P : Setup) (T : Threads) (i : Fin nrTty) {j : Fin nrTty} {g : Getty} {n : ℕ}
    (hg : g.point = .writing n) (hdigit : g.digit = j + 1) :
    g.msg P T i = some (lineWrite P T i j (T.buf i) n) := by
  unfold Getty.msg
  rw [hg, hdigit, halGet_ttyName]
  rfl

theorem Getty.msg_ending (P : Setup) (T : Threads) (i : Fin nrTty) {j : Fin nrTty} {g : Getty}
    (hg : g.point = .ending) (hdigit : g.digit = j + 1) : g.msg P T i = some (lineWrite P T i j T.newline 1) := by
  unfold Getty.msg
  rw [hg, hdigit, halGet_ttyName]
  rfl

/-- How much is left to do up to the next wait; a line that waits counts as 6. -/
def Point.work : Point → ℕ
  | .start => 3
  | .read => 2
  | .reading => 1
  | .waiting => 0
  | .got _ => 6
  | .writing _ => 5
  | .wrote => 4
  | .ending => 3

namespace Terminals

/-- What the threads and `ttyd` have left to do. -/
def work (s : Terminals) : ℕ := (∑ i, (s.getty i).point.work) + 6 * ∑ j, (s.ttyd.ttys j).filled

/-- The thread that reads from a console, if there is one. -/
def reader (s : Terminals) : Option (Fin nrTty) → Getty
  | some i => s.getty i
  | none => ⟨0, fun _ => 0, .start⟩

theorem sum_update (f : Fin nrTty → ℕ) (i : Fin nrTty) (x : ℕ) :
    (∑ k, Function.update f i x k) + f i = (∑ k, f k) + x := by
  have hsum := Finset.sum_erase_add Finset.univ f (Finset.mem_univ i)
  rw [Finset.sum_update_of_mem (Finset.mem_univ i), ← Finset.erase_eq]
  omega

theorem work_update (s : Terminals) (idx : ℕ) (i j : Fin nrTty) (g : Getty) (c : Console) :
    work { ttyd := { s.ttyd with ttys := Function.update s.ttyd.ttys j c }, idx := idx,
           getty := Function.update s.getty i g } + (s.getty i).point.work + 6 * (s.ttyd.ttys j).filled =
      s.work + g.point.work + 6 * c.filled := by
  have hthreads := sum_update (fun k => (s.getty k).point.work) i g.point.work
  have hconsoles := sum_update (fun k => (s.ttyd.ttys k).filled) j c.filled
  have hg : ∀ k, (Function.update s.getty i g k).point.work =
      Function.update (fun k => (s.getty k).point.work) i g.point.work k :=
    fun k => Function.apply_update (fun _ g => g.point.work) s.getty i g k
  have hc : ∀ k, (Function.update s.ttyd.ttys j c k).filled =
      Function.update (fun k => (s.ttyd.ttys k).filled) j c.filled k :=
    fun k => Function.apply_update (fun _ c => c.filled) s.ttyd.ttys j c k
  unfold work
  simp only [hg, hc]
  omega

theorem deliver_pid {T : Threads} {rep : Reply} {i : Fin nrTty} (hdest : rep.msg.dest = T.pid i) (s : Terminals) :
    deliver T (some rep) s = { s with getty := Function.update s.getty i ((s.getty i).receive rep) } := by
  unfold deliver
  dsimp only
  congr 1
  funext k
  by_cases hk : k = i
  · rw [hk, hdest, if_pos rfl, Function.update_self]
  · have hne : T.pid k ≠ T.pid i := fun heq => hk (T.injective heq)
    rw [hdest, if_neg hne, Function.update_of_ne hk]

theorem deliver_other {T : Threads} {rep : Reply} (hdest : ∀ i, T.pid i ≠ rep.msg.dest) (s : Terminals) :
    deliver T (some rep) s = s := by
  unfold deliver
  dsimp only
  have hgetty : (fun i => if T.pid i = rep.msg.dest then (s.getty i).receive rep else s.getty i) = s.getty :=
    funext fun i => if_neg (hdest i)
  rw [hgetty]

end Terminals

/-- What holds between two steps: `seat` says which thread reads from a console. -/
structure Serves (P : Setup) (T : Threads) (s : Terminals) (h : TermLog)
    (seat : Fin nrTty → Option (Fin nrTty)) : Prop where
  typing : Typing s.ttyd h.typist
  console : ∀ j, ∃ ls, Balanced ((seat j).elim MsgData.zero fun i => lineRequest P T i j) (s.reader (seat j))
    (s.ttyd.ttys j) ls (h.typist.lines j) (h.shown j)
  seated : ∀ i (j : Fin nrTty), seat j = some i ↔ (s.getty i).digit = j + 1
  start : ∀ i, (s.getty i).point = .start ↔ (s.getty i).digit = 0
  below : ∀ i, (s.getty i).digit < s.idx
  named : s.idx = 1 + (Finset.univ.filter fun i => (s.getty i).digit ≠ 0).card

namespace Serves

variable {P : Setup} {T : Threads} {s s' : Terminals} {h h' : TermLog} {seat : Fin nrTty → Option (Fin nrTty)}
  {i j : Fin nrTty}

theorem seat_of (hS : Serves P T s h seat) (hi : (s.getty i).point ≠ .start) :
    ∃ j, seat j = some i ∧ (s.getty i).digit = j + 1 := by
  have hne : (s.getty i).digit ≠ 0 := fun h0 => hi ((hS.start i).mpr h0)
  have hlt := hS.below i
  have hcard : (Finset.univ.filter fun i => (s.getty i).digit ≠ 0).card ≤ nrTty := by
    calc (Finset.univ.filter fun i => (s.getty i).digit ≠ 0).card ≤ (Finset.univ : Finset (Fin nrTty)).card :=
          Finset.card_le_card (Finset.filter_subset _ _)
      _ = nrTty := Finset.card_fin nrTty
  have hnamed := hS.named
  have hdigit : (s.getty i).digit = ((⟨(s.getty i).digit - 1, by omega⟩ : Fin nrTty) : ℕ) + 1 := by
    dsimp only
    omega
  exact ⟨_, (hS.seated i _).mpr hdigit, hdigit⟩

theorem balanced (hS : Serves P T s h seat) (hseat : seat j = some i) :
    ∃ ls, Balanced (lineRequest P T i j) (s.getty i) (s.ttyd.ttys j) ls (h.typist.lines j) (h.shown j) := by
  have hconsole := hS.console j
  rw [hseat] at hconsole
  exact hconsole

/-- **A thread and its console change**, and the log of this console with them. -/
theorem put (hS : Serves P T s h seat) (hseat : seat j = some i) {g : Getty} (hdigit : g.digit = (s.getty i).digit)
    (hpoint : g.point ≠ .start) {t : Ttyd} (ht : ∀ k, k ≠ j → t.ttys k = s.ttyd.ttys k) (hT : Typing t h'.typist)
    (hlines : ∀ k, k ≠ j → h'.typist.lines k = h.typist.lines k ∧ h'.shown k = h.shown k)
    (hb : ∃ ls, Balanced (lineRequest P T i j) g (t.ttys j) ls (h'.typist.lines j) (h'.shown j)) :
    Serves P T { s with ttyd := t, getty := Function.update s.getty i g } h' seat := by
  have hdigits : ∀ k, (Function.update s.getty i g k).digit = (s.getty k).digit := by
    intro k
    by_cases hk : k = i
    · rw [hk, Function.update_self]
      exact hdigit
    · rw [Function.update_of_ne hk]
  refine ⟨hT, fun k => ?_, fun k l => ?_, fun k => ?_, fun k => ?_, ?_⟩
  · by_cases hk : k = j
    · rw [hk, hseat]
      unfold Terminals.reader
      dsimp only [Option.elim]
      rw [Function.update_self]
      exact hb
    · obtain ⟨ls, hbal⟩ := hS.console k
      have hreader : Terminals.reader { s with ttyd := t, getty := Function.update s.getty i g } (seat k) =
          s.reader (seat k) := by
        cases hkseat : seat k with
        | none => rfl
        | some i' =>
          have hne : i' ≠ i := by
            rintro rfl
            have hkj := ((hS.seated _ _).mp hkseat).symm.trans ((hS.seated _ _).mp hseat)
            exact hk (Fin.ext (by omega))
          exact Function.update_of_ne hne _ _
      rw [hreader]
      dsimp only
      rw [ht k hk, (hlines k hk).1, (hlines k hk).2]
      exact ⟨ls, hbal⟩
  · rw [hdigits]
    exact hS.seated k l
  · rw [hdigits]
    by_cases hk : k = i
    · have hnot : ¬ (s.getty i).digit = 0 := by
        have hj := (hS.seated i j).mp hseat
        omega
      rw [hk]
      dsimp only
      rw [Function.update_self]
      exact ⟨fun hs => absurd hs hpoint, fun h0 => absurd h0 hnot⟩
    · dsimp only
      rw [Function.update_of_ne hk]
      exact hS.start k
  · rw [hdigits]
    exact hS.below k
  · simp only [hdigits]
    exact hS.named

theorem change (hS : Serves P T s h seat) {g : Getty} (p q : Point) (hp : (s.getty i).point = p) (hq : g.point = q)
    (hpoint : (p ≠ .start ∧ p ≠ .waiting) ∧ q ≠ .start ∧ q ≠ .waiting)
    (hcount : ∀ n, q = .got n ∨ q = .writing n → n ≤ 255) (hdigit : g.digit = (s.getty i).digit)
    (howes : g.owes = (s.getty i).owes) : Serves P T { s with getty := Function.update s.getty i g } h seat := by
  subst hp hq
  obtain ⟨j, hseat, -⟩ := hS.seat_of hpoint.1.1
  obtain ⟨ls, hb⟩ := hS.balanced hseat
  exact hS.put hseat hdigit hpoint.2.1 (fun _ _ => rfl) hS.typing (fun _ _ => ⟨rfl, rfl⟩)
    ⟨ls, hb.change hpoint.1.2 hpoint.2.2 hcount (congrArg (h.shown j ++ ·) howes) _⟩

/-- The work that is left when a thread has come nearer to its next wait. -/
theorem work_lt (s : Terminals) (idx : ℕ) {g : Getty} (p q : Point) (hp : (s.getty i).point = p) (hq : g.point = q)
    (hlt : q.work < p.work) : Terminals.work { s with idx := idx, getty := Function.update s.getty i g } < s.work := by
  subst hp hq
  have hwork := s.work_update idx i i g (s.ttyd.ttys i)
  rw [Function.update_eq_self] at hwork
  have hsame : ({ s with idx := idx, getty := Function.update s.getty i g } : Terminals).work =
      ({ ttyd := { s.ttyd with ttys := s.ttyd.ttys }, idx := idx,
         getty := Function.update s.getty i g } : Terminals).work := rfl
  omega

theorem capitals_owes {g : Getty} {n : ℕ} (hg : g.point = .got n) :
    Getty.owes { g with buf := fun k => if k < n then capital (g.buf k) else g.buf k, point := .writing n } =
      g.owes := by
  have hbytes : ∀ k ∈ List.range n, (if k < n then capital (g.buf k) else g.buf k) = capital (g.buf k) :=
    fun k hk => if_pos (List.mem_range.mp hk)
  unfold Getty.owes
  rw [hg]
  dsimp only
  unfold echo Getty.bytes
  rw [List.map_congr_left hbytes, List.map_map]
  rfl

/-- The thread with the next name. -/
def Named (i : Fin nrTty) (s : Terminals) : Terminals :=
  { s with idx := s.idx + 1, getty := Function.update s.getty i { s.getty i with digit := s.idx, point := .read } }

theorem getty_named_self (i : Fin nrTty) (s : Terminals) :
    (Named i s).getty i = { s.getty i with digit := s.idx, point := .read } := Function.update_self _ _ _

theorem getty_named_of_ne (s : Terminals) {k : Fin nrTty} (hk : k ≠ i) : (Named i s).getty k = s.getty k :=
  Function.update_of_ne hk _ _

/-- A thread without a name finds one, of a console that nobody reads from. -/
theorem exists_free (hS : Serves P T s h seat) (hzero : (s.getty i).digit = 0) :
    ∃ j : Fin nrTty, s.idx = j + 1 ∧ seat j = none := by
  have hnot : i ∉ Finset.univ.filter fun i => (s.getty i).digit ≠ 0 := by
    rw [Finset.mem_filter]
    exact fun hmem => hmem.2 hzero
  have hcard : s.idx ≤ nrTty := by
    calc s.idx = (Finset.univ.filter fun i => (s.getty i).digit ≠ 0).card + 1 := hS.named.trans (Nat.add_comm _ _)
      _ = (insert i (Finset.univ.filter fun i => (s.getty i).digit ≠ 0)).card :=
          (Finset.card_insert_of_notMem hnot).symm
      _ ≤ (Finset.univ : Finset (Fin nrTty)).card := Finset.card_le_card (Finset.subset_univ _)
      _ = nrTty := Finset.card_fin nrTty
  have hnamed := hS.named
  obtain ⟨j, hj⟩ : ∃ j : Fin nrTty, s.idx = j + 1 := ⟨⟨s.idx - 1, by omega⟩, by dsimp only; omega⟩
  refine ⟨j, hj, ?_⟩
  cases hseat : seat j with
  | none => rfl
  | some k =>
    have hk := (hS.seated k j).mp hseat
    have hlt := hS.below k
    omega

/-- The console of the name gets its reader, which owes nothing; the others keep theirs. -/
theorem console_named (hS : Serves P T s h seat) (hzero : (s.getty i).digit = 0) (hfree : seat j = none)
    (k : Fin nrTty) : ∃ ls, Balanced ((Function.update seat j (some i) k).elim MsgData.zero fun i => lineRequest P T i k)
      ((Named i s).reader (Function.update seat j (some i) k)) (s.ttyd.ttys k) ls (h.typist.lines k) (h.shown k) := by
  obtain ⟨ls, hb⟩ := hS.console k
  refine ⟨ls, ?_⟩
  by_cases hk : k = j
  · rw [hk] at hb ⊢
    rw [hfree] at hb
    rw [Function.update_self]
    have hread : (Named i s).reader (some i) = { s.getty i with digit := s.idx, point := .read } :=
      getty_named_self i s
    have howes : h.shown j ++ Getty.owes { s.getty i with digit := s.idx, point := .read } =
        h.shown j ++ (s.reader none).owes := rfl
    rw [hread]
    refine hb.change (fun hw => Point.noConfusion hw) (fun hw => Point.noConfusion hw) ?_ howes _
    rintro n (hn | hn)
    · exact Point.noConfusion hn
    · exact Point.noConfusion hn
  · have hreader : (Named i s).reader (seat k) = s.reader (seat k) := by
      cases hkseat : seat k with
      | none => rfl
      | some i' =>
        refine getty_named_of_ne s ?_
        rintro rfl
        have hdigit := (hS.seated _ _).mp hkseat
        omega
    rw [Function.update_of_ne hk, hreader]
    exact hb

theorem seated_named (hS : Serves P T s h seat) (hzero : (s.getty i).digit = 0) (hj : s.idx = j + 1)
    (k l : Fin nrTty) :
    Function.update seat j (some i) l = some k ↔ ((Named i s).getty k).digit = l + 1 := by
  by_cases hk : k = i
  · rw [hk, getty_named_self]
    dsimp only
    by_cases hl : l = j
    · rw [hl, Function.update_self]
      exact ⟨fun _ => hj, fun _ => rfl⟩
    · rw [Function.update_of_ne hl]
      constructor
      · intro hseat
        have hdigit := (hS.seated i l).mp hseat
        omega
      · intro hdigit
        exact absurd (Fin.ext (by omega)) hl
  · rw [getty_named_of_ne s hk]
    by_cases hl : l = j
    · have hlt := hS.below k
      rw [hl, Function.update_self]
      constructor
      · intro hseat
        exact absurd (Option.some.inj hseat).symm hk
      · intro hdigit
        omega
    · rw [Function.update_of_ne hl]
      exact hS.seated k l

theorem card_named (hzero : (s.getty i).digit = 0) (hidx : s.idx ≠ 0) :
    (Finset.univ.filter fun k => ((Named i s).getty k).digit ≠ 0).card =
      (Finset.univ.filter fun k => (s.getty k).digit ≠ 0).card + 1 := by
  have hnot : i ∉ Finset.univ.filter fun k => (s.getty k).digit ≠ 0 := by
    rw [Finset.mem_filter]
    exact fun hmem => hmem.2 hzero
  have hinsert : (Finset.univ.filter fun k => ((Named i s).getty k).digit ≠ 0) =
      insert i (Finset.univ.filter fun k => (s.getty k).digit ≠ 0) := by
    ext k
    rw [Finset.mem_insert, Finset.mem_filter, Finset.mem_filter]
    by_cases hk : k = i
    · rw [hk, getty_named_self]
      exact ⟨fun _ => Or.inl rfl, fun _ => ⟨Finset.mem_univ _, hidx⟩⟩
    · rw [getty_named_of_ne s hk]
      exact ⟨Or.inr, fun hor => hor.resolve_left hk⟩
  rw [hinsert, Finset.card_insert_of_notMem hnot]

/-- **A thread takes a name**: there is one, and it is that of a console that nobody reads from. -/
theorem takesName (hS : Serves P T s h seat) (hi : (s.getty i).point = .start) :
    ∃ seat', Serves P T (Named i s) h seat' := by
  have hzero := (hS.start i).mp hi
  obtain ⟨j, hj, hfree⟩ := hS.exists_free hzero
  have hidx : (Named i s).idx = s.idx + 1 := rfl
  refine ⟨Function.update seat j (some i), hS.typing, hS.console_named hzero hfree, hS.seated_named hzero hj,
    fun k => ?_, fun k => ?_, ?_⟩
  · by_cases hk : k = i
    · rw [hk, getty_named_self]
      constructor
      · intro hs
        cases hs
      · intro h0
        dsimp only at h0
        omega
    · rw [getty_named_of_ne s hk]
      exact hS.start k
  · by_cases hk : k = i
    · rw [hk, getty_named_self, hidx]
      exact Nat.lt_succ_self _
    · have hlt := hS.below k
      rw [getty_named_of_ne s hk, hidx]
      omega
  · have hnamed := hS.named
    rw [card_named hzero (by omega), hidx]
    omega

/-- **A thread runs**: it takes its name, or goes on with its console. -/
theorem run (hS : Serves P T s h seat) (hst : s.runGetty P i = some s') :
    (∃ seat', Serves P T s' h seat') ∧ s'.work < s.work := by
  obtain ⟨⟨idx, g⟩, hrun, rfl⟩ := Option.map_eq_some_iff.mp hst
  dsimp only
  unfold Getty.run at hrun
  have hno : ∀ p : Point, (∀ n, p ≠ .got n) → (∀ n, p ≠ .writing n) → ∀ n, p = .got n ∨ p = .writing n → n ≤ 255 :=
    fun p hgot hwriting n hn => hn.elim (fun heq => absurd heq (hgot n)) fun heq => absurd heq (hwriting n)
  cases hpoint : (s.getty i).point with
  | start =>
    rw [hpoint] at hrun
    cases hrun
    exact ⟨hS.takesName hpoint, work_lt s _ .start .read hpoint rfl (by decide)⟩
  | read =>
    rw [hpoint] at hrun
    obtain ⟨dev, -, heq⟩ := Option.map_eq_some_iff.mp hrun
    cases heq
    refine ⟨⟨seat, hS.change .read .reading hpoint rfl (by decide) (hno _ (by simp) (by simp)) rfl ?_⟩,
      work_lt s _ .read .reading hpoint rfl (by decide)⟩
    unfold Getty.owes
    rw [hpoint]
  | got n =>
    rw [hpoint] at hrun
    obtain ⟨dev, -, heq⟩ := Option.map_eq_some_iff.mp hrun
    cases heq
    obtain ⟨j, hseat, -⟩ := hS.seat_of (i := i) (by simp [hpoint])
    obtain ⟨ls, hb⟩ := hS.balanced hseat
    refine ⟨⟨seat, hS.change (.got n) (.writing n) hpoint rfl (by simp) ?_ rfl (capitals_owes hpoint)⟩,
      work_lt s _ (.got n) (.writing n) hpoint rfl (Nat.lt_succ_self 5)⟩
    rintro k (hk | hk)
    · cases hk
    · cases hk
      exact hb.count n (Or.inl hpoint)
  | wrote =>
    rw [hpoint] at hrun
    obtain ⟨dev, -, heq⟩ := Option.map_eq_some_iff.mp hrun
    cases heq
    refine ⟨⟨seat, hS.change .wrote .ending hpoint rfl (by decide) (hno _ (by simp) (by simp)) rfl ?_⟩,
      work_lt s _ .wrote .ending hpoint rfl (by decide)⟩
    unfold Getty.owes
    rw [hpoint]
  | reading | waiting | writing n | ending =>
    rw [hpoint] at hrun
    cases hrun

theorem turn (hS : Serves P T s h seat) {t : Ttyd} (hT : Typing t h'.typist)
    (hc : ∀ j, ∃ ls, Balanced ((seat j).elim MsgData.zero fun i => lineRequest P T i j) (s.reader (seat j))
      (t.ttys j) ls (h'.typist.lines j) (h'.shown j)) : Serves P T { s with ttyd := t } h' seat := by
  refine ⟨hT, fun j => ?_, hS.seated, hS.start, hS.below, hS.named⟩
  have hreader : Terminals.reader { s with ttyd := t } (seat j) = s.reader (seat j) := by
    cases seat j with
    | none => rfl
    | some i => rfl
  rw [hreader]
  exact hc j

theorem serve_reading (hS : Serves P T s h seat) (hpoint : (s.getty i).point = .reading)
    (hst : s.serve P T i = some s') : Serves P T s' (termLog P T s (.serve i) h) seat ∧ s'.work < s.work := by
  obtain ⟨j, hseat, hdigit⟩ := hS.seat_of (i := i) (by simp [hpoint])
  obtain ⟨ls, hb⟩ := hS.balanced hseat
  have hmsg := Getty.msg_reading P T i hpoint hdigit
  have hlog : termLog P T s (.serve i) h = h := by
    unfold termLog
    dsimp only
    rw [hmsg]
    exact if_neg (fun htype => absurd (show devRead = devWrite from htype) (by decide))
  rw [hlog]
  have hread := ttyd_readRequest (m := lineRequest P T i j) (j := j) s.ttyd (P.pid .tty) ⟨0, (s.getty i).data⟩
    (T.fromThread i) rfl rfl
  unfold Terminals.serve Terminals.round at hst
  rw [hmsg, Option.bind_some, hread] at hst
  obtain ⟨⟨t, o⟩, hround, rfl⟩ := Option.map_eq_some_iff.mp hst
  obtain ⟨⟨c', o'⟩, hc, heq⟩ := ok_of_bind (eq_ok_of_toOption hround)
  cases heq
  have hT : Typing { s.ttyd with ttys := Function.update s.ttyd.ttys j c' } h.typist := by
    refine hS.typing.update ?_
    rcases Console.readRequest_sameLine (P.pid .tty) (lineRequest P T i j) (s.ttyd.ttys j) with
      ⟨c1, rep, h1, -, hlbuf, hi⟩ | hfail
    · rw [hc] at h1
      cases h1
      exact (hS.typing.edits j).congr hlbuf hi
    · rw [hc] at hfail
      cases hfail
  have ht : ∀ k, k ≠ j → Function.update s.ttyd.ttys j c' k = s.ttyd.ttys k := fun k hk => Function.update_of_ne hk _ _
  have hself : Function.update s.ttyd.ttys j c' j = c' := Function.update_self _ _ _
  have htaken : (s.getty i).taken = { s.getty i with point := .waiting } := by
    unfold Getty.taken
    rw [if_pos hpoint]
  rcases hb.request hpoint rfl hc with ⟨rfl, hfilled, hb'⟩ | ⟨rep, ls', rfl, hdest, hfilled, hb'⟩
  · refine ⟨hS.put hseat (by rw [htaken]) (by simp [htaken]) ht hT (fun _ _ => ⟨rfl, rfl⟩) ⟨ls, ?_⟩, ?_⟩
    · dsimp only
      rw [hself]
      exact hb'
    · have hwork := s.work_update s.idx i j (s.getty i).taken c'
      rw [hfilled, hpoint, htaken] at hwork
      rw [htaken]
      unfold Terminals.deliver
      dsimp only [Point.work] at hwork ⊢
      omega
  · dsimp only
    rw [Terminals.deliver_pid hdest]
    dsimp only
    rw [Function.update_idem, Function.update_self]
    have hgot : ∃ n, ((s.getty i).taken.receive rep).point = .got n := by
      rw [htaken]
      exact ⟨_, rfl⟩
    obtain ⟨n, hgot⟩ := hgot
    refine ⟨hS.put hseat (by rw [htaken]; rfl) (by simp [hgot]) ht hT (fun _ _ => ⟨rfl, rfl⟩) ⟨ls', ?_⟩, ?_⟩
    · dsimp only
      rw [hself]
      exact hb'
    · have hwork := s.work_update s.idx i j ((s.getty i).taken.receive rep) c'
      rw [hpoint, hgot] at hwork
      dsimp only [Point.work] at hwork
      omega

theorem serve_write (hS : Serves P T s h seat) (hseat : seat j = some i) {p q : Point} (hp : (s.getty i).point = p)
    {b len : ℤ} (hmsg : (s.getty i).msg P T i = some (lineWrite P T i j b len)) (hpoint : p ≠ .reading ∧ p ≠ .waiting)
    {g : Getty} (hg : ∀ rep, (s.getty i).receive rep = g) (hdigit : g.digit = (s.getty i).digit) (hq : g.point = q)
    (hnext : (q ≠ .start ∧ q ≠ .waiting) ∧ ∀ n, q ≠ .got n ∧ q ≠ .writing n)
    (howes : (List.range len.toNat).map (s.getty i).data ++ g.owes = (s.getty i).owes) (hlt : q.work < p.work)
    (hst : s.serve P T i = some s') : Serves P T s' (termLog P T s (.serve i) h) seat ∧ s'.work < s.work := by
  subst hp hq
  obtain ⟨ls, hb⟩ := hS.balanced hseat
  have hlog : termLog P T s (.serve i) h = { h with
      shown := Function.update h.shown j (h.shown j ++ (List.range len.toNat).map (s.getty i).data) } := by
    unfold termLog
    dsimp only
    rw [hmsg]
    exact if_pos rfl
  have htaken : (s.getty i).taken = s.getty i := by
    unfold Getty.taken
    rw [if_neg hpoint.1]
  have hwrite := ttyd_writeAll (m := lineWrite P T i j b len) (j := j) s.ttyd (P.pid .tty) ⟨0, (s.getty i).data⟩
    (T.fromThread i) rfl rfl
  unfold Terminals.serve Terminals.round at hst
  rw [hmsg, Option.bind_some, hwrite, htaken, Function.update_eq_self] at hst
  obtain ⟨⟨t, o⟩, hround, rfl⟩ := Option.map_eq_some_iff.mp hst
  cases hround
  dsimp only
  rw [Terminals.deliver_pid (i := i) rfl, hlog]
  dsimp only
  rw [hg]
  obtain ⟨c', hc'⟩ : ∃ c', c' = Ttyd.writeAll (s.getty i).data (lineWrite P T i j b len).len.toNat (s.ttyd.ttys j) :=
    ⟨_, rfl⟩
  have hqueue : SameQueue (s.ttyd.ttys j) c' := hc' ▸ SameQueue.writeAll _ _ _
  have hedits : Console.Edits c' (h.typist.text j) := by
    obtain ⟨hlbuf, hi⟩ := writeAll_line (s.getty i).data (lineWrite P T i j b len).len.toNat (s.ttyd.ttys j)
    rw [← hc'] at hlbuf hi
    exact (hS.typing.edits j).congr hlbuf hi
  rw [← hc']
  constructor
  · refine hS.put hseat hdigit hnext.1.1 (fun k hk => Function.update_of_ne hk _ _) (hS.typing.update hedits)
      (fun k hk => ⟨rfl, ?_⟩) ⟨ls, ?_⟩
    · have hne : (k : ℤ) ≠ (j : ℤ) := fun heq => hk (Fin.ext (by omega))
      dsimp only
      rw [Function.update_of_ne hne]
    · dsimp only
      rw [Function.update_self, Function.update_self]
      have hnext' : Balanced (lineRequest P T i j) g (s.ttyd.ttys j) ls (h.typist.lines j)
          (h.shown j ++ (List.range len.toNat).map (s.getty i).data) := by
        refine hb.change hpoint.2 hnext.1.2 (fun n hn => ?_) ?_ _
        · exact hn.elim (fun hn => absurd hn (hnext.2 n).1) fun hn => absurd hn (hnext.2 n).2
        · rw [List.append_assoc, howes]
      exact hnext'.same hqueue
  · have hwork := s.work_update s.idx i j g c'
    have hfilled : c'.filled = (s.ttyd.ttys j).filled := by
      unfold Console.filled
      rw [hqueue.f, hqueue.r]
    dsimp only at hwork ⊢
    omega

/-- **`ttyd` takes the message of a thread.** -/
theorem serve (hS : Serves P T s h seat) (hst : s.serve P T i = some s') :
    Serves P T s' (termLog P T s (.serve i) h) seat ∧ s'.work < s.work := by
  have hname : (s.getty i).point ≠ .start → ∃ j, seat j = some i ∧ (s.getty i).digit = j + 1 := hS.seat_of
  cases hpoint : (s.getty i).point with
  | reading => exact hS.serve_reading hpoint hst
  | writing n =>
    obtain ⟨j, hseat, hdigit⟩ := hname (by simp [hpoint])
    obtain ⟨ls, hb⟩ := hS.balanced hseat
    have hn := hb.count n (Or.inr hpoint)
    have hmsg := Getty.msg_writing P T i hpoint hdigit
    have hdata : (s.getty i).data = (s.getty i).buf := by
      unfold Getty.data
      rw [if_neg (by simp [hpoint])]
    refine hS.serve_write (q := .wrote) hseat hpoint hmsg (by simp) (fun _ => Getty.receive_writing hpoint) rfl rfl
      (by simp) ?_ (Nat.lt_succ_self 4) hst
    unfold Getty.owes Getty.bytes
    rw [hpoint, hdata, Int.toNat_natCast]
  | ending =>
    obtain ⟨j, hseat, hdigit⟩ := hname (by simp [hpoint])
    have hmsg := Getty.msg_ending P T i hpoint hdigit
    have hdata : (s.getty i).data = fun _ => 10 := by
      unfold Getty.data
      rw [if_pos hpoint]
    refine hS.serve_write (q := .read) hseat hpoint hmsg (by simp) (fun _ => Getty.receive_ending hpoint) rfl rfl
      (by simp) ?_ (by decide) hst
    unfold Getty.owes
    rw [hpoint, hdata]
    rfl
  | start | read | waiting | got n | wrote =>
    have hnone : (s.getty i).msg P T i = none := by
      unfold Getty.msg
      rw [hpoint]
    unfold Terminals.serve at hst
    rw [hnone] at hst
    cases hst

/-- A scan code: what is typed on a console goes to the lines that wait there, or to their reader. -/
theorem key (hS : Serves P T s h seat) {code : ℕ} {t : Ttyd} {o : Option Reply}
    (hrun : s.ttyd.readkey (P.pid .tty) code = .ok (t, o)) :
    Serves P T (Terminals.deliver T o { s with ttyd := t }) { h with typist := h.typist.key code } seat := by
  obtain ⟨hT, hother, hcur⟩ := readkey_typing hS.typing hrun
  rcases hcur with ⟨hlines, rfl, hqueue⟩ | ⟨hlines, hcook⟩
  · refine hS.turn hT fun j => ?_
    obtain ⟨ls, hb⟩ := hS.console j
    dsimp only
    rw [hlines]
    by_cases hj : j = h.typist.current
    · rw [hj] at hb ⊢
      exact ⟨ls, hb.same hqueue⟩
    · rw [hother j hj]
      exact ⟨ls, hb⟩
  · have hsame : ∀ k, k ≠ h.typist.current → (h.typist.key code).lines k = h.typist.lines k := by
      intro k hk
      rw [hlines, Function.update_of_ne hk]
    have hself : (h.typist.key code).lines h.typist.current =
        h.typist.lines h.typist.current ++ [(h.typist.text h.typist.current).text] := by
      rw [hlines, Function.update_self]
    obtain ⟨ls, hb⟩ := hS.console h.typist.current
    have hlen : (s.reader (seat h.typist.current)).point = .waiting →
        ((seat h.typist.current).elim MsgData.zero fun i => lineRequest P T i h.typist.current).len = 256 := by
      cases seat h.typist.current with
      | none => exact fun hw => Point.noConfusion hw
      | some i => exact fun _ => rfl
    rcases hb.enter hlen (hS.typing.edits _) hcook with ⟨rfl, hb'⟩ | ⟨rep, hwait, rfl, hdest, hb'⟩
    · refine hS.turn hT fun k => ?_
      dsimp only
      by_cases hk : k = h.typist.current
      · rw [hk, hself]
        exact ⟨_, hb'⟩
      · rw [hother k hk, hsame k hk]
        exact hS.console k
    · cases hseat : seat h.typist.current with
      | none =>
        rw [hseat] at hwait
        exact Point.noConfusion hwait
      | some i =>
        rw [hseat] at hwait hdest hb'
        rw [Terminals.deliver_pid hdest]
        have hgot : ∃ n, ((s.getty i).receive rep).point = .got n := by
          unfold Getty.receive
          rw [show (s.getty i).point = .waiting from hwait]
          exact ⟨_, rfl⟩
        have hdigit : ((s.getty i).receive rep).digit = (s.getty i).digit := by
          unfold Getty.receive
          rw [show (s.getty i).point = .waiting from hwait]
        obtain ⟨n, hgot⟩ := hgot
        refine hS.put hseat hdigit (by simp [hgot]) hother hT (fun k hk => ⟨hsame k hk, rfl⟩) ⟨[], ?_⟩
        dsimp only
        rw [hself]
        exact hb'

/-- **`ttyd` takes another message**: a scan code, an update of the banner, or a write of another thread. -/
theorem other (hS : Serves P T s h seat) {x : Input} {m : MsgData} (hok : TermOk T (.other x m))
    (hst : s.round P T x m = some s') : Serves P T s' (termLog P T s (.other x m) h) seat := by
  unfold Terminals.round at hst
  obtain ⟨⟨t, o⟩, hround, rfl⟩ := Option.map_eq_some_iff.mp hst
  have hrun := eq_ok_of_toOption hround
  dsimp only
  unfold termLog
  dsimp only
  by_cases hsrc : m.src = msgHardIntr
  · unfold Ttyd.ttyd at hrun
    rw [if_pos hsrc] at hrun
    by_cases hkey : m.type = msgTtyGetkey
    · rw [if_pos hkey] at hrun
      rw [if_pos ⟨hsrc, hkey⟩]
      exact hS.key hrun
    rw [if_neg hkey] at hrun
    rw [if_neg fun hboth => hkey hboth.2]
    by_cases hup : m.type = msgTtyUpdate
    · rw [if_pos hup] at hrun
      cases hrun
      exact hS
    · rw [if_neg hup] at hrun
      cases hrun
  obtain ⟨hwrite, hpid⟩ := hok.resolve_left hsrc
  rw [if_neg fun hboth => hsrc hboth.1]
  by_cases hdev : 0 ≤ m.devId ∧ m.devId < nrTty
  · obtain ⟨j, hj⟩ : ∃ j : Fin nrTty, m.devId = j := ⟨⟨m.devId.toNat, by omega⟩, by dsimp only; omega⟩
    rw [ttyd_writeAll s.ttyd _ x hsrc hwrite hj] at hrun
    cases hrun
    rw [Terminals.deliver_other (fun i => hpid i)]
    have hedits : Console.Edits (Ttyd.writeAll x.data m.len.toNat (s.ttyd.ttys j)) (h.typist.text j) := by
      obtain ⟨hlbuf, hi⟩ := writeAll_line x.data m.len.toNat (s.ttyd.ttys j)
      exact (hS.typing.edits j).congr hlbuf hi
    refine hS.turn (hS.typing.update hedits) fun k => ?_
    obtain ⟨ls, hb⟩ := hS.console k
    dsimp only
    by_cases hk : k = j
    · rw [hk] at hb ⊢
      rw [Function.update_self]
      exact ⟨ls, hb.same (.writeAll _ _ _)⟩
    · rw [Function.update_of_ne hk]
      exact ⟨ls, hb⟩
  · unfold Ttyd.ttyd at hrun
    rw [if_neg hsrc, if_neg (by rw [hwrite]; decide), if_pos hwrite, dif_neg hdev] at hrun
    cases hrun

theorem init (P : Setup) (T : Threads) (cell : ℤ → Cell) (buf : Fin nrTty → ℕ → BitVec 8) :
    Serves P T (Terminals.init cell buf) TermLog.init fun _ => none := by
  refine ⟨⟨rfl, rfl, fun j => Console.edits_empty rfl rfl⟩, fun j => ⟨[], ?_⟩, fun i j => ?_, fun i => ?_, fun i => ?_,
    ?_⟩
  · refine ⟨⟨BoundedBuffer.Holds.nil (show 0 < cbufSz by decide), by simp⟩, by simp, ?_, rfl, rfl, fun _ => rfl⟩
    rintro n (hn | hn)
    · cases hn
    · cases hn
  · constructor
    · rintro ⟨⟩
    · intro hdigit
      exact absurd hdigit (Nat.succ_ne_zero j).symm
  · exact ⟨fun _ => rfl, fun _ => rfl⟩
  · exact Nat.one_pos
  · rfl

/-- A thread that cannot go on, with nothing of it in the mailbox of `ttyd`, waits for a line. -/
theorem waits (hS : Serves P T s h seat) (hrun : s.runGetty P i = none) (hserve : s.serve P T i = none) :
    (s.getty i).point = .waiting := by
  unfold Terminals.runGetty Getty.run at hrun
  have hname : (s.getty i).point ≠ .start → ∃ j, seat j = some i ∧ (s.getty i).digit = j + 1 := hS.seat_of
  have hget : (s.getty i).point ≠ .start → (halGet (ttyName (s.getty i).digit) P.devices).isSome = true := by
    intro hstart
    obtain ⟨j, -, hdigit⟩ := hname hstart
    rw [hdigit, halGet_ttyName]
    rfl
  have hanswered : ∀ m r, (s.getty i).msg P T i = some m →
      s.ttyd.ttyd (P.pid .tty) ⟨0, (s.getty i).data⟩ m ≠ .ok r := by
    intro m r hmsg hok
    unfold Terminals.serve Terminals.round at hserve
    rw [hmsg, Option.bind_some] at hserve
    dsimp only at hserve
    rw [hok] at hserve
    cases hserve
  cases hpoint : (s.getty i).point with
  | waiting => rfl
  | start =>
    rw [hpoint] at hrun
    cases hrun
  | read | got n | wrote =>
    obtain ⟨dev, hdev⟩ := Option.isSome_iff_exists.mp (hget (by simp [hpoint]))
    rw [hpoint, hdev] at hrun
    cases hrun
  | reading =>
    obtain ⟨j, hseat, hdigit⟩ := hname (by simp [hpoint])
    obtain ⟨ls, hb⟩ := hS.balanced hseat
    have hmsg := Getty.msg_reading P T i hpoint hdigit
    have hread := ttyd_readRequest (m := lineRequest P T i j) (j := j) s.ttyd (P.pid .tty) ⟨0, (s.getty i).data⟩
      (T.fromThread i) rfl rfl
    rcases Console.readRequest_sameLine (P.pid .tty) (lineRequest P T i j) (s.ttyd.ttys j) with
      ⟨c, rep, hc, -⟩ | hfail
    · refine absurd ?_ (hanswered _ ({ s.ttyd with ttys := Function.update s.ttyd.ttys j c }, rep) hmsg)
      rw [hread]
      unfold Ttyd.onTty
      rw [hc]
      rfl
    · have hidle := hb.idle (by simp [hpoint])
      unfold Console.readRequest at hfail
      by_cases hempty : (s.ttyd.ttys j).f = (s.ttyd.ttys j).r
      · rw [if_pos hempty, if_neg (by rw [hidle]; decide)] at hfail
        cases hfail
      · unfold Console.getCooked at hfail
        rw [if_neg hempty, if_neg hempty] at hfail
        cases hfail
  | writing n =>
    obtain ⟨j, hseat, hdigit⟩ := hname (by simp [hpoint])
    have hmsg := Getty.msg_writing P T i hpoint hdigit
    exact absurd (ttyd_writeAll (m := lineWrite P T i j (T.buf i) n) (j := j) s.ttyd (P.pid .tty)
      ⟨0, (s.getty i).data⟩ (T.fromThread i) rfl rfl) (hanswered _ _ hmsg)
  | ending =>
    obtain ⟨j, hseat, hdigit⟩ := hname (by simp [hpoint])
    have hmsg := Getty.msg_ending P T i hpoint hdigit
    exact absurd (ttyd_writeAll (m := lineWrite P T i j T.newline 1) (j := j) s.ttyd (P.pid .tty)
      ⟨0, (s.getty i).data⟩ (T.fromThread i) rfl rfl) (hanswered _ _ hmsg)

/-- **Every step.** -/
theorem step (hS : Serves P T s h seat) {a : TermAct} (hok : TermOk T a) (hst : termStep P T s a = some s') :
    ∃ seat', Serves P T s' (termLog P T s a h) seat' := by
  cases a with
  | run i => exact (hS.run hst).1
  | serve i => exact ⟨seat, (hS.serve hst).1⟩
  | other x m => exact ⟨seat, hS.other hok hst⟩

/-- When every thread waits, there is one at every console. -/
theorem seat_surjective (hS : Serves P T s h seat) (hwait : ∀ i, (s.getty i).point = .waiting) (j : Fin nrTty) :
    ∃ i, seat j = some i := by
  have hseat : ∀ i, ∃ j, seat j = some i := by
    intro i
    obtain ⟨j, hj, -⟩ := hS.seat_of (i := i) (by simp [hwait i])
    exact ⟨j, hj⟩
  choose console hconsole using hseat
  have hinj : Function.Injective console := by
    intro i k hik
    have hi := hconsole i
    rw [hik, hconsole k] at hi
    exact (Option.some.inj hi).symm
  obtain ⟨i, hi⟩ := Finite.injective_iff_surjective.mp hinj j
  exact ⟨i, hi ▸ hconsole i⟩

end Serves

/-- A step of a `getty`, or of `ttyd` for it. -/
def IsWork : TermAct → Prop
  | .run _ => True
  | .serve _ => True
  | .other _ _ => False

/-- **What is typed comes back in capitals.** Whatever is typed on whichever console, in
whatever order the threads and `ttyd` run, and whatever other threads write in between:
what the `getty`s have written on a console is the beginning of the echo of the lines
that were typed on it. Every step of theirs leaves less work to do, and when there is
none left the whole echo is written. -/
theorem gettys_echo (P : Setup) (T : Threads) (cell : ℤ → Cell) (buf : Fin nrTty → ℕ → BitVec 8) {s : Terminals}
    {h : TermLog} (hr : Reach (withHistory (termStep P T) (termLog P T)) (fun _ a => TermOk T a)
      (Terminals.init cell buf, TermLog.init) (s, h)) :
    (∀ j : Fin nrTty, h.shown j <+: (h.typist.lines j).flatMap echo) ∧
    (∀ a s', IsWork a → termStep P T s a = some s' → s'.work < s.work) ∧
    ((∀ a, IsWork a → termStep P T s a = none) → ∀ j : Fin nrTty, h.shown j = (h.typist.lines j).flatMap echo) := by
  obtain ⟨seat, hS⟩ : ∃ seat, Serves P T s h seat := by
    refine hr.invariant (I := fun p => ∃ seat, Serves P T p.1 p.2 seat) ⟨_, Serves.init P T cell buf⟩ ?_
    rintro p a p' ⟨seat, hS⟩ hok hst
    obtain ⟨hstep, hlog⟩ := withHistory_eq_some.mp hst
    rw [hlog]
    exact hS.step hok hstep
  refine ⟨fun j => ?_, fun a s' ha hst => ?_, fun hdone j => ?_⟩
  · obtain ⟨ls, hb⟩ := hS.console j
    have hbalance := hb.balance
    rw [List.append_assoc] at hbalance
    exact ⟨_, hbalance⟩
  · cases a with
    | run i => exact (hS.run hst).2
    | serve i => exact (hS.serve hst).2
    | other x m => exact ha.elim
  · have hwait : ∀ i, (s.getty i).point = .waiting :=
      fun i => hS.waits (hdone (.run i) trivial) (hdone (.serve i) trivial)
    obtain ⟨i, hseat⟩ := hS.seat_surjective hwait j
    obtain ⟨ls, hb⟩ := hS.balanced hseat
    have hls := hb.blocked (hwait i)
    have howes : (s.getty i).owes = [] := by
      unfold Getty.owes
      rw [hwait i]
    have hbalance := hb.balance
    rw [hls, howes, List.append_nil, List.flatMap_nil, List.append_nil] at hbalance
    exact hbalance

instance (T : Threads) : ∀ a, Decidable (TermOk T a)
  | .run _ => inferInstanceAs (Decidable True)
  | .serve _ => inferInstanceAs (Decidable True)
  | .other _ m => inferInstanceAs (Decidable (m.src = msgHardIntr ∨ (m.type = devWrite ∧ ∀ i, T.pid i ≠ m.src)))

/-- The threads as `init_getty` makes them. -/
def bootThreads : Threads where
  pid i := 3 + i
  buf _ := 0
  newline := 0
  injective i k h := by
    dsimp only at h
    exact Fin.ext (by omega)
  fromThread i := by
    unfold msgHardIntr
    omega

/-- A thread, or a console, by its number. -/
def nth (k : Fin 4) : Fin nrTty := k

/-- A scan code. -/
def scanned (code : ℕ) : TermAct :=
  .other ⟨code, fun _ => 0⟩ { MsgData.zero with src := msgHardIntr, type := msgTtyGetkey }

/-- The last thread takes the first name, and "hi" is typed; then all threads wait. -/
theorem gettys_echo_hi : ∃ (s : Terminals) (h : TermLog), (s.getty (nth 3)).digit = 1 ∧
    h.typist.lines (nth 0) = [[104, 105]] ∧ h.shown (nth 0) = [72, 73, 10] := by
  obtain ⟨⟨s, h⟩, hr, hdigit, hlines, hwait⟩ : ∃ p : Terminals × TermLog,
      Reach (withHistory (termStep System.bootSetup bootThreads) (termLog System.bootSetup bootThreads))
        (fun _ a => TermOk bootThreads a) (Terminals.init (fun _ => blank) fun _ _ => 0, TermLog.init) p ∧
      (p.1.getty (nth 3)).digit = 1 ∧ p.2.typist.lines (nth 0) = [[104, 105]] ∧ ∀ i, (p.1.getty i).point = .waiting :=
    Reach.exists_of_exec [.run (nth 3), .run (nth 3), scanned 35, .run (nth 0), .serve (nth 3), scanned 23,
      .run (nth 0), scanned 28, .run (nth 3), .serve (nth 3), .run (nth 3), .serve (nth 0), .serve (nth 3),
      .run (nth 3), .serve (nth 3), .run (nth 1), .run (nth 1), .serve (nth 1), .run (nth 2), .run (nth 2),
      .serve (nth 2)] (by decide +kernel)
  refine ⟨s, h, hdigit, hlines, ?_⟩
  have hdone : ∀ a, IsWork a → termStep System.bootSetup bootThreads s a = none := by
    intro a ha
    cases a with
    | run i =>
      show Option.map _ ((s.getty i).run System.bootSetup s.idx) = none
      unfold Getty.run
      rw [hwait i]
      rfl
    | serve i =>
      show Option.bind ((s.getty i).msg System.bootSetup bootThreads i) _ = none
      unfold Getty.msg
      rw [hwait i]
      rfl
    | other x m => exact ha.elim
  have hall := (gettys_echo System.bootSetup bootThreads _ _ hr).2.2 hdone (nth 0)
  rw [hlines] at hall
  exact hall.trans (by decide)

end Tty
end NanoOS
