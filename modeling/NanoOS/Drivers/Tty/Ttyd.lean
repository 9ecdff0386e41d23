/-
# The terminal driver

`ttyd` serves the keyboard interrupt and the requests for the four consoles.
A read request that finds no line waits in `rstk` of its console until one is
typed; the key that ends the line has `cook` answer the request that came
last.

Key definitions: `Ttyd`, `readkey`, `ttyd`, `Console.held`.
Key theorems: `readRequest_held`, `cook_held`, `conslFeed_held`, `ttyd_held`.
-/
import Mathlib.Algebra.BigOperators.Fin
import Mathlib.Algebra.Order.Group.Multiset
import NanoOS.Drivers.Tty.Keyboard

namespace NanoOS
namespace Tty

/-- `MSG_TTY_GETKEY`. -/
def msgTtyGetkey : ℤ := 1

/-- `MSG_TTY_UPDATE`. -/
def msgTtyUpdate : ℤ := 2

/-- The modifier keys, `ttys` and `current_consl`. -/
structure Ttyd where
  keys : Keys
  ttys : Fin nrTty → Console
  current : Fin nrTty

/-- What the outside gives the driver while it serves a message: the scan code
`in_byte(0x60)`, and the bytes `copy_to_kernel` finds in the buffer of a
`DEV_WRITE`. -/
structure Input where
  code : ℕ
  data : ℕ → BitVec 8

namespace Ttyd

/-- After `init_console`. -/
def init (cell : ℤ → Cell) : Ttyd := ⟨Keys.zero, fun _ => Console.init cell, ⟨0, by decide⟩⟩

/-- What is done to console `j`. -/
def onTty (j : Fin nrTty) (f : Console → Except Fault (Console × Option Reply)) (s : Ttyd) :
    Except Fault (Ttyd × Option Reply) := do
  let (c, o) ← f (s.ttys j)
  return ({ s with ttys := Function.update s.ttys j c }, o)

/-- `consl_accept` of the key's character, if it has one. -/
def acceptKey (code : ℕ) (s : Ttyd) : Except Fault Ttyd :=
  if s.keys.char code ≠ 0 then do
    let c ← (s.ttys s.current).conslAccept (BitVec.ofNat 8 (s.keys.char code))
    return { s with ttys := Function.update s.ttys s.current c }
  else return s

/-- `current_consl` after `consl_feed`: F1 to F4 choose a console. -/
def chosen (code : ℕ) (s : Ttyd) : Fin nrTty :=
  if h : kF1 ≤ code ∧ code - kF1 < nrTty then ⟨code - kF1, h.2⟩ else s.current

/-- `readkey`. -/
def readkey (tty : ℤ) (code : ℕ) (s : Ttyd) : Except Fault (Ttyd × Option Reply) :=
  if 128 ≤ code then .ok ({ s with keys := s.keys.release (code - 128) }, none)
  else do
    let s ← s.acceptKey code
    if feeds code then do
      let (s, o) ← s.onTty s.current (Console.conslFeed tty code)
      return ({ s with current := s.chosen code }, o)
    else if code = kF12 then .error .assertion
    else return ({ s with keys := s.keys.press code }, none)

/-- `consl_writec` of the first `n` bytes. -/
def writeAll (data : ℕ → BitVec 8) (n : ℕ) (c : Console) : Console :=
  (List.range n).foldl (fun c i => c.onScreen fun s => s.conslWritec (data i)) c

/-- One round of `ttyd`, with `receive` done. `update_banner` does nothing to
the consoles. The loop of `DEV_WRITE` compares `int`s, so a negative `len` writes
nothing. -/
def ttyd (tty : ℤ) (x : Input) (m : MsgData) (s : Ttyd) : Except Fault (Ttyd × Option Reply) :=
  if m.src = msgHardIntr then
    if m.type = msgTtyGetkey then s.readkey tty x.code
    else if m.type = msgTtyUpdate then .ok (s, none)
    else .error .assertion
  else if m.type = devRead then
    if h : 0 ≤ m.devId ∧ m.devId < nrTty then
      s.onTty ⟨m.devId.toNat, by omega⟩ (Console.readRequest tty m)
    else .error .outOfBounds
  else if m.type = devWrite then
    if h : 0 ≤ m.devId ∧ m.devId < nrTty then
      s.onTty ⟨m.devId.toNat, by omega⟩ fun c =>
        .ok (writeAll x.data m.len.toNat c, some ⟨m.answer tty m.len, []⟩)
    else .error .assertion
  else .error .assertion

end Ttyd

/-! ### The requests that wait -/

/-- From the requests `before`, the driver `tty` has answered `m` and has the
others left, or has answered none. -/
def Handed (tty : ℤ) (m : MsgData) (before after : Multiset MsgData) : Option Reply → Prop
  | none => after = before
  | some rep => before = m ::ₘ after ∧ ∃ ret, rep.msg = m.answer tty ret

theorem Handed.add {tty : ℤ} {m : MsgData} {before after : Multiset MsgData} {o : Option Reply}
    (h : Handed tty m before after o) (rest : Multiset MsgData) : Handed tty m (before + rest) (after + rest) o := by
  cases o with
  | none => exact congrArg (· + rest) h
  | some rep => exact ⟨by rw [h.1, Multiset.cons_add], h.2⟩

namespace Console

/-- The requests in `rstk`. -/
def held (c : Console) : List MsgData := (List.range c.rtop).map c.rstk

/-- The request that came last. -/
def top (c : Console) : MsgData := c.rstk (c.rtop - 1)

/-- The same requests wait. -/
def SameHeld (c c' : Console) : Prop := c'.rtop = c.rtop ∧ c'.rstk = c.rstk

theorem SameHeld.held {c c' : Console} (h : SameHeld c c') : c'.held = c.held := by
  unfold Console.held
  rw [h.1, h.2]

theorem SameHeld.top {c c' : Console} (h : SameHeld c c') : c'.top = c.top := by
  unfold Console.top
  rw [h.1, h.2]

theorem SameHeld.trans {c c' c'' : Console} (h : SameHeld c c') (h' : SameHeld c' c'') : SameHeld c c'' :=
  ⟨h'.1.trans h.1, h'.2.trans h.2⟩

variable {c c' : Console} {tty : ℤ} {m : MsgData} {o : Option Reply}

theorem getCookedLoop_sameHeld : ∀ (n : ℕ) (c : Console), SameHeld c (getCookedLoop n c).2
  | 0, _ => ⟨rfl, rfl⟩
  | n + 1, c => by
    unfold getCookedLoop
    by_cases hz : c.cbuf c.f = 0
    · simp only [if_pos hz]
      exact ⟨rfl, rfl⟩
    · simp only [if_neg hz]
      exact getCookedLoop_sameHeld n { c with f := (c.f + 1) % cbufSz }

theorem held_push (c : Console) (m : MsgData) :
    ({ c with rstk := Function.update c.rstk c.rtop m, rtop := c.rtop + 1 } : Console).held = c.held ++ [m] := by
  unfold held
  dsimp only
  rw [List.range_succ, List.map_append, List.map_singleton, Function.update_self]
  congr 1
  apply List.map_congr_left
  intro j hj
  exact Function.update_of_ne (Nat.ne_of_lt (List.mem_range.mp hj)) m c.rstk

theorem held_pop (hc : c.rtop ≠ 0) :
    c.held = ({ c with rtop := c.rtop - 1 } : Console).held ++ [c.top] := by
  have hr : c.rtop = c.rtop - 1 + 1 := by omega
  unfold held top
  rw [hr, List.range_succ, List.map_append, List.map_singleton]
  rfl

/-- A read request is answered, or waits with the others. -/
theorem readRequest_held (h : c.readRequest tty m = .ok (c', o)) : 
    Handed tty m (m ::ₘ (c.held : Multiset MsgData)) c'.held o := by
  unfold readRequest getCooked at h
  by_cases he : c.f = c.r
  · rw [if_pos he] at h
    split at h
    · cases h
    · cases h
      rw [Handed, held_push, ← Multiset.coe_add, Multiset.coe_singleton, add_comm, Multiset.singleton_add]
  · rw [if_neg he, if_neg he] at h
    cases h
    refine ⟨?_, _, rfl⟩
    rw [(getCookedLoop_sameHeld (u32 m.len) c).held]

theorem cookLoop_sameHeld : ∀ {n k : ℕ} {c c' : Console}, cookLoop n k c = .ok c' → SameHeld c c'
  | 0, _, _, _, h => by cases h
  | n + 1, k, c, c', h => by
    unfold cookLoop at h
    dsimp only at h
    split at h
    · cases h
    · split at h
      · have hrest := cookLoop_sameHeld h
        exact ⟨hrest.1, hrest.2⟩
      · cases h
        exact ⟨rfl, rfl⟩

/-- Enter answers the request on top, if one waits. -/
theorem cook_held (h : c.cook tty = .ok (c', o)) : Handed tty c.top c.held c'.held o := by
  unfold cook at h
  obtain ⟨c1, h1, h⟩ := ok_of_bind h
  have hloop := cookLoop_sameHeld h1
  -- the console when the line is cleared, before a request is replayed
  obtain ⟨d, hd⟩ : ∃ d, d = onScreen (fun s => s.cr.lf) { c1 with i := 0, lbuf := Function.update c1.lbuf 0 0 } :=
    ⟨_, rfl⟩
  have hsame : SameHeld c d := by
    rw [hd]
    exact ⟨hloop.1, hloop.2⟩
  simp only [← hd] at h
  rw [← hsame.held, ← hsame.top]
  split at h
  · rename_i htop
    have hr := readRequest_held h
    rw [held_pop htop, ← Multiset.coe_add, Multiset.coe_singleton, add_comm, Multiset.singleton_add]
    exact hr
  · cases h
    rfl

theorem SameHeld.handed (h : SameHeld c c') : Handed tty m c.held c'.held none :=
  congrArg Multiset.ofList h.held

theorem movr_sameHeld {b : Bool} (h : c.movr = .ok (b, c')) : SameHeld c c' := by
  unfold movr at h
  obtain ⟨x, -, h⟩ := ok_of_bind h
  split at h
  · cases h
    exact ⟨rfl, rfl⟩
  · cases h
    exact ⟨rfl, rfl⟩

theorem movl_sameHeld (c : Console) : SameHeld c c.movl.2 := by
  unfold movl
  split
  · exact ⟨rfl, rfl⟩
  · exact ⟨rfl, rfl⟩

theorem homeLoop_sameHeld : ∀ (n : ℕ) (c : Console), SameHeld c (homeLoop n c)
  | 0, _ => ⟨rfl, rfl⟩
  | n + 1, c => by
    have hm := movl_sameHeld c
    unfold homeLoop
    split
    · rename_i d hd
      rw [hd] at hm
      exact hm.trans (homeLoop_sameHeld n d)
    · rename_i d hd
      rw [hd] at hm
      exact hm

theorem endLoop_sameHeld : ∀ {n : ℕ} {c c' : Console}, endLoop n c = .ok c' → SameHeld c c'
  | 0, _, _, h => by cases h
  | n + 1, c, c', h => by
    unfold endLoop at h
    obtain ⟨⟨b, d⟩, hd, h⟩ := ok_of_bind h
    cases b with
    | true => exact (movr_sameHeld hd).trans (endLoop_sameHeld h)
    | false =>
      cases h
      exact movr_sameHeld hd

theorem removeLoop_sameHeld : ∀ {n k : ℕ} {a : ℤ} {c c' : Console}, removeLoop n k a c = .ok c' → SameHeld c c'
  | 0, _, _, _, _, h => by cases h
  | n + 1, k, a, c, c', h => by
    unfold removeLoop at h
    split at h
    · cases h
      exact ⟨rfl, rfl⟩
    · have hrest := removeLoop_sameHeld h
      exact ⟨hrest.1, hrest.2⟩

theorem backsp_sameHeld (h : c.backsp = .ok c') : SameHeld c c' := by
  unfold backsp at h
  split at h
  · obtain ⟨d, hd, h⟩ := ok_of_bind h
    obtain ⟨x, -, h⟩ := ok_of_bind h
    have hd := removeLoop_sameHeld hd
    split at h
    · cases h
      exact ⟨hd.1, hd.2⟩
    · cases h
      exact ⟨hd.1, hd.2⟩
  · cases h
    exact ⟨rfl, rfl⟩

/-- Of the editing keys, only Enter answers a request. -/
theorem conslFeed_held {key : ℤ} (h : c.conslFeed tty key = .ok (c', o)) :
    Handed tty c.top c.held c'.held o := by
  unfold conslFeed at h
  split at h
  · exact cook_held h
  split at h
  · obtain ⟨⟨b, d⟩, hd, h⟩ := ok_of_bind h
    obtain ⟨e, he, h⟩ := ok_of_bind h
    cases h
    exact ((movr_sameHeld hd).trans (backsp_sameHeld he)).handed
  split at h
  · obtain ⟨d, hd, h⟩ := ok_of_bind h
    cases h
    exact (backsp_sameHeld hd).handed
  split at h
  · cases h
    exact (movl_sameHeld c).handed
  split at h
  · obtain ⟨⟨b, d⟩, hd, h⟩ := ok_of_bind h
    cases h
    exact (movr_sameHeld hd).handed
  split at h
  · cases h
    exact (homeLoop_sameHeld _ c).handed
  split at h
  · obtain ⟨d, hd, h⟩ := ok_of_bind h
    cases h
    exact (endLoop_sameHeld hd).handed
  · cases h
    rfl

theorem acceptLoop_sameHeld : ∀ {n : ℕ} {c c' : Console}, acceptLoop n c = .ok c' → SameHeld c c'
  | 0, _, _, h => by
    cases h
    exact ⟨rfl, rfl⟩
  | n + 1, c, c', h => by
    unfold acceptLoop at h
    dsimp only at h
    split at h
    · cases h
    · have hrest := acceptLoop_sameHeld h
      split at hrest
      · exact ⟨hrest.1, hrest.2⟩
      · exact ⟨hrest.1, hrest.2⟩

theorem conslAccept_sameHeld {ch : BitVec 8} (h : c.conslAccept ch = .ok c') : SameHeld c c' := by
  unfold conslAccept at h
  obtain ⟨cc, -, h⟩ := ok_of_bind h
  obtain ⟨d, hd, h⟩ := ok_of_bind h
  have hd := acceptLoop_sameHeld hd
  dsimp only at h
  split at h
  · cases h
  · cases h
    exact ⟨hd.1, hd.2⟩

end Console

/-- The requests among some messages: those that are not from interrupt
handlers. -/
def requests (l : List MsgData) : Multiset MsgData := (l.filter MsgData.fromThread : List MsgData)

theorem requests_append (l l' : List MsgData) : requests (l ++ l') = requests l + requests l' := by
  unfold requests
  rw [List.filter_append, ← Multiset.coe_add]

theorem requests_of_fromThread {m : MsgData} (h : m.fromThread) : requests [m] = {m} := by
  unfold requests
  rw [List.filter_singleton, decide_eq_true h]
  rfl

theorem requests_of_hardIntr {m : MsgData} (h : m.src = msgHardIntr) : requests [m] = 0 := by
  unfold requests
  rw [List.filter_singleton, decide_eq_false (show ¬ m.fromThread from not_not_intro h)]
  rfl

namespace Ttyd

/-- The requests that wait on the consoles. -/
def held (s : Ttyd) : Multiset MsgData := ∑ j, ((s.ttys j).held : Multiset MsgData)

/-- The request that a reply in the round for `m` answers. -/
def request (m : MsgData) (s : Ttyd) : MsgData := if m.src = msgHardIntr then (s.ttys s.current).top else m

variable {s s' : Ttyd} {tty : ℤ} {m : MsgData} {o : Option Reply}

theorem held_keys (s : Ttyd) (k : Keys) : ({ s with keys := k } : Ttyd).held = s.held := rfl

/-- The requests of one console, and those of the others. -/
theorem held_split (s : Ttyd) (j : Fin nrTty) : ∃ rest, s.held = (s.ttys j).held + rest ∧
    ∀ c, ({ s with ttys := Function.update s.ttys j c } : Ttyd).held = c.held + rest := by
  refine ⟨∑ i ∈ Finset.univ.erase j, ((s.ttys i).held : Multiset MsgData), ?_, fun c => ?_⟩
  · exact (Finset.add_sum_erase _ _ (Finset.mem_univ j)).symm
  · have hothers : ∑ i ∈ Finset.univ.erase j, ((Function.update s.ttys j c i).held : Multiset MsgData) =
        ∑ i ∈ Finset.univ.erase j, ((s.ttys i).held : Multiset MsgData) := by
      apply Finset.sum_congr rfl
      intro i hi
      rw [Function.update_of_ne (Finset.ne_of_mem_erase hi)]
    unfold held
    dsimp only
    rw [← Finset.add_sum_erase _ _ (Finset.mem_univ j), hothers, Function.update_self]

/-- What is done to the requests of one console is done to all of them. -/
theorem onTty_held {j : Fin nrTty} {f : Console → Except Fault (Console × Option Reply)} {e : Multiset MsgData}
    (hf : ∀ c' o, f (s.ttys j) = .ok (c', o) → Handed tty m (e + (s.ttys j).held) c'.held o)
    (h : s.onTty j f = .ok (s', o)) : Handed tty m (e + s.held) s'.held o := by
  unfold onTty at h
  obtain ⟨⟨c, p⟩, hc, h⟩ := ok_of_bind h
  cases h
  obtain ⟨rest, hs, hupd⟩ := s.held_split j
  rw [hs, hupd, ← add_assoc]
  exact (hf _ _ hc).add rest

theorem acceptKey_held {code : ℕ} (h : s.acceptKey code = .ok s') :
    s'.held = s.held ∧ (s'.ttys s'.current).top = (s.ttys s.current).top := by
  unfold acceptKey at h
  split at h
  · obtain ⟨c, hc, h⟩ := ok_of_bind h
    cases h
    have hsame := Console.conslAccept_sameHeld hc
    obtain ⟨rest, hs, hupd⟩ := s.held_split s.current
    constructor
    · rw [hs, hupd, hsame.held]
    · dsimp only
      rw [Function.update_self, hsame.top]
  · cases h
    exact ⟨rfl, rfl⟩

theorem writeAll_held (data : ℕ → BitVec 8) (n : ℕ) (c : Console) : (writeAll data n c).held = c.held := by
  unfold writeAll
  induction n with
  | zero => rfl
  | succ n ih =>
    rw [List.range_succ, List.foldl_append, List.foldl_cons, List.foldl_nil]
    exact ih

theorem readkey_held {code : ℕ} (h : s.readkey tty code = .ok (s', o)) :
    Handed tty (s.ttys s.current).top s.held s'.held o := by
  unfold readkey at h
  split at h
  · rw [Except.ok.injEq, Prod.mk.injEq] at h
    obtain ⟨rfl, rfl⟩ := h
    exact held_keys s _
  · obtain ⟨s1, h1, h⟩ := ok_of_bind h
    rw [← (acceptKey_held h1).1, ← (acceptKey_held h1).2]
    split at h
    · obtain ⟨⟨s2, q⟩, h2, h⟩ := ok_of_bind h
      obtain ⟨rfl, rfl⟩ := Prod.mk.inj (Except.ok.inj h)
      have hfeed : Handed tty (s1.ttys s1.current).top (0 + s1.held) s2.held q := by
        refine onTty_held (fun c' r hc => ?_) h2
        rw [zero_add]
        exact Console.conslFeed_held hc
      rw [zero_add] at hfeed
      exact hfeed
    · split at h
      · cases h
      · cases h
        rfl

/-- **The terminal driver answers the requests it gets, each once.** The
request it took and those that wait are those it answers and those that
wait afterwards. -/
theorem ttyd_held {x : Input} (h : s.ttyd tty x m = .ok (s', o)) :
    Handed tty (s.request m) (requests [m] + s.held) s'.held o := by
  unfold ttyd at h
  unfold request
  split at h
  · rename_i hsrc
    rw [if_pos hsrc, requests_of_hardIntr hsrc, zero_add]
    split at h
    · exact readkey_held h
    · split at h
      · cases h
        rfl
      · cases h
  · rename_i hsrc
    rw [if_neg hsrc, requests_of_fromThread hsrc]
    split at h
    · split at h
      · refine onTty_held (fun c' p hc => ?_) h
        rw [Multiset.singleton_add]
        exact Console.readRequest_held hc
      · cases h
    · split at h
      · split at h
        · refine onTty_held (fun c' p hc => ?_) h
          cases hc
          rw [Multiset.singleton_add]
          exact ⟨by rw [writeAll_held], _, rfl⟩
        · cases h
      · cases h

theorem ttyd_write (s : Ttyd) (tty : ℤ) (x : Input) (hm : m.fromThread) (htype : m.type = devWrite)
    (hdev : 0 ≤ m.devId ∧ m.devId < nrTty) : ∃ s', s.ttyd tty x m = .ok (s', some ⟨m.answer tty m.len, []⟩) := by
  unfold ttyd
  rw [if_neg hm, if_neg (by rw [htype]; decide), if_pos htype, dif_pos hdev]
  exact ⟨_, rfl⟩

theorem ttyd_read (s : Ttyd) (tty : ℤ) (x : Input) {j : Fin nrTty} (hm : m.fromThread) (htype : m.type = devRead)
    (hdev : m.devId = j) (hline : (s.ttys j).f ≠ (s.ttys j).r) :
    ∃ s' data, s.ttyd tty x m = .ok (s', some ⟨m.answer tty (List.length data), data⟩) := by
  have hrange : 0 ≤ m.devId ∧ m.devId < nrTty := by
    have := j.isLt
    omega
  have hj : (⟨m.devId.toNat, by omega⟩ : Fin nrTty) = j := by
    apply Fin.ext
    change m.devId.toNat = j
    omega
  unfold ttyd
  rw [if_neg hm, if_pos htype, dif_pos hrange, hj]
  unfold onTty Console.readRequest Console.getCooked
  rw [if_neg hline, if_neg hline]
  exact ⟨_, _, rfl⟩

end Ttyd
end Tty
end NanoOS
