/-
# What an event does to the line and to the screen

The line editor never stores the length of its text: it looks for the zero
byte. `Line c n` says that there is one, with a text of `n` bytes before it
and the cursor inside. From there each operation is one equation, in which
`lbuf` and the screen are separate; `View.edit` collects what the events do to
the screen, the cursor index and the length, and `Line.handle` says that it is
what the code does.

Key definitions: `Line`, `Keypad`, `View.edit`, `Seen`.
Key theorems: `Line.conslAccept`, `Line.backsp`, `Line.cook`,
`Keypad.conslFeed`, `Line.handle`.
-/
import NanoOS.Drivers.Tty.Console

namespace NanoOS
namespace Tty

/-- What the loop of `consl_accept` does to the screen. -/
def Screen.openLoop : ℕ → Screen → Screen
  | 0, s => s
  | n + 1, s =>
    let s := if s.pos + (n + 1 : ℕ) = s.scr + s.wh + 1 then s.scrup else s
    openLoop n { s with mem := s.mem.copy (s.pos + (n + 1 : ℕ)) (s.pos + (n + 1 : ℕ) - 1) }

/-- What the loop of `removec` does to the screen, in `n` rounds from cell `a`
on. -/
def Mem.closeLoop : ℕ → ℤ → Mem → Mem
  | 0, _, m => m
  | n + 1, a, m => closeLoop n (a + 1) (m.copy a (a + 1))

/-- What `backsp` does to the screen, with `m` bytes after the cursor. -/
def Screen.erase (m : ℕ) (s : Screen) : Screen :=
  let s1 := { s with mem := s.mem.closeLoop (m + 1) (s.pos - 1), pos := s.pos - 1 }
  if m = 0 then s1.putc 32 else s1

namespace Console

/-- `lbuf` holds a text of `n` bytes, and the cursor is in it. -/
structure Line (c : Console) (n : ℕ) : Prop where
  cursor : c.i ≤ n
  len : n ≤ 255
  stop : c.lbuf n = 0
  text : ∀ k < n, c.lbuf k ≠ 0

variable {c : Console} {n : ℕ}

theorem Line.lbufAt (hL : Line c n) : c.lbufAt c.i = .ok (c.lbuf c.i) := by
  have := hL.cursor
  have := hL.len
  exact if_pos (by unfold lbufSz; omega)

/-- At the cursor is the zero byte iff the cursor is at the end. -/
theorem Line.at_end (hL : Line c n) : c.lbuf c.i = 0 ↔ c.i = n := by
  constructor
  · intro h
    by_contra hne
    exact hL.text c.i (Nat.lt_of_le_of_ne hL.cursor hne) h
  · intro h
    rw [h]
    exact hL.stop

/-! ### Moving -/

theorem Line.movr (hL : Line c n) : c.movr =
    .ok (if c.i < n then (true, { c with i := c.i + 1, pos := c.pos + 1 }) else (false, c)) := by
  have hcur := hL.cursor
  unfold Console.movr
  rw [hL.lbufAt]
  change Except.ok _ = _
  by_cases h : c.i < n
  · rw [if_pos h, if_pos (hL.text _ h)]
  · have hend : c.lbuf c.i = 0 := hL.at_end.mpr (by omega)
    rw [if_neg h, if_neg (by simp [hend])]

theorem Line.move (hL : Line c n) {j : ℕ} (hj : j ≤ n) (p : ℤ) :
    Line { c with i := j, pos := p } n :=
  ⟨hj, hL.len, hL.stop, hL.text⟩

theorem homeLoop_eq : ∀ (m : ℕ) (c : Console), c.i ≤ m →
    homeLoop m c = { c with i := 0, pos := c.pos - c.i }
  | 0, c, h => by
    have h0 : c.i = 0 := by omega
    obtain ⟨⟨mem, scr, w, h', wh, size, pos⟩, lbuf, cbuf, i, f, r, rtop, rstk⟩ := c
    dsimp only at h0
    subst h0
    simp [homeLoop]
  | m + 1, c, h => by
    unfold homeLoop movl
    by_cases h0 : c.i = 0
    · rw [if_neg (by simpa using h0)]
      obtain ⟨⟨mem, scr, w, h', wh, size, pos⟩, lbuf, cbuf, i, f, r, rtop, rstk⟩ := c
      dsimp only at h0
      subst h0
      simp
    · rw [if_pos h0]
      dsimp only
      rw [homeLoop_eq m _ (by dsimp only; omega)]
      dsimp only
      have hp : c.pos - 1 - ((c.i - 1 : ℕ) : ℤ) = c.pos - c.i := by omega
      rw [hp]

theorem Line.endLoop : ∀ {m : ℕ} {c : Console}, Line c n → n < c.i + m →
    Console.endLoop m c = .ok { c with i := n, pos := c.pos + (n - c.i : ℕ) }
  | 0, c, hL, h => absurd hL.cursor (by omega)
  | m + 1, c, hL, h => by
    have hcur := hL.cursor
    unfold Console.endLoop
    rw [hL.movr]
    by_cases hi : c.i < n
    · rw [if_pos hi]
      have ih := (hL.move (j := c.i + 1) (by omega) (c.pos + 1)).endLoop (m := m) (by dsimp only; omega)
      change Console.endLoop m _ = _
      rw [ih]
      dsimp only
      have hp : c.pos + 1 + ((n - (c.i + 1) : ℕ) : ℤ) = c.pos + (n - c.i : ℕ) := by omega
      rw [hp]
    · rw [if_neg hi]
      have hn : c.i = n := by omega
      obtain ⟨⟨mem, scr, w, h', wh, size, pos⟩, lbuf, cbuf, i, f, r, rtop, rstk⟩ := c
      dsimp only at hn
      subst hn
      simp [bind, Except.bind, pure, Except.pure]

/-! ### Inserting -/

theorem Line.tailLoop (hL : Line c n) : ∀ {m cc : ℕ}, c.i + cc ≤ n → n < c.i + cc + m →
    c.tailLoop m cc = .ok (n - c.i)
  | 0, cc, h, hm => absurd h (by omega)
  | m + 1, cc, h, hm => by
    unfold Console.tailLoop
    by_cases hend : c.i + cc = n
    · rw [hend, if_neg (by simp [hL.stop])]
      congr 1
      omega
    · rw [if_pos (hL.text _ (by omega))]
      exact hL.tailLoop (by omega) (by omega)

/-- The bytes `lo .. lo + n - 1` of `b` move up by one. -/
def moveUp (lo n : ℕ) (b : ℕ → BitVec 8) : ℕ → BitVec 8 :=
  fun k => if lo < k ∧ k ≤ lo + n then b (k - 1) else b k

theorem moveUp_succ (lo n : ℕ) (b : ℕ → BitVec 8) :
    moveUp lo n (Function.update b (lo + (n + 1)) (b (lo + (n + 1) - 1))) = moveUp lo (n + 1) b := by
  funext k
  unfold moveUp
  by_cases hk : k = lo + (n + 1)
  · rw [if_neg (by omega), if_pos (by omega), hk, Function.update_self]
  · by_cases hin : lo < k ∧ k ≤ lo + n
    · rw [if_pos hin, if_pos (by omega), Function.update_of_ne (by omega)]
    · rw [if_neg hin, if_neg (by omega), Function.update_of_ne hk]

theorem acceptLoop_eq : ∀ (m : ℕ) (c : Console), c.i + m < 256 → acceptLoop m c =
    .ok { c with toScreen := c.toScreen.openLoop m, lbuf := moveUp c.i m c.lbuf }
  | 0, c, _ => by
    have hid : moveUp c.i 0 c.lbuf = c.lbuf := by
      funext k
      exact if_neg (by omega)
    unfold acceptLoop
    rw [hid]
    rfl
  | m + 1, c, h => by
    unfold acceptLoop
    rw [if_neg (by unfold lbufSz; omega)]
    dsimp only
    rw [acceptLoop_eq m _ (by split <;> simp only [onScreen] <;> omega)]
    by_cases hs : c.pos + ((m + 1 : ℕ) : ℤ) = c.scr + c.wh + 1
    · simp only [if_pos hs, Screen.openLoop, onScreen, moveUp_succ]
    · simp only [if_neg hs, Screen.openLoop, moveUp_succ]

/-- A character is inserted at the cursor, if the text has not come to its
greatest length. -/
theorem Line.conslAccept (hL : Line c n) (ch : BitVec 8) : c.conslAccept ch =
    if n < 255 then
      .ok { c with
        toScreen := ((c.toScreen.openLoop (n - c.i + 1)).putc ch).next
        lbuf := Function.update (moveUp c.i (n - c.i + 1) c.lbuf) c.i ch
        i := c.i + 1 }
    else .error .lineBufferFull := by
  have hcur := hL.cursor
  have hlen := hL.len
  unfold Console.conslAccept
  rw [hL.tailLoop (by omega) (by unfold lbufSz; omega)]
  change (acceptLoop (n - c.i + 1) c >>= _) = _
  by_cases hn : n < 255
  · rw [if_pos hn, acceptLoop_eq _ _ (by omega)]
    change ite _ _ _ = _
    rw [if_neg (by simp only [onScreen]; unfold lbufSz; omega)]
    rfl
  · rw [if_neg hn]
    unfold acceptLoop
    rw [if_pos (by unfold lbufSz; omega)]
    rfl

theorem Line.inserted (hL : Line c n) {ch : BitVec 8} (hch : ch ≠ 0) (hn : n < 255) (s : Screen) :
    Line { c with
      toScreen := s
      lbuf := Function.update (moveUp c.i (n - c.i + 1) c.lbuf) c.i ch
      i := c.i + 1 } (n + 1) := by
  have hcur := hL.cursor
  refine ⟨by dsimp only; omega, by omega, ?_, fun k hk => ?_⟩
  · dsimp only
    rw [Function.update_of_ne (by omega)]
    unfold moveUp
    rw [if_pos (by omega)]
    exact hL.stop
  · dsimp only
    by_cases hki : k = c.i
    · rw [hki, Function.update_self]
      exact hch
    · rw [Function.update_of_ne hki]
      unfold moveUp
      by_cases hin : c.i < k ∧ k ≤ c.i + (n - c.i + 1)
      · rw [if_pos hin]
        exact hL.text _ (by omega)
      · rw [if_neg hin]
        exact hL.text _ (by omega)

/-! ### Removing -/

/-- The bytes `lo + 1 .. hi` of `b` move down by one. -/
def moveDown (lo hi : ℕ) (b : ℕ → BitVec 8) : ℕ → BitVec 8 :=
  fun k => if lo ≤ k ∧ k < hi then b (k + 1) else b k

theorem moveDown_succ {lo hi : ℕ} (h : lo < hi) (b : ℕ → BitVec 8) :
    moveDown (lo + 1) hi (Function.update b lo (b (lo + 1))) = moveDown lo hi b := by
  funext k
  unfold moveDown
  by_cases hk : k = lo
  · rw [if_neg (by omega), if_pos (by omega), hk, Function.update_self]
  · by_cases hin : lo ≤ k ∧ k < hi
    · rw [if_pos (by omega), if_pos hin, Function.update_of_ne (by omega)]
    · rw [if_neg (by omega), if_neg hin, Function.update_of_ne hk]

theorem removeLoop_eq : ∀ (m k : ℕ) (a : ℤ) (c : Console), (∀ j, k ≤ j → j < n → c.lbuf j ≠ 0) →
    c.lbuf n = 0 → k ≤ n → n < k + m → removeLoop m k a c =
      .ok { c with lbuf := moveDown k n c.lbuf, mem := c.mem.closeLoop (n - k) a }
  | 0, k, _, _, _, _, hk, hm => absurd hk (by omega)
  | m + 1, k, a, c, htext, hstop, hk, hm => by
    unfold removeLoop
    by_cases hend : k = n
    · have hid : moveDown n n c.lbuf = c.lbuf := by
        funext j
        exact if_neg (by omega)
      rw [hend, if_pos hstop, hid, Nat.sub_self]
      rfl
    · rw [if_neg (htext k (Nat.le_refl k) (by omega)), removeLoop_eq m (k + 1) (a + 1)]
      · dsimp only
        have hn : n - k = n - (k + 1) + 1 := by omega
        rw [moveDown_succ (by omega), hn]
        rfl
      · intro j hj hjn
        dsimp only
        rw [Function.update_of_ne (by omega)]
        exact htext j (by omega) hjn
      · dsimp only
        rw [Function.update_of_ne (by omega)]
        exact hstop
      · omega
      · omega

/-- The character before the cursor is removed. -/
theorem Line.backsp (hL : Line c n) : c.backsp =
    .ok (if 0 < c.i then
      { c with
        toScreen := c.toScreen.erase (n - c.i)
        lbuf := moveDown (c.i - 1) n c.lbuf
        i := c.i - 1 }
    else c) := by
  have hcur := hL.cursor
  have hlen := hL.len
  unfold Console.backsp
  by_cases hi : 0 < c.i
  · have hrem : c.removec = .ok { c with
        lbuf := moveDown (c.i - 1) n c.lbuf
        mem := c.mem.closeLoop (n - c.i + 1) (c.pos - 1)
        i := c.i - 1 } := by
      unfold Console.removec
      dsimp only
      rw [removeLoop_eq (n := n) _ _ _ _ (fun j _ hj => by exact hL.text j hj) (by exact hL.stop)
        (by omega) (by unfold lbufSz; omega)]
      have hn : n - (c.i - 1) = n - c.i + 1 := by omega
      dsimp only
      rw [hn]
    have hat : moveDown (c.i - 1) n c.lbuf (c.i - 1) = c.lbuf c.i := by
      unfold moveDown
      rw [if_pos (by omega)]
      congr 1
      omega
    have hbound : c.i - 1 < lbufSz + 1 := by
      unfold lbufSz
      omega
    rw [if_pos hi, if_pos hi, hrem]
    simp only [bind, Except.bind, pure, Except.pure, Console.lbufAt, if_pos hbound, hat, hL.at_end]
    unfold Screen.erase
    by_cases hend : c.i = n
    · rw [if_pos hend, if_pos (by omega)]
      rfl
    · rw [if_neg hend, if_neg (by omega)]
  · rw [if_neg hi, if_neg hi]
    rfl

theorem Line.removed (hL : Line c n) (hi : 0 < c.i) (s : Screen) :
    Line { c with toScreen := s, lbuf := moveDown (c.i - 1) n c.lbuf, i := c.i - 1 } (n - 1) := by
  have hcur := hL.cursor
  have hlen := hL.len
  refine ⟨by dsimp only; omega, by omega, ?_, fun k hk => ?_⟩
  · dsimp only
    unfold moveDown
    rw [if_pos (by omega), Nat.sub_add_cancel (by omega)]
    exact hL.stop
  · dsimp only
    unfold moveDown
    split
    · exact hL.text _ (by omega)
    · exact hL.text _ (by omega)

/-! ### Enter and read requests -/

/-- The parts of a console that are not the cooked buffer or the stack of
requests. -/
def SameLine (c c' : Console) : Prop :=
  c'.toScreen = c.toScreen ∧ c'.lbuf = c.lbuf ∧ c'.i = c.i

theorem SameLine.line {c' : Console} (h : SameLine c c') (hL : Line c n) : Line c' n := by
  obtain ⟨-, hlbuf, hi⟩ := h
  exact ⟨hi ▸ hL.cursor, hL.len, hlbuf ▸ hL.stop, hlbuf ▸ hL.text⟩

theorem getCookedLoop_sameLine : ∀ (m : ℕ) (c : Console), SameLine c (getCookedLoop m c).2
  | 0, c => ⟨rfl, rfl, rfl⟩
  | m + 1, c => by
    unfold getCookedLoop
    by_cases hz : c.cbuf c.f = 0
    · simp only [if_pos hz]
      exact ⟨rfl, rfl, rfl⟩
    · simp only [if_neg hz]
      exact getCookedLoop_sameLine m { c with f := (c.f + 1) % cbufSz }

/-- A read request is served or put aside, or there are too many of them. -/
theorem readRequest_sameLine (tty : ℤ) (m : MsgData) (c : Console) :
    (∃ c' rep, c.readRequest tty m = .ok (c', rep) ∧ SameLine c c') ∨
      c.readRequest tty m = .error .tooManyReadRequest := by
  unfold readRequest getCooked
  by_cases he : c.f = c.r
  · by_cases ht : c.rtop = rstkSz
    · right
      rw [if_pos he, if_pos ht]
    · left
      rw [if_pos he, if_neg ht]
      exact ⟨_, _, rfl, rfl, rfl, rfl⟩
  · left
    rw [if_neg he, if_neg he]
    exact ⟨_, _, rfl, getCookedLoop_sameLine _ c⟩

theorem Line.cookLoop : ∀ {m k : ℕ} {c : Console}, Line c n → k ≤ n → n < k + m →
    (∃ c', Console.cookLoop m k c = .ok c' ∧ SameLine c c') ∨
      Console.cookLoop m k c = .error .cookedBufferFull
  | 0, k, c, hL, hk, hm => absurd hk (by omega)
  | m + 1, k, c, hL, hk, hm => by
    unfold Console.cookLoop
    dsimp only
    by_cases hfull : (c.r + 1) % cbufSz = c.f
    · right
      rw [if_pos hfull]
    · rw [if_neg hfull]
      by_cases hz : c.lbuf k = 0
      · left
        rw [if_neg (by simp [hz])]
        exact ⟨_, rfl, rfl, rfl, rfl⟩
      · rw [if_pos hz]
        have hkn : k ≠ n := fun h => hz (h ▸ hL.stop)
        exact Line.cookLoop (c := { c with cbuf := _, r := _ }) ⟨hL.cursor, hL.len, hL.stop, hL.text⟩
          (by omega) (by omega)

/-- Enter clears the line and starts a new row, unless the cooked buffer or
the stack of requests overflows. -/
theorem Line.cook (hL : Line c n) (tty : ℤ) :
    (∃ c' rep, c.cook tty = .ok (c', rep) ∧ c'.toScreen = c.toScreen.cr.lf ∧ c'.i = 0 ∧ c'.lbuf 0 = 0) ∨
      c.cook tty = .error .cookedBufferFull ∨ c.cook tty = .error .tooManyReadRequest := by
  unfold Console.cook
  have hlen := hL.len
  rcases hL.cookLoop (m := lbufSz + 1) (k := 0) (Nat.zero_le _) (by unfold lbufSz; omega) with
    ⟨c1, h1, hscr, hlbuf, hi⟩ | hfull
  · rw [h1]
    -- the console when the line is cleared, before a request is replayed
    obtain ⟨d, hd, hdscr, hdi, hdlbuf⟩ : ∃ d : Console,
        d = onScreen (fun s => s.cr.lf) { c1 with i := 0, lbuf := Function.update c1.lbuf 0 0 } ∧
        d.toScreen = c.toScreen.cr.lf ∧ d.i = 0 ∧ d.lbuf 0 = 0 :=
      ⟨_, rfl, by rw [← hscr]; rfl, rfl, rfl⟩
    simp only [bind, Except.bind, pure, Except.pure, ← hd]
    split
    · rcases readRequest_sameLine tty (d.rstk (d.rtop - 1)) { d with rtop := d.rtop - 1 } with
        ⟨c2, rep, h2, hscr2, hlbuf2, hi2⟩ | hmany
      · left
        refine ⟨c2, rep, h2, hscr2.trans hdscr, hi2.trans hdi, ?_⟩
        rw [hlbuf2]
        exact hdlbuf
      · exact .inr (.inr hmany)
    · exact .inl ⟨d, none, rfl, hdscr, hdi, hdlbuf⟩
  · rw [hfull]
    exact .inr (.inl rfl)

end Console

/-! ### The editing keys -/

/-- What the editing keys do to whatever stands for the line. -/
structure Keypad (β : Type) where
  enter : β → β
  back : β → β
  left : β → β
  right : β → β
  home : β → β
  toEnd : β → β

namespace Keypad

variable {β : Type} (K : Keypad β)

/-- A key is pressed. Delete is Right and then Backspace. -/
def press (key : ℤ) (b : β) : β :=
  if key = kEntr then K.enter b
  else if key = kDel then K.back (K.right b)
  else if key = kBack then K.back b
  else if key = kLeft then K.left b
  else if key = kRight then K.right b
  else if key = kHome then K.home b
  else if key = kEnd then K.toEnd b
  else b

theorem press_rule {Q : β → Prop} {b : β} (henter : Q (K.enter b)) (hback : ∀ b, Q b → Q (K.back b))
    (hleft : Q (K.left b)) (hright : Q (K.right b)) (hhome : Q (K.home b)) (hend : Q (K.toEnd b)) (h : Q b)
    (key : ℤ) : Q (K.press key b) := by
  unfold press
  split
  · exact henter
  split
  · exact hback _ hright
  split
  · exact hback _ h
  split
  · exact hleft
  split
  · exact hright
  split
  · exact hhome
  split
  · exact hend
  · exact h

/-- `consl_feed` does what the keys do, as far as `R` can tell, if each of the
functions it calls does; or Enter fails. -/
theorem conslFeed {R : Console → β → Prop} {c : Console} {b : β} {tty : ℤ}
    (henter : (∃ c' rep, c.cook tty = .ok (c', rep) ∧ R c' (K.enter b)) ∨
      c.cook tty = .error .cookedBufferFull ∨ c.cook tty = .error .tooManyReadRequest)
    (hback : ∀ c b, R c b → ∃ c', c.backsp = .ok c' ∧ R c' (K.back b)) (hleft : R c.movl.2 (K.left b))
    (hright : ∃ moved c', c.movr = .ok (moved, c') ∧ R c' (K.right b))
    (hhome : R (c.homeLoop (c.i + 1)) (K.home b))
    (hend : ∃ c', c.endLoop (lbufSz + 2 - c.i) = .ok c' ∧ R c' (K.toEnd b)) (h : R c b) (key : ℤ) :
    (∃ c' rep, c.conslFeed tty key = .ok (c', rep) ∧ R c' (K.press key b)) ∨
      c.conslFeed tty key = .error .cookedBufferFull ∨ c.conslFeed tty key = .error .tooManyReadRequest := by
  unfold Console.conslFeed press
  by_cases hE : key = kEntr
  · rw [if_pos hE, if_pos hE]
    exact henter
  left
  rw [if_neg hE, if_neg hE]
  by_cases hD : key = kDel
  · rw [if_pos hD, if_pos hD]
    obtain ⟨moved, c1, h1, hR1⟩ := hright
    obtain ⟨c2, h2, hR2⟩ := hback c1 _ hR1
    refine ⟨c2, none, ?_, hR2⟩
    rw [h1]
    show c1.backsp >>= _ = _
    rw [h2]
    rfl
  rw [if_neg hD, if_neg hD]
  by_cases hB : key = kBack
  · rw [if_pos hB, if_pos hB]
    obtain ⟨c1, h1, hR1⟩ := hback c b h
    rw [h1]
    exact ⟨c1, none, rfl, hR1⟩
  rw [if_neg hB, if_neg hB]
  by_cases hl : key = kLeft
  · rw [if_pos hl, if_pos hl]
    exact ⟨_, _, rfl, hleft⟩
  rw [if_neg hl, if_neg hl]
  by_cases hr : key = kRight
  · rw [if_pos hr, if_pos hr]
    obtain ⟨moved, c1, h1, hR1⟩ := hright
    rw [h1]
    exact ⟨c1, none, rfl, hR1⟩
  rw [if_neg hr, if_neg hr]
  by_cases hH : key = kHome
  · rw [if_pos hH, if_pos hH]
    exact ⟨_, _, rfl, hhome⟩
  rw [if_neg hH, if_neg hH]
  by_cases hN : key = kEnd
  · rw [if_pos hN, if_pos hN]
    obtain ⟨c1, h1, hR1⟩ := hend
    rw [h1]
    exact ⟨c1, none, rfl, hR1⟩
  rw [if_neg hN, if_neg hN]
  exact ⟨c, none, rfl, h⟩

end Keypad

/-! ### Every event -/

/-- What the line editor works on: the screen, the index of the cursor and the
length of the text. -/
structure View where
  screen : Screen
  i : ℕ
  n : ℕ

namespace View

/-- Backspace. -/
def back (v : View) : View :=
  if 0 < v.i then ⟨v.screen.erase (v.n - v.i), v.i - 1, v.n - 1⟩ else v

/-- Left. -/
def left (v : View) : View :=
  if 0 < v.i then { v with screen := { v.screen with pos := v.screen.pos - 1 }, i := v.i - 1 } else v

/-- Right. -/
def right (v : View) : View :=
  if v.i < v.n then { v with screen := { v.screen with pos := v.screen.pos + 1 }, i := v.i + 1 } else v

/-- An editing key. -/
def press (key : ℤ) (v : View) : View :=
  if key = kEntr then ⟨v.screen.cr.lf, 0, 0⟩
  else if key = kDel then v.right.back
  else if key = kBack then v.back
  else if key = kLeft then v.left
  else if key = kRight then v.right
  else if key = kHome then { v with screen := { v.screen with pos := v.screen.pos - v.i }, i := 0 }
  else if key = kEnd then
    { v with screen := { v.screen with pos := v.screen.pos + (v.n - v.i : ℕ) }, i := v.n }
  else v

/-- The editing keys on a view. -/
def keypad : Keypad View where
  enter v := ⟨v.screen.cr.lf, 0, 0⟩
  back := back
  left := left
  right := right
  home v := { v with screen := { v.screen with pos := v.screen.pos - v.i }, i := 0 }
  toEnd v := { v with screen := { v.screen with pos := v.screen.pos + (v.n - v.i : ℕ) }, i := v.n }

theorem press_eq (key : ℤ) (v : View) : v.press key = keypad.press key v := rfl

/-- What an event does, if it does not end in a fault. -/
def edit (v : View) : Event → View
  | .accept ch => ⟨((v.screen.openLoop (v.n - v.i + 1)).putc ch).next, v.i + 1, v.n + 1⟩
  | .feed key => v.press key
  | .write ch => { v with screen := v.screen.conslWritec ch }
  | .read _ => v

end View

/-- Typed characters are not zero. -/
def Event.Ok : Event → Prop
  | .accept ch => ch ≠ 0
  | _ => True

instance : ∀ e : Event, Decidable e.Ok
  | .accept ch => inferInstanceAs (Decidable (ch ≠ 0))
  | .feed _ => .isTrue trivial
  | .write _ => .isTrue trivial
  | .read _ => .isTrue trivial

namespace Console

variable {c : Console} {n : ℕ}

/-- `c` is seen as `v`. -/
def Seen (c : Console) (v : View) : Prop := Line c v.n ∧ c.toScreen = v.screen ∧ c.i = v.i

theorem Line.seen (hL : Line c n) : Seen c ⟨c.toScreen, c.i, n⟩ := ⟨hL, rfl, rfl⟩

theorem Line.backsp_seen (hL : Line c n) : ∃ c', c.backsp = .ok c' ∧ Seen c' (View.back ⟨c.toScreen, c.i, n⟩) := by
  refine ⟨_, hL.backsp, ?_⟩
  unfold View.back
  dsimp only
  by_cases hi : 0 < c.i
  · rw [if_pos hi, if_pos hi]
    exact (hL.removed hi _).seen
  · rw [if_neg hi, if_neg hi]
    exact hL.seen

theorem Line.movr_seen (hL : Line c n) :
    ∃ b c', c.movr = .ok (b, c') ∧ Seen c' (View.right ⟨c.toScreen, c.i, n⟩) := by
  rw [hL.movr]
  unfold View.right
  dsimp only
  by_cases hi : c.i < n
  · rw [if_pos hi, if_pos hi]
    exact ⟨_, _, rfl, (hL.move hi _).seen⟩
  · rw [if_neg hi, if_neg hi]
    exact ⟨_, _, rfl, hL.seen⟩

theorem Line.movl_seen (hL : Line c n) : Seen c.movl.2 (View.left ⟨c.toScreen, c.i, n⟩) := by
  have hcur := hL.cursor
  unfold View.left movl
  dsimp only
  by_cases hi : 0 < c.i
  · rw [if_pos (by omega), if_pos hi]
    exact (hL.move (by omega) _).seen
  · rw [if_neg (by omega), if_neg hi]
    exact hL.seen

theorem Line.conslFeed (hL : Line c n) (tty key : ℤ) :
    (∃ c' rep, c.conslFeed tty key = .ok (c', rep) ∧ Seen c' (View.press key ⟨c.toScreen, c.i, n⟩)) ∨
      c.conslFeed tty key = .error .cookedBufferFull ∨
      c.conslFeed tty key = .error .tooManyReadRequest := by
  rw [View.press_eq]
  apply View.keypad.conslFeed
  · rcases hL.cook tty with ⟨c', rep, h, hscr, hi, hz⟩ | hfail
    · exact .inl ⟨c', rep, h, ⟨Nat.le_of_eq hi, Nat.zero_le _, hz, fun k hk => absurd hk (Nat.not_lt_zero k)⟩,
        hscr, hi⟩
    · exact .inr hfail
  · rintro d ⟨screen, i, m⟩ ⟨hL', hs, hi⟩
    dsimp only at hs hi
    subst hs hi
    exact hL'.backsp_seen
  · exact hL.movl_seen
  · exact hL.movr_seen
  · rw [homeLoop_eq _ _ (Nat.le_succ _)]
    exact (hL.move (Nat.zero_le _) _).seen
  · rw [hL.endLoop (by have := hL.len; have := hL.cursor; unfold lbufSz; omega)]
    exact ⟨_, rfl, (hL.move (Nat.le_refl _) _).seen⟩
  · exact hL.seen

/-- **The line editor, event by event.** An event has its effect on the
screen, the cursor and the length of the text, or it ends in one of the three
panics. -/
theorem Line.handle (hL : Line c n) (tty : ℤ) {e : Event} (he : e.Ok) :
    (∃ c' rep, c.handle tty e = .ok (c', rep) ∧ Seen c' (View.edit ⟨c.toScreen, c.i, n⟩ e)) ∨
      c.handle tty e = .error .lineBufferFull ∨ c.handle tty e = .error .cookedBufferFull ∨
      c.handle tty e = .error .tooManyReadRequest := by
  cases e with
  | accept ch =>
    unfold Console.handle
    dsimp only
    rw [hL.conslAccept ch]
    by_cases hn : n < 255
    · rw [if_pos hn]
      exact .inl ⟨_, _, rfl, (hL.inserted he hn _).seen⟩
    · rw [if_neg hn]
      exact .inr (.inl rfl)
  | feed key =>
    rcases hL.conslFeed tty key with hok | hfail
    · exact .inl hok
    · exact .inr (.inr hfail)
  | write ch => exact .inl ⟨_, _, rfl, ⟨hL.cursor, hL.len, hL.stop, hL.text⟩, rfl, rfl⟩
  | read m =>
    rcases readRequest_sameLine tty m c with ⟨c', rep, h, hsame⟩ | hfail
    · exact .inl ⟨c', rep, h, hsame.line hL, hsame.1, hsame.2.2⟩
    · exact .inr (.inr (.inr hfail))

theorem Line.step (hL : Line c n) {tty : ℤ} {e : Event} {c' : Console} (he : e.Ok)
    (h : c.step tty e = some c') : Seen c' (View.edit ⟨c.toScreen, c.i, n⟩ e) := by
  unfold Console.step at h
  rcases hL.handle tty he with ⟨c1, rep, h1, hS⟩ | h1 | h1 | h1
  all_goals rw [h1] at h
  · cases h
    exact hS
  all_goals cases h

theorem line_init (cell : ℤ → Cell) : Line (init cell) 0 :=
  ⟨Nat.le_refl 0, Nat.zero_le _, rfl, fun k hk => absurd hk (Nat.not_lt_zero k)⟩

end Console
end Tty
end NanoOS
