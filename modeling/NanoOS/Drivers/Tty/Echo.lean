/-
# The screen shows the line being edited

`consl_accept` and `removec` move the cells of the screen along with the bytes
of `lbuf`, and scrolling may move the cells and the cursor in the middle of
that. The text is drawn from the cell `pos - i` on. It always starts in the
window and ends at most in the cell just below it: when it does end there, the
next insertion scrolls in the first round of its loop, while the row it blanks
is still empty.

Key definitions: `Shown`, `Echoes`.
Key theorems: `Shown.scrup`, `Shown.insert`, `Shown.erase`, `line_on_screen`.
-/
import NanoOS.Drivers.Tty.Rows

namespace NanoOS
namespace Tty

theorem Mem.closeLoop_cell : ∀ (n : ℕ) (a : ℤ) (m : Mem) (x : ℤ),
    (m.closeLoop n a).cell x = if a ≤ x ∧ x < a + n then m.cell (x + 1) else m.cell x
  | 0, a, m, x => by
    rw [if_neg (by omega)]
    rfl
  | n + 1, a, m, x => by
    unfold Mem.closeLoop
    rw [closeLoop_cell n (a + 1) (m.copy a (a + 1)) x]
    have hcopy : ∀ y, (m.copy a (a + 1)).cell y = if y = a then m.cell (a + 1) else m.cell y := by
      intro y
      exact Function.update_apply _ _ _ _
    rw [hcopy, hcopy]
    by_cases hx : x = a
    · rw [if_neg (by omega), if_pos hx, if_pos (by omega), hx]
    · by_cases hin : a + 1 ≤ x ∧ x < a + 1 + n
      · rw [if_pos hin, if_neg (by omega), if_pos (by omega)]
      · rw [if_neg hin, if_neg hx, if_neg (by omega)]

namespace Screen

variable {s : Screen}

/-- Scrolling takes the contents of the window along with the cursor, but for
the first row. -/
theorem Window.scrup_cell (hW : Window s) {x : ℤ} (hlo : s.scr + 80 ≤ x) (hhi : x < s.scr + 1920) :
    s.scrup.mem.cell (x + (s.scrup.pos - s.pos)) = s.mem.cell x := by
  have hscr := hW.scr
  by_cases hend : 1920 ≤ s.scr
  · rw [hW.scrup_end hend]
    dsimp only
    rw [(Mem.fill_spec _ blank _ 80 0 0).1, (Mem.shift_spec (by omega) s.mem 3760 0 0).1, if_neg (by omega),
      if_pos (by omega)]
    congr 1
    omega
  · rw [hW.scrup_inside (by omega)]
    dsimp only
    rw [(Mem.fill_spec _ blank _ 80 0 0).1, if_neg (by omega)]
    congr 1
    omega

/-- The loop of `consl_accept`, when it does not scroll, moves the cells up by
one. -/
theorem Window.openLoop_cell : ∀ {m : ℕ} {s : Screen}, Window s → s.pos + m ≤ s.scr + 1920 →
    Window (s.openLoop m) ∧ (s.openLoop m).pos = s.pos ∧ (s.openLoop m).scr = s.scr ∧
      ∀ x, (s.openLoop m).mem.cell x =
        if s.pos < x ∧ x ≤ s.pos + m then s.mem.cell (x - 1) else s.mem.cell x
  | 0, s, hW, _ => ⟨hW, rfl, rfl, fun x => by rw [if_neg (by omega)]; rfl⟩
  | m + 1, s, hW, h => by
    have hwh := hW.wh
    unfold Screen.openLoop
    rw [if_neg (by omega)]
    obtain ⟨hW', hpos, hscr, hcell⟩ := (hW.move s.pos
      (s.mem.copy (s.pos + (m + 1 : ℕ)) (s.pos + (m + 1 : ℕ) - 1))).openLoop_cell (m := m)
      (by dsimp only; omega)
    refine ⟨hW', hpos, hscr, fun x => ?_⟩
    rw [hcell]
    have hcopy : ∀ y, (s.mem.copy (s.pos + (m + 1 : ℕ)) (s.pos + (m + 1 : ℕ) - 1)).cell y =
        if y = s.pos + (m + 1 : ℕ) then s.mem.cell (s.pos + (m + 1 : ℕ) - 1) else s.mem.cell y := by
      intro y
      exact Function.update_apply _ _ _ _
    dsimp only
    rw [hcopy, hcopy]
    by_cases hx : x = s.pos + (m + 1 : ℕ)
    · rw [if_neg (by omega), if_pos hx, if_pos (by omega), hx]
    · by_cases hin : s.pos < x ∧ x ≤ s.pos + m
      · rw [if_pos hin, if_neg (by omega), if_pos (by omega)]
      · rw [if_neg hin, if_neg hx, if_neg (by omega)]

/-- With the text ending just below the screen, the loop of `consl_accept`
scrolls before it has moved anything. -/
theorem Window.openLoop_scrup (hW : Window s) {m : ℕ} (h : s.pos + m = s.scr + 1920) :
    s.openLoop (m + 1) = s.scrup.openLoop (m + 1) := by
  have hwh := hW.wh
  obtain ⟨hW', hoff⟩ := hW.scrup
  have hwh' := hW'.wh
  unfold Screen.openLoop
  rw [if_pos (by omega), if_neg (by omega)]

/-! ### The text on the screen -/

open Console

/-- The `n` bytes of `b` are drawn from cell `a` on, in the window. -/
structure Shown (s : Screen) (a : ℤ) (b : ℕ → BitVec 8) (n : ℕ) : Prop where
  window : Window s
  start : s.scr ≤ a
  stop : a + n ≤ s.scr + 1920
  drawn : ∀ k < n, s.mem.cell (a + k) = draw (b k)

variable {a : ℤ} {b : ℕ → BitVec 8} {n i : ℕ}

theorem Shown.move (h : Shown s a b n) (p : ℤ) : Shown { s with pos := p } a b n :=
  ⟨h.window.move p s.mem, h.start, h.stop, h.drawn⟩

/-- A text that ends at the bottom of the window keeps its cells when the
window scrolls. -/
theorem Shown.scrup (h : Shown s a b n) (hn : n ≤ 255) (hend : s.scr + 1919 ≤ a + n) :
    Shown s.scrup (a + (s.scrup.pos - s.pos)) b n := by
  obtain ⟨hW, hoff⟩ := h.window.scrup
  have hstop := h.stop
  refine ⟨hW, by omega, by omega, fun k hk => ?_⟩
  have hcell := h.window.scrup_cell (x := a + k) (by omega) (by omega)
  rw [Int.add_right_comm, hcell]
  exact h.drawn k hk

theorem Shown.next (h : Shown s a b n) (hn : n ≤ 255) (hend : s.pos = s.scr + 1919 → s.scr + 1919 ≤ a + n) :
    Shown s.next (a + (s.next.pos - 1 - s.pos)) b n := by
  have hwh := h.window.wh
  unfold Screen.next
  by_cases hlast : s.pos = s.scr + s.wh - 1
  · rw [if_pos hlast]
    dsimp only
    rw [Int.add_sub_cancel]
    exact (h.scrup hn (hend (by omega))).move _
  · rw [if_neg hlast]
    dsimp only
    rw [Int.add_sub_cancel, Int.sub_self, Int.add_zero]
    exact h.move _

/-- A character is inserted in a text that ends on the screen. -/
theorem Shown.insert_inside (h : Shown s a b n) (ch : BitVec 8) (hpos : s.pos = a + i) (hi : i ≤ n)
    (hn : n < 255) (hstop : a + n < s.scr + 1920) :
    Shown ((s.openLoop (n - i + 1)).putc ch).next (((s.openLoop (n - i + 1)).putc ch).next.pos - 1 - i)
      (Function.update (moveUp i (n - i + 1) b) i ch) (n + 1) := by
  obtain ⟨hW, hp, hscr, hcell⟩ := h.window.openLoop_cell (m := n - i + 1) (by omega)
  have hstart := h.start
  generalize s.openLoop (n - i + 1) = s1 at hW hp hscr hcell ⊢
  have hshown : Shown (s1.putc ch) a (Function.update (moveUp i (n - i + 1) b) i ch) (n + 1) := by
    refine ⟨hW.move _ _, ?_, ?_, fun k hk => ?_⟩
    · show s1.scr ≤ a
      omega
    · show a + (n + 1 : ℕ) ≤ s1.scr + 1920
      omega
    · show Function.update s1.mem.cell s1.pos (draw ch) (a + k) = _
      by_cases hki : k = i
      · rw [hki, ← hpos, hp, Function.update_self, Function.update_self]
      · rw [Function.update_of_ne (by omega), Function.update_of_ne hki, hcell]
        unfold moveUp
        by_cases hin : i < k
        · have hk1 : a + (k : ℤ) - 1 = a + (k - 1 : ℕ) := by omega
          rw [if_pos (by omega), if_pos (by omega), hk1]
          exact h.drawn (k - 1) (by omega)
        · rw [if_neg (by omega), if_neg (by omega)]
          exact h.drawn k (by omega)
  have hpos1 : (s1.putc ch).pos = s1.pos := rfl
  have hscr1 : (s1.putc ch).scr = s1.scr := rfl
  have hnext := hshown.next (by omega) (by omega)
  have hbase : a + ((s1.putc ch).next.pos - 1 - (s1.putc ch).pos) = (s1.putc ch).next.pos - 1 - i := by omega
  rw [hbase] at hnext
  exact hnext

/-- **Insertion on the screen**: the text with the character in it is drawn,
whether the window scrolls before the cells are moved, after that, or not. -/
theorem Shown.insert (h : Shown s a b n) (ch : BitVec 8) (hpos : s.pos = a + i) (hi : i ≤ n) (hn : n < 255) :
    Shown ((s.openLoop (n - i + 1)).putc ch).next (((s.openLoop (n - i + 1)).putc ch).next.pos - 1 - i)
      (Function.update (moveUp i (n - i + 1) b) i ch) (n + 1) := by
  by_cases hbelow : a + n = s.scr + 1920
  · have hoff := h.window.scrup.2
    rw [h.window.openLoop_scrup (by omega)]
    exact (h.scrup (by omega) (by omega)).insert_inside ch (by omega) hi hn (by omega)
  · have hstop := h.stop
    exact h.insert_inside ch hpos hi hn (by omega)

/-- **Removal on the screen**: the text without the character before the
cursor is drawn. -/
theorem Shown.erase (h : Shown s a b n) (hpos : s.pos = a + i) (hi : i ≤ n) (h0 : 0 < i) :
    Shown (s.erase (n - i)) a (moveDown (i - 1) n b) (n - 1) := by
  obtain ⟨hW, -, hscr⟩ := h.window.erase (n - i)
  have hstart := h.start
  have hstop := h.stop
  refine ⟨hW, by omega, by omega, fun k hk => ?_⟩
  have hclose : (s.mem.closeLoop (n - i + 1) (s.pos - 1)).cell (a + k) = draw (moveDown (i - 1) n b k) := by
    rw [Mem.closeLoop_cell]
    unfold moveDown
    by_cases hin : i - 1 ≤ k
    · have hk1 : a + (k : ℤ) + 1 = a + (k + 1 : ℕ) := by omega
      rw [if_pos (by omega), if_pos (by omega), hk1]
      exact h.drawn (k + 1) (by omega)
    · rw [if_neg (by omega), if_neg (by omega)]
      exact h.drawn k (by omega)
  unfold Screen.erase
  by_cases hlast : n - i = 0
  · -- the blank is drawn behind the text
    rw [if_pos hlast]
    show Function.update (s.mem.closeLoop (n - i + 1) (s.pos - 1)).cell (s.pos - 1) (draw 32) (a + k) = _
    rw [Function.update_of_ne (by omega)]
    exact hclose
  · rw [if_neg hlast]
    exact hclose

end Screen

/-! ### Every run -/

open Screen Trans

namespace Console

variable {c c' : Console} {tty key : ℤ} {rep : Option Reply}

section
variable {P : Console → Prop}

theorem homeLoop_rule (hl : ∀ c, P c → P c.movl.2) : ∀ {m : ℕ} {c : Console}, P c → P (homeLoop m c)
  | 0, _, h => h
  | m + 1, c, h => by
    have hmove := hl c h
    unfold homeLoop
    rcases hc : c.movl with ⟨moved, c1⟩
    rw [hc] at hmove
    cases moved with
    | true => exact homeLoop_rule hl hmove
    | false => exact hmove

theorem endLoop_rule (hr : ∀ c moved c', P c → c.movr = .ok (moved, c') → P c') :
    ∀ {m : ℕ} {c c' : Console}, P c → c.endLoop m = .ok c' → P c'
  | 0, _, _, _, hrun => by cases hrun
  | m + 1, c, c', h, hrun => by
    unfold Console.endLoop at hrun
    obtain ⟨⟨moved, c1⟩, hmove, hrest⟩ := ok_of_bind hrun
    have h1 := hr c moved c1 h hmove
    cases moved with
    | true => exact endLoop_rule hr h1 hrest
    | false =>
      cases hrest
      exact h1

/-- What Enter, moving the cursor by one and Backspace keep, every editing key
keeps. -/
theorem conslFeed_rule (he : c.cook tty = .ok (c', rep) → P c') (hl : ∀ c, P c → P c.movl.2)
    (hr : ∀ c moved c', P c → c.movr = .ok (moved, c') → P c') (hb : ∀ c c', P c → c.backsp = .ok c' → P c') (h : P c)
    (hrun : c.conslFeed tty key = .ok (c', rep)) : P c' := by
  unfold Console.conslFeed at hrun
  by_cases hE : key = kEntr
  · rw [if_pos hE] at hrun
    exact he hrun
  rw [if_neg hE] at hrun
  by_cases hD : key = kDel
  · rw [if_pos hD] at hrun
    obtain ⟨⟨moved, c1⟩, h1, hrun⟩ := ok_of_bind hrun
    obtain ⟨c2, h2, hrun⟩ := ok_of_bind hrun
    cases hrun
    exact hb c1 _ (hr c moved c1 h h1) h2
  rw [if_neg hD] at hrun
  by_cases hB : key = kBack
  · rw [if_pos hB] at hrun
    obtain ⟨c1, h1, hrun⟩ := ok_of_bind hrun
    cases hrun
    exact hb c _ h h1
  rw [if_neg hB] at hrun
  by_cases hL : key = kLeft
  · rw [if_pos hL] at hrun
    cases hrun
    exact hl c h
  rw [if_neg hL] at hrun
  by_cases hR : key = kRight
  · rw [if_pos hR] at hrun
    obtain ⟨⟨moved, c1⟩, h1, hrun⟩ := ok_of_bind hrun
    cases hrun
    exact hr c moved c1 h h1
  rw [if_neg hR] at hrun
  by_cases hH : key = kHome
  · rw [if_pos hH] at hrun
    cases hrun
    exact homeLoop_rule hl h
  rw [if_neg hH] at hrun
  by_cases hN : key = kEnd
  · rw [if_pos hN] at hrun
    obtain ⟨c1, h1, hrun⟩ := ok_of_bind hrun
    cases hrun
    exact endLoop_rule hr h h1
  rw [if_neg hN] at hrun
  cases hrun
  exact h

end

/-- The line is on the screen. -/
def Echoes (c : Console) : Prop := ∃ n, Line c n ∧ Shown c.toScreen (c.pos - c.i) c.lbuf n

theorem Echoes.movl (h : Echoes c) : Echoes c.movl.2 := by
  obtain ⟨n, hL, hS⟩ := h
  have hcur := hL.cursor
  unfold Console.movl
  by_cases hi : c.i ≠ 0
  · have hbase : c.pos - 1 - (c.i - 1 : ℕ) = c.pos - c.i := by omega
    rw [if_pos hi]
    refine ⟨n, hL.move (by omega) _, ?_⟩
    dsimp only
    rw [hbase]
    exact hS.move _
  · rw [if_neg hi]
    exact ⟨n, hL, hS⟩

theorem Echoes.movr {moved : Bool} (h : Echoes c) (hrun : c.movr = .ok (moved, c')) : Echoes c' := by
  obtain ⟨n, hL, hS⟩ := h
  rw [hL.movr] at hrun
  by_cases hi : c.i < n
  · have hbase : c.pos + 1 - (c.i + 1 : ℕ) = c.pos - c.i := by omega
    rw [if_pos hi] at hrun
    cases hrun
    refine ⟨n, hL.move hi _, ?_⟩
    dsimp only
    rw [hbase]
    exact hS.move _
  · rw [if_neg hi] at hrun
    cases hrun
    exact ⟨n, hL, hS⟩

theorem Echoes.backsp (h : Echoes c) (hrun : c.backsp = .ok c') : Echoes c' := by
  obtain ⟨n, hL, hS⟩ := h
  rw [hL.backsp] at hrun
  by_cases hi : 0 < c.i
  · rw [if_pos hi] at hrun
    cases hrun
    have hpos := (hS.window.erase (n - c.i)).2.1
    have hbase : (c.toScreen.erase (n - c.i)).pos - (c.i - 1 : ℕ) = c.pos - c.i := by omega
    refine ⟨n - 1, hL.removed hi _, ?_⟩
    dsimp only
    rw [hbase]
    exact hS.erase (by omega) hL.cursor hi
  · rw [if_neg hi] at hrun
    cases hrun
    exact ⟨n, hL, hS⟩

theorem Echoes.conslAccept {ch : BitVec 8} (h : Echoes c) (hch : ch ≠ 0) (hrun : c.conslAccept ch = .ok c') :
    Echoes c' := by
  obtain ⟨n, hL, hS⟩ := h
  rw [hL.conslAccept] at hrun
  by_cases hn : n < 255
  · rw [if_pos hn] at hrun
    cases hrun
    refine ⟨n + 1, hL.inserted hch hn _, ?_⟩
    have hins := hS.insert ch (i := c.i) (by omega) hL.cursor hn
    rw [Int.sub_sub, Int.add_comm] at hins
    exact hins
  · rw [if_neg hn] at hrun
    cases hrun

/-- After Enter the line is empty, and the cursor in the window or just below
it. -/
theorem Echoes.cook (h : Echoes c) (hrun : c.cook tty = .ok (c', rep)) : Echoes c' := by
  obtain ⟨n, hL, hS⟩ := h
  have hcur := hL.cursor
  have hstart := hS.start
  have hstop := hS.stop
  have hscr := hS.window.scr
  rcases hL.cook tty with ⟨c1, rep1, h1, hs1, hi1, hz1⟩ | hfail | hfail
  · rw [h1] at hrun
    cases hrun
    obtain ⟨hW, hoff⟩ := hS.window.newline (by omega)
    rw [← hs1] at hW hoff
    refine ⟨0, ⟨Nat.le_of_eq hi1, Nat.zero_le _, hz1, fun k hk => absurd hk (Nat.not_lt_zero k)⟩, hW, ?_, ?_,
      fun k hk => absurd hk (Nat.not_lt_zero k)⟩
    · rw [hi1]
      omega
    · rw [hi1]
      omega
  · rw [hfail] at hrun
    cases hrun
  · rw [hfail] at hrun
    cases hrun

theorem Echoes.step {e : Event} (h : Echoes c) (he : e.Keystroke) (hst : c.step tty e = some c') : Echoes c' := by
  obtain ⟨rep, hrun⟩ := ok_of_toOption hst
  cases e with
  | accept ch =>
    obtain ⟨c1, h1, hrun⟩ := ok_of_bind (x := c.conslAccept ch) (f := fun c => .ok (c, none)) hrun
    cases hrun
    exact h.conslAccept he h1
  | feed key =>
    exact conslFeed_rule h.cook (fun _ => Echoes.movl) (fun _ _ _ => Echoes.movr) (fun _ _ => Echoes.backsp) h hrun
  | write ch => exact he.elim
  | read m =>
    obtain ⟨n, hL, hS⟩ := h
    rcases readRequest_sameLine tty m c with ⟨c1, rep1, h1, hsame⟩ | hfail
    · rw [show c.handle tty (.read m) = c.readRequest tty m from rfl, h1] at hrun
      cases hrun
      have hL' := hsame.line hL
      obtain ⟨hscr, hlbuf, hi⟩ := hsame
      refine ⟨n, hL', ?_⟩
      rw [hscr, hlbuf, hi]
      exact hS
    · rw [show c.handle tty (.read m) = c.readRequest tty m from rfl, hfail] at hrun
      cases hrun

/-- **The screen shows the line being edited**: from any console with an empty
line and the cursor in the window, in every run of keys without output, the
text in `lbuf` is drawn from the cell `pos - i` on. Its cells are in the
buffer, also where the code moves a cell that is not. -/
theorem line_on_screen (tty : ℤ) (c₀ c : Console) (hW : Window c₀.toScreen) (hlo : c₀.scr ≤ c₀.pos)
    (hhi : c₀.pos < c₀.scr + c₀.wh) (hi : c₀.i = 0) (hz : c₀.lbuf 0 = 0)
    (hr : Reach (Console.step tty) (fun _ e => e.Keystroke) c₀ c) :
    ∃ n, Line c n ∧ ∀ k < n, 0 ≤ c.pos - c.i + k ∧ c.pos - c.i + k < c.size ∧
      c.mem.cell (c.pos - c.i + k) = draw (c.lbuf k) := by
  have hinit : Echoes c₀ := by
    have hwh := hW.wh
    refine ⟨0, ⟨Nat.le_of_eq hi, Nat.zero_le _, hz, fun k hk => absurd hk (Nat.not_lt_zero k)⟩, hW, ?_, ?_,
      fun k hk => absurd hk (Nat.not_lt_zero k)⟩
    · rw [hi]
      omega
    · rw [hi]
      omega
  obtain ⟨n, hL, hS⟩ := hr.invariant hinit fun _ _ _ h he hst => h.step he hst
  refine ⟨n, hL, fun k hk => ⟨?_, ?_, hS.drawn k hk⟩⟩
  · have hstart := hS.start
    have hscr := hS.window.scr
    omega
  · have hstop := hS.stop
    have hscr := hS.window.scr
    have hsize := hS.window.size
    omega

/-- `a` and `b` are typed at the end of the screen, which scrolls, and `c`
between them. -/
theorem line_on_screen_bottom : ∃ c : Console, c.i = 2 ∧ c.scr = 80 ∧
    ∃ n, Line c n ∧ ∀ k < n, 0 ≤ c.pos - c.i + k ∧ c.pos - c.i + k < c.size ∧
      c.mem.cell (c.pos - c.i + k) = draw (c.lbuf k) := by
  obtain ⟨c, hr, hi, hscr⟩ : ∃ c, Reach (Console.step 2) (fun _ e => e.Keystroke)
      { init (fun _ => blank) with pos := 1919 } c ∧ c.i = 2 ∧ c.scr = 80 :=
    Reach.exists_of_exec [.accept 97, .accept 98, .feed kLeft, .accept 99] (by decide +kernel)
  refine ⟨c, hi, hscr, line_on_screen 2 { init (fun _ => blank) with pos := 1919 } c ?_ ?_ ?_ rfl rfl hr⟩
  · exact ⟨rfl, rfl, rfl, by decide +kernel, by decide +kernel⟩
  · decide +kernel
  · decide +kernel

end Console
end Tty
end NanoOS
