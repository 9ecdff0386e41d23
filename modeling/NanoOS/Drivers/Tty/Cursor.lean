/-
# The cursor on the screen

Output, scrolling and the insertion of a character keep the cursor inside the
window. `movl`, `movr` and `del` do not look at the window: they follow the
index `i` in the line, and once output has moved the cursor, or the end of the
text has been pushed off the last row, they take it outside. `StaysVisible`
says when an event does not, from the state before it.

Key definitions: `CursorVisible`, `StaysVisible`.
Key theorems: `Window.openLoop`, `Good.edit_iff`, `cursor_visible`.
-/
import NanoOS.Lib.Trans
import NanoOS.Drivers.Tty.Line

namespace NanoOS
namespace Tty

namespace Screen

variable {s : Screen}

/-- The window does not depend on the cursor and the cells. -/
theorem Window.move (hW : Window s) (p : ℤ) (m : Mem) : Window { s with pos := p, mem := m } :=
  ⟨hW.w, hW.wh, hW.size, hW.scr, hW.row⟩

theorem Window.next (hW : Window s) : Window s.next ∧ s.next.pos - s.next.scr =
    if s.pos - s.scr = 1919 then 1840 else s.pos - s.scr + 1 := by
  have hwh := hW.wh
  unfold Screen.next
  by_cases hlast : s.pos = s.scr + s.wh - 1
  · obtain ⟨hW', hcur⟩ := hW.scrup
    rw [if_pos hlast, if_pos (by omega)]
    refine ⟨hW'.move _ _, ?_⟩
    dsimp only
    omega
  · rw [if_neg hlast, if_neg (by omega)]
    refine ⟨hW.move _ _, ?_⟩
    dsimp only
    omega

/-- The new row is the next one, or the last one if that is off the screen. -/
theorem Window.newline (hW : Window s) (hpos : 0 ≤ s.pos) : Window s.cr.lf ∧
    s.cr.lf.pos - s.cr.lf.scr = s.pos - s.scr - (s.pos - s.scr) % 80 +
      if 1840 ≤ s.pos - s.scr - (s.pos - s.scr) % 80 then 0 else 80 := by
  have hwh := hW.wh
  have hrow := hW.row
  have hcr : s.cr = { s with pos := s.pos - (s.pos - s.scr) % 80 } := by
    unfold Screen.cr
    rw [hW.w, Int.tmod_eq_emod_of_nonneg hpos]
    have hmod : s.pos % 80 = (s.pos - s.scr) % 80 := by omega
    rw [hmod]
  have hW1 : Window { s with pos := s.pos - (s.pos - s.scr) % 80 + s.w } := hW.move _ _
  have hw := hW.w
  rw [hcr]
  unfold Screen.lf
  dsimp only
  by_cases hlow : s.pos - (s.pos - s.scr) % 80 + s.w ≥ s.scr + s.wh
  · obtain ⟨hW', hcur⟩ := hW1.scrup
    rw [if_pos hlow, if_pos (by omega)]
    refine ⟨hW', ?_⟩
    rw [hcur]
    dsimp only
    omega
  · rw [if_neg hlow, if_neg (by omega)]
    refine ⟨hW1, ?_⟩
    dsimp only
    omega

/-- The loop of `consl_accept` scrolls once if a cell it moves to is the second
one below the screen. -/
theorem Window.openLoop : ∀ {m : ℕ} {s : Screen}, Window s → s.pos - s.scr ≤ 1920 →
    Window (s.openLoop m) ∧ (s.openLoop m).pos - (s.openLoop m).scr =
      if 1921 ≤ s.pos - s.scr + m then s.pos - s.scr - 80 else s.pos - s.scr
  | 0, s, hW, h => by
    rw [if_neg (by omega)]
    exact ⟨hW, rfl⟩
  | m + 1, s, hW, h => by
    have hwh := hW.wh
    unfold Screen.openLoop
    by_cases hs : s.pos + ((m + 1 : ℕ) : ℤ) = s.scr + s.wh + 1
    · obtain ⟨hW1, hcur⟩ := hW.scrup
      obtain ⟨hW2, hcur2⟩ := (hW1.move s.scrup.pos
        (s.scrup.mem.copy (s.scrup.pos + (m + 1 : ℕ)) (s.scrup.pos + (m + 1 : ℕ) - 1))).openLoop (m := m)
        (by dsimp only; omega)
      rw [if_pos hs]
      refine ⟨hW2, hcur2.trans ?_⟩
      dsimp only
      rw [if_neg (by omega), if_pos (by omega)]
      exact hcur
    · obtain ⟨hW2, hcur2⟩ := (hW.move s.pos
        (s.mem.copy (s.pos + (m + 1 : ℕ)) (s.pos + (m + 1 : ℕ) - 1))).openLoop (m := m) h
      rw [if_neg hs]
      refine ⟨hW2, hcur2.trans ?_⟩
      dsimp only
      by_cases hlow : 1921 ≤ s.pos - s.scr + m
      · rw [if_pos hlow, if_pos (by omega)]
      · rw [if_neg hlow, if_neg (by omega)]

theorem Window.erase (hW : Window s) (m : ℕ) : Window (s.erase m) ∧
    (s.erase m).pos = s.pos - 1 ∧ (s.erase m).scr = s.scr := by
  unfold Screen.erase
  split
  · exact ⟨hW.move _ _, rfl, rfl⟩
  · exact ⟨hW.move _ _, rfl, rfl⟩

/-- The cursor is in a cell of the window, and the window in the buffer. -/
def CursorVisible (s : Screen) : Prop :=
  0 ≤ s.scr ∧ s.scr ≤ s.pos ∧ s.pos < s.scr + s.wh ∧ s.scr + s.wh ≤ s.size

instance (s : Screen) : Decidable (CursorVisible s) := inferInstanceAs (Decidable (_ ∧ _))

theorem Window.visible_iff (hW : Window s) :
    CursorVisible s ↔ 0 ≤ s.pos - s.scr ∧ s.pos - s.scr < 1920 := by
  have hscr := hW.scr
  have hwh := hW.wh
  have hsize := hW.size
  unfold CursorVisible
  omega

theorem Window.conslWritec (hW : Window s) (hv : CursorVisible s) (ch : BitVec 8) :
    Window (s.conslWritec ch) ∧ CursorVisible (s.conslWritec ch) := by
  have hscr := hW.scr
  rw [hW.visible_iff] at hv
  unfold Screen.conslWritec
  by_cases hr : ch = 13
  · have hW' : Window s.cr := hW.move _ s.mem
    have hpos : s.cr.pos = s.pos - s.pos % 80 := by
      unfold Screen.cr
      rw [hW.w, Int.tmod_eq_emod_of_nonneg (by omega)]
    have hrow := hW.row
    rw [if_pos hr, hW'.visible_iff]
    refine ⟨hW', ?_⟩
    rw [hpos]
    change 0 ≤ _ - s.scr ∧ _ - s.scr < _
    omega
  rw [if_neg hr]
  by_cases hn : ch = 10
  · obtain ⟨hW', hcur⟩ := hW.newline (by omega)
    rw [if_pos hn, hW'.visible_iff, hcur]
    exact ⟨hW', by omega⟩
  · obtain ⟨hW', hcur⟩ := (show Window (s.putc ch) from hW.move _ _).next
    change _ = ite (s.pos - s.scr = 1919) _ (s.pos - s.scr + 1) at hcur
    rw [if_neg hn, hW'.visible_iff, hcur]
    exact ⟨hW', by omega⟩

end Screen

open Screen

namespace View

variable {v : View}

/-- The cursor of `v` is in the text, the window in the buffer and the cursor
on the screen. -/
structure Good (v : View) : Prop where
  window : Window v.screen
  cursor : v.i ≤ v.n
  len : v.n ≤ 255
  visible : CursorVisible v.screen

/-- When an event leaves the cursor on the screen. -/
def Stays (v : View) : Event → Prop
  | .feed key =>
    if key = kEntr then True
    else if key = kDel then v.i = v.n → 0 < v.i → v.screen.scr < v.screen.pos
    else if key = kBack then 0 < v.i → v.screen.scr < v.screen.pos
    else if key = kLeft then 0 < v.i → v.screen.scr < v.screen.pos
    else if key = kRight then v.i < v.n → v.screen.pos + 1 < v.screen.scr + v.screen.wh
    else if key = kHome then v.screen.scr ≤ v.screen.pos - v.i
    else if key = kEnd then v.screen.pos + (v.n - v.i : ℕ) < v.screen.scr + v.screen.wh
    else True
  | _ => True

theorem Good.accept (hv : Good v) (ch : BitVec 8) :
    Window (v.edit (.accept ch)).screen ∧ CursorVisible (v.edit (.accept ch)).screen := by
  have hcur := hv.cursor
  have hlen := hv.len
  have hvis := hv.window.visible_iff.mp hv.visible
  obtain ⟨hW, hoff⟩ := hv.window.openLoop (m := v.n - v.i + 1) (by omega)
  obtain ⟨hW', hoff'⟩ := (show Window ((v.screen.openLoop (v.n - v.i + 1)).putc ch) from hW.move _ _).next
  change _ = ite ((v.screen.openLoop (v.n - v.i + 1)).pos - (v.screen.openLoop (v.n - v.i + 1)).scr = 1919)
    _ ((v.screen.openLoop (v.n - v.i + 1)).pos - (v.screen.openLoop (v.n - v.i + 1)).scr + 1) at hoff'
  refine ⟨hW', hW'.visible_iff.mpr ?_⟩
  rw [hoff', hoff]
  omega

theorem Good.left_iff (hv : Good v) : Window v.left.screen ∧
    (CursorVisible v.left.screen ↔ (0 < v.i → v.screen.scr < v.screen.pos)) := by
  have hvis := hv.window.visible_iff.mp hv.visible
  unfold View.left
  by_cases hi : 0 < v.i
  · have hW := hv.window.move (v.screen.pos - 1) v.screen.mem
    rw [if_pos hi]
    refine ⟨hW, hW.visible_iff.trans ?_⟩
    dsimp only
    omega
  · rw [if_neg hi]
    exact ⟨hv.window, fun _ h => absurd h hi, fun _ => hv.visible⟩

theorem Good.back_iff (hv : Good v) : Window v.back.screen ∧
    (CursorVisible v.back.screen ↔ (0 < v.i → v.screen.scr < v.screen.pos)) := by
  have hvis := hv.window.visible_iff.mp hv.visible
  unfold View.back
  by_cases hi : 0 < v.i
  · obtain ⟨hW, hpos, hscr⟩ := hv.window.erase (v.n - v.i)
    rw [if_pos hi]
    refine ⟨hW, hW.visible_iff.trans ?_⟩
    rw [hpos, hscr]
    omega
  · rw [if_neg hi]
    exact ⟨hv.window, fun _ h => absurd h hi, fun _ => hv.visible⟩

theorem Good.right_iff (hv : Good v) : Window v.right.screen ∧
    (CursorVisible v.right.screen ↔ (v.i < v.n → v.screen.pos + 1 < v.screen.scr + v.screen.wh)) := by
  have hvis := hv.window.visible_iff.mp hv.visible
  have hwh := hv.window.wh
  unfold View.right
  by_cases hi : v.i < v.n
  · have hW := hv.window.move (v.screen.pos + 1) v.screen.mem
    rw [if_pos hi]
    refine ⟨hW, hW.visible_iff.trans ?_⟩
    dsimp only
    omega
  · rw [if_neg hi]
    exact ⟨hv.window, fun _ h => absurd h hi, fun _ => hv.visible⟩

theorem Good.delete_iff (hv : Good v) : Window v.right.back.screen ∧
    (CursorVisible v.right.back.screen ↔ (v.i = v.n → 0 < v.i → v.screen.scr < v.screen.pos)) := by
  have hcur := hv.cursor
  by_cases hi : v.i < v.n
  · have hvis := hv.window.visible_iff.mp hv.visible
    have hright : v.right =
        { v with screen := { v.screen with pos := v.screen.pos + 1 }, i := v.i + 1 } := if_pos hi
    have hback : v.right.back.screen =
        Screen.erase (v.n - (v.i + 1)) { v.screen with pos := v.screen.pos + 1 } := by
      rw [hright]
      unfold View.back
      rw [if_pos (Nat.succ_pos _)]
    obtain ⟨hW, hpos, hscr⟩ := (hv.window.move (v.screen.pos + 1) v.screen.mem).erase (v.n - (v.i + 1))
    rw [hback]
    refine ⟨hW, hW.visible_iff.trans ?_⟩
    rw [hpos, hscr]
    dsimp only
    omega
  · have hright : v.right = v := if_neg hi
    rw [hright]
    refine ⟨hv.back_iff.1, hv.back_iff.2.trans ?_⟩
    omega

/-- **When an event leaves the cursor on the screen**, for a console that has
it there. -/
theorem Good.edit_iff (hv : Good v) (e : Event) :
    Window (v.edit e).screen ∧ (CursorVisible (v.edit e).screen ↔ v.Stays e) := by
  have hvis := hv.window.visible_iff.mp hv.visible
  have hscr := hv.window.scr
  have hwh := hv.window.wh
  have hcur := hv.cursor
  cases e with
  | accept ch => exact ⟨(hv.accept ch).1, fun _ => trivial, fun _ => (hv.accept ch).2⟩
  | write ch =>
    obtain ⟨hW, hV⟩ := hv.window.conslWritec hv.visible ch
    exact ⟨hW, fun _ => trivial, fun _ => hV⟩
  | read m => exact ⟨hv.window, fun _ => trivial, fun _ => hv.visible⟩
  | feed key =>
    unfold View.edit View.press View.Stays
    dsimp only
    by_cases hE : key = kEntr
    · rw [if_pos hE, if_pos hE]
      obtain ⟨hW, hoff⟩ := hv.window.newline (by omega)
      refine ⟨hW, fun _ => trivial, fun _ => hW.visible_iff.mpr ?_⟩
      rw [hoff]
      omega
    rw [if_neg hE, if_neg hE]
    by_cases hD : key = kDel
    · rw [if_pos hD, if_pos hD]
      exact hv.delete_iff
    rw [if_neg hD, if_neg hD]
    by_cases hB : key = kBack
    · rw [if_pos hB, if_pos hB]
      exact hv.back_iff
    rw [if_neg hB, if_neg hB]
    by_cases hl : key = kLeft
    · rw [if_pos hl, if_pos hl]
      exact hv.left_iff
    rw [if_neg hl, if_neg hl]
    by_cases hr : key = kRight
    · rw [if_pos hr, if_pos hr]
      exact hv.right_iff
    rw [if_neg hr, if_neg hr]
    by_cases hH : key = kHome
    · rw [if_pos hH, if_pos hH]
      have hW := hv.window.move (v.screen.pos - v.i) v.screen.mem
      refine ⟨hW, hW.visible_iff.trans ?_⟩
      dsimp only
      omega
    rw [if_neg hH, if_neg hH]
    by_cases hN : key = kEnd
    · rw [if_pos hN, if_pos hN]
      have hW := hv.window.move (v.screen.pos + (v.n - v.i : ℕ)) v.screen.mem
      refine ⟨hW, hW.visible_iff.trans ?_⟩
      dsimp only
      omega
    rw [if_neg hN, if_neg hN]
    exact ⟨hv.window, fun _ => trivial, fun _ => hv.visible⟩

end View

/-! ### Runs -/

namespace Console

open Trans

variable {c : Console} {n : ℕ}

/-- `strlen(c->lbuf + c->i)`, as `consl_accept` finds it. -/
def tailLen (c : Console) : ℕ := (c.tailLoop (lbufSz + 1 - c.i) 0).toOption.getD 0

theorem Line.tailLen (hL : Line c n) : c.tailLen = n - c.i := by
  have hcur := hL.cursor
  have hlen := hL.len
  unfold Console.tailLen
  rw [hL.tailLoop (by omega) (by unfold lbufSz; omega)]
  rfl

/-- Left, Backspace, and Delete at the end of the text, move the cursor from a
cell that is not the first of the screen; the start of the text is not above
the screen at Home; Right does not start from the last cell, and the end of
the text is on the screen at End. -/
def StaysVisible (c : Console) : Event → Prop
  | .feed key =>
    if key = kEntr then True
    else if key = kDel then c.lbuf c.i = 0 → 0 < c.i → c.scr < c.pos
    else if key = kBack then 0 < c.i → c.scr < c.pos
    else if key = kLeft then 0 < c.i → c.scr < c.pos
    else if key = kRight then c.lbuf c.i ≠ 0 → c.pos + 1 < c.scr + c.wh
    else if key = kHome then c.scr ≤ c.pos - c.i
    else if key = kEnd then c.pos + c.tailLen < c.scr + c.wh
    else True
  | _ => True

instance (c : Console) : ∀ e : Event, Decidable (c.StaysVisible e)
  | .feed _ => inferInstanceAs (Decidable (ite _ _ _))
  | .accept _ => .isTrue trivial
  | .write _ => .isTrue trivial
  | .read _ => .isTrue trivial

theorem Line.staysVisible_iff (hL : Line c n) (e : Event) :
    c.StaysVisible e ↔ View.Stays ⟨c.toScreen, c.i, n⟩ e := by
  have hcur := hL.cursor
  have hne : c.lbuf c.i ≠ 0 ↔ c.i < n := by
    rw [Ne, hL.at_end]
    omega
  cases e with
  | feed key =>
    unfold StaysVisible View.Stays
    dsimp only
    rw [hne, hL.at_end, hL.tailLen]
  | accept ch => exact Iff.rfl
  | write ch => exact Iff.rfl
  | read m => exact Iff.rfl

/-- The invariant of a run in which the cursor has stayed on the screen. -/
def Editing (c : Console) : Prop := ∃ n, Line c n ∧ Window c.toScreen ∧ CursorVisible c.toScreen

theorem editing_init (cell : ℤ → Cell) : Editing (init cell) := by
  have hW : Window (init cell).toScreen := by
    refine ⟨rfl, rfl, rfl, ?_, ?_⟩
    · change (0 : ℤ) ≤ 0 ∧ (0 : ℤ) ≤ 1920
      decide
    · change (80 : ℤ) ∣ 0
      decide
  refine ⟨0, line_init cell, hW, hW.visible_iff.mpr ?_⟩
  change (0 : ℤ) ≤ 0 - 0 ∧ (0 : ℤ) - 0 < 1920
  decide

theorem Editing.step_iff (hc : Editing c) {tty : ℤ} {e : Event} {c' : Console} (he : e.Ok)
    (h : c.step tty e = some c') : (∃ n, Line c' n) ∧ Window c'.toScreen ∧
      (CursorVisible c'.toScreen ↔ c.StaysVisible e) := by
  obtain ⟨n, hL, hW, hV⟩ := hc
  obtain ⟨hL', hscreen, -⟩ := hL.step he h
  have hgood : View.Good ⟨c.toScreen, c.i, n⟩ := ⟨hW, hL.cursor, hL.len, hV⟩
  rw [hscreen, hL.staysVisible_iff]
  exact ⟨⟨_, hL'⟩, hgood.edit_iff e⟩

theorem Editing.step (hc : Editing c) {tty : ℤ} {e : Event} {c' : Console} (he : e.Ok)
    (hs : c.StaysVisible e) (h : c.step tty e = some c') : Editing c' := by
  obtain ⟨⟨n, hL⟩, hW, hV⟩ := hc.step_iff he h
  exact ⟨n, hL, hW, hV.mpr hs⟩

/-- **The cursor stays on the screen as long as the editing keys find it where
they may move it**, whatever is typed, shown and read in between; and the
first key that does not find it so takes it off the screen. -/
theorem cursor_visible (tty : ℤ) (cell : ℤ → Cell)
    (h : Reach (step tty) (fun c e => e.Ok ∧ c.StaysVisible e) (init cell) c) :
    CursorVisible c.toScreen ∧ (80 ≤ c.hardwareCursor ∧ c.hardwareCursor < 2000) ∧
      ∀ e c', e.Ok → c.step tty e = some c' → (CursorVisible c'.toScreen ↔ c.StaysVisible e) := by
  have hc : Editing c := h.invariant (editing_init cell) fun s e s' hs hok hst =>
    hs.step hok.1 hok.2 hst
  obtain ⟨n, hL, hW, hV⟩ := id hc
  have hvis := hW.visible_iff.mp hV
  have hw := hW.w
  refine ⟨hV, ?_, fun e c' he hst => (hc.step_iff he hst).2.2⟩
  unfold hardwareCursor
  omega

/-- A character is typed, a program shows a line, and the cursor goes through
the text. -/
theorem cursor_visible_typing : ∃ c : Console, (CursorVisible c.toScreen ∧
    (80 ≤ c.hardwareCursor ∧ c.hardwareCursor < 2000) ∧
      ∀ e c', e.Ok → c.step 3 e = some c' → (CursorVisible c'.toScreen ↔ c.StaysVisible e)) ∧ c.pos = 81 := by
  obtain ⟨c, hr, hpos⟩ : ∃ c, Reach (step 3) (fun c e => e.Ok ∧ c.StaysVisible e) (init fun _ => 0) c ∧
      c.pos = 81 :=
    Reach.exists_of_exec [.accept 97, .write 10, .feed kLeft, .feed kRight, .accept 98] (by decide +kernel)
  exact ⟨c, cursor_visible 3 _ hr, hpos⟩

/-- A character is typed, a program shows `'\r'`, and Left takes the cursor to
the cell before the screen. -/
theorem cursor_leaves_screen : ¬ ∀ (tty : ℤ) (cell : ℤ → Cell) (c : Console),
    Reach (step tty) (fun _ e => e.Ok) (init cell) c → CursorVisible c.toScreen := by
  intro h
  obtain ⟨c, hr, hpos⟩ : ∃ c, Reach (step 3) (fun _ e => e.Ok) (init fun _ => 0) c ∧
      ¬ CursorVisible c.toScreen :=
    Reach.exists_of_exec [.accept 97, .write 13, .feed kLeft] (by decide +kernel)
  exact hpos (h 3 _ c hr)

end Console
end Tty
end NanoOS
