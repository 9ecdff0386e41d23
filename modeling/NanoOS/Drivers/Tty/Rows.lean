/-
# The rows of `vbuf`

The screen buffers of the four consoles are the rows of one array. What is
typed on a console stays in its row, with one exception: `consl_accept` moves
the cell after the text before it looks whether the screen has to scroll, and
when the window is at the end of the buffer and the text ends in its last
cell, that is the first cell of the next row.

The text being edited starts on the screen and ends at most one cell below it
(`Typing`).

Key definitions: `initConsole`, `Typing`, `InsertsInside`.
Key theorems: `Traced.edit`, `Typing.edit`, `rows_separate`.
-/
import NanoOS.Drivers.Tty.Cursor

namespace NanoOS
namespace Tty

/-! ### What was not accessed has not changed -/

/-- A cell that was not accessed is as it was at the start. -/
def Mem.Traced (cell : ℤ → Cell) (m : Mem) : Prop := ∀ a, a ∉ m.touched → m.cell a = cell a

namespace Mem.Traced

variable {cell : ℤ → Cell} {m : Mem}

theorem store (h : Traced cell m) (a : ℤ) (x : Cell) : Traced cell (m.store a x) := by
  intro b hb
  obtain ⟨hne, hnot⟩ := not_or.mp (mt List.mem_cons.mpr hb)
  exact (Function.update_of_ne hne ..).trans (h b hnot)

theorem copy (h : Traced cell m) (a b : ℤ) : Traced cell (m.copy a b) := by
  intro d hd
  obtain ⟨hne, hd⟩ := not_or.mp (mt List.mem_cons.mpr hd)
  obtain ⟨-, hnot⟩ := not_or.mp (mt List.mem_cons.mpr hd)
  exact (Function.update_of_ne hne ..).trans (h d hnot)

theorem foldl {g : Mem → ℕ → Mem} (hg : ∀ m k, Traced cell m → Traced cell (g m k)) :
    ∀ (l : List ℕ) {m : Mem}, Traced cell m → Traced cell (l.foldl g m)
  | [], _, h => h
  | k :: l, _, h => foldl hg l (hg _ k h)

theorem shift (h : Traced cell m) (w : ℤ) (n : ℕ) : Traced cell (m.shift w n) :=
  foldl (fun _ _ hm => hm.copy _ _) _ h

theorem fill (h : Traced cell m) (a : ℤ) (n : ℕ) (x : Cell) : Traced cell (m.fill a n x) :=
  foldl (fun _ _ hm => hm.store _ _) _ h

theorem closeLoop : ∀ (n : ℕ) (a : ℤ) {m : Mem}, Traced cell m → Traced cell (m.closeLoop n a)
  | 0, _, _, h => h
  | n + 1, a, _, h => closeLoop n (a + 1) (h.copy _ _)

end Mem.Traced

section

open Mem

variable {cell : ℤ → Cell} {s : Screen}

theorem Traced.scrup (h : Traced cell s.mem) : Traced cell s.scrup.mem := by
  unfold Screen.scrup
  dsimp only
  split
  · exact (h.shift _ _).fill _ _ _
  · exact h.fill _ _ _

theorem Traced.next (h : Traced cell s.mem) : Traced cell s.next.mem := by
  unfold Screen.next
  dsimp only
  split
  · exact scrup h
  · exact h

theorem Traced.lf (h : Traced cell s.mem) : Traced cell s.lf.mem := by
  unfold Screen.lf
  dsimp only
  split
  · exact scrup h
  · exact h

theorem Traced.openLoop : ∀ {m : ℕ} {s : Screen}, Traced cell s.mem → Traced cell (s.openLoop m).mem
  | 0, _, h => h
  | m + 1, s, h => by
    unfold Screen.openLoop
    dsimp only
    split
    · exact openLoop ((scrup h).copy _ _)
    · exact openLoop (h.copy _ _)

theorem Traced.erase (h : Traced cell s.mem) (m : ℕ) : Traced cell (s.erase m).mem := by
  unfold Screen.erase
  dsimp only
  split
  · exact (Mem.Traced.closeLoop _ _ h).store _ _
  · exact Mem.Traced.closeLoop _ _ h

theorem Traced.back {v : View} (h : Traced cell v.screen.mem) : Traced cell v.back.screen.mem := by
  unfold View.back
  split
  · exact erase h _
  · exact h

theorem Traced.right {v : View} (h : Traced cell v.screen.mem) : Traced cell v.right.screen.mem := by
  unfold View.right
  split
  · exact h
  · exact h

theorem Traced.left {v : View} (h : Traced cell v.screen.mem) : Traced cell v.left.screen.mem := by
  unfold View.left
  split
  · exact h
  · exact h

theorem Traced.press {v : View} (h : Traced cell v.screen.mem) (key : ℤ) :
    Traced cell (v.press key).screen.mem := by
  rw [View.press_eq]
  apply View.keypad.press_rule (Q := fun v => Traced cell v.screen.mem)
  · exact lf (s := v.screen.cr) h
  · intro v h
    exact back h
  · exact left h
  · exact right h
  · exact h
  · exact h
  · exact h

/-- Every event writes only to cells it accesses. -/
theorem Traced.edit {v : View} (h : Traced cell v.screen.mem) (e : Event) :
    Traced cell (v.edit e).screen.mem := by
  cases e with
  | accept ch => exact next (s := (v.screen.openLoop _).putc ch) ((openLoop h).store _ _)
  | feed key => exact press h key
  | read m => exact h
  | write ch =>
    unfold View.edit Screen.conslWritec
    dsimp only
    split
    · exact h
    split
    · exact lf (s := v.screen.cr) h
    · exact next (s := v.screen.putc ch) (h.store _ _)

end

/-! ### The accesses are in the row -/

namespace Screen

variable {s : Screen}

theorem Geometry.move (hG : Geometry s) (p : ℤ) : Geometry { s with pos := p } :=
  ⟨hG.w, hG.h, hG.wh, hG.size, hG.scr, hG.row, hG.within⟩

theorem Geometry.access (hG : Geometry s) {m : Mem} (hm : m.Within 0 3840) : Geometry { s with mem := m } :=
  ⟨hG.w, hG.h, hG.wh, hG.size, hG.scr, hG.row, hm⟩

theorem Geometry.next (hG : Geometry s) : Geometry s.next := by
  unfold Screen.next
  dsimp only
  split
  · exact hG.scrup.1.move _
  · exact hG.move _

theorem Geometry.newline (hG : Geometry s) : Geometry s.cr.lf := by
  unfold Screen.cr Screen.lf
  dsimp only
  split
  · exact (hG.move _).scrup.1
  · exact hG.move _

theorem Geometry.openLoop_inside : ∀ {m : ℕ} {s : Screen}, Geometry s → 0 ≤ s.pos → s.pos + m < 3840 →
    s.pos + m ≤ s.scr + 1920 →
    Geometry (s.openLoop m) ∧ (s.openLoop m).scr = s.scr ∧ (s.openLoop m).pos = s.pos
  | 0, _, hG, _, _, _ => ⟨hG, rfl, rfl⟩
  | m + 1, s, hG, h0, h, hs => by
    have hwh := hG.wh
    unfold Screen.openLoop
    rw [if_neg (by omega)]
    exact (hG.access (hG.within.copy (by omega) (by omega))).openLoop_inside h0 (by dsimp only; omega)
      (by dsimp only; omega)

/-- The loop of `consl_accept` with the text on the screen: at the end of the
buffer the cell after it must not be the one below the screen. -/
theorem Geometry.openLoop (hG : Geometry s) {m : ℕ} (h0 : s.scr ≤ s.pos) (h : s.pos + m ≤ s.scr + 1920)
    (hm : m ≤ 255) (hedge : ¬ (s.scr = 1920 ∧ s.pos + m = 3839)) :
    Geometry (s.openLoop (m + 1)) ∧ (s.pos + m ≠ s.scr + 1920 →
      (s.openLoop (m + 1)).scr = s.scr ∧ (s.openLoop (m + 1)).pos = s.pos) := by
  have hscr := hG.scr
  have hwh := hG.wh
  by_cases hlow : s.pos + m = s.scr + 1920
  · obtain ⟨hG1, hcur, -⟩ := hG.scrup
    have hscr1 := hG1.scr
    unfold Screen.openLoop
    rw [if_pos (by omega)]
    refine ⟨(Geometry.openLoop_inside (hG1.access (hG1.within.copy (by omega) (by omega))) ?_ ?_ ?_).1,
      absurd hlow⟩
    all_goals dsimp only
    all_goals omega
  · obtain ⟨hG1, hsame⟩ := hG.openLoop_inside (m := m + 1) (by omega) (by omega) (by omega)
    exact ⟨hG1, fun _ => hsame⟩

theorem within_closeLoop : ∀ {n : ℕ} {a : ℤ} {m : Mem}, m.Within 0 3840 → 0 ≤ a → a + n < 3840 →
    (m.closeLoop n a).Within 0 3840
  | 0, _, _, hm, _, _ => hm
  | n + 1, a, m, hm, h0, h => by
    have hcopy : (m.copy a (a + 1)).Within 0 3840 := hm.copy (by omega) (by omega)
    unfold Mem.closeLoop
    exact within_closeLoop hcopy (by omega) (by omega)

theorem Geometry.erase (hG : Geometry s) {m : ℕ} (h0 : 0 < s.pos) (h : s.pos + m < 3840) :
    Geometry (s.erase m) := by
  have hin : (s.mem.closeLoop (m + 1) (s.pos - 1)).Within 0 3840 :=
    within_closeLoop hG.within (by omega) (by omega)
  have hG1 := (hG.access hin).move (s.pos - 1)
  unfold Screen.erase
  dsimp only
  split
  · exact hG1.access (hG1.within.store (by dsimp only; omega) (by dsimp only; omega))
  · exact hG1

end Screen

open Screen

namespace View

variable {v : View}

/-- The text being edited starts on the screen and ends at most one cell below
it; at the end of the buffer only an empty text is there. -/
structure Typing (v : View) : Prop where
  geometry : Geometry v.screen
  cursor : v.i ≤ v.n
  len : v.n ≤ 255
  start : v.screen.scr ≤ v.screen.pos - v.i
  stop : v.screen.pos + (v.n - v.i : ℕ) ≤ v.screen.scr + 1920
  edge : v.screen.scr = 1920 → v.screen.pos + (v.n - v.i : ℕ) = 3840 → v.n = 0

theorem Typing.move (hv : Typing v) {j : ℕ} (hj : j ≤ v.n) :
    Typing { v with screen := { v.screen with pos := v.screen.pos - v.i + j }, i := j } := by
  have hcur := hv.cursor
  have hstop := hv.stop
  have hedge := hv.edge
  have hstart := hv.start
  refine ⟨hv.geometry.move _, hj, hv.len, ?_, ?_, ?_⟩
  all_goals dsimp only
  all_goals omega

theorem Typing.left (hv : Typing v) : Typing v.left := by
  have hcur := hv.cursor
  unfold View.left
  split
  · have hpos : v.screen.pos - 1 = v.screen.pos - v.i + (v.i - 1 : ℕ) := by omega
    rw [hpos]
    exact hv.move (by omega)
  · exact hv

theorem Typing.right (hv : Typing v) : Typing v.right := by
  unfold View.right
  split
  · have hpos : v.screen.pos + 1 = v.screen.pos - v.i + (v.i + 1 : ℕ) := by omega
    rw [hpos]
    exact hv.move (by omega)
  · exact hv

theorem Typing.back (hv : Typing v) : Typing v.back := by
  have hcur := hv.cursor
  have hlen := hv.len
  have hstart := hv.start
  have hstop := hv.stop
  have hedge := hv.edge
  have hscr := hv.geometry.scr
  unfold View.back
  split
  · obtain ⟨-, hpos, hwin⟩ := hv.geometry.window.erase (v.n - v.i)
    refine ⟨hv.geometry.erase (by omega) (by omega), ?_, ?_, ?_, ?_, ?_⟩
    all_goals dsimp only
    all_goals omega
  · exact hv

/-- When the cells a character moves are in the buffer. -/
def Inside (v : View) : Event → Prop
  | .accept _ => ¬ (v.screen.scr = 1920 ∧ v.screen.pos + (v.n - v.i : ℕ) = 3839)
  | _ => True

theorem Typing.accept (hv : Typing v) {ch : BitVec 8} (hn : v.n < 255) (hin : v.Inside (.accept ch)) :
    Typing (v.edit (.accept ch)) := by
  have hcur := hv.cursor
  have hstart := hv.start
  have hstop := hv.stop
  have hedge := hv.edge
  have hscr := hv.geometry.scr
  unfold Inside at hin
  obtain ⟨hG, hsame⟩ := hv.geometry.openLoop (m := v.n - v.i) (by omega) (by omega) (by omega) (by omega)
  have hoff := (hv.geometry.window.openLoop (m := v.n - v.i + 1) (by omega)).2
  have hscr1 := hG.scr
  unfold View.edit
  dsimp only
  -- the screen when the cells have been moved
  generalize v.screen.openLoop (v.n - v.i + 1) = s at hG hoff hscr1 hsame ⊢
  have hG1 : Geometry (s.putc ch) := hG.access (hG.within.store (by omega) (by omega))
  have hnext := hG1.window.next.2
  have hstay : s.pos ≠ s.scr + 1919 → (s.putc ch).next.scr = s.scr := by
    intro hne
    unfold Screen.next
    have hwh : (s.putc ch).wh = 1920 := hG1.wh
    rw [if_neg (by rw [hwh]; change ¬ s.pos = s.scr + 1920 - 1; omega)]
    rfl
  change _ = ite (s.pos - s.scr = 1919) _ (s.pos - s.scr + 1) at hnext
  refine ⟨hG1.next, ?_, ?_, ?_, ?_, ?_⟩
  all_goals dsimp only
  all_goals omega

/-- **What is typed stays in the row**: each event keeps the text where it can
be edited, and accesses only cells of the buffer. -/
theorem Typing.edit (hv : Typing v) {e : Event} (hn : (v.edit e).n ≤ 255) (hin : v.Inside e)
    (hout : ∀ ch, e ≠ .write ch) : Typing (v.edit e) := by
  have hcur := hv.cursor
  have hlen := hv.len
  have hstart := hv.start
  have hstop := hv.stop
  have hscr := hv.geometry.scr
  cases e with
  | accept ch => exact hv.accept hn hin
  | write ch => exact absurd rfl (hout ch)
  | read m => exact hv
  | feed key =>
    show Typing (v.press key)
    rw [press_eq]
    apply keypad.press_rule
    · obtain ⟨-, hoff⟩ := hv.geometry.window.newline (by omega)
      refine ⟨hv.geometry.newline, Nat.le_refl 0, Nat.zero_le _, ?_, ?_, fun _ _ => rfl⟩
      all_goals dsimp only [keypad]
      all_goals omega
    · intro v hv
      exact hv.back
    · exact hv.left
    · exact hv.right
    · have hpos : v.screen.pos - v.i = v.screen.pos - v.i + (0 : ℕ) := by omega
      have hhome := hv.move (Nat.zero_le v.n)
      rw [← hpos] at hhome
      exact hhome
    · have hpos : v.screen.pos + (v.n - v.i : ℕ) = v.screen.pos - v.i + v.n := by omega
      have hend := hv.move (Nat.le_refl v.n)
      rw [← hpos] at hend
      exact hend
    · exact hv

end View

/-! ### Runs -/

/-- The first cell of row `k` of `vbuf`. -/
def rowStart (k : ℕ) : ℤ := scrW * scrH * 2 * k

/-- `vbuf` and what lies around it, after `init_console`. -/
def initVbuf (cell : ℤ → Cell) : ℤ → Cell :=
  ((List.range nrTty).foldl (fun m k => m.fill (rowStart k) (scrW * scrH).toNat blank) (Mem.mk cell [])).cell

theorem initVbuf_past (cell : ℤ → Cell) {a : ℤ} (ha : rowStart nrTty ≤ a) : initVbuf cell a = cell a := by
  have hfill : ∀ (m : Mem) (k : ℕ), k < 4 →
      (m.fill (rowStart k) (scrW * scrH).toNat blank).cell a = m.cell a := by
    intro m k hk
    rw [(Mem.fill_spec (rowStart k) blank m _ 0 0).1]
    unfold rowStart nrTty scrW scrH at ha
    unfold rowStart scrW scrH
    exact if_neg (by omega)
  unfold initVbuf nrTty
  rw [List.range_succ, List.range_succ, List.range_succ, List.range_succ, List.range_zero]
  simp only [List.foldl_append, List.foldl_cons, List.foldl_nil]
  rw [hfill _ 3 (by decide), hfill _ 2 (by decide), hfill _ 1 (by decide), hfill _ 0 (by decide)]

/-- Console `k` after `init_console`: it sees its row from 0 on, and the others
before and after it. -/
def initConsole (cell : ℤ → Cell) (k : ℕ) : Console :=
  { Console.init cell with mem := ⟨fun a => initVbuf cell (rowStart k + a), []⟩ }

theorem initConsole_cell (cell : ℤ → Cell) (k : ℕ) (a : ℤ) :
    (initConsole cell k).mem.cell a = initVbuf cell (rowStart k + a) := by
  dsimp only [initConsole]

/-- A key, or a request to read what was typed. -/
def Event.Keystroke : Event → Prop
  | .write _ => False
  | e => e.Ok

instance : ∀ e : Event, Decidable e.Keystroke
  | .accept ch => inferInstanceAs (Decidable (ch ≠ 0))
  | .feed _ => .isTrue trivial
  | .write _ => .isFalse id
  | .read _ => .isTrue trivial

theorem Event.Keystroke.ok {e : Event} (h : e.Keystroke) : e.Ok := by
  cases e with
  | write ch => exact h.elim
  | accept ch => exact h
  | feed key => exact h
  | read m => exact h

namespace Console

open Trans

variable {c : Console} {n : ℕ}

/-- No character is typed when the window is at the end of the buffer and the
text ends in the last cell of the screen. -/
def InsertsInside (c : Console) : Event → Prop
  | .accept _ => ¬ (c.scr + c.wh = c.size ∧ c.pos + c.tailLen = c.scr + c.wh - 1)
  | _ => True

instance (c : Console) : ∀ e : Event, Decidable (c.InsertsInside e)
  | .accept _ => inferInstanceAs (Decidable (¬ _))
  | .feed _ => .isTrue trivial
  | .write _ => .isTrue trivial
  | .read _ => .isTrue trivial

/-- The invariant of a run of keystrokes. -/
def Typed (cell : ℤ → Cell) (c : Console) : Prop :=
  ∃ n, Line c n ∧ View.Typing ⟨c.toScreen, c.i, n⟩ ∧ Mem.Traced cell c.mem

theorem Typed.step {cell : ℤ → Cell} (hc : Typed cell c) {tty : ℤ} {e : Event} {c' : Console}
    (he : e.Keystroke) (hin : c.InsertsInside e) (h : c.step tty e = some c') : Typed cell c' := by
  obtain ⟨n, hL, hT, hM⟩ := hc
  obtain ⟨hL', hscreen, hi⟩ := hL.step he.ok h
  have hinside : View.Inside ⟨c.toScreen, c.i, n⟩ e := by
    cases e with
    | accept ch =>
      have hwh : c.wh = 1920 := hT.geometry.wh
      have hsize : c.size = 3840 := hT.geometry.size
      unfold InsertsInside at hin
      rw [hL.tailLen] at hin
      unfold View.Inside
      dsimp only at hin ⊢
      omega
    | feed key => trivial
    | write ch => trivial
    | read m => trivial
  have hout : ∀ ch, e ≠ .write ch := by
    rintro ch rfl
    exact he
  have hT' := hT.edit hL'.len hinside hout
  have hM' := Traced.edit (v := ⟨c.toScreen, c.i, n⟩) hM e
  refine ⟨_, hL', ?_, ?_⟩
  · rw [hscreen, hi]
    exact hT'
  · rw [hscreen]
    exact hM'

theorem typed_init (cell : ℤ → Cell) (k : ℕ) : Typed (initConsole cell k).mem.cell (initConsole cell k) := by
  refine ⟨0, ⟨Nat.le_refl 0, Nat.zero_le _, rfl, fun k hk => absurd hk (Nat.not_lt_zero k)⟩,
    ⟨⟨rfl, rfl, rfl, rfl, ?_, ?_, fun a ha => absurd ha List.not_mem_nil⟩, Nat.le_refl 0, Nat.zero_le _, ?_,
      ?_, fun _ _ => rfl⟩, fun a _ => rfl⟩
  · change (0 : ℤ) ≤ 0 ∧ (0 : ℤ) ≤ 1920
    decide
  · change (80 : ℤ) ∣ 0
    decide
  · change (0 : ℤ) ≤ 0 - (0 : ℕ)
    decide
  · change (0 : ℤ) + (0 - 0 : ℕ) ≤ 0 + 1920
    decide

/-- What console `k` leaves at a cell of `vbuf` or around it. -/
def vbufAt (k : ℕ) (c : Console) (a : ℤ) : Cell := c.mem.cell (a - rowStart k)

/-- **Consoles do not interfere, as long as no character is typed after a text
that ends in the last cell of the buffer.** Every cell that is accessed is in
the row of the console, and outside the row all cells are as `init_console`
left them. -/
theorem rows_separate (tty : ℤ) (cell : ℤ → Cell) (k : ℕ)
    (h : Reach (step tty) (fun c e => e.Keystroke ∧ c.InsertsInside e) (initConsole cell k) c) :
    (∀ a ∈ c.mem.touched, rowStart k ≤ rowStart k + a ∧ rowStart k + a < rowStart (k + 1)) ∧
      ∀ a, ¬ (rowStart k ≤ a ∧ a < rowStart (k + 1)) → c.vbufAt k a = initVbuf cell a := by
  obtain ⟨n, hL, hT, hM⟩ := h.invariant (typed_init cell k) fun s e s' hs hok hst => hs.step hok.1 hok.2 hst
  have hrow : rowStart (k + 1) = rowStart k + 3840 := by
    unfold rowStart scrW scrH
    push_cast
    omega
  have hin : ∀ a ∈ c.mem.touched, 0 ≤ a ∧ a < 3840 := hT.geometry.within
  refine ⟨fun a ha => ?_, fun a ha => ?_⟩
  · have := hin a ha
    omega
  · have hnot : a - rowStart k ∉ c.mem.touched := by
      intro hmem
      have := hin _ hmem
      omega
    have hback : rowStart k + (a - rowStart k) = a := by omega
    unfold vbufAt
    rw [hM _ hnot, initConsole_cell, hback]

/-- A line is typed on the first console, and edited. -/
theorem rows_separate_typing : ∃ c : Console, ((∀ a ∈ c.mem.touched,
    rowStart 0 ≤ rowStart 0 + a ∧ rowStart 0 + a < rowStart (0 + 1)) ∧
      ∀ a, ¬ (rowStart 0 ≤ a ∧ a < rowStart (0 + 1)) → c.vbufAt 0 a = initVbuf (fun _ => 0) a) ∧ c.pos = 80 := by
  obtain ⟨c, hr, hpos⟩ : ∃ c, Reach (step 3) (fun c e => e.Keystroke ∧ c.InsertsInside e)
      (initConsole (fun _ => 0) 0) c ∧ c.pos = 80 :=
    Reach.exists_of_exec [.accept 97, .accept 98, .feed kLeft, .feed kBack, .feed kDel, .feed kEntr]
      (by decide +kernel)
  exact ⟨c, rows_separate 3 _ 0 hr, hpos⟩

/-- Enter is pressed 47 times on the last console, so that its window is at the
end of its buffer and the cursor in the last row. The 80th character of a line
there is typed after a text that ends in the last cell, and the cell after the
last row of `vbuf` is overwritten. -/
theorem typing_writes_past_row : ¬ ∀ (tty : ℤ) (cell : ℤ → Cell) (k : ℕ) (c : Console), k < nrTty →
    Reach (step tty) (fun _ e => e.Keystroke) (initConsole cell k) c →
    ∀ a, ¬ (rowStart k ≤ a ∧ a < rowStart (k + 1)) → c.vbufAt k a = initVbuf cell a := by
  intro h
  obtain ⟨c, hr, hcell⟩ : ∃ c, Reach (step 3) (fun _ e => e.Keystroke) (initConsole (fun _ => 0) 3) c ∧
      c.vbufAt 3 (rowStart 4) = blank :=
    Reach.exists_of_exec (List.replicate 47 (Event.feed kEntr) ++ List.replicate 80 (Event.accept 97))
      (by decide +kernel)
  have hsame := h 3 (fun _ => 0) 3 c (by decide) hr (rowStart 4) (by decide)
  have hpast := initVbuf_past (fun _ => 0) (Int.le_refl (rowStart nrTty))
  exact absurd (hcell.symm.trans (hsame.trans hpast)) (by decide)

end Console
end Tty
end NanoOS
