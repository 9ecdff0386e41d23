/-
# The console is a terminal

Program output on a console looks like that of a plain terminal of 24 rows of
80 cells, with a cursor that wraps at the right edge and a screen that scrolls
up by one blank row when the cursor would leave the last one. `Term` is that
terminal, and `Shows c t` says that the window and the cursor of console `c`
are the screen and the cursor of `t`.

Key definitions: `Term`, `Term.write`, `Shows`.
Key theorems: `Shows.next`, `Shows.lf`, `console_is_terminal`.
-/
import NanoOS.Drivers.Tty.Screen

namespace NanoOS
namespace Tty

/-- A terminal of 24 rows and 80 columns. -/
structure Term where
  cell : ℕ → ℕ → Cell
  row : ℕ
  col : ℕ

namespace Term

/-- The blank terminal, with the cursor in the first cell. -/
def init : Term := ⟨fun _ _ => blank, 0, 0⟩

/-- Every row goes up by one, and the last one is blank. -/
def scroll (t : Term) : Term :=
  { t with cell := fun r k => if r < 23 then t.cell (r + 1) k else blank }

/-- The cursor goes down one row; if it is in the last one the screen scrolls
instead. -/
def down (t : Term) : Term := if t.row < 23 then { t with row := t.row + 1 } else t.scroll

/-- The cursor goes to the next cell, at the right edge to the next row. -/
def advance (t : Term) : Term :=
  if t.col < 79 then { t with col := t.col + 1 } else { t with col := 0 }.down

/-- A cell at the cursor. -/
def put (x : Cell) (t : Term) : Term :=
  { t with cell := fun r k => if r = t.row ∧ k = t.col then x else t.cell r k }

/-- A byte of output. -/
def write (t : Term) (ch : BitVec 8) : Term :=
  if ch = 13 then { t with col := 0 }
  else if ch = 10 then { t with col := 0 }.down
  else (t.put (draw ch)).advance

end Term

open Screen

/-- The window and the cursor of `c` are the screen and the cursor of `t`. -/
structure Shows (c : Screen) (t : Term) : Prop where
  geometry : Geometry c
  row : t.row < 24
  col : t.col < 80
  cursor : c.pos = c.scr + (80 * t.row + t.col : ℕ)
  cells : ∀ r k, r < 24 → k < 80 → c.mem.cell (c.scr + (80 * r + k : ℕ)) = t.cell r k

namespace Shows

variable {c : Screen} {t : Term}

theorem move (hS : Shows c t) (p : ℤ) (row col : ℕ) (hrow : row < 24) (hcol : col < 80)
    (hp : p = c.scr + (80 * row + col : ℕ)) :
    Shows { c with pos := p } { t with row := row, col := col } :=
  ⟨⟨hS.geometry.w, hS.geometry.h, hS.geometry.wh, hS.geometry.size, hS.geometry.scr, hS.geometry.row,
    hS.geometry.within⟩, hrow, hcol, hp, hS.cells⟩

theorem scrup_cells (hG : Geometry c)
    (hcells : ∀ r k, r < 24 → k < 80 → c.mem.cell (c.scr + (80 * r + k : ℕ)) = t.cell r k) :
    ∀ r k, r < 24 → k < 80 → c.scrup.mem.cell (c.scrup.scr + (80 * r + k : ℕ)) = t.scroll.cell r k := by
  obtain ⟨-, -, hwin⟩ := hG.scrup
  intro r k hr hk
  rw [hwin _ (by omega) (by omega)]
  change _ = if r < 23 then t.cell (r + 1) k else blank
  by_cases h : r < 23
  · rw [if_pos (by omega), if_pos h, ← hcells (r + 1) k (by omega) hk]
    congr 1
    push_cast
    omega
  · rw [if_neg (by omega), if_neg h]

theorem putc (hS : Shows c t) (ch : BitVec 8) : Shows (c.putc ch) (t.put (draw ch)) := by
  have hG := hS.geometry
  have hscr := hG.scr
  have hrow := hS.row
  have hcol := hS.col
  have hpos := hS.cursor
  refine ⟨⟨hG.w, hG.h, hG.wh, hG.size, hG.scr, hG.row, hG.within.store (by omega) (by omega)⟩, hrow, hcol,
    hpos, fun r k hr hk => ?_⟩
  change Function.update c.mem.cell c.pos (draw ch) (c.scr + (80 * r + k : ℕ)) =
    if r = t.row ∧ k = t.col then draw ch else t.cell r k
  by_cases h : r = t.row ∧ k = t.col
  · rw [if_pos h, h.1, h.2, ← hpos, Function.update_self]
  · rw [if_neg h, Function.update_of_ne (by omega)]
    exact hS.cells r k hr hk

/-- `next` advances the cursor. -/
theorem next (hS : Shows c t) : Shows c.next t.advance := by
  have hG := hS.geometry
  have hrow := hS.row
  have hcol := hS.col
  have hpos := hS.cursor
  unfold Screen.next Term.advance
  by_cases hlast : c.pos = c.scr + c.wh - 1
  · -- the last cell of the screen
    rw [hG.wh] at hlast
    obtain ⟨hG', hcur, -⟩ := hG.scrup
    have h79 : ¬ t.col < 79 := by omega
    have h23 : ¬ t.row < 23 := by omega
    rw [if_pos (by rw [hG.wh]; exact hlast), if_neg h79, Term.down, if_neg h23]
    refine ⟨⟨hG'.w, hG'.h, hG'.wh, hG'.size, hG'.scr, hG'.row, hG'.within⟩, hrow, Nat.zero_lt_succ _, ?_,
      scrup_cells hG hS.cells⟩
    dsimp only [Term.scroll]
    omega
  · rw [if_neg hlast]
    rw [hG.wh] at hlast
    by_cases h79 : t.col < 79
    · rw [if_pos h79]
      exact hS.move _ t.row (t.col + 1) hrow (by omega) (by omega)
    · rw [if_neg h79, Term.down, if_pos (by dsimp only; omega)]
      exact hS.move _ (t.row + 1) 0 (by omega) (by decide) (by omega)

theorem cr (hS : Shows c t) : Shows c.cr { t with col := 0 } := by
  have hG := hS.geometry
  have hscr := hG.scr
  have hrow := hG.row
  have hcol := hS.col
  have hpos := hS.cursor
  refine hS.move _ t.row 0 hS.row (by decide) ?_
  rw [hG.w, Int.tmod_eq_emod_of_nonneg (by omega)]
  omega

/-- `lf` goes down one row. -/
theorem lf (hS : Shows c t) : Shows c.lf t.down := by
  have hG := hS.geometry
  have hrow := hS.row
  have hcol := hS.col
  have hpos := hS.cursor
  unfold Screen.lf Term.down
  by_cases hlast : c.pos + c.w ≥ c.scr + c.wh
  · -- the cursor would leave the last row
    rw [if_pos hlast]
    rw [hG.w, hG.wh] at hlast
    have hG1 : Geometry { c with pos := c.pos + c.w } :=
      ⟨hG.w, hG.h, hG.wh, hG.size, hG.scr, hG.row, hG.within⟩
    obtain ⟨hG', hcur, -⟩ := hG1.scrup
    rw [if_neg (by omega)]
    refine ⟨hG', hrow, hcol, ?_, scrup_cells hG1 hS.cells⟩
    dsimp only [Term.scroll] at hcur ⊢
    have hw := hG.w
    omega
  · rw [if_neg hlast]
    rw [hG.w, hG.wh] at hlast
    rw [if_pos (by omega)]
    refine hS.move _ (t.row + 1) t.col (by omega) hcol ?_
    have hw := hG.w
    omega

theorem conslWritec (hS : Shows c t) (ch : BitVec 8) : Shows (c.conslWritec ch) (t.write ch) := by
  unfold Screen.conslWritec Term.write
  by_cases hr : ch = 13
  · rw [if_pos hr, if_pos hr]
    exact hS.cr
  rw [if_neg hr, if_neg hr]
  by_cases hn : ch = 10
  · rw [if_pos hn, if_pos hn]
    exact hS.cr.lf
  · rw [if_neg hn, if_neg hn]
    exact (hS.putc ch).next

theorem initConsl (cell : ℤ → Cell) : Shows (Screen.initConsl cell) Term.init := by
  obtain ⟨hcell, hin⟩ := Mem.fill_spec 0 blank ⟨cell, []⟩ 1920 0 3840
  have hwithin := hin (fun a ha => absurd ha List.not_mem_nil) (by decide) (by decide)
  have hmem : (Screen.initConsl cell).mem = Mem.fill 0 1920 blank ⟨cell, []⟩ := by
    have hN : (scrW * scrH).toNat = 1920 := rfl
    rw [Screen.initConsl, hN]
  rw [← hmem] at hwithin hcell
  have hscr : (Screen.initConsl cell).scr = 0 := rfl
  refine ⟨⟨rfl, rfl, rfl, rfl, ⟨?_, ?_⟩, ?_, hwithin⟩, by decide, by decide, rfl, fun r k hr hk => ?_⟩
  · exact Int.le_of_eq hscr.symm
  · rw [hscr]; decide
  · rw [hscr]; decide
  · rw [hcell, hscr]
    exact if_pos (by omega)

theorem output (hS : Shows c t) (bytes : List (BitVec 8)) :
    Shows (bytes.foldl Screen.conslWritec c) (bytes.foldl Term.write t) := by
  induction bytes generalizing c t with
  | nil => exact hS
  | cons ch bytes ih => exact ih (hS.conslWritec ch)

end Shows

/-- **The console is a terminal.** On a console set up by `init_consl`,
whatever its buffer held, and after any bytes of output: the window starts at
the beginning of a row and lies inside the buffer, the cursor lies in the
window, no access went outside the buffer, and the window and the cursor are
those of the terminal that got the same bytes. -/
theorem console_is_terminal (cell : ℤ → Cell) (bytes : List (BitVec 8)) :
    let c := bytes.foldl Screen.conslWritec (Screen.initConsl cell)
    let t := bytes.foldl Term.write Term.init
    (c.w = scrW ∧ c.wh = scrW * scrH ∧ c.size = scrW * scrH * 2) ∧
    (0 ≤ c.scr ∧ c.scr ≤ c.size - c.wh ∧ c.w ∣ c.scr) ∧
    (c.scr ≤ c.pos ∧ c.pos < c.scr + c.wh) ∧
    (∀ a ∈ c.mem.touched, 0 ≤ a ∧ a < c.size) ∧
    (t.row < 24 ∧ t.col < 80 ∧ c.pos - c.scr = 80 * t.row + t.col) ∧
    ∀ r k : ℕ, r < 24 → k < 80 → c.mem.cell (c.scr + (80 * r + k)) = t.cell r k := by
  intro c t
  have hS : Shows c t := (Shows.initConsl cell).output bytes
  have hG := hS.geometry
  have hrow := hS.row
  have hcol := hS.col
  have hpos := hS.cursor
  push_cast at hpos
  refine ⟨⟨hG.w, hG.wh, hG.size⟩, ⟨hG.scr.1, ?_, ?_⟩, ⟨by omega, ?_⟩, ?_, ⟨hrow, hcol, by omega⟩, ?_⟩
  · rw [hG.size, hG.wh]
    have := hG.scr
    omega
  · rw [hG.w]
    exact hG.row
  · rw [hG.wh]
    omega
  · rw [hG.size]
    exact hG.within
  · intro r k hr hk
    have h := hS.cells r k hr hk
    push_cast at h
    exact h

end Tty
end NanoOS
