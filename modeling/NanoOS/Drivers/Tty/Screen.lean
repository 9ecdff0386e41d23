/-
# The screen of a console

A console draws into its part of `vbuf`, which is twice as long as the screen:
the screen is the window of `wh` cells from `scr` on, and `pos` is the cell of
the cursor. `scrup` scrolls by moving the window down one row, or, once it has
come to the end of the buffer, by moving the whole contents up one row.

Indices are relative to `c->vbuf`. They are integers, since nothing in the
source keeps them inside the buffer; `touched` is history and collects the
cells that were read or written.

Key definitions: `Screen`, `scrup`, `conslWritec`, `initConsl`, `Geometry`.
Key theorems: `Mem.shift_spec`, `Mem.fill_spec`, `Geometry.scrup`.
-/
import Mathlib.Data.Int.Notation
import Mathlib.Tactic.Common

namespace NanoOS
namespace Tty

/-- `SCR_W`. -/
def scrW : ℤ := 80

/-- `SCR_H`. -/
def scrH : ℤ := 24

/-- `C_BLACK`. -/
def cBlack : BitVec 16 := 0

/-- `C_WHITE`. -/
def cWhite : BitVec 16 := 7

/-- A cell of `vbuf`: attribute and character. -/
abbrev Cell := BitVec 16

/-- `draw`. A `char` is signed, so it is extended with its sign. -/
def draw (ch : BitVec 8) : Cell := cBlack <<< 12 ||| cWhite <<< 8 ||| ch.signExtend 16

/-- `draw(' ')`. -/
def blank : Cell := draw 32

/-- The memory from `c->vbuf` on, and which cells of it were accessed. -/
structure Mem where
  cell : ℤ → Cell
  touched : List ℤ

namespace Mem

/-- `vbuf[a] = x`. -/
def store (a : ℤ) (x : Cell) (m : Mem) : Mem :=
  { m with cell := Function.update m.cell a x, touched := a :: m.touched }

/-- `vbuf[dst] = vbuf[src]`. -/
def copy (dst src : ℤ) (m : Mem) : Mem :=
  { m with cell := Function.update m.cell dst (m.cell src), touched := dst :: src :: m.touched }

/-- The first `n` rounds of `for (i = w; i < size; i ++) vbuf[i - w] = vbuf[i]`. -/
def shift (w : ℤ) (n : ℕ) (m : Mem) : Mem :=
  (List.range n).foldl (fun m (k : ℕ) => m.copy (w + k - w) (w + k)) m

/-- `for (i = 0; i < n; i ++) p[i] = x`, where `p` points to cell `a`. -/
def fill (a : ℤ) (n : ℕ) (x : Cell) (m : Mem) : Mem :=
  (List.range n).foldl (fun m (i : ℕ) => m.store (a + i) x) m

end Mem

/-- The fields of a `Console` its screen is made of; `scr` is
`c->scr - c->vbuf`. -/
structure Screen where
  mem : Mem
  scr : ℤ
  w : ℤ
  h : ℤ
  wh : ℤ
  size : ℤ
  pos : ℤ

namespace Screen

/-- `scrup`. -/
def scrup (c : Screen) : Screen :=
  let c1 := if c.scr + c.wh ≥ c.size then
      { c with mem := c.mem.shift c.w (c.size - c.w).toNat, scr := c.scr - c.w, pos := c.pos - c.w }
    else c
  { c1 with mem := c1.mem.fill (c1.scr + c1.wh) c1.w.toNat blank, scr := c1.scr + c1.w }

/-- `next`. -/
def next (c : Screen) : Screen :=
  let c1 := if c.pos = c.scr + c.wh - 1 then c.scrup else c
  { c1 with pos := c1.pos + 1 }

/-- `putc`. -/
def putc (ch : BitVec 8) (c : Screen) : Screen := { c with mem := c.mem.store c.pos (draw ch) }

/-- `cr`. -/
def cr (c : Screen) : Screen := { c with pos := c.pos - c.pos.tmod c.w }

/-- `lf`. -/
def lf (c : Screen) : Screen :=
  let c1 := { c with pos := c.pos + c.w }
  if c1.pos ≥ c1.scr + c1.wh then c1.scrup else c1

/-- `consl_writec`. -/
def conslWritec (c : Screen) (ch : BitVec 8) : Screen :=
  if ch = 13 then c.cr -- '\r'
  else if ch = 10 then c.cr.lf -- '\n'
  else (c.putc ch).next

/-- `init_consl`, its screen part, on a buffer that holds `cell`. Its
`consl_sync` shows the window and leaves the console as it is. -/
def initConsl (cell : ℤ → Cell) : Screen where
  mem := (Mem.mk cell []).fill 0 (scrW * scrH).toNat blank
  scr := 0
  w := scrW
  h := scrH
  wh := scrW * scrH
  size := scrW * scrH * 2
  pos := 0

end Screen

/-! ### The loops -/

namespace Mem

variable {m : Mem} {a w : ℤ} {lo hi : ℤ}

/-- Every access so far was to a cell from `lo` to `hi`. -/
def Within (lo hi : ℤ) (m : Mem) : Prop := ∀ a ∈ m.touched, lo ≤ a ∧ a < hi

theorem Within.store (hm : m.Within lo hi) {x : Cell} (hlo : lo ≤ a) (hhi : a < hi) :
    (m.store a x).Within lo hi := by
  intro b hb
  rcases List.mem_cons.mp hb with rfl | hb
  · exact ⟨hlo, hhi⟩
  · exact hm b hb

theorem Within.copy (hm : m.Within lo hi) {b : ℤ} (ha : lo ≤ a ∧ a < hi) (hb : lo ≤ b ∧ b < hi) :
    (m.copy a b).Within lo hi := by
  intro c hc
  rcases List.mem_cons.mp hc with rfl | hc
  · exact ha
  rcases List.mem_cons.mp hc with rfl | hc
  · exact hb
  · exact hm c hc

/-- The loop of `scrup` over the buffer reads a cell before it is written. -/
theorem shift_spec (hw : 0 ≤ w) (m : Mem) : ∀ (n : ℕ) (lo hi : ℤ),
    (∀ j, (m.shift w n).cell j = if 0 ≤ j ∧ j < n then m.cell (w + j) else m.cell j) ∧
    (m.Within lo hi → lo ≤ 0 → w + n ≤ hi → (m.shift w n).Within lo hi)
  | 0, _, _ => by
    refine ⟨fun j => ?_, fun h _ _ => h⟩
    rw [if_neg (by omega)]
    rfl
  | n + 1, lo, hi => by
    obtain ⟨hcell, hin⟩ := shift_spec hw m n lo hi
    have hstep : m.shift w (n + 1) = (m.shift w n).copy n (w + n) := by
      have hn : w + n - w = n := by omega
      simp only [shift, List.range_succ, List.foldl_append, List.foldl_cons, List.foldl_nil, hn]
    rw [hstep]
    refine ⟨fun j => ?_, fun hm hlo hhi => ?_⟩
    · change Function.update (m.shift w n).cell n ((m.shift w n).cell (w + n)) j = _
      by_cases hj : j = n
      · rw [hj, Function.update_self, hcell, if_neg (by omega), if_pos (by omega)]
      · rw [Function.update_of_ne hj, hcell]
        by_cases hin : 0 ≤ j ∧ j < n
        · rw [if_pos hin, if_pos (by omega)]
        · rw [if_neg hin, if_neg (by omega)]
    · exact (hin hm hlo (by omega)).copy (by omega) (by omega)

/-- The loop that blanks cells. -/
theorem fill_spec (a : ℤ) (x : Cell) (m : Mem) : ∀ (n : ℕ) (lo hi : ℤ),
    (∀ j, (m.fill a n x).cell j = if a ≤ j ∧ j < a + n then x else m.cell j) ∧
    (m.Within lo hi → lo ≤ a → a + n ≤ hi → (m.fill a n x).Within lo hi)
  | 0, _, _ => by
    refine ⟨fun j => ?_, fun h _ _ => h⟩
    rw [if_neg (by omega)]
    rfl
  | n + 1, lo, hi => by
    obtain ⟨hcell, hin⟩ := fill_spec a x m n lo hi
    have hstep : m.fill a (n + 1) x = (m.fill a n x).store (a + n) x := by
      simp [fill, List.range_succ]
    rw [hstep]
    refine ⟨fun j => ?_, fun hm hlo hhi => ?_⟩
    · change Function.update (m.fill a n x).cell (a + n) x j = _
      by_cases hj : j = a + n
      · rw [hj, Function.update_self, if_pos (by omega)]
      · rw [Function.update_of_ne hj, hcell]
        by_cases hin : a ≤ j ∧ j < a + n
        · rw [if_pos hin, if_pos (by omega)]
        · rw [if_neg hin, if_neg (by omega)]
    · exact (hin hm hlo (by omega)).store (by omega) (by omega)

end Mem

/-! ### The window -/

namespace Screen

/-- The window starts at the beginning of a row and is inside the buffer, and
so was every access. -/
structure Geometry (c : Screen) : Prop where
  w : c.w = 80
  h : c.h = 24
  wh : c.wh = 1920
  size : c.size = 3840
  scr : 0 ≤ c.scr ∧ c.scr ≤ 1920
  row : 80 ∣ c.scr
  within : c.mem.Within 0 3840

/-- The window starts at the beginning of a row and is inside the buffer. -/
structure Window (c : Screen) : Prop where
  w : c.w = 80
  wh : c.wh = 1920
  size : c.size = 3840
  scr : 0 ≤ c.scr ∧ c.scr ≤ 1920
  row : 80 ∣ c.scr

variable {c : Screen}

theorem Geometry.window (hG : Geometry c) : Window c := ⟨hG.w, hG.wh, hG.size, hG.scr, hG.row⟩

/-- The window is at the end of the buffer: the contents move up. -/
theorem Window.scrup_end (hG : Window c) (hend : 1920 ≤ c.scr) : c.scrup =
    { c with
      mem := (c.mem.shift 80 3760).fill (c.scr - 80 + 1920) 80 blank
      scr := c.scr - 80 + 80
      pos := c.pos - 80 } := by
  have hcond : c.scr + c.wh ≥ c.size := by
    rw [hG.wh, hG.size]
    omega
  unfold Screen.scrup
  rw [if_pos hcond]
  simp only [hG.w, hG.wh, hG.size]
  rfl

theorem Window.scrup_inside (hG : Window c) (hend : c.scr < 1920) : c.scrup =
    { c with mem := c.mem.fill (c.scr + 1920) 80 blank, scr := c.scr + 80 } := by
  have hcond : ¬ c.scr + c.wh ≥ c.size := by
    rw [hG.wh, hG.size]
    omega
  unfold Screen.scrup
  rw [if_neg hcond]
  simp only [hG.w, hG.wh]
  rfl

/-- Scrolling moves the cursor up one row on the screen. -/
theorem Window.scrup (hW : Window c) :
    Window c.scrup ∧ c.scrup.pos - c.scrup.scr = c.pos - c.scr - 80 := by
  have hscr := hW.scr
  have hrow := hW.row
  by_cases hend : 1920 ≤ c.scr
  · rw [hW.scrup_end hend]
    refine ⟨⟨hW.w, hW.wh, hW.size, ?_, ?_⟩, ?_⟩
    all_goals dsimp only
    all_goals omega
  · rw [hW.scrup_inside (by omega)]
    refine ⟨⟨hW.w, hW.wh, hW.size, ?_, ?_⟩, ?_⟩
    all_goals dsimp only
    all_goals omega

/-- **`scrup` scrolls by one row, whichever way it does.** The window moves
down one row over what was there, with the cursor where it was in the
contents, and the last row is blank. -/
theorem Geometry.scrup (hG : Geometry c) : Geometry c.scrup ∧
    c.scrup.pos - c.scrup.scr = c.pos - c.scr - 80 ∧
    ∀ k, 0 ≤ k → k < 1920 → c.scrup.mem.cell (c.scrup.scr + k) =
      if k < 1840 then c.mem.cell (c.scr + 80 + k) else blank := by
  have hscr := hG.scr
  have hrow := hG.row
  by_cases hend : 1920 ≤ c.scr
  · obtain ⟨hcell, hshift⟩ := Mem.shift_spec (w := 80) (by omega) c.mem 3760 0 3840
    obtain ⟨hcell', hfill⟩ := Mem.fill_spec (c.scr - 80 + 1920) blank (c.mem.shift 80 3760) 80 0 3840
    have hin := hfill (hshift hG.within (by omega) (by omega)) (by omega) (by omega)
    rw [hG.window.scrup_end hend]
    refine ⟨⟨hG.w, hG.h, hG.wh, hG.size, ?_, ?_, hin⟩, ?_, fun k hk0 hk => ?_⟩
    all_goals dsimp only
    · omega
    · omega
    · omega
    rw [hcell', hcell]
    by_cases hlast : k < 1840
    · rw [if_neg (by omega), if_pos (by omega), if_pos hlast]
      congr 1
      omega
    · rw [if_pos (by omega), if_neg hlast]
  · obtain ⟨hcell, hfill⟩ := Mem.fill_spec (c.scr + 1920) blank c.mem 80 0 3840
    have hin := hfill hG.within (by omega) (by omega)
    rw [hG.window.scrup_inside (by omega)]
    refine ⟨⟨hG.w, hG.h, hG.wh, hG.size, ?_, ?_, hin⟩, ?_, fun k hk0 hk => ?_⟩
    all_goals dsimp only
    · omega
    · omega
    · omega
    rw [hcell]
    by_cases hlast : k < 1840
    · rw [if_neg (by omega), if_pos hlast]
    · rw [if_pos (by omega), if_neg hlast]

end Screen
end Tty
end NanoOS
