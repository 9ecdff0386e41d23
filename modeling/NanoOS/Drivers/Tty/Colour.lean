/-
# The colour of the cells

`draw` makes a cell of an attribute byte, white on black, and a `char`. A `char`
is signed: from 0x80 on its sign fills the attribute byte, and the cell is white
on white and blinks. `Text` records which byte was last written where, so that
the cells of a console can be compared with the bytes they are to show.

Key definitions: `colour`, `character`, `Text`, `KeepsColour`.
Key theorems: `colour_draw`, `Text.drawn`, `keepsColour_iff`.
-/
import Mathlib.Data.List.Induction
import NanoOS.Drivers.Tty.Terminal

namespace NanoOS
namespace Tty

/-- The attribute byte of a cell: the background in its upper half, the
foreground in its lower half. -/
def colour (x : Cell) : BitVec 8 := x.extractLsb' 8 8

/-- The character byte of a cell. -/
def character (x : Cell) : BitVec 8 := x.extractLsb' 0 8

/-- The terminal scrolls when it gets `ch`. -/
def Term.Scrolls (t : Term) (ch : BitVec 8) : Prop := 23 ≤ t.row ∧ (ch = 10 ∨ ch ≠ 13 ∧ 79 ≤ t.col)

instance (t : Term) (ch : BitVec 8) : Decidable (t.Scrolls ch) :=
  inferInstanceAs (Decidable (23 ≤ t.row ∧ (ch = 10 ∨ ch ≠ 13 ∧ 79 ≤ t.col)))

/-- A terminal, and for each of its cells the byte that was last written there;
`none` if there was none since the row came in. -/
structure Text where
  term : Term
  byte : ℕ → ℕ → Option (BitVec 8)

namespace Text

/-- Nothing has been written. -/
def init : Text := ⟨Term.init, fun _ _ => none⟩

/-- The record with a byte at the cursor. -/
def record (x : Text) (ch : BitVec 8) : ℕ → ℕ → Option (BitVec 8) := fun r k =>
  if (ch ≠ 13 ∧ ch ≠ 10) ∧ r = x.term.row ∧ k = x.term.col then some ch else x.byte r k

/-- The record when every row goes up by one. -/
def scroll (byte : ℕ → ℕ → Option (BitVec 8)) : ℕ → ℕ → Option (BitVec 8) := fun r k =>
  if r < 23 then byte (r + 1) k else none

/-- A byte of output: it is recorded at the cursor, and the record moves with the
rows. -/
def write (x : Text) (ch : BitVec 8) : Text where
  term := x.term.write ch
  byte := if x.term.Scrolls ch then scroll (x.record ch) else x.record ch

/-- The cells show the bytes. -/
def Drawn (x : Text) : Prop := ∀ r k, x.term.cell r k = (x.byte r k).elim blank draw

end Text

/-- Every cell of the window is white on black, and shows the byte that was last
written to it. -/
def KeepsColour (c : Screen) (x : Text) : Prop :=
  ∀ r k : ℕ, r < 24 → k < 80 → colour (c.mem.cell (c.scr + (80 * r + k : ℕ))) = 0x07 ∧
    ∀ b, x.byte r k = some b → character (c.mem.cell (c.scr + (80 * r + k : ℕ))) = b

/-! ### Cells -/

theorem character_draw : ∀ b : BitVec 8, character (draw b) = b := by decide

/-- The attribute is what it is meant to be for the bytes below 0x80. -/
theorem colour_draw : ∀ b : BitVec 8, colour (draw b) = 0x07 ↔ b < 0x80 := by decide

/-! ### The record -/

namespace Text

variable {x : Text}

theorem drawn_of_scroll {t t' : Term} {p : Prop} [Decidable p] {byte : ℕ → ℕ → Option (BitVec 8)}
    (hcell : ∀ r k, t.cell r k = (byte r k).elim blank draw) (hscroll : p → t'.cell = t.scroll.cell)
    (hkeep : ¬ p → t'.cell = t.cell) : Drawn ⟨t', if p then scroll byte else byte⟩ := by
  intro r k
  dsimp only
  by_cases h : p
  · rw [hscroll h, if_pos h]
    unfold scroll Term.scroll
    dsimp only
    by_cases hr : r < 23
    · rw [if_pos hr, if_pos hr]
      exact hcell (r + 1) k
    · rw [if_neg hr, if_neg hr]
      rfl
  · rw [hkeep h, if_neg h]
    exact hcell r k

theorem cell_down (t : Term) : (23 ≤ t.row → t.down.cell = t.scroll.cell) ∧ (t.row < 23 → t.down.cell = t.cell) := by
  unfold Term.down
  constructor
  · intro h
    rw [if_neg (Nat.not_lt.mpr h)]
  · intro h
    rw [if_pos h]

theorem record_control {ch : BitVec 8} (h : ch = 13 ∨ ch = 10) : x.record ch = x.byte := by
  funext r k
  apply if_neg
  rintro ⟨⟨hr, hn⟩, -⟩
  exact h.elim hr hn

theorem cell_put (hx : x.Drawn) {ch : BitVec 8} (hr : ch ≠ 13) (hn : ch ≠ 10) (r k : ℕ) :
    (x.term.put (draw ch)).cell r k = (x.record ch r k).elim blank draw := by
  unfold record Term.put
  dsimp only
  by_cases hcur : r = x.term.row ∧ k = x.term.col
  · rw [if_pos hcur, if_pos ⟨⟨hr, hn⟩, hcur⟩]
    rfl
  · rw [if_neg hcur, if_neg fun h => hcur h.2]
    exact hx r k

theorem drawn_write (hx : x.Drawn) (ch : BitVec 8) : (x.write ch).Drawn := by
  unfold write Term.write
  by_cases hr : ch = 13
  · have hno : ¬ x.term.Scrolls ch := by
      rintro ⟨-, hn | ⟨hne, -⟩⟩
      · exact absurd (hr.symm.trans hn) (by decide)
      · exact hne hr
    rw [if_pos hr, if_neg hno, record_control (Or.inl hr)]
    exact hx
  by_cases hn : ch = 10
  · obtain ⟨hlast, hinside⟩ := cell_down { x.term with col := 0 }
    rw [if_neg hr, if_pos hn, record_control (Or.inr hn)]
    apply drawn_of_scroll (t := { x.term with col := 0 }) hx
    · intro hs
      exact hlast hs.1
    · intro hs
      apply hinside
      by_contra hrow
      exact hs ⟨Nat.not_lt.mp hrow, Or.inl hn⟩
  · obtain ⟨hlast, hinside⟩ := cell_down { x.term.put (draw ch) with col := 0 }
    rw [if_neg hr, if_neg hn]
    unfold Term.advance
    apply drawn_of_scroll (t := x.term.put (draw ch)) (cell_put hx hr hn)
    · rintro ⟨hrow, h10 | ⟨-, hcol⟩⟩
      · exact absurd h10 hn
      · have hedge : ¬ (x.term.put (draw ch)).col < 79 := Nat.not_lt.mpr hcol
        rw [if_neg hedge]
        exact hlast hrow
    · intro hs
      by_cases hcol : (x.term.put (draw ch)).col < 79
      · rw [if_pos hcol]
      · rw [if_neg hcol]
        apply hinside
        by_contra hrow
        exact hs ⟨Nat.not_lt.mp hrow, Or.inr ⟨hr, Nat.not_lt.mp hcol⟩⟩

theorem of_record {ch b : BitVec 8} {r k : ℕ} (h : x.record ch r k = some b) : b = ch ∨ x.byte r k = some b := by
  unfold record at h
  split_ifs at h
  · exact Or.inl (Option.some.inj h).symm
  · exact Or.inr h

theorem byte_write {ch b : BitVec 8} {r k : ℕ} (h : (x.write ch).byte r k = some b) :
    b = ch ∨ ∃ r', x.byte r' k = some b := by
  unfold write scroll at h
  dsimp only at h
  split_ifs at h
  · dsimp only at h
    split_ifs at h
    exact (of_record h).imp_right fun hb => ⟨r + 1, hb⟩
  · exact (of_record h).imp_right fun hb => ⟨r, hb⟩

theorem byte_visible {ch : BitVec 8} (hr : ch ≠ 13) (hn : ch ≠ 10) (hrow : x.term.row < 24) (hcol : x.term.col < 80) :
    ∃ r k, r < 24 ∧ k < 80 ∧ (x.write ch).byte r k = some ch := by
  unfold write
  dsimp only
  by_cases hs : x.term.Scrolls ch
  · -- it is in the last row, which goes up
    have hlast : 22 + 1 = x.term.row := by
      have h23 := hs.1
      omega
    refine ⟨22, x.term.col, by decide, hcol, ?_⟩
    rw [if_pos hs]
    show x.record ch 23 x.term.col = some ch
    apply if_pos
    exact ⟨⟨hr, hn⟩, hlast, rfl⟩
  · refine ⟨x.term.row, x.term.col, hrow, hcol, ?_⟩
    rw [if_neg hs]
    apply if_pos
    exact ⟨⟨hr, hn⟩, rfl, rfl⟩

theorem term_output (bytes : List (BitVec 8)) (x : Text) :
    (bytes.foldl write x).term = bytes.foldl Term.write x.term := by
  induction bytes generalizing x with
  | nil => rfl
  | cons ch bytes ih => exact ih (x.write ch)

/-- **The terminal shows the record.** -/
theorem drawn (bytes : List (BitVec 8)) (hx : x.Drawn) : (bytes.foldl write x).Drawn := by
  induction bytes generalizing x with
  | nil => exact hx
  | cons ch bytes ih => exact ih (drawn_write hx ch)

theorem byte_mem {bytes : List (BitVec 8)} {b : BitVec 8} {r k : ℕ}
    (h : (bytes.foldl write init).byte r k = some b) : b ∈ bytes := by
  induction bytes using List.reverseRecOn generalizing r with
  | nil => exact absurd h (by simp [init])
  | append_singleton bytes ch ih =>
    rw [List.foldl_append] at h
    rcases byte_write h with rfl | ⟨r', h'⟩
    · exact List.mem_append_right bytes List.mem_cons_self
    · exact List.mem_append_left [ch] (ih h')

end Text

/-! ### The window -/

theorem cell_eq (cell : ℤ → Cell) (bytes : List (BitVec 8)) {r k : ℕ} (hr : r < 24) (hk : k < 80) :
    (bytes.foldl Screen.conslWritec (Screen.initConsl cell)).mem.cell
      ((bytes.foldl Screen.conslWritec (Screen.initConsl cell)).scr + (80 * r + k : ℕ)) =
    ((bytes.foldl Text.write Text.init).byte r k).elim blank draw := by
  have hS := (Shows.initConsl cell).output bytes
  have hdrawn : (bytes.foldl Text.write Text.init).Drawn := Text.drawn bytes fun _ _ => rfl
  have hterm := Text.term_output bytes Text.init
  calc _ = (bytes.foldl Term.write Term.init).cell r k := hS.cells r k hr hk
    _ = (bytes.foldl Text.write Text.init).term.cell r k := by rw [hterm]; rfl
    _ = _ := hdrawn r k

theorem not_keepsColour (cell : ℤ → Cell) (bytes : List (BitVec 8)) {ch : BitVec 8} (hch : ¬ ch < 0x80) :
    ¬ KeepsColour ((bytes ++ [ch]).foldl Screen.conslWritec (Screen.initConsl cell))
      ((bytes ++ [ch]).foldl Text.write Text.init) := by
  intro h
  have hS := (Shows.initConsl cell).output bytes
  have hterm := Text.term_output bytes Text.init
  have hr13 : ch ≠ 13 := fun e => hch (e ▸ by decide)
  have hn10 : ch ≠ 10 := fun e => hch (e ▸ by decide)
  obtain ⟨r, k, hr, hk, hbyte⟩ := Text.byte_visible (x := bytes.foldl Text.write Text.init) hr13 hn10
    (by rw [hterm]; exact hS.row) (by rw [hterm]; exact hS.col)
  have hcell := cell_eq cell (bytes ++ [ch]) hr hk
  have hlast : ((bytes ++ [ch]).foldl Text.write Text.init).byte r k = some ch := by
    rw [List.foldl_append]
    exact hbyte
  have hattr := (h r k hr hk).1
  rw [hcell, hlast] at hattr
  exact hch ((colour_draw ch).mp hattr)

/-- **The cells keep their colour exactly as long as all bytes are below 0x80**:
after every part of the output, every cell of the window is white on black and
shows the byte that was last written to it, if and only if no byte of the output
is 0x80 or above. -/
theorem keepsColour_iff (cell : ℤ → Cell) (bytes : List (BitVec 8)) :
    (∀ part, part <+: bytes → KeepsColour (part.foldl Screen.conslWritec (Screen.initConsl cell))
      (part.foldl Text.write Text.init)) ↔ ∀ b ∈ bytes, b < 0x80 := by
  constructor
  · intro h b hb
    by_contra hhigh
    obtain ⟨part, rest, rfl⟩ := List.append_of_mem hb
    have hpart : part ++ [b] <+: part ++ b :: rest := ⟨rest, by rw [List.append_assoc]; rfl⟩
    exact not_keepsColour cell part hhigh (h _ hpart)
  · intro h part hpart r k hr hk
    have hcell := cell_eq cell part hr hk
    rw [hcell]
    cases hbyte : (part.foldl Text.write Text.init).byte r k with
    | none => exact ⟨by decide, fun _ hb => absurd hb (by simp)⟩
    | some b =>
      refine ⟨(colour_draw b).mpr (h b (hpart.subset (Text.byte_mem hbyte))), fun b' hb => ?_⟩
      exact (character_draw b).trans (Option.some.inj hb)

/-- A byte 0xE9 is shown white on white. -/
theorem not_keepsColour_e9 : ¬ ∀ (cell : ℤ → Cell) (bytes part : List (BitVec 8)), part <+: bytes →
    KeepsColour (part.foldl Screen.conslWritec (Screen.initConsl cell)) (part.foldl Text.write Text.init) := by
  intro h
  exact @not_keepsColour (fun _ => 0) [] 0xE9 (by decide) (h (fun _ => 0) [0xE9] [0xE9] (List.prefix_refl _))

end Tty
end NanoOS
