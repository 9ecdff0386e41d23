/-
# The line editor edits the line it should

The line in `lbuf` has no length: insertion looks for the zero byte and moves
the tail up over bytes of older lines, and removal moves the tail down until
the zero byte has moved. `Editor` is what these loops are for: a text before
the cursor and a text after it. `Edits` ties the two together, and
`Edits.handle` says that every event does to the console what the command of
the same name does to the editor, or fails.

Key definitions: `Edits`, `Event.edit`.
Key theorems: `Edits.handle`, `edits_reference`.
-/
import NanoOS.Lib.Editor
import NanoOS.Lib.Trans
import NanoOS.Drivers.Tty.Line

namespace NanoOS
namespace Tty

open Trans

/-! ### The reference -/

/-- What an editing key does. -/
def pressed (key : ℤ) (e : Editor (BitVec 8)) : Editor (BitVec 8) :=
  if key = kEntr then .empty
  else if key = kDel then e.right.back
  else if key = kBack then e.back
  else if key = kLeft then e.left
  else if key = kRight then e.right
  else if key = kHome then e.home
  else if key = kEnd then e.toEnd
  else e

/-- The editing keys on a text. -/
def keypad : Keypad (Editor (BitVec 8)) where
  enter _ := .empty
  back := Editor.back
  left := Editor.left
  right := Editor.right
  home := Editor.home
  toEnd := Editor.toEnd

theorem pressed_eq (key : ℤ) (e : Editor (BitVec 8)) : pressed key e = keypad.press key e := rfl

/-- What an event does to the text. -/
def Event.edit (e : Editor (BitVec 8)) : Event → Editor (BitVec 8)
  | .accept ch => e.insert ch
  | .feed key => pressed key e
  | .write _ => e
  | .read _ => e

namespace Console

/-! ### Strings in a buffer -/

variable {b b' : ℕ → BitVec 8} {k : ℕ} {ch : BitVec 8}

theorem Spells.stop : ∀ {t : List (BitVec 8)} {k : ℕ}, Spells b k t → b (k + t.length) = 0
  | [], _, h => h
  | x :: t, k, h => by
    have ih := h.2.2.stop
    rw [List.length_cons, ← Nat.add_assoc, Nat.add_right_comm]
    exact ih

theorem Spells.ne_zero : ∀ {t : List (BitVec 8)} {k : ℕ}, Spells b k t → ∀ j < t.length, b (k + j) ≠ 0
  | [], _, _, j, hj => absurd hj (Nat.not_lt_zero j)
  | x :: t, k, h, j, hj => by
    cases j with
    | zero =>
      rw [Nat.add_zero, h.1]
      exact h.2.1
    | succ j =>
      rw [← Nat.add_assoc, Nat.add_right_comm]
      exact h.2.2.ne_zero j (Nat.lt_of_succ_lt_succ hj)

theorem Spells.copy : ∀ {t : List (BitVec 8)} {k k' : ℕ}, Spells b k t →
    (∀ j ≤ t.length, b' (k' + j) = b (k + j)) → Spells b' k' t
  | [], k, k', h, hcopy => (hcopy 0 (Nat.le_refl 0)).trans h
  | x :: t, k, k', h, hcopy => by
    refine ⟨(hcopy 0 (Nat.zero_le _)).trans h.1, h.2.1, h.2.2.copy fun j hj => ?_⟩
    have hnext := hcopy (j + 1) (Nat.succ_le_succ hj)
    rw [← Nat.add_assoc, ← Nat.add_assoc, Nat.add_right_comm k', Nat.add_right_comm k] at hnext
    exact hnext

/-- The part after a byte moves up by one, and a byte is put in its place. -/
theorem Spells.insert {y : List (BitVec 8)} (hch : ch ≠ 0) : ∀ {x : List (BitVec 8)} {k : ℕ}, Spells b k (x ++ y) →
    (∀ j < x.length, b' (k + j) = b (k + j)) → b' (k + x.length) = ch →
    (∀ j ≤ y.length, b' (k + x.length + 1 + j) = b (k + x.length + j)) → Spells b' k (x ++ ch :: y)
  | [], k, h, _, hat, hup => ⟨hat, hch, h.copy hup⟩
  | a :: x, k, h, hlow, hat, hup => by
    have hk : k + 1 + x.length = k + (a :: x).length := by
      rw [List.length_cons]
      omega
    refine ⟨(hlow 0 (Nat.zero_lt_succ _)).trans h.1, h.2.1, Spells.insert hch h.2.2 (fun j hj => ?_) ?_ ?_⟩
    · have hnext := hlow (j + 1) (Nat.succ_lt_succ hj)
      rw [← Nat.add_assoc, Nat.add_right_comm] at hnext
      exact hnext
    · rw [hk]
      exact hat
    · rw [hk]
      exact hup

theorem Spells.remove {y : List (BitVec 8)} : ∀ {x : List (BitVec 8)} {k : ℕ}, Spells b k (x ++ ch :: y) →
    (∀ j < x.length, b' (k + j) = b (k + j)) →
    (∀ j ≤ y.length, b' (k + x.length + j) = b (k + x.length + 1 + j)) → Spells b' k (x ++ y)
  | [], k, h, _, hdown => h.2.2.copy hdown
  | a :: x, k, h, hlow, hdown => by
    have hk : k + 1 + x.length = k + (a :: x).length := by
      rw [List.length_cons]
      omega
    refine ⟨(hlow 0 (Nat.zero_lt_succ _)).trans h.1, h.2.1, Spells.remove h.2.2 (fun j hj => ?_) ?_⟩
    · have hnext := hlow (j + 1) (Nat.succ_lt_succ hj)
      rw [← Nat.add_assoc, Nat.add_right_comm] at hnext
      exact hnext
    · rw [hk]
      exact hdown

/-! ### Every event -/

/-- The console has the text of `e` in `lbuf`, and the cursor where `e` has
it. -/
structure Edits (c : Console) (e : Editor (BitVec 8)) : Prop where
  text : Spells c.lbuf 0 e.text
  cursor : c.i = e.before.length
  len : e.text.length ≤ 255

variable {c c' : Console} {e : Editor (BitVec 8)}

theorem Edits.line (h : Edits c e) : Line c e.text.length := by
  refine ⟨?_, h.len, ?_, fun k hk => ?_⟩
  · rw [h.cursor, Editor.text_length]
    exact Nat.le_add_right _ _
  · have hstop := h.text.stop
    rwa [Nat.zero_add] at hstop
  · have hne := h.text.ne_zero k hk
    rwa [Nat.zero_add] at hne

theorem Edits.congr (h : Edits c e) (hlbuf : c'.lbuf = c.lbuf) (hi : c'.i = c.i) : Edits c' e :=
  ⟨hlbuf ▸ h.text, hi.trans h.cursor, h.len⟩

theorem Edits.move (h : Edits c e) {e' : Editor (BitVec 8)} (ht : e'.text = e.text) (p : ℤ) :
    Edits { c with i := e'.before.length, pos := p } e' :=
  ⟨ht ▸ h.text, rfl, ht ▸ h.len⟩

theorem edits_empty (hi : c.i = 0) (hz : c.lbuf 0 = 0) : Edits c .empty := ⟨hz, hi, Nat.zero_le _⟩

theorem Edits.insert (h : Edits c e) (hch : ch ≠ 0) (hlen : e.text.length < 255) (s : Screen) :
    Edits { c with
      toScreen := s
      lbuf := Function.update (moveUp c.i (e.text.length - c.i + 1) c.lbuf) c.i ch
      i := c.i + 1 } (e.insert ch) := by
  obtain ⟨before, after⟩ := e
  have hcur : c.i = before.length := h.cursor
  have hlen' : (Editor.mk before after).text.length = before.length + after.length := Editor.text_length _
  have htext : ((Editor.mk before after).insert ch).text = before.reverse ++ ch :: after := by
    simp [Editor.insert, Editor.text]
  refine ⟨?_, congrArg (· + 1) hcur, ?_⟩
  · rw [htext]
    dsimp only
    refine Spells.insert hch h.text (fun j hj => ?_) ?_ (fun j hj => ?_)
    · rw [List.length_reverse] at hj
      rw [Function.update_of_ne (by omega)]
      exact if_neg (by omega)
    · rw [List.length_reverse, Nat.zero_add, hcur, Function.update_self]
    · rw [List.length_reverse, Nat.zero_add, Function.update_of_ne (by omega)]
      unfold moveUp
      rw [if_pos (by omega)]
      congr 1
      omega
  · rw [htext, List.length_append, List.length_reverse, List.length_cons]
    omega

theorem Edits.remove (h : Edits c e) (hi : 0 < c.i) (s : Screen) :
    Edits { c with toScreen := s, lbuf := moveDown (c.i - 1) e.text.length c.lbuf, i := c.i - 1 } e.back := by
  obtain ⟨before, after⟩ := e
  have hcur : c.i = before.length := h.cursor
  have hlen' : (Editor.mk before after).text.length = before.length + after.length := Editor.text_length _
  have hlen := h.len
  cases before with
  | nil => exact absurd hi (by rw [hcur]; exact Nat.lt_irrefl 0)
  | cons x before =>
    rw [List.length_cons] at hcur hlen'
    have htext : (Editor.mk (x :: before) after).text = before.reverse ++ x :: after := by
      simp [Editor.text]
    have hspells := h.text
    rw [htext] at hspells
    refine ⟨?_, ?_, ?_⟩
    · refine hspells.remove (fun j hj => ?_) (fun j hj => ?_)
      · rw [List.length_reverse] at hj
        exact if_neg (by omega)
      · rw [List.length_reverse]
        dsimp only
        unfold moveDown
        rw [if_pos (by omega)]
        congr 1
        omega
    · show c.i - 1 = before.length
      omega
    · show (before.reverse ++ after).length ≤ 255
      rw [List.length_append, List.length_reverse]
      omega

theorem Edits.backsp (h : Edits c e) : ∃ c', c.backsp = .ok c' ∧ Edits c' e.back := by
  refine ⟨_, h.line.backsp, ?_⟩
  by_cases hi : 0 < c.i
  · rw [if_pos hi]
    exact h.remove hi _
  · rw [if_neg hi]
    have hnone : e.back = e := by
      obtain ⟨before, after⟩ := e
      have hcur : c.i = before.length := h.cursor
      cases before with
      | nil => rfl
      | cons x before => exact absurd (by rw [hcur]; exact Nat.zero_lt_succ _) hi
    rw [hnone]
    exact h

theorem Edits.movr (h : Edits c e) : ∃ b c', c.movr = .ok (b, c') ∧ Edits c' e.right := by
  have hright := Editor.before_length_right e
  rw [h.line.movr]
  by_cases hi : c.i < e.text.length
  · rw [if_pos hi]
    refine ⟨_, _, rfl, ?_⟩
    have hmove := h.move e.text_right (c.pos + 1)
    rw [hright, if_pos (h.cursor ▸ hi), ← h.cursor] at hmove
    exact hmove
  · rw [if_neg hi]
    refine ⟨_, _, rfl, ?_⟩
    have hmove := h.move e.text_right c.pos
    rw [hright, if_neg (h.cursor ▸ hi), ← h.cursor] at hmove
    exact hmove

theorem Edits.movl (h : Edits c e) : Edits c.movl.2 e.left := by
  have hleft := Editor.before_length_left e
  rw [← h.cursor] at hleft
  unfold Console.movl
  by_cases hi : c.i ≠ 0
  · rw [if_pos hi]
    have hmove := h.move e.text_left (c.pos - 1)
    rw [hleft] at hmove
    exact hmove
  · rw [if_neg hi]
    have hmove := h.move e.text_left c.pos
    rw [hleft, show c.i - 1 = c.i by omega] at hmove
    exact hmove

/-- An editing key does to the line what it does to the editor, or Enter
fails. -/
theorem Edits.conslFeed (h : Edits c e) (tty key : ℤ) :
    (∃ c' rep, c.conslFeed tty key = .ok (c', rep) ∧ Edits c' (pressed key e)) ∨
      c.conslFeed tty key = .error .cookedBufferFull ∨ c.conslFeed tty key = .error .tooManyReadRequest := by
  rw [pressed_eq]
  apply keypad.conslFeed
  · rcases h.line.cook tty with ⟨c', rep, hc, -, hi, hz⟩ | hfail
    · exact .inl ⟨c', rep, hc, edits_empty hi hz⟩
    · exact .inr hfail
  · intro d e' h'
    exact h'.backsp
  · exact h.movl
  · exact h.movr
  · rw [homeLoop_eq _ _ (Nat.le_succ _)]
    exact h.move e.text_home _
  · have hmove := h.move e.text_toEnd (c.pos + (e.text.length - c.i : ℕ))
    rw [Editor.before_length_toEnd] at hmove
    rw [h.line.endLoop (by have := h.len; unfold lbufSz; omega)]
    exact ⟨_, rfl, hmove⟩
  · exact h

/-- An event does to the line what it does to the editor, or ends in a
panic, which is `line buffer full` exactly for a character that is typed at a
text of 255. -/
theorem Edits.handle (h : Edits c e) (tty : ℤ) {ev : Event} (hok : ev.Ok) :
    (∃ c' rep, c.handle tty ev = .ok (c', rep) ∧ Edits c' (ev.edit e) ∧
      ∀ ch, ev = .accept ch → e.text.length ≠ 255) ∨
    (c.handle tty ev = .error .lineBufferFull ∧ (∃ ch, ev = .accept ch) ∧ e.text.length = 255) ∨
    ((c.handle tty ev = .error .cookedBufferFull ∨ c.handle tty ev = .error .tooManyReadRequest) ∧
      ∀ ch, ev ≠ .accept ch) := by
  cases ev with
  | accept ch =>
    unfold Console.handle
    dsimp only
    rw [h.line.conslAccept ch]
    by_cases hlen : e.text.length < 255
    · rw [if_pos hlen]
      exact .inl ⟨_, _, rfl, h.insert hok hlen _, fun _ _ => Nat.ne_of_lt hlen⟩
    · rw [if_neg hlen]
      have := h.len
      exact .inr (.inl ⟨rfl, ⟨ch, rfl⟩, by omega⟩)
  | feed key =>
    rcases h.conslFeed tty key with ⟨c', rep, hc, hE⟩ | hfail
    · exact .inl ⟨c', rep, hc, hE, fun _ heq => Event.noConfusion heq⟩
    · exact .inr (.inr ⟨hfail, fun _ heq => Event.noConfusion heq⟩)
  | write ch => exact .inl ⟨_, _, rfl, h.congr rfl rfl, fun _ heq => Event.noConfusion heq⟩
  | read m =>
    rcases readRequest_sameLine tty m c with ⟨c', rep, hc, -, hlbuf, hi⟩ | hfail
    · exact .inl ⟨c', rep, hc, h.congr hlbuf hi, fun _ heq => Event.noConfusion heq⟩
    · exact .inr (.inr ⟨.inr hfail, fun _ heq => Event.noConfusion heq⟩)

/-! ### Every run -/

theorem Edits.step {p p' : Console × Editor (BitVec 8)} {tty : ℤ} {ev : Event} (h : Edits p.1 p.2) (hok : ev.Ok)
    (hst : withHistory (Console.step tty) (fun _ ev e => ev.edit e) p ev = some p') : Edits p'.1 p'.2 := by
  obtain ⟨hc, he⟩ := withHistory_eq_some.mp hst
  unfold Console.step at hc
  rw [he]
  rcases h.handle tty hok with ⟨c', rep, hrun, hE, -⟩ | ⟨hrun, -⟩ | ⟨hrun | hrun, -⟩
  all_goals rw [hrun] at hc
  · cases hc
    exact hE
  all_goals cases hc

/-- **The line editor edits the line it should**: in every run from
`init_consl`, the string in `lbuf` and the cursor are those of the reference
editor, a character is refused exactly when the text has 255 bytes, and
nothing outside `lbuf` is accessed. -/
theorem edits_reference (tty : ℤ) (cell : ℤ → Cell) (p : Console × Editor (BitVec 8))
    (hr : Reach (withHistory (Console.step tty) fun _ ev e => ev.edit e) (fun _ ev => ev.Ok)
      (init cell, .empty) p) :
    Spells p.1.lbuf 0 p.2.text ∧ p.1.i = p.2.before.length ∧
    ∀ ev : Event, ev.Ok →
      (p.1.handle tty ev = .error .lineBufferFull ↔ (∃ ch, ev = .accept ch) ∧ p.2.text.length = 255) ∧
      p.1.handle tty ev ≠ .error .outOfBounds := by
  have hE : Edits p.1 p.2 := hr.invariant (I := fun p => Edits p.1 p.2) (edits_empty rfl rfl)
    fun _ _ _ h hok hst => h.step hok hst
  refine ⟨hE.text, hE.cursor, fun ev hok => ?_⟩
  rcases hE.handle tty hok with ⟨c', rep, hrun, -, hne⟩ | ⟨hrun, hacc, hlen⟩ | ⟨hrun, hne⟩
  · rw [hrun]
    refine ⟨iff_of_false (by simp) ?_, by simp⟩
    rintro ⟨⟨ch, hev⟩, hlen⟩
    exact hne ch hev hlen
  · rw [hrun]
    exact ⟨⟨fun _ => ⟨hacc, hlen⟩, fun _ => rfl⟩, by simp⟩
  · have hno : ¬ ((∃ ch, ev = .accept ch) ∧ p.2.text.length = 255) := by
      rintro ⟨⟨ch, hev⟩, -⟩
      exact hne ch hev
    rcases hrun with hrun | hrun
    · rw [hrun]
      exact ⟨iff_of_false (by simp) hno, by simp⟩
    · rw [hrun]
      exact ⟨iff_of_false (by simp) hno, by simp⟩

/-- `a` and `b` are typed, output comes, and `c` is typed before the `b`. -/
theorem edits_reference_acb : ∃ p : Console × Editor (BitVec 8),
    Reach (withHistory (Console.step 2) fun _ ev e => ev.edit e) (fun _ ev => ev.Ok)
      (init fun _ => draw 32, .empty) p ∧ Spells p.1.lbuf 0 [97, 99, 98] ∧ p.1.i = 2 := by
  obtain ⟨p, hr, htext, hbefore⟩ : ∃ p : Console × Editor (BitVec 8),
      Reach (withHistory (Console.step 2) fun _ ev e => ev.edit e) (fun _ ev => ev.Ok)
        (init fun _ => draw 32, .empty) p ∧ p.2.text = [97, 99, 98] ∧ p.2.before.length = 2 :=
    Reach.exists_of_exec [.accept 97, .accept 98, .write 62, .feed kLeft, .accept 99] (by decide +kernel)
  have h := edits_reference 2 _ p hr
  rw [htext, hbefore] at h
  exact ⟨p, hr, h.1, h.2.1⟩

end Console
end Tty
end NanoOS
