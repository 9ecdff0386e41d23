/-
# Shift and Caps Lock

`Board` is the keyboard itself: which keys are held, and how often Caps Lock
has gone down. A key sends its make code when it goes down and again while it
is held, and its break code when it is let go. `readkey` does not see the
keys: it counts make and break codes, one counter for both Shift keys, and
goes by the lowest bit of the counts.

So it chooses the right character as long as no modifier repeats and only one
Shift is held at a time; the first code that breaks this makes it choose wrong.

Key definitions: `Board`, `Board.Valid`, `Board.Single`, `Keys.scan`,
`scanStep`.
Key theorems: `readkey_keys`, `Agree.scan`, `modifiers_follow`.
-/
import NanoOS.Lib.Trans
import NanoOS.Drivers.Tty.Ttyd

namespace NanoOS
namespace Tty

open Trans

/-- The keyboard: the keys held, by their make codes, and how often Caps Lock
was pressed. -/
structure Board where
  held : ℕ → Bool
  capsPresses : ℕ

namespace Board

/-- No key was ever touched. -/
def untouched : Board := ⟨fun _ => false, 0⟩

/-- A Shift key is held. -/
def shift (b : Board) : Bool := b.held kLshft || b.held kRshft

/-- Caps Lock is on. -/
def capsLock (b : Board) : Bool := b.capsPresses % 2 = 1

/-- What has happened when the scan code arrives: a make code of a key that is
held is a repetition. -/
def scan (code : ℕ) (b : Board) : Board :=
  if 128 ≤ code then { b with held := Function.update b.held (code - 128) false }
  else
    { held := Function.update b.held code true
      capsPresses := if code = kCaps ∧ b.held kCaps = false then b.capsPresses + 1 else b.capsPresses }

/-- The scan codes a keyboard can send: a break code comes from a key that is
held. -/
def Valid (b : Board) (code : ℕ) : Prop := code < 256 ∧ (128 ≤ code → b.held (code - 128) = true)

instance (b : Board) : DecidablePred b.Valid := fun code =>
  inferInstanceAs (Decidable (code < 256 ∧ (128 ≤ code → b.held (code - 128) = true)))

/-- A Shift key goes down only while no Shift is held, and Caps Lock only
while it is not. -/
def Single (b : Board) (code : ℕ) : Prop :=
  (code = kLshft ∨ code = kRshft → b.shift = false) ∧ (code = kCaps → b.held kCaps = false)

instance (b : Board) : DecidablePred b.Single := fun code =>
  inferInstanceAs (Decidable ((code = kLshft ∨ code = kRshft → b.shift = false) ∧
    (code = kCaps → b.held kCaps = false)))

/-- The character that a key should give: for a letter the upper-case one iff
either a Shift is held or Caps Lock is on, for another key the shifted one iff
a Shift is held. -/
def char (code : ℕ) (b : Board) : ℕ :=
  if 'a'.toNat ≤ keychar 0 code ∧ keychar 0 code ≤ 'z'.toNat then
    keychar (if (b.shift ^^ b.capsLock) = true then 1 else 0) code
  else keychar (if b.shift = true then 1 else 0) code

end Board

/-- The counters after `readkey` of a scan code. -/
def Keys.scan (code : ℕ) (k : Keys) : Keys := if 128 ≤ code then k.release (code - 128) else k.press code

theorem Keys.press_of_feeds {code : ℕ} (k : Keys) (h : feeds code = true) : k.press code = k := by
  have hne : code ≠ kLshft ∧ code ≠ kRshft ∧ code ≠ kCtrl ∧ code ≠ kAlt ∧ code ≠ kCaps := by
    refine ⟨?_, ?_, ?_, ?_, ?_⟩
    all_goals
      rintro rfl
      exact absurd h (by decide)
  unfold Keys.press
  rw [if_neg hne.1, if_neg hne.2.1, if_neg hne.2.2.1, if_neg hne.2.2.2.1, if_neg hne.2.2.2.2]

/-- `readkey` counts as `Keys.scan` says. -/
theorem readkey_keys {tty : ℤ} {code : ℕ} {s s' : Ttyd} {o : Option Reply}
    (h : s.readkey tty code = .ok (s', o)) : s'.keys = s.keys.scan code := by
  unfold Ttyd.readkey at h
  unfold Keys.scan
  by_cases hb : 128 ≤ code
  · rw [if_pos hb, Except.ok.injEq, Prod.mk.injEq] at h
    rw [if_pos hb, ← h.1]
  · rw [if_neg hb] at h
    rw [if_neg hb]
    obtain ⟨s1, h1, h⟩ := ok_of_bind h
    have hkeys : s1.keys = s.keys := by
      unfold Ttyd.acceptKey at h1
      split at h1
      · obtain ⟨c, -, h1⟩ := ok_of_bind h1
        cases h1
        rfl
      · cases h1
        rfl
    split at h
    · rename_i hf
      obtain ⟨⟨s2, o2⟩, h2, h⟩ := ok_of_bind h
      unfold Ttyd.onTty at h2
      obtain ⟨⟨c, o3⟩, -, h2⟩ := ok_of_bind h2
      simp only [pure, Except.pure, Except.ok.injEq, Prod.mk.injEq] at h h2
      obtain ⟨rfl, -⟩ := h
      obtain ⟨rfl, -⟩ := h2
      rw [Keys.press_of_feeds _ hf]
      exact hkeys
    · split at h
      · cases h
      · simp only [pure, Except.pure, Except.ok.injEq, Prod.mk.injEq] at h
        obtain ⟨rfl, -⟩ := h
        rw [hkeys]

/-! ### What the lowest bits have to be -/

/-- The counters agree with the keyboard in their lowest bits. -/
def Agree (k : Keys) (b : Board) : Prop :=
  k.shft % 2 = (if b.shift = true then 1 else 0) ∧ k.caps % 2 = (if b.capsLock = true then 1 else 0)

theorem row_eq {x : ℕ} {i j : ℤ} (hx : keychar 0 x ≠ keychar 1 x) (hi : i = 0 ∨ i = 1) (hj : j = 0 ∨ j = 1)
    (h : keychar i x = keychar j x) : i = j := by
  rcases hi with rfl | rfl
  · rcases hj with rfl | rfl
    · rfl
    · exact absurd h hx
  · rcases hj with rfl | rfl
    · exact absurd h.symm hx
    · rfl

/-- `readkey` chooses the right character for every key iff the lowest bits
agree: the key 1 tells of Shift, and the key q then of Caps Lock. -/
theorem agree_iff (k : Keys) (b : Board) : Agree k b ↔ ∀ x, k.char x = b.char x := by
  have hs := Int.emod_two_eq k.shft
  have hc := Int.emod_two_eq k.caps
  unfold Agree
  constructor
  · rintro ⟨hs, hc⟩ x
    unfold Keys.char Board.char
    rw [hs, hc]
    cases b.shift <;> cases b.capsLock <;> rfl
  · intro h
    have hdigit : keychar (k.shft % 2) 2 = keychar (if b.shift = true then 1 else 0) 2 := h 2
    have hletter : keychar (if k.shft % 2 = k.caps % 2 then 0 else 1) 16 =
        keychar (if (b.shift ^^ b.capsLock) = true then 1 else 0) 16 := h 16
    have h1 := row_eq (by decide) hs (by split <;> simp) hdigit
    have h2 := row_eq (by decide) (by split <;> simp) (by split <;> simp) hletter
    refine ⟨h1, ?_⟩
    rw [h1] at h2
    rcases hc with hc | hc
    all_goals
      rw [hc] at h2 ⊢
      revert h2
      cases b.shift <;> cases b.capsLock <;> decide

/-! ### One scan code -/

/-- What the invariant adds to the lowest bits: not both Shift keys are held. -/
structure Follows (p : Keys × Board) : Prop where
  agree : Agree p.1 p.2
  one : ¬ (p.2.held kLshft = true ∧ p.2.held kRshft = true)

theorem scan_shft (k : Keys) (code : ℕ) : (k.scan code).shft =
    k.shft + (if code = 42 ∨ code = 54 then 1 else 0) - (if code = 170 ∨ code = 182 then 1 else 0) := by
  unfold Keys.scan Keys.release Keys.press kLshft kRshft kCtrl kAlt kCaps
  split_ifs
  all_goals try dsimp only
  all_goals omega

theorem scan_caps (k : Keys) (code : ℕ) :
    (k.scan code).caps % 2 = (k.caps + if code = 58 then 1 else 0) % 2 := by
  unfold Keys.scan Keys.release Keys.press kLshft kRshft kCtrl kAlt kCaps
  split_ifs
  all_goals try dsimp only
  all_goals omega

theorem held_scan (b : Board) {x : ℕ} (hx : x < 128) (code : ℕ) :
    (b.scan code).held x = if code = x + 128 then false else if code = x then true else b.held x := by
  unfold Board.scan
  by_cases hb : 128 ≤ code
  · rw [if_pos hb]
    dsimp only
    by_cases he : code = x + 128
    · rw [if_pos he, he, Nat.add_sub_cancel, Function.update_self]
    · rw [if_neg he, if_neg (by omega), Function.update_of_ne (by omega)]
  · rw [if_neg hb]
    dsimp only
    rw [if_neg (by omega)]
    by_cases he : code = x
    · rw [if_pos he, he, Function.update_self]
    · rw [if_neg he, Function.update_of_ne (Ne.symm he)]

theorem capsLock_scan (b : Board) (code : ℕ) :
    (b.scan code).capsLock = (b.capsLock ^^ decide (code = 58 ∧ b.held 58 = false)) := by
  have hpresses : (b.scan code).capsPresses = b.capsPresses + if code = 58 ∧ b.held 58 = false then 1 else 0 := by
    unfold Board.scan kCaps
    split_ifs <;> first | rfl | omega
  unfold Board.capsLock
  rw [hpresses]
  by_cases h : code = 58 ∧ b.held 58 = false
  · rw [if_pos h, decide_eq_true h, Bool.xor_true, ← decide_not, decide_eq_decide]
    omega
  · rw [if_neg h, decide_eq_false h, Bool.xor_false, Nat.add_zero]

variable {p : Keys × Board} {code : ℕ}

theorem Follows.shift (h : Follows p) (hv : p.2.Valid code) :
    (p.1.scan code).shft % 2 = (if (p.2.scan code).shift = true then 1 else 0) ↔
      (code = 42 ∨ code = 54 → p.2.shift = false) := by
  have hbit := h.agree.1
  have hone := h.one
  have hheld := hv.2
  unfold Board.shift kLshft kRshft at *
  rw [scan_shft, held_scan _ (by decide), held_scan _ (by decide)]
  rcases Decidable.em (code = 42) with rfl | h1
  · cases hl : p.2.held 42 <;> cases hr : p.2.held 54 <;> simp [hl, hr] at hbit hone ⊢ <;> omega
  rcases Decidable.em (code = 54) with rfl | h2
  · cases hl : p.2.held 42 <;> cases hr : p.2.held 54 <;> simp [hl, hr] at hbit hone ⊢ <;> omega
  rcases Decidable.em (code = 170) with rfl | h3
  · cases hl : p.2.held 42 <;> cases hr : p.2.held 54 <;> simp [hl, hr] at hbit hone hheld ⊢; omega
  rcases Decidable.em (code = 182) with rfl | h4
  · cases hl : p.2.held 42 <;> cases hr : p.2.held 54 <;> simp [hl, hr] at hbit hone hheld ⊢; omega
  simp [h1, h2, h3, h4] at hbit ⊢
  exact hbit

theorem Follows.caps (h : Follows p) (code : ℕ) :
    (p.1.scan code).caps % 2 = (if (p.2.scan code).capsLock = true then 1 else 0) ↔
      (code = 58 → p.2.held 58 = false) := by
  have hbit := h.agree.2
  rw [scan_caps, capsLock_scan]
  rcases Decidable.em (code = 58) with rfl | h1
  · cases hc : p.2.capsLock <;> cases p.2.held 58 <;> simp [hc] at hbit ⊢ <;> omega
  · simp [h1, hbit]

theorem Follows.one_scan (h : Follows p) (hs : p.2.Single code) :
    ¬ ((p.2.scan code).held kLshft = true ∧ (p.2.scan code).held kRshft = true) := by
  have hone := h.one
  obtain ⟨hsh, -⟩ := hs
  unfold Board.shift kLshft kRshft at *
  rw [held_scan _ (by decide), held_scan _ (by decide)]
  cases hl : p.2.held 42 <;> cases hr : p.2.held 54 <;> simp [hl, hr] at hsh hone ⊢ <;> omega

/-- From a state in which the bits are right, a scan code leaves them right
exactly if it keeps to the rule. -/
theorem Follows.scan (h : Follows p) (hv : p.2.Valid code) :
    (Agree (p.1.scan code) (p.2.scan code) ↔ p.2.Single code) ∧
    (p.2.Single code → Follows (p.1.scan code, p.2.scan code)) := by
  have hiff : Agree (p.1.scan code) (p.2.scan code) ↔ p.2.Single code :=
    and_congr (h.shift hv) (h.caps code)
  exact ⟨hiff, fun hs => ⟨hiff.mpr hs, h.one_scan hs⟩⟩

/-! ### Every sequence of scan codes -/

/-- A scan code reaches `readkey`; `none` if it ends in a fault. -/
def Ttyd.scan (tty : ℤ) (s : Ttyd) (code : ℕ) : Option Ttyd := ((s.readkey tty code).map Prod.fst).toOption

/-- The driver, and what the scan codes show of the keyboard. -/
def scanStep (tty : ℤ) : Ttyd × Board → ℕ → Option (Ttyd × Board) :=
  withHistory (Ttyd.scan tty) fun _ code b => b.scan code

theorem Ttyd.scan_keys {tty : ℤ} {s s' : Ttyd} (h : s.scan tty code = some s') : s'.keys = s.keys.scan code := by
  obtain ⟨o, hread⟩ := ok_of_toOption h
  exact readkey_keys hread

/-- **Shift and Caps Lock follow the keys, up to repetitions and a second
Shift.** As long as a Shift key goes down only while no Shift is held and Caps
Lock only while it is not, `readkey` chooses the right character for every
key; and the first scan code that breaks this makes it choose a wrong one for
some key. -/
theorem modifiers_follow (tty : ℤ) (s₀ : Ttyd) (h0 : s₀.keys = Keys.zero) (p : Ttyd × Board)
    (hr : Reach (scanStep tty) (fun p code => p.2.Valid code ∧ p.2.Single code) (s₀, Board.untouched) p) :
    (∀ x, p.1.keys.char x = p.2.char x) ∧
    ∀ code s', p.2.Valid code → p.1.scan tty code = some s' →
      ((∀ x, s'.keys.char x = (p.2.scan code).char x) ↔ p.2.Single code) := by
  have hF : Follows (p.1.keys, p.2) := by
    refine hr.invariant (I := fun p => Follows (p.1.keys, p.2)) ?_ fun p code p' hF hok hs => ?_
    · dsimp only
      rw [h0]
      exact ⟨⟨rfl, rfl⟩, by decide⟩
    · obtain ⟨hkeys, hboard⟩ := withHistory_eq_some.mp hs
      rw [Ttyd.scan_keys hkeys, hboard]
      exact (hF.scan hok.1).2 hok.2
  refine ⟨(agree_iff _ _).mp hF.agree, fun code s' hv hs => ?_⟩
  rw [← agree_iff, Ttyd.scan_keys hs]
  exact (hF.scan hv).1

/-- Left Shift goes down and up, and then Caps Lock: q is upper-case. -/
theorem modifiers_follow_caps : ∃ p : Ttyd × Board, p.2.capsLock = true ∧ p.1.keys.char 16 = p.2.char 16 ∧
    p.1.keys.char 16 = 'Q'.toNat := by
  obtain ⟨p, hr, hp⟩ : ∃ p : Ttyd × Board,
      Reach (scanStep 3) (fun p code => p.2.Valid code ∧ p.2.Single code)
        (Ttyd.init fun _ => blank, Board.untouched) p ∧
        p.2.capsLock = true ∧ p.1.keys.char 16 = 'Q'.toNat :=
    Reach.exists_of_exec [42, 170, 58] (by decide +kernel)
  exact ⟨p, hp.1, (modifiers_follow 3 _ rfl p hr).1 16, hp.2⟩

/-- Left Shift is held until its make code comes again: q is lower-case. -/
theorem shift_repeats :
    ¬ ∀ (tty : ℤ) (s₀ : Ttyd) (p : Ttyd × Board), s₀.keys = Keys.zero →
      Reach (scanStep tty) (fun p code => p.2.Valid code) (s₀, Board.untouched) p →
      ∀ x, p.1.keys.char x = p.2.char x := by
  intro h
  obtain ⟨p, hr, hp⟩ : ∃ p : Ttyd × Board,
      Reach (scanStep 3) (fun p code => p.2.Valid code) (Ttyd.init fun _ => blank, Board.untouched) p ∧
        p.1.keys.char 16 = 'q'.toNat ∧ p.2.char 16 = 'Q'.toNat :=
    Reach.exists_of_exec [42, 42] (by decide +kernel)
  have h16 := h 3 _ p rfl hr 16
  rw [hp.1, hp.2] at h16
  exact absurd h16 (by decide)

end Tty
end NanoOS
