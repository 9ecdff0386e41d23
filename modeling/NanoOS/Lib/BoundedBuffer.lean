/-
# Bounded buffers

Items are put into a ring of `N` places one after the other and taken out in
the same order. `Window` says that the items that were put in and not taken
out are in their places; `Holds` says the same of a ring that is known by the
places `f` and `r` of its first item and of the next free place. Who is
between two points of a program is counted by `Count`: as a client moves on,
the number of those in a region of the program changes by what the move adds
and takes away.

Key definitions: `Window`, `Holds`, `Count`.
Key theorems: `Window.store`, `Window.fetch`, `Holds.push`, `Holds.pop`,
`Count.move`.
-/
import Mathlib.Data.Finset.Card
import Mathlib.Tactic.Common

namespace BoundedBuffer

/-- 1 if it holds. -/
def ind (p : Prop) [Decidable p] : ℕ := if p then 1 else 0

theorem ind_pos {p : Prop} [Decidable p] (h : p) : ind p = 1 := if_pos h

theorem ind_neg {p : Prop} [Decidable p] (h : ¬ p) : ind p = 0 := if_neg h

/-! ### The ring -/

section

variable {β : Type*} {N C P : ℕ} {buf item : ℕ → β}

/-- Items number `C` to `P - 1` are in their places. -/
def Window (N : ℕ) (buf item : ℕ → β) (C P : ℕ) : Prop := ∀ j, C ≤ j → j < P → buf (j % N) = item j

theorem mod_ne_of_window {j : ℕ} (hC : C ≤ j) (hP : j < P) (hN : P < C + N) : j % N ≠ P % N := by
  intro heq
  have hdvd : N ∣ P - j := Nat.dvd_of_mod_eq_zero (Nat.sub_mod_eq_zero_of_mod_eq heq.symm)
  have hle := Nat.le_of_dvd (by omega) hdvd
  omega

/-- With less than `N` items there is a place for another one. -/
theorem Window.store (h : Window N buf item C P) (hN : P < C + N) :
    Window N (Function.update buf (P % N) (item P)) item C (P + 1) := by
  intro j hC hP
  by_cases hj : j = P
  · rw [hj, Function.update_self]
  · rw [Function.update_of_ne (mod_ne_of_window hC (by omega) hN)]
    exact h j hC (by omega)

/-- The first item comes out. -/
theorem Window.fetch (h : Window N buf item C P) (hP : C < P) :
    buf (C % N) = item C ∧ Window N buf item (C + 1) P :=
  ⟨h C (Nat.le_refl C) hP, fun j hC hj => h j (by omega) hj⟩

end

/-! ### The ring between two places -/

section

variable {β : Type*} {N f r : ℕ} {buf : ℕ → β} {l : List β} {x : β}

/-- From place `f` up to place `r` are the items `l`. One place stays free. -/
structure Holds (N : ℕ) (buf : ℕ → β) (f r : ℕ) (l : List β) : Prop where
  front : f < N
  room : l.length < N
  rear : r = (f + l.length) % N
  cells : ∀ j (h : j < l.length), buf ((f + j) % N) = l[j]

theorem Holds.nil (hf : f < N) : Holds N buf f f ([] : List β) :=
  ⟨hf, by simpa using Nat.zero_lt_of_lt hf, by simpa using (Nat.mod_eq_of_lt hf).symm, by simp⟩

theorem Holds.length_eq (h : Holds N buf f r l) : (r + N - f) % N = l.length := by
  have hf := h.front
  have hl := h.room
  rw [h.rear]
  rcases Nat.lt_or_ge (f + l.length) N with hlt | hge
  · rw [Nat.mod_eq_of_lt hlt, show f + l.length + N - f = l.length + N by omega, Nat.add_mod_right,
      Nat.mod_eq_of_lt hl]
  · rw [Nat.mod_eq_sub_mod hge, Nat.mod_eq_of_lt (by omega : f + l.length - N < N),
      show f + l.length - N + N - f = l.length by omega, Nat.mod_eq_of_lt hl]

theorem Holds.empty_iff (h : Holds N buf f r l) : f = r ↔ l = [] := by
  have hf := h.front
  have hlen := h.length_eq
  constructor
  · rintro rfl
    rw [show f + N - f = N by omega, Nat.mod_self] at hlen
    exact List.eq_nil_of_length_eq_zero hlen.symm
  · rintro rfl
    rw [h.rear, List.length_nil, Nat.add_zero, Nat.mod_eq_of_lt hf]

/-- The next place is the first one iff there is no room for another item. -/
theorem Holds.full_iff (h : Holds N buf f r l) : (r + 1) % N = f ↔ l.length + 1 = N := by
  have hf := h.front
  have hl := h.room
  rw [h.rear, Nat.mod_add_mod]
  rcases Nat.lt_or_ge (f + l.length + 1) N with hlt | hge
  · rw [Nat.mod_eq_of_lt hlt]
    omega
  · rw [Nat.mod_eq_sub_mod hge, Nat.mod_eq_of_lt (by omega : f + l.length + 1 - N < N)]
    omega

/-- An item is put at the end. -/
theorem Holds.push (h : Holds N buf f r l) (hroom : l.length + 1 < N) (x : β) :
    Holds N (Function.update buf r x) f ((r + 1) % N) (l ++ [x]) := by
  refine ⟨h.front, by simpa using hroom, ?_, fun j hj => ?_⟩
  · rw [h.rear, Nat.mod_add_mod, List.length_append, List.length_singleton, Nat.add_assoc]
  · rw [List.length_append, List.length_singleton] at hj
    by_cases hlast : j = l.length
    · subst hlast
      rw [← h.rear, Function.update_self]
      simp
    · have hne : (f + j) % N ≠ r := by
        rw [h.rear]
        exact mod_ne_of_window (C := f) (by omega) (by omega) (by omega)
      rw [Function.update_of_ne hne, h.cells j (by omega), List.getElem_append_left (by omega)]

/-- The first item comes out. -/
theorem Holds.pop (h : Holds N buf f r (x :: l)) : buf f = x ∧ Holds N buf ((f + 1) % N) r l := by
  have hf := h.front
  have hroom := h.room
  rw [List.length_cons] at hroom
  constructor
  · have h0 := h.cells 0 (by simp)
    rwa [Nat.add_zero, Nat.mod_eq_of_lt hf] at h0
  · refine ⟨Nat.mod_lt _ (by omega), by omega, ?_, fun j hj => ?_⟩
    · rw [h.rear, Nat.mod_add_mod, List.length_cons]
      congr 1
      omega
    · have hj' := h.cells (j + 1) (by simpa using hj)
      rw [Nat.mod_add_mod, Nat.add_assoc, Nat.add_comm 1 j, hj', List.getElem_cons_succ]

end

/-! ### Counting clients -/

section

variable {ι β : Type*} [DecidableEq ι] {p : β → Prop} [DecidablePred p] {φ : ι → β} {n : ℕ} {t : ι}

/-- `n` clients are where `p` holds. -/
def Count (p : β → Prop) (φ : ι → β) (n : ℕ) : Prop := ∃ S : Finset ι, (∀ t, t ∈ S ↔ p (φ t)) ∧ S.card = n

omit [DecidableEq ι] [DecidablePred p] in
theorem Count.pos (h : Count p φ n) (ht : p (φ t)) : 0 < n := by
  obtain ⟨S, hS, rfl⟩ := h
  exact Finset.card_pos.mpr ⟨t, (hS t).mpr ht⟩

/-- A client moves. -/
theorem Count.move (h : Count p φ n) (t : ι) (v : β) :
    ∃ m, Count p (Function.update φ t v) m ∧ m + ind (p (φ t)) = n + ind (p v) := by
  obtain ⟨S, hS, rfl⟩ := h
  have hrest : ∀ u, u ∈ S.erase t ↔ u ≠ t ∧ p (φ u) := by
    intro u
    rw [Finset.mem_erase, hS]
  have hcard : (S.erase t).card + ind (p (φ t)) = S.card := by
    by_cases ht : p (φ t)
    · rw [ind_pos ht]
      exact Finset.card_erase_add_one ((hS t).mpr ht)
    · rw [ind_neg ht, Finset.erase_eq_of_notMem (fun hm => ht ((hS t).mp hm))]
      rfl
  by_cases hv : p v
  · refine ⟨(insert t (S.erase t)).card, ⟨insert t (S.erase t), fun u => ?_, rfl⟩, ?_⟩
    · by_cases hu : u = t
      · rw [hu, Function.update_self]
        exact ⟨fun _ => hv, fun _ => Finset.mem_insert_self t _⟩
      · rw [Finset.mem_insert, hrest, Function.update_of_ne hu]
        exact ⟨fun hm => (hm.resolve_left hu).2, fun hm => Or.inr ⟨hu, hm⟩⟩
    · rw [Finset.card_insert_of_notMem (Finset.notMem_erase t S), ind_pos hv]
      omega
  · refine ⟨(S.erase t).card, ⟨S.erase t, fun u => ?_, rfl⟩, ?_⟩
    · rw [hrest]
      by_cases hu : u = t
      · rw [hu, Function.update_self]
        exact ⟨fun hm => absurd rfl hm.1, fun hm => absurd hm hv⟩
      · rw [Function.update_of_ne hu]
        exact ⟨fun hm => hm.2, fun hm => ⟨hu, hm⟩⟩
    · rw [ind_neg hv]
      omega

end

end BoundedBuffer
