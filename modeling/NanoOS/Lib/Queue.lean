/-
# Queues with selective receive

A mailbox is a list, the oldest message first. A receiver that waits for a
certain kind of message takes the oldest one of that kind and leaves the
others in their order.

Key definitions: `takeFirst`.
Key theorems: `takeFirst_eq_some`, `takeFirst_append`.
-/
import Mathlib.Data.List.Basic
import Mathlib.Tactic.Common

namespace Queue

variable {α : Type*} {p q : α → Bool} {l l' rest : List α} {x : α}

/-- The oldest element with `p`, and what is left without it. -/
def takeFirst (p : α → Bool) : List α → Option (α × List α)
  | [] => none
  | x :: l => if p x then some (x, l) else (takeFirst p l).map fun y => (y.1, x :: y.2)

/-- What is taken is the first element with `p`. -/
theorem takeFirst_eq_some (h : takeFirst p l = some (x, rest)) :
    p x = true ∧ ∃ l₁ l₂, l = l₁ ++ x :: l₂ ∧ rest = l₁ ++ l₂ ∧ ∀ y ∈ l₁, p y = false := by
  induction l generalizing rest with
  | nil => cases h
  | cons y l ih =>
    unfold takeFirst at h
    split at h
    · rename_i hy
      rw [Option.some.injEq, Prod.mk.injEq] at h
      obtain ⟨rfl, rfl⟩ := h
      exact ⟨hy, [], l, rfl, rfl, fun y hy => absurd hy List.not_mem_nil⟩
    · rename_i hy
      rw [Option.map_eq_some_iff] at h
      obtain ⟨⟨z, r⟩, hz, heq⟩ := h
      rw [Prod.mk.injEq] at heq
      obtain ⟨rfl, rfl⟩ := heq
      obtain ⟨hp, l₁, l₂, hl, hr, hno⟩ := ih hz
      refine ⟨hp, y :: l₁, l₂, by rw [hl]; rfl, by rw [hr]; rfl, fun w hw => ?_⟩
      rcases List.mem_cons.mp hw with rfl | hw
      · exact Bool.eq_false_iff.mpr hy
      · exact hno w hw

theorem takeFirst_eq_none : ∀ {l : List α}, takeFirst p l = none → ∀ y ∈ l, p y = false
  | [], _, y, hy => absurd hy List.not_mem_nil
  | x :: l, h, y, hy => by
    unfold takeFirst at h
    split at h
    · cases h
    · rename_i hx
      rcases List.mem_cons.mp hy with rfl | hy
      · exact Bool.eq_false_iff.mpr hx
      · exact takeFirst_eq_none (Option.map_eq_none_iff.mp h) y hy

/-- In a queue of two parts, the first part comes first. -/
theorem takeFirst_append (l l' : List α) : takeFirst p (l ++ l') =
    match takeFirst p l with
    | some (x, rest) => some (x, rest ++ l')
    | none => (takeFirst p l').map fun y => (y.1, l ++ y.2) := by
  induction l with
  | nil =>
    rw [List.nil_append, takeFirst]
    exact Option.map_id'.symm
  | cons x l ih =>
    rw [List.cons_append, takeFirst, takeFirst]
    by_cases hx : p x = true
    · rw [if_pos hx, if_pos hx]
    · rw [if_neg hx, if_neg hx, ih]
      cases takeFirst p l with
      | some y => rfl
      | none =>
        rw [Option.map_map]
        rfl

theorem takeFirst_subset (h : takeFirst p l = some (x, rest)) : ∀ y ∈ rest, y ∈ l := by
  intro y hy
  obtain ⟨-, l₁, l₂, rfl, rfl, -⟩ := takeFirst_eq_some h
  rw [List.mem_append] at hy ⊢
  rcases hy with hy | hy
  · exact Or.inl hy
  · exact Or.inr (List.mem_cons_of_mem x hy)

theorem takeFirst_countP (h : takeFirst p l = some (x, rest)) :
    l.countP q = rest.countP q + if q x = true then 1 else 0 := by
  obtain ⟨-, l₁, l₂, rfl, rfl, -⟩ := takeFirst_eq_some h
  rw [List.countP_append, List.countP_append, List.countP_cons]
  omega

theorem takeFirst_filter (h : takeFirst p l = some (x, rest)) (hx : q x = false) : rest.filter q = l.filter q := by
  obtain ⟨-, l₁, l₂, rfl, rfl, -⟩ := takeFirst_eq_some h
  rw [List.filter_append, List.filter_append, List.filter_cons_of_neg (by simp [hx])]

end Queue
