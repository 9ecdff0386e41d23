/-
# Lists that end in null

A pointer, and a link at every node: from the pointer on, the links lead
through some nodes and then to null. A loop along such a list ends after as
many rounds as it has nodes.

Key definitions: `NullList.Leads`, `NullList.visit`.
Key theorems: `Leads.visit_eq`, `Leads.unique`, `Leads.push`, `Leads.congr`.
-/
import Mathlib.Logic.Function.Basic
import Mathlib.Tactic.Common

namespace NullList

variable {α : Type*}

/-- From `p` on, the links lead through these nodes to null. -/
def Leads (next : α → Option α) : Option α → List α → Prop
  | p, [] => p = none
  | p, a :: l => p = some a ∧ Leads next (next a) l

/-- The nodes that `while (p != NULL) { ...; p = p->next; }` comes to, `none`
if it has not ended after `fuel` rounds. -/
def visit (next : α → Option α) : ℕ → Option α → Option (List α)
  | _, none => some []
  | 0, some _ => none
  | fuel + 1, some a => (visit next fuel (next a)).map (a :: ·)

variable {next next' : α → Option α} {p : Option α} {l l' : List α}

/-- **The loop** comes to every node of the list, in order, and ends. -/
theorem Leads.visit_eq (h : Leads next p l) {fuel : ℕ} (hfuel : l.length ≤ fuel) : visit next fuel p = some l := by
  induction l generalizing p fuel with
  | nil =>
    cases h
    cases fuel with
    | zero => rfl
    | succ fuel => rfl
  | cons a l ih =>
    obtain ⟨rfl, h⟩ := h
    cases fuel with
    | zero => exact absurd hfuel (Nat.not_succ_le_zero _)
    | succ fuel =>
      show (visit next fuel (next a)).map (a :: ·) = some (a :: l)
      rw [ih h (Nat.le_of_succ_le_succ hfuel)]
      rfl

theorem Leads.unique (h : Leads next p l) (h' : Leads next p l') : l = l' := by
  have hle := h.visit_eq (Nat.le_max_left l.length l'.length)
  have hle' := h'.visit_eq (Nat.le_max_right l.length l'.length)
  exact Option.some.inj (hle.symm.trans hle')

theorem Leads.congr (h : Leads next p l) (heq : ∀ a ∈ l, next' a = next a) : Leads next' p l := by
  induction l generalizing p with
  | nil => exact h
  | cons a l ih =>
    refine ⟨h.1, ?_⟩
    rw [heq a List.mem_cons_self]
    exact ih h.2 fun b hb => heq b (List.mem_cons_of_mem a hb)

/-- A node of no list that is linked to the first node becomes the first one. -/
theorem Leads.push [DecidableEq α] (h : Leads next p l) {a : α} (ha : a ∉ l) :
    Leads (Function.update next a p) (some a) (a :: l) := by
  refine ⟨rfl, ?_⟩
  rw [Function.update_self]
  refine h.congr fun b hb => Function.update_of_ne ?_ ..
  rintro rfl
  exact ha hb

end NullList
