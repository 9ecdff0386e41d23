/-
# Contexts that are left and entered again

A processor shared by several threads leaves one in some context and enters it
again later. The log says which contexts these were. It is in order if every
thread is entered in the context that it was left in last, and no other.

Key definitions: `Event`, `pending`, `InOrder`, `left`, `entered`.
Key theorems: `InOrder.left_eq`, `InOrder.switch`.
-/
import Mathlib.Tactic.Common

namespace Resume

variable {ι χ : Type*}

/-- A thread is left or entered in a context. -/
inductive Event (ι χ : Type*)
  | leave (i : ι) (x : χ)
  | enter (i : ι) (x : χ)
  deriving DecidableEq

section

variable [DecidableEq ι]

/-- What an event means for the context that a thread waits in. -/
def Event.next (i : ι) (p : Option χ) : Event ι χ → Option χ
  | .leave j x => if j = i then some x else p
  | .enter j _ => if j = i then none else p

/-- The context that a thread waits in; none if it has the processor or is new. -/
def pending (i : ι) (log : List (Event ι χ)) : Option χ := log.foldl (Event.next i) none

/-- The contexts in which a thread was left. -/
def left (i : ι) (log : List (Event ι χ)) : List χ :=
  log.filterMap fun
    | .leave j x => if j = i then some x else none
    | .enter _ _ => none

/-- The contexts in which it was entered. -/
def entered (i : ι) (log : List (Event ι χ)) : List χ :=
  log.filterMap fun
    | .leave _ _ => none
    | .enter j x => if j = i then some x else none

/-- Threads are entered where they were left. -/
inductive InOrder : List (Event ι χ) → Prop
  | nil : InOrder []
  | leave {log : List (Event ι χ)} {i : ι} (x : χ) (h : InOrder log) (hp : pending i log = none) :
      InOrder (log ++ [.leave i x])
  | enter {log : List (Event ι χ)} {i : ι} {x : χ} (h : InOrder log) (hp : pending i log = some x) :
      InOrder (log ++ [.enter i x])

variable {log : List (Event ι χ)} {i j : ι} {x y : χ}

@[simp] theorem pending_nil : pending i ([] : List (Event ι χ)) = none := rfl

theorem pending_leave : pending i (log ++ [.leave j x]) = if j = i then some x else pending i log := by
  unfold pending
  rw [List.foldl_append]
  rfl

theorem pending_enter : pending i (log ++ [.enter j x]) = if j = i then none else pending i log := by
  unfold pending
  rw [List.foldl_append]
  rfl

/-- **Every context that a thread was left in is entered, in order**, but for the
one that it waits in. -/
theorem InOrder.left_eq (h : InOrder log) (i : ι) : left i log = entered i log ++ (pending i log).toList := by
  induction h with
  | nil => rfl
  | @leave log j x _ hp ih =>
    rw [pending_leave]
    unfold left entered at ih ⊢
    rw [List.filterMap_append, List.filterMap_append, ih]
    by_cases hij : j = i
    · subst hij
      simp [hp]
    · simp [hij]
  | @enter log j x _ hp ih =>
    rw [pending_enter]
    unfold left entered at ih ⊢
    rw [List.filterMap_append, List.filterMap_append, ih]
    by_cases hij : j = i
    · subst hij
      simp [hp]
    · simp [hij]

/-- **A switch**: `i` is left, and `j` is entered where it waits then. -/
theorem InOrder.switch (h : InOrder log) (hi : pending i log = none)
    (hj : (if i = j then some x else pending j log) = some y) :
    InOrder (log ++ [.leave i x, .enter j y]) := by
  have hwaits : pending j (log ++ [.leave i x]) = some y := pending_leave.trans hj
  have hlog : log ++ [.leave i x, .enter j y] = (log ++ [.leave i x]) ++ [.enter j y] := by
    rw [List.append_assoc]
    rfl
  rw [hlog]
  exact (h.leave x hi).enter hwaits

theorem pending_switch {k : ι} : pending k (log ++ [.leave i x, .enter j y]) =
    if j = k then none else if i = k then some x else pending k log := by
  have hlog : log ++ [.leave i x, .enter j y] = (log ++ [.leave i x]) ++ [.enter j y] := by
    rw [List.append_assoc]
    rfl
  rw [hlog, pending_enter, pending_leave]

end

end Resume
