/-
# Counting semaphores

A semaphore has a token count and a queue of waiting clients, and its users do
four things to it: take a token, block, raise the count of a semaphore nobody
waits for, and wake the client that waits first. A history (`Hist`) counts
what was done and logs who blocked and who was released. `Lawful` relates the
two, and each of the four keeps it.

Key definitions: `Hist`, `Lawful`.
Key theorems: `Lawful.take`, `Lawful.block`, `Lawful.raise`, `Lawful.wake`.
-/
import Mathlib.Data.Int.Notation
import Mathlib.Tactic.Common

namespace Semaphore

variable {α : Type*}

/-- What was done to a semaphore. -/
structure Hist (α : Type*) where
  /-- The count it was set up with. -/
  value : ℤ
  /-- The `P` that took a token or were woken. -/
  taken : ℕ
  /-- The `V`. -/
  given : ℕ
  /-- Who blocked, in this order. -/
  blocked : List α
  /-- Who was woken, in this order. -/
  released : List α

namespace Hist

def start (v : ℤ) : Hist α := ⟨v, 0, 0, [], []⟩

def take (h : Hist α) : Hist α := { h with taken := h.taken + 1 }

def block (t : α) (h : Hist α) : Hist α := { h with blocked := h.blocked ++ [t] }

def raise (h : Hist α) : Hist α := { h with given := h.given + 1 }

def wake (t : α) (h : Hist α) : Hist α :=
  { h with taken := h.taken + 1, given := h.given + 1, released := h.released ++ [t] }

end Hist

/-- The token count and the queue are what the history makes of them: nothing
is lost, clients are released in the order in which they blocked, the count
is never negative, and it is 0 while somebody waits. -/
structure Lawful (token : ℤ) (wait : List α) (h : Hist α) : Prop where
  count : token + h.taken = h.value + h.given
  fifo : h.blocked = h.released ++ wait
  nonneg : 0 ≤ h.value → 0 ≤ token
  zero : 0 ≤ h.value → wait ≠ [] → token = 0

variable {token : ℤ} {wait : List α} {h : Hist α} {t : α}

theorem lawful_start (v : ℤ) : Lawful v [] (Hist.start v : Hist α) :=
  ⟨by simp [Hist.start], by simp [Hist.start], id, fun _ h => absurd rfl h⟩

theorem Lawful.take (hL : Lawful token wait h) (ht : 0 < token) : Lawful (token - 1) wait h.take := by
  have hc := hL.count
  refine ⟨by simp only [Hist.take]; push_cast; omega, hL.fifo, fun _ => by omega, fun hv hw => ?_⟩
  have := hL.zero hv hw
  omega

theorem Lawful.block (hL : Lawful token wait h) (ht : token ≤ 0) :
    Lawful token (wait ++ [t]) (h.block t) := by
  refine ⟨hL.count, ?_, hL.nonneg, fun hv _ => ?_⟩
  · simp [Hist.block, hL.fifo]
  · have := hL.nonneg hv
    omega

theorem Lawful.raise (hL : Lawful token [] h) : Lawful (token + 1) [] h.raise := by
  have hc := hL.count
  refine ⟨by simp only [Hist.raise]; push_cast; omega, hL.fifo, fun hv => ?_, fun _ h => absurd rfl h⟩
  have := hL.nonneg hv
  omega

theorem Lawful.wake (hL : Lawful token (t :: wait) h) : Lawful token wait (h.wake t) := by
  have hc := hL.count
  refine ⟨by simp only [Hist.wake]; push_cast; omega, ?_, hL.nonneg, fun hv _ => hL.zero hv (by simp)⟩
  simp [Hist.wake, hL.fifo]

end Semaphore
