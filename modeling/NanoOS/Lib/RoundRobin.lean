/-
# Round robin with restarts

A cursor goes round a list: `pick` takes the element after it, from the last
one back to the first, and the first one when the cursor is not in the list.
Elements join at the end at any time, and only the cursor itself may leave;
once it has left, the next round starts over at the head.

Such a scheduler passes over no element forever. `rank` bounds how often it
can still do so: what stands before the element counts in full rounds, and
within a round the way the cursor has to go. A cursor behind the element is
measured from the head of the list and not to its end, since the end moves
away as elements join; a cursor that has left is measured as if it had just
come back at the end.

Key definitions: `RoundRobin.pick`, `RoundRobin.rank`.
Key theorems: `RoundRobin.rank_append_le`, `RoundRobin.rank_erase_le`,
`RoundRobin.rank_pick_lt`, `RoundRobin.rank_le`.
-/
import Mathlib.Data.List.Basic
import Mathlib.Data.List.Nodup
import Mathlib.Tactic.Common

namespace RoundRobin

variable {α : Type*} [DecidableEq α]

/-- The element whose turn it is after `c`. -/
def pick (l : List α) (c : α) : Option α :=
  if c ∈ l then l[l.idxOf c + 1]?.or l.head? else l.head?

/-- How far the cursor `c` is from the element at place `k` of `l`, in a list
of at most `n`. -/
def phase (n : ℕ) (l : List α) (c : α) (k : ℕ) : ℕ :=
  if l.idxOf c < k then k - l.idxOf c else 2 * n + 1 - l.idxOf c

/-- How often the scheduler can still pass over `p`. -/
def rank (n : ℕ) (l : List α) (c p : α) : ℕ := l.idxOf p * (2 * n + 2) + phase n l c (l.idxOf p)

variable {n : ℕ} {l : List α} {c p x : α}

theorem phase_le {k : ℕ} (hk : k ≤ n) : phase n l c k ≤ 2 * n + 1 := by
  unfold phase
  split <;> omega

/-- The rank is bounded by the length of the list. -/
theorem rank_le (hn : l.length ≤ n) : rank n l c p ≤ n * (2 * n + 2) + (2 * n + 1) := by
  have hp : l.idxOf p ≤ n := Nat.le_trans List.idxOf_le_length hn
  exact Nat.add_le_add (Nat.mul_le_mul_right _ hp) (phase_le hp)

theorem pick_of_notMem (hc : c ∉ l) : pick l c = l.head? := if_neg hc

theorem idxOf_split {a b : List α} (hnd : (a ++ c :: b).Nodup) : (a ++ c :: b).idxOf c = a.length := by
  have hca : c ∉ a := fun h => (List.nodup_append.mp hnd).2.2 c h c List.mem_cons_self rfl
  rw [List.idxOf_append_of_notMem hca, List.idxOf_cons_self, Nat.add_zero]

theorem pick_split {a b : List α} (hnd : (a ++ c :: b).Nodup) :
    pick (a ++ c :: b) c = b.head?.or (a ++ c :: b).head? := by
  have hget : (a ++ c :: b)[a.length + 1]? = b.head? := by
    rw [List.getElem?_append_right (by omega)]
    simp [List.head?_eq_getElem?]
  rw [pick, if_pos (by simp), idxOf_split hnd, hget]

/-- An element joins at the end. -/
theorem rank_append_le (hp : p ∈ l) : rank n (l ++ [x]) c p ≤ rank n l c p := by
  have hpi : (l ++ [x]).idxOf p = l.idxOf p := List.idxOf_append_of_mem hp
  have hlt : l.idxOf p < l.length := List.idxOf_lt_length_of_mem hp
  unfold rank phase
  rw [hpi]
  by_cases hc : c ∈ l
  · exact Nat.le_of_eq (by rw [List.idxOf_append_of_mem hc])
  · -- the cursor has left: it is the one that joins, or the end has moved away from it
    rw [List.idxOf_append_of_notMem hc, List.idxOf_of_notMem hc]
    split <;> split <;> omega

/-- The cursor leaves. -/
theorem rank_erase_le (hnd : l.Nodup) (hn : l.length ≤ n) (hp : p ∈ l) (hcp : c ≠ p) :
    rank n (l.erase c) c p ≤ rank n l c p := by
  by_cases hc : c ∈ l
  · obtain ⟨a, b, rfl⟩ := List.append_of_mem hc
    have hca : c ∉ a := fun h => (List.nodup_append.mp hnd).2.2 c h c List.mem_cons_self rfl
    have hcb : c ∉ b := (List.nodup_cons.mp (List.nodup_append.mp hnd).2.1).1
    have herase : (a ++ c :: b).erase c = a ++ b := by
      rw [List.erase_append_right _ hca, List.erase_cons_head]
    have hgone : (a ++ b).idxOf c = a.length + b.length := by
      rw [List.idxOf_of_notMem (by simp [hca, hcb]), List.length_append]
    simp only [List.length_append, List.length_cons] at hn
    rw [herase]
    unfold rank phase
    rw [hgone, idxOf_split hnd]
    by_cases hpa : p ∈ a
    · -- behind `p`: coming back at the end is no nearer to the head than the place it had
      have hlt : a.idxOf p < a.length := List.idxOf_lt_length_of_mem hpa
      rw [List.idxOf_append_of_mem hpa, List.idxOf_append_of_mem hpa]
      split <;> split <;> omega
    · -- before `p`: one round less to wait
      have hpb : p ∈ b := by
        rcases List.mem_append.mp hp with h | h
        · exact absurd h hpa
        · exact (List.mem_cons.mp h).resolve_left hcp.symm
      have hlt : b.idxOf p < b.length := List.idxOf_lt_length_of_mem hpb
      have hround : (a.length + (b.idxOf p + 1)) * (2 * n + 2) =
          (a.length + b.idxOf p) * (2 * n + 2) + (2 * n + 2) := Nat.succ_mul _ _
      rw [List.idxOf_append_of_notMem hpa, List.idxOf_append_of_notMem hpa,
        List.idxOf_cons_ne _ hcp, Nat.succ_eq_add_one, hround, if_neg (by omega), if_pos (by omega)]
      omega
  · exact Nat.le_of_eq (by rw [List.erase_of_not_mem hc])

/-- The cursor moves on, to another element than `p`. -/
theorem rank_pick_lt (hnd : l.Nodup) (hn : l.length ≤ n) (hp : p ∈ l) (hpick : pick l c = some x)
    (hxp : x ≠ p) : rank n l x p < rank n l c p := by
  have hpl : l.idxOf p < l.length := List.idxOf_lt_length_of_mem hp
  unfold rank phase
  apply Nat.add_lt_add_left
  -- a round that starts over at the head
  have hhead : l.head? = some x → l.idxOf x = 0 ∧ 0 < l.idxOf p := by
    intro h
    obtain ⟨r, rfl⟩ := List.head?_eq_some_iff.mp h
    rw [List.idxOf_cons_self, List.idxOf_cons_ne _ hxp]
    exact ⟨rfl, Nat.succ_pos _⟩
  by_cases hc : c ∈ l
  · obtain ⟨a, b, rfl⟩ := List.append_of_mem hc
    have hci := idxOf_split hnd
    rw [pick_split hnd] at hpick
    cases b with
    | nil =>
      obtain ⟨hx0, hp0⟩ := hhead (by simpa using hpick)
      simp only [List.length_append, List.length_cons, List.length_nil] at hpl hn
      rw [hx0, hci, if_pos hp0]
      split
      · omega
      · omega
    | cons y b =>
      obtain rfl : y = x := by simpa using hpick
      have hxi : (a ++ c :: y :: b).idxOf y = a.length + 1 := by
        have h := idxOf_split (a := a ++ [c]) (b := b) (c := y) (by simpa using hnd)
        simpa using h
      have hpi : (a ++ c :: y :: b).idxOf p ≠ a.length + 1 := by
        intro h
        apply hxp
        have hg := List.getElem_idxOf hpl
        simp only [h] at hg
        simpa using hg
      simp only [List.length_append, List.length_cons] at hpl hn
      rw [hxi, hci]
      split <;> split <;> omega
  · rw [pick_of_notMem hc] at hpick
    obtain ⟨hx0, hp0⟩ := hhead hpick
    rw [hx0, List.idxOf_of_notMem hc, if_pos hp0, if_neg (by omega)]
    omega

end RoundRobin
