/-
# Lines read back from a stream

Lines are entered one after the other and read back in pieces. A read of at
most `n` items gets what is left of the first line, or its first `n` items if
there are more; the line is done with when a read has found its end. A `Log`
keeps what was entered and what each read got.

`Left` ties the lines that wait to the log, and `Placed` says where in which
line each read was: both are kept by entering a line and by a read.

Key definitions: `LineStream.encode`, `LineStream.rest`, `LineStream.Log`,
`LineStream.Left`, `LineStream.Placed`.
Key theorems: `Left.enter`, `Left.serve`, `Placed.enter`, `Placed.serve`,
`Left.isPrefix`.
-/
import Mathlib.Data.List.Basic
import Mathlib.Tactic.Common

namespace LineStream

variable {β : Type*}

/-- The lines as they stand in the stream, with `z` at the end of each. -/
def encode (z : β) (ls : List (List β)) : List β := ls.flatMap fun l => l ++ [z]

/-- The lines that wait after a read of `n` items, of which `l` was the first. -/
def rest (n : ℕ) (l : List β) (ls : List (List β)) : List (List β) :=
  if l.length < n then ls else l.drop n :: ls

/-- The lines entered, and for each read what was asked for and what it got. -/
structure Log (β : Type*) where
  entered : List (List β)
  served : List (ℕ × List β)

namespace Log

/-- All that was read. -/
def read (g : Log β) : List β := g.served.flatMap Prod.snd

/-- A line is entered. -/
def enter (l : List β) (g : Log β) : Log β := { g with entered := g.entered ++ [l] }

/-- A read of `n` items gets `d`. -/
def serve (n : ℕ) (d : List β) (g : Log β) : Log β := { g with served := g.served ++ [(n, d)] }

end Log

/-- The lines `ls` wait: what was read is the lines before them, and the part
`p` of the first of them that is gone. -/
def Left (g : Log β) (ls : List (List β)) : Prop :=
  ∃ (done : List (List β)) (p : List β), g.read = done.flatten ++ p ∧
    match ls with
    | [] => p = [] ∧ g.entered = done
    | l :: ls => g.entered = done ++ (p ++ l) :: ls

/-- Every read got its items from one line, from the place on to which the
reads before it had come; and if it got fewer than it asked for, it came to
the end of the line. -/
def Placed (g : Log β) : Prop :=
  ∀ j n d, g.served[j]? = some (n, d) → ∃ k o line, g.entered[k]? = some line ∧ o ≤ line.length ∧
    ((g.served.take j).flatMap Prod.snd).length = (g.entered.take k).flatten.length + o ∧
    d = (line.drop o).take n ∧ (d.length < n → o + d.length = line.length)

variable {g : Log β} {l : List β} {ls : List (List β)} {n : ℕ}

theorem encode_cons (z : β) (l : List β) (ls : List (List β)) :
    encode z (l :: ls) = l ++ z :: encode z ls := by
  simp [encode]

theorem encode_append (z : β) (ls : List (List β)) (l : List β) :
    encode z (ls ++ [l]) = encode z ls ++ (l ++ [z]) := by
  simp [encode]

theorem encode_eq_nil {z : β} : encode z ls = [] ↔ ls = [] := by
  cases ls with
  | nil => simp [encode]
  | cons l ls => simp [encode_cons]

/-! ### The lines that wait -/

theorem Left.nil : Left (⟨[], []⟩ : Log β) [] := ⟨[], [], rfl, rfl, rfl⟩

theorem Left.enter (h : Left g ls) (l : List β) : Left (g.enter l) (ls ++ [l]) := by
  obtain ⟨done, p, hread, hmatch⟩ := h
  cases ls with
  | nil =>
    obtain ⟨rfl, hent⟩ := hmatch
    exact ⟨done, [], hread, by simp [Log.enter, hent]⟩
  | cons l' ls =>
    have hent : g.entered = done ++ (p ++ l') :: ls := hmatch
    exact ⟨done, p, hread, by simp [Log.enter, hent]⟩

theorem Left.serve (h : Left g (l :: ls)) (n : ℕ) : Left (g.serve n (l.take n)) (rest n l ls) := by
  obtain ⟨done, p, hread, hmatch⟩ := h
  have hent : g.entered = done ++ (p ++ l) :: ls := hmatch
  have hread' : (g.serve n (l.take n)).read = done.flatten ++ p ++ l.take n := by
    rw [← hread]
    simp [Log.read, Log.serve]
  unfold rest
  by_cases hl : l.length < n
  · -- the end of the line was found: the whole of it is read
    rw [if_pos hl]
    rw [List.take_of_length_le (Nat.le_of_lt hl)] at hread' ⊢
    have hdone : (g.serve n l).read = (done ++ [p ++ l]).flatten := by simp [hread']
    cases ls with
    | nil => exact ⟨done ++ [p ++ l], [], by simpa using hdone, rfl, hent⟩
    | cons l' ls => exact ⟨done ++ [p ++ l], [], by simpa using hdone, by simp [Log.serve, hent]⟩
  · rw [if_neg hl]
    refine ⟨done, p ++ l.take n, by rw [hread', List.append_assoc], ?_⟩
    change g.entered = done ++ (p ++ l.take n ++ l.drop n) :: ls
    rw [hent, List.append_assoc, List.take_append_drop]

/-- What was read is the beginning of what was entered. -/
theorem Left.isPrefix (h : Left g ls) : g.read <+: g.entered.flatten := by
  obtain ⟨done, p, hread, hmatch⟩ := h
  cases ls with
  | nil =>
    obtain ⟨rfl, hent⟩ := hmatch
    exact ⟨[], by rw [hread, hent, List.append_nil, List.append_nil]⟩
  | cons l ls =>
    have hent : g.entered = done ++ (p ++ l) :: ls := hmatch
    rw [hread, hent]
    exact ⟨l ++ ls.flatten, by simp⟩

/-! ### Where the reads were -/

theorem Placed.nil : Placed (⟨[], []⟩ : Log β) := fun j n d h => by simp at h

theorem Placed.enter (h : Placed g) (l : List β) : Placed (g.enter l) := by
  intro j n d hj
  obtain ⟨k, o, line, hk, ho, hpos, hd, hend⟩ := h j n d hj
  have hlt : k < g.entered.length := (List.getElem?_eq_some_iff.mp hk).1
  refine ⟨k, o, line, ?_, ho, ?_, hd, hend⟩
  · change (g.entered ++ [l])[k]? = some line
    rw [List.getElem?_append_left hlt, hk]
  · change ((g.served.take j).flatMap Prod.snd).length = ((g.entered ++ [l]).take k).flatten.length + o
    rw [List.take_append_of_le_length (Nat.le_of_lt hlt), hpos]

theorem Placed.serve (h : Placed g) (hleft : Left g (l :: ls)) (n : ℕ) : Placed (g.serve n (l.take n)) := by
  intro j m d hj
  change (g.served ++ [(n, l.take n)])[j]? = some (m, d) at hj
  change ∃ k o line, g.entered[k]? = some line ∧ o ≤ line.length ∧
    (((g.served ++ [(n, l.take n)]).take j).flatMap Prod.snd).length = (g.entered.take k).flatten.length + o ∧
    d = (line.drop o).take m ∧ (d.length < m → o + d.length = line.length)
  rcases Nat.lt_or_ge j g.served.length with hlt | hge
  · rw [List.getElem?_append_left hlt] at hj
    rw [List.take_append_of_le_length (Nat.le_of_lt hlt)]
    exact h j m d hj
  · -- the new read: from where the first line that waits begins
    have hjl : j = g.served.length := by
      have hlen := (List.getElem?_eq_some_iff.mp hj).1
      rw [List.length_append, List.length_singleton] at hlen
      omega
    subst hjl
    rw [List.getElem?_concat_length, Option.some.injEq, Prod.mk.injEq] at hj
    obtain ⟨rfl, rfl⟩ := hj
    obtain ⟨done, p, hread, hmatch⟩ := hleft
    have hent : g.entered = done ++ (p ++ l) :: ls := hmatch
    refine ⟨done.length, p.length, p ++ l, ?_, by simp, ?_, by simp, ?_⟩
    · rw [hent]
      simp
    · rw [List.take_append_of_le_length (Nat.le_refl _), List.take_length, hent,
        List.take_append_of_le_length (Nat.le_refl _), List.take_length]
      change g.read.length = _
      rw [hread, List.length_append]
    · intro hshort
      rw [List.length_take] at hshort ⊢
      rw [List.length_append]
      omega

end LineStream
