/-
# Loading images

An image is loaded piece by piece. A piece has a footprint, the addresses that
loading it may change, and wants values at some of them. When the footprints
are disjoint, the order of the pieces does not matter and in the end every
piece has what it wants (`placed_all`). A segment of a program wants bytes of a
file and then zeros (`content`).

Key definitions: `blit`, `content`, `Places`.
Key theorems: `blit_append`, `placed_all`, `foldlM_keeps`, `foldlM_last`.
-/
import Mathlib.Logic.Function.Basic
import Mathlib.Tactic.Common

namespace Image

variable {σ ι α β : Type*}

/-! ### Blocks -/

/-- The `n` cells from `a` on are replaced by `g 0`, `g 1` and so on. -/
def blit (a n : ℕ) (g m : ℕ → β) : ℕ → β := fun b => if a ≤ b ∧ b < a + n then g (b - a) else m b

theorem blit_inside {a n j : ℕ} (g m : ℕ → β) (hj : j < n) : blit a n g m (a + j) = g j := by
  unfold blit
  rw [if_pos (by omega), Nat.add_sub_cancel_left]

theorem blit_outside {a n b : ℕ} (g m : ℕ → β) (hb : b < a ∨ a + n ≤ b) : blit a n g m b = m b := by
  unfold blit
  exact if_neg (by omega)

@[simp] theorem blit_zero (a : ℕ) (g m : ℕ → β) : blit a 0 g m = m := by
  funext b
  exact blit_outside g m (by omega)

theorem blit_succ (a n : ℕ) (g m : ℕ → β) : blit a (n + 1) g m = Function.update (blit a n g m) (a + n) (g n) := by
  funext b
  by_cases hb : b = a + n
  · rw [hb, Function.update_self, blit_inside g m (Nat.lt_succ_self n)]
  · rw [Function.update_of_ne hb]
    unfold blit
    by_cases hin : a ≤ b ∧ b < a + n
    · rw [if_pos hin, if_pos (by omega)]
    · rw [if_neg hin, if_neg (by omega)]

/-- Two blocks, the second one behind the first. -/
theorem blit_append (a n k : ℕ) (g m : ℕ → β) :
    blit (a + n) k (fun j => g (n + j)) (blit a n g m) = blit a (n + k) g m := by
  induction k with
  | zero => rw [blit_zero, Nat.add_zero]
  | succ k ih => rw [blit_succ, ih, ← Nat.add_assoc, blit_succ, Nat.add_assoc]

theorem blit_congr {a n : ℕ} {g g' : ℕ → β} (m : ℕ → β) (h : ∀ j < n, g j = g' j) : blit a n g m = blit a n g' m := by
  funext b
  unfold blit
  split
  · exact h _ (by omega)
  · rfl

/-! ### Segments -/

/-- What a segment wants at its place `j`: `filesz` bytes of the file from
`off` on, and then zeros. -/
def content [OfNat β 0] (file : ℕ → β) (off filesz memsz j : ℕ) : Option β :=
  if j < filesz then some (file (off + j)) else if j < memsz then some 0 else none

theorem content_lt [OfNat β 0] {file : ℕ → β} {off filesz memsz j : ℕ} {x : β} (hle : filesz ≤ memsz)
    (h : content file off filesz memsz j = some x) : j < memsz := by
  unfold content at h
  split at h
  · omega
  · split at h
    · assumption
    · cases h

/-! ### Pieces -/

/-- Piece `i` is loaded: what it wants is in place, and outside its footprint
nothing has changed. -/
structure Places (view : σ → α → β) (foot : ι → α → Prop) (want : ι → α → Option β) (i : ι) (s s' : σ) : Prop where
  inside : ∀ a x, want i a = some x → view s' a = x
  outside : ∀ a, ¬ foot i a → view s' a = view s a

/-- **Pieces with disjoint footprints do not damage each other.** -/
theorem placed_all {view : σ → α → β} {foot : ι → α → Prop} {want : ι → α → Option β} {step : σ → ι → Option σ}
    {I : σ → Prop} {l : List ι} (hsub : ∀ i ∈ l, ∀ a x, want i a = some x → foot i a)
    (hdis : l.Pairwise fun i j => ∀ a, foot i a → ¬ foot j a)
    (hstep : ∀ i ∈ l, ∀ s s', I s → step s i = some s' → I s' ∧ Places view foot want i s s') {s s' : σ} (hs : I s)
    (h : l.foldlM step s = some s') :
    I s' ∧ (∀ i ∈ l, ∀ a x, want i a = some x → view s' a = x) ∧
      ∀ a, (∀ i ∈ l, ¬ foot i a) → view s' a = view s a := by
  induction l generalizing s with
  | nil =>
    rw [List.foldlM_nil, Option.pure_def, Option.some.injEq] at h
    subst h
    exact ⟨hs, fun i hi => absurd hi List.not_mem_nil, fun _ _ => rfl⟩
  | cons i l ih =>
    rw [List.foldlM_cons, Option.bind_eq_bind, Option.bind_eq_some_iff] at h
    obtain ⟨t, hi, h⟩ := h
    rw [List.pairwise_cons] at hdis
    obtain ⟨ht, hplace⟩ := hstep i List.mem_cons_self s t hs hi
    obtain ⟨hI, hwant, hkeep⟩ := ih (fun j hj => hsub j (List.mem_cons_of_mem _ hj)) hdis.2
      (fun j hj => hstep j (List.mem_cons_of_mem _ hj)) ht h
    refine ⟨hI, fun j hj a x hx => ?_, fun a ha => ?_⟩
    · rcases List.mem_cons.mp hj with rfl | hj
      · -- the later pieces stay away from what this one wants
        have hfoot := hsub j List.mem_cons_self a x hx
        rw [hkeep a fun k hk => hdis.1 k hk a hfoot]
        exact hplace.inside a x hx
      · exact hwant j hj a x hx
    · rw [hkeep a fun k hk => ha k (List.mem_cons_of_mem _ hk)]
      exact hplace.outside a (ha i List.mem_cons_self)

/-- What every step keeps, a list of them keeps. -/
theorem foldlM_keeps {step : σ → ι → Option σ} {I : σ → Prop} {l : List ι}
    (hstep : ∀ i ∈ l, ∀ s s', I s → step s i = some s' → I s') {s s' : σ} (hs : I s) (h : l.foldlM step s = some s') :
    I s' := by
  induction l generalizing s with
  | nil =>
    rw [List.foldlM_nil, Option.pure_def, Option.some.injEq] at h
    exact h ▸ hs
  | cons i l ih =>
    rw [List.foldlM_cons, Option.bind_eq_bind, Option.bind_eq_some_iff] at h
    obtain ⟨t, hi, h⟩ := h
    exact ih (fun k hk => hstep k (List.mem_cons_of_mem _ hk)) (hstep i List.mem_cons_self s t hs hi) h

/-- What every step ends with holds after a list of them. -/
theorem foldlM_last {step : σ → ι → Option σ} {I J : σ → Prop} {l : List ι} (hne : l ≠ [])
    (hstep : ∀ i ∈ l, ∀ s s', I s → step s i = some s' → I s' ∧ J s') {s s' : σ} (hs : I s)
    (h : l.foldlM step s = some s') : J s' := by
  induction l generalizing s with
  | nil => exact absurd rfl hne
  | cons i l ih =>
    rw [List.foldlM_cons, Option.bind_eq_bind, Option.bind_eq_some_iff] at h
    obtain ⟨t, hi, h⟩ := h
    obtain ⟨ht, hj⟩ := hstep i List.mem_cons_self s t hs hi
    by_cases hl : l = []
    · rw [hl, List.foldlM_nil, Option.pure_def, Option.some.injEq] at h
      exact h ▸ hj
    · exact ih hl (fun k hk => hstep k (List.mem_cons_of_mem _ hk)) ht h

theorem foldlM_returns {step : σ → ι → Option σ} {I : σ → Prop} {l : List ι}
    (hstep : ∀ i ∈ l, ∀ s, I s → ∃ s', step s i = some s' ∧ I s') {s : σ} (hs : I s) :
    ∃ s', l.foldlM step s = some s' := by
  induction l generalizing s with
  | nil => exact ⟨s, rfl⟩
  | cons i l ih =>
    obtain ⟨t, hi, ht⟩ := hstep i List.mem_cons_self s hs
    obtain ⟨s', h⟩ := ih (fun k hk => hstep k (List.mem_cons_of_mem _ hk)) ht
    refine ⟨s', ?_⟩
    rw [List.foldlM_cons, hi]
    exact h

/-- A list of steps that can be followed one by one can be followed. -/
theorem foldlM_simulates {τ : Type*} {R : σ → τ → Prop} {f : σ → ι → Option σ} {g : τ → ι → Option τ} {l : List ι}
    (hstep : ∀ i ∈ l, ∀ s t s', R s t → f s i = some s' → ∃ t', g t i = some t' ∧ R s' t') {s s' : σ} {t : τ}
    (hR : R s t) (h : l.foldlM f s = some s') : ∃ t', l.foldlM g t = some t' ∧ R s' t' := by
  induction l generalizing s t with
  | nil =>
    rw [List.foldlM_nil, Option.pure_def, Option.some.injEq] at h
    subst h
    exact ⟨t, rfl, hR⟩
  | cons i l ih =>
    rw [List.foldlM_cons, Option.bind_eq_bind, Option.bind_eq_some_iff] at h
    obtain ⟨s1, hi, h⟩ := h
    obtain ⟨t1, hg, h1⟩ := hstep i List.mem_cons_self s t s1 hR hi
    obtain ⟨t', hl, hR'⟩ := ih (fun k hk => hstep k (List.mem_cons_of_mem _ hk)) h1 h
    refine ⟨t', ?_, hR'⟩
    rw [List.foldlM_cons, hg]
    exact hl

end Image
