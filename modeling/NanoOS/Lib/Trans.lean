/-
# Transition systems, their runs, and history variables

A system is a partial step function on states and actions. `Reach` collects
the states of its runs when every action is one that `ok` admits in the
state it is taken in; `Reach.invariant` is the induction over a run. A
history variable (`withHistory`) records what a run did without being read
by the system.

Key definitions: `Reach`, `withHistory`, `exec`, `Throughout`, `Along`.
Key theorems: `Reach.invariant`, `Reach.of_exec`, `Along.countP_le`.
-/
import Mathlib.Tactic.Common

namespace Trans

variable {σ α γ : Type*}

/-- The states reached from `init` by steps that `ok` admits. -/
inductive Reach (step : σ → α → Option σ) (ok : σ → α → Prop) (init : σ) : σ → Prop
  | init : Reach step ok init init
  | step {s s' : σ} {a : α} : Reach step ok init s → ok s a → step s a = some s' →
      Reach step ok init s'

section

variable {step : σ → α → Option σ} {ok ok' : σ → α → Prop} {init s : σ}

/-- What holds at the start and is kept by every admitted step holds
throughout the run. -/
theorem Reach.invariant {I : σ → Prop} (h : Reach step ok init s) (h0 : I init)
    (hstep : ∀ s a s', I s → ok s a → step s a = some s' → I s') : I s := by
  induction h with
  | init => exact h0
  | step _ hok hst ih => exact hstep _ _ _ ih hok hst

theorem Reach.mono (h : Reach step ok init s) (hle : ∀ s a, ok s a → ok' s a) :
    Reach step ok' init s := by
  induction h with
  | init => exact .init
  | step _ hok hst ih => exact .step ih (hle _ _ hok) hst

theorem Reach.trans {t : σ} (h : Reach step ok init s) (h' : Reach step ok s t) : Reach step ok init t := by
  induction h' with
  | init => exact h
  | step _ hok hst ih => exact .step ih hok hst

end

/-! ### History variables -/

/-- The system that also updates a history variable. -/
def withHistory (step : σ → α → Option σ) (upd : σ → α → γ → γ) : σ × γ → α → Option (σ × γ) :=
  fun p a => (step p.1 a).map fun s' => (s', upd p.1 a p.2)

theorem withHistory_eq_some {step : σ → α → Option σ} {upd : σ → α → γ → γ} {p p' : σ × γ} {a : α} :
    withHistory step upd p a = some p' ↔ step p.1 a = some p'.1 ∧ p'.2 = upd p.1 a p.2 := by
  obtain ⟨s', g'⟩ := p'
  simp only [withHistory, Option.map_eq_some_iff, Prod.mk.injEq]
  constructor
  · rintro ⟨t, ht, rfl, rfl⟩
    exact ⟨ht, rfl⟩
  · rintro ⟨ht, rfl⟩
    exact ⟨s', ht, rfl, rfl⟩

theorem Reach.stepHistory {step : σ → α → Option σ} {upd : σ → α → γ → γ} {ok : σ × γ → α → Prop} {p : σ × γ}
    {s s' : σ} {g : γ} {a : α} (h : Reach (withHistory step upd) ok p (s, g)) (hok : ok (s, g) a)
    (hs : step s a = some s') : Reach (withHistory step upd) ok p (s', upd s a g) :=
  h.step hok (withHistory_eq_some.mpr ⟨hs, rfl⟩)

/-! ### Runs on a list of actions -/

/-- The run on a list of actions, as long as `ok` admits them. -/
def exec (step : σ → α → Option σ) (ok : σ → α → Prop) [∀ s a, Decidable (ok s a)] :
    σ → List α → Option σ
  | s, [] => some s
  | s, a :: as => if ok s a then (step s a).bind fun s' => exec step ok s' as else none

theorem Reach.of_exec {step : σ → α → Option σ} {ok : σ → α → Prop} [∀ s a, Decidable (ok s a)]
    {init t : σ} : ∀ {as : List α} {s : σ}, Reach step ok init s → exec step ok s as = some t →
      Reach step ok init t
  | [], _, hr, h => by
    simp only [exec, Option.some.injEq] at h
    exact h ▸ hr
  | a :: as, s, hr, h => by
    simp only [exec] at h
    split at h
    · rename_i hok
      rw [Option.bind_eq_some_iff] at h
      obtain ⟨s', hs, h⟩ := h
      exact Reach.of_exec (.step hr hok hs) h
    · exact absurd h (by simp)

/-- `P` holds in every state of the run on a list of actions. -/
def Throughout (step : σ → α → Option σ) (P : σ → Prop) : σ → List α → Prop
  | s, [] => P s
  | s, a :: as => P s ∧ ∀ s', step s a = some s' → Throughout step P s' as

/-- The run on a list of actions goes through, and `R` holds of each of its
steps. -/
def Along (step : σ → α → Option σ) (R : σ → α → σ → Prop) : σ → List α → Prop
  | _, [] => True
  | s, a :: as => ∃ s', step s a = some s' ∧ R s a s' ∧ Along step R s' as

/-- A rank that no step raises and every counted step lowers bounds how many
counted steps a run has. -/
theorem Along.countP_le {step : σ → α → Option σ} {R : σ → α → σ → Prop} {I : σ → Prop} {rank : σ → ℕ}
    {c : α → Bool} (hinv : ∀ s a s', I s → R s a s' → step s a = some s' → I s')
    (hle : ∀ s a s', I s → R s a s' → step s a = some s' → rank s' + (if c a then 1 else 0) ≤ rank s) :
    ∀ {as : List α} {s : σ}, I s → Along step R s as → as.countP c ≤ rank s
  | [], _, _, _ => by simp
  | a :: as, s, hI, h => by
    obtain ⟨s', hs, hR, h⟩ := h
    have ih := Along.countP_le hinv hle (hinv s a s' hI hR hs) h
    have hone := hle s a s' hI hR hs
    rw [List.countP_cons]
    omega

/-- A run that ends in a state with a property, by evaluation. -/
theorem Reach.exists_of_exec {step : σ → α → Option σ} {ok : σ → α → Prop} [∀ s a, Decidable (ok s a)]
    {init : σ} {P : σ → Prop} [DecidablePred P] (as : List α)
    (h : (exec step ok init as).any (fun s => decide (P s)) = true) : ∃ s, Reach step ok init s ∧ P s := by
  cases hs : exec step ok init as with
  | none => simp [hs] at h
  | some s =>
    rw [hs] at h
    exact ⟨s, Reach.of_exec .init hs, of_decide_eq_true h⟩

end Trans
