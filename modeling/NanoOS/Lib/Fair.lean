/-
# Fair runs

An infinite run of a system is fair to an action when the action does not stay
possible forever without being taken. `LeadsTo P Q` says that after every state
with `P` there comes one with `Q`; `FairRun.leadsTo` is the rule for one action
that brings `Q` about, and the rest is composition.

Key definitions: `FairRun`, `LeadsTo`.
Key theorems: `FairRun.leadsTo`, `LeadsTo.trans`, `LeadsTo.descend`,
`exists_fairRun`.
-/
import NanoOS.Lib.Trans

namespace Trans

variable {σ α : Type*}

/-- An infinite run by steps that `ok` admits, from `init`, that is fair to
the actions in `fair`. -/
structure FairRun (step : σ → α → Option σ) (ok : σ → α → Prop) (fair : α → Prop) (init : σ) where
  state : ℕ → σ
  act : ℕ → α
  start : state 0 = init
  next : ∀ i, step (state i) (act i) = some (state (i + 1))
  admitted : ∀ i, ok (state i) (act i)
  justice : ∀ a, fair a → ∀ i, ∃ j, i ≤ j ∧ (act j = a ∨ step (state j) a = none)

/-- After a state with `P` comes one with `Q`. -/
def LeadsTo (f : ℕ → σ) (P Q : σ → Prop) : Prop := ∀ i, P (f i) → ∃ j, i ≤ j ∧ Q (f j)

namespace LeadsTo

variable {f : ℕ → σ} {P Q R : σ → Prop}

theorem of_imp (h : ∀ s, P s → Q s) : LeadsTo f P Q := fun i hi => ⟨i, Nat.le_refl i, h _ hi⟩

theorem trans (h : LeadsTo f P Q) (h' : LeadsTo f Q R) : LeadsTo f P R := by
  intro i hi
  obtain ⟨j, hij, hj⟩ := h i hi
  obtain ⟨k, hjk, hk⟩ := h' j hj
  exact ⟨k, Nat.le_trans hij hjk, hk⟩

theorem or (h : LeadsTo f P R) (h' : LeadsTo f Q R) : LeadsTo f (fun s => P s ∨ Q s) R := by
  intro i hi
  rcases hi with hi | hi
  · exact h i hi
  · exact h' i hi

theorem iExists {ι : Sort*} {P : ι → σ → Prop} (h : ∀ x, LeadsTo f (P x) Q) :
    LeadsTo f (fun s => ∃ x, P x s) Q := by
  intro i hi
  obtain ⟨x, hx⟩ := hi
  exact h x i hx

/-- A measure that goes down until `Q` holds. -/
theorem descend {P : ℕ → σ → Prop} (h0 : LeadsTo f (P 0) Q)
    (h : ∀ n, LeadsTo f (P (n + 1)) fun s => P n s ∨ Q s) (n : ℕ) : LeadsTo f (P n) Q := by
  induction n with
  | zero => exact h0
  | succ n ih => exact (h n).trans (ih.or (of_imp fun _ hq => hq))

end LeadsTo

namespace FairRun

variable {step : σ → α → Option σ} {ok : σ → α → Prop} {fair : α → Prop} {init : σ}

theorem reach (ρ : FairRun step ok fair init) (i : ℕ) : Reach step ok init (ρ.state i) := by
  induction i with
  | zero =>
    rw [ρ.start]
    exact .init
  | succ i ih => exact .step ih (ρ.admitted i) (ρ.next i)

/-- The action `a` is possible while `P` holds and brings about `Q`; the other
actions do not end `P` except by `Q`. -/
theorem leadsTo (ρ : FairRun step ok fair init) {I P Q : σ → Prop} {a : α} (hI : ∀ i, I (ρ.state i)) (ha : fair a)
    (henabled : ∀ s, I s → P s → step s a ≠ none)
    (hact : ∀ s s', I s → P s → ok s a → step s a = some s' → Q s')
    (hother : ∀ s b s', I s → P s → ok s b → step s b = some s' → P s' ∨ Q s') : LeadsTo ρ.state P Q := by
  intro i hi
  obtain ⟨j, hij, hj⟩ := ρ.justice a ha i
  -- up to `j`, either `P` has held all along or `Q` has come
  have hwalk : ∀ d, P (ρ.state (i + d)) ∨ ∃ k, i ≤ k ∧ Q (ρ.state k) := by
    intro d
    induction d with
    | zero => exact Or.inl hi
    | succ d ih =>
      rcases ih with hd | hq
      · rcases hother _ _ _ (hI _) hd (ρ.admitted _) (ρ.next _) with hp | hq
        · exact Or.inl hp
        · exact Or.inr ⟨i + d + 1, by omega, hq⟩
      · exact Or.inr hq
  rcases hwalk (j - i) with hp | hq
  · rw [Nat.add_sub_cancel' hij] at hp
    rcases hj with hact' | hnone
    · have hnext := ρ.next j
      have hok := ρ.admitted j
      rw [hact'] at hnext hok
      exact ⟨j + 1, by omega, hact _ _ (hI j) hp hok hnext⟩
    · exact absurd hnone (henabled _ (hI j) hp)
  · exact hq

end FairRun

/-! ### Fair runs exist -/

section

variable (step : σ → α → Option σ) (a₀ : α) (turn : ℕ → α)

/-- The action in turn if it is possible, else `a₀`. -/
def pick (s : σ) (i : ℕ) : α := if (step s (turn i)).isSome then turn i else a₀

/-- The states when the actions take turns. -/
def turnState (init : σ) : ℕ → σ
  | 0 => init
  | i + 1 => (step (turnState init i) (pick step a₀ turn (turnState init i) i)).getD (turnState init i)

end

/-- If one action is always possible and the fair ones take turns, there is a
fair run from every state. -/
theorem exists_fairRun {step : σ → α → Option σ} {ok : σ → α → Prop} {fair : α → Prop} (a₀ : α) (turn : ℕ → α)
    (hidle : ∀ s, (step s a₀).isSome) (hok₀ : ∀ s, ok s a₀) (hok : ∀ s i, ok s (turn i))
    (hturn : ∀ a, fair a → ∀ i, ∃ j, i ≤ j ∧ turn j = a) (init : σ) : Nonempty (FairRun step ok fair init) := by
  have hpick : ∀ s i, (step s (pick step a₀ turn s i)).isSome := by
    intro s i
    unfold pick
    split
    · assumption
    · exact hidle s
  refine ⟨⟨turnState step a₀ turn init, fun i => pick step a₀ turn (turnState step a₀ turn init i) i, rfl,
    fun i => ?_, fun i => ?_, fun a ha i => ?_⟩⟩
  · obtain ⟨s', hs⟩ := Option.isSome_iff_exists.mp (hpick (turnState step a₀ turn init i) i)
    rw [turnState, hs, Option.getD_some]
  · unfold pick
    split
    · exact hok _ i
    · exact hok₀ _
  · obtain ⟨j, hij, hj⟩ := hturn a ha i
    refine ⟨j, hij, ?_⟩
    unfold pick
    rw [hj]
    split
    · exact Or.inl rfl
    · rename_i hnone
      exact Or.inr (Option.not_isSome_iff_eq_none.mp hnone)

end Trans
