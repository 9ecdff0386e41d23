/-
# Requests to the IDE driver are served

In a run that is fair to the driver and to the disk every request is served:
the driver gets to the end of what it is doing, since a task issues finitely
many commands and each of them is answered, and then it takes the next
message. Messages that arrive meanwhile come after those that are there.

Key definitions: `Behind`, `Fair`.
Key theorems: `busy_leadsTo_loop`, `served_eventually`, `no_stray_interrupt`.
-/
import NanoOS.Lib.Fair
import NanoOS.Drivers.Ide.Thread

namespace NanoOS
namespace Ide

open Trans Queue

variable {ide : ℤ} {p : Request → Bool} {K n : ℕ} {x x' : Machine × History}

/-- The driver and the disk get their turns. -/
def Fair (a : Machine.Action) : Prop := a = .driver ∨ a = .irq

/-- `K` messages with `p` are served by the time that `n` messages of the
mailbox are. -/
def Behind (p : Request → Bool) (K n : ℕ) (x : Machine × History) : Prop :=
  ∃ l₁ l₂, x.1.box = l₁ ++ l₂ ∧ l₁.length ≤ n ∧
    K ≤ (x.2.served.map Served.request).countP p + x.1.service.countP p + l₁.countP p

/-- `K` messages with `p` were served. -/
def ServedK (p : Request → Bool) (K : ℕ) (x : Machine × History) : Prop :=
  K ≤ (x.2.served.map Served.request).countP p

/-- What a step of the others leaves alone. -/
structure Frame (x x' : Machine × History) : Prop where
  control : x'.1.control = x.1.control
  served : x'.2.served = x.2.served
  box : ∃ new, x'.1.box = x.1.box ++ new
  outstanding : x.1.outstanding = none → x'.1.outstanding = none

theorem frame_step {a : Machine.Action} (ha : a ≠ .driver) (hs : histStep ide x a = some x') : Frame x x' := by
  obtain ⟨hs, hg⟩ := withHistory_eq_some.mp hs
  cases a with
  | request r =>
    unfold Machine.step at hs
    rw [Option.some.injEq] at hs
    exact ⟨by rw [← hs], by rw [hg]; rfl, ⟨[r], by rw [← hs]⟩, by rw [← hs]; exact id⟩
  | tick =>
    unfold Machine.step Machine.timeIntr at hs
    rw [Option.some.injEq] at hs
    refine ⟨by rw [← hs], ?_, ?_, by rw [← hs]; exact id⟩
    · rw [hg]
      unfold record
      dsimp only
      split
      · rfl
      · rfl
    · rw [← hs]
      dsimp only
      split
      · exact ⟨_, rfl⟩
      · exact ⟨[], (List.append_nil _).symm⟩
  | irq =>
    unfold Machine.step Machine.irq14 at hs
    dsimp only at hs
    rw [Option.map_eq_some_iff] at hs
    obtain ⟨c, hc, hs⟩ := hs
    refine ⟨by rw [← hs]; rfl, ?_, ⟨[intr ide ideReady], by rw [← hs]; rfl⟩, fun _ => by rw [← hs]; rfl⟩
    rw [hg]
    unfold record
    rw [hc]
  | driver => exact absurd rfl ha

theorem outstanding_step {a : Machine.Action} (ha : a ≠ .driver) (ha' : a ≠ .irq)
    (hs : histStep ide x a = some x') : x'.1.outstanding = x.1.outstanding := by
  obtain ⟨hs, -⟩ := withHistory_eq_some.mp hs
  cases a with
  | request r =>
    unfold Machine.step at hs
    rw [Option.some.injEq] at hs
    rw [← hs]
  | tick =>
    unfold Machine.step Machine.timeIntr at hs
    rw [Option.some.injEq] at hs
    rw [← hs]
  | irq => exact absurd rfl ha'
  | driver => exact absurd rfl ha

theorem Behind.frame (h : Behind p K n x) (hf : Frame x x') : Behind p K n x' := by
  obtain ⟨l₁, l₂, hbox, hlen, hK⟩ := h
  obtain ⟨new, hnew⟩ := hf.box
  refine ⟨l₁, l₂ ++ new, by rw [hnew, hbox, List.append_assoc], hlen, ?_⟩
  unfold Machine.service at hK ⊢
  rw [hf.control, hf.served]
  exact hK

theorem Behind.takeFirst {q : Request → Bool} {m : Request} {box : List Request} (h : Behind p K n x)
    (ht : takeFirst q x.1.box = some (m, box)) (hm : p m = false) (hbox : x'.1.box = box)
    (hserved : x'.2.served = x.2.served) (hservice : x'.1.service = x.1.service) : Behind p K n x' := by
  obtain ⟨l₁, l₂, hl, hlen, hK⟩ := h
  rw [hl, takeFirst_append] at ht
  cases h₁ : Queue.takeFirst q l₁ with
  | some y =>
    obtain ⟨m', rest⟩ := y
    simp only [h₁, Option.some.injEq, Prod.mk.injEq] at ht
    obtain ⟨rfl, rfl⟩ := ht
    have hcount := takeFirst_countP (q := p) h₁
    have hlength := takeFirst_countP (q := fun _ => true) h₁
    rw [hm] at hcount
    simp only [List.countP_true, if_true, Bool.false_eq_true, if_false] at hcount hlength
    refine ⟨rest, l₂, hbox, by omega, ?_⟩
    rw [hserved, hservice]
    omega
  | none =>
    simp only [h₁, Option.map_eq_some_iff] at ht
    obtain ⟨y, -, hy⟩ := ht
    rw [Prod.mk.injEq] at hy
    refine ⟨l₁, y.2, by rw [hbox, ← hy.2], hlen, ?_⟩
    rw [hserved, hservice]
    exact hK

theorem Behind.driver (h : Behind p K n x) (hp : Spares p x.1 .driver) (hs : DriverStep ide x.1 x.2 x'.1 x'.2)
    (hloop : x.1.control ≠ .loop) : Behind p K n x' := by
  obtain ⟨s', g'⟩ := x'
  cases hs with
  | take r box t hc => exact absurd hc hloop
  | reply r o hc =>
    obtain ⟨l₁, l₂, hbox, hlen, hK⟩ := h
    refine ⟨l₁, l₂, hbox, hlen, ?_⟩
    unfold Machine.service at hK ⊢
    rw [hc] at hK
    rw [List.map_append, List.countP_append]
    exact hK
  | issue r c d k hc =>
    obtain ⟨l₁, l₂, hbox, hlen, hK⟩ := h
    refine ⟨l₁, l₂, hbox, hlen, ?_⟩
    unfold Machine.service at hK ⊢
    rw [hc] at hK
    exact hK
  | finish r c k m box hc ht hm =>
    refine h.takeFirst ht (hp.wait hc ht) rfl rfl ?_
    unfold Machine.service
    rw [hc]
  | drop r c k m box hc ht hm => exact h.takeFirst ht (hp.wait hc ht) rfl rfl rfl

/-- At the head of the loop, either everything is served that was to be, or
the next message is taken. -/
theorem Behind.take (h : Behind p K n x) (hc : x.1.control = .loop) (hK : ¬ ServedK p K x) :
    ∃ m, n = m + 1 ∧ ∃ r l₁ l₂, x.1.box = r :: (l₁ ++ l₂) ∧ l₁.length ≤ m ∧
      K ≤ (x.2.served.map Served.request).countP p + [r].countP p + l₁.countP p := by
  obtain ⟨l₁, l₂, hbox, hlen, hle⟩ := h
  unfold Machine.service at hle
  rw [hc, List.countP_nil, Nat.add_zero] at hle
  cases l₁ with
  | nil => exact absurd hle hK
  | cons r l₁ =>
    rw [List.length_cons] at hlen
    refine ⟨n - 1, by omega, r, l₁, l₂, hbox, by omega, ?_⟩
    rw [List.countP_cons] at hle
    rw [List.countP_singleton]
    omega

/-! ### The phases -/

/-- At the head of the loop. -/
def AtLoop (p : Request → Bool) (K n : ℕ) (x : Machine × History) : Prop :=
  Behind p K n x ∧ x.1.control = .loop

/-- With task `t`. -/
def AtBusy (p : Request → Bool) (K n : ℕ) (t : Task) (x : Machine × History) : Prop :=
  Behind p K n x ∧ ∃ r, x.1.control = .busy r t

/-- In the wait loop of a command that the disk is at. -/
def AtIssued (p : Request → Bool) (K n : ℕ) (k : Drive → Task) (x : Machine × History) : Prop :=
  Behind p K n x ∧ (∃ r c, x.1.control = .wait r c k) ∧ x.1.outstanding ≠ none

/-- In the wait loop of a command that is over, with at most `m` messages of
interrupt handlers up to the one that ends it. -/
def AtRaised (p : Request → Bool) (K n : ℕ) (k : Drive → Task) (m : ℕ) (x : Machine × History) : Prop :=
  Behind p K n x ∧ (∃ r c, x.1.control = .wait r c k) ∧ x.1.outstanding = none ∧
    ∃ l₁ l₂, x.1.box = l₁ ++ l₂ ∧ l₁.countP Request.hardIntr ≤ m ∧ 0 < l₁.countP Request.ready

section

variable {ok : Machine × History → Machine.Action → Prop} {x₀ : Machine × History}
  (ρ : FairRun (histStep ide) ok Fair x₀)
  (hI : ∀ i, Inv ide (ρ.state i).1 (ρ.state i).2)
  (hok : ∀ x a, ok x a → x.1.Admitted a ∧ Spares p x.1 a)

include hI hok

theorem leadsTo_driver {P Q : Machine × History → Prop}
    (henabled : ∀ x, Inv ide x.1 x.2 → P x → x.1.driver ide ≠ none)
    (hact : ∀ x x', Inv ide x.1 x.2 → P x → Spares p x.1 .driver → DriverStep ide x.1 x.2 x'.1 x'.2 → Q x')
    (hframe : ∀ x x', P x → Frame x x' → P x') : LeadsTo ρ.state P Q := by
  have hstep : ∀ x x', Inv ide x.1 x.2 → P x → ok x .driver → histStep ide x .driver = some x' → Q x' := by
    intro x x' hx hP hadm hs
    obtain ⟨hs, hg⟩ := withHistory_eq_some.mp hs
    refine hact x x' hx hP (hok x _ hadm).2 ?_
    rw [hg]
    exact hx.driverStep hs
  refine ρ.leadsTo (I := fun x => Inv ide x.1 x.2) (a := .driver) hI (Or.inl rfl) ?_ hstep ?_
  · intro x hx hP hnone
    exact henabled x hx hP (Option.map_eq_none_iff.mp hnone)
  · intro x b x' hx hP hadm hs
    by_cases hb : b = .driver
    · rw [hb] at hadm hs
      exact Or.inr (hstep x x' hx hP hadm hs)
    · exact Or.inl (hframe x x' hP (frame_step hb hs))

theorem loop_leadsTo_busy (n : ℕ) : LeadsTo ρ.state (fun x => AtLoop p K (n + 1) x ∧ ¬ ServedK p K x)
    fun x => ∃ t, AtBusy p K n t x := by
  refine leadsTo_driver ρ hI hok ?_ ?_ ?_
  · intro x hx hP hnone
    obtain ⟨-, -, r, l₁, l₂, hbox, -⟩ := hP.1.1.take hP.1.2 hP.2
    unfold Machine.driver at hnone
    rw [hP.1.2, hbox] at hnone
    dsimp only at hnone
    split at hnone
    · cases hnone
    · cases hnone
  · intro x x' hx hP _ hs
    obtain ⟨m, hm, r, l₁, l₂, hbox, hlen, hle⟩ := hP.1.1.take hP.1.2 hP.2
    obtain ⟨s', g'⟩ := x'
    cases hs with
    | take r' box t hc hb hserve =>
      rw [hbox, List.cons.injEq] at hb
      obtain ⟨rfl, rfl⟩ := hb
      exact ⟨t, ⟨l₁, l₂, rfl, by omega, hle⟩, r, rfl⟩
    | reply r o hc => exact absurd (hP.1.2.symm.trans hc) (by simp)
    | issue r c d k hc => exact absurd (hP.1.2.symm.trans hc) (by simp)
    | finish r c k m box hc => exact absurd (hP.1.2.symm.trans hc) (by simp)
    | drop r c k m box hc => exact absurd (hP.1.2.symm.trans hc) (by simp)
  · intro x x' hP hf
    refine ⟨⟨hP.1.1.frame hf, hf.control.trans hP.1.2⟩, ?_⟩
    unfold ServedK
    rw [hf.served]
    exact hP.2

theorem done_leadsTo_loop (n : ℕ) (o : Outcome) :
    LeadsTo ρ.state (AtBusy p K n (.done o)) (AtLoop p K n) := by
  refine leadsTo_driver ρ hI hok ?_ ?_ ?_
  · intro x hx hP hnone
    obtain ⟨-, r, hc⟩ := hP
    unfold Machine.driver at hnone
    rw [hc] at hnone
    cases hnone
  · intro x x' hx hP hsp hs
    obtain ⟨hbehind, r, hc⟩ := hP
    have hkeep := hbehind.driver hsp hs (by rw [hc]; simp)
    obtain ⟨s', g'⟩ := x'
    refine ⟨hkeep, ?_⟩
    cases hs with
    | take r' box t hc' => exact absurd (hc.symm.trans hc') (by simp)
    | reply r' o' hc' => rfl
    | issue r' c d k hc' => exact absurd (hc.symm.trans hc') (by simp)
    | finish r' c k m box hc' => exact absurd (hc.symm.trans hc') (by simp)
    | drop r' c k m box hc' => exact absurd (hc.symm.trans hc') (by simp)
  · intro x x' hP hf
    obtain ⟨hbehind, r, hc⟩ := hP
    exact ⟨hbehind.frame hf, r, hf.control.trans hc⟩

theorem issue_leadsTo_issued (n : ℕ) (c : Command) (d : Drive) (k : Drive → Task) :
    LeadsTo ρ.state (AtBusy p K n (.issue c d k)) (AtIssued p K n k) := by
  refine leadsTo_driver ρ hI hok ?_ ?_ ?_
  · intro x hx hP hnone
    obtain ⟨-, r, hc⟩ := hP
    obtain ⟨cs, hphase⟩ := hx.phase
    unfold Machine.driver at hnone
    rw [hc] at hnone
    dsimp only at hnone
    rw [(hphase.of_busy hc).1, if_pos Option.isNone_none] at hnone
    cases hnone
  · intro x x' hx hP hsp hs
    obtain ⟨hbehind, r, hc⟩ := hP
    have hkeep := hbehind.driver hsp hs (by rw [hc]; simp)
    obtain ⟨s', g'⟩ := x'
    refine ⟨hkeep, ?_⟩
    cases hs with
    | take r' box t hc' => exact absurd (hc.symm.trans hc') (by simp)
    | reply r' o' hc' => exact absurd (hc.symm.trans hc') (by simp)
    | issue r' c' d' k' hc' =>
      rw [hc, Control.busy.injEq, Task.issue.injEq] at hc'
      obtain ⟨rfl, rfl, rfl, rfl⟩ := hc'
      exact ⟨⟨r, c, rfl⟩, by simp⟩
    | finish r' c' k' m box hc' => exact absurd (hc.symm.trans hc') (by simp)
    | drop r' c' k' m box hc' => exact absurd (hc.symm.trans hc') (by simp)
  · intro x x' hP hf
    obtain ⟨hbehind, r, hc⟩ := hP
    exact ⟨hbehind.frame hf, r, hf.control.trans hc⟩

theorem issued_leadsTo_raised (n : ℕ) (k : Drive → Task) :
    LeadsTo ρ.state (AtIssued p K n k) fun x => ∃ m, AtRaised p K n k m x := by
  have hirq : ∀ x x', AtIssued p K n k x → histStep ide x .irq = some x' → ∃ m, AtRaised p K n k m x' := by
    intro x x' hP hs
    obtain ⟨hbehind, ⟨r, c, hc⟩, ho⟩ := hP
    have hf := frame_step (show Machine.Action.irq ≠ .driver by simp) hs
    have hs' := (withHistory_eq_some.mp hs).1
    unfold Machine.step Machine.irq14 at hs'
    dsimp only at hs'
    rw [Option.map_eq_some_iff] at hs'
    obtain ⟨c', -, hs'⟩ := hs'
    refine ⟨x'.1.box.countP Request.hardIntr, hbehind.frame hf, ⟨r, c, hf.control.trans hc⟩, ?_, x'.1.box, [],
      (List.append_nil _).symm, Nat.le_refl _, ?_⟩
    · rw [← hs']
      rfl
    · rw [← hs']
      unfold Machine.ideIntr
      rw [List.countP_append]
      exact Nat.lt_add_left _ (Nat.one_pos)
  refine ρ.leadsTo (I := fun x => Inv ide x.1 x.2) (a := .irq) hI (Or.inr rfl) ?_ ?_ ?_
  · intro x hx hP hnone
    have hnone' : x.1.irq14 ide = none := Option.map_eq_none_iff.mp hnone
    exact hP.2.2 (Option.map_eq_none_iff.mp hnone')
  · intro x x' hx hP _ hs
    exact hirq x x' hP hs
  · intro x b x' hx hP hadm hs
    by_cases hb : b = .irq
    · rw [hb] at hs
      exact Or.inr (hirq x x' hP hs)
    left
    obtain ⟨hbehind, ⟨r, c, hc⟩, ho⟩ := hP
    by_cases hb' : b = .driver
    · -- the wait loop takes a message that is not the disk's
      rw [hb'] at hs hadm
      obtain ⟨hs, hg⟩ := withHistory_eq_some.mp hs
      have hdrv := hx.driverStep hs
      rw [← hg] at hdrv
      have hkeep := hbehind.driver (hok x _ hadm).2 hdrv (by rw [hc]; simp)
      obtain ⟨s', g'⟩ := x'
      obtain ⟨cs, hphase⟩ := hx.phase
      refine ⟨hkeep, ?_⟩
      cases hdrv with
      | take r' box t hc' => exact absurd (hc.symm.trans hc') (by simp)
      | reply r' o' hc' => exact absurd (hc.symm.trans hc') (by simp)
      | issue r' c' d' k' hc' => exact absurd (hc.symm.trans hc') (by simp)
      | finish r' c' k' m box hc' ht hm =>
        have hcount := takeFirst_countP (q := Request.ready) ht
        rw [if_pos hm] at hcount
        rcases hphase.of_wait hc with ⟨-, hz, -⟩ | ⟨hnone, -⟩
        · omega
        · exact absurd hnone ho
      | drop r' c' k' m box hc' => exact ⟨⟨r, c, hc⟩, ho⟩
    · have hf := frame_step hb' hs
      exact ⟨hbehind.frame hf, ⟨r, c, hf.control.trans hc⟩, by rw [outstanding_step hb' hb hs]; exact ho⟩

omit hI hok in
theorem exists_takeFirst {l₁ l₂ : List Request} (h : 0 < l₁.countP Request.ready) : ∃ m rest,
    takeFirst Request.hardIntr l₁ = some (m, rest) ∧
      takeFirst Request.hardIntr (l₁ ++ l₂) = some (m, rest ++ l₂) := by
  cases ht : takeFirst Request.hardIntr l₁ with
  | some y =>
    refine ⟨y.1, y.2, rfl, ?_⟩
    rw [takeFirst_append, ht]
  | none =>
    obtain ⟨r, hr, hready⟩ := List.countP_pos_iff.mp h
    rw [Request.ready, takeFirst_eq_none ht r hr] at hready
    cases hready

theorem raised_leadsTo_busy (n : ℕ) (k : Drive → Task) (m : ℕ) :
    LeadsTo ρ.state (AtRaised p K n k m) fun x => ∃ d, AtBusy p K n (k d) x := by
  refine LeadsTo.descend ?_ (fun m => ?_) m
  · -- the message of the disk is among them
    refine LeadsTo.of_imp fun x hP => ?_
    obtain ⟨-, -, -, l₁, l₂, -, hzero, hready⟩ := hP
    have hle : l₁.countP Request.ready ≤ l₁.countP Request.hardIntr :=
      List.countP_mono_left fun r _ hr => (Bool.and_eq_true _ _ ▸ hr : _ ∧ _).1
    omega
  · refine leadsTo_driver ρ hI hok ?_ ?_ ?_
    · intro x hx hP hnone
      obtain ⟨-, ⟨r, c, hc⟩, -, l₁, l₂, hbox, -, hready⟩ := hP
      obtain ⟨m', rest, -, ht⟩ := @exists_takeFirst l₁ l₂ hready
      unfold Machine.driver at hnone
      rw [hc, hbox] at hnone
      dsimp only at hnone
      rw [ht] at hnone
      dsimp only at hnone
      split at hnone
      · cases hnone
      · cases hnone
    · intro x x' hx hP hsp hs
      obtain ⟨hbehind, ⟨r, c, hc⟩, ho, l₁, l₂, hbox, hcount, hready⟩ := hP
      obtain ⟨m', rest, ht₁, ht⟩ := @exists_takeFirst l₁ l₂ hready
      have hkeep := hbehind.driver hsp hs (by rw [hc]; simp)
      obtain ⟨s', g'⟩ := x'
      cases hs with
      | take r' box t hc' => exact absurd (hc.symm.trans hc') (by simp)
      | reply r' o' hc' => exact absurd (hc.symm.trans hc') (by simp)
      | issue r' c' d' k' hc' => exact absurd (hc.symm.trans hc') (by simp)
      | finish r' c' k' y box hc' ht' hm =>
        rw [hc, Control.wait.injEq] at hc'
        obtain ⟨rfl, rfl, rfl⟩ := hc'
        exact Or.inr ⟨x.1.drive, hkeep, r, rfl⟩
      | drop r' c' k' y box hc' ht' hm =>
        rw [hbox, ht, Option.some.injEq, Prod.mk.injEq] at ht'
        obtain ⟨rfl, rfl⟩ := ht'
        have hintr := takeFirst_countP (q := Request.hardIntr) ht₁
        have hready' := takeFirst_countP (q := Request.ready) ht₁
        rw [if_pos (takeFirst_eq_some ht₁).1] at hintr
        rw [if_neg (by rw [hm]; exact Bool.false_ne_true)] at hready'
        exact Or.inl ⟨hkeep, ⟨r, c, hc⟩, ho, rest, l₂, rfl, by omega, by omega⟩
    · intro x x' hP hf
      obtain ⟨hbehind, ⟨r, c, hc⟩, ho, l₁, l₂, hbox, hcount, hready⟩ := hP
      obtain ⟨new, hnew⟩ := hf.box
      exact ⟨hbehind.frame hf, ⟨r, c, hf.control.trans hc⟩, hf.outstanding ho, l₁, l₂ ++ new,
        by rw [hnew, hbox, List.append_assoc], hcount, hready⟩

/-- **The driver gets to the end of a task**, by induction on the task. -/
theorem busy_leadsTo_loop (n : ℕ) (t : Task) : LeadsTo ρ.state (AtBusy p K n t) (AtLoop p K n) := by
  induction t with
  | done o => exact done_leadsTo_loop ρ hI hok n o
  | issue c d k ih =>
    have hraised := (issued_leadsTo_raised ρ hI hok (K := K) n k).trans
      (LeadsTo.iExists fun m => raised_leadsTo_busy ρ hI hok n k m)
    exact (issue_leadsTo_issued ρ hI hok n c d k).trans (hraised.trans (LeadsTo.iExists ih))

theorem loop_leadsTo_served (n : ℕ) : LeadsTo ρ.state (AtLoop p K n) (ServedK p K) := by
  refine LeadsTo.descend ?_ (fun n => ?_) n
  · refine LeadsTo.of_imp fun x hP => ?_
    by_contra hK
    obtain ⟨m, hm, -⟩ := hP.1.take hP.2 hK
    omega
  · have hnext := (loop_leadsTo_busy ρ hI hok (K := K) n).trans
      (LeadsTo.iExists fun t => busy_leadsTo_loop ρ hI hok n t)
    intro i hi
    by_cases hK : ServedK p K (ρ.state i)
    · exact ⟨i, Nat.le_refl i, Or.inr hK⟩
    · obtain ⟨j, hij, hj⟩ := hnext i ⟨hi, hK⟩
      exact ⟨j, hij, Or.inl hj⟩

theorem behind_leadsTo_served (n : ℕ) : LeadsTo ρ.state (Behind p K n) (ServedK p K) := by
  intro i hi
  have hloop := loop_leadsTo_served ρ hI hok (K := K) n
  have hbusy : ∀ t, LeadsTo ρ.state (AtBusy p K n t) (ServedK p K) := fun t =>
    (busy_leadsTo_loop ρ hI hok n t).trans hloop
  have hraised : ∀ k m, LeadsTo ρ.state (AtRaised p K n k m) (ServedK p K) := fun k m =>
    (raised_leadsTo_busy ρ hI hok n k m).trans (LeadsTo.iExists fun d => hbusy (k d))
  obtain ⟨cs, hphase⟩ := (hI i).phase
  cases hphase with
  | loop hc => exact hloop i ⟨hi, hc⟩
  | busy r t hc => exact hbusy t i ⟨hi, r, hc⟩
  | issued r c k hc ho =>
    have hissued := (issued_leadsTo_raised ρ hI hok (K := K) n k).trans (LeadsTo.iExists fun m => hraised k m)
    exact hissued i ⟨hi, ⟨r, c, hc⟩, by rw [ho]; simp⟩
  | raised r c k hc ho hr =>
    exact hraised k _ i ⟨hi, ⟨r, c, hc⟩, ho, (ρ.state i).1.box, [], (List.append_nil _).symm, Nat.le_refl _,
      by rw [hr]; exact Nat.one_pos⟩

end

/-! ### Runs -/

theorem record_arrived (s : Machine) (a : Machine.Action) (g : History) :
    g.arrived <+: (record ide s a g).arrived := by
  cases a with
  | request r => exact List.prefix_append _ _
  | tick =>
    unfold record
    dsimp only
    split
    · exact List.prefix_append _ _
    · exact List.prefix_rfl
  | irq =>
    unfold record
    dsimp only
    split
    · exact List.prefix_rfl
    · exact List.prefix_rfl
  | driver =>
    unfold record
    dsimp only
    split
    · exact List.prefix_rfl
    · exact List.prefix_rfl
    · exact List.prefix_rfl
    · split
      · split
        · exact List.prefix_rfl
        · exact List.prefix_rfl
      · exact List.prefix_rfl
    · exact List.prefix_rfl

/-- **Messages that the wait loops spare are served**: in a fair run, all that
have arrived are served after a while, in the order of arrival. -/
theorem served_eventually (hready : ∀ r, r.ready = true → p r = false) {disk : ℕ → Sector}
    {ok : Machine × History → Machine.Action → Prop} (hok : ∀ x a, ok x a → x.1.Admitted a ∧ Spares p x.1 a)
    (h : Reach (histStep ide) ok (Machine.boot disk, .init (Drive.zero disk).cacheInit) x)
    (ρ : FairRun (histStep ide) ok Fair x) :
    ∃ i, x.2.arrived.filter p <+: ((ρ.state i).2.served.map Served.request).filter p := by
  have hI : ∀ i, Inv ide (ρ.state i).1 (ρ.state i).2 := fun i =>
    reach_inv (fun y a ha => (hok y a ha).1) (h.trans (ρ.reach i))
  have hacc : ∀ i, Accounted p (ρ.state i).1 (ρ.state i).2 := fun i =>
    reach_accounted hready hok (h.trans (ρ.reach i))
  have hbehind : Behind p (x.2.arrived.filter p).length x.1.box.length (ρ.state 0) := by
    refine ⟨x.1.box, [], by rw [ρ.start, List.append_nil], Nat.le_refl _, ?_⟩
    have h0 := congrArg List.length (hacc 0)
    rw [ρ.start] at h0 ⊢
    rw [h0, List.length_append, List.length_append, ← List.countP_eq_length_filter,
      ← List.countP_eq_length_filter, ← List.countP_eq_length_filter]
  obtain ⟨i, -, hi⟩ := behind_leadsTo_served ρ hI hok x.1.box.length 0 hbehind
  have hmono : x.2.arrived <+: (ρ.state i).2.arrived := by
    refine (ρ.reach i).invariant (I := fun y => x.2.arrived <+: y.2.arrived) List.prefix_rfl ?_
    intro y a y' hy _ hs
    rw [(withHistory_eq_some.mp hs).2]
    exact hy.trans (record_arrived y.1 a y.2)
  have hserved : ((ρ.state i).2.served.map Served.request).filter p <+: (ρ.state i).2.arrived.filter p := by
    rw [hacc i, List.append_assoc]
    exact List.prefix_append _ _
  refine ⟨i, List.prefix_of_prefix_length_le (hmono.filter p) hserved ?_⟩
  rw [← List.countP_eq_length_filter (l := (ρ.state i).2.served.map Served.request)]
  exact hi

/-- **The driver sees no stray interrupt.** Let any requests of threads, ticks
of the timer, interrupts of the disk and steps of the driver come in any order.
The driver does not panic; the events of the disk are, command after command,
its issue, its interrupt and the end of its wait loop; every request of a
thread that has arrived was served, is being served or is in the mailbox, in
the order of arrival, and what was served was served as by `serve`; and if the
driver and the disk get their turns, all that have arrived are served after a
while. -/
theorem no_stray_interrupt {disk : ℕ → Sector} {s : Machine} {g : History}
    (h : Reach (histStep ide) (fun x a => x.1.Admitted a)
      (Machine.boot disk, .init (Drive.zero disk).cacheInit) (s, g)) :
    (∀ e, s.control ≠ .panic e) ∧ (∃ cs : List Command, g.disk <+: cs.flatMap Command.events) ∧
      Accounted Request.client s g ∧ (∀ e ∈ g.served, serve ide e.request e.before = some e.outcome) ∧
      ∀ ρ : FairRun (histStep ide) (fun x a => x.1.Admitted a) Fair (s, g), ∃ i,
        g.arrived.filter Request.client <+: ((ρ.state i).2.served.map Served.request).filter Request.client := by
  have hready : ∀ r : Request, r.ready = true → r.client = false := by
    intro r hr
    rw [Request.ready, Bool.and_eq_true] at hr
    rw [Request.client, hr.1]
    rfl
  have hI := reach_inv (fun _ _ ha => ha) h
  obtain ⟨cs, hphase⟩ := hI.phase
  refine ⟨?_, ?_, reach_accounted hready (fun x a ha => ⟨ha, spares_client x.1 a⟩) h, hI.log,
    served_eventually hready (fun x a ha => ⟨ha, spares_client x.1 a⟩) h⟩
  · intro e he
    cases hphase with
    | loop hc => exact absurd (hc.symm.trans he) (by simp)
    | busy _ _ hc => exact absurd (hc.symm.trans he) (by simp)
    | issued _ _ _ hc => exact absurd (hc.symm.trans he) (by simp)
    | raised _ _ _ hc => exact absurd (hc.symm.trans he) (by simp)
  · cases hphase with
    | loop _ _ _ hd => exact ⟨cs, hd ▸ List.prefix_rfl⟩
    | busy _ _ _ _ _ hd => exact ⟨cs, hd ▸ List.prefix_rfl⟩
    | issued _ c _ _ _ _ hd =>
      refine ⟨cs ++ [c], ?_⟩
      rw [hd, List.flatMap_append, List.prefix_append_right_inj]
      exact List.prefix_append [DiskEvent.issued c] [DiskEvent.interrupt c, DiskEvent.returned c]
    | raised _ c _ _ _ _ hd =>
      refine ⟨cs ++ [c], ?_⟩
      rw [hd, List.flatMap_append, List.prefix_append_right_inj]
      exact List.prefix_append [DiskEvent.issued c, DiskEvent.interrupt c] [DiskEvent.returned c]

instance : ∀ (s : Machine) (a : Machine.Action), Decidable (s.Admitted a)
  | _, .request r => inferInstanceAs (Decidable r.Device)
  | _, .tick => inferInstanceAs (Decidable True)
  | _, .irq => inferInstanceAs (Decidable True)
  | _, .driver => inferInstanceAs (Decidable True)

/-- The driver and the disk take turns. -/
def alternate (i : ℕ) : Machine.Action := if i % 2 = 0 then .driver else .irq

theorem exists_fairRun_alternate (ide : ℤ) (x : Machine × History) :
    Nonempty (FairRun (histStep ide) (fun x a => x.1.Admitted a) Fair x) := by
  refine exists_fairRun .tick alternate (fun _ => rfl) (fun _ => trivial) ?_ ?_ x
  · intro y i
    unfold alternate
    split
    · exact trivial
    · exact trivial
  · intro a ha i
    rcases ha with rfl | rfl
    · exact ⟨2 * i, by omega, if_pos (by omega)⟩
    · exact ⟨2 * i + 1, by omega, if_neg (by omega)⟩

/-- A second request arrives while the driver waits for the disk; both are
served. -/
theorem no_stray_interrupt_two : ∃ x, Reach (histStep 3) (fun x a => x.1.Admitted a)
      (Machine.boot fun _ _ => 0, .init (Drive.zero fun _ _ => 0).cacheInit) x ∧
    (x.1.box.length = 1 ∧ x.1.outstanding.isSome = true) ∧
    ∃ ρ : FairRun (histStep 3) (fun x a => x.1.Admitted a) Fair x, ∃ i,
      2 ≤ (((ρ.state i).2.served.map Served.request).filter Request.client).length := by
  obtain ⟨⟨s, g⟩, hreach, hstate, htwo⟩ : ∃ x, Reach (histStep 3) (fun x a => x.1.Admitted a)
      (Machine.boot fun _ _ => 0, .init (Drive.zero fun _ _ => 0).cacheInit) x ∧
      (x.1.box.length = 1 ∧ x.1.outstanding.isSome = true) ∧ (x.2.arrived.filter Request.client).length = 2 :=
    Reach.exists_of_exec [.request (request devRead 0 1 0), .driver, .driver, .request (request devWrite 0 1 7)]
      (by decide +kernel)
  obtain ⟨ρ⟩ := exists_fairRun_alternate 3 (s, g)
  obtain ⟨-, -, -, -, hfair⟩ := no_stray_interrupt hreach
  obtain ⟨i, hi⟩ := hfair ρ
  refine ⟨(s, g), hreach, hstate, ρ, i, ?_⟩
  have hlen := hi.length_le
  rw [htwo] at hlen
  exact hlen

end Ide
end NanoOS
