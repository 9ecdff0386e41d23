/-
# `send` under preemption

`send` copies its message into `msg_pool[p_free]` before it calls `lock()`, and
reads `p_free` again to link the slot in. From the copy to the link the slot is
reserved by nothing: a `send` of an interrupt handler, or of another thread,
that copies in that window takes the same slot and moves the cursor on, and
the first `send` links the next slot, whatever that holds.

The history keeps the context that is in the window and what each linked slot
should hold. In a run in which nobody copies while somebody else is in the
window, every `send` links the slot it filled.

Key definitions: `RaceHist`, `races`, `Window`, `RaceInv`.
Key theorems: `RaceInv.step`, `send_links_its_message`.
-/
import NanoOS.Kernel.MailSem

namespace NanoOS
namespace Kernel

open Trans Ringlist Semaphore
open Sched (movedQ)

/-- What the sends did. -/
structure RaceHist where
  mail : MailHist
  /-- The context of the last `send` that has copied its message and not yet
  linked it. -/
  window : Option (Option ℕ)
  /-- The message given to the last `send` of a context, with its `dest` and
  `src` filled in. -/
  given : Option ℕ → MsgData
  /-- The message given to the `send` that linked the slot. -/
  content : ℕ → MsgData

namespace RaceHist

def init : RaceHist := ⟨MailHist.init, none, fun _ => MsgData.zero, fun _ => MsgData.zero⟩

/-- The history after a step. -/
def upd (k : Kernel) (a : Action) (h : RaceHist) : RaceHist :=
  let h' := { h with mail := MailHist.upd k a h.mail }
  match a, k.code with
  | .exec, .copyMsg dest x :: _ =>
    { h' with
      window := some k.cpu
      given := Function.update h.given k.cpu (Mail.stamp (k.pid k.sched.current) dest x).toMsgData }
  | .exec, .linkMsg _ _ _ :: _ =>
    { h' with window := none, content := Function.update h.content k.mail.pFree (h.given k.cpu) }
  | _, _ => h'

end RaceHist

/-- The machine with the history of its sends. -/
def raceStep : Kernel × RaceHist → Action → Option (Kernel × RaceHist) := withHistory step RaceHist.upd

/-- A `send` is about to copy its message while another one is between its
copy and its link. -/
def races (p : Kernel × RaceHist) : Bool :=
  match p.1.code with
  | .copyMsg _ _ :: _ => p.2.window.isSome
  | _ => false

/-- The action is not the copy of a second `send`. -/
def NoRace (p : Kernel × RaceHist) : Action → Prop
  | .exec => races p = false
  | _ => True

instance (p : Kernel × RaceHist) : DecidablePred (NoRace p)
  | .exec => inferInstanceAs (Decidable (races p = false))
  | .call _ | .irq _ => inferInstanceAs (Decidable True)

/-- The instruction does not link a message. -/
def NoLink : Instr → Prop
  | .linkMsg _ _ _ => False
  | _ => True

/-- The code of a `send` in the window: the slot it will link is the one the
cursor is at, and holds its message. -/
inductive Window (m : Mail) : List Instr → Prop
  | copied {d : ℕ} {rest : List Instr} (h : ∀ j ∈ rest, NoLink j) :
      Window m (.lock :: .linkMsg d (m.pool m.pFree) m.pFree :: rest)
  | locked {d : ℕ} {rest : List Instr} (h : ∀ j ∈ rest, NoLink j) :
      Window m (.linkMsg d (m.pool m.pFree) m.pFree :: rest)

/-- Only the context in the window has a message to link, and linked slots
hold what was sent. -/
structure RaceInv (k : Kernel) (h : RaceHist) : Prop where
  closed : ∀ c, h.window ≠ some c → ∀ j ∈ k.ctx c, NoLink j
  opened : ∀ c, h.window = some c → Window k.mail (k.ctx c) ∧ h.given c = k.mail.pool k.mail.pFree
  content : ∀ s i, h.mail.inBox s = some i → k.mail.pool s = h.content s

section race

variable {k k' : Kernel} {q q' : Node → List ℕ} {b : ℕ → List ℕ} {h : RaceHist} {i : Instr}
  {rest : List Instr}

theorem Window.congr {m m' : Mail} {code : List Instr} (hW : Window m code) (hp : m'.pool = m.pool)
    (hf : m'.pFree = m.pFree) : Window m' code := by
  cases hW with
  | copied h => rw [← hp, ← hf]; exact .copied h
  | locked h => rw [← hp, ← hf]; exact .locked h

theorem noLink_receive (me : ℕ) (src : ℤ) : ∀ j ∈ codeReceive me src, NoLink j := by
  intro j hj
  rcases mem_codeReceive hj with rfl | rfl | rfl | rfl | rfl <;> trivial

theorem noLink_call (me : ℕ) (c : Call) : ∀ j ∈ c.code me, NoLink j := by
  cases c with
  | receive src => exact noLink_receive me src
  | lock | unlock | P | V | sleep | wakeup | createSem | createKthread | send =>
    simp [Call.code, codeP, codeV, NoLink]

theorem Exec.noLink (hx : Exec k q rest i k' q') (hi : ∀ d x, i ≠ .copyMsg d x)
    (hr : ∀ j ∈ rest, NoLink j) : ∀ j ∈ k'.code, NoLink j := by
  cases hx with
  | copyMsg => exact absurd rfl (hi _ _)
  | scanEnd =>
    simp only [codeV, List.cons_append, List.nil_append, List.mem_cons, List.mem_append]
    rintro j (rfl | rfl | rfl | rfl | hj | hj)
    all_goals first | trivial | exact noLink_receive _ _ j hj | exact hr j hj
  | int80 => simp
  | lock | unlock | take | pWake | raise | drop | makeReady | semInit | kthreadEnd | linkMsg | copyOut | hlt =>
    exact hr
  | block | wake | sleepOn | wakeupTest | kthread | recvHead | scanFirst | scanHit | scanNext | recvNode =>
    simpa [NoLink] using hr

theorem Exec.pool_eq (hx : Exec k q rest i k' q') (hi : ∀ d x, i ≠ .copyMsg d x)
    (hl : ∀ d x s, i ≠ .linkMsg d x s) : k'.mail.pool = k.mail.pool ∧ k'.mail.pFree = k.mail.pFree := by
  cases hx with
  | copyMsg => exact absurd rfl (hi _ _)
  | linkMsg => exact absurd rfl (hl _ _ _)
  | _ => exact ⟨rfl, rfl⟩

theorem MailHist.inBox_upd {h : MailHist} {a : Action} {s d : ℕ}
    (hs : (MailHist.upd k a h).inBox s = some d) :
    h.inBox s = some d ∨ (s = k.mail.pFree ∧ ∃ x slot rest, a = .exec ∧ k.code = .linkMsg d x slot :: rest) := by
  have hun : ∀ (h' : MailHist) (t s' : ℕ), (h'.unlink t s').inBox s = some d → h'.inBox s = some d :=
    fun h' t s' hu => by
      simp only [MailHist.unlink, Function.update_apply] at hu
      split_ifs at hu
      exact hu
  unfold MailHist.upd at hs
  split at hs
  · left
    split_ifs at hs <;> exact hs
  · left
    simpa using hs
  · rename_i dest x slot r hc
    simp only [MailHist.link, Function.update_apply] at hs
    split_ifs at hs with hsp
    · rw [Option.some.injEq] at hs
      subst hs
      exact Or.inr ⟨hsp, x, slot, r, rfl, hc⟩
    · exact Or.inl hs
  · left
    split at hs
    · exact hun _ k.sched.current _ hs
    · exact hs
  · exact Or.inl (hun _ k.sched.current _ hs)
  · exact Or.inl hs

theorem RaceHist.upd_mail (k : Kernel) (a : Action) (h : RaceHist) :
    (RaceHist.upd k a h).mail = MailHist.upd k a h.mail := by
  unfold RaceHist.upd
  split <;> rfl

theorem RaceInv.exec_other (hR : RaceInv k h) (hB : Base k q) (hc : k.code = i :: rest)
    (hx : Exec k q rest i k' q') (hi : ∀ d x, i ≠ .copyMsg d x) (hl : ∀ d x s, i ≠ .linkMsg d x s) :
    RaceInv k' (RaceHist.upd k .exec h) := by
  obtain ⟨hpool, hfree⟩ := hx.pool_eq hi hl
  have hctx := hx.ctx hB hc
  have hupd : RaceHist.upd k .exec h = { h with mail := MailHist.upd k .exec h.mail } := by
    cases i <;> first | exact absurd rfl (hi _ _) | exact absurd rfl (hl _ _ _) | simp only [RaceHist.upd, hc]
  rw [hupd]
  refine ⟨fun c hw j hj => ?_, fun c hw => ?_, fun s d hs => ?_⟩
  · rw [hctx] at hj
    split_ifs at hj with h1 h2
    · have h0 := hR.closed c hw j
      rw [h1, ctx_cpu, hc] at h0
      exact h0 (List.mem_cons_of_mem _ hj)
    · refine hx.noLink hi (fun j hj => ?_) j hj
      have h0 := hR.closed c hw j
      rw [h1, ctx_cpu, hc] at h0
      exact h0 (List.mem_cons_of_mem _ hj)
    · exact hR.closed c hw j hj
  · obtain ⟨hW, hg⟩ := hR.opened c hw
    refine ⟨?_, by rw [hpool, hfree]; exact hg⟩
    rw [hctx]
    by_cases h1 : c = k.cpu
    · -- the context in the window can only be at its `lock()`
      rw [h1, ctx_cpu, hc] at hW
      rw [if_pos h1]
      cases hW with
      | locked _ => exact absurd rfl (hl _ _ _)
      | copied hr =>
        cases hx with
        | lock => exact .locked hr
    · rw [if_neg h1]
      exact hW.congr hpool hfree
  · rw [hpool]
    rcases MailHist.inBox_upd hs with h0 | ⟨-, x, slot, r, -, h0⟩
    · exact hR.content s d h0
    · rw [hc] at h0
      exact absurd (List.cons.inj h0).1 (hl _ _ _)

theorem RaceInv.exec_copy (hR : RaceInv k h) (hB : Base k q) {d : ℕ} {x : Msg}
    (hc : k.code = .copyMsg d x :: rest) (hw : h.window = none) (hfree : h.mail.inBox k.mail.pFree = none)
    (hx : Exec k q rest (.copyMsg d x) k' q') : RaceInv k' (RaceHist.upd k .exec h) := by
  have hctx := hx.ctx hB hc
  have hupd : RaceHist.upd k .exec h = { h with
      mail := MailHist.upd k .exec h.mail
      window := some k.cpu
      given := Function.update h.given k.cpu (Mail.stamp (k.pid k.sched.current) d x).toMsgData } := by
    simp only [RaceHist.upd, hc]
  have hr : ∀ j ∈ rest, NoLink j := fun j hj => by
    have h0 := hR.closed k.cpu (by rw [hw]; simp) j
    rw [ctx_cpu, hc] at h0
    exact h0 (List.mem_cons_of_mem _ hj)
  rw [hupd]
  cases hx with
  | copyMsg hy =>
    rename_i y
    simp only [reduceCtorEq, if_false] at hctx
    refine ⟨fun c hcw => ?_, fun c hcw => ?_, fun s i hs => ?_⟩
    · have hne : c ≠ k.cpu := fun e => hcw (by rw [e])
      rw [hctx, if_neg hne]
      exact hR.closed c (by rw [hw]; simp)
    · have he : c = k.cpu := (Option.some.inj hcw).symm
      have hp : (k.mail.copyMsg y).pool (k.mail.copyMsg y).pFree = y.toMsgData := by
        simp [Mail.copyMsg]
      refine ⟨?_, by rw [hp, he, hy]; simp⟩
      rw [hctx, if_pos he]
      have h0 : Window (k.mail.copyMsg y) (.lock :: .linkMsg d
          ((k.mail.copyMsg y).pool (k.mail.copyMsg y).pFree) (k.mail.copyMsg y).pFree ::
          .unlock :: (codeV (.msgSem d) .send ++ rest)) :=
        .copied (by simpa [NoLink, codeV] using hr)
      rwa [hp] at h0
    · rcases MailHist.inBox_upd hs with h0 | ⟨-, x, slot, r, -, h0⟩
      · have hne : s ≠ k.mail.pFree := by
          rintro rfl
          rw [hfree] at h0
          cases h0
        simpa [Mail.copyMsg, hne] using hR.content s i h0
      · rw [hc] at h0
        cases h0

theorem RaceInv.link_window (hR : RaceInv k h) {d slot : ℕ} {x : MsgData}
    (hc : k.code = .linkMsg d x slot :: rest) :
    h.window = some k.cpu ∧ slot = k.mail.pFree ∧ h.given k.cpu = k.mail.pool k.mail.pFree ∧
      ∀ j ∈ rest, NoLink j := by
  have hw : h.window = some k.cpu := by
    by_contra hne
    have h0 := hR.closed k.cpu hne (.linkMsg d x slot)
    rw [ctx_cpu, hc] at h0
    exact h0 List.mem_cons_self
  obtain ⟨hW, hg⟩ := hR.opened k.cpu hw
  rw [ctx_cpu, hc] at hW
  cases hW with
  | locked hr => exact ⟨hw, rfl, hg, hr⟩

theorem RaceInv.exec_link (hR : RaceInv k h) (hB : Base k q) {d slot : ℕ} {x : MsgData}
    (hc : k.code = .linkMsg d x slot :: rest) (hx : Exec k q rest (.linkMsg d x slot) k' q') :
    RaceInv k' (RaceHist.upd k .exec h) := by
  obtain ⟨hw, -, hpool, hr⟩ := hR.link_window hc
  have hctx := hx.ctx hB hc
  have hupd : RaceHist.upd k .exec h = { h with
      mail := MailHist.upd k .exec h.mail
      window := none
      content := Function.update h.content k.mail.pFree (h.given k.cpu) } := by
    simp only [RaceHist.upd, hc]
  rw [hupd]
  cases hx with
  | linkMsg =>
    simp only [reduceCtorEq, if_false] at hctx
    refine ⟨fun c _ j hj => ?_, (fun c hcw => by cases hcw), fun s i hs => ?_⟩
    · rw [hctx] at hj
      split_ifs at hj with h1
      · exact hr j hj
      · refine hR.closed c (fun e => h1 ?_) j hj
        rw [hw] at e
        exact (Option.some.inj e).symm
    · have hp : (k.mail.linkMsg d).pool = k.mail.pool := rfl
      simp only [hp, Function.update_apply]
      split_ifs with hsp
      · rw [hsp, hpool]
      · rcases MailHist.inBox_upd hs with h0 | ⟨h0, -⟩
        · exact hR.content s i h0
        · exact absurd h0 hsp

/-- A step that is not the copy of a second `send`. -/
theorem RaceInv.step (hR : RaceInv k h) (hB : Base k q) {a : Action} (hok : MailOk (k, h.mail) a)
    (hnr : NoRace (k, h) a) (hx : Step k q a k' q') : RaceInv k' (RaceHist.upd k a h) := by
  cases hx with
  | exec hc hx =>
    rename_i i rest
    cases i with
    | copyMsg d x =>
      refine hR.exec_copy hB hc ?_ ?_ hx
      · simpa [NoRace, races, hc] using hnr
      · simpa [reuses, hc] using hok.2
    | linkMsg d x slot => exact hR.exec_link hB hc hx
    | _ => exact hR.exec_other hB hc hx (by simp) (by simp)
  | proc hc ht hcur =>
    have hupd : RaceHist.upd k .exec h = h := by simp only [RaceHist.upd, MailHist.upd, SemHist.upd, hc]
    rw [hupd]
    refine ⟨fun c hw => ?_, fun c hw => ?_, hR.content⟩
    · rw [ctx_returnTo hc ht]
      exact hR.closed c hw
    · rw [ctx_returnTo hc ht]
      exact hR.opened c hw
  | call hc ht =>
    rename_i cl
    have hupd : RaceHist.upd k (.call cl) h = h := by
      simp only [RaceHist.upd, MailHist.upd, SemHist.upd]
    have hold : k.ctx (some k.sched.current) = [] := by rw [← cpu_thread ht, ctx_cpu, hc]
    rw [hupd]
    refine ⟨fun c hw j hj => ?_, fun c hw => ?_, hR.content⟩
    · rw [ctx_call ht] at hj
      split_ifs at hj
      · exact noLink_call _ _ j hj
      · exact hR.closed c hw j hj
    · obtain ⟨hW, hg⟩ := hR.opened c hw
      have hne : c ≠ some k.sched.current := by
        rintro rfl
        rw [hold] at hW
        cases hW
      rw [ctx_call ht, if_neg hne]
      exact ⟨hW, hg⟩
  | irq hi ht =>
    rename_i hs
    have hupd : RaceHist.upd k (.irq hs) h = h := by
      simp only [RaceHist.upd, MailHist.upd, SemHist.upd]
    rw [hupd]
    refine ⟨fun c hw j hj => ?_, fun c hw => ?_, hR.content⟩
    · rw [ctx_irq ht] at hj
      split_ifs at hj
      · obtain ⟨cl, -, hj⟩ := List.mem_flatMap.mp hj
        exact noLink_call _ _ j hj
      · exact hR.closed c hw j hj
    · obtain ⟨hW, hg⟩ := hR.opened c hw
      have hne : c ≠ none := by
        rintro rfl
        rw [ctx_none ht] at hW
        cases hW
      rw [ctx_irq ht, if_neg hne]
      exact ⟨hW, hg⟩

end race

theorem raceInv_boot (b : Bool) : RaceInv (boot b) RaceHist.init := by
  refine ⟨fun c _ j hj => ?_, (fun c hw => by cases hw), (fun s i hs => by cases hs)⟩
  rw [ctx_boot] at hj
  cases hj

theorem reach_race {b : Bool} {ok : Kernel × RaceHist → Action → Prop} {p : Kernel × RaceHist}
    (hok : ∀ p a, ok p a → p.1.Ok a ∧ MailOk (p.1, p.2.mail) a ∧ NoRace p a)
    (h : Reach raceStep ok (boot b, RaceHist.init) p) :
    ∃ q bx, Base p.1 q ∧ SemInv p.1 q p.2.mail.sem ∧ MailInv p.1 bx p.2.mail ∧ RaceInv p.1 p.2 := by
  refine h.invariant
    (I := fun p => ∃ q bx, Base p.1 q ∧ SemInv p.1 q p.2.mail.sem ∧ MailInv p.1 bx p.2.mail ∧
      RaceInv p.1 p.2)
    ⟨_, _, base_boot b, semInv_boot b, mailInv_boot b, raceInv_boot b⟩ ?_
  rintro ⟨k, h⟩ a ⟨k', h'⟩ ⟨q, bx, hB, hS, hM, hR⟩ ho hs
  obtain ⟨hs, rfl⟩ := withHistory_eq_some.mp hs
  obtain ⟨ho, hmo, hnr⟩ := hok _ _ ho
  obtain ⟨q', hx⟩ := hB.step_cases ho hs
  obtain ⟨bx', hM'⟩ := hM.step hS hB ho hmo hx
  simp only at hs hM' ⊢
  rw [RaceHist.upd_mail, MailHist.upd_sem]
  exact ⟨q', bx', hB.of_step ho hx, hS.step hB hmo.noSteal hx, hM', hR.step hB hmo hnr hx⟩

/-- **`send` links its message.** In every run in which every message is
unlinked before its slot is used again and no `send` copies its message while
another one is between copy and link: the slots in the mailboxes hold what
was given to the sends that linked them; no two sends are to link a slot at
the same time; and a `send` that links appends the slot it filled, which holds
the message it was given, to the mailbox of its destination, and changes no
other mailbox. -/
theorem send_links_its_message {b : Bool} {p : Kernel × RaceHist}
    (h : Reach raceStep (fun p a => p.1.Ok a ∧ MailOk (p.1, p.2.mail) a ∧ NoRace p a)
      (boot b, RaceHist.init) p) :
    (∀ s i, p.2.mail.inBox s = some i → p.1.mail.pool s = p.2.content s) ∧
    (∀ c c' d d' x x' s s', .linkMsg d x s ∈ p.1.ctx c → .linkMsg d' x' s' ∈ p.1.ctx c' → c = c') ∧
    (∀ d x slot rest k', p.1.code = .linkMsg d x slot :: rest → MailOk (p.1, p.2.mail) .exec →
      p.1.step .exec = some k' → slot = p.1.mail.pFree ∧ k'.mail.pool slot = p.2.given p.1.cpu ∧
      ∃ bx : ℕ → List ℕ,
        (∀ i, p.1.Thread i → Ring p.1.mail.links (.box i) ((bx i).map MailNode.slot)) ∧
        (∀ i, p.1.Thread i → Ring k'.mail.links (.box i)
          ((if i = d then bx i ++ [slot] else bx i).map MailNode.slot))) := by
  obtain ⟨q, bx, hB, hS, hM, hR⟩ := reach_race (fun _ _ h => h) h
  refine ⟨hR.content, fun c c' d d' x x' s s' h1 h2 => ?_, fun d x slot rest k' hc hmo hs => ?_⟩
  · have hw : ∀ {c d x s}, .linkMsg d x s ∈ p.1.ctx c → p.2.window = some c := fun {c d x s} h1 => by
      by_contra hne
      exact hR.closed c hne _ h1
    have := (hw h1).symm.trans (hw h2)
    exact Option.some.inj this
  · obtain ⟨hw, hslot, hg, -⟩ := hR.link_window hc
    have hfree : ∀ i, p.1.mail.pFree ∉ bx i := fun i hi => by
      have h0 : p.2.mail.inBox p.1.mail.pFree = none := by simpa [reuses, hc] using hmo.2
      rw [(hM.inBox _ i).mpr hi] at h0
      cases h0
    have hd : p.1.Thread d := hB.code (.linkMsg d x slot) (by rw [hc]; simp)
    have hk : k'.mail = p.1.mail.linkMsg d := by
      rw [step_exec hc, execInstr, Option.some.injEq] at hs
      rw [← hs]
    have hb := hM.boxes.linkMsg hd hfree
    refine ⟨hslot, ?_, bx, fun i hi => hM.boxes.ring hi, fun i hi => ?_⟩
    · rw [hk, hslot, hg]
      rfl
    · have hring := hb.ring hi
      rw [hk]
      by_cases hid : i = d
      · subst hid
        simpa [hslot] using hring
      · simpa [hid] using hring

/-- A handler has sent to thread 1, the idle thread has copied its message to the next slot, and
an interrupt without a message has come: it is about to link behind the handler's message. -/
theorem send_links_its_message_once : ∃ p rest, Reach raceStep
    (fun p a => p.1.Ok a ∧ MailOk (p.1, p.2.mail) a ∧ NoRace p a) (boot false, RaceHist.init) p ∧
    p.1.code = .linkMsg 1 { MsgData.zero with dest := 1 } 1 :: rest ∧
    p.1.mail.pool 0 = p.2.content 0 ∧ (p.1.mail.pool 0).src = msgHardIntr ∧
    ∃ k', p.1.step .exec = some k' ∧ k'.mail.pool 1 = p.2.given (some 0) ∧
      (k'.mail.links (.box 1)).next = some (.slot 0) ∧ (k'.mail.links (.slot 0)).next = some (.slot 1) := by
  obtain ⟨p, hr, hc, hcpu, ⟨hin, hsrc⟩, hmo, hs⟩ : ∃ p,
      Reach raceStep (fun p a => p.1.Ok a ∧ MailOk (p.1, p.2.mail) a ∧ NoRace p a) (boot false, RaceHist.init) p ∧
      p.1.code = .linkMsg 1 { MsgData.zero with dest := 1 } 1 :: .unlock :: codeV (.msgSem 1) .send ∧
      p.1.cpu = some 0 ∧ (p.2.mail.inBox 0 = some 1 ∧ (p.1.mail.pool 0).src = msgHardIntr) ∧
      MailOk (p.1, p.2.mail) .exec ∧
      (p.1.step .exec).any (fun k' => decide ((k'.mail.links (.box 1)).next = some (.slot 0) ∧
        (k'.mail.links (.slot 0)).next = some (.slot 1))) = true := by
    rw [boot_eq]
    exact Reach.exists_of_exec
      ([Action.call .createKthread, .exec, .exec, .exec, .irq [.send 1 { letter with src := msgHardIntr }]] ++
        List.replicate 8 Action.exec ++ [.call (.send 1 letter), .exec, .irq [], .exec, .exec]) (by decide +kernel)
  rw [Option.any_eq_true] at hs
  obtain ⟨k', hs, hbox⟩ := hs
  obtain ⟨hcontent, -, hlink⟩ := send_links_its_message hr
  have hpool := (hlink _ _ _ _ k' hc hmo hs).2.1
  rw [hcpu] at hpool
  exact ⟨p, _, hr, hc, hcontent 0 1 hin, hsrc, k', hs, hpool, of_decide_eq_true hbox⟩

/-- The idle thread has copied a message for thread 1 when an interrupt comes
whose handler sends to thread 1 too. When both sends are done, the mailbox
holds the slots 0 and 1, and neither holds the message of the idle thread. -/
theorem send_loses_its_message : ∃ p, Reach raceStep (fun p a => p.1.Ok a ∧ MailOk (p.1, p.2.mail) a)
    (boot false, RaceHist.init) p ∧ (p.1.ctx (some 0) = [] ∧
      p.2.given (some 0) = { MsgData.zero with dest := 1, type := 7 } ∧
      (p.1.mail.links (.box 1)).next = some (.slot 0) ∧ (p.1.mail.links (.slot 0)).next = some (.slot 1) ∧
      (p.1.mail.links (.slot 1)).next = some (.box 1) ∧
      p.1.mail.pool 0 ≠ p.2.given (some 0) ∧ p.1.mail.pool 1 ≠ p.2.given (some 0)) := by
  rw [boot_eq]
  exact Reach.exists_of_exec
    ([Action.call .createKthread, .exec, .exec, .exec, .call (.send 1 { letter with type := 7 }), .exec,
      .irq [.send 1 { letter with src := msgHardIntr }]] ++ List.replicate 8 Action.exec ++
      List.replicate 6 Action.exec) (by decide +kernel)

end Kernel
end NanoOS
