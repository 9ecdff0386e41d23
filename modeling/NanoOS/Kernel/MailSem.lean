/-
# A mailbox and its semaphore

`send` links a message into the mailbox of its destination and later, in
another critical section, calls `V` on that thread's `msg_sem`. `receive` calls
`P` first and unlinks a message afterwards; a selective `receive` that finds no
match gives its token back by `V`. So the length of a mailbox is the token of
its semaphore, plus the sends that have linked their message and not yet
called `V`, plus one while its owner has come through `P` and has not yet
unlinked a message.

The history keeps the sends between link and `V` (`inFlight`), who has come
through `P` (`granted`) and which mailbox a slot is in (`inBox`). That they
mean what they say rests on where each context is in its calls: `want` and
`owing` read it off the code that is left, and `WF` says that the code is put
together as `send` and `receive` put it together.

Key definitions: `MailHist`, `want`, `owing`, `WF`, `Scan`, `MailInv`.
Key theorems: `MailInv.step`, `mail_in_step`.
-/
import NanoOS.Kernel.Semaphore
import NanoOS.Process.MailInv

namespace NanoOS
namespace Kernel

open Trans Ringlist Semaphore
open Sched (movedQ)

/-! ### History -/

/-- What happened to the mailboxes. -/
structure MailHist where
  sem : SemHist
  /-- The sends that have linked their message and not yet called `V`: the
  context that sends, and the destination. -/
  inFlight : List (Option ℕ × ℕ)
  /-- The thread has come through the `P` of `receive`, and has neither unlinked
  a message nor called `V` since. -/
  granted : ℕ → Bool
  /-- The mailbox a slot is linked into. -/
  inBox : ℕ → Option ℕ
  /-- The slot a context linked last. -/
  lastSlot : Option ℕ → ℕ
  /-- The send that linked the slot has called `V`. -/
  signalled : ℕ → Bool

namespace MailHist

def init : MailHist := ⟨SemHist.init, [], fun _ => false, fun _ => none, fun _ => 0, fun _ => false⟩

def grant (t : ℕ) (h : MailHist) : MailHist := { h with granted := Function.update h.granted t true }

def consume (t : ℕ) (h : MailHist) : MailHist := { h with granted := Function.update h.granted t false }

/-- Thread `t` unlinks slot `s`. -/
def unlink (t s : ℕ) (h : MailHist) : MailHist :=
  { h.consume t with inBox := Function.update h.inBox s none }

/-- The context `c` links slot `s` into the mailbox of `dest`. -/
def link (c : Option ℕ) (dest s : ℕ) (h : MailHist) : MailHist :=
  { h with
    inFlight := (c, dest) :: h.inFlight
    inBox := Function.update h.inBox s (some dest)
    lastSlot := Function.update h.lastSlot c s
    signalled := Function.update h.signalled s false }

/-- The send of context `c` to `dest` calls `V`. -/
def signal (c : Option ℕ) (dest : ℕ) (h : MailHist) : MailHist :=
  { h with
    inFlight := h.inFlight.erase (c, dest)
    signalled := Function.update h.signalled (h.lastSlot c) true }

/-- `V` on the `msg_sem` of `dest`, in context `c`, of thread `t` when it is
not a handler; `w` is the thread it wakes. -/
def post (c : Option ℕ) (t dest : ℕ) (site : VSite) (w : Option ℕ) (h : MailHist) : MailHist :=
  let h' := match site with
    | .send => h.signal c dest
    | .giveBack => h.consume t
    | .call => h
  match w with
  | some i => h'.grant i
  | none => h'

/-- The history after a step. -/
def upd (k : Kernel) (a : Action) (h : MailHist) : MailHist :=
  let h' := { h with sem := SemHist.upd k a h.sem }
  match a, k.code with
  | .exec, .pTest (.msgSem m) :: _ =>
    if 0 < k.sched.token (.msgSem m) then h'.grant k.sched.current else h'
  | .exec, .vTest (.msgSem d) site :: _ => h'.post k.cpu k.sched.current d site (k.woken (.msgSem d))
  | .exec, .linkMsg dest _ _ :: _ => h'.link k.cpu dest k.mail.pFree
  | .exec, .recvHead :: _ =>
    match (k.mail.links (.box k.sched.current)).next with
    | some (.slot s) => h'.unlink k.sched.current s
    | _ => h'
  | .exec, .recvNode (.slot s) :: _ => h'.unlink k.sched.current s
  | _, _ => h'

@[simp] theorem post_sem (c : Option ℕ) (t dest : ℕ) (site : VSite) (w : Option ℕ) (h : MailHist) :
    (h.post c t dest site w).sem = h.sem := by
  cases site <;> cases w <;> rfl

@[simp] theorem post_inBox (c : Option ℕ) (t dest : ℕ) (site : VSite) (w : Option ℕ) (h : MailHist) :
    (h.post c t dest site w).inBox = h.inBox := by
  cases site <;> cases w <;> rfl

end MailHist

/-- The machine with its mail history. -/
def mailStep : Kernel × MailHist → Action → Option (Kernel × MailHist) := withHistory step MailHist.upd

/-- `P` and `V` are called directly on semaphores of one's own only. -/
def Call.userSem : Call → Bool
  | .P (.msgSem _) | .V (.msgSem _) => false
  | _ => true

/-- `send` is about to use a slot that is still linked. -/
def reuses (p : Kernel × MailHist) : Bool :=
  match p.1.code with
  | .copyMsg _ _ :: _ | .linkMsg _ _ _ :: _ => (p.2.inBox p.1.mail.pFree).isSome
  | _ => false

/-- The action leaves the mailboxes' semaphores to `send` and `receive`, and
every message is unlinked before its slot is used again. -/
def MailOk (p : Kernel × MailHist) : Action → Prop
  | .exec => steals (p.1, p.2.sem) = false ∧ reuses p = false
  | .call c => Call.userSem c = true
  | .irq hs => ∀ c ∈ hs, Call.userSem c = true

instance (p : Kernel × MailHist) : DecidablePred (MailOk p)
  | .exec => inferInstanceAs (Decidable (steals (p.1, p.2.sem) = false ∧ reuses p = false))
  | .call c => inferInstanceAs (Decidable (Call.userSem c = true))
  | .irq hs => inferInstanceAs (Decidable (∀ c ∈ hs, Call.userSem c = true))

theorem MailOk.noSteal {p : Kernel × MailHist} {a : Action} (h : MailOk p a) : NoSteal (p.1, p.2.sem) a := by
  cases a with
  | exec => exact h.1
  | call c => trivial
  | irq hs => trivial

/-! ### Where a context is in its calls -/

/-- The code goes on with what needs a grant: 1 after the `P` of a `receive`. -/
def want : List Instr → ℕ
  | [] => 0
  | .pTest (.msgSem _) :: _ => 0
  | .recvHead :: _ | .scanFirst _ :: _ | .scan _ _ :: _ | .recvNode _ :: _ | .vTest _ .giveBack :: _ => 1
  | _ :: rest => want rest

/-- The destination whose semaphore the code has still to raise for a message
it has linked. -/
def owing : List Instr → Option ℕ
  | [] => none
  | .copyMsg _ _ :: _ | .linkMsg _ _ _ :: _ => none
  | .vTest (.msgSem d) .send :: _ => some d
  | _ :: rest => owing rest

/-- What an instruction expects to come after it. -/
def Local (c : Option ℕ) (rest : List Instr) : Instr → Prop
  | .pTest (.msgSem m) => c = some m ∧ want rest = 1
  | .recvHead | .scanFirst _ | .scan _ _ | .recvNode _ => want rest = 0
  | .vTest (.msgSem m) .giveBack => c = some m ∧ want rest = 0
  | .vTest (.user _) .giveBack | .vTest (.user _) .send | .vTest (.msgSem _) .call => False
  | .vTest (.msgSem _) .send | .copyMsg _ _ => owing rest = none
  | .linkMsg d _ _ => owing rest = some d
  | _ => True

/-- The code of context `c` is put together as its calls put it together. -/
def WF (c : Option ℕ) : List Instr → Prop
  | [] => True
  | i :: rest => Local c rest i ∧ WF c rest

/-- The instructions that hold a node of a mailbox. -/
def NoNode : Instr → Prop
  | .scan _ _ | .recvNode _ => False
  | _ => True

/-- The node at which thread `t` is in its scan is still in its mailbox `l`. -/
inductive Scan (l : List ℕ) (t : ℕ) : List Instr → Prop
  | none {code : List Instr} (h : ∀ j ∈ code, NoNode j) : Scan l t code
  | back {src : ℤ} {rest : List Instr} (h : ∀ j ∈ rest, NoNode j) : Scan l t (.scan src (.box t) :: rest)
  | look {src : ℤ} {s : ℕ} {rest : List Instr} (hs : s ∈ l) (h : ∀ j ∈ rest, NoNode j) :
      Scan l t (.scan src (.slot s) :: rest)
  | lock {s : ℕ} {rest : List Instr} (hs : s ∈ l) (h : ∀ j ∈ rest, NoNode j) :
      Scan l t (.lock :: .recvNode (.slot s) :: rest)
  | take {s : ℕ} {rest : List Instr} (hs : s ∈ l) (h : ∀ j ∈ rest, NoNode j) :
      Scan l t (.recvNode (.slot s) :: rest)

section code

variable {c : Option ℕ} {rest : List Instr} {i : Instr} {t : ℕ} {l l' : List ℕ}

theorem Scan.mono (h : Scan l t rest) (hl : l ⊆ l') : Scan l' t rest := by
  cases h with
  | none h => exact .none h
  | back h => exact .back h
  | look hs h => exact .look (hl hs) h
  | lock hs h => exact .lock (hl hs) h
  | take hs h => exact .take (hl hs) h

/-- What comes after an instruction holds no node, unless that is the `lock`
before a message is unlinked. -/
theorem Scan.tail (h : Scan l t (i :: rest)) (hi : i ≠ .lock) : ∀ j ∈ rest, NoNode j := by
  cases h with
  | none h => exact fun j hj => h j (List.mem_cons_of_mem _ hj)
  | lock => exact absurd rfl hi
  | back h | look _ h | take _ h => exact h

theorem Scan.of_lock (h : Scan l t (.lock :: rest)) : Scan l t rest := by
  cases h with
  | none h => exact .none fun j hj => h j (List.mem_cons_of_mem _ hj)
  | lock hs h => exact .take hs h

theorem want_le_one (code : List Instr) : want code ≤ 1 := by
  fun_induction want code <;> omega

/-! The code of `receive` and of `send`. -/

theorem noNode_receive (me : ℕ) (src : ℤ) : ∀ j ∈ codeReceive me src, NoNode j := by
  intro j hj
  rcases mem_codeReceive hj with rfl | rfl | rfl | rfl | rfl <;> trivial

theorem want_receive (me : ℕ) (src : ℤ) (rest : List Instr) : want (codeReceive me src ++ rest) = 0 := by
  unfold codeReceive codeP
  split_ifs <;> simp [want]

theorem owing_receive (me : ℕ) (src : ℤ) (rest : List Instr) :
    owing (codeReceive me src ++ rest) = owing rest := by
  unfold codeReceive codeP
  split_ifs <;> simp [owing]

theorem wf_receive (me : ℕ) (src : ℤ) (h : WF (some me) rest) (hw : want rest = 0) :
    WF (some me) (codeReceive me src ++ rest) := by
  unfold codeReceive codeP
  split_ifs <;> simp [WF, Local, want, h, hw]

theorem wf_call {cl : Call} (me : ℕ) (hu : Call.userSem cl = true) :
    WF (some me) (cl.code me) ∧ want (cl.code me) = 0 ∧ owing (cl.code me) = none ∧
      ∀ j ∈ cl.code me, NoNode j := by
  cases cl with
  | receive src =>
    have h1 : WF (some me) (codeReceive me src ++ []) := wf_receive me src trivial rfl
    have h2 := want_receive me src []
    have h3 := owing_receive me src []
    rw [List.append_nil] at h1 h2 h3
    exact ⟨h1, h2, h3, noNode_receive me src⟩
  | P σ | V σ =>
    cases σ with
    | msgSem m => cases hu
    | user a => simp [Call.code, codeP, codeV, WF, Local, want, owing, NoNode]
  | lock | unlock | sleep | wakeup | createSem | createKthread | send =>
    simp [Call.code, WF, Local, want, owing, NoNode]

theorem wf_handler (me : ℕ) (hs : List Call) (hh : ∀ cl ∈ hs, HandlerCall cl)
    (hu : ∀ cl ∈ hs, Call.userSem cl = true) :
    WF none (hs.flatMap (Call.code me)) ∧ owing (hs.flatMap (Call.code me)) = none := by
  induction hs with
  | nil => exact ⟨trivial, rfl⟩
  | cons cl hs ih =>
    obtain ⟨h1, h2⟩ := ih (fun c hc => hh c (List.mem_cons_of_mem _ hc))
      fun c hc => hu c (List.mem_cons_of_mem _ hc)
    have hc := hh cl List.mem_cons_self
    have hcu := hu cl List.mem_cons_self
    rw [List.flatMap_cons]
    cases cl with
    | V σ =>
      cases σ with
      | msgSem m => cases hcu
      | user a => simp [Call.code, codeV, WF, Local, owing, h1, h2]
    | lock | unlock | send => simp [Call.code, WF, Local, owing, h1, h2]
    | _ => exact hc.elim

end code

/-! ### The invariant -/

/-- The sends to `p` that have linked their message and not yet called `V`. -/
def MailHist.flight (h : MailHist) (p : ℕ) : ℕ := h.inFlight.countP fun x => x.2 = p

/-- 1 if the thread has a grant. -/
def MailHist.grants (h : MailHist) (p : ℕ) : ℕ := if h.granted p then 1 else 0

/-- 1 if the thread is blocked in the `P` of `receive`. -/
def MailHist.blocks (h : MailHist) (p : ℕ) : ℕ := if h.sem.waiting p = some (.msgSem p) then 1 else 0

/-- The mailboxes hold `b`, and the counts agree. -/
structure MailInv (k : Kernel) (b : ℕ → List ℕ) (h : MailHist) : Prop where
  boxes : k.mail.Boxes k.Thread b
  inBox : ∀ s i, h.inBox s = some i ↔ s ∈ b i
  wf : ∀ c, WF c (k.ctx c)
  scan : ∀ t, Scan (b t) t (k.ctx (some t))
  grant : ∀ t, want (k.ctx (some t)) = h.grants t + h.blocks t
  owed : ∀ c d, h.inFlight.count (c, d) = if owing (k.ctx c) = some d then 1 else 0
  dest : ∀ x ∈ h.inFlight, k.Thread x.2
  waiter : ∀ t m, h.sem.waiting t = some (.msgSem m) → t = m
  value : ∀ i, (h.sem.sem (.msgSem i)).value = 0
  count : ∀ p, k.sched.created p = true →
    ((b p).length : ℤ) = k.sched.token (.msgSem p) + h.flight p + h.grants p

section inv

variable {k k' : Kernel} {q q' : Node → List ℕ} {b : ℕ → List ℕ} {h : MailHist} {i : Instr}
  {rest : List Instr}

theorem SemHist.value_msgSem (k : Kernel) (a : Action) (h : SemHist) (i : ℕ) :
    ((SemHist.upd k a h).sem (.msgSem i)).value = (h.sem (.msgSem i)).value := by
  have hon : ∀ (σ : SemId) (f : Hist ℕ → Hist ℕ), (∀ x, (f x).value = x.value) →
      ((h.on σ f).sem (.msgSem i)).value = (h.sem (.msgSem i)).value := fun σ f hf => by
    by_cases hσ : SemId.msgSem i = σ
    · subst hσ; simp [SemHist.on, hf]
    · simp [SemHist.on, hσ]
  unfold SemHist.upd
  split
  · split_ifs
    · exact hon _ _ fun _ => rfl
    · exact hon _ _ fun _ => rfl
  · split
    · exact hon _ _ fun _ => rfl
    · exact hon _ _ fun _ => rfl
  · simp [SemHist.on]
  · rfl

theorem MailInv.wf_cpu (hM : MailInv k b h) (hc : k.code = i :: rest) :
    Local k.cpu rest i ∧ WF k.cpu rest := by
  have h0 := hM.wf k.cpu
  rwa [ctx_cpu, hc] at h0

theorem MailInv.scan_cpu (hM : MailInv k b h) (hc : k.code = i :: rest) {t : ℕ} (ht : k.cpu = some t) :
    Scan (b t) t (i :: rest) := by
  have h0 := hM.scan t
  rwa [← ht, ctx_cpu, hc] at h0

/-- Whether the current thread has a grant, by what it executes. -/
theorem MailInv.grants_current (hM : MailInv k b h) (hS : SemInv k q h.sem) (hc : k.code = i :: rest)
    (ht : k.trap = none) (hu : i ≠ .unlock) (h80 : i ≠ .int80) :
    want (i :: rest) = h.grants k.sched.current ∧ h.blocks k.sched.current = 0 := by
  have hb : h.blocks k.sched.current = 0 := by
    simp [MailHist.blocks, hS.not_waiting hc ht hu h80]
  have h0 := hM.grant k.sched.current
  rw [← cpu_thread ht, ctx_cpu, hc, hb] at h0
  exact ⟨h0, hb⟩

theorem MailInv.token_nonneg (hM : MailInv k b h) (hS : SemInv k q h.sem) (hB : Base k q) {p : ℕ}
    (hp : k.sched.created p = true) : 0 ≤ k.sched.token (.msgSem p) :=
  (hS.lawful _ (hB.up p hp)).nonneg (by have := hM.value p; omega)

theorem MailHist.upd_sem (k : Kernel) (a : Action) (h : MailHist) :
    (MailHist.upd k a h).sem = SemHist.upd k a h.sem := by
  unfold MailHist.upd
  split
  · split_ifs <;> rfl
  · simp
  · rfl
  · split <;> rfl
  · rfl
  · rfl

/-- A thread waits for the semaphore of its own mailbox only. -/
theorem MailInv.waiter_upd (hM : MailInv k b h) (hB : Base k q) {t m : ℕ}
    (hw : (SemHist.upd k .exec h.sem).waiting t = some (.msgSem m)) : t = m := by
  unfold SemHist.upd at hw
  split at hw
  · rename_i σ r _ hc
    split_ifs at hw
    · exact hM.waiter t m hw
    · simp only [Function.update_apply] at hw
      split_ifs at hw with htc
      · rw [Option.some.injEq] at hw
        subst hw htc
        have hm : k.cpu = some m := (hM.wf_cpu hc).1.1
        rw [cpu_thread (hB.no_trap hc id)] at hm
        exact Option.some.inj hm
      · exact hM.waiter t m hw
  · split at hw
    · simp only [Function.update_apply] at hw
      split_ifs at hw
      exact hM.waiter t m hw
    · exact hM.waiter t m hw
  · exact hM.waiter t m hw
  · exact hM.waiter t m hw

/-- The context of the CPU moves on to `new` and the others stay: what is left
to show is about the counts. -/
theorem MailInv.of_ctx (hM : MailInv k b h) (hB : Base k q) {new : List Instr} {b' : ℕ → List ℕ}
    {h' : MailHist} (hsem : h'.sem = SemHist.upd k .exec h.sem)
    (hboxes : k'.mail.Boxes k'.Thread b') (hin : ∀ s i, h'.inBox s = some i ↔ s ∈ b' i)
    (hctx : ∀ c, k'.ctx c = if c = k.cpu then new else k.ctx c)
    (hwf : WF k.cpu new) (hscan : ∀ t, k.cpu = some t → Scan (b' t) t new)
    (hsub : ∀ t, k.cpu ≠ some t → b t ⊆ b' t)
    (hgrant : ∀ t, k.cpu = some t → want new = h'.grants t + h'.blocks t)
    (hgrant' : ∀ t, k.cpu ≠ some t → h'.grants t + h'.blocks t = h.grants t + h.blocks t)
    (howed : ∀ d, h'.inFlight.count (k.cpu, d) = if owing new = some d then 1 else 0)
    (howed' : ∀ c d, c ≠ k.cpu → h'.inFlight.count (c, d) = h.inFlight.count (c, d))
    (hdest : ∀ x ∈ h'.inFlight, k'.Thread x.2)
    (hcount : ∀ p, k'.sched.created p = true →
      ((b' p).length : ℤ) = k'.sched.token (.msgSem p) + h'.flight p + h'.grants p) :
    MailInv k' b' h' := by
  refine ⟨hboxes, hin, fun c => ?_, fun t => ?_, fun t => ?_, fun c d => ?_, hdest, fun t m hw => ?_,
    fun i => ?_, hcount⟩
  · rw [hctx]
    split_ifs with hc
    · exact hc ▸ hwf
    · exact hM.wf c
  · rw [hctx]
    split_ifs with hc
    · exact hscan t hc.symm
    · exact (hM.scan t).mono (hsub t (Ne.symm hc))
  · rw [hctx]
    split_ifs with hc
    · exact hgrant t hc.symm
    · rw [hgrant' t (Ne.symm hc)]
      exact hM.grant t
  · rw [hctx]
    by_cases hc : c = k.cpu
    · rw [if_pos hc, hc]
      exact howed d
    · rw [if_neg hc, howed' c d hc]
      exact hM.owed c d
  · rw [hsem] at hw
    exact hM.waiter_upd hB hw
  · rw [hsem, SemHist.value_msgSem]
    exact hM.value i

/-- As `MailInv.of_ctx`, for a step that the mailboxes' counts do not see. -/
theorem MailInv.neutral (hM : MailInv k b h) (hB : Base k q) {new : List Instr}
    (hupd : MailHist.upd k .exec h = { h with sem := SemHist.upd k .exec h.sem })
    (hboxes : k'.mail.Boxes k'.Thread b) (hgrow : ∀ t, k.Thread t → k'.Thread t)
    (hctx : ∀ c, k'.ctx c = if c = k.cpu then new else k.ctx c)
    (hwf : WF k.cpu new) (hscan : ∀ t, k.cpu = some t → Scan (b t) t new)
    (hwant : want new = want k.code) (howing : owing new = owing k.code)
    (hwait : ∀ t m, (SemHist.upd k .exec h.sem).waiting t = some (.msgSem m) ↔
      h.sem.waiting t = some (.msgSem m))
    (hcount : ∀ p, k'.sched.created p = true →
      ((b p).length : ℤ) = k'.sched.token (.msgSem p) + h.flight p + h.grants p) :
    MailInv k' b (MailHist.upd k .exec h) := by
  have hblocks : ∀ t, MailHist.blocks { h with sem := SemHist.upd k .exec h.sem } t = h.blocks t :=
    fun t => by simp only [MailHist.blocks, hwait]
  rw [hupd]
  refine hM.of_ctx hB rfl hboxes hM.inBox hctx hwf hscan (fun _ _ => List.Subset.refl _) (fun t ht => ?_)
    (fun t _ => by rw [hblocks]; rfl) (fun d => ?_) (fun _ _ _ => rfl) (fun x hx => hgrow _ (hM.dest x hx))
    hcount
  · rw [hblocks, hwant, ← ctx_cpu, ht]
    exact hM.grant t
  · rw [howing, ← ctx_cpu]
    exact hM.owed k.cpu d

/-! ### `P` in `receive` -/

/-- `P` in `receive` is called on the semaphore of the current thread, which
has no grant. -/
theorem MailInv.pTest_current (hM : MailInv k b h) (hS : SemInv k q h.sem) (hB : Base k q) {m : ℕ}
    (hc : k.code = .pTest (.msgSem m) :: rest) :
    k.cpu = some m ∧ m = k.sched.current ∧ h.grants m = 0 ∧ h.blocks m = 0 := by
  have ht := hB.no_trap hc id
  have hcm : k.cpu = some m := (hM.wf_cpu hc).1.1
  have hmc : m = k.sched.current := by
    rw [cpu_thread ht] at hcm
    exact (Option.some.inj hcm).symm
  obtain ⟨hg, hbl⟩ := hM.grants_current hS hc ht (by simp) (by simp)
  rw [← hmc] at hg hbl
  exact ⟨hcm, hmc, hg.symm.trans (by simp [want]), hbl⟩

theorem MailInv.exec_take (hM : MailInv k b h) (hS : SemInv k q h.sem) (hB : Base k q) {m : ℕ}
    (hc : k.code = .pTest (.msgSem m) :: rest) (htok : 0 < k.sched.token (.msgSem m))
    (hx : Exec k q rest (.pTest (.msgSem m)) k' q') : MailInv k' b (MailHist.upd k .exec h) := by
  obtain ⟨hcm, hmc, hg0, hb0⟩ := hM.pTest_current hS hB hc
  obtain ⟨⟨-, hw1⟩, hwf⟩ := hM.wf_cpu hc
  have hctx := hx.ctx hB hc
  have hsem : SemHist.upd k .exec h.sem = h.sem.on (.msgSem m) Hist.take := by
    simp [SemHist.upd, hc, htok]
  have hupd : MailHist.upd k .exec h =
      MailHist.grant m { h with sem := SemHist.upd k .exec h.sem } := by
    simp only [MailHist.upd, hc, if_pos htok]
    rw [← hmc]
  have hgr : ∀ t, (MailHist.upd k .exec h).grants t = if t = m then 1 else h.grants t := fun t => by
    by_cases htm : t = m <;> simp [hupd, MailHist.grants, MailHist.grant, htm]
  have hbl : ∀ t, (MailHist.upd k .exec h).blocks t = h.blocks t := fun t => by
    simp [hupd, MailHist.blocks, MailHist.grant, hsem, SemHist.on]
  have hfl : (MailHist.upd k .exec h).inFlight = h.inFlight := by simp [hupd, MailHist.grant]
  have how := hM.owed k.cpu
  rw [ctx_cpu, hc] at how
  cases hx with
  | block _ htok' => omega
  | take hσ _ =>
    simp only [reduceCtorEq, if_false] at hctx
    refine hM.of_ctx hB (by simp [hupd, MailHist.grant]) hM.boxes
      (by simp only [hupd, MailHist.grant]; exact hM.inBox) hctx hwf
      (fun t ht => .none ((hM.scan_cpu hc ht).tail (by simp))) (fun _ _ => List.Subset.refl _)
      (fun t ht => ?_) (fun t ht => ?_) (fun d => ?_) (fun c d _ => by rw [hfl]) (by rw [hfl]; exact hM.dest)
      fun p hp => ?_
    · rw [hcm, Option.some.injEq] at ht
      rw [← ht, hgr, hbl, if_pos rfl, hb0, hw1]
    · have htm : t ≠ m := fun e => ht (e ▸ hcm)
      rw [hgr, hbl, if_neg htm]
    · rw [hfl]
      exact how d
    · have h0 := hM.count p hp
      rw [hgr, MailHist.flight, hfl]
      by_cases hpm : p = m
      · subst hpm
        simp only [Function.update_self, if_true]
        simp only [hg0, MailHist.flight] at h0
        omega
      · simpa [hpm, MailHist.flight] using h0

theorem MailInv.exec_block (hM : MailInv k b h) (hS : SemInv k q h.sem) (hB : Base k q) {m : ℕ}
    (hc : k.code = .pTest (.msgSem m) :: rest) (htok : k.sched.token (.msgSem m) ≤ 0)
    (hx : Exec k q rest (.pTest (.msgSem m)) k' q') : MailInv k' b (MailHist.upd k .exec h) := by
  obtain ⟨hcm, hmc, hg0, hb0⟩ := hM.pTest_current hS hB hc
  obtain ⟨⟨-, hw1⟩, hwf⟩ := hM.wf_cpu hc
  have hctx := hx.ctx hB hc
  have hnt : ¬ 0 < k.sched.token (.msgSem m) := by omega
  have hwait : (SemHist.upd k .exec h.sem).waiting = Function.update h.sem.waiting m (some (.msgSem m)) := by
    simp only [SemHist.upd, hc, if_neg hnt]
    rw [← hmc]
  have hupd : MailHist.upd k .exec h = { h with sem := SemHist.upd k .exec h.sem } := by
    simp only [MailHist.upd, hc, if_neg hnt]
  have hbl : ∀ t, MailHist.blocks { h with sem := SemHist.upd k .exec h.sem } t =
      if t = m then 1 else h.blocks t := fun t => by
    by_cases htm : t = m <;> simp [MailHist.blocks, hwait, htm]
  have how := hM.owed k.cpu
  rw [ctx_cpu, hc] at how
  rw [hupd]
  cases hx with
  | take _ htok' => omega
  | block hσ _ h0 =>
    simp only [reduceCtorEq, if_false] at hctx
    refine hM.of_ctx hB rfl hM.boxes hM.inBox hctx ?_ (fun t ht => .none ?_)
      (fun _ _ => List.Subset.refl _) (fun t ht => ?_) (fun t ht => ?_) how (fun c d _ => rfl) hM.dest
      hM.count
    · simpa [WF, Local] using hwf
    · simpa [NoNode] using (hM.scan_cpu hc ht).tail (by simp)
    · rw [hcm, Option.some.injEq] at ht
      subst ht
      rw [hbl, if_pos rfl]
      have : h.grants m = MailHist.grants { h with sem := SemHist.upd k .exec h.sem } m := rfl
      rw [← this, hg0]
      simpa [want] using hw1
    · have htm : t ≠ m := fun e => ht (e ▸ hcm)
      rw [hbl, if_neg htm]
      rfl

/-! ### `V` -/

theorem flight_erase {l : List (Option ℕ × ℕ)} {c : Option ℕ} {d p : ℕ} (hm : (c, d) ∈ l) :
    l.countP (fun x => x.2 = p) = (l.erase (c, d)).countP (fun x => x.2 = p) + if d = p then 1 else 0 := by
  rw [(List.perm_cons_erase hm).countP_eq, List.countP_cons]
  simp

/-- `V` on the semaphore of a mailbox, by what it does to the scheduler. The
thread it wakes is the owner of the mailbox. -/
theorem MailInv.vTest_woken (hM : MailInv k b h) (hS : SemInv k q h.sem) {d t : ℕ} {r : List ℕ}
    (hq : q (.sem (.msgSem d)) = t :: r) : t = d ∧ h.grants d = 0 ∧ h.blocks d = 1 := by
  have hw : h.sem.waiting t = some (.msgSem d) := (hS.waiting t _).mpr (by rw [hq]; simp)
  have htd := hM.waiter t d hw
  subst htd
  have hb : h.blocks t = 1 := by simp [MailHist.blocks, hw]
  have h0 := hM.grant t
  have h1 := want_le_one (k.ctx (some t))
  exact ⟨rfl, by omega, hb⟩

/-- What `V` on the semaphore of a mailbox does to the counts: a grant for the
thread it wakes, or one more token. -/
structure Posted (k k' : Kernel) (h : MailHist) (d : ℕ) (rest : List Instr) : Prop where
  code : k'.code = rest ∨ k'.code = .unlock :: rest
  mail : k'.mail = k.mail
  created : k'.sched.created = k.sched.created
  other : ∀ p, p ≠ d → k'.sched.token (.msgSem p) = k.sched.token (.msgSem p)
  woken : ∀ t, k.woken (.msgSem d) = some t → t = d ∧ h.grants d = 0 ∧ h.blocks d = 1 ∧
    k'.sched.token (.msgSem d) = k.sched.token (.msgSem d)
  raised : k.woken (.msgSem d) = none → k.sched.created d = true →
    k'.sched.token (.msgSem d) = k.sched.token (.msgSem d) + 1
  waiting : (SemHist.upd k .exec h.sem).waiting = match k.woken (.msgSem d) with
    | some t => Function.update h.sem.waiting t none
    | none => h.sem.waiting

theorem MailInv.posted (hM : MailInv k b h) (hS : SemInv k q h.sem) (hB : Base k q) {d : ℕ} {site : VSite}
    (hc : k.code = .vTest (.msgSem d) site :: rest) (hx : Exec k q rest (.vTest (.msgSem d) site) k' q') :
    Posted k k' h d rest := by
  have hwait : (SemHist.upd k .exec h.sem).waiting = match k.woken (.msgSem d) with
      | some t => Function.update h.sem.waiting t none
      | none => h.sem.waiting := by
    simp only [SemHist.upd, hc]
    cases k.woken (.msgSem d) <;> rfl
  cases hx with
  | raise hσ hq =>
    have hw := woken_of_not_wakes (hB.wakes_of_empty hσ hq)
    refine ⟨Or.inl rfl, rfl, rfl, fun p hp => by simp [hp], fun t ht => ?_, fun _ _ => by simp, hwait⟩
    rw [hw] at ht
    cases ht
  | wake hσ hq hcr hst =>
    rename_i t r
    have hw := hB.woken_of_mem hσ hq
    refine ⟨Or.inr rfl, rfl, rfl, fun p _ => rfl, fun u hu => ?_, fun h' => ?_, hwait⟩
    · rw [hw, Option.some.injEq] at hu
      subst hu
      obtain ⟨h1, h2, h3⟩ := hM.vTest_woken hS hq
      exact ⟨h1, h2, h3, rfl⟩
    · rw [hw] at h'
      cases h'
  | drop hσ =>
    have hw := woken_of_not_wakes hB.idleSem.2.2.2
    refine ⟨Or.inl rfl, rfl, rfl, fun p _ => rfl, fun t ht => ?_, fun _ h' => ?_, hwait⟩
    · rw [hw] at ht
      cases ht
    · have := (hB.sched.bounds 0 h').1
      omega

/-- The grants after `V`, before the caller's own bookkeeping. -/
theorem Posted.thread {d : ℕ} (hP : Posted k k' h d rest) : k'.Thread = k.Thread := by
  funext t
  simp only [Thread, hP.created]

theorem Posted.boxes {d : ℕ} (hP : Posted k k' h d rest) (hb : k.mail.Boxes k.Thread b) :
    k'.mail.Boxes k'.Thread b := by
  rw [hP.mail, hP.thread]
  exact hb

theorem Posted.wf {d : ℕ} (hP : Posted k k' h d rest) {c : Option ℕ} (hwf : WF c rest) : WF c k'.code := by
  rcases hP.code with h1 | h1
  · rw [h1]
    exact hwf
  · rw [h1]
    simpa [WF, Local] using hwf

theorem Posted.noNode {d : ℕ} (hP : Posted k k' h d rest) (hno : ∀ j ∈ rest, NoNode j) :
    ∀ j ∈ k'.code, NoNode j := by
  rcases hP.code with h1 | h1
  · rw [h1]
    exact hno
  · rw [h1]
    simpa [NoNode] using hno

theorem Posted.grants_blocks {d : ℕ} (hP : Posted k k' h d rest) (t : ℕ) :
    (if k.woken (.msgSem d) = some t then 1 else h.grants t) +
      MailHist.blocks { h with sem := SemHist.upd k .exec h.sem } t = h.grants t + h.blocks t := by
  cases hw : k.woken (.msgSem d) with
  | none => simp [MailHist.blocks, hP.waiting, hw]
  | some u =>
    obtain ⟨rfl, hg, hb, -⟩ := hP.woken u hw
    by_cases htu : t = u
    · subst htu
      rw [hg, hb]
      simp [MailHist.blocks, hP.waiting, hw]
    · simp [MailHist.blocks, hP.waiting, hw, htu, Ne.symm htu]

theorem Posted.count {d : ℕ} (hP : Posted k k' h d rest) (hd : k.sched.created d = true) :
    k'.sched.token (.msgSem d) + (if k.woken (.msgSem d) = some d then 1 else h.grants d : ℕ) =
      k.sched.token (.msgSem d) + h.grants d + 1 := by
  cases hw : k.woken (.msgSem d) with
  | none =>
    have := hP.raised hw hd
    simp
    omega
  | some u =>
    obtain ⟨rfl, hg, -, htok⟩ := hP.woken u hw
    simp [htok, hg]

theorem MailInv.exec_signal (hM : MailInv k b h) (hS : SemInv k q h.sem) (hB : Base k q) {d : ℕ}
    (hc : k.code = .vTest (.msgSem d) .send :: rest)
    (hx : Exec k q rest (.vTest (.msgSem d) .send) k' q') : MailInv k' b (MailHist.upd k .exec h) := by
  have hP := hM.posted hS hB hc hx
  obtain ⟨hl, hwf⟩ := hM.wf_cpu hc
  have hl : owing rest = none := hl
  have hctx := hx.ctx hB hc
  simp only [reduceCtorEq, if_false] at hctx
  have hupd : MailHist.upd k .exec h = MailHist.post k.cpu k.sched.current d .send (k.woken (.msgSem d))
      { h with sem := SemHist.upd k .exec h.sem } := by simp only [MailHist.upd, hc]
  have hsem := MailHist.upd_sem k .exec h
  have hin : (MailHist.upd k .exec h).inBox = h.inBox := by simp [hupd]
  have hfl : (MailHist.upd k .exec h).inFlight = h.inFlight.erase (k.cpu, d) := by
    rw [hupd]
    cases k.woken (.msgSem d) <;> rfl
  have hgr : ∀ t, (MailHist.upd k .exec h).grants t =
      if k.woken (.msgSem d) = some t then 1 else h.grants t := fun t => by
    rw [hupd]
    cases hw : k.woken (.msgSem d) with
    | none => rfl
    | some u =>
      by_cases htu : t = u
      · simp [MailHist.post, MailHist.signal, MailHist.grant, MailHist.grants, htu]
      · simp [MailHist.post, MailHist.signal, MailHist.grant, MailHist.grants, htu, Ne.symm htu]
  have hbl : ∀ t, (MailHist.upd k .exec h).blocks t =
      MailHist.blocks { h with sem := SemHist.upd k .exec h.sem } t := fun t => by
    simp only [MailHist.blocks, hsem]
  have hsum : ∀ t, (MailHist.upd k .exec h).grants t + (MailHist.upd k .exec h).blocks t =
      h.grants t + h.blocks t := fun t => by rw [hgr, hbl, hP.grants_blocks]
  -- the send is in flight until this `V`
  have how : ∀ d', h.inFlight.count (k.cpu, d') = if d = d' then 1 else 0 := fun d' => by
    have h0 := hM.owed k.cpu d'
    rw [ctx_cpu, hc] at h0
    simpa [owing] using h0
  have hmem : (k.cpu, d) ∈ h.inFlight := by
    rw [← List.count_pos_iff, how, if_pos rfl]
    omega
  have hown : owing k'.code = none := by
    rcases hP.code with h1 | h1 <;> rw [h1] <;> simpa [owing] using hl
  refine hM.of_ctx hB hsem ?_ (by rw [hin]; exact hM.inBox) hctx ?_ (fun t ht => .none ?_)
    (fun _ _ => List.Subset.refl _) (fun t ht => ?_) (fun t _ => hsum t) (fun d' => ?_) (fun c d' hne => ?_)
    (fun x hx => ?_) fun p hp => ?_
  · exact hP.boxes hM.boxes
  · exact hP.wf hwf
  · exact hP.noNode ((hM.scan_cpu hc ht).tail (by simp))
  · have h0 := hM.grant t
    rw [← ht, ctx_cpu, hc] at h0
    rw [hsum, ← h0]
    rcases hP.code with h1 | h1 <;> rw [h1] <;> simp [want]
  · rw [hfl, hown, List.count_erase, how]
    by_cases hdd : d = d' <;> simp [hdd]
  · rw [hfl, List.count_erase_of_ne]
    intro e
    exact hne (Prod.mk.inj e).1
  · rw [hfl] at hx
    have := hM.dest x (List.mem_of_mem_erase hx)
    simpa only [Thread, hP.created] using this
  · rw [hP.created] at hp
    have h0 := hM.count p hp
    have h1 := flight_erase (p := p) hmem
    rw [hgr, MailHist.flight, hfl]
    simp only [MailHist.flight] at h0
    by_cases hpd : p = d
    · subst hpd
      have h2 := hP.count hp
      simp only [if_true] at h1
      omega
    · have hw : k.woken (.msgSem d) ≠ some p := fun hw => hpd (hP.woken p hw).1
      rw [hP.other p hpd, if_neg hw]
      simp only [Ne.symm hpd, if_false] at h1
      omega

/-- The `V` of a selective `receive` that found no match. -/
theorem MailInv.exec_giveBack (hM : MailInv k b h) (hS : SemInv k q h.sem) (hB : Base k q) {d : ℕ}
    (hc : k.code = .vTest (.msgSem d) .giveBack :: rest)
    (hx : Exec k q rest (.vTest (.msgSem d) .giveBack) k' q') :
    MailInv k' b (MailHist.upd k .exec h) := by
  have hP := hM.posted hS hB hc hx
  obtain ⟨⟨hcd, hw0⟩, hwf⟩ := hM.wf_cpu hc
  have ht : k.trap = none := by
    cases ht : k.trap with
    | none => rfl
    | some fr =>
      rw [cpu_handler (by rw [ht]; rfl)] at hcd
      cases hcd
  have hdc : k.sched.current = d := by
    rw [cpu_thread ht] at hcd
    exact Option.some.inj hcd
  obtain ⟨hg, hb0⟩ := hM.grants_current hS hc ht (by simp) (by simp)
  rw [hdc] at hg hb0
  have hg1 : h.grants d = 1 := hg.symm.trans (by simp [want])
  have hw : k.woken (.msgSem d) = none := by
    cases hw : k.woken (.msgSem d) with
    | none => rfl
    | some u =>
      have := (hP.woken u hw).2.1
      omega
  have hctx := hx.ctx hB hc
  simp only [reduceCtorEq, if_false] at hctx
  have hupd : MailHist.upd k .exec h = MailHist.consume d { h with sem := SemHist.upd k .exec h.sem } := by
    simp only [MailHist.upd, hc, hw, hdc]
    rfl
  have hgr : ∀ t, (MailHist.upd k .exec h).grants t = if t = d then 0 else h.grants t := fun t => by
    by_cases htd : t = d <;> simp [hupd, MailHist.consume, MailHist.grants, htd]
  have hbl : ∀ t, (MailHist.upd k .exec h).blocks t = h.blocks t := fun t => by
    simp [hupd, MailHist.consume, MailHist.blocks, hP.waiting, hw]
  have hfl : (MailHist.upd k .exec h).inFlight = h.inFlight := by rw [hupd]; rfl
  have how := hM.owed k.cpu
  rw [ctx_cpu, hc] at how
  refine hM.of_ctx hB (by rw [hupd]; rfl) ?_ (by rw [hupd]; exact hM.inBox) hctx ?_ (fun t ht => .none ?_)
    (fun _ _ => List.Subset.refl _) (fun t ht => ?_) (fun t ht => ?_) (fun d' => ?_)
    (fun _ _ _ => by rw [hfl]) (fun x hx => ?_) fun p hp => ?_
  · exact hP.boxes hM.boxes
  · exact hP.wf hwf
  · exact hP.noNode ((hM.scan_cpu hc ht).tail (by simp))
  · rw [hcd, Option.some.injEq] at ht
    subst ht
    rw [hgr, hbl, hb0, if_pos rfl]
    rcases hP.code with h1 | h1 <;> rw [h1] <;> simpa [want] using hw0
  · have htd : t ≠ d := fun e => ht (e ▸ hcd)
    rw [hgr, hbl, if_neg htd]
  · rw [hfl]
    rcases hP.code with h1 | h1 <;> rw [h1] <;> exact how d'
  · rw [hfl] at hx
    simpa only [Thread, hP.created] using hM.dest x hx
  · rw [hP.created] at hp
    have h0 := hM.count p hp
    rw [hgr, MailHist.flight, hfl]
    simp only [MailHist.flight] at h0
    by_cases hpd : p = d
    · subst hpd
      have h2 := hP.raised hw hp
      simp only [if_true, hg1] at h0 ⊢
      omega
    · rw [hP.other p hpd, if_neg hpd]
      exact h0

/-! ### Linking and unlinking -/

theorem MailInv.exec_link (hM : MailInv k b h) (hB : Base k q) {d slot : ℕ} {x : MsgData}
    (hc : k.code = .linkMsg d x slot :: rest) (hfree : ∀ i, k.mail.pFree ∉ b i)
    (hx : Exec k q rest (.linkMsg d x slot) k' q') :
    MailInv k' (Function.update b d (b d ++ [k.mail.pFree])) (MailHist.upd k .exec h) := by
  obtain ⟨hl, hwf⟩ := hM.wf_cpu hc
  have hl : owing rest = some d := hl
  have hd : k.Thread d := hB.code (.linkMsg d x slot) (by rw [hc]; simp)
  have hctx := hx.ctx hB hc
  simp only [reduceCtorEq, if_false] at hctx
  have hsem : SemHist.upd k .exec h.sem = h.sem := by simp only [SemHist.upd, hc]
  have hupd : MailHist.upd k .exec h = h.link k.cpu d k.mail.pFree := by
    simp only [MailHist.upd, hc, hsem]
  have how : ∀ d', h.inFlight.count (k.cpu, d') = 0 := fun d' => by
    have h0 := hM.owed k.cpu d'
    rw [ctx_cpu, hc] at h0
    simpa [owing] using h0
  rw [hupd]
  cases hx with
  | linkMsg =>
    have hsub : ∀ t, b t ⊆ Function.update b d (b d ++ [k.mail.pFree]) t := fun t => by
      by_cases htd : t = d
      · subst htd; simp
      · simp [htd]
    refine hM.of_ctx hB hsem.symm (hM.boxes.linkMsg hd hfree) (fun s i => ?_) hctx hwf
      (fun t ht => .none ((hM.scan_cpu hc ht).tail (by simp))) (fun t _ => hsub t) (fun t ht => ?_)
      (fun t _ => rfl) (fun d' => ?_) (fun c d' hne => ?_) (fun y hy => ?_) fun p hp => ?_
    · simp only [MailHist.link, Function.update_apply]
      by_cases hs : s = k.mail.pFree
      · subst hs
        simp only [if_true, Option.some.injEq]
        by_cases hid : i = d
        · simp [hid]
        · simp [hid, Ne.symm hid, hfree i]
      · rw [if_neg hs, hM.inBox]
        by_cases hid : i = d
        · simp [hid, hs]
        · simp [hid]
    · have h0 := hM.grant t
      rw [← ht, ctx_cpu, hc] at h0
      exact h0
    · rw [hl]
      simp only [MailHist.link, List.count_cons, how]
      by_cases hdd : d = d' <;> simp [hdd]
    · simp only [MailHist.link, List.count_cons]
      simp [Ne.symm hne]
    · rcases List.mem_cons.mp hy with rfl | hy
      · exact hd
      · exact hM.dest y hy
    · have h0 := hM.count p hp
      have hg : (h.link k.cpu d k.mail.pFree).grants p = h.grants p := rfl
      rw [hg]
      simp only [MailHist.flight, MailHist.link, List.countP_cons] at h0 ⊢
      by_cases hpd : p = d
      · subst hpd
        simp only [Function.update_self, List.length_append, List.length_singleton, decide_true, if_true]
        push_cast
        omega
      · simp [hpd, Ne.symm hpd, h0]

/-- Thread `t`, the current one, unlinks slot `s` of its mailbox. -/
theorem MailInv.unlink (hM : MailInv k b h) (hS : SemInv k q h.sem) (hB : Base k q) {s : ℕ}
    (hc : k.code = i :: rest) (ht : k.trap = none) (hi : want (i :: rest) = 1) (hr : want rest = 0)
    (hu : i ≠ .unlock) (h80 : i ≠ .int80) (hlk : i ≠ .lock) (how' : owing (i :: rest) = owing rest)
    (hs : s ∈ b k.sched.current)
    (hupd : MailHist.upd k .exec h = h.unlink k.sched.current s)
    (hsem : SemHist.upd k .exec h.sem = h.sem)
    (hctx : ∀ c, k'.ctx c = if c = k.cpu then .unlock :: .copyOut (.slot s) :: rest else k.ctx c)
    (hmail : k'.mail = k.mail.unlinkMsg (.slot s)) (hsch : k'.sched = k.sched) :
    MailInv k' (Function.update b k.sched.current ((b k.sched.current).erase s))
      (MailHist.upd k .exec h) := by
  obtain ⟨-, hwf⟩ := hM.wf_cpu hc
  obtain ⟨hg, hb0⟩ := hM.grants_current hS hc ht hu h80
  rw [hi] at hg
  have hcpu := cpu_thread ht
  have hth : k'.Thread = k.Thread := by
    funext t
    simp only [Thread, hsch]
  have hgr : ∀ t, (h.unlink k.sched.current s).grants t =
      if t = k.sched.current then 0 else h.grants t := fun t => by
    by_cases htc : t = k.sched.current <;> simp [MailHist.unlink, MailHist.consume, MailHist.grants, htc]
  have how := hM.owed k.cpu
  rw [ctx_cpu, hc, how'] at how
  have hnd := hM.boxes.nodup k.sched.current
  rw [hupd]
  refine hM.of_ctx hB hsem.symm ?_ (fun s' j => ?_) hctx ?_ (fun t ht' => .none ?_) (fun t ht' => ?_)
    (fun t ht' => ?_) (fun t ht' => ?_) how (fun _ _ _ => rfl) (fun y hy => ?_) fun p hp => ?_
  · rw [hmail, hth]
    exact hM.boxes.unlinkMsg hs
  · simp only [MailHist.unlink, Function.update_apply]
    by_cases hss : s' = s
    · subst hss
      simp only [if_true, reduceCtorEq, false_iff]
      by_cases hj : j = k.sched.current
      · subst hj
        simpa using hnd.not_mem_erase
      · rw [if_neg hj]
        exact fun hm => hj (hM.boxes.unique hm hs)
    · rw [if_neg hss]
      by_cases hj : j = k.sched.current
      · subst hj
        rw [if_pos rfl, List.mem_erase_of_ne hss]
        exact hM.inBox s' _
      · rw [if_neg hj]
        exact hM.inBox s' j
  · simpa [WF, Local] using hwf
  · simpa [NoNode] using (hM.scan_cpu hc ht').tail hlk
  · have htc : t ≠ k.sched.current := fun e => ht' (e ▸ hcpu)
    simp [htc]
  · rw [hcpu, Option.some.injEq] at ht'
    subst ht'
    have hbl : (h.unlink k.sched.current s).blocks k.sched.current = h.blocks k.sched.current := rfl
    rw [hgr, hbl, hb0, if_pos rfl]
    simpa [want] using hr
  · have htc : t ≠ k.sched.current := fun e => ht' (e ▸ hcpu)
    rw [hgr, if_neg htc]
    rfl
  · rw [hth]
    exact hM.dest y hy
  · rw [hsch] at hp ⊢
    have h0 := hM.count p hp
    have hf : (h.unlink k.sched.current s).flight p = h.flight p := rfl
    rw [hgr, hf]
    by_cases hpc : p = k.sched.current
    · subst hpc
      have hlen := List.length_erase_of_mem hs
      have hpos := List.length_pos_of_mem hs
      simp only [Function.update_self, if_true]
      omega
    · simpa [hpc] using h0

/-- `receive(ANY)` comes to its unlinking with a message in the mailbox. -/
theorem MailInv.recvHead_slot (hM : MailInv k b h) (hS : SemInv k q h.sem) (hB : Base k q)
    (hc : k.code = .recvHead :: rest) : ∃ s l, b k.sched.current = s :: l := by
  have ht := hB.no_trap hc id
  have h0 : k.sched.current ≠ 0 := hB.code .recvHead (by rw [hc]; simp)
  have hcr := hB.current.resolve_left h0
  have hg := (hM.grants_current hS hc ht (by simp) (by simp)).1
  have hcount := hM.count _ hcr
  have htok := hM.token_nonneg hS hB hcr
  simp only [want] at hg
  cases hb : b k.sched.current with
  | nil =>
    rw [hb, ← hg] at hcount
    simp only [List.length_nil] at hcount
    omega
  | cons s l => exact ⟨s, l, rfl⟩

/-- What a selective `receive` looks at next is in its mailbox. -/
theorem scan_next {l : List ℕ} {t : ℕ} {src : ℤ} {n : MailNode} (hr : ∀ j ∈ rest, NoNode j)
    (hn : n = .box t ∨ ∃ s ∈ l, n = .slot s) : Scan l t (.scan src n :: rest) := by
  rcases hn with rfl | ⟨s, hs, rfl⟩
  · exact .back hr
  · exact .look hs hr

theorem headD_slot (l : List ℕ) (t : ℕ) :
    (l.map MailNode.slot).headD (.box t) = .box t ∨ ∃ s ∈ l, (l.map MailNode.slot).headD (.box t) = .slot s := by
  cases l with
  | nil => exact Or.inl rfl
  | cons s l => exact Or.inr ⟨s, List.mem_cons_self, rfl⟩

theorem MailInv.exec_userP (hM : MailInv k b h) (hS : SemInv k q h.sem) (hB : Base k q) {a : ℕ}
    (hc : k.code = .pTest (.user a) :: rest) (hx : Exec k q rest (.pTest (.user a)) k' q') :
    MailInv k' b (MailHist.upd k .exec h) := by
  obtain ⟨hl, hwf⟩ := hM.wf_cpu hc
  have hno : ∀ t, k.cpu = some t → ∀ j ∈ rest, NoNode j := fun t ht => (hM.scan_cpu hc ht).tail (by simp)
  have hctx := hx.ctx hB hc
  cases hx with
  | take hσ htok =>
    simp only [reduceCtorEq, if_false] at hctx
    refine hM.neutral hB (by simp only [MailHist.upd, hc]) hM.boxes (fun _ h => h) hctx hwf
      (fun t ht => .none (hno t ht)) (by rw [hc]; rfl) (by rw [hc]; rfl)
      (fun t m => by simp only [SemHist.upd, hc, if_pos htok]; rfl) fun p hp => ?_
    simpa using hM.count p hp
  | block hσ htok h0 =>
    have hcur := hS.not_waiting hc (hB.no_trap hc id) (by simp) (by simp)
    simp only [reduceCtorEq, if_false] at hctx
    refine hM.neutral hB (by simp only [MailHist.upd, hc]) hM.boxes (fun _ h => h) hctx
      (by simpa [WF, Local] using hwf) (fun t ht => .none (by simpa [NoNode] using hno t ht))
      (by rw [hc]; rfl) (by rw [hc]; rfl) (fun t m => ?_) hM.count
    simp only [SemHist.upd, hc, if_neg (show ¬ 0 < k.sched.token (.user a) by omega),
      Function.update_apply]
    by_cases htc : t = k.sched.current
    · simp [htc, hcur]
    · rw [if_neg htc]

/-- `V` on a semaphore that is not a `msg_sem`: neither `send` nor `receive`
makes such a call. -/
theorem MailInv.exec_userV (hM : MailInv k b h) (hS : SemInv k q h.sem) (hB : Base k q) {a : ℕ}
    {site : VSite} (hc : k.code = .vTest (.user a) site :: rest)
    (hx : Exec k q rest (.vTest (.user a) site) k' q') : MailInv k' b (MailHist.upd k .exec h) := by
  obtain ⟨hl, hwf⟩ := hM.wf_cpu hc
  have hno : ∀ t, k.cpu = some t → ∀ j ∈ rest, NoNode j := fun t ht => (hM.scan_cpu hc ht).tail (by simp)
  have hwant : want rest = want k.code := by
    cases site with
    | giveBack => exact hl.elim
    | send => exact hl.elim
    | call => rw [hc]; rfl
  have hctx := hx.ctx hB hc
  cases hx with
  | raise hσ hq =>
    simp only [reduceCtorEq, if_false] at hctx
    refine hM.neutral hB (by simp only [MailHist.upd, hc]) hM.boxes (fun _ h => h) hctx hwf
      (fun t ht => .none (hno t ht)) hwant (by rw [hc]; rfl) (fun t m => ?_) fun p hp => ?_
    · simp only [SemHist.upd, hc, woken_of_not_wakes (hB.wakes_of_empty hσ hq)]
      rfl
    · simpa using hM.count p hp
  | wake hσ hq hcr hst =>
    rename_i u r
    simp only [reduceCtorEq, if_false] at hctx
    have hu : h.sem.waiting u = some (.user a) := (hS.waiting u _).mpr (by rw [hq]; simp)
    refine hM.neutral hB (by simp only [MailHist.upd, hc]) hM.boxes (fun _ h => h) hctx
      (by simpa [WF, Local] using hwf) (fun t ht => .none (by simpa [NoNode] using hno t ht))
      hwant (by rw [hc]; rfl) (fun t m => ?_) hM.count
    simp only [SemHist.upd, hc, hB.woken_of_mem hσ hq, Function.update_apply]
    by_cases htu : t = u
    · simp [htu, hu]
    · rw [if_neg htu]

/-- `create_kthread`: nobody sends to a thread before it exists, and it has not
called `receive`. -/
theorem MailInv.exec_kthread (hM : MailInv k b h) (hB : Base k q) (hc : k.code = .kthread :: rest)
    (hx : Exec k q rest .kthread k' q') : MailInv k' b (MailHist.upd k .exec h) := by
  obtain ⟨hl, hwf⟩ := hM.wf_cpu hc
  have hno : ∀ t, k.cpu = some t → ∀ j ∈ rest, NoNode j := fun t ht => (hM.scan_cpu hc ht).tail (by simp)
  have hctx := hx.ctx hB hc
  cases hx with
  | kthread hI hq hcr hcur hscr hin htok =>
    rename_i t r s
    simp only [reduceCtorEq, if_false] at hctx
    have hnew := hB.not_thread_of_free hq
    have hth : ∀ j, (j = 0 ∨ s.created j = true) ↔ k.Thread j ∨ j = t := fun j => by
      by_cases hj : j = t
      · simp [hj, hscr]
      · simp [Thread, hj, hscr]
    refine hM.neutral hB (by simp only [MailHist.upd, hc]) (hM.boxes.initBox hnew hth)
      (fun j hj => (hth j).mpr (Or.inl hj)) hctx (by simpa [WF, Local] using hwf)
      (fun t ht => .none (by simpa [NoNode] using hno t ht))
      (by rw [hc]; rfl) (by rw [hc]; rfl) (fun t m => by simp only [SemHist.upd, hc]) fun p hp => ?_
    by_cases hpt : p = t
    · subst hpt
      have hfl : h.flight p = 0 := by
        rw [MailHist.flight, List.countP_eq_zero]
        intro x hx hxp
        have hxp' : x.2 = p := by simpa using hxp
        exact hnew (hxp' ▸ hM.dest x hx)
      have hg := hM.grant p
      have hctx0 : k.ctx (some p) = [] := hB.fresh p hnew
      rw [hctx0] at hg
      have hg0 : h.grants p = 0 := by
        simp only [want] at hg
        omega
      simp [hM.boxes.empty p hnew, htok, hfl, hg0]
    · have hp' : k.sched.created p = true := by simpa [hscr, hpt] using hp
      simpa [htok, hpt] using hM.count p hp'

/-- An instruction that has nothing to do with mailboxes. -/
theorem MailInv.exec_other (hM : MailInv k b h) (hS : SemInv k q h.sem) (hB : Base k q)
    (hc : k.code = i :: rest) (hx : Exec k q rest i k' q')
    (hm : match i with
      | .pTest (.msgSem _) | .vTest (.msgSem _) _ | .copyMsg _ _ | .linkMsg _ _ _ | .recvHead
      | .scanFirst _ | .scan _ _ | .recvNode _ => False
      | _ => True) : MailInv k' b (MailHist.upd k .exec h) := by
  obtain ⟨hl, hwf⟩ := hM.wf_cpu hc
  have hno : ∀ t, i ≠ .lock → k.cpu = some t → ∀ j ∈ rest, NoNode j := fun t hi ht =>
    (hM.scan_cpu hc ht).tail hi
  have hctx := hx.ctx hB hc
  cases hx with
  | lock =>
    simp only [reduceCtorEq, if_false] at hctx
    exact hM.neutral hB (by simp only [MailHist.upd, hc]) hM.boxes (fun _ h => h) hctx hwf
      (fun t ht => (hM.scan_cpu hc ht).of_lock) (by rw [hc]; rfl) (by rw [hc]; rfl)
      (fun t m => by simp only [SemHist.upd, hc]) hM.count
  | int80 =>
    simp only [if_true] at hctx
    exact hM.neutral hB (by simp only [MailHist.upd, hc]) hM.boxes (fun _ h => h) hctx hwf
      (fun t ht => .none (hno t (by simp) ht)) (by rw [hc]; rfl) (by rw [hc]; rfl)
      (fun t m => by simp only [SemHist.upd, hc]) hM.count
  | unlock | pWake | makeReady | kthreadEnd | copyOut | hlt =>
    simp only [reduceCtorEq, if_false] at hctx
    exact hM.neutral hB (by simp only [MailHist.upd, hc]) hM.boxes (fun _ h => h) hctx hwf
      (fun t ht => .none (hno t (by simp) ht)) (by rw [hc]; rfl) (by rw [hc]; rfl)
      (fun t m => by simp only [SemHist.upd, hc]) hM.count
  | sleepOn | wakeupTest =>
    simp only [reduceCtorEq, if_false] at hctx
    exact hM.neutral hB (by simp only [MailHist.upd, hc]) hM.boxes (fun _ h => h) hctx
      (by simpa [WF, Local] using hwf) (fun t ht => .none (by simpa [NoNode] using hno t (by simp) ht))
      (by rw [hc]; rfl) (by rw [hc]; rfl) (fun t m => by simp only [SemHist.upd, hc]) hM.count
  | semInit hσ =>
    simp only [reduceCtorEq, if_false] at hctx
    refine hM.neutral hB (by simp only [MailHist.upd, hc]) hM.boxes (fun _ h => h) hctx hwf
      (fun t ht => .none (hno t (by simp) ht)) (by rw [hc]; rfl) (by rw [hc]; rfl)
      (fun t m => by simp only [SemHist.upd, hc]; rfl) fun p hp => ?_
    simpa [Sched.createSem] using hM.count p hp
  | take hσ htok =>
    rename_i σ
    cases σ with
    | msgSem m => exact hm.elim
    | user a => exact hM.exec_userP hS hB hc (.take hσ htok)
  | block hσ htok h0 =>
    rename_i σ
    cases σ with
    | msgSem m => exact hm.elim
    | user a => exact hM.exec_userP hS hB hc (.block hσ htok h0)
  | raise hσ hq =>
    rename_i σ site
    cases σ with
    | msgSem m => exact hm.elim
    | user a => exact hM.exec_userV hS hB hc (.raise hσ hq)
  | wake hσ hq hcr hst =>
    rename_i σ site u r
    cases σ with
    | msgSem m => exact hm.elim
    | user a => exact hM.exec_userV hS hB hc (.wake hσ hq hcr hst)
  | kthread => exact hM.exec_kthread hB hc (by constructor <;> assumption)
  | _ => exact hm.elim

theorem MailInv.exec_copy (hM : MailInv k b h) (hB : Base k q) {d : ℕ} {x : Msg}
    (hc : k.code = .copyMsg d x :: rest) (hfree : ∀ i, k.mail.pFree ∉ b i)
    (hx : Exec k q rest (.copyMsg d x) k' q') : MailInv k' b (MailHist.upd k .exec h) := by
  obtain ⟨hl, hwf⟩ := hM.wf_cpu hc
  have hl : owing rest = none := hl
  have hctx := hx.ctx hB hc
  cases hx with
  | copyMsg hy =>
    simp only [reduceCtorEq, if_false] at hctx
    refine hM.neutral hB (by simp only [MailHist.upd, hc]) (hM.boxes.copyMsg hfree _) (fun _ h => h) hctx
      ?_ (fun t ht => .none ?_) (by rw [hc]; rfl) (by rw [hc]; rfl)
      (fun t m => by simp only [SemHist.upd, hc]) hM.count
    · simp [WF, Local, codeV, owing, hl, hwf]
    · simpa [NoNode, codeV] using (hM.scan_cpu hc ht).tail (by simp)

theorem MailInv.exec_scan (hM : MailInv k b h) (hB : Base k q) (hc : k.code = i :: rest)
    (hx : Exec k q rest i k' q')
    (hi : match i with
      | .scanFirst _ | .scan _ _ => True
      | _ => False) : MailInv k' b (MailHist.upd k .exec h) := by
  have ht : k.trap = none := hB.no_trap hc (by cases i <;> first | exact hi.elim | exact id)
  have hcpu := cpu_thread ht
  obtain ⟨hl, hwf⟩ := hM.wf_cpu hc
  have hsc := hM.scan_cpu hc hcpu
  have hctx := hx.ctx hB hc
  have hown : k.Thread k.sched.current := hB.current
  have heq : ∀ t, k.cpu = some t → t = k.sched.current := fun t h' => by
    rw [hcpu] at h'
    exact (Option.some.inj h').symm
  cases hx with
  | scanFirst hn =>
    simp only [reduceCtorEq, if_false] at hctx
    have hl : want rest = 0 := hl
    refine hM.neutral hB (by simp only [MailHist.upd, hc]) hM.boxes (fun _ h => h) hctx ⟨hl, hwf⟩
      (fun t h' => ?_) (by rw [hc]; rfl) (by rw [hc]; rfl) (fun t m => by simp only [SemHist.upd, hc])
      hM.count
    rw [heq t h']
    rw [hM.boxes.next_box hown, Option.some.injEq] at hn
    exact scan_next (hsc.tail (by simp)) (hn ▸ headD_slot _ _)
  | scanEnd =>
    rename_i src
    simp only [reduceCtorEq, if_false] at hctx
    have hl : want rest = 0 := hl
    refine hM.neutral hB (by simp only [MailHist.upd, hc]) hM.boxes (fun _ h => h) hctx ?_
      (fun t h' => .none ?_) ?_ ?_ (fun t m => by simp only [SemHist.upd, hc]) hM.count
    · rw [hcpu] at hwf ⊢
      simp [codeV, WF, Local, want, want_receive, wf_receive _ src hwf hl]
    · have hr := hsc.tail (by simp)
      simp only [codeV, List.cons_append, List.nil_append, List.mem_cons, List.mem_append]
      rintro j (rfl | rfl | rfl | rfl | hj | hj)
      all_goals first | trivial | exact noNode_receive _ _ j hj | exact hr j hj
    · rw [hc]
      simp [codeV, want]
    · rw [hc]
      simp [codeV, owing, owing_receive]
  | scanHit hx hsrc =>
    rename_i src n x
    simp only [reduceCtorEq, if_false] at hctx
    have hl : want rest = 0 := hl
    refine hM.neutral hB (by simp only [MailHist.upd, hc]) hM.boxes (fun _ h => h) hctx
      (by simp [WF, Local, hl, hwf]) (fun t h' => ?_) (by rw [hc]; rfl) (by rw [hc]; rfl)
      (fun t m => by simp only [SemHist.upd, hc]) hM.count
    rw [heq t h']
    cases hsc with
    | none h => exact (h _ List.mem_cons_self).elim
    | back h => cases hx
    | look hs h => exact .lock hs h
  | scanNext hx hsrc hn =>
    rename_i src n n' x
    simp only [reduceCtorEq, if_false] at hctx
    have hl : want rest = 0 := hl
    refine hM.neutral hB (by simp only [MailHist.upd, hc]) hM.boxes (fun _ h => h) hctx ⟨hl, hwf⟩
      (fun t h' => ?_) (by rw [hc]; rfl) (by rw [hc]; rfl) (fun t m => by simp only [SemHist.upd, hc])
      hM.count
    rw [heq t h']
    cases hsc with
    | none h => exact (h _ List.mem_cons_self).elim
    | back h => cases hx
    | look hs h =>
      obtain ⟨l, r, hb⟩ := List.append_of_mem hs
      rw [hM.boxes.next_slot hb, Option.some.injEq] at hn
      have hn' := headD_slot r k.sched.current
      rw [hn] at hn'
      refine scan_next h (hn'.imp id ?_)
      rintro ⟨s', hs', e⟩
      refine ⟨s', ?_, e⟩
      rw [hb]
      exact List.mem_append_right _ (List.mem_cons_of_mem _ hs')
  | _ => exact hi.elim

theorem MailInv.exec (hM : MailInv k b h) (hS : SemInv k q h.sem) (hB : Base k q) (hc : k.code = i :: rest)
    (hok : MailOk (k, h) .exec) (hx : Exec k q rest i k' q') :
    ∃ b', MailInv k' b' (MailHist.upd k .exec h) := by
  have hfree : reuses (k, h) = false → (h.inBox k.mail.pFree).isSome = false →
      ∀ j, k.mail.pFree ∉ b j := fun _ hn j hj => by
    rw [(hM.inBox _ j).mpr hj] at hn
    cases hn
  cases i with
  | pTest σ =>
    cases σ with
    | user a => exact ⟨b, hM.exec_other hS hB hc hx trivial⟩
    | msgSem m =>
      by_cases htok : 0 < k.sched.token (.msgSem m)
      · exact ⟨b, hM.exec_take hS hB hc htok hx⟩
      · exact ⟨b, hM.exec_block hS hB hc (by omega) hx⟩
  | vTest σ site =>
    cases σ with
    | user a => exact ⟨b, hM.exec_other hS hB hc hx trivial⟩
    | msgSem d =>
      cases site with
      | send => exact ⟨b, hM.exec_signal hS hB hc hx⟩
      | giveBack => exact ⟨b, hM.exec_giveBack hS hB hc hx⟩
      | call => exact (hM.wf_cpu hc).1.elim
  | copyMsg d x =>
    have hr := hok.2
    exact ⟨b, hM.exec_copy hB hc (hfree hr (by simpa [reuses, hc] using hr)) hx⟩
  | linkMsg d x slot =>
    have hr := hok.2
    exact ⟨_, hM.exec_link hB hc (hfree hr (by simpa [reuses, hc] using hr)) hx⟩
  | recvHead =>
    have ht := hB.no_trap hc id
    obtain ⟨s, l, hb⟩ := hM.recvHead_slot hS hB hc
    have hnext : (k.mail.links (.box k.sched.current)).next = some (.slot s) := by
      rw [hM.boxes.next_box hB.current, hb]
      rfl
    have hctx := hx.ctx hB hc
    have hupd : MailHist.upd k .exec h = h.unlink k.sched.current s := by
      simp only [MailHist.upd, SemHist.upd, hc, hnext]
    cases hx with
    | recvHead hn =>
      rw [hnext, Option.some.injEq] at hn
      subst hn
      simp only [reduceCtorEq, if_false] at hctx
      exact ⟨_, hM.unlink hS hB hc ht rfl (hM.wf_cpu hc).1 (by simp) (by simp) (by simp) rfl
        (by rw [hb]; simp) hupd (by simp only [SemHist.upd, hc]) hctx rfl rfl⟩
  | recvNode n =>
    have ht := hB.no_trap hc id
    have hsc := hM.scan_cpu hc (cpu_thread ht)
    have hctx := hx.ctx hB hc
    cases hsc with
    | none hno => exact (hno _ List.mem_cons_self).elim
    | take hs hno =>
      rename_i s
      have hupd : MailHist.upd k .exec h = h.unlink k.sched.current s := by
        simp only [MailHist.upd, SemHist.upd, hc]
      cases hx with
      | recvNode =>
        simp only [reduceCtorEq, if_false] at hctx
        exact ⟨_, hM.unlink hS hB hc ht rfl (hM.wf_cpu hc).1 (by simp) (by simp) (by simp) rfl hs hupd
          (by simp only [SemHist.upd, hc]) hctx rfl rfl⟩
  | scanFirst src | scan src n => exact ⟨b, hM.exec_scan hB hc hx trivial⟩
  | _ => exact ⟨b, hM.exec_other hS hB hc hx trivial⟩

/-- A context that had come to its end takes up new code. -/
theorem MailInv.enter (hM : MailInv k b h) {c0 : Option ℕ} {code : List Instr} (hmail : k'.mail = k.mail)
    (hsched : k'.sched = k.sched) (hctx : ∀ c, k'.ctx c = if c = c0 then code else k.ctx c) (hold : k.ctx c0 = [])
    (hwf : WF c0 code) (howing : owing code = none)
    (hthread : ∀ t, some t = c0 → want code = 0 ∧ ∀ j ∈ code, NoNode j) : MailInv k' b h := by
  have hth : k'.Thread = k.Thread := by
    unfold Thread
    rw [hsched]
  refine ⟨?_, hM.inBox, fun c => ?_, fun t => ?_, fun t => ?_, fun c d => ?_, ?_, hM.waiter, hM.value, ?_⟩
  · rw [hmail, hth]
    exact hM.boxes
  · rw [hctx]
    split_ifs with hcc
    · exact hcc ▸ hwf
    · exact hM.wf c
  · rw [hctx]
    split_ifs with hcc
    · exact .none (hthread t hcc).2
    · exact hM.scan t
  · have h0 := hM.grant t
    rw [hctx]
    split_ifs with hcc
    · rw [hcc, hold] at h0
      rw [(hthread t hcc).1]
      exact h0
    · exact h0
  · have h0 := hM.owed c d
    rw [hctx]
    by_cases hcc : c = c0
    · rw [hcc, hold] at h0
      rw [if_pos hcc, howing, hcc]
      exact h0
    · rw [if_neg hcc]
      exact h0
  · rw [hth]
    exact hM.dest
  · rw [hsched]
    exact hM.count

/-- A step keeps the counts. -/
theorem MailInv.step (hM : MailInv k b h) (hS : SemInv k q h.sem) (hB : Base k q) {a : Action}
    (ho : k.Ok a) (hok : MailOk (k, h) a) (hx : Step k q a k' q') :
    ∃ b', MailInv k' b' (MailHist.upd k a h) := by
  cases hx with
  | exec hc hx => exact hM.exec hS hB hc hok hx
  | proc hc ht hcur =>
    rename_i fr c
    have hupd : MailHist.upd k .exec h = h := by simp only [MailHist.upd, SemHist.upd, hc]
    have hctx := ctx_returnTo (t := c) hc ht
    rw [hupd]
    exact ⟨b, hM.boxes, hM.inBox, fun c => by rw [hctx]; exact hM.wf c,
      fun t => by rw [hctx]; exact hM.scan t, fun t => by rw [hctx]; exact hM.grant t,
      fun c d => by rw [hctx]; exact hM.owed c d, hM.dest, hM.waiter, hM.value, hM.count⟩
  | call hc ht =>
    rename_i cl
    have hupd : MailHist.upd k (.call cl) h = h := by simp only [MailHist.upd, SemHist.upd]
    obtain ⟨hwf, hwant, howing, hnode⟩ := wf_call k.sched.current hok
    have hold : k.ctx (some k.sched.current) = [] := by rw [← cpu_thread ht, ctx_cpu, hc]
    rw [hupd]
    exact ⟨b, hM.enter rfl rfl (ctx_call ht (cl.code k.sched.current)) hold hwf howing fun _ _ => ⟨hwant, hnode⟩⟩
  | irq hi ht =>
    rename_i hs
    have hupd : MailHist.upd k (.irq hs) h = h := by simp only [MailHist.upd, SemHist.upd]
    obtain ⟨hwf, howing⟩ := wf_handler k.sched.current hs (fun c hc => (ho c hc).1) hok
    rw [hupd]
    exact ⟨b, hM.enter rfl rfl (ctx_irq ht (hs.flatMap (Call.code k.sched.current))) (ctx_none ht) hwf howing
      fun t ht' => absurd ht' (Option.some_ne_none t)⟩

end inv

theorem mailInv_boot (b : Bool) : MailInv (boot b) (fun _ => []) MailHist.init := by
  refine ⟨?_, fun s i => by simp [MailHist.init], fun c => ?_, fun t => ?_, fun t => ?_, fun c d => ?_,
    by simp [MailHist.init], fun t m hw => ?_, fun _ => rfl, fun p hp => ?_⟩
  · have hth : (boot b).Thread = fun i => i = 0 := by
      funext i
      simp [Thread, boot, start, Sched.initProc, Sched.zero]
    rw [hth]
    exact Mail.boxes_init
  · rw [ctx_boot]
    trivial
  · rw [ctx_boot]
    exact .none (by simp)
  · rw [ctx_boot]
    rfl
  · rw [ctx_boot]
    rfl
  · cases hw
  · cases hp

theorem reach_mail {b : Bool} {ok : Kernel × MailHist → Action → Prop} {p : Kernel × MailHist}
    (hok : ∀ p a, ok p a → p.1.Ok a ∧ MailOk p a) (h : Reach mailStep ok (boot b, MailHist.init) p) :
    ∃ q bx, Base p.1 q ∧ SemInv p.1 q p.2.sem ∧ MailInv p.1 bx p.2 := by
  refine h.invariant (I := fun p => ∃ q bx, Base p.1 q ∧ SemInv p.1 q p.2.sem ∧ MailInv p.1 bx p.2)
    ⟨_, _, base_boot b, semInv_boot b, mailInv_boot b⟩ ?_
  rintro ⟨k, h⟩ a ⟨k', h'⟩ ⟨q, bx, hB, hS, hM⟩ ho hs
  obtain ⟨hs, rfl⟩ := withHistory_eq_some.mp hs
  obtain ⟨ho, hmo⟩ := hok _ _ ho
  obtain ⟨q', hx⟩ := hB.step_cases ho hs
  obtain ⟨bx', hM'⟩ := hM.step hS hB ho hmo hx
  simp only at hs hM' ⊢
  rw [MailHist.upd_sem]
  exact ⟨q', bx', hB.of_step ho hx, hS.step hB hmo.noSteal hx, hM'⟩

/-- **A mailbox and its semaphore stay in step.** In every run in which every
message is unlinked before its slot is used again, for every thread: the
length of its mailbox is the token of its semaphore, plus the sends that have
linked and not yet called `V`, plus one if it has come through `P` and not yet
unlinked or given back; `receive(ANY)` never unlinks from an empty mailbox;
and while it is blocked in `receive`, its mailbox holds as many messages as
sends to it have linked and not yet called `V`. -/
theorem mail_in_step {b : Bool} {p : Kernel × MailHist} {t : ℕ}
    (h : Reach mailStep (fun p a => p.1.Ok a ∧ MailOk p a) (boot b, MailHist.init) p)
    (ht : p.1.sched.created t = true) :
    ∃ l : List ℕ, Ring p.1.mail.links (.box t) (l.map MailNode.slot) ∧
      (l.length : ℤ) = p.1.sched.token (.msgSem t) + p.2.flight t + p.2.grants t ∧
      (∀ rest, p.1.sched.current = t → p.1.code = .recvHead :: rest → l ≠ []) ∧
      (p.2.sem.waiting t = some (.msgSem t) → l.length = p.2.flight t) := by
  obtain ⟨q, bx, hB, hS, hM⟩ := reach_mail (fun _ _ h => h) h
  have hcount := hM.count t ht
  refine ⟨bx t, hM.boxes.ring (Or.inr ht), hcount, fun rest hcur hc => ?_, fun hw => ?_⟩
  · obtain ⟨s, l, hb⟩ := hM.recvHead_slot hS hB hc
    rw [← hcur, hb]
    simp
  · have hq : q (.sem (.msgSem t)) ≠ [] := List.ne_nil_of_mem ((hS.waiting t _).mp hw)
    have h0 := (hS.lawful _ (hB.up t ht)).zero (by have := hM.value t; omega) hq
    have hg := hM.grant t
    have hb1 : p.2.blocks t = 1 := by simp [MailHist.blocks, hw]
    have h1 := want_le_one (p.1.ctx (some t))
    omega

/-- Three threads come up and are made ready, and thread 1 runs. -/
def threeThreads : List Action :=
  [.call .createKthread, .exec, .exec, .exec, .call .createKthread, .exec, .exec, .exec,
    .call .createKthread, .exec, .exec, .exec, .call (.wakeup 1), .exec, .exec, .exec, .exec,
    .call (.wakeup 2), .exec, .exec, .exec, .exec, .call (.wakeup 3), .exec, .exec, .exec, .exec,
    .irq [], .exec]

/-- A message whose `src` is left to `send`. -/
def letter : Msg := { MsgData.zero with list := ⟨none, none⟩ }

/-- Thread 2 has linked a message for thread 1 and not yet called `V`. -/
theorem mail_in_step_linked : ∃ p, Reach mailStep (fun p a => p.1.Ok a ∧ MailOk p a)
    (boot false, MailHist.init) p ∧ p.2.flight 1 = 1 ∧
    ∃ l : List ℕ, Ring p.1.mail.links (.box 1) (l.map MailNode.slot) ∧ l.length = 1 := by
  have h : ∃ p, Reach mailStep (fun p a => p.1.Ok a ∧ MailOk p a) (boot false, MailHist.init) p ∧
      (p.1.sched.created 1 = true ∧ p.1.sched.token (.msgSem 1) = 0 ∧ p.2.flight 1 = 1 ∧
        p.2.grants 1 = 0) := by
    rw [boot_eq]
    exact Reach.exists_of_exec
      (threeThreads ++ [Action.irq [], .exec, .call (.send 1 letter), .exec, .exec, .exec]) (by decide +kernel)
  obtain ⟨p, hr, ht, htok, hf, hg⟩ := h
  obtain ⟨l, hring, hl, -⟩ := mail_in_step hr ht
  exact ⟨p, hr, hf, l, hring, by omega⟩

/-- Thread 2 sends to thread 1 and is done; thread 3 has linked a message for
it and not yet called `V`; thread 1 takes that one with `receive(3)`. Its
`receive(ANY)` then blocks, with the message of thread 2, whose `V` is done,
in its mailbox. -/
theorem receive_blocks_on_mail : ∃ p, Reach mailStep (fun p a => p.1.Ok a ∧ MailOk p a)
    (boot false, MailHist.init) p ∧ (p.2.sem.waiting 1 = some (.msgSem 1) ∧
      .recvHead ∈ p.1.ctx (some 1) ∧ (p.1.mail.links (.box 1)).next = some (.slot 0) ∧
      p.2.inBox 0 = some 1 ∧ p.2.signalled 0 = true) := by
  rw [boot_eq]
  exact Reach.exists_of_exec
    (threeThreads ++ [Action.irq [], .exec, .call (.send 1 letter)] ++ List.replicate 7 Action.exec ++
      [Action.irq [], .exec, .call (.send 1 letter)] ++ List.replicate 4 Action.exec ++
      [Action.irq [], .exec, .call (.receive 3)] ++ List.replicate 10 Action.exec ++
      [Action.call (.receive anySrc)] ++ List.replicate 5 Action.exec) (by decide +kernel)

end Kernel
end NanoOS
