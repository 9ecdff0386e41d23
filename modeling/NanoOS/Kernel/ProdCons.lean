/-
# Producers and consumers on the kernel

Threads run `test_producer` and `test_consumer` on the preemptible machine,
their `P` and `V` being the kernel's, next to other threads and interrupt
handlers that may do anything but touch the three semaphores. A `P` goes
through when its thread takes a token or is woken by a `V`, a `V` when it
raises the token or wakes a thread, and with that every run of the machine is
one of the buffer in `NanoOS.Process.Buffer`.

Key definitions: `ProdCons`, `ProdCons.step`, `ProdCons.Ok`, `Where`, `Sim`.
Key theorems: `Sim.exec`, `Sim.step`, `bounded_buffer`.
-/
import NanoOS.Process.Buffer
import NanoOS.Kernel.Semaphore

namespace NanoOS

open Trans Buffer Kernel

/-- The variables `full`, `empty` and `mutex`. -/
def semId : Buffer.Sem → SemId
  | .full => .user 0
  | .empty => .user 1
  | .mutex => .user 2

/-- The call that a statement makes. -/
def Buffer.Stmt.call (st : Stmt) : Option Call :=
  match st.down, st.up with
  | some σ, _ => some (.P (semId σ))
  | none, some σ => some (.V (semId σ))
  | none, none => none

/-- The kernel, the shared memory, and the statement each thread of the two
programs executes next. -/
structure ProdCons where
  kernel : Kernel
  mem : Mem
  pc : ℕ → Option Stmt

namespace ProdCons

/-- What can happen next. -/
inductive Action
  /-- Anything else than a statement of the two programs. -/
  | kernel (a : Kernel.Action)
  /-- The running thread executes its next statement. -/
  | stmt

/-- The current thread is between two calls. -/
def idle (s : ProdCons) : Bool := s.kernel.code.isEmpty && s.kernel.trap.isNone

/-- A statement of thread `t`. -/
def stmtStep (s : ProdCons) (t : ℕ) (st : Stmt) : Option ProdCons :=
  match st.call with
  | some c =>
    (s.kernel.step (.call c)).map fun k => { s with kernel := k, pc := Function.update s.pc t (some st.next) }
  | none => (st.exec t s.mem).map fun m => { s with mem := m, pc := Function.update s.pc t (some st.next) }

/-- The step. -/
def step (s : ProdCons) : Action → Option ProdCons
  | .kernel a => (s.kernel.step a).map fun k => { s with kernel := k }
  | .stmt =>
    if s.idle then (s.pc s.kernel.sched.current).bind (s.stmtStep s.kernel.sched.current) else none

end ProdCons

/-- What was done to the semaphores, how many numbers were stored and fetched,
and which were fetched. -/
structure BufHist where
  sem : SemHist
  produced : ℕ
  consumed : ℕ
  out : List (BitVec 32)

namespace BufHist

def init : BufHist := ⟨SemHist.init, 0, 0, []⟩

/-- The history after a step. -/
def upd (s : ProdCons) (a : ProdCons.Action) (h : BufHist) : BufHist :=
  match a with
  | .kernel a => { h with sem := SemHist.upd s.kernel a h.sem }
  | .stmt =>
    { h with
      produced := h.produced + BoundedBuffer.ind (s.pc s.kernel.sched.current = some .store)
      consumed := h.consumed + BoundedBuffer.ind (s.pc s.kernel.sched.current = some .fetch)
      out := if s.pc s.kernel.sched.current = some .fetch then h.out ++ [s.mem.buf s.mem.r] else h.out }

end BufHist

/-- One of the three semaphores. -/
def Ours (σ : SemId) : Prop := σ = .user 0 ∨ σ = .user 1 ∨ σ = .user 2

instance : DecidablePred Ours := fun _ => inferInstanceAs (Decidable (_ ∨ _ ∨ _))

/-- The value `test_setup` gives the semaphore. -/
def SetupValue (a : ℕ) (v : ℤ) : Prop := ∀ σ : Buffer.Sem, semId σ = .user a → v = σ.value

/-- A call that leaves the three semaphores alone, or sets one up as
`test_setup` does. -/
def ForeignCall : Call → Prop
  | .P σ | .V σ => ¬ Ours σ
  | .createSem a v => SetupValue a v
  | _ => True

theorem setupValue_iff (a : ℕ) (v : ℤ) :
    SetupValue a v ↔ (a = 0 → v = 0) ∧ (a = 1 → v = nbuf) ∧ (a = 2 → v = 1) := by
  constructor
  · intro h
    refine ⟨?_, ?_, ?_⟩
    · rintro rfl
      exact h .full rfl
    · rintro rfl
      exact h .empty rfl
    · rintro rfl
      exact h .mutex rfl
  · rintro ⟨h0, h1, h2⟩ σ hσ
    cases σ with
    | full =>
      cases hσ
      exact h0 rfl
    | empty =>
      cases hσ
      exact h1 rfl
    | mutex =>
      cases hσ
      exact h2 rfl

instance (a : ℕ) (v : ℤ) : Decidable (SetupValue a v) := decidable_of_iff _ (setupValue_iff a v).symm

instance : DecidablePred ForeignCall
  | .P σ | .V σ => inferInstanceAs (Decidable (¬ Ours σ))
  | .createSem a v => inferInstanceAs (Decidable (SetupValue a v))
  | .lock | .unlock | .sleep | .wakeup _ | .createKthread | .send _ _ | .receive _ =>
    inferInstanceAs (Decidable True)

namespace ProdCons

/-- The calls of other threads and of interrupt handlers are foreign; threads
of the two programs do what these say, when the semaphores are there. -/
def Ok (p : ProdCons × BufHist) : Action → Prop
  | .kernel a => p.1.kernel.Ok a ∧ NoSteal (p.1.kernel, p.2.sem) a ∧
    match a with
    | .call c => p.1.pc p.1.kernel.sched.current = none ∧ ForeignCall c
    | .irq hs => ∀ c ∈ hs, ForeignCall c
    | .exec => True
  | .stmt => ∀ c ∈ (p.1.pc p.1.kernel.sched.current).bind Stmt.call, p.1.kernel.CallOk c

instance (p : ProdCons × BufHist) : DecidablePred (Ok p)
  | .kernel (.call c) => inferInstanceAs (Decidable (p.1.kernel.Ok (.call c) ∧
      NoSteal (p.1.kernel, p.2.sem) (.call c) ∧ p.1.pc p.1.kernel.sched.current = none ∧ ForeignCall c))
  | .kernel (.irq hs) => inferInstanceAs (Decidable (p.1.kernel.Ok (.irq hs) ∧
      NoSteal (p.1.kernel, p.2.sem) (.irq hs) ∧ ∀ c ∈ hs, ForeignCall c))
  | .kernel .exec => inferInstanceAs (Decidable (p.1.kernel.Ok .exec ∧
      NoSteal (p.1.kernel, p.2.sem) .exec ∧ True))
  | .stmt => inferInstanceAs (Decidable (∀ c ∈ (p.1.pc p.1.kernel.sched.current).bind Stmt.call,
      p.1.kernel.CallOk c))

/-- The machine with its history. -/
abbrev histStep : ProdCons × BufHist → Action → Option (ProdCons × BufHist) := withHistory step BufHist.upd

/-- At boot, with the threads that will run the two programs. -/
def boot (b : Bool) (pc : ℕ → Option Stmt) : ProdCons := ⟨Kernel.boot b, Mem.init, pc⟩

end ProdCons

/-! ### Instructions of the others -/

/-- An instruction that leaves the three semaphores alone. -/
def ForeignInstr : Instr → Prop
  | .pTest σ | .vTest σ _ => ¬ Ours σ
  | .semInit a v => SetupValue a v
  | _ => True

theorem not_ours_msgSem (i : ℕ) : ¬ Ours (.msgSem i) := by
  unfold Ours
  simp

theorem ours_semId (σ : Buffer.Sem) : Ours (semId σ) := by
  cases σ with
  | full => exact Or.inl rfl
  | empty => exact Or.inr (Or.inl rfl)
  | mutex => exact Or.inr (Or.inr rfl)

theorem semId_injective {σ τ : Buffer.Sem} (h : semId σ = semId τ) : σ = τ := by
  cases σ with
  | full => cases τ with
    | full => rfl
    | empty => cases h
    | mutex => cases h
  | empty => cases τ with
    | full => cases h
    | empty => rfl
    | mutex => cases h
  | mutex => cases τ with
    | full => cases h
    | empty => cases h
    | mutex => rfl

theorem foreign_receive (me : ℕ) (src : ℤ) : ∀ j ∈ codeReceive me src, ForeignInstr j := by
  intro j hj
  rcases mem_codeReceive hj with rfl | rfl | rfl | rfl | rfl
  · trivial
  · exact not_ours_msgSem me
  · trivial
  · trivial
  · trivial

theorem foreign_call {c : Call} (h : ForeignCall c) (me : ℕ) : ∀ j ∈ c.code me, ForeignInstr j := by
  intro j hj
  cases c with
  | receive src => exact foreign_receive me src j hj
  | P σ =>
    simp only [Call.code, codeP, List.mem_cons, List.not_mem_nil, or_false] at hj
    rcases hj with rfl | rfl | rfl
    · trivial
    · exact h
    · trivial
  | V σ =>
    simp only [Call.code, codeV, List.mem_cons, List.not_mem_nil, or_false] at hj
    rcases hj with rfl | rfl | rfl
    · trivial
    · exact h
    · trivial
  | createSem a v =>
    simp only [Call.code, List.mem_cons, List.not_mem_nil, or_false] at hj
    rcases hj with rfl | rfl | rfl
    · trivial
    · exact h
    · trivial
  | sleep =>
    simp only [Call.code, List.mem_cons, List.not_mem_nil, or_false] at hj
    rcases hj with rfl | rfl
    · trivial
    · trivial
  | _ =>
    rw [List.mem_singleton.mp hj]
    trivial

namespace Kernel

variable {k k' : Kernel} {q q' : Node → List ℕ} {i : Instr} {rest : List Instr}

/-- A context that leaves the three semaphores alone goes on doing so. -/
theorem Exec.foreign (hx : Exec k q rest i k' q') (hrest : ∀ j ∈ rest, ForeignInstr j) :
    ∀ j ∈ (if i = .int80 then rest else k'.code), ForeignInstr j := by
  cases hx with
  | int80 => exact hrest
  | copyMsg =>
    intro j hj
    simp only [reduceCtorEq, if_false, codeV, List.cons_append, List.nil_append, List.mem_cons] at hj
    rcases hj with rfl | rfl | rfl | rfl | rfl | rfl | hj
    · trivial
    · trivial
    · trivial
    · trivial
    · exact not_ours_msgSem _
    · trivial
    · exact hrest j hj
  | scanEnd =>
    intro j hj
    simp only [reduceCtorEq, if_false, codeV, List.cons_append, List.nil_append, List.mem_cons,
      List.mem_append] at hj
    rcases hj with rfl | rfl | rfl | rfl | hj | hj
    · trivial
    · exact not_ours_msgSem _
    · trivial
    · trivial
    · exact foreign_receive _ _ j hj
    · exact hrest j hj
  | lock | unlock | take | pWake | raise | drop | makeReady | semInit | kthreadEnd | linkMsg | copyOut | hlt =>
    exact hrest
  | block | wake | sleepOn | wakeupTest | kthread | recvHead | scanFirst | scanHit | scanNext | recvNode =>
    simpa [ForeignInstr] using hrest

end Kernel

/-! ### Where a thread is -/

/-- The rest of a `P` or `V` that went through, or of a `P` that waits. -/
def Quiet (code : List Instr) : Prop := ∀ i ∈ code, i = .unlock ∨ i = .int80 ∨ i = .pWake

/-- A thread executes `code` next, is blocked on the semaphore `w`, and will
then execute the statement `x`; `y` is where it is in the buffer's view, in
which a `P` or `V` is one step. -/
inductive Where (code : List Instr) (w : Option SemId) : Option Stmt → Option Stmt → Prop
  /-- another thread -/
  | foreign (hc : ∀ i ∈ code, ForeignInstr i) (hw : ∀ σ, w = some σ → ¬ Ours σ) : Where code w none none
  /-- before the test of `P` -/
  | before (st : Stmt) (σ : Buffer.Sem) (hd : st.down = some σ)
      (hc : code = [.lock, .pTest (semId σ), .unlock] ∨ code = [.pTest (semId σ), .unlock]) (hw : w = none) :
      Where code w (some st.next) (some st)
  /-- blocked in `P` -/
  | asleep (st : Stmt) (σ : Buffer.Sem) (hd : st.down = some σ) (hc : Quiet code) (hp : .pWake ∈ code)
      (hw : w = some (semId σ)) : Where code w (some st.next) (some st)
  /-- before the test of `V` -/
  | giving (st : Stmt) (σ : Buffer.Sem) (hu : st.up = some σ)
      (hc : code = [.lock, .vTest (semId σ) .call, .unlock] ∨ code = [.vTest (semId σ) .call, .unlock])
      (hw : w = none) : Where code w (some st.next) (some st)
  /-- past them -/
  | settled (st : Stmt) (hc : Quiet code) (hcall : code = [] ∨ ∃ (st' : Stmt) (c : Call), st'.next = st ∧ st'.call = some c)
      (hw : w = none) : Where code w (some st) (some st)

/-- The semaphore is set up as `test_setup` does, or unused. -/
structure Setup (k : Kernel) (h : SemHist) (σ : Buffer.Sem) : Prop where
  value : k.sched.inited (semId σ) = true → (h.sem (semId σ)).value = σ.value
  unused : k.sched.inited (semId σ) = false → (h.sem (semId σ)).taken = 0 ∧ (h.sem (semId σ)).given = 0

/-- The machine `s` with history `h` is at `a` in the buffer's view. -/
structure Sim (s : ProdCons) (h : BufHist) (a : Abs) : Prop where
  mem : a.mem = s.mem
  taken : ∀ σ, a.taken σ = (h.sem.sem (semId σ)).taken
  given : ∀ σ, a.given σ = (h.sem.sem (semId σ)).given
  produced : a.produced = h.produced
  consumed : a.consumed = h.consumed
  out : a.out = h.out
  setup : ∀ σ, Setup s.kernel h.sem σ
  handler : ∀ i ∈ s.kernel.ctx none, ForeignInstr i
  threads : ∀ t, Where (s.kernel.ctx (some t)) (h.sem.waiting t) (s.pc t) (a.pc t)

variable {k k' : Kernel} {q q' : Node → List ℕ} {i : Instr} {rest : List Instr} {h : SemHist} {s : ProdCons}
  {g : BufHist} {a : Abs}

theorem Quiet.tail (hq : Quiet (i :: rest)) : Quiet rest := fun j hj => hq j (List.mem_cons_of_mem i hj)

theorem call_of_down {st : Stmt} {σ : Buffer.Sem} (hd : st.down = some σ) : st.call = some (.P (semId σ)) := by
  unfold Buffer.Stmt.call
  rw [hd]

theorem call_of_up {st : Stmt} {σ : Buffer.Sem} (hu : st.up = some σ) : st.call = some (.V (semId σ)) := by
  cases st with
  | vMutex | vFull | cvMutex | cvEmpty =>
    cases hu
    rfl
  | _ => cases hu

/-- Threads that wait for other semaphores are other threads. -/
theorem Where.foreign_of_waiting {code : List Instr} {x y : Option Stmt} {σ : SemId}
    (hW : Where code (some σ) x y) (hσ : ¬ Ours σ) : x = none ∧ y = none ∧ ∀ i ∈ code, ForeignInstr i := by
  cases hW with
  | foreign hc hw => exact ⟨rfl, rfl, hc⟩
  | before st τ hd hc hw => cases hw
  | asleep st τ hd hc hp hw => exact absurd (Option.some.inj hw ▸ ours_semId τ) hσ
  | giving st τ hu hc hw => cases hw
  | settled st hc hcall hw => cases hw

/-- Threads that wait for one of the three are blocked in their `P`. -/
theorem Where.asleep_of_waiting {code : List Instr} {x y : Option Stmt} {σ : Buffer.Sem}
    (hW : Where code (some (semId σ)) x y) :
    ∃ st, st.down = some σ ∧ x = some st.next ∧ y = some st ∧ Quiet code := by
  cases hW with
  | foreign hc hw => exact absurd (ours_semId σ) (hw _ rfl)
  | before st τ hd hc hw => cases hw
  | asleep st τ hd hc hp hw =>
    have hτ : σ = τ := semId_injective (Option.some.inj hw)
    exact ⟨st, hτ ▸ hd, rfl, rfl, hc⟩
  | giving st τ hu hc hw => cases hw
  | settled st hc hcall hw => cases hw

/-! ### What an instruction does to the semaphores -/

namespace Kernel.SemHist

theorem upd_take {σ : SemId} (hc : k.code = .pTest σ :: rest) (ht : 0 < k.sched.token σ) :
    SemHist.upd k .exec h = h.on σ Semaphore.Hist.take := by
  simp only [SemHist.upd, hc, if_pos ht]

theorem upd_block {σ : SemId} (hc : k.code = .pTest σ :: rest) (ht : k.sched.token σ ≤ 0) :
    SemHist.upd k .exec h = { h.on σ (Semaphore.Hist.block k.sched.current) with
      waiting := Function.update h.waiting k.sched.current (some σ) } := by
  simp only [SemHist.upd, hc, if_neg (Int.not_lt.mpr ht)]

theorem upd_raise (hB : Base k q) {σ : SemId} {site : VSite} (hc : k.code = .vTest σ site :: rest)
    (hσ : k.sched.inited σ = true) (hq : q (.sem σ) = []) :
    SemHist.upd k .exec h = h.on σ Semaphore.Hist.raise := by
  simp only [SemHist.upd, hc, woken_of_not_wakes (hB.wakes_of_empty hσ hq)]

theorem upd_wake (hB : Base k q) {σ : SemId} {site : VSite} (hc : k.code = .vTest σ site :: rest)
    (hσ : k.sched.inited σ = true) {t : ℕ} {r : List ℕ} (hq : q (.sem σ) = t :: r) :
    SemHist.upd k .exec h = { h.on σ (Semaphore.Hist.wake t) with
      waiting := Function.update h.waiting t none } := by
  simp only [SemHist.upd, hc, hB.woken_of_mem hσ hq]

theorem on_of_ne {σ τ : SemId} (f : Semaphore.Hist ℕ → Semaphore.Hist ℕ) (hτ : τ ≠ σ) :
    (h.on σ f).sem τ = h.sem τ := Function.update_of_ne hτ ..

theorem on_self (σ : SemId) (f : Semaphore.Hist ℕ → Semaphore.Hist ℕ) : (h.on σ f).sem σ = f (h.sem σ) :=
  Function.update_self ..

end Kernel.SemHist

theorem ne_of_not_ours {σ : SemId} (hσ : ¬ Ours σ) (τ : Buffer.Sem) : semId τ ≠ σ := fun he =>
  hσ (he ▸ ours_semId τ)

/-- Nothing is done to the semaphore `σ`. -/
structure Untouched (k k' : Kernel) (h h' : SemHist) (σ : Buffer.Sem) : Prop where
  setup : Setup k' h' σ
  taken : (h'.sem (semId σ)).taken = (h.sem (semId σ)).taken
  given : (h'.sem (semId σ)).given = (h.sem (semId σ)).given

theorem Untouched.of_eq {h' : SemHist} {σ : Buffer.Sem} (hset : Setup k h σ)
    (hin : k'.sched.inited (semId σ) = k.sched.inited (semId σ)) (hsem : h'.sem (semId σ) = h.sem (semId σ)) :
    Untouched k k' h h' σ := by
  refine ⟨⟨fun hi => ?_, fun hi => ?_⟩, by rw [hsem], by rw [hsem]⟩
  · rw [hsem]
    exact hset.value (hin ▸ hi)
  · rw [hsem]
    exact hset.unused (hin ▸ hi)

/-- An instruction of the others does nothing to the three semaphores but set
them up. -/
theorem foreign_untouched (hB : Base k q) (hc : k.code = i :: rest) (hi : ForeignInstr i)
    (hx : Exec k q rest i k' q') {σ : Buffer.Sem} (hset : Setup k h σ) :
    Untouched k k' h (SemHist.upd k .exec h) σ := by
  cases hx with
  | take hσ htok =>
    rw [SemHist.upd_take hc htok]
    exact .of_eq hset rfl (SemHist.on_of_ne _ (ne_of_not_ours hi σ))
  | block hσ htok h0 =>
    rw [SemHist.upd_block hc htok]
    exact .of_eq hset rfl (SemHist.on_of_ne _ (ne_of_not_ours hi σ))
  | raise hσ hq =>
    rw [SemHist.upd_raise hB hc hσ hq]
    exact .of_eq hset rfl (SemHist.on_of_ne _ (ne_of_not_ours hi σ))
  | wake hσ hq =>
    rw [SemHist.upd_wake hB hc hσ hq]
    exact .of_eq hset rfl (SemHist.on_of_ne _ (ne_of_not_ours hi σ))
  | drop hσ =>
    simp only [SemHist.upd, hc, woken_of_not_wakes hB.idleSem.2.2.2]
    exact .of_eq hset rfl (SemHist.on_of_ne _ (ne_of_not_ours (not_ours_msgSem 0) σ))
  | semInit hσ =>
    rename_i b v
    simp only [SemHist.upd, hc]
    by_cases hb : semId σ = .user b
    · obtain ⟨htaken, hgiven⟩ := hset.unused (hb ▸ hσ)
      have hsem : (h.on (.user b) fun _ => Semaphore.Hist.start v).sem (semId σ) = Semaphore.Hist.start v := by
        rw [hb]
        exact SemHist.on_self _ _
      refine ⟨⟨fun _ => ?_, fun _ => ?_⟩, ?_, ?_⟩
      · rw [hsem]
        exact hi σ hb
      · rw [hsem]
        exact ⟨rfl, rfl⟩
      · rw [hsem, htaken]
        rfl
      · rw [hsem, hgiven]
        rfl
    · exact .of_eq hset (Function.update_of_ne hb ..) (SemHist.on_of_ne _ hb)
  | kthread hI hq hcr hcur hscr hin =>
    simp only [SemHist.upd, hc]
    refine .of_eq hset ?_ rfl
    rw [hin, Function.update_of_ne (ne_of_not_ours (not_ours_msgSem _) σ)]
  | _ =>
    simp only [SemHist.upd, hc]
    exact .of_eq hset rfl rfl

/-- The threads it blocks or wakes wait for other semaphores. -/
theorem foreign_waiting (hB : Base k q) (hS : SemInv k q h) (hc : k.code = i :: rest) (hi : ForeignInstr i)
    (hx : Exec k q rest i k' q') (t : ℕ) :
    (SemHist.upd k .exec h).waiting t = h.waiting t ∨
      (∃ σ, ¬ Ours σ ∧ h.waiting t = some σ ∧ (SemHist.upd k .exec h).waiting t = none) ∨
      (some t = k.cpu ∧ ∃ σ, ¬ Ours σ ∧ (SemHist.upd k .exec h).waiting t = some σ) := by
  cases hx with
  | take hσ htok =>
    rw [SemHist.upd_take hc htok]
    exact Or.inl rfl
  | block hσ htok h0 =>
    rename_i σ
    rw [SemHist.upd_block hc htok]
    by_cases ht : t = k.sched.current
    · have htrap : k.trap = none := hB.no_trap hc id
      refine Or.inr (Or.inr ⟨by rw [cpu_thread htrap, ht], σ, hi, ?_⟩)
      rw [ht]
      exact Function.update_self ..
    · exact Or.inl (Function.update_of_ne ht ..)
  | raise hσ hq =>
    rw [SemHist.upd_raise hB hc hσ hq]
    exact Or.inl rfl
  | wake hσ hq hcr hst =>
    rename_i σ site u r
    rw [SemHist.upd_wake hB hc hσ hq]
    by_cases ht : t = u
    · have hw : h.waiting u = some σ := (hS.waiting u σ).mpr (by rw [hq]; exact List.mem_cons_self)
      refine Or.inr (Or.inl ⟨σ, hi, ht ▸ hw, ?_⟩)
      rw [ht]
      exact Function.update_self ..
    · exact Or.inl (Function.update_of_ne ht ..)
  | drop hσ =>
    left
    simp only [SemHist.upd, hc, woken_of_not_wakes hB.idleSem.2.2.2]
    rfl
  | semInit hσ =>
    left
    simp only [SemHist.upd, hc]
    rfl
  | _ =>
    left
    simp only [SemHist.upd, hc]

/-! ### The steps of the machine and those of the buffer -/

theorem Where.of_none {code : List Instr} {w : Option SemId} {y : Option Stmt} (hW : Where code w none y) :
    y = none ∧ ∀ σ, w = some σ → ¬ Ours σ := by
  cases hW with
  | foreign hc hw => exact ⟨rfl, hw⟩

theorem Sim.exec_foreign (hsim : Sim s g a) (hB : Base s.kernel q) (hS : SemInv s.kernel q g.sem)
    (hc : s.kernel.code = i :: rest) (hcode : ∀ j ∈ i :: rest, ForeignInstr j)
    (hcpu : ∀ t, some t = s.kernel.cpu → s.pc t = none) (hx : Exec s.kernel q rest i k' q') :
    Sim { s with kernel := k' } { g with sem := SemHist.upd s.kernel .exec g.sem } a := by
  have hi : ForeignInstr i := hcode i List.mem_cons_self
  have hnew := hx.foreign fun j hj => hcode j (List.mem_cons_of_mem i hj)
  have hun : ∀ σ, Untouched s.kernel k' g.sem (SemHist.upd s.kernel .exec g.sem) σ := fun σ =>
    foreign_untouched hB hc hi hx (hsim.setup σ)
  refine ⟨hsim.mem, fun σ => ?_, fun σ => ?_, hsim.produced, hsim.consumed, hsim.out, fun σ => (hun σ).setup,
    fun j hj => ?_, fun t => ?_⟩
  · rw [(hun σ).taken]
    exact hsim.taken σ
  · rw [(hun σ).given]
    exact hsim.given σ
  · change j ∈ k'.ctx none at hj
    rw [hx.ctx hB hc] at hj
    split at hj
    · exact hnew j hj
    · exact hsim.handler j hj
  · have hW := hsim.threads t
    have hwait := foreign_waiting hB hS hc hi hx t
    change Where (k'.ctx (some t)) ((SemHist.upd s.kernel .exec g.sem).waiting t) (s.pc t) (a.pc t)
    rw [hx.ctx hB hc]
    by_cases ht : some t = s.kernel.cpu
    · rw [if_pos ht]
      rw [hcpu t ht] at hW ⊢
      obtain ⟨ha, hw⟩ := hW.of_none
      rw [ha]
      refine .foreign hnew fun σ hσ => ?_
      rcases hwait with he | ⟨τ, hτ, -, he⟩ | ⟨-, τ, hτ, he⟩
      · exact hw σ (he ▸ hσ)
      · rw [he] at hσ
        cases hσ
      · rw [he, Option.some.injEq] at hσ
        exact hσ ▸ hτ
    · rw [if_neg ht]
      rcases hwait with he | ⟨τ, hτ, hold, he⟩ | ⟨hself, -⟩
      · rw [he]
        exact hW
      · rw [hold] at hW
        obtain ⟨hx', hy', hcode'⟩ := hW.foreign_of_waiting hτ
        rw [hx', hy', he]
        exact .foreign hcode' fun σ hσ => absurd hσ (by simp)
      · exact absurd hself ht

/-- A step that does nothing to semaphores and variables. -/
theorem Sim.of_ctx (hsim : Sim s g a) (hin : k'.sched.inited = s.kernel.sched.inited)
    (hhandler : ∀ j ∈ k'.ctx none, ForeignInstr j)
    (hthreads : ∀ t, Where (k'.ctx (some t)) (g.sem.waiting t) (s.pc t) (a.pc t)) :
    Sim { s with kernel := k' } g a where
  mem := hsim.mem
  taken := hsim.taken
  given := hsim.given
  produced := hsim.produced
  consumed := hsim.consumed
  out := hsim.out
  setup := fun σ => (Untouched.of_eq (hsim.setup σ) (by rw [hin]) rfl).setup
  handler := hhandler
  threads := hthreads

/-- Instructions that do nothing to semaphores and go on. -/
theorem quiet_exec (hc : k.code = i :: rest) (hi : i = .lock ∨ i = .unlock ∨ i = .int80 ∨ i = .pWake)
    (hx : Exec k q rest i k' q') : SemHist.upd k .exec h = h ∧ k'.sched.inited = k.sched.inited ∧
      (if i = .int80 then rest else k'.code) = rest := by
  rcases hi with rfl | rfl | rfl | rfl
  all_goals
    cases hx
    refine ⟨?_, rfl, rfl⟩
    simp only [SemHist.upd, hc]

/-- A thread of the two programs executes such an instruction. -/
theorem Sim.exec_quiet (hsim : Sim s g a) (hB : Base s.kernel q) (hc : s.kernel.code = i :: rest)
    (hi : i = .lock ∨ i = .unlock ∨ i = .int80 ∨ i = .pWake) (ht : s.kernel.trap = none)
    (hW : Where rest (g.sem.waiting s.kernel.sched.current) (s.pc s.kernel.sched.current)
      (a.pc s.kernel.sched.current)) (hx : Exec s.kernel q rest i k' q') :
    Sim { s with kernel := k' } { g with sem := SemHist.upd s.kernel .exec g.sem } a := by
  obtain ⟨hupd, hin, hcode⟩ := quiet_exec (h := g.sem) hc hi hx
  rw [hupd]
  refine hsim.of_ctx hin (fun j hj => ?_) fun t => ?_
  · rw [hx.ctx hB hc, cpu_thread ht, if_neg (by simp)] at hj
    exact hsim.handler j hj
  · rw [hx.ctx hB hc, hcode, cpu_thread ht]
    by_cases htc : t = s.kernel.sched.current
    · rw [htc, if_pos rfl]
      exact hW
    · rw [if_neg (by simpa using htc)]
      exact hsim.threads t

theorem exec_of_down {st : Stmt} {σ : Buffer.Sem} (hd : st.down = some σ) (t : ℕ) (m : Mem) :
    st.exec t m = some m ∧ st.up = none ∧ st ≠ .store ∧ st ≠ .fetch := by
  cases st with
  | pEmpty | pMutex | cFull | cMutex => exact ⟨rfl, rfl, by decide, by decide⟩
  | _ => cases hd

theorem exec_of_up {st : Stmt} {σ : Buffer.Sem} (hu : st.up = some σ) (t : ℕ) (m : Mem) :
    st.exec t m = some m ∧ st.down = none ∧ st ≠ .store ∧ st ≠ .fetch := by
  cases st with
  | vMutex | vFull | cvMutex | cvEmpty => exact ⟨rfl, rfl, by decide, by decide⟩
  | _ => cases hu

namespace Buffer.Abs

open BoundedBuffer

/-- A `P` of thread `t` went through. -/
def granted (a : Abs) (t : ℕ) (st : Stmt) (σ : Buffer.Sem) : Abs :=
  { a with pc := Function.update a.pc t (some st.next), taken := fun τ => a.taken τ + ind (σ = τ) }

/-- A `V` of thread `t` went through. -/
def gave (a : Abs) (t : ℕ) (st : Stmt) (σ : Buffer.Sem) : Abs :=
  { a with pc := Function.update a.pc t (some st.next), given := fun τ => a.given τ + ind (σ = τ) }

theorem Inv.granted {t : ℕ} {st : Stmt} {σ : Buffer.Sem} (hI : a.Inv) (hpc : a.pc t = some st)
    (hd : st.down = some σ) (hlt : a.taken σ < σ.value + a.given σ) : (a.granted t st σ).Inv := by
  obtain ⟨hexec, hup, hstore, hfetch⟩ := exec_of_down hd t a.mem
  have hstep : Step a (a.after t st a.mem) := by
    refine .stmt t st a.mem hpc (fun τ hτ => ?_) hexec
    rw [hd, Option.some.injEq] at hτ
    exact hτ ▸ hlt
  have heq : a.after t st a.mem = a.granted t st σ := by
    unfold after Abs.granted
    rw [hd, hup, if_neg hfetch, ind_neg hstore, ind_neg hfetch]
    simp only [Option.some.injEq, reduceCtorEq, ind_neg not_false, Nat.add_zero]
  exact heq ▸ hI.step hstep

theorem Inv.gave {t : ℕ} {st : Stmt} {σ : Buffer.Sem} (hI : a.Inv) (hpc : a.pc t = some st)
    (hu : st.up = some σ) : (a.gave t st σ).Inv := by
  obtain ⟨hexec, hdown, hstore, hfetch⟩ := exec_of_up hu t a.mem
  have hstep : Step a (a.after t st a.mem) := by
    refine .stmt t st a.mem hpc (fun τ hτ => ?_) hexec
    rw [hdown] at hτ
    cases hτ
  have heq : a.after t st a.mem = a.gave t st σ := by
    unfold after Abs.gave
    rw [hu, hdown, if_neg hfetch, ind_neg hstore, ind_neg hfetch]
    simp only [Option.some.injEq, reduceCtorEq, ind_neg not_false, Nat.add_zero]
  exact heq ▸ hI.step hstep

end Buffer.Abs

/-- A thread of the two programs does something to semaphore `σ`: it goes on
with `code`, and the `P` and `V` that go through by it are those of the
buffer. -/
theorem Sim.touch {a' : Abs} (hsim : Sim s g a) (hB : Base s.kernel q) (hc : s.kernel.code = i :: rest)
    (hx : Exec s.kernel q rest i k' q') (ht : s.kernel.trap = none) (h80 : i ≠ .int80) (σ : Buffer.Sem)
    (hσ : s.kernel.sched.inited (semId σ) = true) (hin : k'.sched.inited = s.kernel.sched.inited)
    (f : Semaphore.Hist ℕ → Semaphore.Hist ℕ) (w : ℕ → Option SemId)
    (hupd : SemHist.upd s.kernel .exec g.sem = { g.sem.on (semId σ) f with waiting := w })
    (hvalue : ∀ x, (f x).value = x.value) (hdata : a'.mem = a.mem ∧ a'.produced = a.produced ∧
      a'.consumed = a.consumed ∧ a'.out = a.out)
    (htaken : ∀ τ x, a'.taken τ + x.taken = a.taken τ + (if σ = τ then f x else x).taken)
    (hgiven : ∀ τ x, a'.given τ + x.given = a.given τ + (if σ = τ then f x else x).given)
    (hself : Where k'.code (w s.kernel.sched.current) (s.pc s.kernel.sched.current) (a'.pc s.kernel.sched.current))
    (hother : ∀ t, t ≠ s.kernel.sched.current → Where (s.kernel.ctx (some t)) (w t) (s.pc t) (a'.pc t)) :
    Sim { s with kernel := k' } { g with sem := SemHist.upd s.kernel .exec g.sem } a' := by
  have hsem : ∀ τ, ({ g.sem.on (semId σ) f with waiting := w } : SemHist).sem (semId τ) =
      if σ = τ then f (g.sem.sem (semId τ)) else g.sem.sem (semId τ) := by
    intro τ
    by_cases hτ : σ = τ
    · rw [if_pos hτ, ← hτ]
      exact SemHist.on_self _ _
    · rw [if_neg hτ]
      exact SemHist.on_of_ne _ fun he => hτ (semId_injective he).symm
  obtain ⟨hmem, hproduced, hconsumed, hout⟩ := hdata
  rw [hupd]
  refine ⟨hmem.trans hsim.mem, fun τ => ?_, fun τ => ?_, hproduced.trans hsim.produced,
    hconsumed.trans hsim.consumed, hout.trans hsim.out, fun τ => ⟨fun hi => ?_, fun hi => ?_⟩, fun j hj => ?_,
    fun t => ?_⟩
  · have h1 := htaken τ (g.sem.sem (semId τ))
    have h2 := hsim.taken τ
    rw [hsem]
    omega
  · have h1 := hgiven τ (g.sem.sem (semId τ))
    have h2 := hsim.given τ
    rw [hsem]
    omega
  · have hold := (hsim.setup τ).value (by rw [← hin]; exact hi)
    rw [hsem]
    split
    · rw [hvalue]
      exact hold
    · exact hold
  · change k'.sched.inited (semId τ) = false at hi
    rw [hin] at hi
    rw [hsem, if_neg (fun he => by rw [he, hi] at hσ; cases hσ)]
    exact (hsim.setup τ).unused hi
  · change j ∈ k'.ctx none at hj
    rw [hx.ctx hB hc, cpu_thread ht, if_neg (by simp)] at hj
    exact hsim.handler j hj
  · change Where (k'.ctx (some t)) (w t) (s.pc t) (a'.pc t)
    rw [hx.ctx hB hc, cpu_thread ht, if_neg h80]
    by_cases htc : t = s.kernel.sched.current
    · rw [htc, if_pos rfl]
      exact hself
    · rw [if_neg (by simpa using htc)]
      exact hother t htc

theorem quiet_unlock : Quiet [.unlock] := fun _ hi => Or.inl (List.mem_singleton.mp hi)

theorem Sim.exec_pTest {st : Stmt} {σ : Buffer.Sem} (hsim : Sim s g a) (hI : a.Inv) (hB : Base s.kernel q)
    (hS : SemInv s.kernel q g.sem) (hc : s.kernel.code = [.pTest (semId σ), .unlock])
    (ht : s.kernel.trap = none) (hd : st.down = some σ) (hpc : s.pc s.kernel.sched.current = some st.next)
    (hapc : a.pc s.kernel.sched.current = some st) (hw : g.sem.waiting s.kernel.sched.current = none)
    (hx : Exec s.kernel q [.unlock] (.pTest (semId σ)) k' q') :
    ∃ a' : Abs, a'.Inv ∧ Sim { s with kernel := k' } { g with sem := SemHist.upd s.kernel .exec g.sem } a' := by
  cases hx with
  | take hσ htok =>
    have hx' : Exec s.kernel q [.unlock] (.pTest (semId σ)) _ q := .take hσ htok
    have hlt : a.taken σ < σ.value + a.given σ := by
      have hcount := (hS.lawful _ hσ).count
      rw [(hsim.setup σ).value hσ] at hcount
      have h1 := hsim.taken σ
      have h2 := hsim.given σ
      omega
    refine ⟨a.granted s.kernel.sched.current st σ, hI.granted hapc hd hlt, ?_⟩
    refine hsim.touch hB hc hx' ht (by simp) σ hσ rfl Semaphore.Hist.take g.sem.waiting (SemHist.upd_take hc htok)
      (fun _ => rfl) ⟨rfl, rfl, rfl, rfl⟩ (fun τ x => ?_) (fun τ x => ?_) ?_ fun t htc => ?_
    · unfold Abs.granted BoundedBuffer.ind
      dsimp only
      split
      · unfold Semaphore.Hist.take
        dsimp only
        omega
      · omega
    · unfold Abs.granted
      split
      · rfl
      · rfl
    · rw [hpc, hw]
      unfold Abs.granted
      dsimp only
      rw [Function.update_self]
      exact .settled st.next quiet_unlock (Or.inr ⟨st, _, rfl, call_of_down hd⟩) rfl
    · unfold Abs.granted
      dsimp only
      rw [Function.update_of_ne htc]
      exact hsim.threads t
  | block hσ htok h0 =>
    have hx' : Exec s.kernel q [.unlock] (.pTest (semId σ)) _ _ := .block hσ htok h0
    refine ⟨a, hI, ?_⟩
    refine hsim.touch hB hc hx' ht (by simp) σ hσ rfl (Semaphore.Hist.block s.kernel.sched.current)
      _ (SemHist.upd_block hc htok) (fun _ => rfl) ⟨rfl, rfl, rfl, rfl⟩ (fun τ x => ?_) (fun τ x => ?_) ?_
      fun t htc => ?_
    · split
      · rfl
      · rfl
    · split
      · rfl
      · rfl
    · rw [hpc, hapc, Function.update_self]
      refine .asleep st σ hd ?_ (by simp) rfl
      intro j hj
      simp only [List.mem_cons, List.not_mem_nil, or_false] at hj
      rcases hj with rfl | rfl | rfl | rfl
      · exact Or.inl rfl
      · exact Or.inr (Or.inl rfl)
      · exact Or.inr (Or.inr rfl)
      · exact Or.inl rfl
    · rw [Function.update_of_ne htc]
      exact hsim.threads t

/-- The test of `V`. When a thread is woken, its `P` goes through as well. -/
theorem Sim.exec_vTest {st : Stmt} {σ : Buffer.Sem} (hsim : Sim s g a) (hI : a.Inv) (hB : Base s.kernel q)
    (hS : SemInv s.kernel q g.sem) (hc : s.kernel.code = [.vTest (semId σ) .call, .unlock])
    (ht : s.kernel.trap = none) (hu : st.up = some σ) (hpc : s.pc s.kernel.sched.current = some st.next)
    (hapc : a.pc s.kernel.sched.current = some st) (hw : g.sem.waiting s.kernel.sched.current = none)
    (hx : Exec s.kernel q [.unlock] (.vTest (semId σ) .call) k' q') :
    ∃ a' : Abs, a'.Inv ∧ Sim { s with kernel := k' } { g with sem := SemHist.upd s.kernel .exec g.sem } a' := by
  generalize hv : Instr.vTest (semId σ) VSite.call = v at hx
  have hgave := hI.gave hapc hu
  cases hx with
  | raise hσ hq =>
    cases hv
    have hx' : Exec s.kernel q [.unlock] (.vTest (semId σ) .call) _ q := .raise hσ hq
    refine ⟨a.gave s.kernel.sched.current st σ, hgave, ?_⟩
    refine hsim.touch hB hc hx' ht (by simp) σ hσ rfl Semaphore.Hist.raise g.sem.waiting
      (SemHist.upd_raise hB hc hσ hq) (fun _ => rfl) ⟨rfl, rfl, rfl, rfl⟩ (fun τ x => ?_) (fun τ x => ?_) ?_
      fun t htc => ?_
    · unfold Abs.gave
      split
      · rfl
      · rfl
    · unfold Abs.gave BoundedBuffer.ind
      dsimp only
      split
      · unfold Semaphore.Hist.raise
        dsimp only
        omega
      · omega
    · rw [hpc, hw]
      unfold Abs.gave
      dsimp only
      rw [Function.update_self]
      exact .settled st.next quiet_unlock (Or.inr ⟨st, _, rfl, call_of_up hu⟩) rfl
    · unfold Abs.gave
      dsimp only
      rw [Function.update_of_ne htc]
      exact hsim.threads t
  | wake hσ hq hcr hst =>
    cases hv
    rename_i u r
    have hx' : Exec s.kernel q [.unlock] (.vTest (semId σ) .call) _ _ := .wake hσ hq hcr hst
    -- the thread that is woken is blocked in its `P` on the same semaphore
    have hwu : g.sem.waiting u = some (semId σ) := (hS.waiting u _).mpr (by rw [hq]; exact List.mem_cons_self)
    have huc : u ≠ s.kernel.sched.current := by
      intro he
      rw [he, hw] at hwu
      cases hwu
    have hWu := hsim.threads u
    rw [hwu] at hWu
    obtain ⟨st', hd, hpcu, hapcu, hquiet⟩ := hWu.asleep_of_waiting
    have hlt : (a.gave s.kernel.sched.current st σ).taken σ <
        σ.value + (a.gave s.kernel.sched.current st σ).given σ := by
      have hbound := hI.bound σ
      unfold Abs.gave
      dsimp only
      rw [BoundedBuffer.ind_pos rfl]
      omega
    refine ⟨(a.gave s.kernel.sched.current st σ).granted u st' σ, hgave.granted ?_ hd hlt, ?_⟩
    · unfold Abs.gave
      dsimp only
      rw [Function.update_of_ne huc]
      exact hapcu
    refine hsim.touch hB hc hx' ht (by simp) σ hσ rfl (Semaphore.Hist.wake u) _
      (SemHist.upd_wake hB hc hσ hq) (fun _ => rfl) ⟨rfl, rfl, rfl, rfl⟩ (fun τ x => ?_) (fun τ x => ?_) ?_
      fun t htc => ?_
    · unfold Abs.granted Abs.gave BoundedBuffer.ind
      dsimp only
      split
      · unfold Semaphore.Hist.wake
        dsimp only
        omega
      · omega
    · unfold Abs.granted Abs.gave BoundedBuffer.ind
      dsimp only
      split
      · unfold Semaphore.Hist.wake
        dsimp only
        omega
      · omega
    · unfold Abs.granted Abs.gave
      dsimp only
      rw [hpc, Function.update_of_ne huc.symm, hw, Function.update_of_ne huc.symm, Function.update_self]
      refine .settled st.next ?_ (Or.inr ⟨st, _, rfl, call_of_up hu⟩) rfl
      intro j hj
      simp only [List.mem_cons, List.not_mem_nil, or_false, or_self] at hj
      exact Or.inl hj
    · unfold Abs.granted Abs.gave
      dsimp only
      by_cases htu : t = u
      · rw [htu, Function.update_self, Function.update_self, hpcu]
        exact .settled st'.next hquiet (Or.inr ⟨st', _, rfl, call_of_down hd⟩) rfl
      · rw [Function.update_of_ne htu, Function.update_of_ne htu, Function.update_of_ne htc]
        exact hsim.threads t
  | drop hσ =>
    cases σ with
    | full | empty | mutex => cases hv
  | _ => cases hv

/-- **An instruction of the machine is a step of the buffer, or two, or
none.** -/
theorem Sim.exec (hsim : Sim s g a) (hI : a.Inv) (hB : Base s.kernel q) (hS : SemInv s.kernel q g.sem)
    (hc : s.kernel.code = i :: rest) (hx : Exec s.kernel q rest i k' q') :
    ∃ a' : Abs, a'.Inv ∧ Sim { s with kernel := k' } { g with sem := SemHist.upd s.kernel .exec g.sem } a' := by
  cases ht : s.kernel.trap with
  | some fr =>
    have hcpu : s.kernel.cpu = none := cpu_handler (by rw [ht]; rfl)
    refine ⟨a, hI, hsim.exec_foreign hB hS hc (fun j hj => hsim.handler j ?_) (fun t h' => ?_) hx⟩
    · rw [← hcpu, ctx_cpu, hc]
      exact hj
    · rw [hcpu] at h'
      cases h'
  | none =>
    have hcpu := cpu_thread ht
    have hctx : s.kernel.ctx (some s.kernel.sched.current) = i :: rest := by
      rw [← hcpu, ctx_cpu, hc]
    have hW := hsim.threads s.kernel.sched.current
    rw [hctx] at hW
    generalize hpc : s.pc s.kernel.sched.current = x at hW
    generalize hapc : a.pc s.kernel.sched.current = y at hW
    cases hW with
    | foreign hcode hw =>
      refine ⟨a, hI, hsim.exec_foreign hB hS hc hcode (fun t h' => ?_) hx⟩
      rw [hcpu, Option.some.injEq] at h'
      rw [h', hpc]
    | before st σ hd hcode hw =>
      rcases hcode with hcode | hcode
      · rw [List.cons.injEq] at hcode
        obtain ⟨rfl, rfl⟩ := hcode
        refine ⟨a, hI, hsim.exec_quiet hB hc (Or.inl rfl) ht ?_ hx⟩
        rw [hpc, hapc]
        exact .before st σ hd (Or.inr rfl) hw
      · rw [List.cons.injEq] at hcode
        obtain ⟨rfl, rfl⟩ := hcode
        exact hsim.exec_pTest hI hB hS hc ht hd hpc hapc hw hx
    | asleep st σ hd hcode hp hw =>
      refine ⟨a, hI, hsim.exec_quiet hB hc (Or.inr (hcode i List.mem_cons_self)) ht ?_ hx⟩
      rw [hpc, hapc]
      refine .asleep st σ hd hcode.tail ?_ hw
      -- a blocked thread that still runs has not come to the end of its sleep
      obtain ⟨r, hr | hr⟩ := hS.going ht _ hw
      · rw [hc, List.cons.injEq] at hr
        rw [hr.2]
        simp
      · rw [hc, List.cons.injEq] at hr
        rw [hr.2]
        simp
    | giving st σ hu hcode hw =>
      rcases hcode with hcode | hcode
      · rw [List.cons.injEq] at hcode
        obtain ⟨rfl, rfl⟩ := hcode
        refine ⟨a, hI, hsim.exec_quiet hB hc (Or.inl rfl) ht ?_ hx⟩
        rw [hpc, hapc]
        exact .giving st σ hu (Or.inr rfl) hw
      · rw [List.cons.injEq] at hcode
        obtain ⟨rfl, rfl⟩ := hcode
        exact hsim.exec_vTest hI hB hS hc ht hu hpc hapc hw hx
    | settled st hcode hcall hw =>
      refine ⟨a, hI, hsim.exec_quiet hB hc (Or.inr (hcode i List.mem_cons_self)) ht ?_ hx⟩
      rw [hpc, hapc]
      exact .settled st hcode.tail (Or.inr (hcall.resolve_left (by simp))) hw

/-- The rest of the machine: switches of threads, calls of the others,
interrupts. -/
theorem Sim.kernel (hsim : Sim s g a) (hI : a.Inv) (hB : Base s.kernel q) (hS : SemInv s.kernel q g.sem)
    {b : Kernel.Action} (hok : ProdCons.Ok (s, g) (.kernel b)) (hx : Step s.kernel q b k' q') :
    ∃ a' : Abs, a'.Inv ∧ Sim { s with kernel := k' } { g with sem := SemHist.upd s.kernel b g.sem } a' := by
  cases hx with
  | exec hc hx => exact hsim.exec hI hB hS hc hx
  | proc hc ht =>
    refine ⟨a, hI, ?_⟩
    simp only [SemHist.upd, hc]
    refine hsim.of_ctx rfl (fun j hj => ?_) fun t => ?_
    · rw [ctx_returnTo hc ht] at hj
      exact hsim.handler j hj
    · rw [ctx_returnTo hc ht]
      exact hsim.threads t
  | call hc ht =>
    obtain ⟨-, -, hpc, hforeign⟩ := hok
    refine ⟨a, hI, ?_⟩
    simp only [SemHist.upd]
    refine hsim.of_ctx rfl (fun j hj => ?_) fun t => ?_
    · rw [ctx_call ht, if_neg (by simp)] at hj
      exact hsim.handler j hj
    · have hW := hsim.threads t
      rw [ctx_call ht]
      by_cases htc : t = s.kernel.sched.current
      · rw [htc, if_pos rfl]
        dsimp only at hpc
        rw [htc, hpc] at hW
        rw [hpc]
        obtain ⟨ha, hw⟩ := hW.of_none
        rw [ha]
        exact .foreign (foreign_call hforeign _) hw
      · rw [if_neg (by simpa using htc)]
        exact hW
  | irq hi ht =>
    obtain ⟨-, -, hforeign⟩ := hok
    refine ⟨a, hI, ?_⟩
    simp only [SemHist.upd]
    refine hsim.of_ctx rfl (fun j hj => ?_) fun t => ?_
    · rw [ctx_irq ht, if_pos rfl, List.mem_flatMap] at hj
      obtain ⟨c, hcs, hj⟩ := hj
      exact foreign_call (hforeign c hcs) _ j hj
    · rw [ctx_irq ht, if_neg (by simp)]
      exact hsim.threads t

/-! ### The statements of the two programs -/

theorem call_cases (st : Stmt) :
    (∃ σ, st.down = some σ ∧ st.call = some (.P (semId σ))) ∨
      (∃ σ, st.up = some σ ∧ st.call = some (.V (semId σ))) ∨
      (st.down = none ∧ st.up = none ∧ st.call = none) := by
  cases st with
  | pEmpty | pMutex | cFull | cMutex => exact Or.inl ⟨_, rfl, rfl⟩
  | vMutex | vFull | cvMutex | cvEmpty => exact Or.inr (Or.inl ⟨_, rfl, rfl⟩)
  | _ => exact Or.inr (Or.inr ⟨rfl, rfl, rfl⟩)

/-- Between two calls a thread is where its program says. -/
theorem Sim.settled {st : Stmt} (hsim : Sim s g a) (hS : SemInv s.kernel q g.sem) (hc : s.kernel.code = [])
    (ht : s.kernel.trap = none) (hpc : s.pc s.kernel.sched.current = some st) :
    a.pc s.kernel.sched.current = some st ∧ g.sem.waiting s.kernel.sched.current = none := by
  have hw : g.sem.waiting s.kernel.sched.current = none := by
    cases hw : g.sem.waiting s.kernel.sched.current with
    | none => rfl
    | some σ =>
      obtain ⟨r, hr | hr⟩ := hS.going ht σ hw
      · rw [hc] at hr
        cases hr
      · rw [hc] at hr
        cases hr
  have hctx : s.kernel.ctx (some s.kernel.sched.current) = [] := by
    rw [← cpu_thread ht, ctx_cpu, hc]
  have hW := hsim.threads s.kernel.sched.current
  rw [hctx, hw, hpc] at hW
  generalize hapc : a.pc s.kernel.sched.current = y at hW
  refine ⟨?_, hw⟩
  generalize hx : some st = x at hW
  cases hW with
  | foreign => cases hx
  | before st' σ hd hcode =>
    rcases hcode with hcode | hcode
    · cases hcode
    · cases hcode
  | asleep st' σ hd hcode hp hw' => cases hw'
  | giving st' σ hu hcode =>
    rcases hcode with hcode | hcode
    · cases hcode
    · cases hcode
  | settled st' hcode hcall hw' => rfl

theorem Sim.stmt_call {st : Stmt} {c : Call} (hsim : Sim s g a) (hS : SemInv s.kernel q g.sem)
    (hc : s.kernel.code = []) (ht : s.kernel.trap = none) (hpc : s.pc s.kernel.sched.current = some st)
    (hcall : st.call = some c) :
    Sim { s with
      kernel := { s.kernel with code := c.code s.kernel.sched.current }
      pc := Function.update s.pc s.kernel.sched.current (some st.next) } g a := by
  obtain ⟨hapc, hw⟩ := hsim.settled hS hc ht hpc
  refine ⟨hsim.mem, hsim.taken, hsim.given, hsim.produced, hsim.consumed, hsim.out, fun σ => ?_, fun j hj => ?_,
    fun t => ?_⟩
  · exact ⟨(hsim.setup σ).value, (hsim.setup σ).unused⟩
  · dsimp only at hj
    rw [ctx_call ht, if_neg (by simp)] at hj
    exact hsim.handler j hj
  · dsimp only
    rw [ctx_call ht]
    by_cases htc : t = s.kernel.sched.current
    · rw [htc, if_pos rfl, Function.update_self, hapc, hw]
      rcases call_cases st with ⟨σ, hd, hP⟩ | ⟨σ, hu, hV⟩ | ⟨-, -, hnone⟩
      · rw [hP, Option.some.injEq] at hcall
        exact .before st σ hd (Or.inl (hcall ▸ rfl)) rfl
      · rw [hV, Option.some.injEq] at hcall
        exact .giving st σ hu (Or.inl (hcall ▸ rfl)) rfl
      · rw [hnone] at hcall
        cases hcall
    · rw [if_neg (by simpa using htc), Function.update_of_ne htc]
      exact hsim.threads t

theorem Sim.stmt_exec {st : Stmt} {m : Mem} (hsim : Sim s g a) (hS : SemInv s.kernel q g.sem)
    (hc : s.kernel.code = []) (ht : s.kernel.trap = none) (hpc : s.pc s.kernel.sched.current = some st)
    (hdown : st.down = none) (hup : st.up = none) :
    Sim { s with mem := m, pc := Function.update s.pc s.kernel.sched.current (some st.next) }
      (BufHist.upd s .stmt g) (a.after s.kernel.sched.current st m) := by
  obtain ⟨hapc, hw⟩ := hsim.settled hS hc ht hpc
  have hctx : s.kernel.ctx (some s.kernel.sched.current) = [] := by
    rw [← cpu_thread ht, ctx_cpu, hc]
  unfold BufHist.upd
  dsimp only
  simp only [hpc, Option.some.injEq]
  refine ⟨rfl, fun σ => ?_, fun σ => ?_, ?_, ?_, ?_, hsim.setup, hsim.handler, fun t => ?_⟩
  · unfold Abs.after
    dsimp only
    rw [hdown, BoundedBuffer.ind_neg (by simp)]
    exact hsim.taken σ
  · unfold Abs.after
    dsimp only
    rw [hup, BoundedBuffer.ind_neg (by simp)]
    exact hsim.given σ
  · unfold Abs.after
    dsimp only
    rw [hsim.produced]
  · unfold Abs.after
    dsimp only
    rw [hsim.consumed]
  · unfold Abs.after
    dsimp only
    rw [hsim.out, hsim.mem]
  · dsimp only
    by_cases htc : t = s.kernel.sched.current
    · rw [htc, hctx, hw, Function.update_self, Abs.after_pc_self]
      exact .settled st.next (fun j hj => absurd hj List.not_mem_nil) (Or.inl rfl) rfl
    · rw [Function.update_of_ne htc, Abs.after_pc_of_ne htc]
      exact hsim.threads t

/-! ### Runs -/

/-- The invariant of a run. -/
def ProdCons.Inv (p : ProdCons × BufHist) : Prop :=
  ∃ q a, Base p.1.kernel q ∧ SemInv p.1.kernel q p.2.sem ∧ a.Inv ∧ Sim p.1 p.2 a

theorem ProdCons.inv_boot (b : Bool) {pc : ℕ → Option Stmt}
    (hpc : ∀ t st, pc t = some st → st = .pEmpty ∨ st = .cFull) : ProdCons.Inv (ProdCons.boot b pc, BufHist.init) := by
  refine ⟨_, Abs.init pc, base_boot b, semInv_boot b, Abs.inv_init hpc, rfl, fun _ => rfl, fun _ => rfl, rfl, rfl, rfl,
    fun σ => ⟨fun hi => ?_, fun _ => ⟨rfl, rfl⟩⟩, fun j hj => ?_, fun t => ?_⟩
  · cases hi
  · change j ∈ (Kernel.boot b).ctx none at hj
    rw [ctx_boot] at hj
    exact absurd hj List.not_mem_nil
  · change Where ((Kernel.boot b).ctx (some t)) none (pc t) (pc t)
    rw [ctx_boot]
    cases pc t with
    | none => exact .foreign (fun j hj => absurd hj List.not_mem_nil) fun σ hσ => absurd hσ (by simp)
    | some st => exact .settled st (fun j hj => absurd hj List.not_mem_nil) (Or.inl rfl) rfl

theorem ProdCons.stmt_eq_some {s' : ProdCons} (hs : s.step .stmt = some s') : ∃ st, s.kernel.code = [] ∧
    s.kernel.trap = none ∧ s.pc s.kernel.sched.current = some st ∧
      s.stmtStep s.kernel.sched.current st = some s' := by
  unfold ProdCons.step at hs
  dsimp only at hs
  split at hs
  · rename_i hidle
    unfold ProdCons.idle at hidle
    rw [Bool.and_eq_true, List.isEmpty_iff, Option.isNone_iff_eq_none] at hidle
    rw [Option.bind_eq_some_iff] at hs
    obtain ⟨st, hpc, hs⟩ := hs
    exact ⟨st, hidle.1, hidle.2, hpc, hs⟩
  · cases hs

/-- A statement that makes a call is not one that stores or fetches. -/
theorem upd_stmt_of_call {st : Stmt} {c : Call} (hpc : s.pc s.kernel.sched.current = some st)
    (hcall : st.call = some c) : BufHist.upd s .stmt g = g := by
  have hne : st ≠ .store ∧ st ≠ .fetch := by
    constructor
    · rintro rfl
      cases hcall
    · rintro rfl
      cases hcall
  unfold BufHist.upd
  dsimp only
  simp only [hpc, Option.some.injEq]
  rw [if_neg hne.2, BoundedBuffer.ind_neg hne.1, BoundedBuffer.ind_neg hne.2]
  rfl

/-- **A step of the machine keeps the invariant.** -/
theorem ProdCons.Inv.step {p p' : ProdCons × BufHist} {b : ProdCons.Action} (hI : ProdCons.Inv p)
    (hok : ProdCons.Ok p b) (hs : ProdCons.histStep p b = some p') : ProdCons.Inv p' := by
  obtain ⟨s, g⟩ := p
  obtain ⟨s', g'⟩ := p'
  obtain ⟨hst, hg⟩ := withHistory_eq_some.mp hs
  obtain ⟨q, a, hB, hS, ha, hsim⟩ := hI
  dsimp only at hst hg hB hS hsim
  rw [hg]
  cases b with
  | kernel b =>
    unfold ProdCons.step at hst
    dsimp only at hst
    rw [Option.map_eq_some_iff] at hst
    obtain ⟨k', hk, rfl⟩ := hst
    obtain ⟨q', hx⟩ := hB.step_cases hok.1 hk
    obtain ⟨a', ha', hsim'⟩ := hsim.kernel ha hB hS hok hx
    exact ⟨q', a', hB.of_step hok.1 hx, hS.step hB hok.2.1 hx, ha', hsim'⟩
  | stmt =>
    obtain ⟨st, hc, ht, hpc, hstmt⟩ := ProdCons.stmt_eq_some hst
    unfold ProdCons.stmtStep at hstmt
    cases hcall : st.call with
    | some c =>
      have hcok : s.kernel.Ok (.call c) := hok c (by dsimp only; rw [hpc]; exact hcall)
      rw [hcall] at hstmt
      dsimp only at hstmt
      rw [Option.map_eq_some_iff] at hstmt
      obtain ⟨k', hk, rfl⟩ := hstmt
      obtain ⟨q', hx⟩ := hB.step_cases hcok hk
      have hB' := hB.of_step hcok hx
      have hS' := hS.step hB (a := .call c) trivial hx
      rw [upd_stmt_of_call hpc hcall]
      simp only [SemHist.upd] at hS'
      cases hx with
      | call => exact ⟨q, a, hB', hS', ha, hsim.stmt_call hS hc ht hpc hcall⟩
    | none =>
      obtain ⟨hd, hu⟩ : st.down = none ∧ st.up = none := by
        rcases call_cases st with ⟨σ, -, hP⟩ | ⟨σ, -, hV⟩ | ⟨hd, hu, -⟩
        · rw [hP] at hcall
          cases hcall
        · rw [hV] at hcall
          cases hcall
        · exact ⟨hd, hu⟩
      rw [hcall] at hstmt
      dsimp only at hstmt
      rw [Option.map_eq_some_iff] at hstmt
      obtain ⟨m, hm, rfl⟩ := hstmt
      obtain ⟨hapc, -⟩ := hsim.settled hS hc ht hpc
      refine ⟨q, a.after s.kernel.sched.current st m, hB, hS, ha.step (.stmt _ st m hapc ?_ ?_),
        hsim.stmt_exec hS hc ht hpc hd hu⟩
      · intro σ hσ
        rw [hd] at hσ
        cases hσ
      · rw [hsim.mem]
        exact hm

theorem reach_prodCons {b : Bool} {pc : ℕ → Option Stmt} {p : ProdCons × BufHist}
    (hpc : ∀ t st, pc t = some st → st = .pEmpty ∨ st = .cFull)
    (h : Reach ProdCons.histStep ProdCons.Ok (ProdCons.boot b pc, BufHist.init) p) : ProdCons.Inv p :=
  h.invariant (ProdCons.inv_boot b hpc) fun _ _ _ hI hok hs => hI.step hok hs

/-- Thread `t` has returned from `P(&mutex)` and not called `V(&mutex)` yet. -/
def ProdCons.Inside (s : ProdCons) (t : ℕ) : Prop := s.pc t ∈ Abs.inside ∧ s.kernel.ctx (some t) = []

theorem Sim.inside {t : ℕ} (hsim : Sim s g a) (h : s.Inside t) : a.pc t ∈ Abs.inside := by
  obtain ⟨hpc, hctx⟩ := h
  have hW := hsim.threads t
  rw [hctx] at hW
  generalize s.pc t = x at hW hpc
  generalize a.pc t = y at hW
  cases hW with
  | foreign => exact absurd hpc (by decide)
  | before st σ hd hcode =>
    rcases hcode with hcode | hcode
    · cases hcode
    · cases hcode
  | asleep st σ hd hcode hp => exact absurd hp List.not_mem_nil
  | giving st σ hu hcode =>
    rcases hcode with hcode | hcode
    · cases hcode
    · cases hcode
  | settled st => exact hpc

/-- Statements that do not follow a call are where the program says. -/
theorem Sim.pc_eq {t : ℕ} {st : Stmt} (hsim : Sim s g a) (hpc : s.pc t = some st)
    (hst : ∀ st' : Stmt, st'.next = st → st'.call = none) : a.pc t = some st := by
  have hW := hsim.threads t
  generalize s.pc t = x at hW hpc
  generalize a.pc t = y at hW ⊢
  have hcall : ∀ st' : Stmt, ∀ c, some st'.next = some st → st'.call ≠ some c := by
    intro st' c he hc
    rw [hst st' (Option.some.inj he)] at hc
    cases hc
  cases hW with
  | foreign => cases hpc
  | before st' σ hd => exact absurd (call_of_down hd) (hcall st' _ hpc)
  | asleep st' σ hd => exact absurd (call_of_down hd) (hcall st' _ hpc)
  | giving st' σ hu => exact absurd (call_of_up hu) (hcall st' _ hpc)
  | settled st' => exact hpc

/-- When nobody is inside, in the buffer's view there may be somebody on the
way in or out. -/
theorem Sim.inside_of_not {t : ℕ} (hsim : Sim s g a) (h : ¬ s.Inside t) (hin : a.pc t ∈ Abs.inside) :
    a.pc t ∈ [some .store, some .vMutex, some .fetch, some .cvMutex] := by
  have hW := hsim.threads t
  unfold ProdCons.Inside at h
  generalize s.pc t = x at hW h
  generalize a.pc t = y at hW hin ⊢
  cases hW with
  | foreign => exact absurd hin (by decide)
  | before st σ hd =>
    cases st with
    | pEmpty | pMutex | cFull | cMutex => exact absurd hin (by decide)
    | _ => cases hd
  | asleep st σ hd =>
    cases st with
    | pEmpty | pMutex | cFull | cMutex => exact absurd hin (by decide)
    | _ => cases hd
  | giving st σ hu =>
    cases st with
    | vMutex | cvMutex => decide
    | vFull | cvEmpty => exact absurd hin (by decide)
    | _ => cases hu
  | settled st hquiet hcall =>
    rcases hcall with hnil | ⟨st', c, rfl, hc⟩
    · exact absurd ⟨hin, hnil⟩ h
    · cases st' with
      | pMutex | cMutex => decide
      | pEmpty | cFull | vMutex | cvMutex | vFull | cvEmpty => exact absurd hin (by decide)
      | _ => cases hc

/-- **The bounded buffer works.** Any number of threads run `test_producer` and
`test_consumer`, next to others that leave their semaphores alone, in any
order. The assertion of the consumers holds whenever it is checked, and the
numbers come out as 1, 2, 3 and so on, modulo 2^32; at most one thread is
between `P(&mutex)` and `V(&mutex)`; when none is, the indices are in range;
and between 0 and `NBUF` numbers are stored and not fetched. -/
theorem bounded_buffer {b : Bool} {pc : ℕ → Option Stmt} {p : ProdCons × BufHist}
    (hpc : ∀ t st, pc t = some st → st = .pEmpty ∨ st = .cFull)
    (h : Reach ProdCons.histStep ProdCons.Ok (ProdCons.boot b pc, BufHist.init) p) :
    (∀ t, p.1.pc t = some .check → p.1.mem.last = p.1.mem.get t - 1) ∧
      p.2.out = (List.range p.2.consumed).map Abs.item ∧
      (∀ t u, p.1.Inside t → p.1.Inside u → t = u) ∧
      ((∀ t, ¬ p.1.Inside t) → p.1.mem.f < nbuf ∧ p.1.mem.r < nbuf) ∧
      p.2.consumed ≤ p.2.produced ∧ p.2.produced ≤ p.2.consumed + nbuf := by
  obtain ⟨q, a, -, -, hI, hsim⟩ := reach_prodCons hpc h
  refine ⟨fun t ht => ?_, ?_, fun t u ht hu => hI.exclusive (hsim.inside ht) (hsim.inside hu), fun hno => ?_, ?_⟩
  · have hapc : a.pc t = some .check := by
      refine hsim.pc_eq ht fun st' hst' => ?_
      cases st' with
      | incR => rfl
      | _ => cases hst'
    have hcheck := hI.checks hapc
    rw [hsim.mem] at hcheck
    exact hcheck
  · rw [← hsim.out, ← hsim.consumed]
    exact hI.out
  · rw [← hsim.mem]
    exact hI.inRange fun t ht => hsim.inside_of_not (hno t) ht
  · rw [← hsim.produced, ← hsim.consumed]
    exact hI.between

/-- Thread 1 runs `test_producer` and thread 2 `test_consumer`. -/
def producerAndConsumer : ℕ → Option Stmt
  | 1 => some .pEmpty
  | 2 => some .cFull
  | _ => none

/-- Thread 1 stores a number and thread 2 fetches it, and is about to check it. -/
theorem bounded_buffer_one : ∃ p, Reach ProdCons.histStep ProdCons.Ok
    (ProdCons.boot false producerAndConsumer, BufHist.init) p ∧ p.1.pc 2 = some .check ∧
    p.1.mem.last = p.1.mem.get 2 - 1 ∧ p.2.out = [1] := by
  have h : ∃ p, Reach ProdCons.histStep ProdCons.Ok
      (ProdCons.boot false producerAndConsumer, BufHist.init) p ∧ (p.1.pc 2 = some .check ∧ p.2.consumed = 1) := by
    rw [ProdCons.boot, boot_eq]
    let exec (n : ℕ) : List ProdCons.Action := List.replicate n (.kernel .exec)
    let call (c : Call) : ProdCons.Action := .kernel (.call c)
    let irq : ProdCons.Action := .kernel (.irq [])
    let stmt : ProdCons.Action := .stmt
    exact Reach.exists_of_exec
      ( -- `test_setup`
        call (.createSem 0 0) :: exec 3 ++ call (.createSem 1 5) :: exec 3 ++
        call (.createSem 2 1) :: exec 3 ++
        call .createKthread :: exec 3 ++ call (.wakeup 1) :: exec 4 ++
        call .createKthread :: exec 3 ++ call (.wakeup 2) :: exec 4 ++
        -- the producer, up to its `V(&full)`
        irq :: exec 1 ++ stmt :: exec 3 ++ stmt :: exec 3 ++ [stmt, stmt, stmt, stmt] ++
        stmt :: exec 3 ++ stmt :: exec 3 ++
        -- the consumer, up to its assertion
        irq :: exec 1 ++ stmt :: exec 3 ++ stmt :: exec 3 ++ [stmt, stmt])
      (by decide +kernel)
  obtain ⟨p, hr, hpc, hc⟩ := h
  have hprogs : ∀ t st, producerAndConsumer t = some st → st = .pEmpty ∨ st = .cFull := by
    intro t st ht
    match t with
    | 0 => cases ht
    | 1 => exact Or.inl (Option.some.inj ht).symm
    | 2 => exact Or.inr (Option.some.inj ht).symm
    | _ + 3 => cases ht
  obtain ⟨hcheck, hout, -⟩ := bounded_buffer hprogs hr
  rw [hc] at hout
  exact ⟨p, hr, hpc, hcheck 2 hpc, hout⟩

end NanoOS
