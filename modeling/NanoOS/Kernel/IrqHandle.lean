/-
# Interrupt handlers

Drivers register routines for an interrupt with `add_irq_handle`: the routine
is put in front of the list of that interrupt, in a node of `handle_pool` that
is never given back. `irq_handle` calls the routines of the list one by one.

There are `NR_IRQ_HANDLE` nodes, and `add_irq_handle` refuses a registration
only when more than `NR_IRQ_HANDLE` were made: one too late.

Key definitions: `Irq.addIrqHandle`, `Irq.irqHandle`, `Irq.Attached`.
Key theorems: `Attached.addIrqHandle`, `Attached.irqHandle`, `irq_handlers`.
-/
import Mathlib.Data.Int.Notation
import Mathlib.Data.List.Basic
import NanoOS.Lib.NullList
import NanoOS.Lib.Trans

namespace NanoOS
namespace Irq

open NullList Trans

/-- `NR_IRQ_HANDLE`. -/
def nrIrqHandle : ℕ := 32

/-- `NR_HARD_INTR`. -/
def nrHardIntr : ℤ := 16

/-- `struct IRQ_t`. -/
structure IrqT (ρ : Type) where
  routine : ρ
  next : Option ℕ

/-- `handle_pool`, `handles` and `handle_count`. A pointer to a node is its
index. -/
structure State (ρ : Type) where
  handlePool : ℕ → IrqT ρ
  handles : ℕ → Option ℕ
  handleCount : ℕ

/-- How a call ends that does not return. `outside` is an index outside
`handle_pool` or `handles`, `stray` a walk along a list that does not end. -/
inductive Fault
  | assertion
  | panic (text : String)
  | outside
  | stray
  deriving DecidableEq

variable {ρ : Type}

/-- At first. -/
def State.init (routine : ρ) : State ρ := ⟨fun _ => ⟨routine, none⟩, fun _ => none, 0⟩

/-- `ptr = &handle_pool[handle_count ++]` and what is done with it. -/
def attach (irq : ℤ) (func : ρ) (s : State ρ) : State ρ where
  handlePool := Function.update s.handlePool s.handleCount ⟨func, s.handles irq.toNat⟩
  handles := Function.update s.handles irq.toNat (some s.handleCount)
  handleCount := s.handleCount + 1

/-- `add_irq_handle`. -/
def addIrqHandle (irq : ℤ) (func : ρ) (s : State ρ) : Except Fault (State ρ) :=
  if irq < nrHardIntr then
    if s.handleCount > nrIrqHandle then .error (.panic "Too many irq registrations!")
    else if s.handleCount < nrIrqHandle ∧ 0 ≤ irq then
      .ok (attach irq func s)
    else .error .outside
  else .error .assertion

/-- The format of the panic for an exception of the processor. -/
def unexpected : String :=
  "Unexpected exception #%d\n\x1b[1;31mHint: The machine is always right! For more details about exception #%d, see\n%s\n\x1b[0m"

/-- `irq_handle` up to `PROC`: the routines it calls. -/
def irqHandle (irq : ℤ) (s : State ρ) : Except Fault (List ρ) :=
  if irq < 0 then .error (.panic "Unhandled exception!")
  else if irq = 0x80 then .ok []
  else if irq < 1000 then .error (.panic unexpected)
  else if irq - 1000 < nrHardIntr then
    match visit (fun f => (s.handlePool f).next) (nrIrqHandle + 1) (s.handles (irq - 1000).toNat) with
    | some fs => .ok (fs.map fun f => (s.handlePool f).routine)
    | none => .error .stray
  else .error .assertion

/-- A registration. -/
structure Reg (ρ : Type) where
  irq : ℤ
  func : ρ
  deriving DecidableEq

/-- A registration that returns. -/
def step (s : State ρ) (r : Reg ρ) : Option (State ρ) := (addIrqHandle r.irq r.func s).toOption

/-- The registrations, in order. -/
def record (_ : State ρ) (r : Reg ρ) (regs : List (Reg ρ)) : List (Reg ρ) := regs ++ [r]

/-! ### The lists -/

/-- The links. -/
def State.next (s : State ρ) (f : ℕ) : Option ℕ := (s.handlePool f).next

/-- The routines registered for an interrupt, the last one first. -/
def routinesOf (regs : List (Reg ρ)) (irq : ℤ) : List ρ := ((regs.filter fun r => r.irq = irq).map Reg.func).reverse

/-- The lists have what was registered, in nodes that are in use. -/
structure Attached (regs : List (Reg ρ)) (s : State ρ) : Prop where
  count : s.handleCount = regs.length
  bound : regs.length ≤ nrIrqHandle
  lists : ∀ irq, 0 ≤ irq → ∃ l, Leads s.next (s.handles irq.toNat) l ∧
    l.map (fun f => (s.handlePool f).routine) = routinesOf regs irq ∧ ∀ f ∈ l, f < s.handleCount

namespace Attached

variable {regs : List (Reg ρ)} {s s' : State ρ} {irq : ℤ} {func : ρ}

theorem init (routine : ρ) : Attached [] (State.init routine) :=
  ⟨rfl, Nat.zero_le _, fun _ _ => ⟨[], rfl, rfl, nofun⟩⟩

theorem routinesOf_append (regs : List (Reg ρ)) (irq i : ℤ) (func : ρ) :
    routinesOf (regs ++ [⟨irq, func⟩]) i = if irq = i then func :: routinesOf regs i else routinesOf regs i := by
  unfold routinesOf
  rw [List.filter_append, List.map_append, List.reverse_append]
  by_cases heq : irq = i
  · rw [if_pos heq, List.filter_singleton, decide_eq_true heq]
    rfl
  · rw [if_neg heq, List.filter_singleton, decide_eq_false heq]
    rfl

theorem addIrqHandle_eq (hlo : 0 ≤ irq) (hhi : irq < nrHardIntr) (hroom : s.handleCount < nrIrqHandle) :
    Irq.addIrqHandle irq func s = .ok (attach irq func s) := by
  have hnotfull : ¬ s.handleCount > nrIrqHandle := Nat.not_lt_of_lt hroom
  have hin : s.handleCount < nrIrqHandle ∧ 0 ≤ irq := ⟨hroom, hlo⟩
  unfold Irq.addIrqHandle
  rw [if_pos hhi, if_neg hnotfull, if_pos hin]

theorem next_attach (irq : ℤ) (func : ρ) (s : State ρ) :
    (attach irq func s).next = Function.update s.next s.handleCount (s.handles irq.toNat) := by
  funext f
  unfold State.next attach
  dsimp only
  by_cases hf : f = s.handleCount
  · rw [hf, Function.update_self, Function.update_self]
  · rw [Function.update_of_ne hf, Function.update_of_ne hf]

/-- **`add_irq_handle`**, with a node left, puts the routine in front of one
list. -/
theorem attach (h : Attached regs s) (hlo : 0 ≤ irq) (hroom : regs.length < nrIrqHandle) (func : ρ) :
    Attached (regs ++ [⟨irq, func⟩]) (Irq.attach irq func s) := by
  have hlen : (regs ++ [Reg.mk irq func]).length = regs.length + 1 := List.length_append
  refine ⟨?_, by omega, fun i hi => ?_⟩
  · rw [hlen, ← h.count]
    rfl
  · obtain ⟨l, hleads, hroutines, hused⟩ := h.lists i hi
    have hnew : s.handleCount ∉ l := fun hmem => Nat.lt_irrefl _ (hused _ hmem)
    have hold : l.map (fun f => ((Irq.attach irq func s).handlePool f).routine) = routinesOf regs i := by
      refine Eq.trans (List.map_congr_left fun f hf => ?_) hroutines
      exact congrArg IrqT.routine (Function.update_of_ne (Nat.ne_of_lt (hused f hf)) ..)
    rw [routinesOf_append, next_attach]
    by_cases heq : irq = i
    · rw [if_pos heq]
      refine ⟨s.handleCount :: l, ?_, ?_, ?_⟩
      · have hhead : (Irq.attach irq func s).handles i.toNat = some s.handleCount := heq ▸ Function.update_self ..
        rw [hhead, heq]
        exact hleads.push hnew
      · have hnode : (Irq.attach irq func s).handlePool s.handleCount = ⟨func, s.handles irq.toNat⟩ :=
          Function.update_self ..
        rw [List.map_cons, hold, hnode]
      · intro f hf
        rcases List.mem_cons.mp hf with rfl | hf
        · exact Nat.lt_succ_self _
        · exact Nat.lt_succ_of_lt (hused f hf)
    · rw [if_neg heq]
      refine ⟨l, ?_, hold, fun f hf => Nat.lt_succ_of_lt (hused f hf)⟩
      have hhead : (Irq.attach irq func s).handles i.toNat = s.handles i.toNat :=
        Function.update_of_ne (by omega) ..
      rw [hhead]
      exact hleads.congr fun f hf => Function.update_of_ne (Nat.ne_of_lt (hused f hf)) ..

/-- **`irq_handle`** calls the routines of the list. -/
theorem irqHandle (h : Attached regs s) (hlo : 0 ≤ irq) (hhi : irq < nrHardIntr) :
    Irq.irqHandle (1000 + irq) s = .ok (routinesOf regs irq) := by
  obtain ⟨l, hleads, hroutines, hused⟩ := h.lists irq hlo
  have hlen : l.length ≤ regs.length := by
    calc l.length = (l.map fun f => (s.handlePool f).routine).length := by rw [List.length_map]
      _ = (routinesOf regs irq).length := by rw [hroutines]
      _ = (regs.filter fun r => r.irq = irq).length := by
          unfold routinesOf
          rw [List.length_reverse, List.length_map]
      _ ≤ regs.length := List.length_filter_le ..
  have hwalk := hleads.visit_eq (Nat.le_succ_of_le (Nat.le_trans hlen h.bound))
  have hid : 1000 + irq - 1000 = irq := by omega
  unfold Irq.irqHandle
  rw [if_neg (by omega), if_neg (by omega), if_neg (by omega), hid, if_pos hhi]
  unfold State.next at hwalk
  rw [hwalk, ← hroutines]

end Attached

/-! ### Runs -/

/-- `s` is the state after these registrations, which all returned. -/
def After (routine : ρ) (s : State ρ) (regs : List (Reg ρ)) : Prop :=
  Reach (withHistory step record) (fun _ r => 0 ≤ r.irq ∧ r.irq < nrHardIntr) (State.init routine, []) (s, regs)

theorem After.attached {routine : ρ} {s : State ρ} {regs : List (Reg ρ)} (h : After routine s regs) :
    Attached regs s := by
  refine Reach.invariant (I := fun p : State ρ × List (Reg ρ) => Attached p.2 p.1) h (.init routine) ?_
  rintro ⟨s, regs⟩ r ⟨s', regs'⟩ hatt ⟨hlo, hhi⟩ hstep
  obtain ⟨hstep, hrecord⟩ := withHistory_eq_some.mp hstep
  dsimp only at hatt hstep hrecord ⊢
  have hcount := hatt.count
  have hbound := hatt.bound
  by_cases hroom : regs.length < nrIrqHandle
  · unfold step at hstep
    rw [Attached.addIrqHandle_eq hlo hhi (hcount ▸ hroom)] at hstep
    cases hstep
    exact hrecord ▸ hatt.attach hlo hroom r.func
  · unfold step Irq.addIrqHandle at hstep
    rw [if_pos hhi, if_neg (by omega), if_neg (by omega)] at hstep
    cases hstep

/-- A registration takes a node of `handle_pool` that is in no list, and puts it
in front. -/
structure TakesNode (irq : ℤ) (func : ρ) (s s' : State ρ) : Prop where
  inside : s.handleCount < nrIrqHandle
  fresh : ∀ i : ℤ, 0 ≤ i → ∀ l, Leads s.next (s.handles i.toNat) l → s.handleCount ∉ l
  first : s'.handles irq.toNat = some s.handleCount
  node : s'.handlePool s.handleCount = ⟨func, s.handles irq.toNat⟩

/-- A registration panics, and nothing has changed, or takes a node. -/
def Registers (irq : ℤ) (func : ρ) (s : State ρ) : Prop :=
  (∃ text, addIrqHandle irq func s = .error (.panic text)) ∨
    ∃ s', addIrqHandle irq func s = .ok s' ∧ TakesNode irq func s s'

theorem Attached.registers_iff {s : State ρ} {regs : List (Reg ρ)} (h : Attached regs s) {irq : ℤ} (hlo : 0 ≤ irq)
    (hhi : irq < nrHardIntr) (func : ρ) : Registers irq func s ↔ regs.length < nrIrqHandle := by
  have hcount := h.count
  have hbound := h.bound
  constructor
  · rintro (⟨text, hpanic⟩ | ⟨s', -, htakes⟩)
    · by_contra hfull
      unfold Irq.addIrqHandle at hpanic
      rw [if_pos hhi, if_neg (by omega), if_neg (by omega)] at hpanic
      cases hpanic
    · exact hcount ▸ htakes.inside
  · intro hroom
    refine .inr ⟨_, addIrqHandle_eq hlo hhi (hcount ▸ hroom), hcount ▸ hroom, ?_, ?_, ?_⟩
    · intro i hi l hleads hmem
      obtain ⟨l', hleads', -, hused⟩ := h.lists i hi
      exact Nat.lt_irrefl _ (hused _ (hleads.unique hleads' ▸ hmem))
    · exact Function.update_self ..
    · exact Function.update_self ..

/-- **Registration and dispatch.** A registration goes right exactly if fewer
than `NR_IRQ_HANDLE` were made before it: the next one writes behind
`handle_pool`. `irq_handle` calls what was registered for the interrupt, each
routine as often as it was registered, the last one first. -/
theorem irq_handlers {routine : ρ} {s : State ρ} {regs : List (Reg ρ)} (h : After routine s regs) :
    (∀ irq func, 0 ≤ irq → irq < nrHardIntr → (Registers irq func s ↔ regs.length < nrIrqHandle)) ∧
      ∀ irq, 0 ≤ irq → irq < nrHardIntr → irqHandle (1000 + irq) s = .ok (routinesOf regs irq) :=
  ⟨fun _ func hlo hhi => h.attached.registers_iff hlo hhi func, fun _ hlo hhi => h.attached.irqHandle hlo hhi⟩

theorem irq_handlers_three :
    ∃ s, After 0 s [⟨0, 7⟩, ⟨14, 8⟩, ⟨0, 9⟩] ∧ Registers 1 10 s ∧ irqHandle 1000 s = .ok [9, 7] := by
  obtain ⟨⟨s, regs⟩, h, rfl⟩ : ∃ p : State ℕ × List (Reg ℕ), After 0 p.1 p.2 ∧ p.2 = [⟨0, 7⟩, ⟨14, 8⟩, ⟨0, 9⟩] :=
    Reach.exists_of_exec [⟨0, 7⟩, ⟨14, 8⟩, ⟨0, 9⟩] (by decide)
  obtain ⟨hreg, hcall⟩ := irq_handlers h
  exact ⟨s, h, (hreg 1 10 (by decide) (by decide)).mpr (show 3 < nrIrqHandle by decide),
    hcall 0 (by decide) (by decide)⟩

/-- The thirty-third registration does not panic, and there is no node for
it. -/
theorem irq_handlers_outside :
    ¬ ∀ (s : State ℕ) (regs : List (Reg ℕ)), After 0 s regs → ∀ irq func, 0 ≤ irq → irq < nrHardIntr →
      Registers irq func s := by
  intro h
  obtain ⟨⟨s, regs⟩, hreach, hfull⟩ : ∃ p : State ℕ × List (Reg ℕ), After 0 p.1 p.2 ∧ p.2.length = 32 :=
    Reach.exists_of_exec (List.replicate 32 ⟨0, 7⟩) (by decide)
  have hlo : (0 : ℤ) ≤ 0 := Int.le_refl 0
  have hroom := (hreach.attached.registers_iff hlo (by decide) 7).mp (h s regs hreach 0 7 hlo (by decide))
  exact absurd (hfull ▸ hroom) (by decide)

end Irq
end NanoOS
