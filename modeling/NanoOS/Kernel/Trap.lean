/-
# The way of an interrupt

A device raises a line of the interrupt controllers, which send a vector. The
processor reads the gate of the vector and the segment of the gate, pushes its state
and goes to an entry of `do_irq.S`, which pushes a number: `irq_handle` finds it in
the frame, and calls the routines of the line.

The two 8259 are programmed by `init_intr`, word after word. They end an interrupt by
themselves (`0x3`), so no routine has to. Only lines 0, 1 and 14 have an entry of
their own; the gates of the others lead to `irq_empty`, and `irq_handle` panics.

Key definitions: `Pic.write`, `initIntr`, `initIdt`, `Image`, `trap`.
Key theorems: `readGate_bits`, `trap_frame`, `Pic.line_vector`, `line_calls`.
-/
import NanoOS.Kernel.IrqHandle
import NanoOS.Memory.Segment
import NanoOS.Process.Switch
import Mathlib.Tactic.IntervalCases

namespace NanoOS
namespace Trap

open BitField Kthread
open Memory (SegDesc readDesc logical writeDtr initSegment dplKernel segKernelCode flat_apply initSegment_apply
  readDesc_setSegment)

/-! ### The controllers -/

/-- The 8259: the mask, the lines whose interrupts have not ended, the first
vector, the word that `data` takes next (0 is the mask), and what the other
initialization words say. -/
structure Pic where
  imr : BitVec 8
  isr : BitVec 8
  base : BitVec 8
  expects : ℕ
  single : Bool
  needs4 : Bool
  cascade : BitVec 8
  icw4 : BitVec 8
  deriving DecidableEq

/-- `out_byte` to the first port (`command`) or the second one. -/
def Pic.write (command : Bool) (x : BitVec 8) (p : Pic) : Pic :=
  if command then
    if x.getLsbD 4 then
      { p with imr := 0, isr := 0, expects := 2, single := x.getLsbD 1, needs4 := x.getLsbD 0 }
    else p -- `init_intr` only selects a mode for lines in service, and a register to read
  else
    match p.expects with
    | 2 => { p with base := x &&& 0xF8, expects := if p.single then (if p.needs4 then 4 else 0) else 3 }
    | 3 => { p with cascade := x, expects := if p.needs4 then 4 else 0 }
    | 4 => { p with icw4 := x, expects := 0 }
    | _ => { p with imr := x }

/-- Both controllers. -/
structure Pics where
  master : Pic
  slave : Pic
  deriving DecidableEq

/-- `PORT_PIC_MASTER` and `PORT_PIC_SLAVE`. -/
def portPicMaster : ℕ := 0x20

def portPicSlave : ℕ := 0xA0

/-- `out_byte`. -/
def outByte (port : ℕ) (x : BitVec 8) (p : Pics) : Pics :=
  if port = portPicMaster ∨ port = portPicMaster + 1 then
    { p with master := p.master.write (port = portPicMaster) x }
  else if port = portPicSlave ∨ port = portPicSlave + 1 then
    { p with slave := p.slave.write (port = portPicSlave) x }
  else p

/-- `init_intr`. -/
def initIntr (p : Pics) : Pics :=
  let p := outByte (portPicMaster + 1) 0xFF p
  let p := outByte (portPicSlave + 1) 0xFF p
  let p := outByte portPicMaster 0x11 p
  let p := outByte (portPicMaster + 1) 32 p
  let p := outByte (portPicMaster + 1) (1 <<< 2) p
  let p := outByte (portPicMaster + 1) 0x3 p
  let p := outByte portPicSlave 0x11 p
  let p := outByte (portPicSlave + 1) (32 + 8) p
  let p := outByte (portPicSlave + 1) 2 p
  let p := outByte (portPicSlave + 1) 0x3 p
  let p := outByte portPicMaster 0x68 p
  let p := outByte portPicMaster 0x0A p
  let p := outByte portPicSlave 0x68 p
  outByte portPicSlave 0x0A p

/-- A line goes through if it is not masked, and nothing of its priority or a higher
one is in service. -/
def Pic.accepts (p : Pic) (k : ℕ) : Bool :=
  !p.imr.getLsbD k && (List.range (k + 1)).all fun j => !p.isr.getLsbD j

/-- The processor takes the interrupt: it is in service, unless it ends by itself. -/
def Pic.ack (k : ℕ) (p : Pic) : Pic :=
  if p.icw4.getLsbD 1 then p else { p with isr := p.isr ||| 1 <<< k }

/-- The vector of a line. -/
def Pic.vector (p : Pic) (k : ℕ) : ℕ := p.base.toNat + k

/-- A device raises line `n`; the slave is at line 2 of the master. -/
def raise (n : ℕ) (p : Pics) : Option (ℕ × Pics) :=
  if n < 8 then
    if n ≠ 2 ∧ p.master.accepts n then some (p.master.vector n, { p with master := p.master.ack n })
    else none
  else if n < 16 ∧ p.slave.accepts (n - 8) ∧ p.master.accepts 2 ∧ p.master.cascade.getLsbD 2 ∧ p.slave.cascade = 2 then
    some (p.slave.vector (n - 8), ⟨p.master.ack 2, p.slave.ack (n - 8)⟩)
  else none

/-- What `init_intr` leaves, whatever was before. -/
def ready : Pics := ⟨⟨0, 0, 32, 0, false, true, 4, 3⟩, ⟨0, 0, 40, 0, false, true, 2, 3⟩⟩

theorem initIntr_eq (p : Pics) : initIntr p = ready := rfl

/-- **Every line has its vector**, and can be raised again at once. -/
theorem raise_ready {n : ℕ} (hn : n < 16) (hcascade : n ≠ 2) : raise n ready = some (32 + n, ready) := by
  have hlines : ∀ k < 16, k ≠ 2 → raise k ready = some (32 + k, ready) := by decide
  exact hlines n hn hcascade

/-! ### The gates -/

/-- `GateDesc`. -/
structure GateDesc where
  offset15_0 : BitVec 16
  segment : BitVec 16
  pad0 : BitVec 8
  type : BitVec 4
  system : BitVec 1
  privilegeLevel : BitVec 2
  present : BitVec 1
  offset31_16 : BitVec 16

/-- The bit fields, as the compiler lays them out. -/
def GateDesc.fields (g : GateDesc) : List (ℕ × ℕ) :=
  [(16, g.offset15_0.toNat), (16, g.segment.toNat), (8, g.pad0.toNat), (4, g.type.toNat), (1, g.system.toNat),
    (2, g.privilegeLevel.toNat), (1, g.present.toNat), (16, g.offset31_16.toNat)]

/-- The 64 bits in memory. -/
def GateDesc.bits (g : GateDesc) : ℕ := pack g.fields

/-- `INTERRUPT_GATE_32` and `TRAP_GATE_32`. -/
def interruptGate32 : BitVec 4 := 0xE

def trapGate32 : BitVec 4 := 0xF

/-- `set_intr` and `set_trap`, but for the type. -/
def setGate (type : BitVec 4) (selector offset : Word) (dpl : BitVec 2) : GateDesc where
  offset15_0 := (offset &&& 0xFFFF).setWidth 16
  segment := selector.setWidth 16
  pad0 := 0
  type := type
  system := 0
  privilegeLevel := dpl
  present := 1
  offset31_16 := ((offset >>> 16) &&& 0xFFFF).setWidth 16

/-- `set_intr`. -/
def setIntr (selector offset : Word) (dpl : BitVec 2) : GateDesc := setGate interruptGate32 selector offset dpl

/-- `set_trap`. -/
def setTrap (selector offset : Word) (dpl : BitVec 2) : GateDesc := setGate trapGate32 selector offset dpl

/-- The entries of `do_irq.S`. -/
inductive Entry
  | vec (n : Fin 15)
  | vecsys
  | irq0
  | irq1
  | irq14
  | irqEmpty
  deriving DecidableEq

/-- `NR_IRQ`. -/
def nrIrq : ℕ := 256

/-- `SEG_KERNEL_CODE << 3`. -/
def kernelCode : Word := BitVec.ofNat 32 segKernelCode <<< 3

/-- `init_idt`, with the entries at `sym`. -/
def initIdt (sym : Entry → Word) (idt : ℕ → GateDesc) : ℕ → GateDesc :=
  let trap (i : ℕ) (e : Entry) (idt : ℕ → GateDesc) := Function.update idt i (setTrap kernelCode (sym e) dplKernel)
  let intr (i : ℕ) (e : Entry) (idt : ℕ → GateDesc) := Function.update idt i (setIntr kernelCode (sym e) dplKernel)
  let idt := (List.range nrIrq).foldl (fun idt i => trap i .irqEmpty idt) idt
  let idt := trap 0 (.vec 0) idt
  let idt := trap 1 (.vec 1) idt
  let idt := trap 2 (.vec 2) idt
  let idt := trap 3 (.vec 3) idt
  let idt := trap 4 (.vec 4) idt
  let idt := trap 5 (.vec 5) idt
  let idt := trap 6 (.vec 6) idt
  let idt := trap 7 (.vec 7) idt
  let idt := trap 8 (.vec 8) idt
  let idt := trap 9 (.vec 9) idt
  let idt := trap 10 (.vec 10) idt
  let idt := trap 11 (.vec 11) idt
  let idt := trap 12 (.vec 12) idt
  let idt := trap 13 (.vec 13) idt
  let idt := trap 14 (.vec 14) idt
  let idt := trap 0x80 .vecsys idt
  let idt := intr (32 + 0) .irq0 idt
  let idt := intr (32 + 1) .irq1 idt
  intr (32 + 14) .irq14 idt

/-- Where a vector leads. -/
def entryOf (v : ℕ) : Entry :=
  if h : v < 15 then .vec ⟨v, h⟩
  else if v = 0x80 then .vecsys
  else if v = 32 then .irq0
  else if v = 33 then .irq1
  else if v = 46 then .irq14
  else .irqEmpty

/-- The type of its gate: only the three lines have interrupt gates. -/
def typeOf (v : ℕ) : BitVec 4 := if v = 32 ∨ v = 33 ∨ v = 46 then interruptGate32 else trapGate32

theorem fill_apply (g : ℕ → GateDesc) (idt : ℕ → GateDesc) (v n : ℕ) :
    (List.range n).foldl (fun idt i => Function.update idt i (g i)) idt v = if v < n then g v else idt v := by
  induction n with
  | zero => rfl
  | succ n ih =>
    rw [List.range_succ, List.foldl_append, List.foldl_cons, List.foldl_nil, Function.update_apply, ih]
    by_cases hv : v = n
    · rw [if_pos hv, if_pos (by omega), hv]
    · rw [if_neg hv]
      exact if_congr (by omega) rfl rfl

/-- **The table after `init_idt`.** -/
theorem initIdt_apply (sym : Entry → Word) (idt : ℕ → GateDesc) {v : ℕ} (hv : v < nrIrq) :
    initIdt sym idt v = setGate (typeOf v) kernelCode (sym (entryOf v)) dplKernel := by
  have hfill := fill_apply (fun _ => setTrap kernelCode (sym .irqEmpty) dplKernel) idt v nrIrq
  rw [if_pos hv] at hfill
  unfold initIdt
  dsimp only
  generalize (List.range nrIrq).foldl _ idt = idt' at hfill ⊢
  by_cases hknown : v < 15 ∨ v = 0x80 ∨ v = 32 ∨ v = 33 ∨ v = 46
  · have hvalues : v < 15 ∨ v = 128 ∨ v = 32 ∨ v = 33 ∨ v = 46 := hknown
    clear hknown hv hfill
    rcases hvalues with hsmall | rfl | rfl | rfl | rfl
    · interval_cases v
      all_goals rfl
    all_goals rfl
  · have hentry : entryOf v = .irqEmpty := by
      unfold entryOf
      rw [dif_neg (by omega)]
      repeat rw [if_neg (by omega)]
    have htype : typeOf v = trapGate32 := if_neg (by omega)
    repeat rw [Function.update_of_ne (by omega)]
    rw [hfill, hentry, htype]
    rfl

/-! ### The processor -/

/-- What the processor takes from a gate. -/
structure Gate where
  offset : Word
  selector : BitVec 16
  type : ℕ
  system : ℕ
  present : Bool

/-- A gate is read. -/
def readGate (n : ℕ) : Gate where
  offset := BitVec.ofNat 32 (field 0 16 n + 2 ^ 16 * field 48 16 n)
  selector := BitVec.ofNat 16 (field 16 16 n)
  type := field 40 4 n
  system := field 44 1 n
  present := field 47 1 n = 1

/-- **A gate as the processor sees it**: the offset is that of `set_intr` or
`set_trap`. -/
theorem readGate_bits (type : BitVec 4) (selector offset : Word) (dpl : BitVec 2) :
    readGate (setGate type selector offset dpl).bits = ⟨offset, selector.setWidth 16, type.toNat, 0, true⟩ := by
  obtain ⟨g, hg⟩ : ∃ g, g = setGate type selector offset dpl := ⟨_, rfl⟩
  have hread : ∀ (n : ℕ) {w : ℕ} (v : BitVec w), (∃ gs, g.fields = g.fields.take n ++ (w, v.toNat) :: gs) →
      field (width (g.fields.take n)) w g.bits = v.toNat := by
    rintro n w v ⟨gs, hsplit⟩
    have hfield := field_pack (g.fields.take n) w v.toNat gs
    rw [← hsplit, Nat.mod_eq_of_lt v.isLt] at hfield
    exact hfield
  have h0 : field 0 16 g.bits = g.offset15_0.toNat := hread 0 g.offset15_0 ⟨_, rfl⟩
  have h16 : field 16 16 g.bits = g.segment.toNat := hread 1 g.segment ⟨_, rfl⟩
  have h40 : field 40 4 g.bits = g.type.toNat := hread 3 g.type ⟨_, rfl⟩
  have h44 : field 44 1 g.bits = g.system.toNat := hread 4 g.system ⟨_, rfl⟩
  have h47 : field 47 1 g.bits = g.present.toNat := hread 6 g.present ⟨_, rfl⟩
  have h48 : field 48 16 g.bits = g.offset31_16.toNat := hread 7 g.offset31_16 ⟨_, rfl⟩
  have hoffset : g.offset15_0.toNat + 2 ^ 16 * g.offset31_16.toNat = offset.toNat := by
    have hlt := offset.isLt
    have hlow : (offset &&& 0xFFFF).toNat = offset.toNat % 65536 := Memory.toNat_low offset 16 (by decide)
    have hhigh : (offset >>> 16 &&& 0xFFFF).toNat = (offset >>> 16).toNat % 65536 :=
      Memory.toNat_low (offset >>> 16) 16 (by decide)
    have hshr : (offset >>> 16).toNat = offset.toNat / 65536 := Memory.toNat_shr offset 16
    subst hg
    unfold setGate
    dsimp only
    rw [BitVec.toNat_setWidth, BitVec.toNat_setWidth, hlow, hhigh, hshr]
    omega
  rw [← hg]
  unfold readGate
  rw [h0, h16, h40, h44, h47, h48, hoffset, hg]
  unfold setGate
  dsimp only
  rw [BitVec.ofNat_toNat, BitVec.ofNat_toNat, BitVec.setWidth_eq, BitVec.setWidth_eq]
  rfl

/-- What an entry of `do_irq.S` pushes: the processor has pushed an error code for
some exceptions. -/
def pushes : Entry → List Word
  | .vec n => if n = 8 ∨ 10 ≤ n then [BitVec.ofNat 32 n] else [0, BitVec.ofNat 32 n]
  | .vecsys => [0, 0x80]
  | .irq0 => [0, 1000]
  | .irq1 => [0, 1001]
  | .irq14 => [0, 1014]
  | .irqEmpty => [0, -1]

/-- The kernel in memory: the code of every entry is at its address. -/
structure Image where
  sym : Entry → Word
  codeAt : Word → Option Entry
  placed : ∀ e, codeAt (sym e) = some e

/-- The processor takes vector `v` in ring 0, perhaps with an error code, and the
entry and `asm_do_irq` run, as far as `saveRegs`. The selector in the gate must be
one of an executable segment that is not less privileged. -/
def trap (I : Image) (gdtr idtr : Memory.Dtr) (gdt : ℕ → SegDesc) (idt : ℕ → GateDesc) (v : ℕ) (err : Option Word)
    (p : Cpu × Mem) : Option (Cpu × Mem) :=
  let g := readGate (idt v).bits
  let code := readDesc (gdt (g.selector >>> 3).toNat).bits
  if p.1.cs &&& 3 = 0 ∧ 8 * v + 7 ≤ idtr.limit ∧ g.present ∧ g.system = 0 ∧ (g.type = 0xE ∨ g.type = 0xF) ∧
      8 ≤ code.type ∧ code.dpl ≤ (p.1.cs &&& 3).toNat then
    (logical gdtr gdt g.selector g.offset).bind fun linear =>
      (I.codeAt linear).map fun e =>
        let p := push p.1.eflags p
        let p := push (p.1.cs.setWidth 32) p
        let p := push p.1.eip p
        let p := (err.toList ++ pushes e).foldl (fun p x => push x p) p
        let c := { p.1 with cs := g.selector, eip := g.offset }
        saveRegs (if g.type = 0xE then cli c else c, p.2)
  else none

/-- The number that `irq_handle` finds. -/
def numberOf (v : ℕ) : Word :=
  if v < 15 ∨ v = 0x80 then BitVec.ofNat 32 v
  else if v = 32 ∨ v = 33 ∨ v = 46 then BitVec.ofNat 32 (1000 + (v - 32))
  else -1

/-- The exceptions for which the processor pushes an error code in ring 0. -/
def HasError (v : ℕ) : Prop := v = 8 ∨ 10 ≤ v ∧ v ≤ 14

theorem pushes_entryOf {v : ℕ} {err : Option Word} (herr : err.isSome = true ↔ HasError v) :
    err.toList ++ pushes (entryOf v) = [err.getD 0, numberOf v] := by
  by_cases hv : HasError v
  · obtain ⟨x, rfl⟩ := Option.isSome_iff_exists.mp (herr.mpr hv)
    unfold HasError at hv
    have hsmall : v < 15 := by omega
    have hentry : entryOf v = .vec ⟨v, hsmall⟩ := dif_pos hsmall
    have hnumber : numberOf v = BitVec.ofNat 32 v := if_pos (Or.inl hsmall)
    have hown : (⟨v, hsmall⟩ : Fin 15) = 8 ∨ 10 ≤ (⟨v, hsmall⟩ : Fin 15) := by
      rcases hv with rfl | ⟨hlo, -⟩
      · exact Or.inl rfl
      · exact Or.inr hlo
    have hpush : pushes (.vec ⟨v, hsmall⟩) = [BitVec.ofNat 32 v] := if_pos hown
    rw [hentry, hnumber, hpush]
    rfl
  · have hnone : err = none := Option.not_isSome_iff_eq_none.mp fun h => hv (herr.mp h)
    subst hnone
    show pushes (entryOf v) = [0, numberOf v]
    unfold HasError at hv
    by_cases hsmall : v < 15
    · have hentry : entryOf v = .vec ⟨v, hsmall⟩ := dif_pos hsmall
      have hnumber : numberOf v = BitVec.ofNat 32 v := if_pos (Or.inl hsmall)
      have hown : ¬ ((⟨v, hsmall⟩ : Fin 15) = 8 ∨ 10 ≤ (⟨v, hsmall⟩ : Fin 15)) := by
        rintro (heq | hle)
        · exact hv (Or.inl (congrArg Fin.val heq))
        · exact hv (Or.inr ⟨hle, Nat.le_of_lt_succ hsmall⟩)
      rw [hentry, hnumber]
      exact if_neg hown
    · unfold entryOf numberOf
      rw [dif_neg hsmall]
      by_cases h80 : v = 0x80
      · subst h80
        rfl
      by_cases h0 : v = 32
      · subst h0
        rfl
      by_cases h1 : v = 33
      · subst h1
        rfl
      by_cases h14 : v = 46
      · subst h14
        rfl
      rw [if_neg h80, if_neg h0, if_neg h1, if_neg h14, if_neg (by omega), if_neg (by omega)]
      rfl

theorem saveRegs_words {c : Cpu} {t : ℕ} (hesp : c.esp = t + 48) (m : Mem) :
    (saveRegs (c, m)).2 =
      store t c.edi (store (t + 4) c.esi (store (t + 8) c.ebp (store (t + 12) (ptr (t + 32))
      (store (t + 16) c.ebx (store (t + 20) c.edx (store (t + 24) c.ecx (store (t + 28) c.eax
      (store (t + 32) (c.gs.setWidth 32) (store (t + 36) (c.fs.setWidth 32) (store (t + 40) (c.es.setWidth 32)
      (store (t + 44) (c.ds.setWidth 32) m))))))))))) := by
  unfold saveRegs pushal push cli
  rw [hesp]
  rfl

theorem saveRegs_frame {c : Cpu} {t : ℕ} (hesp : c.esp = t + 48) (m : Mem) :
    let p := saveRegs (c, m)
    p.1.esp = t ∧ p.1.eflags.getLsbD 9 = false ∧
      savedCpu p.2 t = { c with
        eip := m (t + 56), cs := (m (t + 60)).setWidth 16, eflags := m (t + 64), esp := t + 68 } ∧
      ∀ a, (a < t ∨ t + 48 ≤ a) → p.2 a = m a := by
  refine ⟨?_, ?_, ?_, fun a ha => ?_⟩
  · show c.esp - 4 - 4 - 4 - 4 - 4 - 4 - 4 - 4 - 4 - 4 - 4 - 4 = t
    omega
  · show (c.eflags &&& 0xfffffdff).getLsbD 9 = false
    rw [BitVec.getLsbD_and]
    exact Bool.and_false _
  · rw [saveRegs_words hesp]
    unfold savedCpu
    simp [store_apply]
  · rw [saveRegs_words hesp]
    simp only [store_apply]
    repeat rw [if_neg (by omega)]

/-- **Every vector** leads to a `TrapFrame` that has the thread's registers and the
number and the error code of the interrupt, with the flag clear; nothing else is
written. -/
theorem trap_frame (I : Image) (tss gdtAddr idtAddr : Word) (gdt : ℕ → SegDesc) (idt : ℕ → GateDesc) {v t : ℕ}
    {err : Option Word} {c : Cpu} (hv : v < 256) (herr : err.isSome = true ↔ HasError v) (hcpl : c.cs &&& 3 = 0)
    (hesp : c.esp = t + 68) (m : Mem) :
    ∃ p, trap I (writeDtr gdtAddr 48) (writeDtr idtAddr 2048) (initSegment tss gdt) (initIdt I.sym idt) v err (c, m) =
        some p ∧
      p.1.esp = t ∧ p.1.eflags.getLsbD 9 = false ∧ savedCpu p.2 t = c ∧
      p.2 (t + 48) = numberOf v ∧ p.2 (t + 52) = err.getD 0 ∧ ∀ a, (a < t ∨ t + 68 ≤ a) → p.2 a = m a := by
  have hidt := initIdt_apply I.sym idt hv
  have hlimit : 8 * v + 7 ≤ (writeDtr idtAddr 2048).limit := by
    show 8 * v + 7 ≤ 2047
    omega
  have hgate := readGate_bits (typeOf v) kernelCode (I.sym (entryOf v)) dplKernel
  have htype : (typeOf v).toNat = 0xE ∨ (typeOf v).toNat = 0xF := by
    unfold typeOf
    split_ifs
    · exact Or.inl rfl
    · exact Or.inr rfl
  have hlinear : logical (writeDtr gdtAddr 48) (initSegment tss gdt) (kernelCode.setWidth 16) (I.sym (entryOf v)) =
      some (I.sym (entryOf v)) := by
    rw [flat_apply]
    exact if_pos (by decide)
  have hcode : readDesc (initSegment tss gdt (kernelCode.setWidth 16 >>> 3 : BitVec 16).toNat).bits =
      ⟨0, 4294967295, 10, true, 0, true, true⟩ := by
    have hidx : (kernelCode.setWidth 16 >>> 3 : BitVec 16).toNat = segKernelCode := by decide
    rw [hidx, initSegment_apply tss gdt (by decide), if_neg (by decide), if_pos rfl, readDesc_setSegment]
    rfl
  have hpush := pushes_entryOf herr
  obtain ⟨c', hc'⟩ : ∃ c' : Cpu, c' = { c with
    esp := t + 48, cs := kernelCode.setWidth 16, eip := I.sym (entryOf v) } := ⟨_, rfl⟩
  obtain ⟨m', hm'⟩ : ∃ m', m' = store (t + 48) (numberOf v) (store (t + 52) (err.getD 0) (store (t + 56) c.eip
    (store (t + 60) (c.cs.setWidth 32) (store (t + 64) c.eflags m)))) := ⟨_, rfl⟩
  have htrap : trap I (writeDtr gdtAddr 48) (writeDtr idtAddr 2048) (initSegment tss gdt) (initIdt I.sym idt) v err
      (c, m) = some (saveRegs (if (typeOf v).toNat = 0xE then cli c' else c', m')) := by
    unfold trap
    dsimp only
    rw [hidt, hgate, hcode, if_pos ⟨hcpl, hlimit, rfl, rfl, htype, by decide, Nat.zero_le _⟩, hlinear]
    show (I.codeAt (I.sym (entryOf v))).map _ = _
    rw [I.placed, Option.map_some, hpush, hc', hm']
    unfold push
    rw [hesp]
    rfl
  obtain ⟨e, hsaved⟩ : ∃ e, (if (typeOf v).toNat = 0xE then cli c' else c') = { c' with eflags := e } := by
    split_ifs
    · exact ⟨_, rfl⟩
    · exact ⟨c'.eflags, rfl⟩
  have hesp' : ({ c' with eflags := e } : Cpu).esp = t + 48 := by rw [hc']
  rw [hsaved] at htrap
  obtain ⟨hend, hflag, hframe, hkeep⟩ := saveRegs_frame hesp' m'
  refine ⟨_, htrap, hend, hflag, ?_, ?_, ?_, fun a ha => ?_⟩
  · have hsame : ({ c with esp := t + 68 } : Cpu) = c := by rw [← hesp]
    rw [hframe, hc', hm']
    simpa [store_apply] using hsame
  · rw [hkeep _ (by omega), hm']
    exact Function.update_self ..
  · rw [hkeep _ (by omega), hm']
    simp [store_apply]
  · rw [hkeep a (by omega), hm']
    simp only [store_apply]
    repeat rw [if_neg (by omega)]

/-- The entries one after the other, 16 bytes each. -/
def lowImage : Image where
  sym
    | .vec n => BitVec.ofNat 32 (16 * n)
    | .vecsys => 240
    | .irq0 => 256
    | .irq1 => 272
    | .irq14 => 288
    | .irqEmpty => 304
  codeAt a :=
    if h : a.toNat / 16 < 15 then some (.vec ⟨a.toNat / 16, h⟩)
    else if a = 240 then some .vecsys
    else if a = 256 then some .irq0
    else if a = 272 then some .irq1
    else if a = 288 then some .irq14
    else some .irqEmpty
  placed := by
    rintro (n | _)
    · revert n
      decide
    all_goals decide

/-- A page fault. -/
theorem trap_frame_fourteen :
    ∃ p, trap lowImage (writeDtr 4096 48) (writeDtr 8192 2048) (initSegment 12288 fun _ => .zero)
        (initIdt lowImage.sym fun _ => setTrap 0 0 0) 14 (some 2) (kernelCpu, oneFree) = some p ∧
      savedCpu p.2 8124 = kernelCpu ∧ p.2 8172 = 14 ∧ p.2 8176 = 2 := by
  have herr : (some (2 : Word)).isSome = true ↔ HasError 14 := ⟨fun _ => Or.inr ⟨by decide, by decide⟩, fun _ => rfl⟩
  have hesp : kernelCpu.esp = 8124 + 68 := rfl
  obtain ⟨p, htrap, -, -, hsaved, hnumber, herror, -⟩ := trap_frame lowImage 12288 4096 8192 (fun _ => .zero)
    (fun _ => setTrap 0 0 0) (by decide) herr (by decide) hesp oneFree
  exact ⟨p, htrap, hsaved, hnumber, herror⟩

/-- **From a line to its routines.** After `init_intr`, `init_segment` and
`init_idt`, and after any registrations, a device that raises line `n` interrupts
whatever runs with vector `32 + n`; the controllers are ready for the next one at
once, and the frame has the registers. `irq_handle` then calls what was registered
for the line if it is 0, 1 or 14, and panics for every other line. -/
theorem line_calls {ρ : Type} {routine : ρ} {s : Irq.State ρ} {regs : List (Irq.Reg ρ)}
    (hregs : Irq.After routine s regs) (I : Image) (tss gdtAddr idtAddr : Word) (gdt : ℕ → SegDesc)
    (idt : ℕ → GateDesc) (pics : Pics) {n t : ℕ} {c : Cpu} (hn : n < 16) (hcascade : n ≠ 2) (hcpl : c.cs &&& 3 = 0)
    (hesp : c.esp = t + 68) (m : Mem) :
    raise n (initIntr pics) = some (32 + n, initIntr pics) ∧
    ∃ p, trap I (writeDtr gdtAddr 48) (writeDtr idtAddr 2048) (initSegment tss gdt) (initIdt I.sym idt) (32 + n) none
        (c, m) = some p ∧ p.1.esp = t ∧ savedCpu p.2 t = c ∧
      Irq.irqHandle (p.2 (t + 48)).toInt s =
        if n = 0 ∨ n = 1 ∨ n = 14 then .ok (Irq.routinesOf regs n) else .error (.panic "Unhandled exception!") := by
  have hnoerror : (none : Option Word).isSome = true ↔ HasError (32 + n) := by
    unfold HasError
    exact ⟨fun h => absurd h (by decide), fun h => by omega⟩
  obtain ⟨p, htrap, hend, -, hsaved, hnumber, -⟩ := trap_frame I tss gdtAddr idtAddr gdt idt (v := 32 + n) (by omega)
    hnoerror hcpl hesp m
  rw [initIntr_eq]
  refine ⟨raise_ready hn hcascade, p, htrap, hend, hsaved, ?_⟩
  rw [hnumber]
  by_cases hline : n = 0 ∨ n = 1 ∨ n = 14
  · have hcall : Irq.irqHandle (1000 + (n : ℤ)) s = .ok (Irq.routinesOf regs n) :=
      hregs.attached.irqHandle (Int.natCast_nonneg n) (by unfold Irq.nrHardIntr; omega)
    rw [if_pos hline, ← hcall]
    rcases hline with rfl | rfl | rfl
    all_goals rfl
  · have hempty : numberOf (32 + n) = -1 := by
      unfold numberOf
      rw [if_neg (by omega), if_neg (by omega)]
    rw [if_neg hline, hempty]
    rfl

/-- The disk's line, with a routine for the timer and one for the disk. -/
theorem line_calls_fourteen :
    ∃ s, Irq.After 0 s [⟨0, 7⟩, ⟨14, 8⟩] ∧
      ∃ p, trap lowImage (writeDtr 4096 48) (writeDtr 8192 2048) (initSegment 12288 fun _ => .zero)
          (initIdt lowImage.sym fun _ => setTrap 0 0 0) 46 none (kernelCpu, oneFree) = some p ∧
        Irq.irqHandle (p.2 8172).toInt s = .ok [8] := by
  obtain ⟨⟨s, regs⟩, hregs, rfl⟩ : ∃ p : Irq.State ℕ × List (Irq.Reg ℕ), Irq.After 0 p.1 p.2 ∧
      p.2 = [⟨0, 7⟩, ⟨14, 8⟩] := Trans.Reach.exists_of_exec [⟨0, 7⟩, ⟨14, 8⟩] (by decide)
  obtain ⟨-, p, htrap, -, -, hcall⟩ := line_calls hregs lowImage 12288 4096 8192 (fun _ => .zero)
    (fun _ => setTrap 0 0 0) ready (n := 14) (t := 8124) (c := kernelCpu) (by decide) (by decide) (by decide) rfl
    oneFree
  exact ⟨s, hregs, p, htrap, hcall⟩

end Trap
end NanoOS
