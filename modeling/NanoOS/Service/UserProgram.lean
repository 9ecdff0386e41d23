/-
# The user program

The RAM disk comes with one file, the executable of `userproc/testproc.c`, which
counts: `volatile int x = 0; int main() { while(1) x ++; }`. `create_process`
makes processes of it, and each of them runs it in its own address space, while
the others and the threads of the kernel take their steps in between.

A process runs in ring 0, on the kernel stack that `create_kthread` gave it, so
its first push goes to the memory of the kernel. The registers that are saved
there when it is interrupted are those it goes on with (`NanoOS.Process.Switch`):
only the process itself changes them.

Key definitions: `testproc`, `Machine`, `userStep`, `Counts`.
Key theorems: `IsTestproc.loadable`, `copyTo_process`, `Counts.instr`,
`processes_count`.
-/
import NanoOS.Lib.X86
import NanoOS.Service.Load

namespace NanoOS
namespace Pm

open Memory Fm Mm Trans Image

/-- The first 236 bytes of `file[0]`: the ELF header, the three program headers,
and the code and unwind tables behind them. `create_process` copies no others. -/
def testproc : List (BitVec 8) := [
  0x7f, 0x45, 0x4c, 0x46, 0x01, 0x01, 0x01, 0x00, 0x00, 0x00, 0x00, 0x00, 0x00, 0x00, 0x00, 0x00,
  0x02, 0x00, 0x03, 0x00, 0x01, 0x00, 0x00, 0x00, 0xa0, 0x80, 0x04, 0x08, 0x34, 0x00, 0x00, 0x00,
  0x50, 0x03, 0x00, 0x00, 0x00, 0x00, 0x00, 0x00, 0x34, 0x00, 0x20, 0x00, 0x03, 0x00, 0x28, 0x00,
  0x0e, 0x00, 0x0b, 0x00, 0x01, 0x00, 0x00, 0x00, 0x00, 0x00, 0x00, 0x00, 0x00, 0x80, 0x04, 0x08,
  0x00, 0x80, 0x04, 0x08, 0xec, 0x00, 0x00, 0x00, 0xec, 0x00, 0x00, 0x00, 0x05, 0x00, 0x00, 0x00,
  0x00, 0x10, 0x00, 0x00, 0x01, 0x00, 0x00, 0x00, 0xec, 0x00, 0x00, 0x00, 0xec, 0x90, 0x04, 0x08,
  0xec, 0x90, 0x04, 0x08, 0x00, 0x00, 0x00, 0x00, 0x04, 0x00, 0x00, 0x00, 0x06, 0x00, 0x00, 0x00,
  0x00, 0x10, 0x00, 0x00, 0x51, 0xe5, 0x74, 0x64, 0x00, 0x00, 0x00, 0x00, 0x00, 0x00, 0x00, 0x00,
  0x00, 0x00, 0x00, 0x00, 0x00, 0x00, 0x00, 0x00, 0x00, 0x00, 0x00, 0x00, 0x06, 0x00, 0x00, 0x00,
  0x10, 0x00, 0x00, 0x00, 0x00, 0x00, 0x00, 0x00, 0x00, 0x00, 0x00, 0x00, 0x00, 0x00, 0x00, 0x00,
  0x55, 0x89, 0xe5, 0x90, 0x8d, 0x74, 0x26, 0x00, 0xa1, 0xec, 0x90, 0x04, 0x08, 0x83, 0xc0, 0x01,
  0xa3, 0xec, 0x90, 0x04, 0x08, 0xeb, 0xf1, 0x00, 0x14, 0x00, 0x00, 0x00, 0x00, 0x00, 0x00, 0x00,
  0x01, 0x7a, 0x52, 0x00, 0x01, 0x7c, 0x08, 0x01, 0x1b, 0x0c, 0x04, 0x04, 0x88, 0x01, 0x00, 0x00,
  0x18, 0x00, 0x00, 0x00, 0x1c, 0x00, 0x00, 0x00, 0xc8, 0xff, 0xff, 0xff, 0x17, 0x00, 0x00, 0x00,
  0x00, 0x41, 0x0e, 0x08, 0x85, 0x02, 0x42, 0x0d, 0x05, 0x00, 0x00, 0x00]

/-- A file that starts with these bytes. -/
def IsTestproc (file : ℕ → BitVec 8) : Prop := ∀ a < 236, file a = testproc.getD a 0

/-- The memory as process `pid` finds it, with its page directory in CR3. -/
def bus (cr3 : Word) : X86.Bus PhysMem where
  read m a := readVirt m cr3 a
  write a x m := writeVirt cr3 a x m

/-- The kernel with its processes, and the registers of the processes. -/
structure Machine (σ : Type) where
  os : Loader σ
  reg : ℕ → Fin 8 → Word

/-- What happens next. -/
inductive UserAct (σ : Type)
  /-- `create_process`; `create_kthread` leaves the process with the registers `reg` -/
  | createProcess (pid : ℕ) (m : MsgData) (buf : ℤ) (beyond : ℕ → BitVec 8) (reg : Fin 8 → Word)
  /-- an instruction of process `pid` -/
  | user (pid : ℕ)
  /-- other threads run, until the state is `t` -/
  | other (t : Loader σ)

section

variable {σ : Type}

/-- An instruction of process `pid`; `none` is a fault. -/
def instr (pid : ℕ) (s : Machine σ) : Option (Machine σ) :=
  (X86.step (bus (s.os.mm.cr3 pid)) ⟨s.reg pid, s.os.eip pid⟩ s.os.mm.mem).map fun (c, mem) =>
    { os := { s.os with mm := { s.os.mm with mem := mem }, eip := Function.update s.os.eip pid c.eip }
      reg := Function.update s.reg pid c.reg }

variable (L : Layout) (ids : Pids) (ask : Server σ)

/-- The step. -/
def userStep (s : Machine σ) : UserAct σ → Option (Machine σ)
  | .createProcess pid m buf beyond reg =>
    (doNewProcLoad L ids ask pid m buf beyond s.os).map fun os => ⟨os, Function.update s.reg pid reg⟩
  | .user pid => if pid ∈ s.os.woken then instr pid s else none
  | .other t => some { s with os := t }

/-- How many instructions each process has executed. -/
def tally (_ : Machine σ) (q : UserAct σ) (n : ℕ → ℕ) : ℕ → ℕ :=
  match q with
  | .user pid => Function.update n pid (n pid + 1)
  | _ => n

/-- The four bytes below `a` are in the first 16 MB from `KOFFSET` on, where the kernel's
stacks are, and in none of its tables. -/
def OnStack (a : Word) : Prop :=
  3221225476 ≤ a.toNat ∧ a.toNat ≤ 3238002688 ∧ ∀ k < 4, ¬ TableFrame L ((a.toNat - 3221225476 + k) / 4096)

/-- Other threads make no process, write to no page table and to no memory above 32 MB, and
leave what is saved of the processes alone. -/
structure Leaves (s t : Loader σ) : Prop where
  untouched : Untouched L s t
  eip : ∀ p ∈ s.woken, t.eip p = s.eip p
  high : ∀ f i, 8192 ≤ f → t.mm.mem f i = s.mm.mem f i

/-- `create_kthread` returns a new PCB, with its stack, and file 1 is the program. -/
def UserOk (Has : (ℕ → BitVec 8) → σ → Prop) (s : Machine σ × (ℕ → ℕ)) : UserAct σ → Prop
  | .createProcess pid _ _ _ reg =>
    pid ∉ s.1.os.woken ∧ OnStack L (reg X86.esp) ∧ ∃ file, Has file s.1.os.fm ∧ IsTestproc file
  | .user _ => True
  | .other t => Leaves L s.1.os t

end

/-! ### The file -/

section

variable {file : ℕ → BitVec 8}

theorem IsTestproc.u16At (h : IsTestproc file) {a : ℕ} (ha : a + 2 ≤ 236) :
    Pm.u16At file a = Pm.u16At (fun i => testproc.getD i 0) a := by
  unfold Pm.u16At
  rw [h a (by omega), h (a + 1) (by omega)]

theorem IsTestproc.u32At (h : IsTestproc file) {a : ℕ} (ha : a + 4 ≤ 236) :
    Pm.u32At file a = Pm.u32At (fun i => testproc.getD i 0) a := by
  unfold Pm.u32At
  rw [h.u16At (by omega), h.u16At (by omega)]

theorem IsTestproc.phoff (h : IsTestproc file) : Pm.phoff file = 52 := by
  unfold Pm.phoff
  rw [h.u32At (by decide)]
  decide

theorem IsTestproc.phnum (h : IsTestproc file) : Pm.phnum file = 3 := (h.u16At (by decide)).trans (by decide)

theorem IsTestproc.entryPoint (h : IsTestproc file) : Pm.entryPoint file = 0x80480a0 :=
  (h.u32At (by decide)).trans (by decide)

/-- The code, the variable `x`, and the note that the stack need not be executable. -/
def testprocHeader (e : ℕ) : ProgramHeader :=
  [⟨0, 0x8048000, 236, 236⟩, ⟨236, 0x80490ec, 0, 4⟩].getD e ⟨0, 0, 0, 0⟩

theorem IsTestproc.programHeader (h : IsTestproc file) {e : ℕ} (he : e < 3) :
    Pm.programHeader file e = testprocHeader e := by
  unfold Pm.programHeader
  rw [h.phoff]
  dsimp only
  rw [h.u32At (by omega), h.u32At (by omega), h.u32At (by omega), h.u32At (by omega)]
  match e, he with
  | 0, _ => rfl
  | 1, _ => rfl
  | 2, _ => rfl

/-- **The program can be loaded.** -/
theorem IsTestproc.loadable (h : IsTestproc file) : Loadable file := by
  have hnum := h.phnum
  have hoff := h.phoff
  have hin : ∀ e < 3, 0 < (testprocHeader e).memsz.toNat → (testprocHeader e).filesz.toNat ≤
      (testprocHeader e).memsz.toNat ∧ (testprocHeader e).off.toNat + (testprocHeader e).filesz.toNat ≤ nrFileSize := by
    decide
  have hregion : ∀ e < 3, 0 < (testprocHeader e).memsz.toNat → 4194304 * 32 ≤ (testprocHeader e).vaddr.toNat ∧
      (testprocHeader e).vaddr.toNat + (testprocHeader e).memsz.toNat ≤ 4194304 * (32 + 1) := by decide
  have hapart : ∀ e' < 3, ∀ e < e', 0 < (testprocHeader e').memsz.toNat →
      (testprocHeader e).vaddr.toNat + (testprocHeader e).memsz.toNat ≤ (testprocHeader e').vaddr.toNat := by decide
  have hempty : ∀ e < 3, (testprocHeader e).memsz.toNat = 0 → (testprocHeader e).filesz.toNat = 0 ∧
      (testprocHeader e).vaddr.toNat < 3221225472 := by decide
  refine ⟨(h.u32At (by decide)).trans (by decide), by omega, ?_, ⟨32, by decide, ?_⟩, ?_, ?_⟩
  · intro e he
    rw [hnum] at he
    rw [h.programHeader he]
    exact hin e he
  · intro e he
    rw [hnum] at he
    rw [h.programHeader he]
    exact hregion e he
  · intro e e' hlt he' _ hpos'
    rw [hnum] at he'
    rw [h.programHeader he'] at hpos' ⊢
    rw [h.programHeader (by omega)]
    exact Or.inl (hapart e' he' e hlt hpos')
  · intro e he
    rw [hnum] at he
    rw [h.programHeader he]
    exact hempty e he

end

/-! ### The memory of a process -/

section

variable {L : Layout} {g : Log} {t : Mm.State} {pid k u : ℕ}

/-- Where a virtual address leads in a process that was last served when `vmem_free` was `u`. -/
def target (u : ℕ) (va : Word) : ℕ :=
  if va.toNat < 3221225472 then 33554432 + (frameBase u + va.toNat % 4194304) else va.toNat - 3221225472

/-- User addresses lead to the frames of the process, kernel addresses to the kernel. -/
theorem walk_target (hT : Tables L g t) (hp : g.slot pid = some k) (hu : g.served pid = some u) {va : Word}
    (hva : va.toNat < 3288334336) : ∃ pa, walk t.mem (t.cr3 pid) va = some pa ∧ pa.toNat = target u va := by
  have hbound := hT.dirs.bound
  have hle := hT.epoch pid u hu
  unfold target frameBase
  by_cases huser : va.toNat < 3221225472
  · refine ⟨_, hT.walk_user hp hu (.inl huser), ?_⟩
    rw [if_pos huser, toNat_physAddr (by omega)]
    omega
  · refine ⟨_, (hT.dirs.walk_kernel hp (by omega) hva).trans (hT.dirs.kernel.walk_kernel (by omega) (by omega)), ?_⟩
    rw [if_neg huser, toNat_physAddr (by omega)]
    omega

theorem readVirt_target (hT : Tables L g t) (hp : g.slot pid = some k) (hu : g.served pid = some u) {va : Word}
    (hva : va.toNat < 3288334336) : readVirt t.mem (t.cr3 pid) va = some (t.mem.loadByte (target u va)) := by
  obtain ⟨pa, hpa, hto⟩ := walk_target hT hp hu hva
  unfold readVirt
  rw [hpa, ← hto]
  rfl

theorem tables_storeByte (hT : Tables L g t) {a : ℕ} (ha : ¬ TableFrame L (a / 4096)) (x : BitVec 8) :
    Tables L g { t with mem := t.mem.storeByte a x } := by
  refine tables_congr hT rfl (fun _ _ => rfl) fun f i hf => storeByte_frame t.mem x i ?_
  rintro rfl
  exact ha hf

/-- **A process writes to its memory**, through its page tables, and these stay as they are. -/
theorem copyTo_process (hp : g.slot pid = some k) (hu : g.served pid = some u) :
    ∀ (data : List (BitVec 8)) {t : Mm.State} (va : Word) (b : ℕ), Tables L g t →
      (∀ j < data.length, (va + BitVec.ofNat 32 j).toNat < 3288334336 ∧ target u (va + BitVec.ofNat 32 j) = b + j ∧
        ¬ TableFrame L ((b + j) / 4096)) →
      ∃ m : PhysMem, copyTo (t.cr3 pid) va data t.mem = some m ∧
        m.loadByte = blit b data.length (fun j => data.getD j 0) t.mem.loadByte ∧ Tables L g { t with mem := m }
  | [], t, va, b, hT, _ => by
    refine ⟨t.mem, rfl, ?_, hT⟩
    rw [List.length_nil, blit_zero]
  | x :: data, t, va, b, hT, hto => by
    obtain ⟨hva, htarget, hfree⟩ := hto 0 (Nat.succ_pos _)
    rw [BitVec.add_zero] at hva htarget
    rw [Nat.add_zero] at htarget hfree
    obtain ⟨pa, hpa, hpato⟩ := walk_target hT hp hu hva
    have hT1 := tables_storeByte hT hfree x
    obtain ⟨m, hm, hbytes, hTm⟩ := copyTo_process hp hu data (va + 1) (b + 1) hT1 (by
      intro j hj
      have hnext := hto (j + 1) (Nat.succ_lt_succ hj)
      have hsum : va + BitVec.ofNat 32 (j + 1) = va + 1 + BitVec.ofNat 32 j := by
        rw [BitVec.add_assoc, BitVec.add_comm 1, BitVec.ofNat_add]
        rfl
      rw [hsum] at hnext
      rw [Nat.add_right_comm]
      exact hnext)
    refine ⟨m, ?_, ?_, hTm⟩
    · unfold copyTo writeVirt
      rw [hpa, Option.map_some, Option.bind_some, hpato, htarget]
      exact hm
    · rw [hbytes, List.length_cons]
      funext a
      unfold blit
      dsimp only
      rw [loadByte_storeByte]
      by_cases hfirst : a = b
      · rw [if_neg (by omega), if_pos hfirst, if_pos (by omega), hfirst, Nat.sub_self]
        rfl
      · by_cases hin : b + 1 ≤ a ∧ a < b + 1 + data.length
        · have hidx : a - b = a - (b + 1) + 1 := by omega
          rw [if_pos hin, if_pos (by omega), hidx]
          rfl
        · rw [if_neg hin, if_neg hfirst, if_neg (by omega)]

theorem writeBytes_bus (cr3 : Word) : ∀ (data : List (BitVec 8)) (va : Word) (m : PhysMem),
    (bus cr3).writeBytes va data m = copyTo cr3 va data m
  | [], _, _ => rfl
  | x :: data, va, m => by
    unfold X86.Bus.writeBytes copyTo
    congr 1
    funext m'
    exact writeBytes_bus cr3 data (va + 1) m'

end

/-! ### A process that counts -/

/-- How often a process has done `x ++` in its first `n` instructions. The first four are
before the loop, and the third of the four in the loop stores `x`. -/
def rounds (n : ℕ) : ℕ := (n - 3) / 4

/-- Where a process is after `n` instructions, from the start of the file on. -/
def placeAfter (n : ℕ) : ℕ := if n < 4 then [160, 161, 163, 164].getD n 0 else [168, 173, 176, 181].getD (n % 4) 0

section

variable {σ : Type} {L : Layout}

variable (L) in
/-- Process `pid`, with entry `k` of `vmem_table`, has executed `n` instructions of the program:
the file and `x` are in its frames, and it is about to execute the next one. -/
structure Counts (g : Log) (s : Machine σ) (n pid k : ℕ) : Prop where
  slot : g.slot pid = some k
  served : g.served pid = some (k + 1)
  image : ∀ j < 236, frames s.os.mm.mem (frameBase (k + 1) + 294912 + j) = testproc.getD j 0
  var : ∀ j < 4, frames s.os.mm.mem (frameBase (k + 1) + 299244 + j) =
    (X86.bytesOf (BitVec.ofNat 32 (rounds n))).getD j 0
  eip : s.os.eip pid = 0x8048000 + BitVec.ofNat 32 (placeAfter n)
  loaded : 4 ≤ n → n % 4 = 1 → s.reg pid X86.eax = BitVec.ofNat 32 (rounds n)
  added : 4 ≤ n → n % 4 = 2 → s.reg pid X86.eax = BitVec.ofNat 32 (rounds n + 1)
  stack : n = 0 → OnStack L (s.reg pid X86.esp)

/-- The processor has executed an instruction of process `pid`. -/
def Machine.after (pid : ℕ) (c : X86.Cpu) (mem : PhysMem) (s : Machine σ) : Machine σ :=
  { os := { s.os with mm := { s.os.mm with mem := mem }, eip := Function.update s.os.eip pid c.eip }
    reg := Function.update s.reg pid c.reg }

namespace Counts

variable {g : Log} {s : Machine σ} {n pid k : ℕ}

theorem target_image {j : ℕ} (hj : j < 236) :
    (0x8048000 + BitVec.ofNat 32 j : Word).toNat < 3288334336 ∧
      target (k + 1) (0x8048000 + BitVec.ofNat 32 j) = 33554432 + (frameBase (k + 1) + 294912 + j) := by
  have hva : (0x8048000 + BitVec.ofNat 32 j : Word).toNat = 134512640 + j := by
    rw [BitVec.toNat_add, BitVec.toNat_ofNat, Nat.mod_eq_of_lt (by omega : j < 2 ^ 32)]
    exact Nat.mod_eq_of_lt (show 134512640 + j < 2 ^ 32 by omega)
  unfold target
  rw [hva, if_pos (by omega)]
  omega

theorem target_var {j : ℕ} (hj : j < 4) :
    (0x80490ec + BitVec.ofNat 32 j : Word).toNat < 3288334336 ∧
      target (k + 1) (0x80490ec + BitVec.ofNat 32 j) = 33554432 + (frameBase (k + 1) + 299244 + j) := by
  have hva : (0x80490ec + BitVec.ofNat 32 j : Word).toNat = 134516972 + j := by
    rw [BitVec.toNat_add, BitVec.toNat_ofNat, Nat.mod_eq_of_lt (by omega : j < 2 ^ 32)]
    exact Nat.mod_eq_of_lt (show 134516972 + j < 2 ^ 32 by omega)
  unfold target
  rw [hva, if_pos (by omega)]
  omega

theorem step_eq (hc : Counts L g s n pid k) (hT : Tables L g s.os.mm) (len : ℕ) (i : X86.Instr)
    (hlen : placeAfter n + len ≤ 236) (h15 : len ≤ 15)
    (hdec : X86.decode ((testproc.drop (placeAfter n)).take len) = some i)
    (hpre : ∀ j < len, X86.decode (((testproc.drop (placeAfter n)).take len).take j) = none) :
    X86.step (bus (s.os.mm.cr3 pid)) ⟨s.reg pid, s.os.eip pid⟩ s.os.mm.mem =
      X86.exec (bus (s.os.mm.cr3 pid)) i (0x8048000 + BitVec.ofNat 32 (placeAfter n + len))
        ⟨s.reg pid, s.os.eip pid⟩ s.os.mm.mem := by
  have hlength : ((testproc.drop (placeAfter n)).take len).length = len := by
    have h236 : testproc.length = 236 := rfl
    rw [List.length_take, List.length_drop, h236]
    omega
  have hread : (bus (s.os.mm.cr3 pid)).Holds s.os.mm.mem (s.os.eip pid) ((testproc.drop (placeAfter n)).take len) := by
    intro j hj
    rw [hlength] at hj
    obtain ⟨hva, hto⟩ := target_image (k := k) (j := placeAfter n + j) (by omega)
    have hsum : s.os.eip pid + BitVec.ofNat 32 j = 0x8048000 + BitVec.ofNat 32 (placeAfter n + j) := by
      rw [hc.eip, BitVec.add_assoc, BitVec.ofNat_add]
    show readVirt s.os.mm.mem (s.os.mm.cr3 pid) (s.os.eip pid + BitVec.ofNat 32 j) = _
    have hbyte := hc.image (placeAfter n + j) (by omega)
    rw [List.getD_eq_getElem testproc 0 (show placeAfter n + j < testproc.length from (by omega : _ < 236))] at hbyte
    rw [hsum, readVirt_target hT hc.slot hc.served hva, hto, List.getElem_take, List.getElem_drop]
    exact congrArg some hbyte
  rw [X86.step_eq hread hdec (by rw [hlength]; exact hpre) (by rw [hlength]; exact h15), hlength]
  dsimp only
  rw [hc.eip, BitVec.add_assoc, BitVec.ofNat_add]

theorem after (hc : Counts L g s n pid k) {c : X86.Cpu} {mem : PhysMem}
    (himage : ∀ j < 236, frames mem (frameBase (k + 1) + 294912 + j) =
      frames s.os.mm.mem (frameBase (k + 1) + 294912 + j))
    (hvar : ∀ j < 4, frames mem (frameBase (k + 1) + 299244 + j) =
      (X86.bytesOf (BitVec.ofNat 32 (rounds (n + 1)))).getD j 0)
    (heip : c.eip = 0x8048000 + BitVec.ofNat 32 (placeAfter (n + 1)))
    (hloaded : 4 ≤ n + 1 → (n + 1) % 4 = 1 → c.reg X86.eax = BitVec.ofNat 32 (rounds (n + 1)))
    (hadded : 4 ≤ n + 1 → (n + 1) % 4 = 2 → c.reg X86.eax = BitVec.ofNat 32 (rounds (n + 1) + 1)) :
    Counts L g (s.after pid c mem) (n + 1) pid k where
  slot := hc.slot
  served := hc.served
  image j hj := (himage j hj).trans (hc.image j hj)
  var := hvar
  eip := (Function.update_self ..).trans heip
  loaded h4 hn := (congrFun (Function.update_self ..) X86.eax).trans (hloaded h4 hn)
  added h4 hn := (congrFun (Function.update_self ..) X86.eax).trans (hadded h4 hn)
  stack h := absurd h (Nat.succ_ne_zero n)

theorem quiet (hc : Counts L g s n pid k) {c : X86.Cpu} (hrounds : rounds (n + 1) = rounds n)
    (heip : c.eip = 0x8048000 + BitVec.ofNat 32 (placeAfter (n + 1)))
    (hloaded : 4 ≤ n + 1 → (n + 1) % 4 = 1 → c.reg X86.eax = BitVec.ofNat 32 (rounds n))
    (hadded : 4 ≤ n + 1 → (n + 1) % 4 = 2 → c.reg X86.eax = BitVec.ofNat 32 (rounds n + 1)) :
    Counts L g (s.after pid c s.os.mm.mem) (n + 1) pid k :=
  hc.after (fun _ _ => rfl) (hrounds ▸ hc.var) heip (hrounds ▸ hloaded) (hrounds ▸ hadded)

theorem read_var (hc : Counts L g s n pid k) (hT : Tables L g s.os.mm) :
    (bus (s.os.mm.cr3 pid)).read32 s.os.mm.mem 0x80490ec = some (BitVec.ofNat 32 (rounds n)) := by
  apply X86.Bus.Holds.read32
  intro j hj
  have h4 : j < 4 := hj
  obtain ⟨hva, hto⟩ := target_var (k := k) h4
  have hbyte := hc.var j h4
  rw [List.getD_eq_getElem _ _ hj] at hbyte
  show readVirt s.os.mm.mem (s.os.mm.cr3 pid) (0x80490ec + BitVec.ofNat 32 j) = _
  rw [readVirt_target hT hc.slot hc.served hva, hto]
  exact congrArg some hbyte

/-- What an instruction of a process that counts does: it does not fault, and it changes no
frames but its own. -/
def Steps (L : Layout) (g : Log) (s : Machine σ) (n pid k : ℕ) : Prop :=
  ∃ c mem, X86.step (bus (s.os.mm.cr3 pid)) ⟨s.reg pid, s.os.eip pid⟩ s.os.mm.mem = some (c, mem) ∧
    Tables L g { s.os.mm with mem := mem } ∧
    (∀ a, a < frameBase (k + 1) ∨ frameBase (k + 2) ≤ a → frames mem a = frames s.os.mm.mem a) ∧
    Counts L g (s.after pid c mem) (n + 1) pid k

theorem push (hc : Counts L g s 0 pid k) (hT : Tables L g s.os.mm) : Steps L g s 0 pid k := by
  obtain ⟨hlo, hhi, hfree⟩ := hc.stack rfl
  have hstep := hc.step_eq hT 1 (.push X86.ebp) (by decide) (by decide) (by decide) (by decide)
  have hsub : (s.reg pid X86.esp - 4).toNat = (s.reg pid X86.esp).toNat - 4 := by
    have h4 : (4 : Word).toNat = 4 := rfl
    rw [BitVec.toNat_sub, h4]
    omega
  obtain ⟨mem, hmem, hbytes, hT'⟩ := copyTo_process hc.slot hc.served (X86.bytesOf (s.reg pid X86.ebp))
    (s.reg pid X86.esp - 4) ((s.reg pid X86.esp).toNat - 3221225476) hT (by
      intro j hj
      have h4 : j < 4 := hj
      have hva : (s.reg pid X86.esp - 4 + BitVec.ofNat 32 j).toNat = (s.reg pid X86.esp).toNat - 4 + j := by
        rw [BitVec.toNat_add, hsub, BitVec.toNat_ofNat, Nat.mod_eq_of_lt (by omega : j < 2 ^ 32)]
        exact Nat.mod_eq_of_lt (by omega)
      refine ⟨by omega, ?_, hfree j h4⟩
      unfold target
      rw [hva, if_neg (by omega)]
      omega)
  have hsame : ∀ a, frames mem a = frames s.os.mm.mem a := by
    intro a
    unfold frames
    rw [hbytes]
    apply blit_outside
    right
    show (s.reg pid X86.esp).toNat - 3221225476 + 4 ≤ _
    omega
  refine ⟨⟨Function.update (s.reg pid) X86.esp (s.reg pid X86.esp - 4), 0x8048000 + BitVec.ofNat 32 161⟩, mem, ?_, hT',
    fun a _ => hsame a, hc.after (fun j _ => hsame _) (fun j hj => (hsame _).trans (hc.var j hj)) rfl ?_ ?_⟩
  · rw [hstep]
    unfold X86.exec
    dsimp only
    rw [writeBytes_bus, hmem]
    rfl
  · intro h4
    omega
  · intro h4
    omega

/-- `mov %esp,%ebp`, `nop` and `lea 0x0(%esi,%eiz,1),%esi`. -/
theorem prologue (hc : Counts L g s n pid k) (hT : Tables L g s.os.mm) (h0 : 0 < n) (h4 : n < 4) :
    Steps L g s n pid k := by
  have hquiet : ∀ reg : Fin 8 → Word, Counts L g
      (s.after pid ⟨reg, 0x8048000 + BitVec.ofNat 32 (placeAfter (n + 1))⟩ s.os.mm.mem) (n + 1) pid k := by
    intro reg
    refine hc.quiet ?_ rfl (fun h hn => ?_) fun h hn => ?_
    · unfold rounds
      omega
    · omega
    · omega
  obtain rfl | rfl | rfl : n = 1 ∨ n = 2 ∨ n = 3 := by omega
  · exact ⟨_, _, hc.step_eq hT 2 (.mov X86.ebp X86.esp) (by decide) (by decide) (by decide) (by decide),
      hT, fun _ _ => rfl, hquiet _⟩
  · exact ⟨_, _, hc.step_eq hT 1 .nop (by decide) (by decide) (by decide) (by decide),
      hT, fun _ _ => rfl, hquiet _⟩
  · exact ⟨_, _, hc.step_eq hT 4 (.lea X86.esi X86.esi 0) (by decide) (by decide) (by decide) (by decide),
      hT, fun _ _ => rfl, hquiet _⟩

theorem placeAfter_loop (h4 : 4 ≤ n) : placeAfter n = [168, 173, 176, 181].getD (n % 4) 0 :=
  if_neg (Nat.not_lt.mpr h4)

theorem load (hc : Counts L g s n pid k) (hT : Tables L g s.os.mm) (h4 : 4 ≤ n) (hn : n % 4 = 0) :
    Steps L g s n pid k := by
  have hplace : placeAfter n = 168 := by rw [placeAfter_loop h4, hn]; rfl
  have hnext : placeAfter (n + 1) = 173 := by rw [placeAfter_loop (by omega), show (n + 1) % 4 = 1 by omega]; rfl
  have hstep := hc.step_eq hT 5 (.load 0x80490ec) (by omega) (by decide) (by rw [hplace]; decide)
    (by rw [hplace]; decide)
  unfold X86.exec at hstep
  dsimp only at hstep
  rw [hc.read_var hT, Option.map_some, hplace] at hstep
  refine ⟨_, _, hstep, hT, fun _ _ => rfl, hc.quiet ?_ ?_ (fun _ _ => ?_) fun _ hn' => ?_⟩
  · unfold rounds
    omega
  · rw [hnext]
  · exact Function.update_self X86.eax _ (s.reg pid)
  · omega

theorem add (hc : Counts L g s n pid k) (hT : Tables L g s.os.mm) (h4 : 4 ≤ n) (hn : n % 4 = 1) :
    Steps L g s n pid k := by
  have hplace : placeAfter n = 173 := by rw [placeAfter_loop h4, hn]; rfl
  have hnext : placeAfter (n + 1) = 176 := by rw [placeAfter_loop (by omega), show (n + 1) % 4 = 2 by omega]; rfl
  have hstep := hc.step_eq hT 3 (.add X86.eax 1) (by omega) (by decide) (by rw [hplace]; decide)
    (by rw [hplace]; decide)
  rw [hplace] at hstep
  refine ⟨_, _, hstep, hT, fun _ _ => rfl, hc.quiet ?_ ?_ (fun _ hn' => ?_) fun _ _ => ?_⟩
  · unfold rounds
    omega
  · rw [hnext]
  · omega
  · show Function.update (s.reg pid) X86.eax (s.reg pid X86.eax + 1) X86.eax = _
    rw [Function.update_self, hc.loaded h4 hn, BitVec.ofNat_add]
    rfl

theorem store (hc : Counts L g s n pid k) (hT : Tables L g s.os.mm) (h4 : 4 ≤ n) (hn : n % 4 = 2) :
    Steps L g s n pid k := by
  have hplace : placeAfter n = 176 := by rw [placeAfter_loop h4, hn]; rfl
  have hnext : placeAfter (n + 1) = 181 := by rw [placeAfter_loop (by omega), show (n + 1) % 4 = 3 by omega]; rfl
  have hrounds : rounds (n + 1) = rounds n + 1 := by
    unfold rounds
    omega
  have hstep := hc.step_eq hT 5 (.store 0x80490ec) (by omega) (by decide) (by rw [hplace]; decide)
    (by rw [hplace]; decide)
  have hkmem := L.kmem
  obtain ⟨mem, hmem, hbytes, hT'⟩ := copyTo_process hc.slot hc.served (X86.bytesOf (s.reg pid X86.eax)) 0x80490ec
    (33554432 + (frameBase (k + 1) + 299244)) hT (by
      intro j hj
      obtain ⟨hva, hto⟩ := target_var (k := k) (j := j) hj
      refine ⟨hva, hto.trans (by omega), fun hframe => ?_⟩
      have hlt := hframe.lt
      omega)
  have hlen : (X86.bytesOf (s.reg pid X86.eax)).length = 4 := rfl
  rw [hlen] at hbytes
  have hsame : ∀ a, a < frameBase (k + 1) + 299244 ∨ frameBase (k + 1) + 299248 ≤ a →
      frames mem a = frames s.os.mm.mem a := by
    intro a ha
    unfold frames
    rw [hbytes]
    exact blit_outside _ _ (by omega)
  refine ⟨⟨s.reg pid, 0x8048000 + BitVec.ofNat 32 181⟩, mem, ?_, hT', fun a ha => hsame a ?_,
    hc.after (fun j hj => hsame _ (by omega)) (fun j hj => ?_) ?_ (fun _ hn' => ?_) fun _ hn' => ?_⟩
  · rw [hstep, hplace]
    unfold X86.exec
    dsimp only
    rw [writeBytes_bus, hmem]
    rfl
  · unfold frameBase at ha ⊢
    omega
  · have haddr : 33554432 + (frameBase (k + 1) + 299244 + j) = 33554432 + (frameBase (k + 1) + 299244) + j := by omega
    unfold frames
    rw [hbytes, haddr, blit_inside _ _ hj, hc.added h4 hn, hrounds]
  · rw [hnext]
  · omega
  · omega

theorem jump (hc : Counts L g s n pid k) (hT : Tables L g s.os.mm) (h4 : 4 ≤ n) (hn : n % 4 = 3) :
    Steps L g s n pid k := by
  have hplace : placeAfter n = 181 := by rw [placeAfter_loop h4, hn]; rfl
  have hnext : placeAfter (n + 1) = 168 := by rw [placeAfter_loop (by omega), show (n + 1) % 4 = 0 by omega]; rfl
  have hstep := hc.step_eq hT 2 (.jmp (-15)) (by omega) (by decide) (by rw [hplace]; decide)
    (by rw [hplace]; decide)
  rw [hplace] at hstep
  refine ⟨_, _, hstep, hT, fun _ _ => rfl, hc.quiet ?_ ?_ (fun _ hn' => ?_) fun _ hn' => ?_⟩
  · unfold rounds
    omega
  · show (0x8048000 + BitVec.ofNat 32 (181 + 2) + -15 : Word) = _
    rw [hnext]
    decide
  · omega
  · omega

/-- **The next instruction** of a process that counts. -/
theorem instr (hc : Counts L g s n pid k) (hT : Tables L g s.os.mm) : Steps L g s n pid k := by
  by_cases h4 : 4 ≤ n
  · obtain hn | hn | hn | hn : n % 4 = 0 ∨ n % 4 = 1 ∨ n % 4 = 2 ∨ n % 4 = 3 := by omega
    · exact hc.load hT h4 hn
    · exact hc.add hT h4 hn
    · exact hc.store hT h4 hn
    · exact hc.jump hT h4 hn
  · by_cases h0 : n = 0
    · subst h0
      exact hc.push hT
    · exact hc.prologue hT (Nat.pos_of_ne_zero h0) (by omega)

end Counts

end

/-! ### Every run -/

section

variable {σ : Type} {L : Layout} {ids : Pids} {ask : Server σ} {Has : (ℕ → BitVec 8) → σ → Prop}

theorem Counts.keep {g g' : Log} {s s' : Machine σ} {n pid k : ℕ} (hc : Counts L g s n pid k)
    (hslot : g'.slot pid = g.slot pid) (hserved : g'.served pid = g.served pid)
    (hframes : ∀ a, frameBase (k + 1) ≤ a → a < frameBase (k + 2) → frames s'.os.mm.mem a = frames s.os.mm.mem a)
    (heip : s'.os.eip pid = s.os.eip pid) (hreg : s'.reg pid = s.reg pid) : Counts L g' s' n pid k := by
  have hnext : frameBase (k + 2) = frameBase (k + 1) + 4194304 := by
    unfold frameBase
    omega
  refine ⟨hslot.trans hc.slot, hserved.trans hc.served, fun j hj => ?_, fun j hj => ?_, heip.trans hc.eip, ?_, ?_, ?_⟩
  · rw [hframes _ (by omega) (by omega)]
    exact hc.image j hj
  · rw [hframes _ (by omega) (by omega)]
    exact hc.var j hj
  · rw [hreg]
    exact hc.loaded
  · rw [hreg]
    exact hc.added
  · rw [hreg]
    exact hc.stack

/-- What `create_process` leaves is a process before its first instruction. -/
theorem counts_new {file : ℕ → BitVec 8} (hfile : IsTestproc file) {g : Log} {s : Machine σ} {pid k : ℕ}
    (hh : Holds g s.os file pid k) (hstack : OnStack L (s.reg pid X86.esp)) : Counts L g s 0 pid k := by
  have hnum := hfile.phnum
  refine ⟨hh.slot, hh.served (by omega), fun j hj => ?_, fun j hj => ?_, ?_, fun h => absurd h (by decide),
    fun h => absurd h (by decide), fun _ => hstack⟩
  · apply hh.bytes 0 (by omega)
    unfold wanted
    rw [hfile.programHeader (by decide)]
    have hplace : place (k + 1) (testprocHeader 0) = frameBase (k + 1) + 294912 := rfl
    have hj236 : j < (testprocHeader 0).filesz.toNat := hj
    have hoff : (testprocHeader 0).off.toNat + j = j := Nat.zero_add j
    dsimp only
    rw [hplace, if_pos (Nat.le_add_right _ _), Nat.add_sub_cancel_left]
    unfold content
    rw [if_pos hj236, hoff, hfile j hj]
  · apply hh.bytes 1 (by omega)
    unfold wanted
    rw [hfile.programHeader (by decide)]
    have hplace : place (k + 1) (testprocHeader 1) = frameBase (k + 1) + 299244 := rfl
    have hj4 : j < (testprocHeader 1).memsz.toNat := hj
    have hzero : ∀ i < 4, (X86.bytesOf (BitVec.ofNat 32 (rounds 0))).getD i 0 = 0 := by decide
    dsimp only
    rw [hplace, if_pos (Nat.le_add_right _ _), Nat.add_sub_cancel_left, hzero j hj]
    have hj0 : ¬ j < (testprocHeader 1).filesz.toNat := Nat.not_lt_zero j
    unfold content
    rw [if_neg hj0, if_pos hj4]
  · rw [hh.eip, hfile.entryPoint]
    decide

variable (L) in
/-- Every process counts, as far as it has come. -/
def AllCount (x : Machine σ × (ℕ → ℕ)) : Prop :=
  (∀ p, p ∉ x.1.os.woken → x.2 p = 0) ∧ ∃ g, Tables L g x.1.os.mm ∧
    (∀ p, (g.slot p).isSome → p ∈ x.1.os.woken) ∧ ∀ p ∈ x.1.os.woken, ∃ k, Counts L g x.1 (x.2 p) p k

theorem AllCount.createProcess (hask : Serves ask Has) {x : Machine σ × (ℕ → ℕ)} {os : Loader σ} {pid : ℕ}
    {m : MsgData} {buf : ℤ} {beyond : ℕ → BitVec 8} {reg : Fin 8 → Word} (hx : AllCount L x)
    (hok : UserOk L Has x (.createProcess pid m buf beyond reg))
    (h : doNewProcLoad L ids ask pid m buf beyond x.1.os = some os) :
    AllCount L (⟨os, Function.update x.1.reg pid reg⟩, x.2) := by
  obtain ⟨hzero, g, hT, hslots, hcounts⟩ := hx
  obtain ⟨hpid, hstack, file, hhas, hfile⟩ := hok
  obtain ⟨-, g', hm⟩ := doNewProcLoad_makes hask hfile.loadable.placeable hT (slot_eq_none hslots hpid) hhas h
  refine ⟨fun p hp => hzero p fun hmem => hp ?_, g', hm.tables, hm.woken_of_slot hslots, fun p hp => ?_⟩
  · dsimp only
    rw [hm.woken]
    exact List.mem_append_left _ hmem
  · by_cases hnew : p = pid
    · subst hnew
      dsimp only
      rw [hzero p hpid]
      refine ⟨_, counts_new hfile hm.holds ?_⟩
      dsimp only
      rw [Function.update_self]
      exact hstack
    · have hold : p ∈ x.1.os.woken := by
        dsimp only at hp
        rw [hm.woken, List.mem_append, List.mem_singleton] at hp
        exact hp.resolve_right hnew
      obtain ⟨k, hc⟩ := hcounts p hold
      have hk := (hT.dirs.cr3 p k hc.slot).1
      refine ⟨k, hc.keep (by rw [hm.slot, Function.update_of_ne hnew]) (hm.served p hnew) (fun a _ ha => hm.below a ?_)
        ?_ (Function.update_of_ne hnew ..)⟩
      · unfold frameBase at ha ⊢
        omega
      · dsimp only
        rw [hm.eip, Function.update_of_ne hnew]

theorem AllCount.user {x : Machine σ × (ℕ → ℕ)} {pid : ℕ} (hx : AllCount L x) (hpid : pid ∈ x.1.os.woken) :
    ∃ s', instr pid x.1 = some s' ∧ AllCount L (s', Function.update x.2 pid (x.2 pid + 1)) := by
  obtain ⟨hzero, g, hT, hslots, hcounts⟩ := hx
  obtain ⟨k, hc⟩ := hcounts pid hpid
  obtain ⟨c, mem, hstep, hT', hframes, hc'⟩ := hc.instr hT
  refine ⟨x.1.after pid c mem, ?_, fun p hp => ?_, g, hT', hslots, fun p hp => ?_⟩
  · unfold Pm.instr
    rw [hstep]
    rfl
  · have hne : p ≠ pid := fun h => hp (h ▸ hpid)
    exact (Function.update_of_ne hne ..).trans (hzero p hp)
  · by_cases hown : p = pid
    · subst hown
      dsimp only
      rw [Function.update_self]
      exact ⟨k, hc'⟩
    · obtain ⟨j, hj⟩ := hcounts p hp
      have hjk : j ≠ k := by
        rintro rfl
        exact hown (hT.inj p pid j hj.slot hc.slot)
      dsimp only
      rw [Function.update_of_ne hown]
      refine ⟨j, hj.keep rfl rfl (fun a hlo hhi => hframes a ?_) (Function.update_of_ne hown ..)
        (Function.update_of_ne hown ..)⟩
      unfold frameBase at hlo hhi ⊢
      omega

theorem AllCount.other {x : Machine σ × (ℕ → ℕ)} {t : Loader σ} (hx : AllCount L x) (ht : Leaves L x.1.os t) :
    AllCount L ({ x.1 with os := t }, x.2) := by
  obtain ⟨hzero, g, hT, hslots, hcounts⟩ := hx
  obtain ⟨⟨hfree, hwoken, hcr3, htables⟩, heip, hhigh⟩ := ht
  refine ⟨fun p hp => hzero p ?_, g, tables_congr hT hfree (fun p hp => hcr3 p (hslots p hp)) htables, fun p hp => ?_,
    fun p hp => ?_⟩
  · rw [← hwoken]
    exact hp
  · dsimp only
    rw [hwoken]
    exact hslots p hp
  · dsimp only at hp ⊢
    rw [hwoken] at hp
    obtain ⟨k, hc⟩ := hcounts p hp
    refine ⟨k, hc.keep rfl rfl (fun a _ _ => ?_) (heip p hp) rfl⟩
    unfold frames PhysMem.loadByte PhysMem.load
    rw [hhigh _ _ (by omega)]

theorem userStep_user {s : Machine σ} {pid : ℕ} (hpid : pid ∈ s.os.woken) :
    userStep L ids ask s (.user pid) = instr pid s := if_pos hpid

/-- **A step**, of whatever thread. -/
theorem AllCount.step (hask : Serves ask Has) {x : Machine σ × (ℕ → ℕ)} {q : UserAct σ} {s' : Machine σ}
    (hx : AllCount L x) (hok : UserOk L Has x q) (hst : userStep L ids ask x.1 q = some s') :
    AllCount L (s', tally x.1 q x.2) := by
  cases q with
  | createProcess pid m buf beyond reg =>
    obtain ⟨os, hos, rfl⟩ := Option.map_eq_some_iff.mp hst
    exact hx.createProcess hask hok hos
  | user pid =>
    by_cases hpid : pid ∈ x.1.os.woken
    · obtain ⟨s'', hinstr, hcount⟩ := hx.user hpid
      rw [userStep_user hpid, hinstr] at hst
      cases hst
      exact hcount
    · exact absurd ((if_neg hpid).symm.trans hst) (by simp)
  | other t =>
    cases hst
    exact hx.other hok

theorem allCount_reach (hask : Serves ask Has) {m : PhysMem} {fm : σ} {eip : ℕ → Word} {reg : ℕ → Fin 8 → Word}
    {x : Machine σ × (ℕ → ℕ)} (hr : Reach (withHistory (userStep L ids ask) tally) (UserOk L Has)
      (⟨Loader.init L m fm eip, reg⟩, fun _ => 0) x) : AllCount L x := by
  have hinit : AllCount L ((⟨Loader.init L m fm eip, reg⟩ : Machine σ), fun _ => 0) :=
    ⟨fun _ _ => rfl, _, tables_init L m, fun p hp => absurd hp (by simp [Log.empty]), fun p hp => by cases hp⟩
  refine hr.invariant (I := AllCount L) hinit fun x q x' hx hok hst => ?_
  obtain ⟨hstep, hhist⟩ := withHistory_eq_some.mp hst
  have hnext := hx.step hask hok hstep
  rw [← hhist] at hnext
  exact hnext

/-- **Every process of the program counts.** In every interleaving of the processes, of the
process manager that makes them, and of the other threads: each process has in its own `x` the
number of its `x ++`, one for every four instructions it has executed, and its next instruction
does not fault. -/
theorem processes_count (hask : Serves ask Has) (m : PhysMem) (fm : σ) (eip : ℕ → Word) (reg : ℕ → Fin 8 → Word)
    {s : Machine σ} {n : ℕ → ℕ}
    (hr : Reach (withHistory (userStep L ids ask) tally) (UserOk L Has) (⟨Loader.init L m fm eip, reg⟩, fun _ => 0)
      (s, n)) {pid : ℕ} (hpid : pid ∈ s.os.woken) :
    (bus (s.os.mm.cr3 pid)).read32 s.os.mm.mem 0x80490ec = some (BitVec.ofNat 32 ((n pid - 3) / 4)) ∧
      (userStep L ids ask s (.user pid)).isSome := by
  have hx := allCount_reach hask hr
  obtain ⟨s', hinstr, -⟩ := hx.user hpid
  obtain ⟨-, g, hT, -, hcounts⟩ := hx
  obtain ⟨k, hc⟩ := hcounts pid hpid
  refine ⟨hc.read_var hT, ?_⟩
  rw [userStep_user hpid, hinstr]
  rfl

theorem reach_createProcess {x : Machine σ × (ℕ → ℕ)} {s : Machine σ} {n : ℕ → ℕ} {pid : ℕ} {m : MsgData} {buf : ℤ}
    {beyond : ℕ → BitVec 8} {reg : Fin 8 → Word} {os : Loader σ}
    (hr : Reach (withHistory (userStep L ids ask) tally) (UserOk L Has) x (s, n))
    (hok : UserOk L Has (s, n) (.createProcess pid m buf beyond reg))
    (h : doNewProcLoad L ids ask pid m buf beyond s.os = some os) :
    Reach (withHistory (userStep L ids ask) tally) (UserOk L Has) x (⟨os, Function.update s.reg pid reg⟩, n) :=
  hr.step hok (withHistory_eq_some.mpr ⟨Option.map_eq_some_iff.mpr ⟨os, h, rfl⟩, rfl⟩)

theorem reach_user {x : Machine σ × (ℕ → ℕ)} {s : Machine σ} {n : ℕ → ℕ} {pid : ℕ}
    (hr : Reach (withHistory (userStep L ids ask) tally) (UserOk L Has) x (s, n)) (hpid : pid ∈ s.os.woken)
    (h : (userStep L ids ask s (.user pid)).isSome) : ∃ s', pid ∈ s'.os.woken ∧
      Reach (withHistory (userStep L ids ask) tally) (UserOk L Has) x (s', Function.update n pid (n pid + 1)) := by
  obtain ⟨s', hs'⟩ := Option.isSome_iff_exists.mp h
  refine ⟨s', ?_, hr.step (a := .user pid) trivial (withHistory_eq_some.mpr ⟨hs', rfl⟩)⟩
  rw [userStep_user hpid] at hs'
  obtain ⟨r, -, rfl⟩ := Option.map_eq_some_iff.mp hs'
  exact hpid

theorem onStack_packed : OnStack Layout.packed 0xC0200000 := by
  have hpacked : Layout.packed.kpdir = 256 ∧ Layout.packed.kptable = 257 ∧ Layout.packed.vmemTable = 289 :=
    ⟨rfl, rfl, rfl⟩
  have hnat : (0xC0200000 : Word).toNat = 3223322624 := rfl
  refine ⟨by decide, by decide, fun k hk => ?_⟩
  unfold TableFrame KernelFrame
  rw [hnat]
  omega

theorem reach_user_many (hask : Serves ask Has) {m : PhysMem} {fm : σ} {eip : ℕ → Word} {reg : ℕ → Fin 8 → Word}
    {s : Machine σ} {n : ℕ → ℕ} {pid : ℕ}
    (hr : Reach (withHistory (userStep L ids ask) tally) (UserOk L Has) (⟨Loader.init L m fm eip, reg⟩, fun _ => 0)
      (s, n)) (hpid : pid ∈ s.os.woken) (k : ℕ) : ∃ s' n', n' pid = n pid + k ∧ pid ∈ s'.os.woken ∧
      Reach (withHistory (userStep L ids ask) tally) (UserOk L Has) (⟨Loader.init L m fm eip, reg⟩, fun _ => 0)
        (s', n') := by
  induction k with
  | zero => exact ⟨s, n, rfl, hpid, hr⟩
  | succ k ih =>
    obtain ⟨s', n', hn, hmem, hr'⟩ := ih
    obtain ⟨s'', hinstr, -⟩ := (allCount_reach hask hr').user hmem
    obtain ⟨t, ht, hrt⟩ := reach_user hr' hmem (by rw [userStep_user hmem, hinstr]; rfl)
    exact ⟨t, _, (Function.update_self ..).trans (by omega), ht, hrt⟩

/-- The first process, after its first seven instructions. -/
theorem processes_count_seven : ∃ s : Machine Fm.State, (bus (s.os.mm.cr3 9)).read32 s.os.mm.mem 0x80490ec = some 1 ∧
    (userStep Layout.packed ⟨6, 5, 7⟩ (fmServer 5 fun a => testproc.getD a 0) s (.user 9)).isSome := by
  obtain ⟨file, hdef⟩ : ∃ file : ℕ → BitVec 8, file = fun a => testproc.getD a 0 := ⟨_, rfl⟩
  have hfile : IsTestproc file := fun a _ => congrFun hdef a
  have hask := serves_fmThread 5 file
  obtain ⟨s0, hs0⟩ : ∃ s0, s0 = Loader.init Layout.packed (fun _ _ => 0) Fm.State.init fun _ => 0 := ⟨_, rfl⟩
  have hT : Tables Layout.packed Log.empty s0.mm := hs0 ▸ tables_init Layout.packed fun _ _ => 0
  have hhas : HasFile file file s0.fm := by
    have hpos : filePos 1 Fm.State.init = 0 := by decide
    rw [hs0]
    refine ⟨chained_init, fun i _ => ?_⟩
    show file (filePos 1 Fm.State.init + i) = file i
    rw [hpos, Nat.zero_add]
  have hready : Ready Layout.packed s0 := ⟨_, hT, fun p hp => absurd hp (by simp [Log.empty])⟩
  have hfresh : 9 ∉ s0.woken := by
    rw [hs0]
    exact List.not_mem_nil
  obtain ⟨os, hos⟩ : ∃ os, doNewProcLoad Layout.packed ⟨6, 5, 7⟩ (fmServer 5 file) 9 ⟨0, 0, 0, Vector.replicate 5 0⟩
      1048576 (fun _ => 0) s0 = some os :=
    doNewProcLoad_returns hask (answers_fmThread 5 file) hfile.loadable.placeable hready hfresh hhas
      (by rw [hs0]; decide)
      (by rw [hs0]; exact ⟨_, rfl, by decide⟩)
  obtain ⟨-, _, hm⟩ := doNewProcLoad_makes hask hfile.loadable.placeable hT rfl hhas hos
  have hmem : 9 ∈ os.woken := hm.woken ▸ List.mem_append_right s0.woken (List.mem_singleton_self 9)
  obtain ⟨reg, hreg⟩ : ∃ reg : Fin 8 → Word, reg = fun _ => 0xC0200000 := ⟨_, rfl⟩
  have hstack : OnStack Layout.packed (reg X86.esp) := hreg ▸ onStack_packed
  have hinit := @Reach.init _ _ (withHistory (userStep Layout.packed ⟨6, 5, 7⟩ (fmServer 5 file)) tally)
    (UserOk Layout.packed (HasFile file)) (⟨s0, fun _ => reg⟩, fun _ => 0)
  have hcreate := reach_createProcess hinit ⟨hfresh, hstack, file, hhas, hfile⟩ hos
  rw [hs0] at hcreate
  obtain ⟨s, n, hn, hmem', hr⟩ := reach_user_many hask hcreate hmem 7
  obtain ⟨hx, hnext⟩ := processes_count hask _ _ _ _ hr hmem'
  rw [hn] at hx
  refine ⟨s, hx, ?_⟩
  rw [← hdef]
  exact hnext

end

end Pm
end NanoOS
