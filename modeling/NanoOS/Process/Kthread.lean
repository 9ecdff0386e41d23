/-
# How a thread starts

`create_kthread` takes the first free PCB and builds a trap frame on its kernel
stack, with up to 16 arguments of the caller copied above it. When `asm_do_irq`
returns to the thread for the first time, it pops that frame, and the thread
starts as if its function had been called.

The memory is seen word by word: every access is to an address that is a multiple
of four. A `PCB` is a union with an array of 4096 words, so it has 16384 bytes;
`KSTACK_SIZE` is used as a number of bytes where the frame is placed. It is assumed
that no interrupt comes while `create_kthread` runs: it starts with `cli`, but the
`unlock` in `create_sem` may do `sti` before the last two fields are set.

Key definitions: `Pool`, `createKthread`, `restore`, `linksOf`, `Pool.Elsewhere`.
Key theorems: `copyArgs_spec`, `buildFrame_apply`, `initHeader_frame`,
`restore_frame`, `add_block`, `restore_built`, `kthread_starts`.
-/
import NanoOS.Adt.List
import Mathlib.Tactic.Common

namespace NanoOS
namespace Kthread

open Ringlist

/-- A word of memory. -/
abbrev Word := BitVec 32

/-- The words of the memory, by their addresses. -/
abbrev Mem := ℕ → Word

/-- A pointer in memory. -/
def ptr (a : ℕ) : Word := BitVec.ofNat 32 a

/-- A word is written. -/
def store (a : ℕ) (x : Word) (m : Mem) : Mem := Function.update m a x

/-- Where the linker has put `pcb_pool`, `free` and `block`. -/
structure Pool where
  pool : ℕ
  free : ℕ
  block : ℕ
  aligned : 4096 ∣ pool ∧ 4 ∣ free ∧ 4 ∣ block
  pos : 0 < pool ∧ 0 < free ∧ 0 < block
  inside : pool + 33554432 ≤ 4294967296 ∧ free + 8 ≤ 4294967296 ∧ block + 8 ≤ 4294967296
  free_block : free + 8 ≤ block ∨ block + 8 ≤ free
  free_pool : free + 8 ≤ pool ∨ pool + 33554432 ≤ free
  block_pool : block + 8 ≤ pool ∨ pool + 33554432 ≤ block

/-- `&pcb_pool[i]`. -/
def Pool.pcb (L : Pool) (i : ℕ) : ℕ := L.pool + 16384 * i

/-- The segment registers of a thread. The kernel's code runs in ring 0. -/
structure Segments where
  cs : BitVec 16
  ds : BitVec 16
  es : BitVec 16
  fs : BitVec 16
  gs : BitVec 16
  ring0 : cs &&& 3 = 0

/-! ### The lists, in memory -/

/-- `list_add`. -/
def listAdd (prev next data : ℕ) (m : Mem) : Mem :=
  let m := store data (ptr prev) m
  let m := store (data + 4) (ptr next) m
  let m := if prev ≠ 0 then store (prev + 4) (ptr data) m else m
  if next ≠ 0 then store next (ptr data) m else m

/-- `list_add_before`. -/
def listAddBefore (list data : ℕ) (m : Mem) : Mem := listAdd (m list).toNat list data m

/-- `list_del`. -/
def listDel (data : ℕ) (m : Mem) : Mem :=
  let prev := (m data).toNat
  let next := (m (data + 4)).toNat
  let m := if prev ≠ 0 then store (prev + 4) (ptr next) m else m
  if next ≠ 0 then store next (ptr prev) m else m

/-- `list_init`. -/
def listInit (list : ℕ) (m : Mem) : Mem := store list (ptr list) (store (list + 4) (ptr list) m)

/-! ### `create_kthread` -/

/-- `for (i = 0; i < n; i++) *(frame--) = (uint32_t)*(p--);`. -/
def copyArgs : ℕ → ℕ → ℕ → Mem → ℕ × Mem
  | 0, _, frame, m => (frame, m)
  | n + 1, p, frame, m => copyArgs n (p - 4) (frame - 4) (store frame (m p) m)

/-- The stores to `frame[-1]`, `frame[-2]` and so on. -/
def buildFrame (segs : Segments) (entry : Word) (frame : ℕ) (m : Mem) : Mem :=
  let m := store (frame - 4) 0x202 m -- eflags
  let m := store (frame - 8) (segs.cs.setWidth 32) m
  let m := store (frame - 12) entry m -- eip
  let m := store (frame - 24) (segs.ds.setWidth 32) m
  let m := store (frame - 28) (segs.es.setWidth 32) m
  let m := store (frame - 32) (segs.fs.setWidth 32) m
  store (frame - 36) (segs.gs.setWidth 32) m

/-- The assignments to the fields of the PCB behind `tf`; the 8 bytes of a
`ListHead` are its `prev` and its `next`. -/
def initHeader (pcb : ℕ) (pid kcr3 : Word) (m : Mem) : Mem :=
  let m := store (pcb + 12) 0 m -- locked
  let m := store (pcb + 16) 1 m -- stat = STAT_SLEEPING
  let m := listInit (pcb + 20) m -- msg_list
  let m := listInit (pcb + 32) m -- create_sem(&msg_sem, 0): block, and then token
  let m := store (pcb + 28) 0 m
  let m := store (pcb + 40) pid m
  store (pcb + 44) kcr3 m

/-- `create_kthread`, where `fun` is at `sp` on the caller's stack: the PCB that it
returns. It is `none` if the assertion fails. -/
def createKthread (L : Pool) (segs : Segments) (kcr3 : Word) (sp : ℕ) (m : Mem) : Option (ℕ × Mem) :=
  if (m (L.free + 4)).toNat = L.free then none
  else
    let selectedFree := (m (L.free + 4)).toNat
    let m := listDel selectedFree m
    let (frame, m) := copyArgs 16 (sp + 64) (selectedFree + 4096) m
    let m := buildFrame segs (m sp) frame m
    let m := store (selectedFree + 8) (ptr (frame - 68)) m -- tf = &frame[-17]
    let m := listAddBefore L.block selectedFree m
    some (selectedFree, initHeader selectedFree (ptr ((selectedFree - L.pool) / 16384)) kcr3 m)

/-! ### `asm_do_irq` -/

/-- The registers. -/
structure Cpu where
  edi : Word
  esi : Word
  ebp : Word
  ebx : Word
  edx : Word
  ecx : Word
  eax : Word
  gs : BitVec 16
  fs : BitVec 16
  es : BitVec 16
  ds : BitVec 16
  cs : BitVec 16
  eip : Word
  eflags : Word
  esp : ℕ

/-- `popal`: the `esp` in the frame is skipped. -/
def popal (m : Mem) (c : Cpu) : Cpu :=
  { c with
    edi := m c.esp
    esi := m (c.esp + 4)
    ebp := m (c.esp + 8)
    ebx := m (c.esp + 16)
    edx := m (c.esp + 20)
    ecx := m (c.esp + 24)
    eax := m (c.esp + 28)
    esp := c.esp + 32 }

/-- `popl %gs`, `popl %fs`, `popl %es`, `popl %ds`. -/
def popSegments (m : Mem) (c : Cpu) : Cpu :=
  { c with
    gs := (m c.esp).setWidth 16
    fs := (m (c.esp + 4)).setWidth 16
    es := (m (c.esp + 8)).setWidth 16
    ds := (m (c.esp + 12)).setWidth 16
    esp := c.esp + 16 }

/-- `iret`: a return to an outer ring pops the stack pointer, too. -/
def iret (m : Mem) (c : Cpu) : Cpu :=
  let cs := (m (c.esp + 4)).setWidth 16
  { c with
    eip := m c.esp
    cs := cs
    eflags := m (c.esp + 8)
    esp := if c.cs &&& 3 < cs &&& 3 then (m (c.esp + 12)).toNat else c.esp + 12 }

/-- The end of `asm_do_irq`, from `movl current, %eax` on. -/
def restore (m : Mem) (current : ℕ) (c : Cpu) : Cpu :=
  let c := { c with eax := ptr current }
  let c := { c with esp := (m (current + 8)).toNat }
  let c := popal m c
  let c := popSegments m c
  let c := { c with esp := c.esp + 8 } -- addl $8, %esp
  iret m c

/-! ### What is written -/

theorem store_apply (a : ℕ) (x : Word) (m : Mem) (b : ℕ) : store a x m b = if b = a then x else m b :=
  Function.update_apply m a x b

theorem toNat_ptr {a : ℕ} (h : a < 4294967296) : (ptr a).toNat = a := by
  unfold ptr
  rw [BitVec.toNat_ofNat]
  exact Nat.mod_eq_of_lt h

theorem ptr_toNat (x : Word) : ptr x.toNat = x := by
  unfold ptr
  rw [BitVec.ofNat_toNat, BitVec.setWidth_eq]

theorem setWidth_segment (s : BitVec 16) : (s.setWidth 32).setWidth 16 = s := by
  rw [BitVec.setWidth_setWidth_of_le s (by decide), BitVec.setWidth_eq]

/-- **The loop copies the arguments**, and leaves the rest alone. -/
theorem copyArgs_spec {n p frame : ℕ} {m : Mem} (hp : 4 * n ≤ p + 4) (hframe : 4 * n ≤ frame + 4)
    (hdisj : ∀ j < n, ∀ k < n, p - 4 * j ≠ frame - 4 * k) :
    (copyArgs n p frame m).1 = frame - 4 * n ∧
    (∀ k < n, (copyArgs n p frame m).2 (frame - 4 * k) = m (p - 4 * k)) ∧
    ∀ a, (∀ k < n, a ≠ frame - 4 * k) → (copyArgs n p frame m).2 a = m a := by
  induction n generalizing p frame m with
  | zero => exact ⟨rfl, fun k hk => absurd hk (Nat.not_lt_zero k), fun _ _ => rfl⟩
  | succ n ih =>
    obtain ⟨hend, hcopied, hrest⟩ := @ih (p - 4) (frame - 4) (store frame (m p) m) (by omega) (by omega)
      fun j hj k hk => by
        have hne := hdisj (j + 1) (Nat.succ_lt_succ hj) (k + 1) (Nat.succ_lt_succ hk)
        omega
    show (copyArgs n (p - 4) (frame - 4) _).1 = _ ∧ (∀ k < n + 1, (copyArgs n (p - 4) (frame - 4) _).2 _ = _) ∧
      ∀ a, _ → (copyArgs n (p - 4) (frame - 4) _).2 a = _
    refine ⟨hend.trans (by omega), fun k hk => ?_, fun a ha => ?_⟩
    · cases k with
      | zero =>
        show (copyArgs n (p - 4) (frame - 4) _).2 frame = m p
        rw [hrest frame fun k hk => by omega, store_apply, if_pos rfl]
      | succ k =>
        have hcopy := hcopied k (Nat.lt_of_succ_lt_succ hk)
        have hne := hdisj (k + 1) hk 0 (Nat.succ_pos n)
        have hframe' : frame - 4 * (k + 1) = frame - 4 - 4 * k := by omega
        have hp' : p - 4 * (k + 1) = p - 4 - 4 * k := by omega
        rw [hframe', hcopy, store_apply, if_neg (by omega), hp']
    · have hfirst : a ≠ frame := ha 0 (Nat.succ_pos n)
      rw [hrest a fun k hk => ?_, store_apply, if_neg hfirst]
      have hne := ha (k + 1) (Nat.succ_lt_succ hk)
      omega

/-- The words of the frame. -/
theorem buildFrame_apply (segs : Segments) (entry : Word) (t : ℕ) (m : Mem) (a : ℕ) :
    buildFrame segs entry (t + 68) m a =
      if a = t + 32 then segs.gs.setWidth 32 else if a = t + 36 then segs.fs.setWidth 32
      else if a = t + 40 then segs.es.setWidth 32 else if a = t + 44 then segs.ds.setWidth 32
      else if a = t + 56 then entry else if a = t + 60 then segs.cs.setWidth 32
      else if a = t + 64 then 0x202 else m a := by
  unfold buildFrame
  simp only [store_apply]
  rfl

theorem initHeader_apply (pcb : ℕ) (pid kcr3 : Word) (m : Mem) :
    initHeader pcb pid kcr3 m (pcb + 12) = 0 ∧ initHeader pcb pid kcr3 m (pcb + 16) = 1 ∧
    initHeader pcb pid kcr3 m (pcb + 20) = ptr (pcb + 20) ∧ initHeader pcb pid kcr3 m (pcb + 24) = ptr (pcb + 20) ∧
    initHeader pcb pid kcr3 m (pcb + 28) = 0 ∧ initHeader pcb pid kcr3 m (pcb + 32) = ptr (pcb + 32) ∧
    initHeader pcb pid kcr3 m (pcb + 36) = ptr (pcb + 32) ∧ initHeader pcb pid kcr3 m (pcb + 40) = pid ∧
    initHeader pcb pid kcr3 m (pcb + 44) = kcr3 := by
  simp [initHeader, listInit, store_apply, Nat.add_assoc]

/-- Nothing but the fields behind `tf` changes. -/
theorem initHeader_frame (pcb : ℕ) (pid kcr3 : Word) (m : Mem) {a : ℕ} (ha : a < pcb + 12 ∨ pcb + 48 ≤ a) :
    initHeader pcb pid kcr3 m a = m a := by
  unfold initHeader listInit
  simp only [store_apply]
  repeat rw [if_neg (by omega)]

theorem listAdd_frame (prev next data : ℕ) (m : Mem) {a : ℕ} (h1 : a ≠ prev + 4) (h2 : a ≠ next) (h3 : a ≠ data)
    (h4 : a ≠ data + 4) : listAdd prev next data m a = m a := by
  unfold listAdd
  split_ifs
  all_goals simp only [store_apply, h1, h2, h3, h4, if_false]

theorem listAdd_data {prev next data : ℕ} (m : Mem) (h1 : prev + 4 ≠ data) (h2 : prev ≠ data) (h3 : next ≠ data)
    (h4 : next ≠ data + 4) :
    listAdd prev next data m data = ptr prev ∧ listAdd prev next data m (data + 4) = ptr next := by
  have hself : data ≠ data + 4 := by omega
  have hlinks : data + 4 ≠ prev + 4 := by omega
  unfold listAdd
  split_ifs
  all_goals simp only [store_apply, h1.symm, h3.symm, h4.symm, hself, hlinks, if_true, if_false, and_self]

theorem listDel_frame (data : ℕ) (m : Mem) {a : ℕ} (h1 : a ≠ (m data).toNat + 4) (h2 : a ≠ (m (data + 4)).toNat) :
    listDel data m a = m a := by
  unfold listDel
  split_ifs
  all_goals simp only [store_apply, h1, h2, if_false]

/-- **The first return to a thread** pops the frame that its `tf` points to. -/
theorem restore_frame {m : Mem} {current t : ℕ} {c : Cpu} (htf : (m (current + 8)).toNat = t) (hcpl : c.cs &&& 3 = 0)
    (hring : (m (t + 60)).setWidth 16 &&& 3#16 = 0) :
    let r := restore m current c
    r.eip = m (t + 56) ∧ r.cs = (m (t + 60)).setWidth 16 ∧ r.eflags = m (t + 64) ∧
    r.gs = (m (t + 32)).setWidth 16 ∧ r.fs = (m (t + 36)).setWidth 16 ∧ r.es = (m (t + 40)).setWidth 16 ∧
    r.ds = (m (t + 44)).setWidth 16 ∧ r.esp = t + 68 := by
  unfold restore popal popSegments iret
  dsimp only
  rw [htf]
  refine ⟨rfl, rfl, rfl, rfl, rfl, rfl, rfl, ?_⟩
  rw [if_neg]
  intro hlt
  rw [hcpl] at hlt
  exact absurd (hring ▸ hlt : (0 : BitVec 16) < 0) (by decide)

/-! ### The lists -/

/-- A pointer that is read; 0 is the null pointer. -/
def ptrOf (w : Word) : Option ℕ := if w = 0 then none else some w.toNat

/-- The `ListHead`s of the memory: `prev`, and `next` behind it. -/
def linksOf (m : Mem) : Heap ℕ := fun a => ⟨ptrOf (m a), ptrOf (m (a + 4))⟩

/-- The lists of the memory are in order, and the nodes of `free` and `block` are
PCBs. -/
structure Lists (L : Pool) (m : Mem) (live : ℕ → Prop) (seq : ℕ → List ℕ) : Prop where
  rings : Rings (linksOf m) live seq
  free : live L.free
  block : live L.block
  pcbs : ∀ a, a ∈ seq L.free ∨ a ∈ seq L.block → ∃ j < 2048, a = L.pcb j

namespace Pool

variable {L : Pool} {a i j : ℕ}

/-- A head or a PCB. -/
def Node (L : Pool) (a : ℕ) : Prop := a = L.free ∨ a = L.block ∨ ∃ j < 2048, a = L.pcb j

/-- A link of a head or a PCB. -/
def Link (L : Pool) (a : ℕ) : Prop := ∃ n, L.Node n ∧ (a = n ∨ a = n + 4)

/-- Neither a link nor in PCB `i`. -/
def Elsewhere (L : Pool) (i a : ℕ) : Prop := ¬ L.Link a ∧ (a < L.pcb i ∨ L.pcb i + 16384 ≤ a)

theorem not_link (hi : i < 2048) (hlo : L.pcb i + 8 ≤ a) (hhi : a < L.pcb i + 16384) : ¬ L.Link a := by
  have hfree := L.free_pool
  have hblock := L.block_pool
  unfold pcb at hlo hhi
  rintro ⟨n, rfl | rfl | ⟨j, hj, rfl⟩, hn⟩
  · omega
  · omega
  · unfold pcb at hn
    omega

end Pool

theorem of_ptrOf {w : Word} {a : ℕ} (h : ptrOf w = some a) : w.toNat = a := by
  unfold ptrOf at h
  split_ifs at h
  exact Option.some.inj h

namespace Lists

variable {L : Pool} {m : Mem} {live : ℕ → Prop} {seq : ℕ → List ℕ} {i : ℕ} {rest : List ℕ}

theorem selected_lt (h : Lists L m live seq) (hsel : seq L.free = L.pcb i :: rest) : i < 2048 := by
  obtain ⟨j, hj, he⟩ := h.pcbs (L.pcb i) (Or.inl (hsel ▸ List.mem_cons_self))
  unfold Pool.pcb at he
  omega

theorem first_free (h : Lists L m live seq) (hsel : seq L.free = L.pcb i :: rest) :
    (m (L.free + 4)).toNat = L.pcb i ∧ (m (L.pcb i)).toNat = L.free ∧
      ((m (L.pcb i + 4)).toNat = L.free ∨ ∃ j < 2048, (m (L.pcb i + 4)).toNat = L.pcb j) := by
  have hring := h.rings.ring L.free h.free
  rw [hsel] at hring
  obtain ⟨hprev, hnext⟩ := Ring.around (l := []) hring
  refine ⟨of_ptrOf hring.next_head, of_ptrOf hprev, ?_⟩
  have hn : (m (L.pcb i + 4)).toNat = rest.headD L.free := of_ptrOf hnext
  cases rest with
  | nil => exact Or.inl hn
  | cons a rest =>
    obtain ⟨j, hj, ha⟩ := h.pcbs a (Or.inl (hsel ▸ List.mem_cons_of_mem _ List.mem_cons_self))
    exact Or.inr ⟨j, hj, hn.trans ha⟩

theorem last_block (h : Lists L m live seq) (hsel : seq L.free = L.pcb i :: rest) :
    (m L.block).toNat ≠ L.pcb i ∧ ((m L.block).toNat = L.block ∨ ∃ j < 2048, (m L.block).toNat = L.pcb j) := by
  have hring := h.rings.ring L.block h.block
  have hlast : (m L.block).toNat ∈ L.block :: seq L.block := by
    rw [of_ptrOf hring.prev_head]
    exact List.getLast_mem _
  have hheads : L.block ≠ L.free := by
    have hdisj := L.free_block
    omega
  constructor
  · intro he
    have hmem : L.pcb i ∈ seq L.free := hsel ▸ List.mem_cons_self
    exact h.rings.not_mem_other h.free h.block hheads (List.mem_cons_of_mem _ hmem) (he ▸ hlast)
  · rcases List.mem_cons.mp hlast with he | hmem
    · exact Or.inl he
    · exact Or.inr (h.pcbs _ (Or.inr hmem))

end Lists

/-! ### The new thread -/

section create

variable {L : Pool} {m : Mem} {live : ℕ → Prop} {seq : ℕ → List ℕ} {i sp : ℕ} {rest : List ℕ}

/-- Only links change when the PCB leaves `free`, and none of them is a link of
`block`. -/
theorem listDel_free (h : Lists L m live seq) (hsel : seq L.free = L.pcb i :: rest) :
    (∀ a, ¬ L.Link a → listDel (L.pcb i) m a = m a) ∧ listDel (L.pcb i) m L.block = m L.block := by
  obtain ⟨-, hprev, hnext⟩ := h.first_free hsel
  have hbp := L.block_pool
  have hfb := L.free_block
  constructor
  · intro a ha
    apply listDel_frame
    · rw [hprev]
      exact fun he => ha ⟨L.free, Or.inl rfl, Or.inr he⟩
    · intro he
      rcases hnext with hn | ⟨j, hj, hn⟩
      · exact ha ⟨L.free, Or.inl rfl, Or.inl (he.trans hn)⟩
      · exact ha ⟨L.pcb j, Or.inr (Or.inr ⟨j, hj, rfl⟩), Or.inl (he.trans hn)⟩
  · apply listDel_frame
    · rw [hprev]
      omega
    · intro he
      rcases hnext with hn | ⟨j, hj, hn⟩
      · omega
      · have hpcb : L.pcb j = L.pool + 16384 * j := rfl
        omega

theorem args_copied (h : Lists L m live seq) (hsel : seq L.free = L.pcb i :: rest)
    (hsp : ∀ k ≤ 16, L.Elsewhere i (sp + 4 * k)) :
    ∃ m2, copyArgs 16 (sp + 64) (L.pcb i + 4096) (listDel (L.pcb i) m) = (L.pcb i + 4032, m2) ∧
      (∀ k, 1 ≤ k → k ≤ 16 → m2 (L.pcb i + 4032 + 4 * k) = m (sp + 4 * k)) ∧
      ∀ a, (a ≤ L.pcb i + 4032 ∨ L.pcb i + 4100 ≤ a) → m2 a = listDel (L.pcb i) m a := by
  have hsrc : ∀ k ≤ 16, sp + 4 * k < L.pcb i ∨ L.pcb i + 16384 ≤ sp + 4 * k := fun k hk => (hsp k hk).2
  obtain ⟨hend, hcopied, hrest⟩ := @copyArgs_spec 16 (sp + 64) (L.pcb i + 4096) (listDel (L.pcb i) m) (by omega)
    (by omega) fun j hj k hk => by
      have hout := hsrc (16 - j) (by omega)
      omega
  generalize copyArgs 16 (sp + 64) (L.pcb i + 4096) (listDel (L.pcb i) m) = r at hend hcopied hrest ⊢
  refine ⟨r.2, Prod.ext (hend.trans (by omega)) rfl, fun k hlo hhi => ?_, fun a hout => ?_⟩
  · have hcopy := hcopied (16 - k) (by omega)
    have hdst : L.pcb i + 4096 - 4 * (16 - k) = L.pcb i + 4032 + 4 * k := by omega
    have hfrom : sp + 64 - 4 * (16 - k) = sp + 4 * k := by omega
    rw [hdst, hfrom, (listDel_free h hsel).1 _ (hsp k hhi).1] at hcopy
    exact hcopy
  · exact hrest a fun k hk => by omega

/-- What `create_kthread` does, one step after the other: `m2` is the memory with
the arguments copied, and `m4` the one in which the PCB comes to `block`. -/
theorem createKthread_eq (h : Lists L m live seq) (hsel : seq L.free = L.pcb i :: rest)
    (hsp : ∀ k ≤ 16, L.Elsewhere i (sp + 4 * k)) (segs : Segments) (kcr3 : Word) :
    ∃ m2 m4, createKthread L segs kcr3 sp m =
        some (L.pcb i, initHeader (L.pcb i) (ptr i) kcr3 (listAddBefore L.block (L.pcb i) m4)) ∧
      m4 = store (L.pcb i + 8) (ptr (L.pcb i + 3964)) (buildFrame segs (m sp) (L.pcb i + 3964 + 68) m2) ∧
      (∀ k, 1 ≤ k → k ≤ 16 → m2 (L.pcb i + 4032 + 4 * k) = m (sp + 4 * k)) ∧
      (∀ a, (a ≤ L.pcb i + 4032 ∨ L.pcb i + 4100 ≤ a) → m2 a = listDel (L.pcb i) m a) ∧
      ∀ a, (a < L.pcb i + 8 ∨ L.pcb i + 16384 ≤ a) → m4 a = listDel (L.pcb i) m a := by
  obtain ⟨hfirst, -, -⟩ := h.first_free hsel
  obtain ⟨m2, hcopy, hargs, hkeep⟩ := args_copied h hsel hsp
  have hpool := L.free_pool
  have hpcbi : L.pcb i = L.pool + 16384 * i := rfl
  have hpid : (L.pcb i - L.pool) / 16384 = i := by omega
  have hi := h.selected_lt hsel
  have hnotfree : (m (L.free + 4)).toNat ≠ L.free := by
    rw [hfirst]
    omega
  have hfun : m2 sp = m sp := by
    obtain ⟨hlink, hout⟩ := hsp 0 (Nat.zero_le 16)
    rw [hkeep sp (by omega)]
    exact (listDel_free h hsel).1 sp hlink
  refine ⟨m2, _, ?_, rfl, hargs, hkeep, fun a ha => ?_⟩
  · unfold createKthread
    rw [if_neg hnotfree, hfirst]
    dsimp only
    rw [hcopy, hpid, ← hfun]
    rfl
  · rw [store_apply, if_neg (by omega), buildFrame_apply]
    repeat rw [if_neg (by omega)]
    exact hkeep a (by omega)

/-- The PCB comes to the end of `block`: only links change. -/
theorem add_block (h : Lists L m live seq) (hsel : seq L.free = L.pcb i :: rest) {m4 : Mem}
    (hblock : m4 L.block = m L.block) :
    listAddBefore L.block (L.pcb i) m4 (L.pcb i) = m L.block ∧
    listAddBefore L.block (L.pcb i) m4 (L.pcb i + 4) = ptr L.block ∧
    ∀ a, ¬ L.Link a → listAddBefore L.block (L.pcb i) m4 a = m4 a := by
  obtain ⟨hne, hlast⟩ := h.last_block hsel
  have hi := h.selected_lt hsel
  have hbp := L.block_pool
  have hpcb : ∀ j, L.pcb j = L.pool + 16384 * j := fun _ => rfl
  have hpcbi := hpcb i
  have hadd : listAddBefore L.block (L.pcb i) m4 = listAdd (m L.block).toNat L.block (L.pcb i) m4 := by
    unfold listAddBefore
    rw [hblock]
  have hlink : ∀ n, L.Node n → L.Link n ∧ L.Link (n + 4) := fun n hn => ⟨⟨n, hn, Or.inl rfl⟩, n, hn, Or.inr rfl⟩
  have hself := hlink (L.pcb i) (Or.inr (Or.inr ⟨i, hi, rfl⟩))
  have hhead := hlink L.block (Or.inr (Or.inl rfl))
  have hprev := hlink (m L.block).toNat (Or.inr hlast)
  -- the last node of `block` is another PCB, or the head
  have hbehind : (m L.block).toNat + 4 ≠ L.pcb i := by
    rcases hlast with he | ⟨j, -, he⟩
    · omega
    · have hpcbj := hpcb j
      omega
  obtain ⟨hprevLink, hnextLink⟩ := @listAdd_data (m L.block).toNat L.block (L.pcb i) m4 hbehind hne (by omega)
    (by omega)
  rw [hadd]
  refine ⟨hprevLink.trans (ptr_toNat _), hnextLink, fun a ha => ?_⟩
  apply listAdd_frame
  · exact fun he => ha (he ▸ hprev.2)
  · exact fun he => ha (he ▸ hhead.1)
  · exact fun he => ha (he ▸ hself.1)
  · exact fun he => ha (he ▸ hself.2)

/-- **A frame that was built starts its function**, on the stack behind it. -/
theorem restore_built {segs : Segments} {entry : Word} {t current : ℕ} {m2 m' : Mem} {c : Cpu}
    (hword : ∀ k < 68, m' (t + k) = buildFrame segs entry (t + 68) m2 (t + k)) (htf : (m' (current + 8)).toNat = t)
    (hcpl : c.cs &&& 3 = 0) :
    let r := restore m' current c
    r.eip = entry ∧ r.eflags.getLsbD 9 = true ∧ r.cs = segs.cs ∧ r.ds = segs.ds ∧ r.es = segs.es ∧
    r.fs = segs.fs ∧ r.gs = segs.gs ∧ r.esp = t + 68 := by
  simp only [buildFrame_apply, Nat.add_left_cancel_iff] at hword
  have hgs : m' (t + 32) = segs.gs.setWidth 32 := hword 32 (by decide)
  have hfs : m' (t + 36) = segs.fs.setWidth 32 := hword 36 (by decide)
  have hes : m' (t + 40) = segs.es.setWidth 32 := hword 40 (by decide)
  have hds : m' (t + 44) = segs.ds.setWidth 32 := hword 44 (by decide)
  have heip : m' (t + 56) = entry := hword 56 (by decide)
  have hcs : m' (t + 60) = segs.cs.setWidth 32 := hword 60 (by decide)
  have heflags : m' (t + 64) = 0x202 := hword 64 (by decide)
  have hring : (m' (t + 60)).setWidth 16 &&& 3#16 = 0 := by
    rw [hcs, setWidth_segment]
    exact segs.ring0
  obtain ⟨reip, rcs, reflags, rgs, rfs, res, rds, resp⟩ := @restore_frame m' current t c htf hcpl hring
  refine ⟨reip.trans heip, ?_, ?_, ?_, ?_, ?_, ?_, resp⟩
  · rw [reflags, heflags]
    decide
  · rw [rcs, hcs, setWidth_segment]
  · rw [rds, hds, setWidth_segment]
  · rw [res, hes, setWidth_segment]
  · rw [rfs, hfs, setWidth_segment]
  · rw [rgs, hgs, setWidth_segment]

/-- **A new thread starts as a call of its function.** Take the first PCB of
`free`, and a caller whose stack has `fun` and 16 more words at `sp`, outside that
PCB and the links of the lists. `create_kthread` sets the fields of the PCB and
builds a frame of 136 bytes at `t`, inside the PCB and behind its fields; it
changes nothing else but links of heads and PCBs. When `asm_do_irq` first returns
to the thread, with `tf` and the frame as they are, the CPU is at `fun`, with
interrupts enabled and the creator's segment registers, and finds the 16 words
where the arguments of a call are. -/
theorem kthread_starts (h : Lists L m live seq) (hsel : seq L.free = L.pcb i :: rest)
    (hsp : ∀ k ≤ 16, L.Elsewhere i (sp + 4 * k)) (segs : Segments) (kcr3 : Word) :
    ∃ m' t, createKthread L segs kcr3 sp m = some (L.pcb i, m') ∧
      (L.pcb i + 48 ≤ t ∧ t + 136 ≤ L.pcb i + 16384) ∧
      (m' (L.pcb i) = m L.block ∧ m' (L.pcb i + 4) = ptr L.block ∧ m' (L.pcb i + 8) = ptr t ∧
        m' (L.pcb i + 12) = 0 ∧ m' (L.pcb i + 16) = 1 ∧
        m' (L.pcb i + 20) = ptr (L.pcb i + 20) ∧ m' (L.pcb i + 24) = ptr (L.pcb i + 20) ∧ m' (L.pcb i + 28) = 0 ∧
        m' (L.pcb i + 32) = ptr (L.pcb i + 32) ∧ m' (L.pcb i + 36) = ptr (L.pcb i + 32) ∧
        m' (L.pcb i + 40) = BitVec.ofNat 32 i ∧ m' (L.pcb i + 44) = kcr3) ∧
      (∀ a, L.pcb i + 48 ≤ a → a < L.pcb i + 16384 → (a < t ∨ t + 136 ≤ a) → m' a = m a) ∧
      (∀ a, L.Elsewhere i a → m' a = m a) ∧
      ∀ m2 c, (∀ a, t ≤ a → a < t + 136 → m2 a = m' a) → m2 (L.pcb i + 8) = m' (L.pcb i + 8) → c.cs &&& 3 = 0 →
        let r := restore m2 (L.pcb i) c
        r.eip = m sp ∧ r.eflags.getLsbD 9 = true ∧ r.cs = segs.cs ∧ r.ds = segs.ds ∧ r.es = segs.es ∧
        r.fs = segs.fs ∧ r.gs = segs.gs ∧ ∀ k, 1 ≤ k → k ≤ 16 → m2 (r.esp + 4 * k) = m (sp + 4 * k) := by
  obtain ⟨m2, m4, hcreate, hm4, hargs, hcopied, hm4keep⟩ := createKthread_eq h hsel hsp segs kcr3
  obtain ⟨hdel, hblock⟩ := listDel_free h hsel
  have hi := h.selected_lt hsel
  have hbp := L.block_pool
  have hinside := L.inside
  have hpcbi : L.pcb i = L.pool + 16384 * i := rfl
  have hkeep : ∀ a, ¬ L.Link a → (a ≤ L.pcb i + 4032 ∨ L.pcb i + 4100 ≤ a) → m2 a = m a :=
    fun a ha hout => (hcopied a hout).trans (hdel a ha)
  have hm4block : m4 L.block = m L.block := (hm4keep L.block (by omega)).trans hblock
  -- the memory with the PCB in `block`
  obtain ⟨m5, hm5⟩ : ∃ m5, m5 = listAddBefore L.block (L.pcb i) m4 := ⟨_, rfl⟩
  obtain ⟨hprevLink, hnextLink, hkeep5⟩ := add_block h hsel hm4block
  rw [← hm5] at hcreate hprevLink hnextLink hkeep5
  have htf : initHeader (L.pcb i) (ptr i) kcr3 m5 (L.pcb i + 8) = ptr (L.pcb i + 3964) := by
    rw [initHeader_frame _ _ _ _ (Or.inl (by omega)), hkeep5 _ (Pool.not_link hi (by omega) (by omega)), hm4,
      store_apply, if_pos rfl]
  -- behind the fields
  have hbody : ∀ a, L.pcb i + 48 ≤ a → a < L.pcb i + 16384 → initHeader (L.pcb i) (ptr i) kcr3 m5 a =
      buildFrame segs (m sp) (L.pcb i + 3964 + 68) m2 a := by
    intro a hlo hhi
    rw [initHeader_frame _ _ _ _ (Or.inr hlo), hkeep5 a (Pool.not_link hi (by omega) hhi), hm4, store_apply,
      if_neg (by omega)]
  have hfields := initHeader_apply (L.pcb i) (ptr i) kcr3 m5
  refine ⟨_, L.pcb i + 3964, hcreate, ⟨by omega, by omega⟩, ⟨?_, ?_, htf, hfields⟩, fun a hlo hhi hout => ?_,
    fun a ha => ?_, fun m' c hsame htf' hcpl => ?_⟩
  · rw [initHeader_frame _ _ _ _ (Or.inl (by omega))]
    exact hprevLink
  · rw [initHeader_frame _ _ _ _ (Or.inl (by omega))]
    exact hnextLink
  · rw [hbody a hlo hhi, buildFrame_apply]
    repeat rw [if_neg (by omega)]
    exact hkeep a (Pool.not_link hi (by omega) hhi) (by omega)
  · obtain ⟨hlinks, hout⟩ := ha
    rw [initHeader_frame _ _ _ _ (by omega), hkeep5 a hlinks, hm4, store_apply, if_neg (by omega), buildFrame_apply]
    repeat rw [if_neg (by omega)]
    exact hkeep a hlinks (by omega)
  · -- every word of the frame is as it was built
    have hword : ∀ k < 136, m' (L.pcb i + 3964 + k) =
        buildFrame segs (m sp) (L.pcb i + 3964 + 68) m2 (L.pcb i + 3964 + k) := by
      intro k hk
      rw [hsame _ (by omega) (by omega)]
      exact hbody _ (by omega) (by omega)
    have htop : (m' (L.pcb i + 8)).toNat = L.pcb i + 3964 := by
      rw [htf', htf]
      exact toNat_ptr (by omega)
    obtain ⟨reip, reflags, rcs, rds, res, rfs, rgs, resp⟩ := restore_built (fun k hk => hword k (by omega)) htop hcpl
    refine ⟨reip, reflags, rcs, rds, res, rfs, rgs, fun k hlo hhi => ?_⟩
    have harg : m' (L.pcb i + 3964 + (68 + 4 * k)) = m2 (L.pcb i + 3964 + (68 + 4 * k)) := by
      rw [hword _ (by omega), buildFrame_apply]
      repeat rw [if_neg (by omega)]
    have haddr : L.pcb i + 3964 + (68 + 4 * k) = L.pcb i + 4032 + 4 * k := by omega
    rw [resp, Nat.add_assoc, harg, haddr]
    exact hargs k hlo hhi

end create

/-! ### One free PCB -/

/-- `pcb_pool` at 1 MiB. -/
def lowPool : Pool :=
  ⟨1048576, 32768, 32784, by decide, by decide, by decide, by decide, by decide, by decide⟩

/-- PCB 1 is free; every other word is its own address. -/
def oneFree : Mem := fun a =>
  if a = 32768 ∨ a = 32772 then 1064960 else if a = 1064960 ∨ a = 1064964 then 32768
  else if a = 32784 ∨ a = 32788 then 32784 else ptr a

/-- The segments of the kernel. -/
def kernelSegments : Segments := ⟨8, 16, 16, 16, 16, by decide⟩

/-- A CPU in ring 0. -/
def kernelCpu : Cpu := ⟨0, 0, 0, 0, 0, 0, 0, 0, 0, 16, 16, 8, 0, 0, 8192⟩

theorem oneFree_lists :
    Lists lowPool oneFree (fun a => a = 32768 ∨ a = 32784) fun a => if a = 32768 then [1064960] else [] where
  rings := by
    constructor
    · rintro h (rfl | rfl)
      · exact ⟨.cons_cons ⟨by decide, by decide⟩ (.cons_cons ⟨by decide, by decide⟩ (.singleton _)), by decide⟩
      · exact ⟨.cons_cons ⟨by decide, by decide⟩ (.singleton _), by decide⟩
    · rintro h h' (rfl | rfl) (rfl | rfl) hne
      · exact absurd rfl hne
      · simp
      · simp
      · exact absurd rfl hne
  free := Or.inl rfl
  block := Or.inr rfl
  pcbs := by
    rintro a (ha | ha)
    · exact ⟨1, by decide, List.mem_singleton.mp ha⟩
    · exact absurd ha List.not_mem_nil

theorem kthread_starts_low :
    ∃ m', createKthread lowPool kernelSegments 4096 16384 oneFree = some (1064960, m') ∧
      (restore m' 1064960 kernelCpu).eip = 16384 ∧
      ∀ k, 1 ≤ k → k ≤ 16 → m' ((restore m' 1064960 kernelCpu).esp + 4 * k) = oneFree (16384 + 4 * k) := by
  have hstack : ∀ k ≤ 16, lowPool.Elsewhere 1 (16384 + 4 * k) := by
    intro k hk
    have hpcb : ∀ j, lowPool.pcb j = 1048576 + 16384 * j := fun _ => rfl
    refine ⟨?_, Or.inl (by rw [hpcb]; omega)⟩
    rintro ⟨n, rfl | rfl | ⟨j, -, rfl⟩, hn⟩
    · change _ = 32768 ∨ _ = 32768 + 4 at hn
      omega
    · change _ = 32784 ∨ _ = 32784 + 4 at hn
      omega
    · rw [hpcb] at hn
      omega
  obtain ⟨m', t, hcreate, -, -, -, -, hstart⟩ := @kthread_starts lowPool oneFree _ _ 1 16384 [] oneFree_lists
    rfl hstack kernelSegments 4096
  obtain ⟨heip, -, -, -, -, -, -, hargs⟩ := hstart m' kernelCpu (fun _ _ _ => rfl) rfl rfl
  exact ⟨m', hcreate, heip, hargs⟩

end Kthread
end NanoOS
