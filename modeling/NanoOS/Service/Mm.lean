/-
# The memory manager

`mm_thread` serves two requests. `MM_NEW_PROC` takes the next entry of
`vmem_table` and makes a page directory in which every entry leads to the one
page table of the process, except sixteen that are copies of the kernel's.
`MM_NEW_PAGE` fills the page table that an address selects with 1024 frames in
a row. The first of them depends on `vmem_free`, the number of processes made
so far, and not on the process that is served.

Key definitions: `doNewProcVmem`, `doAllocateNewPages`, `mmThread`, `Tables`.
Key theorems: `Tables.newProc`, `Tables.newPage`, `Tables.walk_user`,
`Tables.walk_kernel`.
-/
import NanoOS.Drivers.Hal
import NanoOS.Memory.Paging

namespace NanoOS
namespace Mm

open Memory

/-- `MM_NEW_PROC`. -/
def mmNewProc : ℤ := 515

/-- `MM_NEW_PAGE`. -/
def mmNewPage : ℤ := 516

/-- `N_KERNEL_PTE`: the number of entries of `vmem_table`. -/
def nKernelPte : ℕ := 16

/-- The memory, `vmem_free`, and the `cr3` of the PCBs. -/
structure State where
  mem : PhysMem
  vmemFree : ℕ
  cr3 : ℕ → Word

variable (L : Layout)

/-- The frame of `vmem_table[k]`; `pdir` and `ptable` are aligned, so they are
the next two. -/
def vmemInfo (k : ℕ) : ℕ := L.vmemTable + 3 * k

/-- The frame of `vmem_table[k].pdir`. -/
def pdirOf (k : ℕ) : ℕ := vmemInfo L k + 1

/-- The frame of `vmem_table[k].ptable`. -/
def ptableOf (k : ℕ) : ℕ := vmemInfo L k + 2

/-- The loop of `do_new_proc_vmem` that copies the kernel's entries. -/
def copyKernel (pdir : ℕ) (m : PhysMem) : PhysMem :=
  (List.range 16).foldl (fun m i =>
    m.store (4096 * pdir + 4 * (i + kernelPde)) (m.load (4096 * L.kpdir + 4 * (i + kernelPde)))) m

/-- `do_new_proc_vmem`; `none` if it indexes outside `vmem_table`. -/
def doNewProcVmem (s : State) : Option (Word × State) :=
  if s.vmemFree < nKernelPte then
    let k := s.vmemFree
    let cr3 := (frameAddr (pdirOf L k) >>> 12) <<< 12
    let m := s.mem.store (4096 * vmemInfo L k) cr3
    let m := m.fillTable (4096 * pdirOf L k) (fun _ => makePde (frameAddr (ptableOf L k))) nrPte
    some (cr3, { s with mem := copyKernel L (pdirOf L k) m, vmemFree := k + 1 })
  else none

/-- The address `do_allocate_new_pages` puts in entry `i`. -/
def newFrame (vmemFree i : ℕ) : Word :=
  BitVec.ofNat 32 (32 + vmemFree * 4) <<< 20 + BitVec.ofNat 32 i <<< 12

/-- `do_allocate_new_pages`. It uses physical addresses as pointers: the
memory manager runs with the kernel's tables, which map them to themselves. -/
def doAllocateNewPages (pid : ℕ) (va : Word) (s : State) : Word × State :=
  let pde := s.mem.load (tableOf (s.cr3 pid) + 4 * (va >>> 22).toNat)
  let ptable := tableOf pde
  let m := s.mem.fillTable ptable (fun i => makePte (newFrame s.vmemFree i)) nrPte
  let pa := (m.load (ptable + 4 * (va >>> 12 &&& 0x3ff#32).toNat) &&& ~~~0x3ff#32) + (va &&& 0xfff#32)
  (pa, { s with mem := m })

/-- One round of `mm_thread`, with `receive` done; a failed assertion is
`none`. -/
def mmThread (pm mm : ℤ) (x : MsgData) (s : State) : Option (MsgData × State) :=
  if x.type = mmNewProc then
    (doNewProcVmem L s).map fun r => ({ x with type := r.1.toInt, dest := pm, src := mm }, r.2)
  else if x.type = mmNewPage then
    let r := doAllocateNewPages x.src.toNat (BitVec.ofInt 32 x.i0) s
    some ({ x with type := r.1.toInt, dest := pm, src := mm }, r.2)
  else none

/-- The requests. -/
inductive Request
  /-- `MM_NEW_PROC` for the PCB `pid`, which gets the CR3 that is returned -/
  | newProc (pid : ℕ)
  /-- `MM_NEW_PAGE` in the name of `pid` -/
  | newPage (pid : ℕ) (va size : Word)

/-- The message of a request, as `do_new_proc` fills it in. -/
def Request.msg (pm mm : ℤ) : Request → MsgData
  | .newProc _ => ⟨pm, mm, mmNewProc, Vector.replicate 5 0⟩
  | .newPage pid va size => ⟨pid, mm, mmNewPage, #v[va.toInt, size.toInt, 0, 0, 0]⟩

/-- A request is served, and `pcb->cr3.val = m.ret` after `MM_NEW_PROC`. -/
def step (pm mm : ℤ) (s : State) (q : Request) : Option State :=
  (mmThread L pm mm (q.msg pm mm) s).map fun r => match q with
    | .newProc pid => { r.2 with cr3 := Function.update r.2.cr3 pid (BitVec.ofInt 32 r.1.type) }
    | .newPage _ _ _ => r.2

/-- Before the first request: `init_page` has run, `vmem_table` is zero and
every PCB has the kernel's CR3. -/
def init (m : PhysMem) : State where
  mem := initPage L fun f i => if L.vmemTable ≤ f ∧ f < L.vmemTable + 48 then 0 else m f i
  vmemFree := 0
  cr3 := fun _ => kcr3 L

/-! ### What the requests do to the memory -/

variable {L} {s s' : State} {pm mm : ℤ}

theorem copyKernel_rounds (pdir : ℕ) (hne : pdir ≠ L.kpdir) (m : PhysMem) : ∀ {n : ℕ}, n ≤ 16 → ∀ f i,
    (List.range n).foldl (fun m i =>
      m.store (4096 * pdir + 4 * (i + kernelPde)) (m.load (4096 * L.kpdir + 4 * (i + kernelPde)))) m f i =
    if f = pdir ∧ 768 ≤ i ∧ i < 768 + n then m L.kpdir i else m f i
  | 0, _, f, i => by
    rw [if_neg (by omega)]
    rfl
  | n + 1, hn, f, i => by
    have ih := copyKernel_rounds pdir hne m (n := n) (by omega)
    rw [List.range_succ, List.foldl_append, List.foldl_cons, List.foldl_nil]
    unfold kernelPde at ih ⊢
    have hload := ih L.kpdir (n + 768)
    rw [if_neg (by omega)] at hload
    rw [store_table _ _ (by omega), load_table _ _ (by omega), hload, ih f i]
    by_cases hlast : f = pdir ∧ i = n + 768
    · rw [if_pos hlast, if_pos (by omega), hlast.2]
    · rw [if_neg hlast]
      by_cases hin : f = pdir ∧ 768 ≤ i ∧ i < 768 + n
      · rw [if_pos hin, if_pos (by omega)]
      · rw [if_neg hin, if_neg (by omega)]

/-- `MM_NEW_PROC` makes the page directory of the next entry. -/
theorem doNewProcVmem_eq (hk : s.vmemFree < 16) : ∃ m : PhysMem,
    doNewProcVmem L s = some (frameAddr (pdirOf L s.vmemFree), { s with mem := m, vmemFree := s.vmemFree + 1 }) ∧
    ∀ f i, m f i =
      if f = pdirOf L s.vmemFree ∧ i < 1024 then
        if 768 ≤ i ∧ i < 784 then s.mem L.kpdir i else entry (ptableOf L s.vmemFree)
      else if f = vmemInfo L s.vmemFree ∧ i = 0 then frameAddr (pdirOf L s.vmemFree)
      else s.mem f i := by
  have hkmem := L.kmem
  have hsep := L.kpdir_vmem
  have hshift : (frameAddr (pdirOf L s.vmemFree) >>> 12) <<< 12 = frameAddr (pdirOf L s.vmemFree) := by
    unfold pdirOf vmemInfo
    exact shiftBack_frameAddr (by omega)
  have hpde : makePde (frameAddr (ptableOf L s.vmemFree)) = entry (ptableOf L s.vmemFree) := by
    unfold ptableOf vmemInfo
    exact makeEntry_frameAddr (by omega)
  have hstore : ∀ (x : Word) (f i : ℕ), s.mem.store (4096 * vmemInfo L s.vmemFree) x f i =
      if f = vmemInfo L s.vmemFree ∧ i = 0 then x else s.mem f i :=
    fun x f i => store_table s.mem (vmemInfo L s.vmemFree) (i := 0) (by decide) x f i
  have hne : pdirOf L s.vmemFree ≠ L.kpdir := by
    unfold pdirOf vmemInfo
    omega
  have hne' : L.kpdir ≠ vmemInfo L s.vmemFree := by
    unfold vmemInfo
    omega
  unfold doNewProcVmem
  rw [if_pos (show s.vmemFree < nKernelPte from hk)]
  dsimp only
  rw [hshift]
  refine ⟨_, rfl, fun f i => ?_⟩
  unfold copyKernel
  rw [copyKernel_rounds _ hne _ (Nat.le_refl 16)]
  unfold nrPte
  rw [fillTable_apply _ _ _ (Nat.le_refl _), fillTable_apply _ _ _ (Nat.le_refl _), hstore, hstore, hpde,
    if_neg (by omega : ¬ (L.kpdir = pdirOf L s.vmemFree ∧ i < 1024)), if_neg (by omega : ¬ (L.kpdir = _ ∧ i = 0))]
  by_cases hin : f = pdirOf L s.vmemFree ∧ i < 1024
  · rw [if_pos hin, if_pos hin]
    by_cases hcopy : 768 ≤ i ∧ i < 784
    · rw [if_pos ⟨hin.1, hcopy⟩, if_pos hcopy]
    · rw [if_neg (by omega), if_neg hcopy]
  · rw [if_neg hin, if_neg hin, if_neg (by omega)]

theorem makePte_newFrame {v i : ℕ} (hv : v ≤ 16) (hi : i < 1024) :
    makePte (newFrame v i) = entry (8192 + 1024 * v + i) := by
  unfold makePte
  rw [makeEntry_eq]
  congr 1
  have hbase : (BitVec.ofNat 32 (32 + v * 4) <<< 20).toNat = (32 + v * 4) * 1048576 := by
    rw [BitVec.toNat_shiftLeft, BitVec.toNat_ofNat, Nat.mod_eq_of_lt (by omega : 32 + v * 4 < _), Nat.shiftLeft_eq]
    exact Nat.mod_eq_of_lt (by omega)
  have hoff : (BitVec.ofNat 32 i <<< 12).toNat = i * 4096 := by
    rw [BitVec.toNat_shiftLeft, BitVec.toNat_ofNat, Nat.mod_eq_of_lt (by omega : i < _), Nat.shiftLeft_eq]
    exact Nat.mod_eq_of_lt (by omega)
  unfold newFrame
  rw [BitVec.toNat_add, hbase, hoff, Nat.mod_eq_of_lt (by omega)]
  omega

/-- `MM_NEW_PAGE` fills the page table that the address selects, and returns
the physical address. -/
theorem doAllocateNewPages_eq {pid d f : ℕ} {va : Word} (hv : s.vmemFree ≤ 16) (hd : tableOf (s.cr3 pid) = 4096 * d)
    (hf : f < 1048576) (hpde : s.mem d (va.toNat / 4194304) = entry f) : ∃ m : PhysMem,
    doAllocateNewPages pid va s =
      (physAddr (8192 + 1024 * s.vmemFree + va.toNat / 4096 % 1024) va, { s with mem := m }) ∧
    ∀ g i, m g i =
      if g = f ∧ i < 1024 then entry (8192 + 1024 * s.vmemFree + i) else s.mem g i := by
  have hva := va.isLt
  have hfill : ∀ g i, s.mem.fillTable (4096 * f) (fun i => makePte (newFrame s.vmemFree i)) 1024 g i =
      if g = f ∧ i < 1024 then entry (8192 + 1024 * s.vmemFree + i) else s.mem g i := by
    intro g i
    rw [fillTable_apply _ _ _ (Nat.le_refl _)]
    by_cases hin : g = f ∧ i < 1024
    · rw [if_pos hin, if_pos hin, makePte_newFrame hv hin.2]
    · rw [if_neg hin, if_neg hin]
  refine ⟨_, ?_, hfill⟩
  unfold doAllocateNewPages nrPte
  simp only [walk_pde hd, hpde, tableOf_entry hf]
  congr 1
  have hpte : (s.mem.fillTable (4096 * f) (fun i => makePte (newFrame s.vmemFree i)) 1024).load
      (tableOf (entry f) + 4 * (va >>> 12 &&& 0x3ff#32).toNat) = _ := walk_pte hf
  rw [tableOf_entry hf, hfill, if_pos ⟨rfl, by omega⟩] at hpte
  rw [hpte]
  -- bits 10 and 11 of the entry are zero, so the mask `~0x3ff` leaves the frame
  generalize hg : 8192 + 1024 * s.vmemFree + va.toNat / 4096 % 1024 = g
  have hhigh : (entry g &&& ~~~0x3ff#32).toNat = 1024 * ((entry g).toNat / 1024) :=
    toNat_high (entry g) 10 (by decide)
  have hlow : (va &&& 0xfff#32).toNat = va.toNat % 4096 := toNat_low va 12 (by decide)
  rw [toNat_entry (by omega)] at hhigh
  apply BitVec.eq_of_toNat_eq
  rw [BitVec.toNat_add, hhigh, hlow, toNat_physAddr (by omega), Nat.mod_eq_of_lt (by omega)]
  omega

theorem step_newProc (hk : s.vmemFree < 16) {pid : ℕ} : ∃ m : PhysMem,
    step L pm mm s (.newProc pid) = some ⟨m, s.vmemFree + 1,
      Function.update s.cr3 pid (frameAddr (pdirOf L s.vmemFree))⟩ ∧
    ∀ f i, m f i =
      if f = pdirOf L s.vmemFree ∧ i < 1024 then
        if 768 ≤ i ∧ i < 784 then s.mem L.kpdir i else entry (ptableOf L s.vmemFree)
      else if f = vmemInfo L s.vmemFree ∧ i = 0 then frameAddr (pdirOf L s.vmemFree)
      else s.mem f i := by
  obtain ⟨m, heq, hm⟩ := doNewProcVmem_eq (L := L) hk
  refine ⟨m, ?_, hm⟩
  unfold step mmThread Request.msg
  dsimp only
  rw [if_pos rfl, heq]
  simp only [Option.map_some, BitVec.ofInt_toInt]

theorem mmThread_newPage (pid : ℕ) (va size : Word) :
    mmThread L pm mm ((Request.newPage pid va size).msg pm mm) s =
      some ({ (Request.newPage pid va size).msg pm mm with
        type := (doAllocateNewPages pid va s).1.toInt, dest := pm, src := mm }, (doAllocateNewPages pid va s).2) := by
  unfold mmThread Request.msg
  dsimp only
  rw [if_neg (by decide), if_pos rfl]
  have harg : BitVec.ofInt 32 (MsgData.i0 ⟨pid, mm, mmNewPage, #v[va.toInt, size.toInt, 0, 0, 0]⟩) = va :=
    BitVec.ofInt_toInt
  simp only [Int.toNat_natCast, harg]

theorem step_newPage {pid : ℕ} {va size : Word} :
    step L pm mm s (.newPage pid va size) = some (doAllocateNewPages pid va s).2 := by
  unfold step
  rw [mmThread_newPage]
  rfl

theorem step_newProc_lt {pid : ℕ} (h : step L pm mm s (.newProc pid) = some s') : s.vmemFree < 16 := by
  by_contra hlt
  unfold step mmThread Request.msg doNewProcVmem at h
  dsimp only at h
  rw [if_pos rfl, if_neg (by unfold nKernelPte; exact hlt)] at h
  exact absurd h (by simp)

/-! ### The invariant -/

/-- What has been requested: the entry of `vmem_table` a process got, and the
value of `vmem_free` when pages were last made for it. -/
structure Log where
  slot : ℕ → Option ℕ
  served : ℕ → Option ℕ

namespace Log

/-- Nothing has been requested. -/
def empty : Log := ⟨fun _ => none, fun _ => none⟩

/-- A request is recorded. -/
def record (s : State) (q : Request) (g : Log) : Log :=
  match q with
  | .newProc pid => { g with slot := Function.update g.slot pid (some s.vmemFree) }
  | .newPage pid _ _ => { g with served := Function.update g.served pid (some s.vmemFree) }

variable {s : State} {g : Log} {p : ℕ} {va size : Word}

theorem record_newPage (q : ℕ) : (g.record s (.newPage p va size)).served q =
    if q = p then some s.vmemFree else g.served q :=
  Function.update_apply ..

theorem record_newProc (q : ℕ) : (g.record s (.newProc p)).slot q =
    if q = p then some s.vmemFree else g.slot q :=
  Function.update_apply ..

end Log

/-- `MM_NEW_PROC` is for a new process; `MM_NEW_PAGE` is for one that has been
made, and a user address. -/
def Request.Ok (g : Log) : Request → Prop
  | .newProc pid => g.slot pid = none
  | .newPage pid va _ => (g.slot pid).isSome ∧ va.toNat < 3221225472

instance (g : Log) : ∀ q : Request, Decidable (q.Ok g)
  | .newProc _ => inferInstanceAs (Decidable (_ = _))
  | .newPage _ _ _ => inferInstanceAs (Decidable (_ ∧ _))

variable (L) in
/-- The page directories: the kernel's is as `init_page` made it, and a process
has sixteen entries of it; all its others lead to its own page table. -/
structure Directories (g : Log) (s : State) : Prop where
  bound : s.vmemFree ≤ 16
  kernel : KernelTables L 32 s.mem
  cr3 : ∀ p k, g.slot p = some k → k < s.vmemFree ∧ s.cr3 p = frameAddr (pdirOf L k)
  pdir : ∀ k < s.vmemFree, ∀ i < 1024, s.mem (pdirOf L k) i =
    if 768 ≤ i ∧ i < 784 then entry (L.kptable + (i - 768)) else entry (ptableOf L k)

variable (L) in
/-- The page tables: that of a process holds 1024 frames from
`(32 + 4 * u) MB` on if it was last served when `vmem_free` was `u`. -/
structure Tables (g : Log) (s : State) : Prop where
  dirs : Directories L g s
  inj : ∀ p q k, g.slot p = some k → g.slot q = some k → p = q
  ptable : ∀ p k, g.slot p = some k → ∀ i < 1024,
    s.mem (ptableOf L k) i = (g.served p).elim 0 fun u => entry (8192 + 1024 * u + i)
  fresh : ∀ k, s.vmemFree ≤ k → k < 16 → ∀ i < 1024, s.mem (ptableOf L k) i = 0
  epoch : ∀ p u, g.served p = some u → u ≤ s.vmemFree
  known : ∀ p, g.slot p = none → g.served p = none

variable {g : Log} {p k : ℕ} {va size : Word}

/-- The page table an address selects in the directory of entry `k`. -/
def selected (L : Layout) (k : ℕ) (va : Word) : ℕ :=
  if 768 ≤ va.toNat / 4194304 ∧ va.toNat / 4194304 < 784 then L.kptable + (va.toNat / 4194304 - 768)
  else ptableOf L k

theorem Directories.select (h : Directories L g s) (hk : k < s.vmemFree) (va : Word) :
    s.mem (pdirOf L k) (va.toNat / 4194304) = entry (selected L k va) ∧ selected L k va < 1048576 := by
  have hva := va.isLt
  have hkmem := L.kmem
  have hbound := h.bound
  refine ⟨?_, ?_⟩
  · rw [h.pdir k hk _ (by omega)]
    unfold selected
    split
    · rfl
    · rfl
  · unfold selected ptableOf vmemInfo
    split
    · omega
    · omega

theorem Directories.tableOf_cr3 (h : Directories L g s) (hp : g.slot p = some k) :
    tableOf (s.cr3 p) = 4096 * pdirOf L k := by
  have hkmem := L.kmem
  have hbound := h.bound
  obtain ⟨hk, hcr3⟩ := h.cr3 p k hp
  have hlt : pdirOf L k < 1048576 := by
    unfold pdirOf vmemInfo
    omega
  rw [hcr3, tableOf_eq, toNat_frameAddr hlt]
  omega

theorem Directories.newPage (h : Directories L g s) (hp : g.slot p = some k) (va : Word) : ∃ m : PhysMem,
    doAllocateNewPages p va s =
      (physAddr (8192 + 1024 * s.vmemFree + va.toNat / 4096 % 1024) va, { s with mem := m }) ∧
    ∀ f i, m f i =
      if f = selected L k va ∧ i < 1024 then entry (8192 + 1024 * s.vmemFree + i) else s.mem f i := by
  obtain ⟨hpde, hlt⟩ := h.select (h.cr3 p k hp).1 va
  exact doAllocateNewPages_eq h.bound (h.tableOf_cr3 hp) hlt hpde

/-- The tables of the processes are not in the kernel's frames. -/
theorem not_kernelFrame (hk : k < 16) : ¬ KernelFrame L (vmemInfo L k) ∧ ¬ KernelFrame L (pdirOf L k) ∧
    ¬ KernelFrame L (ptableOf L k) := by
  have h1 := L.kpdir_vmem
  have h2 := L.kptable_vmem
  unfold KernelFrame pdirOf ptableOf vmemInfo
  omega

theorem pdirOf_ne_ptableOf (L : Layout) (j k : ℕ) : pdirOf L j ≠ ptableOf L k := by
  unfold pdirOf ptableOf vmemInfo
  omega

/-- Filling a page table of a process keeps the directories. -/
theorem Directories.fill (h : Directories L g s) {m : PhysMem} {u : ℕ} (hk : k < 16)
    (hm : ∀ f i, m f i = if f = ptableOf L k ∧ i < 1024 then entry (8192 + 1024 * u + i) else s.mem f i) :
    Directories L g { s with mem := m } := by
  refine ⟨h.bound, h.kernel.congr fun f i hf => ?_, h.cr3, fun j hj i hi => ?_⟩
  · have hne : f ≠ ptableOf L k := by
      rintro rfl
      exact (not_kernelFrame hk).2.2 hf
    dsimp only
    rw [hm, if_neg (by omega)]
  · have hne := pdirOf_ne_ptableOf L j k
    dsimp only
    rw [hm, if_neg (by omega)]
    exact h.pdir j hj i hi

theorem Directories.newProc (h : Directories L g s) (hk : s.vmemFree < 16) {m : PhysMem}
    (hm : ∀ f i, m f i =
      if f = pdirOf L s.vmemFree ∧ i < 1024 then
        if 768 ≤ i ∧ i < 784 then s.mem L.kpdir i else entry (ptableOf L s.vmemFree)
      else if f = vmemInfo L s.vmemFree ∧ i = 0 then frameAddr (pdirOf L s.vmemFree)
      else s.mem f i) :
    Directories L (g.record s (.newProc p))
      ⟨m, s.vmemFree + 1, Function.update s.cr3 p (frameAddr (pdirOf L s.vmemFree))⟩ := by
  refine ⟨hk, h.kernel.congr fun f i hf => ?_, fun q j hq => ?_, fun j hj i hi => ?_⟩
  · have hne : f ≠ pdirOf L s.vmemFree ∧ f ≠ vmemInfo L s.vmemFree := by
      constructor
      · rintro rfl
        exact (not_kernelFrame hk).2.1 hf
      · rintro rfl
        exact (not_kernelFrame hk).1 hf
    dsimp only
    rw [hm, if_neg (by omega), if_neg (by omega)]
  · dsimp only [Log.record] at hq ⊢
    by_cases hpq : q = p
    · rw [hpq, Function.update_self, Option.some.injEq] at hq
      rw [hpq, Function.update_self, ← hq]
      exact ⟨Nat.lt_succ_self _, rfl⟩
    · rw [Function.update_of_ne hpq] at hq ⊢
      exact ⟨Nat.lt_succ_of_lt (h.cr3 q j hq).1, (h.cr3 q j hq).2⟩
  · dsimp only at hj ⊢
    rw [hm]
    by_cases hlast : j = s.vmemFree
    · rw [hlast, if_pos ⟨rfl, hi⟩]
      by_cases hcopy : 768 ≤ i ∧ i < 784
      · have hhigh := h.kernel.high (i - 768) (by omega)
        rw [Nat.add_sub_cancel' hcopy.1] at hhigh
        rw [if_pos hcopy, if_pos hcopy]
        exact hhigh
      · rw [if_neg hcopy, if_neg hcopy]
    · have hne : pdirOf L j ≠ pdirOf L s.vmemFree ∧ pdirOf L j ≠ vmemInfo L s.vmemFree := by
        unfold pdirOf vmemInfo
        omega
      rw [if_neg (by omega), if_neg (by omega)]
      exact h.pdir j (by omega) i hi

/-! ### The page tables -/

theorem selected_user (hva : va.toNat < 3221225472 ∨ 3288334336 ≤ va.toNat) : selected L k va = ptableOf L k := by
  unfold selected
  exact if_neg (by omega)

theorem ptableOf_inj {j k : ℕ} (h : ptableOf L j = ptableOf L k) : j = k := by
  unfold ptableOf vmemInfo at h
  omega

theorem tables_init (L : Layout) (m : PhysMem) : Tables L Log.empty (init L m) := by
  obtain ⟨htab, hframe⟩ := KernelTables.initPage L
    fun f i => if L.vmemTable ≤ f ∧ f < L.vmemTable + 48 then 0 else m f i
  refine ⟨⟨Nat.zero_le _, by dsimp only [init]; exact htab, fun p k hp => ?_,
    fun k hk => absurd hk (Nat.not_lt_zero k)⟩, fun p q k hp => ?_,
    fun p k hp => ?_, fun k _ hk i hi => ?_, fun p u hp => ?_, fun _ _ => rfl⟩
  · exact absurd hp (by simp [Log.empty])
  · exact absurd hp (by simp [Log.empty])
  · exact absurd hp (by simp [Log.empty])
  · unfold init
    dsimp only
    rw [hframe _ i (not_kernelFrame hk).2.2]
    unfold ptableOf vmemInfo
    exact if_pos (by omega)
  · exact absurd hp (by simp [Log.empty])

theorem Tables.newPage (h : Tables L g s) (hp : g.slot p = some k)
    (hva : va.toNat < 3221225472 ∨ 3288334336 ≤ va.toNat)
    (hs : step L pm mm s (.newPage p va size) = some s') :
    Tables L (g.record s (.newPage p va size)) s' ∧ s'.vmemFree = s.vmemFree ∧ s'.cr3 = s.cr3 := by
  have hk : k < 16 := Nat.lt_of_lt_of_le (h.dirs.cr3 p k hp).1 h.dirs.bound
  obtain ⟨m, heq, hm⟩ := h.dirs.newPage hp va
  rw [step_newPage, heq, Option.some.injEq] at hs
  rw [selected_user hva] at hm
  subst hs
  refine ⟨⟨⟨h.dirs.bound, (h.dirs.fill hk hm).kernel, h.dirs.cr3, (h.dirs.fill hk hm).pdir⟩, h.inj,
    fun q j hq i hi => ?_, fun j hj hlt i hi => ?_, fun q u hq => ?_, fun q hq => ?_⟩, rfl, rfl⟩
  · change g.slot q = some j at hq
    dsimp only
    rw [hm, Log.record_newPage]
    by_cases hpq : q = p
    · rw [hpq, hp, Option.some.injEq] at hq
      rw [← hq, if_pos ⟨rfl, hi⟩, if_pos hpq]
      rfl
    · have hne : ptableOf L j ≠ ptableOf L k := by
        intro heq
        rw [ptableOf_inj heq] at hq
        exact hpq (h.inj q p k hq hp)
      rw [if_neg (by omega), if_neg hpq]
      exact h.ptable q j hq i hi
  · have hkf := (h.dirs.cr3 p k hp).1
    have hne : ptableOf L j ≠ ptableOf L k := by
      intro heq
      have := ptableOf_inj heq
      dsimp only at hj
      omega
    dsimp only
    rw [hm, if_neg (by omega)]
    exact h.fresh j hj hlt i hi
  · dsimp only
    rw [Log.record_newPage] at hq
    split at hq
    · cases hq
      exact Nat.le_refl _
    · exact h.epoch q u hq
  · rw [Log.record_newPage, if_neg ?_]
    · exact h.known q hq
    · rintro rfl
      exact absurd (hq.symm.trans hp) (by simp)

theorem Tables.newProc (h : Tables L g s) (hp : g.slot p = none) (hs : step L pm mm s (.newProc p) = some s') :
    Tables L (g.record s (.newProc p)) s' ∧ s'.vmemFree = s.vmemFree + 1 := by
  have hk := step_newProc_lt hs
  obtain ⟨m, heq, hm⟩ := @step_newProc L s pm mm hk p
  rw [heq, Option.some.injEq] at hs
  subst hs
  have hmem : ∀ j i, i < 1024 → m (ptableOf L j) i = s.mem (ptableOf L j) i := by
    intro j i hi
    have hne : ptableOf L j ≠ pdirOf L s.vmemFree ∧ ptableOf L j ≠ vmemInfo L s.vmemFree := by
      unfold pdirOf ptableOf vmemInfo
      omega
    rw [hm, if_neg (by omega), if_neg (by omega)]
  refine ⟨⟨h.dirs.newProc hk hm, fun q r j hq hr => ?_, fun q j hq i hi => ?_, fun j hj hlt i hi => ?_,
    fun q u hq => Nat.le_succ_of_le (h.epoch q u hq), fun q hq => ?_⟩, rfl⟩
  · -- the new entry is not one that a process has
    have hold : ∀ t, g.slot t ≠ some s.vmemFree := fun t ht => Nat.lt_irrefl _ (h.dirs.cr3 t _ ht).1
    rw [Log.record_newProc] at hq hr
    split at hq <;> split at hr
    · omega
    · rw [← hq] at hr
      exact absurd hr (hold r)
    · rw [← hr] at hq
      exact absurd hq (hold q)
    · exact h.inj q r j hq hr
  · dsimp only
    rw [hmem j i hi]
    rw [Log.record_newProc] at hq
    split at hq
    · rename_i hqp
      cases hq
      rw [h.fresh _ (Nat.le_refl _) hk i hi, hqp]
      change 0 = (g.served p).elim 0 _
      rw [h.known p hp]
      rfl
    · exact h.ptable q j hq i hi
  · dsimp only at hj ⊢
    rw [hmem j i hi]
    exact h.fresh j (by omega) hlt i hi
  · rw [Log.record_newProc] at hq
    split at hq
    · exact absurd hq (by simp)
    · exact h.known q hq

/-! ### Translations -/

/-- An address outside the 64 MB from `KOFFSET` on, in a process that has been served. -/
theorem Tables.walk_user (h : Tables L g s) (hp : g.slot p = some k) {u : ℕ} (hu : g.served p = some u)
    (hva : va.toNat < 3221225472 ∨ 3288334336 ≤ va.toNat) :
    walk s.mem (s.cr3 p) va = some (physAddr (8192 + 1024 * u + va.toNat / 4096 % 1024) va) := by
  obtain ⟨hk, -⟩ := h.dirs.cr3 p k hp
  obtain ⟨hpde, hlt⟩ := h.dirs.select hk va
  have hbound := h.dirs.bound
  have hle := h.epoch p u hu
  have hpte := h.ptable p k hp (va.toNat / 4096 % 1024) (by omega)
  rw [hu] at hpte
  rw [selected_user hva] at hpde hlt
  exact walk_eq_some (h.dirs.tableOf_cr3 hp) hlt (by omega) hpde hpte

theorem Tables.walk_fault (h : Tables L g s) (hp : g.slot p = some k) (hu : g.served p = none)
    (hva : va.toNat < 3221225472) : walk s.mem (s.cr3 p) va = none := by
  obtain ⟨hk, -⟩ := h.dirs.cr3 p k hp
  obtain ⟨hpde, hlt⟩ := h.dirs.select hk va
  have hpte := h.ptable p k hp (va.toNat / 4096 % 1024) (by omega)
  rw [hu] at hpte
  rw [selected_user (.inl hva)] at hpde hlt
  exact walk_eq_none (h.dirs.tableOf_cr3 hp) hlt hpde hpte

/-- The first 64 MB from `KOFFSET` on are mapped for a process as for the
kernel. -/
theorem Directories.walk_kernel (h : Directories L g s) (hp : g.slot p = some k) (hlo : 3221225472 ≤ va.toNat)
    (hhi : va.toNat < 3288334336) : walk s.mem (s.cr3 p) va = walk s.mem (kcr3 L) va := by
  obtain ⟨hk, -⟩ := h.cr3 p k hp
  obtain ⟨hpde, hlt⟩ := h.select hk va
  have hpte := h.kernel.table ((va.toNat - 3221225472) / 4194304) (by omega) (va.toNat / 4096 % 1024) (by omega)
  have hsel : selected L k va = L.kptable + (va.toNat - 3221225472) / 4194304 := by
    unfold selected
    rw [if_pos (by omega)]
    omega
  have hframe : 1024 * ((va.toNat - 3221225472) / 4194304) + va.toNat / 4096 % 1024 =
      (va.toNat - 3221225472) / 4096 := by omega
  rw [hframe] at hpte
  rw [hsel] at hpde hlt
  rw [walk_eq_some (h.tableOf_cr3 hp) hlt (by omega) hpde hpte, h.kernel.walk_kernel hlo (by omega)]

end Mm
end NanoOS
