/-
# Page tables

The physical memory is seen as frames of 1024 words. A page directory or a
page table is a frame, an entry is a word that holds a frame number in its
upper 20 bits, and `walk` is the translation the x86 MMU makes from CR3. The
kernel's own tables are static arrays; `Layout` says where the linker has put
them and those of the memory manager.

Key definitions: `PhysMem`, `makeEntry`, `walk`, `Layout`, `initPage`.
Key theorems: `walk_eq_some`, `fillTable_apply`, `KernelTables.initPage`.
-/
import Mathlib.Algebra.Group.Nat.Defs
import Mathlib.Tactic.Common

namespace NanoOS
namespace Memory

/-- A `uint32_t`. -/
abbrev Word := BitVec 32

/-- The words of the frames. -/
abbrev PhysMem := ℕ → ℕ → Word

/-- `NR_PDE`, and `NR_PTE`. -/
def nrPte : ℕ := 1024

/-- `KOFFSET / PD_SIZE`: the first entry of a page directory that is the
kernel's. -/
def kernelPde : ℕ := 768

/-- `PHY_MEM / PD_SIZE`: the number of the kernel's page tables. -/
def nrKtable : ℕ := 32

namespace PhysMem

/-- The word at a physical address. -/
def load (m : PhysMem) (a : ℕ) : Word := m (a / 4096) (a % 4096 / 4)

/-- A word is written. -/
def store (a : ℕ) (x : Word) (m : PhysMem) : PhysMem :=
  fun f i => if f = a / 4096 ∧ i = a % 4096 / 4 then x else m f i

/-- `for (i = 0; i < n; i ++) table[i] = g(i);`, with `table` at `a`. -/
def fillTable (a : ℕ) (g : ℕ → Word) (n : ℕ) (m : PhysMem) : PhysMem :=
  (List.range n).foldl (fun m i => m.store (a + 4 * i) (g i)) m

end PhysMem

/-- `make_pde` and `make_pte`: `val = 0`, the frame of `addr` in `page_frame`,
and the bits `present`, `read_write` and `user_supervisor`. -/
def makeEntry (addr : Word) : Word := (addr >>> 12) <<< 12 ||| 7#32

/-- `make_pde`. -/
def makePde (addr : Word) : Word := makeEntry addr

/-- `make_pte`. -/
def makePte (addr : Word) : Word := makeEntry addr

/-- A pointer to a table in an entry or in CR3: `val & ~0xfff`. -/
def tableOf (x : Word) : ℕ := (x &&& ~~~0xfff#32).toNat

/-- The translation of `va` by the MMU; `none` is a page fault. -/
def walk (m : PhysMem) (cr3 va : Word) : Option Word :=
  let pde := m.load (tableOf cr3 + 4 * (va >>> 22).toNat)
  if pde &&& 1#32 = 0 then none
  else
    let pte := m.load (tableOf pde + 4 * (va >>> 12 &&& 0x3ff#32).toNat)
    if pte &&& 1#32 = 0 then none
    else some ((pte &&& ~~~0xfff#32) + (va &&& 0xfff#32))

/-- Where the linker has put the page-aligned static arrays, as frame numbers:
`kpdir`, the 32 frames of `kptable` and the 48 of `vmem_table`. They do not
overlap, and they are in the first `KMEM` = 16 MB. This is assumed of these three
arrays, not of the whole kernel: `pcb_pool` alone takes 32 MB. -/
structure Layout where
  kpdir : ℕ
  kptable : ℕ
  vmemTable : ℕ
  kpdir_kptable : kpdir < kptable ∨ kptable + 32 ≤ kpdir
  kpdir_vmem : kpdir < vmemTable ∨ vmemTable + 48 ≤ kpdir
  kptable_vmem : kptable + 32 ≤ vmemTable ∨ vmemTable + 48 ≤ kptable
  kmem : kpdir < 4096 ∧ kptable + 32 ≤ 4096 ∧ vmemTable + 48 ≤ 4096

/-- A possible layout: the tables one after the other, from 1 MB on. -/
def Layout.packed : Layout where
  kpdir := 256
  kptable := 257
  vmemTable := 289
  kpdir_kptable := by decide
  kpdir_vmem := by decide
  kptable_vmem := by decide
  kmem := by decide

/-- The physical address of a frame. -/
def frameAddr (f : ℕ) : Word := BitVec.ofNat 32 (4096 * f)

/-- One round of the second loop of `init_page`: the two entries of page table
`i`, and its own entries. -/
def initPageTable (L : Layout) (m : PhysMem) (i : ℕ) : PhysMem :=
  let m := m.store (4096 * L.kpdir + 4 * i) (makePde (frameAddr (L.kptable + i)))
  let m := m.store (4096 * L.kpdir + 4 * (i + kernelPde)) (makePde (frameAddr (L.kptable + i)))
  m.fillTable (4096 * (L.kptable + i)) (fun j => makePte (BitVec.ofNat 32 (nrPte * i + j) <<< 12)) nrPte

/-- `init_page`, the page tables. -/
def initPage (L : Layout) (m : PhysMem) : PhysMem :=
  (List.range nrKtable).foldl (initPageTable L) (m.fillTable (4096 * L.kpdir) (fun _ => 0) nrPte)

/-- `kcr3`. -/
def kcr3 (L : Layout) : Word := (frameAddr L.kpdir >>> 12) <<< 12

/-! ### Words -/

/-- The entry for a frame. -/
def entry (f : ℕ) : Word := BitVec.ofNat 32 (4096 * f + 7)

theorem toNat_shr (x : Word) (k : ℕ) : (x >>> k).toNat = x.toNat / 2 ^ k := by
  rw [BitVec.toNat_ushiftRight, Nat.shiftRight_eq_div_pow]

theorem toNat_low (x : Word) (k : ℕ) (hk : k ≤ 32) :
    (x &&& BitVec.ofNat 32 (2 ^ k - 1)).toNat = x.toNat % 2 ^ k := by
  have hpow : 2 ^ k ≤ 2 ^ 32 := Nat.pow_le_pow_right (by decide) hk
  have hpos : 0 < 2 ^ k := Nat.two_pow_pos k
  rw [BitVec.toNat_and, BitVec.toNat_ofNat, Nat.mod_eq_of_lt (by omega), Nat.and_two_pow_sub_one_eq_mod]

theorem toNat_high (x : Word) (k : ℕ) (hk : k ≤ 32) :
    (x &&& ~~~BitVec.ofNat 32 (2 ^ k - 1)).toNat = 2 ^ k * (x.toNat / 2 ^ k) := by
  generalize hmask : BitVec.ofNat 32 (2 ^ k - 1) = mask
  have hdisj : (x &&& ~~~mask) &&& (x &&& mask) = 0 := by
    ext i hi
    simp
    cases x[i] <;> cases mask[i] <;> simp
  have hsplit : (x &&& ~~~mask) + (x &&& mask) = x := by
    rw [BitVec.add_eq_or_of_and_eq_zero _ _ hdisj]
    ext i hi
    simp
    cases x[i] <;> cases mask[i] <;> rfl
  have hsum := BitVec.toNat_add_of_and_eq_zero hdisj
  have hlow := toNat_low x k hk
  have hdiv := Nat.div_add_mod x.toNat (2 ^ k)
  rw [hsplit] at hsum
  rw [hmask] at hlow
  omega

theorem tableOf_eq (x : Word) : tableOf x = 4096 * (x.toNat / 4096) := toNat_high x 12 (by decide)

theorem toNat_frameAddr {f : ℕ} (hf : f < 1048576) : (frameAddr f).toNat = 4096 * f := by
  unfold frameAddr
  rw [BitVec.toNat_ofNat]
  exact Nat.mod_eq_of_lt (by omega)

theorem toNat_entry {f : ℕ} (hf : f < 1048576) : (entry f).toNat = 4096 * f + 7 := by
  unfold entry
  rw [BitVec.toNat_ofNat]
  exact Nat.mod_eq_of_lt (by omega)

theorem tableOf_entry {f : ℕ} (hf : f < 1048576) : tableOf (entry f) = 4096 * f := by
  rw [tableOf_eq, toNat_entry hf]
  omega

/-- `make_pde` and `make_pte` make the entry for the frame of the address. -/
theorem makeEntry_eq (addr : Word) : makeEntry addr = entry (addr.toNat / 4096) := by
  have hlt := addr.isLt
  apply BitVec.eq_of_toNat_eq
  rw [toNat_entry (by omega)]
  unfold makeEntry
  rw [BitVec.toNat_or, BitVec.toNat_shiftLeft, toNat_shr, Nat.mod_eq_of_lt, BitVec.toNat_ofNat,
    Nat.mod_eq_of_lt (by decide), ← Nat.shiftLeft_add_eq_or_of_lt (by decide), Nat.shiftLeft_eq]
  · omega
  · rw [Nat.shiftLeft_eq]
    omega

theorem makeEntry_frameAddr {f : ℕ} (hf : f < 1048576) : makeEntry (frameAddr f) = entry f := by
  rw [makeEntry_eq, toNat_frameAddr hf]
  congr 1
  omega

theorem shiftBack_frameAddr {f : ℕ} (hf : f < 1048576) : (frameAddr f >>> 12) <<< 12 = frameAddr f := by
  apply BitVec.eq_of_toNat_eq
  rw [BitVec.toNat_shiftLeft, toNat_shr, toNat_frameAddr hf, Nat.shiftLeft_eq, Nat.mod_eq_of_lt (by omega)]
  omega

theorem entry_present {f : ℕ} (hf : f < 1048576) : entry f &&& 1#32 ≠ 0 := by
  intro h
  have hlow := toNat_low (entry f) 1 (by decide)
  have hzero : (entry f &&& BitVec.ofNat 32 (2 ^ 1 - 1)).toNat = 0 := congrArg BitVec.toNat h
  rw [toNat_entry hf, hzero] at hlow
  omega

/-! ### Tables -/

theorem load_table (m : PhysMem) (f : ℕ) {i : ℕ} (hi : i < 1024) : m.load (4096 * f + 4 * i) = m f i := by
  unfold PhysMem.load
  have hframe : (4096 * f + 4 * i) / 4096 = f := by omega
  have hindex : (4096 * f + 4 * i) % 4096 / 4 = i := by omega
  rw [hframe, hindex]

theorem store_table (m : PhysMem) (f : ℕ) {i : ℕ} (hi : i < 1024) (x : Word) (f' i' : ℕ) :
    m.store (4096 * f + 4 * i) x f' i' = if f' = f ∧ i' = i then x else m f' i' := by
  unfold PhysMem.store
  have hframe : (4096 * f + 4 * i) / 4096 = f := by omega
  have hindex : (4096 * f + 4 * i) % 4096 / 4 = i := by omega
  rw [hframe, hindex]

/-- The first entries of the table are written, and nothing else. -/
theorem fillTable_apply (f : ℕ) (g : ℕ → Word) (m : PhysMem) : ∀ {n : ℕ}, n ≤ 1024 → ∀ f' i',
    m.fillTable (4096 * f) g n f' i' = if f' = f ∧ i' < n then g i' else m f' i'
  | 0, _, f', i' => by
    rw [if_neg (by omega)]
    rfl
  | n + 1, hn, f', i' => by
    have ih := fillTable_apply f g m (n := n) (by omega) f' i'
    have hstep : m.fillTable (4096 * f) g (n + 1) =
        (m.fillTable (4096 * f) g n).store (4096 * f + 4 * n) (g n) := by
      simp only [PhysMem.fillTable, List.range_succ, List.foldl_append, List.foldl_cons, List.foldl_nil]
    rw [hstep, store_table _ _ (by omega), ih]
    by_cases hlast : f' = f ∧ i' = n
    · rw [if_pos hlast, if_pos (by omega), hlast.2]
    · rw [if_neg hlast]
      by_cases hin : f' = f ∧ i' < n
      · rw [if_pos hin, if_pos (by omega)]
      · rw [if_neg hin, if_neg (by omega)]

/-! ### The walk -/

variable {m : PhysMem} {cr3 va : Word} {d f g : ℕ}

theorem walk_pde (hd : tableOf cr3 = 4096 * d) :
    m.load (tableOf cr3 + 4 * (va >>> 22).toNat) = m d (va.toNat / 4194304) := by
  have hlt := va.isLt
  have hshr : (va >>> 22).toNat = va.toNat / 4194304 := toNat_shr va 22
  rw [hd, hshr, load_table _ _ (by omega)]

theorem walk_pte (hf : f < 1048576) :
    m.load (tableOf (entry f) + 4 * (va >>> 12 &&& 0x3ff#32).toNat) = m f (va.toNat / 4096 % 1024) := by
  have hlow : (va >>> 12 &&& 0x3ff#32).toNat = (va >>> 12).toNat % 1024 := toNat_low (va >>> 12) 10 (by decide)
  have hshr : (va >>> 12).toNat = va.toNat / 4096 := toNat_shr va 12
  rw [tableOf_entry hf, hlow, hshr, load_table _ _ (by omega)]

/-- The frame the entries lead to, and the offset in it. -/
def physAddr (g : ℕ) (va : Word) : Word := BitVec.ofNat 32 (4096 * g + va.toNat % 4096)

theorem toNat_physAddr (hg : g < 1048576) : (physAddr g va).toNat = 4096 * g + va.toNat % 4096 := by
  unfold physAddr
  rw [BitVec.toNat_ofNat]
  exact Nat.mod_eq_of_lt (by omega)

/-- A walk through two entries. -/
theorem walk_eq_some (hd : tableOf cr3 = 4096 * d) (hf : f < 1048576) (hg : g < 1048576)
    (hpde : m d (va.toNat / 4194304) = entry f) (hpte : m f (va.toNat / 4096 % 1024) = entry g) :
    walk m cr3 va = some (physAddr g va) := by
  unfold walk
  simp only [walk_pde hd, hpde, walk_pte hf, hpte, if_neg (entry_present hf), if_neg (entry_present hg)]
  have hhigh : (entry g &&& ~~~0xfff#32).toNat = 4096 * g := tableOf_entry hg
  have hlow : (va &&& 0xfff#32).toNat = va.toNat % 4096 := toNat_low va 12 (by decide)
  congr 1
  apply BitVec.eq_of_toNat_eq
  rw [BitVec.toNat_add, hhigh, hlow, toNat_physAddr hg]
  exact Nat.mod_eq_of_lt (by omega)

theorem walk_eq_none (hd : tableOf cr3 = 4096 * d) (hf : f < 1048576)
    (hpde : m d (va.toNat / 4194304) = entry f) (hpte : m f (va.toNat / 4096 % 1024) = 0) :
    walk m cr3 va = none := by
  unfold walk
  simp only [walk_pde hd, hpde, walk_pte hf, hpte, if_neg (entry_present hf)]
  rfl

/-! ### The kernel's tables -/

/-- The first `n` page tables of the kernel map the physical memory in order,
at 0 and at `KOFFSET`. -/
structure KernelTables (L : Layout) (n : ℕ) (m : PhysMem) : Prop where
  low : ∀ i < n, m L.kpdir i = entry (L.kptable + i)
  high : ∀ i < n, m L.kpdir (768 + i) = entry (L.kptable + i)
  table : ∀ i < n, ∀ j < 1024, m (L.kptable + i) j = entry (1024 * i + j)

variable {L : Layout}

/-- What `init_page` writes to. -/
def KernelFrame (L : Layout) (f : ℕ) : Prop := f = L.kpdir ∨ L.kptable ≤ f ∧ f < L.kptable + 32

theorem KernelTables.congr {m m' : PhysMem} (h : KernelTables L 32 m)
    (hm : ∀ f i, KernelFrame L f → m' f i = m f i) : KernelTables L 32 m' := by
  refine ⟨fun i hi => ?_, fun i hi => ?_, fun i hi j hj => ?_⟩
  · rw [hm _ _ (.inl rfl)]
    exact h.low i hi
  · rw [hm _ _ (.inl rfl)]
    exact h.high i hi
  · rw [hm _ _ (.inr ⟨Nat.le_add_right _ _, Nat.add_lt_add_left hi _⟩)]
    exact h.table i hi j hj

theorem initPageTable_apply (m : PhysMem) {i : ℕ} (hi : i < 32) (f j : ℕ) : initPageTable L m i f j =
    if f = L.kptable + i ∧ j < 1024 then entry (1024 * i + j)
    else if f = L.kpdir ∧ (j = i ∨ j = 768 + i) then entry (L.kptable + i)
    else m f j := by
  have hkmem := L.kmem
  have hpde : makePde (frameAddr (L.kptable + i)) = entry (L.kptable + i) :=
    makeEntry_frameAddr (by omega)
  have hpte : ∀ j < 1024, makePte (BitVec.ofNat 32 (1024 * i + j) <<< 12) = entry (1024 * i + j) := by
    intro j hj
    unfold makePte
    rw [makeEntry_eq, BitVec.toNat_shiftLeft, BitVec.toNat_ofNat, Nat.mod_eq_of_lt (by omega : 1024 * i + j < _),
      Nat.shiftLeft_eq, Nat.mod_eq_of_lt (by omega)]
    congr 1
    omega
  unfold initPageTable kernelPde nrPte
  rw [fillTable_apply _ _ _ (Nat.le_refl _), store_table _ _ (by omega), store_table _ _ (by omega)]
  by_cases htab : f = L.kptable + i ∧ j < 1024
  · rw [if_pos htab, if_pos htab, hpte j htab.2]
  · rw [if_neg htab, if_neg htab]
    by_cases hhigh : f = L.kpdir ∧ j = i + 768
    · rw [if_pos hhigh, if_pos ⟨hhigh.1, by omega⟩, hpde]
    · rw [if_neg hhigh]
      by_cases hlow : f = L.kpdir ∧ j = i
      · rw [if_pos hlow, if_pos ⟨hlow.1, .inl hlow.2⟩, hpde]
      · rw [if_neg hlow, if_neg (by omega)]

/-- A round keeps the tables made so far, and makes one more. -/
theorem KernelTables.initPageTable {m : PhysMem} {n : ℕ} (hn : n < 32) (h : KernelTables L n m) :
    KernelTables L (n + 1) (initPageTable L m n) := by
  have hsep := L.kpdir_kptable
  refine ⟨fun i hi => ?_, fun i hi => ?_, fun i hi j hj => ?_⟩
  · rw [initPageTable_apply m hn, if_neg (by omega)]
    by_cases hin : i = n
    · rw [if_pos ⟨rfl, .inl hin⟩, hin]
    · rw [if_neg (by omega)]
      exact h.low i (by omega)
  · rw [initPageTable_apply m hn, if_neg (by omega)]
    by_cases hin : i = n
    · rw [if_pos ⟨rfl, .inr (by omega)⟩, hin]
    · rw [if_neg (by omega)]
      exact h.high i (by omega)
  · rw [initPageTable_apply m hn]
    by_cases hin : i = n
    · rw [if_pos ⟨by omega, hj⟩, hin]
    · rw [if_neg (by omega), if_neg (by omega)]
      exact h.table i (by omega) j hj

theorem initPage_rounds (m : PhysMem) : ∀ {n : ℕ}, n ≤ 32 →
    KernelTables L n ((List.range n).foldl (Memory.initPageTable L) m) ∧
      ∀ f j, ¬ KernelFrame L f → (List.range n).foldl (Memory.initPageTable L) m f j = m f j
  | 0, _ => by
    refine ⟨⟨?_, ?_, ?_⟩, fun _ _ _ => rfl⟩
    all_goals
      intro i hi
      exact absurd hi (Nat.not_lt_zero i)
  | n + 1, hn => by
    obtain ⟨htab, hframe⟩ := initPage_rounds m (n := n) (by omega)
    rw [List.range_succ, List.foldl_append, List.foldl_cons, List.foldl_nil]
    refine ⟨htab.initPageTable (by omega), fun f j hf => ?_⟩
    unfold KernelFrame at hf
    rw [initPageTable_apply _ (by omega), if_neg (by omega), if_neg (by omega)]
    exact hframe f j hf

/-- **`init_page` maps the physical memory in order**, at 0 and at `KOFFSET`,
and leaves all other frames alone. -/
theorem KernelTables.initPage (L : Layout) (m : PhysMem) : KernelTables L 32 (initPage L m) ∧
    ∀ f j, ¬ KernelFrame L f → Memory.initPage L m f j = m f j := by
  obtain ⟨htab, hframe⟩ := initPage_rounds (L := L) (m.fillTable (4096 * L.kpdir) (fun _ => 0) nrPte)
    (n := nrKtable) (Nat.le_refl _)
  refine ⟨htab, fun f j hf => (hframe f j hf).trans ?_⟩
  have hne : f ≠ L.kpdir := fun h => hf (.inl h)
  rw [fillTable_apply _ _ _ (by decide), if_neg (by omega)]

theorem tableOf_kcr3 (L : Layout) : tableOf (kcr3 L) = 4096 * L.kpdir := by
  have hkmem := L.kmem
  unfold kcr3
  rw [shiftBack_frameAddr (by omega), tableOf_eq, toNat_frameAddr (by omega)]
  omega

theorem KernelTables.walk_kernel {m : PhysMem} (h : KernelTables L 32 m) {va : Word} (hlo : 3221225472 ≤ va.toNat)
    (hhi : va.toNat < 3355443200) :
    walk m (kcr3 L) va = some (physAddr ((va.toNat - 3221225472) / 4096) va) := by
  have hkmem := L.kmem
  have hpde := h.high ((va.toNat - 3221225472) / 4194304) (by omega)
  have hpte := h.table ((va.toNat - 3221225472) / 4194304) (by omega) (va.toNat / 4096 % 1024) (by omega)
  have hidx : 768 + (va.toNat - 3221225472) / 4194304 = va.toNat / 4194304 := by omega
  have hframe : 1024 * ((va.toNat - 3221225472) / 4194304) + va.toNat / 4096 % 1024 =
      (va.toNat - 3221225472) / 4096 := by omega
  rw [hidx] at hpde
  rw [hframe] at hpte
  exact walk_eq_some (tableOf_kcr3 L) (by omega) (by omega) hpde hpte

end Memory
end NanoOS
