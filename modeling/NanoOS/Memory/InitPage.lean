/-
# What `init_page` maps

`init_page` clears the page directory, and then fills the page tables in order
and enters each of them twice. Every physical address has two virtual ones, and
no other virtual address has a page table.

Key definitions: `pdeOf`, `pteOf`, `Maps`.
Key theorems: `initPage_unused`, `init_page_maps`.
-/
import NanoOS.Memory.Bytes

namespace NanoOS
namespace Memory

/-- The entry of the page directory that an address selects. -/
def pdeOf (m : PhysMem) (cr3 va : Word) : Word := m.load (tableOf cr3 + 4 * (va >>> 22).toNat)

/-- The entry of the page table that an address selects. -/
def pteOf (m : PhysMem) (cr3 va : Word) : Word := m.load (tableOf (pdeOf m cr3 va) + 4 * (va >>> 12 &&& 0x3ff#32).toNat)

/-- `present`, `read_write` and `user_supervisor` are set. -/
def Accessible (x : Word) : Prop := x &&& 7#32 = 7#32

/-- `va` is mapped to `pa`, and everybody may read and write there. -/
structure Maps (m : PhysMem) (cr3 va pa : Word) : Prop where
  walk : walk m cr3 va = some pa
  pde : Accessible (pdeOf m cr3 va)
  pte : Accessible (pteOf m cr3 va)

theorem accessible_entry {f : ℕ} (hf : f < 1048576) : Accessible (entry f) := by
  have hlow := toNat_low (entry f) 3 (by decide)
  apply BitVec.eq_of_toNat_eq
  apply hlow.trans
  rw [toNat_entry hf]
  show (4096 * f + 7) % 8 = 7
  omega

variable {L : Layout} {m : PhysMem}

/-- A virtual address whose two entries are those of page table `i` and frame
`1024 * i + j`. -/
theorem KernelTables.maps (h : KernelTables L 32 m) {va : Word} {i j : ℕ} (hi : i < 32) (hj : j < 1024)
    (hpde : m L.kpdir (va.toNat / 4194304) = entry (L.kptable + i)) (hidx : va.toNat / 4096 % 1024 = j) :
    Maps m (kcr3 L) va (physAddr (1024 * i + j) va) := by
  have hkmem := L.kmem
  have hpte : m (L.kptable + i) (va.toNat / 4096 % 1024) = entry (1024 * i + j) := hidx ▸ h.table i hi j hj
  have hpdeOf : pdeOf m (kcr3 L) va = entry (L.kptable + i) := (walk_pde (tableOf_kcr3 L)).trans hpde
  refine ⟨walk_eq_some (tableOf_kcr3 L) (by omega) (by omega) hpde hpte, ?_, ?_⟩
  · rw [hpdeOf]
    exact accessible_entry (by omega)
  · unfold pteOf
    rw [hpdeOf, walk_pte (by omega), hpte]
    exact accessible_entry (by omega)

theorem KernelTables.maps_twice (h : KernelTables L 32 m) {pa : Word} (hpa : pa.toNat < 134217728) :
    Maps m (kcr3 L) pa pa ∧ Maps m (kcr3 L) (pa + 0xC0000000) pa := by
  have hsum : (pa + 0xC0000000).toNat = pa.toNat + 3221225472 := by
    have hk : (0xC0000000 : Word).toNat = 3221225472 := rfl
    rw [BitVec.toNat_add, hk]
    exact Nat.mod_eq_of_lt (by omega)
  have hphys : ∀ va : Word, va.toNat % 4096 = pa.toNat % 4096 →
      physAddr (1024 * (pa.toNat / 4194304) + pa.toNat / 4096 % 1024) va = pa := by
    intro va hva
    apply BitVec.eq_of_toNat_eq
    rw [toNat_physAddr (by omega), hva]
    omega
  have hlow : m L.kpdir (pa.toNat / 4194304) = entry (L.kptable + pa.toNat / 4194304) := h.low _ (by omega)
  have hhigh : m L.kpdir ((pa + 0xC0000000).toNat / 4194304) = entry (L.kptable + pa.toNat / 4194304) := by
    have hidx : (pa + 0xC0000000).toNat / 4194304 = 768 + pa.toNat / 4194304 := by omega
    rw [hidx]
    exact h.high _ (by omega)
  constructor
  · have hmaps := h.maps (by omega) (by omega) hlow rfl
    rw [hphys pa rfl] at hmaps
    exact hmaps
  · have hmaps := h.maps (j := pa.toNat / 4096 % 1024) (by omega) (by omega) hhigh (by omega)
    rw [hphys _ (by omega)] at hmaps
    exact hmaps

/-! ### What is left empty -/

/-- The entries of the page directory that no page table is entered at. -/
def Unused (i : ℕ) : Prop := 32 ≤ i ∧ i < 768 ∨ 800 ≤ i ∧ i < 1024

theorem rounds_unused (m : PhysMem) {i : ℕ} (hi : Unused i) : ∀ {n : ℕ}, n ≤ 32 →
    (List.range n).foldl (initPageTable L) m L.kpdir i = m L.kpdir i
  | 0, _ => rfl
  | n + 1, hn => by
    have hsep := L.kpdir_kptable
    unfold Unused at hi
    rw [List.range_succ, List.foldl_append, List.foldl_cons, List.foldl_nil, initPageTable_apply _ (by omega),
      if_neg (by omega), if_neg (by omega)]
    exact rounds_unused m hi (by omega)

theorem initPage_unused (L : Layout) (m : PhysMem) {i : ℕ} (hi : Unused i) : initPage L m L.kpdir i = 0 := by
  unfold initPage nrKtable nrPte
  rw [rounds_unused _ hi (Nat.le_refl _), fillTable_apply _ _ _ (Nat.le_refl _), if_pos]
  unfold Unused at hi
  omega

theorem rounds_beyond (m : PhysMem) (f : ℕ) {i : ℕ} (hi : 1024 ≤ i) : ∀ {n : ℕ}, n ≤ 32 →
    (List.range n).foldl (initPageTable L) m f i = m f i
  | 0, _ => rfl
  | n + 1, hn => by
    rw [List.range_succ, List.foldl_append, List.foldl_cons, List.foldl_nil, initPageTable_apply _ (by omega),
      if_neg (by omega), if_neg (by omega)]
    exact rounds_beyond m f hi (by omega)

/-- An entry of `kpdir` or of `kptable`. -/
def IsEntry (L : Layout) (f i : ℕ) : Prop := KernelFrame L f ∧ i < 1024

theorem initPage_other (L : Layout) (m : PhysMem) {f i : ℕ} (h : ¬ IsEntry L f i) : initPage L m f i = m f i := by
  unfold IsEntry at h
  by_cases hf : KernelFrame L f
  · have hi : 1024 ≤ i := Nat.le_of_not_lt fun hi => h ⟨hf, hi⟩
    unfold initPage nrKtable nrPte
    rw [rounds_beyond _ _ hi (Nat.le_refl _), fillTable_apply _ _ _ (Nat.le_refl _), if_neg]
    omega
  · exact (KernelTables.initPage L m).2 f i hf

/-- **The kernel's address space.** After `init_page` a physical address `pa`
below 128 MB is mapped at `pa` and at `pa + KOFFSET`, readable and writable for
everybody; at every other virtual address the entry of the page directory is
not present; and only the entries of `kpdir` and `kptable` have been
written. -/
theorem init_page_maps (L : Layout) (m : PhysMem) :
    (∀ pa : Word, pa.toNat < 134217728 → Maps (initPage L m) (kcr3 L) pa pa ∧
      Maps (initPage L m) (kcr3 L) (pa + 0xC0000000) pa) ∧
    (∀ va : Word, (∀ pa : Word, pa.toNat < 134217728 → va ≠ pa ∧ va ≠ pa + 0xC0000000) →
      pdeOf (initPage L m) (kcr3 L) va &&& 1#32 = 0) ∧
    ∀ f i, ¬ IsEntry L f i → initPage L m f i = m f i := by
  refine ⟨fun pa hpa => (KernelTables.initPage L m).1.maps_twice hpa, fun va hva => ?_,
    fun f i h => initPage_other L m h⟩
  have hlt := va.isLt
  have hunused : Unused (va.toNat / 4194304) := by
    have hlow : ¬ va.toNat < 134217728 := fun h => (hva va h).1 rfl
    have hhigh : ¬ (3221225472 ≤ va.toNat ∧ va.toNat < 3355443200) := by
      rintro ⟨hle, hlt⟩
      have hsub : (va - 0xC0000000).toNat = va.toNat - 3221225472 := by
        rw [BitVec.toNat_sub_of_le hle]
        rfl
      exact (hva (va - 0xC0000000) (by omega)).2 (BitVec.sub_add_cancel _ _).symm
    unfold Unused
    omega
  have hpde : pdeOf (initPage L m) (kcr3 L) va = 0 :=
    (walk_pde (tableOf_kcr3 L)).trans (initPage_unused L m hunused)
  rw [hpde]
  rfl

end Memory
end NanoOS
