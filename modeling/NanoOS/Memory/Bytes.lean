/-
# Bytes in memory

A byte is a quarter of a word of the physical memory. A program reads and
writes bytes at virtual addresses, through the tables that CR3 leads to; an
address that is not mapped is a page fault. The kernel's tables map the
physical memory to itself, so a kernel thread may use a physical address as a
pointer.

Key definitions: `PhysMem.loadByte`, `PhysMem.storeByte`, `readVirt`, `copyTo`,
`zeroTo`.
Key theorems: `loadByte_storeByte`, `KernelTables.walk_low`,
`KernelTables.copyTo`, `KernelTables.copyTo_le`.
-/
import NanoOS.Lib.Image
import NanoOS.Memory.Paging

namespace NanoOS
namespace Memory

open Image

/-- Byte `k` of a word, the lowest one first. -/
def byteOf (w : Word) (k : ℕ) : BitVec 8 := w.extractLsb' (8 * k) 8

/-- Byte `k` of a word is replaced. -/
def setByte (w : Word) (k : ℕ) (x : BitVec 8) : Word :=
  w &&& ~~~(0xff#32 <<< (8 * k)) ||| x.setWidth 32 <<< (8 * k)

namespace PhysMem

/-- The byte at a physical address. -/
def loadByte (m : PhysMem) (a : ℕ) : BitVec 8 := byteOf (m.load a) (a % 4)

/-- A byte is written. -/
def storeByte (a : ℕ) (x : BitVec 8) (m : PhysMem) : PhysMem := m.store a (setByte (m.load a) (a % 4) x)

end PhysMem

/-- `*va`. -/
def readVirt (m : PhysMem) (cr3 va : Word) : Option (BitVec 8) :=
  (walk m cr3 va).map fun pa => m.loadByte pa.toNat

/-- `*va = x`. -/
def writeVirt (cr3 va : Word) (x : BitVec 8) (m : PhysMem) : Option PhysMem :=
  (walk m cr3 va).map fun pa => m.storeByte pa.toNat x

/-- `memcpy` of `data` to `va`: `rep movsb`. -/
def copyTo (cr3 : Word) : Word → List (BitVec 8) → PhysMem → Option PhysMem
  | _, [], m => some m
  | va, x :: data, m => (writeVirt cr3 va x m).bind (copyTo cr3 (va + 1) data)

/-- `for (i = va; i < end; *i ++ = 0);`. The pointer comes to `end` after
`end - va` rounds. -/
def zeroTo (cr3 va stop : Word) : PhysMem → Option PhysMem :=
  copyTo cr3 va (List.replicate (stop.toNat - va.toNat) 0)

/-! ### Bytes of words -/

theorem getLsbD_ff (i : ℕ) : (0xff#32).getLsbD i = decide (i < 8) := by
  have hpow : (0xff#32) = BitVec.ofNat 32 (2 ^ 8 - 1) := rfl
  rw [hpow, BitVec.getLsbD_ofNat, Nat.testBit_two_pow_sub_one]
  by_cases hi : i < 8
  · simp [hi]
    omega
  · simp [hi]

theorem byteOf_setByte (w : Word) (x : BitVec 8) {j k : ℕ} (hj : j < 4) (hk : k < 4) :
    byteOf (setByte w k x) j = if j = k then x else byteOf w j := by
  unfold byteOf setByte
  apply BitVec.eq_of_getLsbD_eq
  intro i hi
  have hbit : 8 * j + i < 32 := by omega
  simp only [BitVec.getLsbD_extractLsb', hi, decide_true, Bool.true_and, BitVec.getLsbD_or, BitVec.getLsbD_and,
    BitVec.getLsbD_not, BitVec.getLsbD_shiftLeft, BitVec.getLsbD_setWidth, getLsbD_ff]
  rcases Nat.lt_trichotomy j k with hjk | rfl | hjk
  · have hlow : 8 * j + i < 8 * k := by omega
    rw [if_neg (by omega)]
    simp [hlow, hbit, hi]
  · have hlow : ¬ 8 * j + i < 8 * j := by omega
    have hi' : i < 32 := by omega
    simp [hlow, hbit, hi, hi']
  · have hlow : ¬ 8 * j + i < 8 * k := by omega
    have hhigh : ¬ 8 * j + i - 8 * k < 8 := by omega
    have hle : 8 ≤ 8 * j + i - 8 * k := by omega
    rw [if_neg (by omega)]
    simp [hlow, hhigh, hle, hbit, hi]

/-- Writing a byte leaves all others alone. -/
theorem loadByte_storeByte (m : PhysMem) (a b : ℕ) (x : BitVec 8) :
    (m.storeByte a x).loadByte b = if b = a then x else m.loadByte b := by
  unfold PhysMem.storeByte PhysMem.loadByte PhysMem.store PhysMem.load
  dsimp only
  by_cases hword : b / 4096 = a / 4096 ∧ b % 4096 / 4 = a % 4096 / 4
  · rw [if_pos hword, byteOf_setByte _ _ (by omega) (by omega), hword.1, hword.2]
    by_cases hb : b = a
    · rw [hb, if_pos rfl, if_pos rfl]
    · rw [if_neg (by omega), if_neg hb]
  · rw [if_neg hword, if_neg (by omega)]

theorem storeByte_frame (m : PhysMem) {a f : ℕ} (x : BitVec 8) (i : ℕ) (hf : f ≠ a / 4096) :
    m.storeByte a x f i = m f i := by
  unfold PhysMem.storeByte PhysMem.store
  exact if_neg fun h => hf h.1

/-! ### Physical addresses as pointers -/

variable {L : Layout} {m : PhysMem}

/-- The kernel's tables map the physical memory to itself. -/
theorem KernelTables.walk_low (h : KernelTables L 32 m) {va : Word} (hva : va.toNat < 134217728) :
    walk m (kcr3 L) va = some va := by
  have hkmem := L.kmem
  have hpde := h.low (va.toNat / 4194304) (by omega)
  have hpte := h.table (va.toNat / 4194304) (by omega) (va.toNat / 4096 % 1024) (by omega)
  have hframe : 1024 * (va.toNat / 4194304) + va.toNat / 4096 % 1024 = va.toNat / 4096 := by omega
  rw [hframe] at hpte
  rw [walk_eq_some (tableOf_kcr3 L) (by omega) (by omega) hpde hpte]
  congr 1
  apply BitVec.eq_of_toNat_eq
  rw [toNat_physAddr (by omega)]
  omega

theorem KernelTables.storeByte (h : KernelTables L 32 m) {a : ℕ} (ha : 16777216 ≤ a) (x : BitVec 8) :
    KernelTables L 32 (m.storeByte a x) := by
  have hkmem := L.kmem
  refine h.congr fun f i hf => storeByte_frame m x i ?_
  unfold KernelFrame at hf
  omega

/-- The kernel copies to the physical memory above itself. -/
theorem KernelTables.copyTo {p : Word} {data : List (BitVec 8)} (h : KernelTables L 32 m) (hlo : 16777216 ≤ p.toNat)
    (hhi : p.toNat + data.length ≤ 134217728) : ∃ m' : PhysMem, Memory.copyTo (kcr3 L) p data m = some m' ∧
      m'.loadByte = blit p.toNat data.length (fun j => data.getD j 0) m.loadByte ∧
      ∀ f i, f < 4096 → m' f i = m f i := by
  induction data generalizing p m with
  | nil =>
    refine ⟨m, rfl, ?_, fun _ _ _ => rfl⟩
    rw [List.length_nil, blit_zero]
  | cons x data ih =>
    rw [List.length_cons] at hhi
    have hsucc : (p + 1).toNat = p.toNat + 1 := by
      have hone : (1 : Word).toNat = 1 := rfl
      rw [BitVec.toNat_add, hone]
      exact Nat.mod_eq_of_lt (by omega)
    obtain ⟨m', heq, hbytes, hframe⟩ := ih (p := p + 1) (h.storeByte hlo x) (by omega) (by omega)
    refine ⟨m', ?_, ?_, fun f i hf => ?_⟩
    · unfold Memory.copyTo writeVirt
      rw [h.walk_low (by omega)]
      exact heq
    · rw [hbytes, hsucc, List.length_cons]
      funext b
      unfold blit
      rw [loadByte_storeByte]
      by_cases hfirst : b = p.toNat
      · rw [if_neg (by omega), if_pos hfirst, if_pos (by omega), hfirst, Nat.sub_self]
        rfl
      · by_cases hin : p.toNat ≤ b ∧ b < p.toNat + (data.length + 1)
        · have hidx : b - p.toNat = b - (p.toNat + 1) + 1 := by omega
          rw [if_pos (by omega), if_pos hin, hidx]
          rfl
        · rw [if_neg (by omega), if_neg hfirst, if_neg hin]
    · rw [hframe f i hf]
      exact storeByte_frame m x i (by omega)

/-- A copy through the kernel's tables ends in the physical memory, or in a page
fault: behind it nothing is mapped. -/
theorem KernelTables.copyTo_le {p : Word} {data : List (BitVec 8)} {m' : PhysMem} (h : KernelTables L 32 m)
    (hend : m L.kpdir 32 = 0) (hlo : 16777216 ≤ p.toNat) (hhi : p.toNat ≤ 134217728)
    (hs : Memory.copyTo (kcr3 L) p data m = some m') : p.toNat + data.length ≤ 134217728 := by
  induction data generalizing p m with
  | nil => exact hhi
  | cons x data ih =>
    have hkmem := L.kmem
    unfold Memory.copyTo writeVirt at hs
    rw [Option.bind_eq_some_iff] at hs
    obtain ⟨m1, hm1, hs⟩ := hs
    rcases Nat.lt_or_eq_of_le hhi with hlt | heq
    · rw [h.walk_low hlt, Option.map_some, Option.some.injEq] at hm1
      subst hm1
      have hsucc : (p + 1).toNat = p.toNat + 1 := by
        have hone : (1 : Word).toNat = 1 := rfl
        rw [BitVec.toNat_add, hone]
        exact Nat.mod_eq_of_lt (by omega)
      have hend' : m.storeByte p.toNat x L.kpdir 32 = 0 := (storeByte_frame m x 32 (by omega)).trans hend
      have hle := ih (h.storeByte hlo x) hend' (by omega) (by omega) hs
      rw [List.length_cons]
      omega
    · have hpde : m.load (tableOf (kcr3 L) + 4 * (p >>> 22).toNat) = 0 := by
        rw [walk_pde (tableOf_kcr3 L), heq]
        exact hend
      have hwalk : walk m (kcr3 L) p = none := by
        unfold walk
        rw [hpde]
        rfl
      rw [hwalk] at hm1
      cases hm1

end Memory
end NanoOS
