/-
# Segments

`init_segment` fills the `gdt`: code and data of the kernel and of the user, each
from 0 to 4 GB, and the `TSS`. The processor reads a descriptor of 64 bits in its own
way: base and limit are put together from fields that are not side by side.

The structure names bit 53 `operation_size` and bit 54 `pad0`; it is bit 54 that
makes a segment a 32-bit one.

Key definitions: `SegDesc.bits`, `initSegment`, `readDesc`, `logical`.
Key theorems: `readDesc_bits`, `flat_apply`, `setTss_base`, `segments_and_pages`.
-/
import NanoOS.Lib.BitField
import NanoOS.Memory.InitPage

namespace NanoOS
namespace Memory

open BitField

/-- `SegDesc`. -/
structure SegDesc where
  limit15_0 : BitVec 16
  base15_0 : BitVec 16
  base23_16 : BitVec 8
  type : BitVec 4
  segmentType : BitVec 1
  privilegeLevel : BitVec 2
  present : BitVec 1
  limit19_16 : BitVec 4
  softUse : BitVec 1
  operationSize : BitVec 1
  pad0 : BitVec 1
  granularity : BitVec 1
  base31_24 : BitVec 8

/-- The bit fields, as the compiler lays them out. -/
def SegDesc.fields (d : SegDesc) : List (ℕ × ℕ) :=
  [(16, d.limit15_0.toNat), (16, d.base15_0.toNat), (8, d.base23_16.toNat), (4, d.type.toNat),
    (1, d.segmentType.toNat), (2, d.privilegeLevel.toNat), (1, d.present.toNat), (4, d.limit19_16.toNat),
    (1, d.softUse.toNat), (1, d.operationSize.toNat), (1, d.pad0.toNat), (1, d.granularity.toNat),
    (8, d.base31_24.toNat)]

/-- The 64 bits in memory. -/
def SegDesc.bits (d : SegDesc) : ℕ := pack d.fields

/-- `DPL_KERNEL` and `DPL_USER`. -/
def dplKernel : BitVec 2 := 0

def dplUser : BitVec 2 := 3

/-- `SEG_EXECUTABLE`, and `SEG_READABLE` or `SEG_WRITABLE`. -/
def segExecutable : BitVec 4 := 8

def segReadable : BitVec 4 := 2

def segWritable : BitVec 4 := 2

/-- `SEG_KERNEL_CODE`, `SEG_KERNEL_DATA`, `SEG_USER_CODE`, `SEG_USER_DATA`, `SEG_TSS`
and `NR_SEGMENTS`. -/
def segKernelCode : ℕ := 1

def segKernelData : ℕ := 2

def segUserCode : ℕ := 3

def segUserData : ℕ := 4

def segTss : ℕ := 5

def nrSegments : ℕ := 6

/-- `set_segment`. -/
def setSegment (pl : BitVec 2) (type : BitVec 4) : SegDesc where
  limit15_0 := 0xFFFF
  base15_0 := 0x0
  base23_16 := 0x0
  type := type
  segmentType := 1
  privilegeLevel := pl
  present := 1
  limit19_16 := 0xF
  softUse := 0
  operationSize := 0
  pad0 := 1
  granularity := 1
  base31_24 := 0x0

/-- `set_tss`, with the `TSS` at `base`: `sizeof(TSS)` is 100. -/
def setTss (base : Word) : SegDesc :=
  let limit : Word := 100 - 1
  { limit15_0 := (limit &&& 0xffff).setWidth 16
    base15_0 := (base &&& 0xffff).setWidth 16
    base23_16 := ((base >>> 16) &&& 0xff).setWidth 8
    type := 0x9
    segmentType := 0
    privilegeLevel := dplUser
    present := 1
    limit19_16 := (limit >>> 16).setWidth 4
    softUse := 0
    operationSize := 0
    pad0 := 1
    granularity := 0
    base31_24 := (base >>> 24).setWidth 8 }

/-- An entry after `memset`. -/
def SegDesc.zero : SegDesc := ⟨0, 0, 0, 0, 0, 0, 0, 0, 0, 0, 0, 0, 0⟩

/-- `init_segment`: the `gdt`, with the `TSS` at `tss`. -/
def initSegment (tss : Word) (gdt : ℕ → SegDesc) : ℕ → SegDesc :=
  let gdt := fun i => if i < nrSegments then .zero else gdt i
  let gdt := Function.update gdt segKernelCode (setSegment dplKernel (segExecutable ||| segReadable))
  let gdt := Function.update gdt segKernelData (setSegment dplKernel segWritable)
  let gdt := Function.update gdt segUserCode (setSegment dplUser (segExecutable ||| segReadable))
  let gdt := Function.update gdt segUserData (setSegment dplUser segWritable)
  Function.update gdt segTss (setTss tss)

/-- `data` in `write_gdtr` and `write_idtr`. -/
structure Dtr where
  data0 : BitVec 16
  data1 : BitVec 16
  data2 : BitVec 16

/-- `write_gdtr` and `write_idtr`. -/
def writeDtr (addr : Word) (size : ℕ) : Dtr where
  data0 := (BitVec.ofNat 32 size - 1).setWidth 16
  data1 := addr.setWidth 16
  data2 := (addr >>> 16).setWidth 16

/-! ### The processor -/

/-- The last byte of the table. -/
def Dtr.limit (r : Dtr) : ℕ := r.data0.toNat

/-- Where the table is. -/
def Dtr.base (r : Dtr) : ℕ := r.data1.toNat + 2 ^ 16 * r.data2.toNat

/-- What the processor takes from a descriptor. -/
structure Descriptor where
  base : ℕ
  limit : ℕ
  type : ℕ
  codeData : Bool
  dpl : ℕ
  present : Bool
  big : Bool
  deriving DecidableEq

/-- A descriptor is read: with `granularity` the limit counts pages. -/
def readDesc (n : ℕ) : Descriptor :=
  let limit := field 0 16 n + 2 ^ 16 * field 48 4 n
  { base := field 16 24 n + 2 ^ 24 * field 56 8 n
    limit := if field 55 1 n = 1 then 4096 * limit + 4095 else limit
    type := field 40 4 n
    codeData := field 44 1 n = 1
    dpl := field 45 2 n
    present := field 47 1 n = 1
    big := field 54 1 n = 1 }

/-- The linear address of an offset in a segment of code or data. No selector may
ask for the LDT: there is none. -/
def logical (gdtr : Dtr) (gdt : ℕ → SegDesc) (sel : BitVec 16) (off : Word) : Option Word :=
  let i := (sel >>> 3).toNat
  let d := readDesc (gdt i).bits
  if sel.getLsbD 2 = false ∧ i ≠ 0 ∧ 8 * i + 7 ≤ gdtr.limit ∧ d.present ∧ d.codeData ∧ off.toNat ≤ d.limit then
    some (BitVec.ofNat 32 (d.base + off.toNat))
  else none

/-- The physical address. -/
def physical (m : PhysMem) (cr3 : Word) (gdtr : Dtr) (gdt : ℕ → SegDesc) (sel : BitVec 16) (off : Word) :
    Option Word :=
  (logical gdtr gdt sel off).bind (walk m cr3)

/-- **A descriptor as the processor sees it**, by the fields of the structure. -/
theorem readDesc_bits (d : SegDesc) : readDesc d.bits =
    { base := d.base15_0.toNat + 2 ^ 16 * d.base23_16.toNat + 2 ^ 24 * d.base31_24.toNat
      limit := let limit := d.limit15_0.toNat + 2 ^ 16 * d.limit19_16.toNat
        if d.granularity.toNat = 1 then 4096 * limit + 4095 else limit
      type := d.type.toNat
      codeData := d.segmentType.toNat = 1
      dpl := d.privilegeLevel.toNat
      present := d.present.toNat = 1
      big := d.pad0.toNat = 1 } := by
  have hread : ∀ (n : ℕ) {i w : ℕ} (v : BitVec w), width (d.fields.take n) = i →
      (∃ gs, d.fields = d.fields.take n ++ (w, v.toNat) :: gs) → field i w d.bits = v.toNat := by
    rintro n i w v rfl ⟨gs, hsplit⟩
    have hfield := field_pack (d.fields.take n) w v.toNat gs
    rw [← hsplit, Nat.mod_eq_of_lt v.isLt] at hfield
    exact hfield
  have h0 : field 0 16 d.bits = d.limit15_0.toNat := hread 0 d.limit15_0 (by simp [SegDesc.fields, width]) ⟨_, rfl⟩
  have h16 : field 16 16 d.bits = d.base15_0.toNat := hread 1 d.base15_0 (by simp [SegDesc.fields, width]) ⟨_, rfl⟩
  have h32 : field 32 8 d.bits = d.base23_16.toNat := hread 2 d.base23_16 (by simp [SegDesc.fields, width]) ⟨_, rfl⟩
  have h40 : field 40 4 d.bits = d.type.toNat := hread 3 d.type (by simp [SegDesc.fields, width]) ⟨_, rfl⟩
  have h44 : field 44 1 d.bits = d.segmentType.toNat := hread 4 d.segmentType (by simp [SegDesc.fields, width]) ⟨_, rfl⟩
  have h45 : field 45 2 d.bits = d.privilegeLevel.toNat := hread 5 d.privilegeLevel (by simp [SegDesc.fields, width]) ⟨_, rfl⟩
  have h47 : field 47 1 d.bits = d.present.toNat := hread 6 d.present (by simp [SegDesc.fields, width]) ⟨_, rfl⟩
  have h48 : field 48 4 d.bits = d.limit19_16.toNat := hread 7 d.limit19_16 (by simp [SegDesc.fields, width]) ⟨_, rfl⟩
  have h54 : field 54 1 d.bits = d.pad0.toNat := hread 10 d.pad0 (by simp [SegDesc.fields, width]) ⟨_, rfl⟩
  have h55 : field 55 1 d.bits = d.granularity.toNat := hread 11 d.granularity (by simp [SegDesc.fields, width]) ⟨_, rfl⟩
  have h56 : field 56 8 d.bits = d.base31_24.toNat := hread 12 d.base31_24 (by simp [SegDesc.fields, width]) ⟨_, rfl⟩
  have hbase : field 16 24 d.bits = d.base15_0.toNat + 2 ^ 16 * d.base23_16.toNat := by
    rw [show 24 = 16 + 8 from rfl, field_add, h16, h32]
  unfold readDesc
  rw [h0, hbase, h40, h44, h45, h47, h48, h54, h55, h56]

theorem writeDtr_base (addr : Word) (size : ℕ) : (writeDtr addr size).base = addr.toNat := by
  unfold Dtr.base writeDtr
  rw [BitVec.toNat_setWidth, BitVec.toNat_setWidth, toNat_shr]
  have hlt := addr.isLt
  omega

theorem readDesc_setSegment (pl : BitVec 2) (type : BitVec 4) :
    readDesc (setSegment pl type).bits = ⟨0, 4294967295, type.toNat, true, pl.toNat, true, true⟩ := by
  rw [readDesc_bits]
  simp [setSegment]

/-- **The descriptor of the `TSS`** points to it. -/
theorem setTss_base (tss : Word) : readDesc (setTss tss).bits = ⟨tss.toNat, 99, 9, false, 3, true, true⟩ := by
  have hlt := tss.isLt
  have hlow : (tss &&& 0xffff).toNat = tss.toNat % 65536 := toNat_low tss 16 (by decide)
  have hmid : (tss >>> 16 &&& 0xff).toNat = tss.toNat / 65536 % 256 := by
    have hbits : (tss >>> 16 &&& 0xff).toNat = (tss >>> 16).toNat % 256 := toNat_low (tss >>> 16) 8 (by decide)
    rw [hbits, toNat_shr]
    rfl
  have hhigh : (tss >>> 24).toNat = tss.toNat / 16777216 := toNat_shr tss 24
  have hbase : ((setTss tss).base15_0.toNat + 2 ^ 16 * (setTss tss).base23_16.toNat +
      2 ^ 24 * (setTss tss).base31_24.toNat) = tss.toNat := by
    unfold setTss
    dsimp only
    rw [BitVec.toNat_setWidth, BitVec.toNat_setWidth, BitVec.toNat_setWidth, hlow, hmid, hhigh]
    omega
  rw [readDesc_bits, hbase]
  rfl

theorem initSegment_apply (tss : Word) (gdt : ℕ → SegDesc) {i : ℕ} (hi : i < nrSegments) :
    initSegment tss gdt i =
      if i = 0 then .zero else if i = segKernelCode then setSegment dplKernel (segExecutable ||| segReadable)
      else if i = segKernelData then setSegment dplKernel segWritable
      else if i = segUserCode then setSegment dplUser (segExecutable ||| segReadable)
      else if i = segUserData then setSegment dplUser segWritable else setTss tss := by
  unfold nrSegments at hi
  obtain rfl | rfl | rfl | rfl | rfl | rfl : i = 0 ∨ i = 1 ∨ i = 2 ∨ i = 3 ∨ i = 4 ∨ i = 5 := by omega
  all_goals rfl

theorem readDesc_initSegment (tss : Word) (gdt : ℕ → SegDesc) {i : ℕ} (hlo : 1 ≤ i) (hhi : i ≤ 4) :
    ∃ type pl, readDesc (initSegment tss gdt i).bits = ⟨0, 4294967295, type, true, pl, true, true⟩ := by
  rw [initSegment_apply tss gdt (Nat.lt_of_le_of_lt hhi (by decide)), if_neg (Nat.ne_of_gt hlo)]
  obtain rfl | rfl | rfl | rfl : i = 1 ∨ i = 2 ∨ i = 3 ∨ i = 4 := by omega
  all_goals exact ⟨_, _, readDesc_setSegment _ _⟩

/-- **Four segments are the whole address space**, and nothing else is one. -/
theorem flat_apply (tss gdtAddr : Word) (gdt : ℕ → SegDesc) (sel : BitVec 16) (off : Word) :
    logical (writeDtr gdtAddr 48) (initSegment tss gdt) sel off =
      if sel.getLsbD 2 = false ∧ 1 ≤ (sel >>> 3).toNat ∧ (sel >>> 3).toNat ≤ 4 then some off else none := by
  have hoff := off.isLt
  have hlimit : (writeDtr gdtAddr 48).limit = 47 := rfl
  unfold logical
  rw [hlimit]
  dsimp only
  generalize (sel >>> 3).toNat = i
  by_cases hi : 1 ≤ i ∧ i ≤ 4
  · obtain ⟨type, pl, hread⟩ := readDesc_initSegment tss gdt hi.1 hi.2
    have hflat : BitVec.ofNat 32 (0 + off.toNat) = off := by
      rw [Nat.zero_add, BitVec.ofNat_toNat, BitVec.setWidth_eq]
    rw [hread]
    dsimp only
    rw [hflat]
    refine if_congr ⟨fun h => ⟨h.1, hi⟩, fun h => ⟨h.1, ?_⟩⟩ rfl rfl
    exact ⟨by omega, by omega, rfl, rfl, by omega⟩
  · refine Eq.trans (if_neg ?_) (if_neg fun h => hi h.2).symm
    rintro ⟨-, hne, hin, -, hcode, -⟩
    -- what is left below the limit is the `TSS`
    have hidx : i = segTss := by
      unfold segTss
      omega
    have htss : initSegment tss gdt segTss = setTss tss := initSegment_apply tss gdt (by decide)
    rw [hidx, htss, setTss_base] at hcode
    exact Bool.false_ne_true hcode

theorem walk_initPage (L : Layout) (m : PhysMem) (va : Word) :
    walk (initPage L m) (kcr3 L) va =
      if va.toNat < 134217728 then some va
      else if 3221225472 ≤ va.toNat ∧ va.toNat < 3355443200 then some (va - 0xC0000000) else none := by
  have htables := (KernelTables.initPage L m).1
  have hlt := va.isLt
  by_cases hlow : va.toNat < 134217728
  · rw [if_pos hlow]
    exact (htables.maps_twice hlow).1.walk
  rw [if_neg hlow]
  by_cases hhigh : 3221225472 ≤ va.toNat ∧ va.toNat < 3355443200
  · rw [if_pos hhigh]
    have hsub : (va - 0xC0000000).toNat = va.toNat - 3221225472 := by
      rw [BitVec.toNat_sub_of_le hhigh.1]
      rfl
    have hsmall : (va - 0xC0000000).toNat < 134217728 := by omega
    have hmaps := (htables.maps_twice hsmall).2.walk
    rw [BitVec.sub_add_cancel] at hmaps
    exact hmaps
  · rw [if_neg hhigh]
    have hunused : Unused (va.toNat / 4194304) := by
      unfold Unused
      omega
    have hpde := (walk_pde (tableOf_kcr3 L)).trans (initPage_unused L m hunused)
    have hnone : (0 : Word) &&& 1#32 = 0 := rfl
    unfold walk
    dsimp only
    rw [hpde, if_pos hnone]

/-- **Every logical address**, through the segments of `init_segment` and the pages of
`init_page`: a selector of one of the four segments reaches the same physical memory
at its own addresses and from `KOFFSET` on, and nothing else; every other selector
faults. -/
theorem segments_and_pages (L : Layout) (m : PhysMem) (tss gdtAddr : Word) (gdt : ℕ → SegDesc) (sel : BitVec 16)
    (off : Word) :
    physical (initPage L m) (kcr3 L) (writeDtr gdtAddr 48) (initSegment tss gdt) sel off =
      if sel.getLsbD 2 = false ∧ 1 ≤ (sel >>> 3).toNat ∧ (sel >>> 3).toNat ≤ 4 then
        if off.toNat < 134217728 then some off
        else if 3221225472 ≤ off.toNat ∧ off.toNat < 3355443200 then some (off - 0xC0000000) else none
      else none := by
  unfold physical
  rw [flat_apply]
  by_cases hsel : sel.getLsbD 2 = false ∧ 1 ≤ (sel >>> 3).toNat ∧ (sel >>> 3).toNat ≤ 4
  · rw [if_pos hsel, if_pos hsel]
    exact walk_initPage L m off
  · rw [if_neg hsel, if_neg hsel]
    rfl

end Memory
end NanoOS
