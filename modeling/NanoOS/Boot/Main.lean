/-
# The boot loader

`bootmain` reads the first 4096 bytes of the ELF file behind the boot sector to
0x8000, and loads the segments that its program headers describe. It reads whole
sectors, so it also writes before and behind the bytes that it wants.

The disk is the controller's registers and the bytes of its sectors; `waitdisk`
returns when the controller is ready, which it then is. The loader's own code
and stack are not in the memory that is modelled. The loop of `readseg` has
fuel for all sectors below 2^32: it lasts longer only if the pointer wraps.

Key definitions: `readsect`, `readseg`, `bootmain`.
Key theorems: `readsect_spec`, `readseg_blit`, `readseg_range`.
-/
import NanoOS.Lib.Numeral
import NanoOS.Memory.Bytes
import NanoOS.Service.Pm

namespace NanoOS
namespace Boot

open Memory Image Pm

/-- The memory. -/
abbrev Mem := ℕ → BitVec 8

/-- The registers of the disk controller at 0x1F2 to 0x1F6, and the transfer
that is going on: its sector, and how many words have been fetched. -/
structure Controller where
  count : BitVec 8
  lba0 : BitVec 8
  lba8 : BitVec 8
  lba16 : BitVec 8
  lba24 : BitVec 8
  sector : ℕ
  fetched : ℕ

/-- The memory and the disk controller. -/
structure Machine where
  mem : Mem
  ide : Controller

/-- `KOFFSET`. -/
def koffset : Word := 0xC0000000

/-! ### The disk -/

/-- The sector number in the registers: 28 bits. -/
def Controller.lba (c : Controller) : ℕ :=
  c.lba0.toNat + 256 * c.lba8.toNat + 65536 * c.lba16.toNat + 16777216 * (c.lba24 &&& 0x0f#8).toNat

/-- `out_byte`. Writing 0x20 to 0x1F7 starts to read. -/
def outByte (port : ℕ) (data : BitVec 8) (c : Controller) : Controller :=
  match port with
  | 0x1F2 => { c with count := data }
  | 0x1F3 => { c with lba0 := data }
  | 0x1F4 => { c with lba8 := data }
  | 0x1F5 => { c with lba16 := data }
  | 0x1F6 => { c with lba24 := data }
  | 0x1F7 => if data = 0x20#8 then { c with sector := c.lba, fetched := 0 } else c
  | _ => c

/-- `in_long(0x1F0)`: the next word of the sector. -/
def inLong (image : ℕ → BitVec 8) (c : Controller) : Word × Controller :=
  (u32At image (512 * c.sector + 4 * c.fetched), { c with fetched := c.fetched + 1 })

/-! ### The loader -/

/-- `*(int *)p = x`. -/
def storeInt (p x : Word) (m : Mem) : Mem :=
  (List.range 4).foldl (fun m k => Function.update m (p + BitVec.ofNat 32 k).toNat (byteOf x k)) m

/-- `readsect`. -/
def readsect (image : ℕ → BitVec 8) (dst offset : Word) (s : Machine) : Machine :=
  let c := outByte 0x1F2 1 s.ide
  let c := outByte 0x1F3 (offset.setWidth 8) c
  let c := outByte 0x1F4 ((offset.sshiftRight 8).setWidth 8) c
  let c := outByte 0x1F5 ((offset.sshiftRight 16).setWidth 8) c
  let c := outByte 0x1F6 ((offset.sshiftRight 24 ||| 0xE0).setWidth 8) c
  let c := outByte 0x1F7 0x20 c
  (List.range 128).foldl (fun s i =>
    let (x, c) := inLong image s.ide
    ⟨storeInt (dst + BitVec.ofNat 32 (4 * i)) x s.mem, c⟩) ⟨s.mem, c⟩

/-- `for (; pa < epa; pa += SECTSIZE, offset ++) readsect(pa, offset);`. -/
def readLoop (image : ℕ → BitVec 8) (epa : Word) : ℕ → Word → Word → Machine → Option Machine
  | 0, _, _, _ => none
  | n + 1, pa, offset, s =>
    if pa < epa then readLoop image epa n (pa + 512) (offset + 1) (readsect image pa offset s) else some s

/-- `readseg`. -/
def readseg (image : ℕ → BitVec 8) (pa count offset : Word) (s : Machine) : Option Machine :=
  readLoop image (pa + count) 8388609 (pa - offset.srem 512) (offset.sdiv 512 + 1) s

/-- The fields of `struct ProgramHeader` that are used. -/
structure SegmentHeader where
  off : Word
  paddr : Word
  filesz : Word
  memsz : Word

/-- The bytes from `p` on. -/
def bytesAt (p : Word) (m : Mem) : ℕ → BitVec 8 := fun a => m ((p.toNat + a) % 4294967296)

/-- `*ph`. -/
def segmentHeader (b : ℕ → BitVec 8) : SegmentHeader := ⟨u32At b 4, u32At b 12, u32At b 16, u32At b 20⟩

theorem pointer_decreases {i hi : Word} (h : i < hi) : 4294967296 - (i + 1).toNat < 4294967296 - i.toNat := by
  have hlt : i.toNat < hi.toNat := h
  have hhi := hi.isLt
  have hsucc : (i + 1).toNat = (i.toNat + 1) % 4294967296 := BitVec.toNat_add i 1
  omega

/-- `for (; i < pa + ph->memsz; *i ++ = 0);`. The bound is read in every round. -/
def zeroLoop (ph pa i : Word) (m : Mem) : Mem :=
  if h : i < pa + (segmentHeader (bytesAt ph m)).memsz then
    zeroLoop ph pa (i + 1) (Function.update m i.toNat 0)
  else m
termination_by 4294967296 - i.toNat
decreasing_by exact pointer_decreases h

/-- One round of the loop of `bootmain`. The loop that writes zeros finds `ph->filesz` as
`readseg` has left it. -/
def loadSegment (image : ℕ → BitVec 8) (ph : Word) (s : Machine) : Option Machine := do
  let h := segmentHeader (bytesAt ph s.mem)
  let pa := h.paddr - koffset
  let s ← readseg image pa h.filesz h.off s
  return { s with mem := zeroLoop ph pa (pa + (segmentHeader (bytesAt ph s.mem)).filesz) s.mem }

/-- `bootmain`, up to the jump: where it jumps to, and the machine then. The
pointer `ph` runs from `elf + phoff` to `eph` in steps of 32. -/
def bootmain (image : ℕ → BitVec 8) (s : Machine) : Option (Word × Machine) := do
  let elf : Word := 0x8000
  let s ← readseg image elf 4096 0 s
  let ph := elf + BitVec.ofNat 32 (phoff (bytesAt elf s.mem))
  let eph := ph + BitVec.ofNat 32 (32 * phnum (bytesAt elf s.mem))
  let s ← (List.range ((eph.toNat - ph.toNat) / 32)).foldlM (fun s e =>
    loadSegment image (ph + BitVec.ofNat 32 (32 * e)) s) s
  return (entryPoint (bytesAt elf s.mem) - koffset, s)

/-! ### Sectors -/

theorem toNat_add_ofNat {p : Word} {k : ℕ} (h : p.toNat + k < 4294967296) :
    (p + BitVec.ofNat 32 k).toNat = p.toNat + k := by
  rw [BitVec.toNat_add, BitVec.toNat_ofNat, Nat.mod_eq_of_lt (by omega : k < _)]
  exact Nat.mod_eq_of_lt h

theorem foldl_update (p : Word) (g : ℕ → BitVec 8) (m : Mem) : ∀ {n : ℕ}, p.toNat + n ≤ 4294967296 →
    (List.range n).foldl (fun m k => Function.update m (p + BitVec.ofNat 32 k).toNat (g k)) m = blit p.toNat n g m
  | 0, _ => (blit_zero _ _ _).symm
  | n + 1, hn => by
    rw [List.range_succ, List.foldl_append, foldl_update p g m (by omega), blit_succ, List.foldl_cons, List.foldl_nil,
      toNat_add_ofNat (by omega)]

theorem byteOf_u32At (b : ℕ → BitVec 8) (a : ℕ) {k : ℕ} (hk : k < 4) : byteOf (u32At b a) k = b (a + k) := by
  have h0 := (b a).isLt
  have h1 := (b (a + 1)).isLt
  have h2 := (b (a + 2)).isLt
  have h3 := (b (a + 2 + 1)).isLt
  have hword : (u32At b a).toNat = (b a).toNat + 256 * (b (a + 1)).toNat +
      65536 * ((b (a + 2)).toNat + 256 * (b (a + 2 + 1)).toNat) := by
    unfold u32At u16At
    rw [BitVec.toNat_ofNat]
    exact Nat.mod_eq_of_lt (by omega)
  apply BitVec.eq_of_toNat_eq
  unfold byteOf
  rw [BitVec.extractLsb'_toNat, hword, Nat.shiftRight_eq_div_pow]
  rcases (by omega : k = 0 ∨ k = 1 ∨ k = 2 ∨ k = 3) with rfl | rfl | rfl | rfl
  · show _ / 1 % 256 = (b a).toNat
    omega
  · show _ / 256 % 256 = _
    omega
  · show _ / 65536 % 256 = _
    omega
  · show _ / 16777216 % 256 = (b (a + 2 + 1)).toNat
    omega

theorem lba_eq {offset : Word} (h : offset.toNat < 268435456) (count : BitVec 8) (sector fetched : ℕ) :
    (⟨count, offset.setWidth 8, (offset.sshiftRight 8).setWidth 8, (offset.sshiftRight 16).setWidth 8,
      (offset.sshiftRight 24 ||| 0xE0).setWidth 8, sector, fetched⟩ : Controller).lba = offset.toNat := by
  have hmsb : offset.msb = false := BitVec.msb_eq_false_iff_two_mul_lt.mpr (by omega)
  have hbyte : ∀ k, ((offset.sshiftRight k).setWidth 8).toNat = offset.toNat / 2 ^ k % 256 := by
    intro k
    rw [BitVec.toNat_setWidth, BitVec.sshiftRight_eq_of_msb_false hmsb, toNat_shr]
  have hdrive : ∀ y : BitVec 8, (y ||| 0xE0#8) &&& 0x0f#8 = y &&& 0x0f#8 := by decide
  have hlow : ∀ y : BitVec 8, (y &&& 0x0f#8).toNat = y.toNat % 16 := by decide
  have hlast : ((offset.sshiftRight 24 ||| 0xE0).setWidth 8 &&& 0x0f#8).toNat = offset.toNat / 2 ^ 24 % 256 % 16 := by
    rw [BitVec.setWidth_or, show BitVec.setWidth 8 (0xE0 : Word) = 0xE0#8 from rfl, hdrive, hlow, hbyte]
  unfold Controller.lba
  dsimp only
  rw [hlast, hbyte, hbyte, BitVec.toNat_setWidth]
  omega

theorem fetch_rounds (image : ℕ → BitVec 8) {dst : Word} (hdst : dst.toNat + 512 ≤ 4294967296) (m : Mem)
    (c : Controller) (hc : c.fetched = 0) : ∀ {n : ℕ}, n ≤ 128 →
    (List.range n).foldl (fun s i => ⟨storeInt (dst + BitVec.ofNat 32 (4 * i)) (inLong image s.ide).1 s.mem,
      (inLong image s.ide).2⟩) (⟨m, c⟩ : Machine) =
    ⟨blit dst.toNat (4 * n) (fun j => image (512 * c.sector + j)) m, { c with fetched := n }⟩
  | 0, _ => by
    rw [List.range_zero, List.foldl_nil, Nat.mul_zero, blit_zero, ← hc]
  | n + 1, hn => by
    rw [List.range_succ, List.foldl_append, fetch_rounds image hdst m c hc (by omega), List.foldl_cons, List.foldl_nil]
    have hp : (dst + BitVec.ofNat 32 (4 * n)).toNat = dst.toNat + 4 * n := toNat_add_ofNat (by omega)
    have hword : blit (dst.toNat + 4 * n) 4 (byteOf (u32At image (512 * c.sector + 4 * n)))
        (blit dst.toNat (4 * n) (fun j => image (512 * c.sector + j)) m) =
        blit dst.toNat (4 * n + 4) (fun j => image (512 * c.sector + j)) m := by
      rw [← blit_append]
      apply blit_congr _
      intro j hj
      rw [byteOf_u32At image _ hj, Nat.add_assoc]
    unfold inLong storeInt
    dsimp only
    rw [foldl_update _ _ _ (by omega), hp, hword]
    rfl

/-- **One sector**: 512 bytes of the disk. -/
theorem readsect_spec (image : ℕ → BitVec 8) {dst offset : Word} (hdst : dst.toNat + 512 ≤ 4294967296)
    (hoff : offset.toNat < 268435456) (s : Machine) :
    (readsect image dst offset s).mem = blit dst.toNat 512 (fun j => image (512 * offset.toNat + j)) s.mem := by
  have hlba : (outByte 0x1F6 ((offset.sshiftRight 24 ||| 0xE0).setWidth 8) (outByte 0x1F5
      ((offset.sshiftRight 16).setWidth 8) (outByte 0x1F4 ((offset.sshiftRight 8).setWidth 8) (outByte 0x1F3
        (offset.setWidth 8) (outByte 0x1F2 1 s.ide))))).lba = offset.toNat :=
    lba_eq hoff 1 s.ide.sector s.ide.fetched
  unfold readsect
  dsimp only
  rw [fetch_rounds image hdst _ _ rfl (Nat.le_refl _), ← hlba]
  rfl

/-! ### Segments -/

theorem readLoop_spec (image : ℕ → BitVec 8) (epa : Word) : ∀ (fuel r : ℕ) (pa offset : Word) (s : Machine),
    r = (epa.toNat - pa.toNat + 511) / 512 → r < fuel → pa.toNat + 512 * r < 4294967296 →
    offset.toNat + r ≤ 268435456 → ∃ s', readLoop image epa fuel pa offset s = some s' ∧
      s'.mem = blit pa.toNat (512 * r) (fun j => image (512 * offset.toNat + j)) s.mem
  | 0, _, _, _, _, _, hfuel, _, _ => absurd hfuel (Nat.not_lt_zero _)
  | fuel + 1, r, pa, offset, s, hr, hfuel, hwrap, hlba => by
    unfold readLoop
    by_cases hlt : pa < epa
    · have hlt' : pa.toNat < epa.toNat := hlt
      have hpa : (pa + 512).toNat = pa.toNat + 512 := toNat_add_ofNat (p := pa) (k := 512) (by omega)
      have hoff : (offset + 1).toNat = offset.toNat + 1 := toNat_add_ofNat (p := offset) (k := 1) (by omega)
      obtain ⟨s', heq, hmem⟩ := readLoop_spec image epa fuel (r - 1) (pa + 512) (offset + 1)
        (readsect image pa offset s) (by omega) (by omega) (by omega) (by omega)
      refine ⟨s', (if_pos hlt).trans heq, ?_⟩
      have hfirst := @readsect_spec image pa offset (by omega) (by omega) s
      have hjoin := blit_append pa.toNat 512 (512 * (r - 1)) (fun j => image (512 * offset.toNat + j)) s.mem
      have hsum : 512 + 512 * (r - 1) = 512 * r := by omega
      rw [hsum] at hjoin
      rw [hmem, hfirst, hpa, hoff, ← hjoin]
      apply blit_congr _
      intro j _
      have hidx : 512 * (offset.toNat + 1) + j = 512 * offset.toNat + (512 + j) := by omega
      exact congrArg image hidx
    · have hle : epa.toNat ≤ pa.toNat := Nat.le_of_not_lt hlt
      have hr0 : r = 0 := by omega
      refine ⟨s, if_neg hlt, ?_⟩
      rw [hr0, Nat.mul_zero, blit_zero]

/-- The number of sectors of `count` bytes from `pa` on. -/
def sectors (pa count : ℕ) : ℕ := (pa % 512 + count + 511) / 512

/-- `readseg` goes back to where the sector of `offset` starts, and reads whole
sectors from there. -/
theorem readseg_blit (image : ℕ → BitVec 8) {pa count offset : Word} (hoff : offset.toNat < 2147483648)
    (hcount : count.toNat < 2147483648) (hback : offset.toNat % 512 ≤ pa.toNat)
    (hwrap : pa.toNat - offset.toNat % 512 + 512 * sectors offset.toNat count.toNat < 4294967296) (s : Machine) :
    ∃ s', readseg image pa count offset s = some s' ∧
      s'.mem = blit (pa.toNat - offset.toNat % 512) (512 * sectors offset.toNat count.toNat)
        (fun j => image (512 + (offset.toNat - offset.toNat % 512 + j))) s.mem := by
  have hmsb : offset.msb = false := BitVec.msb_eq_false_iff_two_mul_lt.mpr (by omega)
  have hrem : (offset.srem 512).toNat = offset.toNat % 512 := Numeral.toNat_srem hmsb (by decide)
  have hdiv : (offset.sdiv 512).toNat = offset.toNat / 512 := Numeral.toNat_sdiv hmsb (by decide)
  have hstart : (pa - offset.srem 512).toNat = pa.toNat - offset.toNat % 512 := by
    rw [BitVec.toNat_sub_of_le (show (offset.srem 512).toNat ≤ pa.toNat by omega), hrem]
  have hsector : (offset.sdiv 512 + 1).toNat = offset.toNat / 512 + 1 := by
    have hadd : (offset.sdiv 512 + 1).toNat = (offset.sdiv 512).toNat + 1 :=
      toNat_add_ofNat (p := offset.sdiv 512) (k := 1) (by omega)
    rw [hadd, hdiv]
  have hend : (pa + count).toNat = pa.toNat + count.toNat := by
    rw [BitVec.toNat_add]
    apply Nat.mod_eq_of_lt
    unfold sectors at hwrap
    omega
  have hrounds : sectors offset.toNat count.toNat =
      ((pa + count).toNat - (pa - offset.srem 512).toNat + 511) / 512 := by
    unfold sectors
    rw [hend, hstart]
    omega
  obtain ⟨s', heq, hmem⟩ := readLoop_spec image (pa + count) 8388609 _ (pa - offset.srem 512) (offset.sdiv 512 + 1) s
    hrounds (by omega) (by omega) (by rw [hsector]; unfold sectors; omega)
  refine ⟨s', heq, ?_⟩
  rw [hmem, hstart, hsector]
  apply blit_congr _
  intro j _
  have hidx : 512 * (offset.toNat / 512 + 1) + j = 512 + (offset.toNat - offset.toNat % 512 + j) := by omega
  exact congrArg image hidx

/-- **A range of the file**, with whole sectors: from the start of the sector in
which it begins. -/
theorem readseg_spec (image : ℕ → BitVec 8) {pa count offset : Word} (hoff : offset.toNat < 2147483648)
    (hcount : count.toNat < 2147483648) (halign : offset.toNat % 512 = pa.toNat % 512)
    (hwrap : pa.toNat - pa.toNat % 512 + 512 * sectors pa.toNat count.toNat < 4294967296) (s : Machine) :
    ∃ s', readseg image pa count offset s = some s' ∧
      s'.mem = blit (pa.toNat - pa.toNat % 512) (512 * sectors pa.toNat count.toNat)
        (fun j => image (512 + (offset.toNat - offset.toNat % 512 + j))) s.mem := by
  have hsectors : sectors pa.toNat count.toNat = sectors offset.toNat count.toNat := by
    unfold sectors
    rw [halign]
  rw [hsectors, ← halign] at hwrap ⊢
  exact readseg_blit image hoff hcount (halign ▸ Nat.mod_le pa.toNat 512) hwrap s

/-- **`readseg` reads what it is asked for, and the rest of the sectors.** For
an `int` `count` and an `int` `offset` that are not negative, where no address
wraps, the loop ends with the bytes of the file in their place. Only the bytes
of the first sector before `pa` and at most 511 bytes behind the range change
besides; they are what the disk holds there. -/
theorem readseg_range (image : ℕ → BitVec 8) {pa count offset : Word} (hcount : 0 ≤ count.toInt)
    (hoffset : 0 ≤ offset.toInt) (hback : offset.toNat % 512 ≤ pa.toNat)
    (hwrap : pa.toNat - offset.toNat % 512 + 512 * sectors offset.toNat count.toNat < 4294967296) (s : Machine) :
    ∃ s' extra, readseg image pa count offset s = some s' ∧
      (∀ i < count.toNat, s'.mem (pa.toNat + i) = image (512 + offset.toNat + i)) ∧
      (∀ i, 0 < i → i ≤ offset.toNat % 512 → s'.mem (pa.toNat - i) = image (512 + offset.toNat - i)) ∧
      (∀ i < extra, s'.mem (pa.toNat + count.toNat + i) = image (512 + offset.toNat + count.toNat + i)) ∧
      (∀ a, a < pa.toNat - offset.toNat % 512 ∨ pa.toNat + count.toNat + extra ≤ a → s'.mem a = s.mem a) ∧
      extra ≤ 511 ∧
      (count = 0 → offset.toNat % 512 + extra = if offset.toNat % 512 = 0 then 0 else 512) := by
  have hint : ∀ x : Word, 0 ≤ x.toInt → x.toNat < 2147483648 := by
    intro x hx
    rw [BitVec.toInt_eq_toNat_cond] at hx
    omega
  have hoff := hint offset hoffset
  have hcnt := hint count hcount
  obtain ⟨s', heq, hmem⟩ := readseg_blit image hoff hcnt hback hwrap s
  have hlen : offset.toNat % 512 + count.toNat ≤ 512 * sectors offset.toNat count.toNat ∧
      512 * sectors offset.toNat count.toNat ≤ offset.toNat % 512 + count.toNat + 511 := by
    unfold sectors
    omega
  -- a byte of the sectors, at its distance from the start
  have hbyte : ∀ {a b : ℕ} (j : ℕ), j < 512 * sectors offset.toNat count.toNat →
      a = pa.toNat - offset.toNat % 512 + j → b = 512 + (offset.toNat - offset.toNat % 512 + j) →
      s'.mem a = image b := by
    intro a b j hj ha hb
    rw [hmem, ha, hb]
    exact blit_inside _ _ hj
  refine ⟨s', 512 * sectors offset.toNat count.toNat - (offset.toNat % 512 + count.toNat), heq, fun i hi => ?_,
    fun i hpos hi => ?_, fun i hi => ?_, fun a ha => ?_, by omega, fun hzero => ?_⟩
  · exact hbyte (offset.toNat % 512 + i) (by omega) (by omega) (by omega)
  · exact hbyte (offset.toNat % 512 - i) (by omega) (by omega) (by omega)
  · exact hbyte (offset.toNat % 512 + count.toNat + i) (by omega) (by omega) (by omega)
  · rw [hmem]
    exact blit_outside _ _ (by omega)
  · have hcount0 : count.toNat = 0 := congrArg BitVec.toNat hzero
    rw [hcount0]
    unfold sectors
    split_ifs with haligned
    all_goals omega

/-- 700 bytes from the second byte of a sector of the file on, to 0x9001. -/
theorem readseg_range_seven_hundred :
    ∃ s', readseg (fun b => BitVec.ofNat 8 b) 0x9001 700 513 ⟨fun _ => 0xff, ⟨0, 0, 0, 0, 0, 0, 0⟩⟩ = some s' ∧
      (∀ i < 700, s'.mem (0x9001 + i) = BitVec.ofNat 8 (1025 + i)) ∧ s'.mem 0x9000 = 0 ∧ s'.mem 0x8fff = 0xff := by
  obtain ⟨s', extra, heq, hin, hbefore, -, hout, -, -⟩ := @readseg_range (fun b => BitVec.ofNat 8 b) 0x9001 700 513
    (by decide) (by decide) (by decide) (by decide) ⟨fun _ => 0xff, ⟨0, 0, 0, 0, 0, 0, 0⟩⟩
  exact ⟨s', heq, hin, hbefore 1 (by decide) (by decide), hout 0x8fff (Or.inl (by decide))⟩

end Boot
end NanoOS
