/-
# Booting from the image of the disk

`genboot.pl` fills the boot block up to 510 bytes and signs it, and the Makefile puts
the kernel behind it. The loader finds it there over the ports of the disk controller:
`waitdisk` polls until the controller is ready, before the command and before the data,
however long it takes. What it loads is what the loader of `NanoOS.Boot.Main` loads,
whose disk is always ready.

Interrupts are off until the kernel is up; the controller counts those that it raises.

Key definitions: `genboot`, `diskImg`, `PortMachine`, `portBootmain`, `Agree`.
Key theorems: `Agree.readsect`, `Agree.readseg`, `portBootmain_spec`, `boots_from_image`.
-/
import Mathlib.Data.List.GetD
import NanoOS.Boot.Kernel
import NanoOS.Drivers.Ide.Port

namespace NanoOS
namespace Boot

open Memory Image Pm BitField

/-! ### The image -/

/-- `genboot.pl`: at most 1000 bytes are read. It is `none` if they are too many. -/
def genboot (code : List (BitVec 8)) : Option (List (BitVec 8)) :=
  let buf := code.take 1000
  if 510 < buf.length then none else some (buf ++ List.replicate (510 - buf.length) 0 ++ [0x55, 0xAA])

/-- `cat boot/bootblock kernel > disk.img`. -/
def diskImg (code kernel : List (BitVec 8)) : Option (List (BitVec 8)) := (genboot code).map (· ++ kernel)

/-- The bytes of a disk. -/
def diskBytes (medium : ℕ → Ide.Sector) : ℕ → BitVec 8 := fun a => (Ide.flat medium a).toBitVec

/-! ### The loader on the ports -/

/-- The memory, and the controller with the disk. -/
structure PortMachine where
  mem : Mem
  ide : Ide.Controller

/-- `waitdisk`: the loop of `ide_prepare`, with `0xC0` for `0x80 | 0x40`. It lasts as
long as the controller is busy. -/
def waitdisk (c : Ide.Controller) : Option Ide.Controller := Ide.waitReady (c.busy + 1) c

/-- `readsect`. -/
def portReadsect (dst offset : Word) (s : PortMachine) : Option PortMachine := do
  let c ← waitdisk s.ide
  let c ← Ide.outByte 0x1F2 1 c
  let c ← Ide.outByte 0x1F3 (offset.setWidth 8) c
  let c ← Ide.outByte 0x1F4 ((offset.sshiftRight 8).setWidth 8) c
  let c ← Ide.outByte 0x1F5 ((offset.sshiftRight 16).setWidth 8) c
  let c ← Ide.outByte 0x1F6 ((offset.sshiftRight 24 ||| 0xE0).setWidth 8) c
  let c ← Ide.outByte 0x1F7 0x20 c
  let c ← waitdisk c
  (List.range 128).foldlM (fun s i => (Ide.inLong s.ide).map fun o =>
    ⟨storeInt (dst + BitVec.ofNat 32 (4 * i)) o.1 s.mem, o.2⟩) ⟨s.mem, c⟩

/-- The loop of `readseg`. -/
def portReadLoop (epa : Word) : ℕ → Word → Word → PortMachine → Option PortMachine
  | 0, _, _, _ => none
  | n + 1, pa, offset, s =>
    if pa < epa then (portReadsect pa offset s).bind (portReadLoop epa n (pa + 512) (offset + 1)) else some s

/-- `readseg`. -/
def portReadseg (pa count offset : Word) (s : PortMachine) : Option PortMachine :=
  portReadLoop (pa + count) 8388609 (pa - offset.srem 512) (offset.sdiv 512 + 1) s

/-- One round of the loop of `bootmain`. -/
def portLoadSegment (ph : Word) (s : PortMachine) : Option PortMachine := do
  let h := segmentHeader (bytesAt ph s.mem)
  let pa := h.paddr - koffset
  let s ← portReadseg pa h.filesz h.off s
  return { s with mem := zeroLoop ph pa (pa + (segmentHeader (bytesAt ph s.mem)).filesz) s.mem }

/-- `bootmain`, up to the jump. -/
def portBootmain (s : PortMachine) : Option (Word × PortMachine) := do
  let elf : Word := 0x8000
  let s ← portReadseg elf 4096 0 s
  let ph := elf + BitVec.ofNat 32 (phoff (bytesAt elf s.mem))
  let eph := ph + BitVec.ofNat 32 (32 * phnum (bytesAt elf s.mem))
  let s ← (List.range ((eph.toNat - ph.toNat) / 32)).foldlM (fun s e =>
    portLoadSegment (ph + BitVec.ofNat 32 (32 * e)) s) s
  return (entryPoint (bytesAt elf s.mem) - koffset, s)

/-! ### One sector -/

theorem longOf_eq (medium : ℕ → Ide.Sector) (lba : ℕ) {i : ℕ} (hi : i < 128) :
    Ide.longOf (medium lba) i = u32At (diskBytes medium) (512 * lba + 4 * i) := by
  have hbyte : ∀ k < 4, (medium lba (Fin.ofNat 512 (4 * i + k))).toNat % 2 ^ 8 =
      (diskBytes medium (512 * lba + 4 * i + k)).toNat := by
    intro k hk
    have hsector : (512 * lba + 4 * i + k) / 512 = lba := by omega
    have hplace : (⟨(512 * lba + 4 * i + k) % 512, Nat.mod_lt _ (by decide)⟩ : Fin 512) =
        Fin.ofNat 512 (4 * i + k) := by
      apply Fin.ext
      show (512 * lba + 4 * i + k) % 512 = (4 * i + k) % 512
      omega
    unfold diskBytes Ide.flat
    rw [hsector, hplace]
    exact Nat.mod_eq_of_lt (UInt8.toNat_lt _)
  have h0 := hbyte 0 (by decide)
  simp only [Nat.add_zero] at h0
  unfold Ide.longOf u32At u16At
  dsimp only [pack]
  rw [h0, hbyte 1 (by decide), hbyte 2 (by decide), hbyte 3 (by decide)]
  apply congrArg (BitVec.ofNat 32)
  show _ = _ + 65536 * (_ + 256 * (diskBytes medium (512 * lba + 4 * i + 3)).toNat)
  omega

theorem waitReady_read {b lba left n : ℕ} {c : Ide.Controller} (hphase : c.phase = .read lba left n)
    (hb : c.busy = b + 1) : Ide.waitReady (b + 2) c = some { c with busy := 0, raised := c.irq } := by
  have hstatus : c.status = 0x80 := by
    unfold Ide.Controller.status
    rw [hb]
    exact if_pos (Nat.succ_pos b)
  induction b generalizing c with
  | zero =>
    have htick : c.tick = { c with busy := 0, raised := c.irq } := by
      unfold Ide.Controller.tick Ide.Controller.finish
      rw [hb, if_pos (Nat.le_refl 1), if_neg (Nat.succ_ne_zero 0), hphase]
    have hdone : ({ c with busy := 0, raised := c.irq } : Ide.Controller).status = 0x48 := by
      unfold Ide.Controller.status
      dsimp only
      rw [if_neg (Nat.lt_irrefl 0), hphase]
    have hstay : ({ c with busy := 0, raised := c.irq } : Ide.Controller).tick =
        { c with busy := 0, raised := c.irq } := by
      unfold Ide.Controller.tick Ide.Controller.finish
      rw [if_pos (Nat.zero_le 1), if_pos rfl]
    unfold Ide.waitReady Ide.inStatus
    dsimp only
    rw [hstatus, htick, if_pos (by decide)]
    unfold Ide.waitReady Ide.inStatus
    dsimp only
    rw [hdone, hstay]
    exact if_neg (by decide)
  | succ b ih =>
    have htick : c.tick = { c with busy := b + 1 } := by
      unfold Ide.Controller.tick
      rw [hb, if_neg (by omega), Nat.add_sub_cancel]
    have hnext : ({ c with busy := b + 1 } : Ide.Controller).status = 0x80 := by
      unfold Ide.Controller.status
      exact if_pos (Nat.succ_pos b)
    have hrest := ih (c := { c with busy := b + 1 }) hphase rfl hnext
    unfold Ide.waitReady Ide.inStatus
    dsimp only
    rw [hstatus, htick, if_pos (by decide)]
    exact hrest

/-- The memory after `n` words from sector `sector` on. -/
def wordsTo (image : ℕ → BitVec 8) (dst : Word) (sector n : ℕ) (m : Mem) : Mem :=
  (List.range n).foldl (fun m i =>
    storeInt (dst + BitVec.ofNat 32 (4 * i)) (u32At image (512 * sector + 4 * i)) m) m

theorem wordsTo_succ (image : ℕ → BitVec 8) (dst : Word) (sector n : ℕ) (m : Mem) :
    wordsTo image dst sector (n + 1) m = storeInt (dst + BitVec.ofNat 32 (4 * n))
      (u32At image (512 * sector + 4 * n)) (wordsTo image dst sector n m) := by
  unfold wordsTo
  rw [List.range_succ, List.foldl_append]
  rfl

/-- The rounds of `readsect`, where the disk is always ready. -/
theorem readRounds (image : ℕ → BitVec 8) (dst : Word) (m : Mem) (c : Controller) (hc : c.fetched = 0) (n : ℕ) :
    (List.range n).foldl (fun s i => ⟨storeInt (dst + BitVec.ofNat 32 (4 * i)) (inLong image s.ide).1 s.mem,
      (inLong image s.ide).2⟩) (⟨m, c⟩ : Machine) = ⟨wordsTo image dst c.sector n m, { c with fetched := n }⟩ := by
  induction n with
  | zero =>
    show (⟨m, c⟩ : Machine) = ⟨m, { c with fetched := 0 }⟩
    rw [← hc]
  | succ n ih =>
    rw [List.range_succ, List.foldl_append, ih, wordsTo_succ]
    rfl

theorem portReadRounds (dst : Word) (m : Mem) {c : Ide.Controller} {lba : ℕ} (hphase : c.phase = .read lba 1 0)
    (hbusy : c.busy = 0) {n : ℕ} (hn : n ≤ 128) :
    (List.range n).foldlM (fun s i => (Ide.inLong s.ide).map fun o =>
        ⟨storeInt (dst + BitVec.ofNat 32 (4 * i)) o.1 s.mem, o.2⟩) (⟨m, c⟩ : PortMachine) =
      some ⟨wordsTo (diskBytes c.medium) dst lba n m,
        { c with phase := if n < 128 then .read lba 1 n else .idle }⟩ := by
  induction n with
  | zero =>
    rw [if_pos (by decide), ← hphase]
    rfl
  | succ n ih =>
    have hlong : Ide.inLong { c with phase := .read lba 1 n } = some (u32At (diskBytes c.medium) (512 * lba + 4 * n),
        { c with phase := if n + 1 < 128 then .read lba 1 (n + 1) else .idle }) := by
      unfold Ide.inLong
      dsimp only
      rw [if_pos hbusy, longOf_eq _ _ (by omega)]
      by_cases hlast : n < 127
      · rw [if_pos hlast, if_pos (by omega)]
      · rw [if_neg hlast, if_pos rfl, if_neg (by omega)]
    rw [List.range_succ, List.foldlM_append, ih (by omega), if_pos (by omega), wordsTo_succ]
    show ((Ide.inLong { c with phase := .read lba 1 n }).map _).bind _ = _
    rw [hlong]
    rfl

/-- The controller when the number of the sector is in its registers. -/
def addressed (offset : Word) (c : Ide.Controller) : Ide.Controller :=
  { c with
    busy := 0
    count := 1
    lba0 := offset.setWidth 8
    lba8 := (offset.sshiftRight 8).setWidth 8
    lba16 := (offset.sshiftRight 16).setWidth 8
    device := (offset.sshiftRight 24 ||| 0xE0).setWidth 8 }

theorem addressed_lba {offset : Word} (h : offset.toNat < 268435456) (c : Ide.Controller) :
    (addressed offset c).lba = offset.toNat := by
  have hboot := lba_eq h 1 0 0
  have hlow : ∀ y : BitVec 8, (y &&& 0x0f#8).toNat = y.toNat % 16 := by decide
  unfold Controller.lba at hboot
  dsimp only at hboot
  rw [hlow] at hboot
  have h0 := (offset.setWidth 8).isLt
  have h8 := ((offset.sshiftRight 8).setWidth 8).isLt
  have h16 := ((offset.sshiftRight 16).setWidth 8).isLt
  unfold Ide.Controller.lba addressed
  dsimp only [pack]
  omega

/-- The drive is number 0, in the mode of sector numbers. -/
theorem addressed_device {offset : Word} (h : offset.toNat < 268435456) (c : Ide.Controller) :
    (addressed offset c).device.getLsbD 6 = true ∧ (addressed offset c).device.getLsbD 4 = false := by
  have hmsb : offset.msb = false := BitVec.msb_eq_false_iff_two_mul_lt.mpr (by omega)
  have hmode : ∀ y : BitVec 8, (y ||| 0xE0#8).getLsbD 6 = true := by decide
  have hdrive : ∀ y : BitVec 8, y.toNat < 16 → (y ||| 0xE0#8).getLsbD 4 = false := by decide
  have hhigh : ((offset.sshiftRight 24).setWidth 8).toNat < 16 := by
    rw [BitVec.toNat_setWidth, BitVec.sshiftRight_eq_of_msb_false hmsb, toNat_shr]
    omega
  unfold addressed
  dsimp only
  rw [BitVec.setWidth_or, show BitVec.setWidth 8 (0xE0 : Word) = 0xE0#8 from rfl]
  exact ⟨hmode _, hdrive _ hhigh⟩

theorem read_addressed {offset : Word} (h : offset.toNat < 268435456) {c : Ide.Controller} (hidle : c.phase = .idle) :
    Ide.outByte 0x1F7 0x20 (addressed offset c) = some { addressed offset c with
      phase := .read offset.toNat 1 0, busy := c.delays c.issued + 1, issued := c.issued + 1 } := by
  obtain ⟨hmode, hdrive⟩ := addressed_device h c
  have hphase : (addressed offset c).phase = .idle := hidle
  have hready : (addressed offset c).busy = 0 ∧ (addressed offset c).device.getLsbD 6 = true ∧
      (addressed offset c).device.getLsbD 4 = false := ⟨rfl, hmode, hdrive⟩
  show Ide.Controller.command 0x20 _ = _
  unfold Ide.Controller.command
  rw [hphase]
  dsimp only
  rw [if_pos hready, if_pos rfl, addressed_lba h]
  rfl

theorem readsect_mem (image : ℕ → BitVec 8) (dst : Word) {offset : Word} (hoff : offset.toNat < 268435456)
    (s : Machine) :
    (readsect image dst offset s).mem = wordsTo image dst offset.toNat 128 s.mem := by
  have hlba : (outByte 0x1F7 0x20 (outByte 0x1F6 ((offset.sshiftRight 24 ||| 0xE0).setWidth 8) (outByte 0x1F5
      ((offset.sshiftRight 16).setWidth 8) (outByte 0x1F4 ((offset.sshiftRight 8).setWidth 8) (outByte 0x1F3
        (offset.setWidth 8) (outByte 0x1F2 1 s.ide)))))).sector = offset.toNat :=
    lba_eq hoff 1 s.ide.sector s.ide.fetched
  unfold readsect
  dsimp only
  rw [readRounds image dst _ _ rfl, hlba]

/-! ### The two loaders -/

/-- The memories are the same, and the controller has nothing to do. -/
structure Agree (medium : ℕ → Ide.Sector) (s : Machine) (p : PortMachine) : Prop where
  mem : p.mem = s.mem
  idle : p.ide.phase = .idle
  medium : p.ide.medium = medium

namespace Agree

variable {medium : ℕ → Ide.Sector} {s s' : Machine} {p : PortMachine} {offset : Word}

/-- **One sector**: the polling comes to an end twice, and the words are those of the disk. -/
theorem readsect (h : Agree medium s p) (hoff : offset.toNat < 268435456) (dst : Word) :
    ∃ p', portReadsect dst offset p = some p' ∧ Agree medium (Boot.readsect (diskBytes medium) dst offset s) p' := by
  have hready : waitdisk p.ide = some { p.ide with busy := 0 } := Ide.waitReady_eq h.idle rfl
  have hissue := read_addressed hoff h.idle
  obtain ⟨c, hc⟩ : ∃ c : Ide.Controller, c = { addressed offset p.ide with
      phase := .read offset.toNat 1 0, busy := p.ide.delays p.ide.issued + 1, issued := p.ide.issued + 1 } := ⟨_, rfl⟩
  have hwait : waitdisk c = some { c with busy := 0, raised := c.irq } := by
    have hbusy : c.busy = p.ide.delays p.ide.issued + 1 := by rw [hc]
    have hphase : c.phase = .read offset.toNat 1 0 := by rw [hc]
    unfold waitdisk
    rw [hbusy]
    exact waitReady_read hphase hbusy
  have hrounds := @portReadRounds dst p.mem { c with busy := 0, raised := c.irq } offset.toNat (by rw [hc]) rfl 128
    (Nat.le_refl _)
  have hmedium : c.medium = medium := by
    rw [hc]
    exact h.medium
  rw [if_neg (Nat.lt_irrefl _)] at hrounds
  refine ⟨⟨wordsTo (diskBytes c.medium) dst offset.toNat 128 p.mem,
    { c with busy := 0, raised := c.irq, phase := .idle }⟩, ?_, ?_, rfl, hmedium⟩
  · unfold portReadsect
    rw [hready]
    show (Ide.outByte 0x1F7 0x20 (addressed offset p.ide)).bind _ = _
    rw [hissue, ← hc]
    show (waitdisk c).bind _ = _
    rw [hwait]
    exact hrounds
  · rw [readsect_mem _ _ hoff, ← h.mem, ← hmedium]

/-- The loop of `readseg`, where no number of a sector has more than 28 bits. -/
theorem readLoop {epa : Word} : ∀ (fuel : ℕ) (pa offset : Word) {s : Machine} {p : PortMachine}, Agree medium s p →
    offset.toNat + fuel ≤ 268435456 → Boot.readLoop (diskBytes medium) epa fuel pa offset s = some s' →
    ∃ p', portReadLoop epa fuel pa offset p = some p' ∧ Agree medium s' p'
  | 0, _, _, _, _, _, _, hrun => by
    cases hrun
  | fuel + 1, pa, offset, s, p, h, hbound, hrun => by
    unfold Boot.readLoop at hrun
    unfold portReadLoop
    by_cases hlt : pa < epa
    · rw [if_pos hlt] at hrun ⊢
      have hoff : (offset + 1).toNat = offset.toNat + 1 := toNat_add_ofNat (p := offset) (k := 1) (by omega)
      obtain ⟨p1, hread, h1⟩ := h.readsect (show offset.toNat < 268435456 by omega) pa
      rw [hread]
      exact readLoop fuel _ _ h1 (by omega) hrun
    · rw [if_neg hlt] at hrun ⊢
      obtain rfl := Option.some.inj hrun
      exact ⟨p, rfl, h⟩

theorem readseg (h : Agree medium s p) (hoff : offset.toNat < 2147483648) {pa count : Word}
    (hrun : Boot.readseg (diskBytes medium) pa count offset s = some s') :
    ∃ p', portReadseg pa count offset p = some p' ∧ Agree medium s' p' := by
  have hmsb : offset.msb = false := BitVec.msb_eq_false_iff_two_mul_lt.mpr (by omega)
  have hdiv : (offset.sdiv 512).toNat = offset.toNat / 512 := Numeral.toNat_sdiv hmsb (by decide)
  have hsector : (offset.sdiv 512 + 1).toNat = (offset.sdiv 512).toNat + 1 :=
    toNat_add_ofNat (p := offset.sdiv 512) (k := 1) (by omega)
  exact readLoop _ _ _ h (by omega) hrun

theorem loadSegment (h : Agree medium s p) {ph : Word}
    (hoff : (segmentHeader (bytesAt ph s.mem)).off.toNat < 2147483648)
    (hrun : Boot.loadSegment (diskBytes medium) ph s = some s') :
    ∃ p', portLoadSegment ph p = some p' ∧ Agree medium s' p' := by
  unfold Boot.loadSegment at hrun
  obtain ⟨s1, hread, hrun⟩ := Option.bind_eq_some_iff.mp hrun
  obtain rfl := Option.some.inj hrun
  obtain ⟨p1, hport, h1⟩ := h.readseg hoff hread
  refine ⟨{ p1 with mem := _ }, ?_, rfl, h1.idle, h1.medium⟩
  unfold portLoadSegment
  rw [h.mem]
  dsimp only
  rw [hport, ← h1.mem]
  rfl

/-- All segments of a kernel whose program headers are at 0x8000. -/
theorem loadSegments {file : ℕ → BitVec 8} (hfile : Bootable file) (himage : ∀ a, diskBytes medium (512 + a) = file a)
    (h : Agree medium s p) (hs : Scratch file s) {ph : Word} (hph : ph.toNat = 32768 + phoff file)
    (hrun : (List.range (phnum file)).foldlM (fun s e =>
      Boot.loadSegment (diskBytes medium) (ph + BitVec.ofNat 32 (32 * e)) s) s = some s') :
    ∃ p', (List.range (phnum file)).foldlM (fun p e => portLoadSegment (ph + BitVec.ofNat 32 (32 * e)) p) p = some p' ∧
      Agree medium s' p' := by
  obtain ⟨p', hport, h', -⟩ := foldlM_simulates (R := fun s p => Agree medium s p ∧ Scratch file s)
    (g := fun p e => portLoadSegment (ph + BitVec.ofNat 32 (32 * e)) p) (fun e he t q t' ⟨ht, hscratch⟩ hstep => by
      have hlt := List.mem_range.mp he
      have htable := hfile.table
      have hp : (ph + BitVec.ofNat 32 (32 * e)).toNat = 32768 + (phoff file + 32 * e) := by
        rw [toNat_add_ofNat (by omega), hph, Nat.add_assoc]
      have hheader := segmentHeader_scratch hscratch hp (by omega)
      obtain ⟨t1, heq, hscratch', -⟩ := loadSegment_spec hfile himage hscratch hlt hph
      obtain rfl := Option.some.inj (heq.symm.trans hstep)
      obtain ⟨q', hq, hq'⟩ := ht.loadSegment (by rw [hheader]; exact (hfile.small e hlt).off) hstep
      exact ⟨q', hq, hq', hscratch'⟩) ⟨h, hs⟩ hrun
  exact ⟨p', hport, h'⟩

end Agree

/-! ### The image on the disk -/

/-- The sectors of an image, with zeros behind it. -/
def mediumOf (img : List (BitVec 8)) : ℕ → Ide.Sector := fun n k => UInt8.ofBitVec (img.getD (512 * n + k) 0)

theorem diskBytes_mediumOf (img : List (BitVec 8)) (a : ℕ) : diskBytes (mediumOf img) a = img.getD a 0 := by
  unfold diskBytes Ide.flat mediumOf
  dsimp only
  rw [Nat.div_add_mod]

theorem genboot_some {code block : List (BitVec 8)} (h : genboot code = some block) :
    code.length ≤ 510 ∧ block = code ++ List.replicate (510 - code.length) 0 ++ [0x55, 0xAA] := by
  unfold genboot at h
  dsimp only at h
  by_cases hlong : 510 < (code.take 1000).length
  · rw [if_pos hlong] at h
    cases h
  · rw [if_neg hlong] at h
    rw [List.length_take] at hlong
    have htake : code.take 1000 = code := List.take_of_length_le (by omega)
    rw [htake] at h
    exact ⟨by omega, (Option.some.inj h).symm⟩

/-- The boot block fills one sector: the code, and the signature at its end. -/
theorem diskImg_some {code kernel img : List (BitVec 8)} (h : diskImg code kernel = some img) :
    (∀ i < code.length, img.getD i 0 = code.getD i 0) ∧ img.getD 510 0 = 0x55 ∧ img.getD 511 0 = 0xAA ∧
      ∀ a, img.getD (512 + a) 0 = kernel.getD a 0 := by
  obtain ⟨block, hblock, rfl⟩ := Option.map_eq_some_iff.mp h
  obtain ⟨hlen, rfl⟩ := genboot_some hblock
  have hfill : (code ++ List.replicate (510 - code.length) (0 : BitVec 8)).length = 510 := by
    rw [List.length_append, List.length_replicate]
    omega
  have hsector : (code ++ List.replicate (510 - code.length) (0 : BitVec 8) ++ [0x55, 0xAA]).length = 512 := by
    rw [List.length_append, hfill]
    rfl
  refine ⟨fun i hi => ?_, ?_, ?_, fun a => ?_⟩
  · rw [List.getD_append _ _ _ _ (by omega), List.getD_append _ _ _ _ (by omega), List.getD_append _ _ _ _ hi]
  · rw [List.getD_append _ _ _ _ (by omega), List.getD_append_right _ _ _ _ (by omega), hfill]
    rfl
  · rw [List.getD_append _ _ _ _ (by omega), List.getD_append_right _ _ _ _ (by omega), hfill]
    rfl
  · rw [List.getD_append_right _ _ _ _ (by omega), hsector, Nat.add_sub_cancel_left]

/-- The loader on the ports, where the file is behind the boot sector. -/
theorem portBootmain_spec {file : ℕ → BitVec 8} (hfile : Bootable file) {p : PortMachine} (hidle : p.ide.phase = .idle)
    (himage : ∀ a, diskBytes p.ide.medium (512 + a) = file a) :
    ∃ p', portBootmain p = some (entryPoint file - koffset, p') ∧
      (∀ e < phnum file, ∀ a x, wanted file e a = some x → p'.mem a = x) ∧
      p'.ide.phase = .idle ∧ p'.ide.medium = p.ide.medium := by
  have hagree : Agree p.ide.medium ⟨p.mem, ⟨0, 0, 0, 0, 0, 0, 0⟩⟩ p := ⟨rfl, hidle, rfl⟩
  obtain ⟨s1, hread, hscratch⟩ := readseg_scratch himage ⟨p.mem, ⟨0, 0, 0, 0, 0, 0, 0⟩⟩
  obtain ⟨p1, hport, h1⟩ := hagree.readseg (by decide) hread
  obtain ⟨hoff, hnum, -⟩ := elfHeader_scratch hscratch
  obtain ⟨hph, hcount⟩ := headers_range hfile.table
  obtain ⟨s', hloop, hscratch', hwant⟩ := loadSegments_spec hfile himage hscratch hph
  obtain ⟨p', hports, h'⟩ := h1.loadSegments hfile himage hscratch hph hloop
  obtain ⟨-, -, hentry⟩ := elfHeader_scratch hscratch'
  rw [← h1.mem] at hoff hnum
  rw [← h'.mem] at hentry
  refine ⟨p', ?_, fun e he a x hx => ?_, h'.idle, h'.medium⟩
  · unfold portBootmain
    simp only [hport, Option.bind_eq_bind, Option.bind_some, hoff, hnum, hcount, hports, Option.pure_def, hentry]
  · rw [h'.mem]
    exact hwant e he a x hx

/-- **The machine boots from the image.** When `genboot.pl` accepts the boot code, the
boot sector holds it and has the signature; and from any memory, with any time that
the controller takes for a command, the loader comes to the jump to the entry point
of the kernel, with every segment in place. The disk is as it was, and the controller
has nothing to do. -/
theorem boots_from_image {code kernel img : List (BitVec 8)} (himg : diskImg code kernel = some img)
    (hfile : Bootable fun a => kernel.getD a 0) {p : PortMachine} (hidle : p.ide.phase = .idle)
    (hdisk : p.ide.medium = mediumOf img) :
    ((∀ i < code.length, diskBytes p.ide.medium i = code.getD i 0) ∧
      diskBytes p.ide.medium 510 = 0x55 ∧ diskBytes p.ide.medium 511 = 0xAA) ∧
    ∃ p', portBootmain p = some (entryPoint (fun a => kernel.getD a 0) - koffset, p') ∧
      (∀ e < phnum (fun a => kernel.getD a 0), ∀ a x, wanted (fun a => kernel.getD a 0) e a = some x → p'.mem a = x) ∧
      p'.ide.phase = .idle ∧ p'.ide.medium = p.ide.medium := by
  obtain ⟨hcode, h55, hAA, hkernel⟩ := diskImg_some himg
  have hbytes : ∀ a, diskBytes p.ide.medium a = img.getD a 0 := by
    intro a
    rw [hdisk, diskBytes_mediumOf]
  refine ⟨⟨fun i hi => ?_, ?_, ?_⟩, portBootmain_spec hfile hidle fun a => ?_⟩
  · rw [hbytes, hcode i hi]
  · rw [hbytes, h55]
  · rw [hbytes, hAA]
  · rw [hbytes, hkernel]

/-- The file of `tinyKernel`. -/
def tinyBytes : List (BitVec 8) := (List.range 8199).map tinyKernel

theorem tinyBytes_getD : (fun a => tinyBytes.getD a 0) = tinyKernel := by
  funext a
  unfold tinyBytes
  by_cases ha : a < 8199
  · rw [List.getD_eq_getElem _ _ (by rw [List.length_map, List.length_range]; exact ha), List.getElem_map,
      List.getElem_range]
  · rw [List.getD_eq_default _ _ (by rw [List.length_map, List.length_range]; omega)]
    unfold tinyKernel
    split
    all_goals first | omega | rfl

/-- It is loaded from a disk that takes longer for every sector. -/
theorem boots_from_image_tiny : ∃ img p', diskImg [0xfa, 0xf4] tinyBytes = some img ∧
    portBootmain ⟨fun _ => 0xff, ⟨0, 0, 0, 0, 0, 0, .idle, 5, 0, 0, 0, fun n => 3 * n, mediumOf img⟩⟩ =
      some (0x100000, p') ∧
    diskBytes (mediumOf img) 0 = 0xfa ∧ (p'.mem 1048576 = 0xfa ∧ p'.mem 1052671 = 0) ∧
    p'.mem 1052676 = 0x90 ∧ p'.mem 1052681 = 0 := by
  obtain ⟨img, himg⟩ : ∃ img, diskImg [0xfa, 0xf4] tinyBytes = some img := ⟨_, rfl⟩
  have hfile : Bootable fun a => tinyBytes.getD a 0 := by
    rw [tinyBytes_getD]
    exact bootable_tinyKernel
  obtain ⟨⟨hcode, -⟩, p', hboot, hmem, -⟩ := boots_from_image himg hfile
    (p := ⟨fun _ => 0xff, ⟨0, 0, 0, 0, 0, 0, .idle, 5, 0, 0, 0, fun n => 3 * n, mediumOf img⟩⟩) rfl rfl
  rw [tinyBytes_getD] at hboot hmem
  obtain ⟨h0, h1⟩ := header_tinyKernel
  have hfirst : ∀ a x, (if 1048576 ≤ a then content tinyKernel 4096 2 4096 (a - 1048576) else none) = some x →
      p'.mem a = x := by
    intro a x hx
    apply hmem 0 (by decide) a x
    unfold wanted
    rw [h0]
    exact hx
  have hsecond : ∀ a x, (if 1052676 ≤ a then content tinyKernel 8196 3 6 (a - 1052676) else none) = some x →
      p'.mem a = x := by
    intro a x hx
    apply hmem 1 (by decide) a x
    unfold wanted
    rw [h1]
    exact hx
  exact ⟨img, p', himg, hboot, hcode 0 (by decide), ⟨hfirst _ _ rfl, hfirst _ _ rfl⟩, hsecond _ _ rfl, hsecond _ _ rfl⟩

end Boot
end NanoOS
