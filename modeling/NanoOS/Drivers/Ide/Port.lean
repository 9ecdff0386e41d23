/-
# Disk commands, port by port

`disk_do_read` and `disk_do_write` talk to the disk controller through its ports:
they wait until it is ready, write the number of the sector in four pieces and the
command, and move 128 words. The controller takes its time for each command, and
raises the interrupt when the data of a read is there or the data of a write is on
the disk.

Whatever the delays are, the commands read and write whole sectors, raise one
interrupt each, and leave the controller ready. The controller is driven in the mode
of sector numbers, which have 28 bits; what it does with other commands is left out.

One delay is assumed away. After the command of a write a controller may take some time
before it asks for the data, and `disk_do_write` does not wait for that: the
controller here takes the data at once.

Key definitions: `Controller`, `outByte`, `inLong`, `diskDoRead`, `diskDoWrite`.
Key theorems: `prepared_lba`, `diskDoRead_spec`, `diskDoWrite_spec`.
-/
import NanoOS.Lib.BitField
import NanoOS.Drivers.Ide.Cache

namespace NanoOS
namespace Ide

open BitField

/-- A word of the data port. -/
abbrev Word := BitVec 32

/-- What the controller is doing: nothing; `n` words of a sector have been fetched;
`n` words of a sector have come; a sector goes to the disk. `left` sectors are to
be done. -/
inductive BusPhase
  | idle
  | read (lba left n : ℕ)
  | write (lba left n : ℕ) (words : ℕ → Word)
  | flush (lba left : ℕ)

/-- The registers of the controller, for how long it is busy, the interrupts that it
has raised and those that the driver has waited for, and the disk. Command `i`
takes `delays i`. -/
structure Controller where
  control : BitVec 8
  count : BitVec 8
  lba0 : BitVec 8
  lba8 : BitVec 8
  lba16 : BitVec 8
  device : BitVec 8
  phase : BusPhase
  busy : ℕ
  raised : ℕ
  taken : ℕ
  issued : ℕ
  delays : ℕ → ℕ
  medium : ℕ → Sector

/-! ### Bytes and words -/

/-- `((uint32_t*)buf)[i]`. -/
def longOf (buf : Sector) (i : ℕ) : Word :=
  BitVec.ofNat 32 (pack [(8, (buf (Fin.ofNat 512 (4 * i))).toNat), (8, (buf (Fin.ofNat 512 (4 * i + 1))).toNat),
    (8, (buf (Fin.ofNat 512 (4 * i + 2))).toNat), (8, (buf (Fin.ofNat 512 (4 * i + 3))).toNat)])

/-- Byte `k` of a word. -/
def byteAt (x : Word) (k : ℕ) : UInt8 := UInt8.ofNat (field (8 * k) 8 x.toNat)

/-- `((uint32_t*)buf)[i] = x`. -/
def storeLong (i : ℕ) (x : Word) (buf : Sector) : Sector :=
  fun k => if k / 4 = i then byteAt x (k % 4) else buf k

/-- The bytes of the words of a sector. -/
def sectorOfWords (words : ℕ → Word) : Sector := fun k => byteAt (words (k / 4)) (k % 4)

/-! ### The controller -/

namespace Controller

/-- The number in the registers: 28 bits. -/
def lba (c : Controller) : ℕ :=
  pack [(8, c.lba0.toNat), (8, c.lba8.toNat), (8, c.lba16.toNat), (4, c.device.toNat)]

/-- How many sectors are asked for. -/
def sectors (c : Controller) : ℕ := if c.count = 0 then 256 else c.count.toNat

/-- Interrupts are raised unless bit 1 of the control register is set. -/
def irq (c : Controller) : ℕ := if c.control.getLsbD 1 then c.raised else c.raised + 1

/-- It has been busy long enough. -/
def finish (c : Controller) : Controller :=
  if c.busy = 0 then c
  else
    match c.phase with
    | .read lba left n => { c with busy := 0, raised := c.irq, phase := .read lba left n }
    | .flush _ 0 => { c with busy := 0, raised := c.irq, phase := .idle }
    | .flush lba left => { c with busy := 0, raised := c.irq, phase := .write lba left 0 fun _ => 0 }
    | _ => { c with busy := 0 }

/-- Some time passes. -/
def tick (c : Controller) : Controller := if c.busy ≤ 1 then c.finish else { c with busy := c.busy - 1 }

/-- `BSY`, or `DRDY` with `DRQ`. -/
def status (c : Controller) : BitVec 8 :=
  if 0 < c.busy then 0x80
  else
    match c.phase with
    | .idle => 0x40
    | _ => 0x48

/-- A command is taken by drive 0, in the mode of sector numbers, when there is none. The data
of a write can come at once; this is an assumption. -/
def command (x : BitVec 8) (c : Controller) : Option Controller :=
  match c.phase with
  | .idle =>
    if c.busy = 0 ∧ c.device.getLsbD 6 = true ∧ c.device.getLsbD 4 = false then
      if x = 0x20 then
        some { c with phase := .read c.lba c.sectors 0, busy := c.delays c.issued + 1, issued := c.issued + 1 }
      else if x = 0x30 then
        some { c with phase := .write c.lba c.sectors 0 fun _ => 0, issued := c.issued + 1 }
      else none
    else none
  | _ => none

end Controller

/-- `IDE_PORT_CTRL` and `IDE_PORT_BASE`. -/
def idePortCtrl : ℕ := 0x3F6

def idePortBase : ℕ := 0x1F0

/-- `out_byte`. -/
def outByte (port : ℕ) (x : BitVec 8) (c : Controller) : Option Controller :=
  if port = idePortCtrl then some { c with control := x }
  else if port = idePortBase + 2 then some { c with count := x }
  else if port = idePortBase + 3 then some { c with lba0 := x }
  else if port = idePortBase + 4 then some { c with lba8 := x }
  else if port = idePortBase + 5 then some { c with lba16 := x }
  else if port = idePortBase + 6 then some { c with device := x }
  else if port = idePortBase + 7 then c.command x
  else none

/-- `in_byte(IDE_PORT_BASE + 7)`. -/
def inStatus (c : Controller) : BitVec 8 × Controller := (c.status, c.tick)

/-- `in_long(IDE_PORT_BASE)`. -/
def inLong (c : Controller) : Option (Word × Controller) :=
  match c.phase with
  | .read lba left n =>
    if c.busy = 0 then
      some (longOf (c.medium lba) n,
        if n < 127 then { c with phase := .read lba left (n + 1) }
        else if left = 1 then { c with phase := .idle }
        else { c with phase := .read (lba + 1) (left - 1) 0, busy := c.delays c.issued + 1 })
    else none
  | _ => none

/-- `out_long(IDE_PORT_BASE, x)`. -/
def outLong (x : Word) (c : Controller) : Option Controller :=
  match c.phase with
  | .write lba left n words =>
    let words := Function.update words n x
    some (if n < 127 then { c with phase := .write lba left (n + 1) words }
      else { c with
        phase := .flush (lba + 1) (left - 1)
        busy := c.delays c.issued + 1
        medium := Function.update c.medium lba (sectorOfWords words) })
  | _ => none

/-! ### The driver -/

/-- `while ((in_byte(IDE_PORT_BASE + 7) & (0x80 | 0x40)) != 0x40)`. -/
def waitReady : ℕ → Controller → Option Controller
  | 0, _ => none
  | n + 1, c =>
    let (x, c) := inStatus c
    if x &&& (0x80 ||| 0x40) ≠ 0x40 then waitReady n c else some c

/-- `ide_prepare`: the loop lasts as long as the controller is busy. -/
def idePrepare (sector : ℕ) (c : Controller) : Option Controller := do
  let c ← waitReady (c.busy + 1) c
  let c ← outByte idePortCtrl 0 c
  let c ← outByte (idePortBase + 2) 1 c
  let c ← outByte (idePortBase + 3) (BitVec.ofNat 8 (sector &&& 0xFF)) c
  let c ← outByte (idePortBase + 4) (BitVec.ofNat 8 ((sector >>> 8) &&& 0xFF)) c
  let c ← outByte (idePortBase + 5) (BitVec.ofNat 8 ((sector >>> 16) &&& 0xFF)) c
  outByte (idePortBase + 6) (BitVec.ofNat 8 (0xE0 ||| ((sector >>> 24) &&& 0xFF))) c

/-- `issue_read`. -/
def issueRead (c : Controller) : Option Controller := outByte (idePortBase + 7) 0x20 c

/-- `issue_write`. -/
def issueWrite (c : Controller) : Option Controller := outByte (idePortBase + 7) 0x30 c

/-- The loop of `receive(MSG_HARD_INTR, &m)`, up to a message of `ide_intr`; it waits
for ever if no interrupt comes. -/
def awaitReady (c : Controller) : Option Controller :=
  let c := c.finish
  if c.taken < c.raised then some { c with taken := c.taken + 1 } else none

/-- `disk_do_read`, with `buf` before it. -/
def diskDoRead (buf : Sector) (sector : ℕ) (c : Controller) : Option (Sector × Controller) := do
  let c ← idePrepare sector c
  let c ← issueRead c
  let c ← awaitReady c
  (List.range 128).foldlM (fun r i => (inLong r.2).map fun o => (storeLong i o.1 r.1, o.2)) (buf, c)

/-- `disk_do_write`. -/
def diskDoWrite (buf : Sector) (sector : ℕ) (c : Controller) : Option Controller := do
  let c ← idePrepare sector c
  let c ← issueWrite c
  let c ← (List.range 128).foldlM (fun c i => outLong (longOf buf i) c) c
  awaitReady c

/-! ### Words of a sector -/

theorem ofNat_byte (b : UInt8) : UInt8.ofNat (b.toNat % 2 ^ 8) = b := by
  rw [Nat.mod_eq_of_lt b.toNat_lt, UInt8.ofNat_toNat]

theorem byteAt_longOf (buf : Sector) {i j : ℕ} (hj : j < 4) :
    byteAt (longOf buf i) j = buf (Fin.ofNat 512 (4 * i + j)) := by
  have hword : (longOf buf i).toNat = pack [(8, (buf (Fin.ofNat 512 (4 * i))).toNat),
      (8, (buf (Fin.ofNat 512 (4 * i + 1))).toNat), (8, (buf (Fin.ofNat 512 (4 * i + 2))).toNat),
      (8, (buf (Fin.ofNat 512 (4 * i + 3))).toNat)] := by
    unfold longOf
    rw [BitVec.toNat_ofNat]
    exact Nat.mod_eq_of_lt pack_lt
  unfold byteAt
  rw [hword]
  obtain rfl | rfl | rfl | rfl : j = 0 ∨ j = 1 ∨ j = 2 ∨ j = 3 := by omega
  · exact (congrArg UInt8.ofNat (field_pack [] 8 _ _)).trans (ofNat_byte _)
  · exact (congrArg UInt8.ofNat (field_pack [(8, _)] 8 _ _)).trans (ofNat_byte _)
  · exact (congrArg UInt8.ofNat (field_pack [(8, _), (8, _)] 8 _ _)).trans (ofNat_byte _)
  · exact (congrArg UInt8.ofNat (field_pack [(8, _), (8, _), (8, _)] 8 _ _)).trans (ofNat_byte _)

theorem byteAt_word (buf : Sector) (k : Fin 512) : byteAt (longOf buf (k / 4)) (k % 4) = buf k := by
  rw [byteAt_longOf buf (Nat.mod_lt _ (by decide)), Nat.div_add_mod]
  congr 1
  exact Fin.ext (Nat.mod_eq_of_lt k.isLt)

theorem sectorOfWords_longOf {buf : Sector} {words : ℕ → Word} (h : ∀ i < 128, words i = longOf buf i) :
    sectorOfWords words = buf := by
  funext k
  have hk := k.isLt
  unfold sectorOfWords
  rw [h _ (by omega)]
  exact byteAt_word buf k

/-! ### Commands -/

/-- Nothing is going on, and no interrupt is waiting. -/
structure Controller.Ready (c : Controller) : Prop where
  idle : c.phase = .idle
  taken : c.taken = c.raised

theorem waitReady_eq {b : ℕ} {c : Controller} (hidle : c.phase = .idle) (hb : c.busy = b) :
    waitReady (b + 1) c = some { c with busy := 0 } := by
  induction b generalizing c with
  | zero =>
    have hstatus : c.status = 0x40 := by
      unfold Controller.status
      rw [hb, hidle]
      rfl
    have htick : c.tick = { c with busy := 0 } := by
      unfold Controller.tick Controller.finish
      rw [hb, if_pos (Nat.zero_le 1), if_pos rfl, ← hb]
    unfold waitReady inStatus
    dsimp only
    rw [hstatus, htick]
    exact if_neg (by decide)
  | succ b ih =>
    have hstatus : c.status = 0x80 := by
      unfold Controller.status
      rw [hb]
      exact if_pos (Nat.succ_pos b)
    have htick : c.tick = { c with busy := b } := by
      unfold Controller.tick Controller.finish
      rw [hb]
      by_cases hle : b + 1 ≤ 1
      · obtain rfl : b = 0 := by omega
        rw [if_pos hle, if_neg (Nat.succ_ne_zero 0), hidle]
      · rw [if_neg hle, Nat.add_sub_cancel]
    have hrest := ih (c := { c with busy := b }) hidle rfl
    unfold waitReady inStatus
    dsimp only
    rw [hstatus, htick, if_pos (by decide)]
    exact hrest

/-- The controller after `ide_prepare`. -/
def Controller.prepared (sector : ℕ) (c : Controller) : Controller :=
  { c with
    busy := 0
    control := 0
    count := 1
    lba0 := BitVec.ofNat 8 (sector &&& 0xFF)
    lba8 := BitVec.ofNat 8 ((sector >>> 8) &&& 0xFF)
    lba16 := BitVec.ofNat 8 ((sector >>> 16) &&& 0xFF)
    device := BitVec.ofNat 8 (0xE0 ||| ((sector >>> 24) &&& 0xFF)) }

theorem idePrepare_eq {c : Controller} (hidle : c.phase = .idle) (sector : ℕ) :
    idePrepare sector c = some (c.prepared sector) := by
  unfold idePrepare
  rw [waitReady_eq hidle rfl]
  rfl

theorem device_bits : ∀ h < 16, (BitVec.ofNat 8 (0xE0 ||| (h &&& 0xFF))).getLsbD 6 = true ∧
    (BitVec.ofNat 8 (0xE0 ||| (h &&& 0xFF))).getLsbD 4 = false ∧
    (BitVec.ofNat 8 (0xE0 ||| (h &&& 0xFF))).toNat % 16 = h := by
  decide

/-- **The number of the sector** is put together again from its four pieces. -/
theorem prepared_lba (c : Controller) {sector : ℕ} (hsector : sector < 268435456) :
    (c.prepared sector).lba = sector := by
  have hbyte : ∀ n : ℕ, (BitVec.ofNat 8 (n &&& 0xFF)).toNat = field 0 8 n := by
    intro n
    unfold field
    rw [BitVec.toNat_ofNat, pow_zero, Nat.div_one]
    show (n &&& 2 ^ 8 - 1) % 2 ^ 8 = n % 2 ^ 8
    rw [Nat.and_two_pow_sub_one_eq_mod, Nat.mod_mod]
  have hpiece : ∀ k, field 0 8 (sector >>> k) = field k 8 sector := by
    intro k
    unfold field
    rw [pow_zero, Nat.div_one, Nat.shiftRight_eq_div_pow]
  have hhigh : (BitVec.ofNat 8 (0xE0 ||| ((sector >>> 24) &&& 0xFF))).toNat % 2 ^ 4 = field 24 4 sector := by
    have hlt : sector >>> 24 < 16 := by
      rw [Nat.shiftRight_eq_div_pow]
      omega
    rw [show (2 : ℕ) ^ 4 = 16 from rfl, (device_bits _ hlt).2.2, Nat.shiftRight_eq_div_pow]
    unfold field
    omega
  have hmod : ∀ k, field k 8 sector % 2 ^ 8 = field k 8 sector := fun k => Nat.mod_mod _ _
  calc (c.prepared sector).lba
      = field 0 8 sector + 2 ^ 8 * (field 8 8 sector + 2 ^ 8 * (field 16 8 sector + 2 ^ 8 * field 24 4 sector)) := by
        unfold Controller.lba Controller.prepared
        dsimp only [pack]
        rw [hbyte, hbyte, hbyte, hpiece, hpiece, hhigh, hmod, hmod, hmod, Nat.mul_zero, Nat.add_zero]
    _ = field 0 (8 + (8 + (8 + 4))) sector := by rw [field_add, field_add, field_add]
    _ = sector := field_of_lt hsector

theorem readRounds {c : Controller} {lba : ℕ} (hphase : c.phase = .read lba 1 0) (hbusy : c.busy = 0) (buf : Sector)
    {n : ℕ} (hn : n ≤ 128) :
    (List.range n).foldlM (fun (r : Sector × Controller) i =>
        (inLong r.2).map fun o => (storeLong i o.1 r.1, o.2)) (buf, c) =
      some (fun k : Fin 512 => if (k : ℕ) / 4 < n then c.medium lba k else buf k,
        { c with phase := if n < 128 then .read lba 1 n else .idle }) := by
  induction n with
  | zero =>
    rw [if_pos (by decide), ← hphase]
    rfl
  | succ n ih =>
    have hlong : inLong { c with phase := .read lba 1 n } = some (longOf (c.medium lba) n,
        { c with phase := if n + 1 < 128 then .read lba 1 (n + 1) else .idle }) := by
      unfold inLong
      dsimp only
      rw [if_pos hbusy]
      by_cases hlast : n < 127
      · rw [if_pos hlast, if_pos (by omega)]
      · rw [if_neg hlast, if_pos rfl, if_neg (by omega)]
    have hstore : ∀ k : Fin 512, storeLong n (longOf (c.medium lba) n)
        (fun k : Fin 512 => if (k : ℕ) / 4 < n then c.medium lba k else buf k) k =
          if (k : ℕ) / 4 < n + 1 then c.medium lba k else buf k := by
      intro k
      unfold storeLong
      by_cases heq : (k : ℕ) / 4 = n
      · rw [if_pos heq, if_pos (by omega), ← heq]
        exact byteAt_word _ k
      · rw [if_neg heq]
        exact if_congr (by omega) rfl rfl
    rw [List.range_succ, List.foldlM_append, ih (by omega), if_pos (by omega)]
    show ((inLong { c with phase := .read lba 1 n }).map _).bind _ = _
    rw [hlong]
    show some (_, _) = some (_, _)
    rw [funext hstore]

theorem issue_prepared {c : Controller} (h : c.Ready) {sector : ℕ} (hsector : sector < 268435456) :
    issueRead (c.prepared sector) = some { c.prepared sector with
        phase := .read sector 1 0, busy := c.delays c.issued + 1, issued := c.issued + 1 } ∧
      issueWrite (c.prepared sector) = some { c.prepared sector with
        phase := .write sector 1 0 fun _ => 0, issued := c.issued + 1 } := by
  have hlt : sector >>> 24 < 16 := by
    rw [Nat.shiftRight_eq_div_pow]
    omega
  obtain ⟨hmode, hdrive, -⟩ := device_bits _ hlt
  have hlba := prepared_lba c hsector
  have hidle : (c.prepared sector).phase = .idle := h.idle
  have hready : (c.prepared sector).busy = 0 ∧ (c.prepared sector).device.getLsbD 6 = true ∧
      (c.prepared sector).device.getLsbD 4 = false := ⟨rfl, hmode, hdrive⟩
  constructor
  · show Controller.command 0x20 _ = _
    unfold Controller.command
    rw [hidle]
    dsimp only
    rw [if_pos hready, if_pos rfl, hlba]
    rfl
  · show Controller.command 0x30 _ = _
    unfold Controller.command
    rw [hidle]
    dsimp only
    rw [if_pos hready, if_neg (by decide), if_pos rfl, hlba]
    rfl

theorem awaitReady_read {c : Controller} {lba left n : ℕ} (hphase : c.phase = .read lba left n) (hbusy : c.busy ≠ 0)
    (hcontrol : c.control = 0) (htaken : c.taken = c.raised) :
    awaitReady c = some { c with busy := 0, raised := c.raised + 1, taken := c.raised + 1 } := by
  have hirq : c.irq = c.raised + 1 := by
    unfold Controller.irq
    rw [hcontrol]
    rfl
  have hfinish : c.finish = { c with busy := 0, raised := c.raised + 1 } := by
    unfold Controller.finish
    rw [if_neg hbusy, hphase, hirq]
  unfold awaitReady
  rw [hfinish, ← htaken]
  exact if_pos (Nat.lt_succ_self _)

theorem awaitReady_flush {c : Controller} {lba : ℕ} (hphase : c.phase = .flush lba 0) (hbusy : c.busy ≠ 0)
    (hcontrol : c.control = 0) (htaken : c.taken = c.raised) :
    awaitReady c = some { c with busy := 0, phase := .idle, raised := c.raised + 1, taken := c.raised + 1 } := by
  have hirq : c.irq = c.raised + 1 := by
    unfold Controller.irq
    rw [hcontrol]
    rfl
  have hfinish : c.finish = { c with busy := 0, phase := .idle, raised := c.raised + 1 } := by
    unfold Controller.finish
    rw [if_neg hbusy, hphase, hirq]
    rfl
  unfold awaitReady
  rw [hfinish, ← htaken]
  exact if_pos (Nat.lt_succ_self _)

/-- **`disk_do_read` reads the sector**, whatever was in the buffer, with one
interrupt. -/
theorem diskDoRead_spec {c : Controller} (h : c.Ready) {sector : ℕ} (hsector : sector < 268435456) (buf : Sector) :
    ∃ c', diskDoRead buf sector c = some (c.medium sector, c') ∧ c'.Ready ∧ c'.medium = c.medium ∧
      c'.raised = c.raised + 1 := by
  obtain ⟨hissue, -⟩ := issue_prepared h hsector
  obtain ⟨c1, hc1⟩ : ∃ c1 : Controller, c1 = { c.prepared sector with
      phase := .read sector 1 0, busy := c.delays c.issued + 1, issued := c.issued + 1 } := ⟨_, rfl⟩
  have hmedium : c1.medium = c.medium := by rw [hc1]; rfl
  have hraised : c1.raised = c.raised := by rw [hc1]; rfl
  have hawait := @awaitReady_read c1 sector 1 0 (by rw [hc1]) (by rw [hc1]; exact Nat.succ_ne_zero _) (by rw [hc1]; rfl)
    (by rw [hc1]; exact h.taken)
  have hrounds := @readRounds { c1 with busy := 0, raised := c1.raised + 1, taken := c1.raised + 1 } sector
    (by rw [hc1]) rfl buf 128 (Nat.le_refl _)
  have hall : (fun k : Fin 512 => if (k : ℕ) / 4 < 128 then c1.medium sector k else buf k) = c.medium sector := by
    funext k
    have hk := k.isLt
    rw [if_pos (by omega), hmedium]
  dsimp only at hrounds
  rw [hall, if_neg (Nat.lt_irrefl _)] at hrounds
  refine ⟨{ c1 with phase := .idle, busy := 0, raised := c1.raised + 1, taken := c1.raised + 1 }, ?_, ⟨rfl, rfl⟩,
    hmedium, congrArg (· + 1) hraised⟩
  unfold diskDoRead
  rw [idePrepare_eq h.idle]
  show (issueRead _).bind _ = _
  rw [hissue, ← hc1]
  show (awaitReady _).bind _ = _
  rw [hawait]
  exact hrounds

theorem writeRounds {c : Controller} {lba : ℕ} (hphase : c.phase = .write lba 1 0 fun _ => 0) (buf : Sector) {n : ℕ}
    (hn : n < 128) : (List.range n).foldlM (fun c i => outLong (longOf buf i) c) c =
      some { c with phase := .write lba 1 n fun i => if i < n then longOf buf i else 0 } := by
  induction n with
  | zero =>
    have hnone : (fun i => if i < 0 then longOf buf i else 0) = fun _ => 0 :=
      funext fun i => if_neg (Nat.not_lt_zero i)
    rw [hnone, ← hphase]
    rfl
  | succ n ih =>
    have hwords : Function.update (fun i => if i < n then longOf buf i else 0) n (longOf buf n) =
        fun i => if i < n + 1 then longOf buf i else 0 := by
      funext i
      rw [Function.update_apply]
      by_cases heq : i = n
      · rw [if_pos heq, if_pos (by omega), heq]
      · rw [if_neg heq]
        exact if_congr (by omega) rfl rfl
    rw [List.range_succ, List.foldlM_append, ih (by omega)]
    show (outLong (longOf buf n) { c with
      phase := .write lba 1 n fun i => if i < n then longOf buf i else 0 }).bind (fun c => some c) = _
    unfold outLong
    dsimp only
    rw [if_pos (by omega), hwords]
    rfl

/-- **`disk_do_write` writes the sector**, with one interrupt. -/
theorem diskDoWrite_spec {c : Controller} (h : c.Ready) {sector : ℕ} (hsector : sector < 268435456) (buf : Sector) :
    ∃ c', diskDoWrite buf sector c = some c' ∧ c'.Ready ∧ c'.medium = Function.update c.medium sector buf ∧
      c'.raised = c.raised + 1 := by
  obtain ⟨-, hissue⟩ := issue_prepared h hsector
  obtain ⟨c1, hc1⟩ : ∃ c1 : Controller, c1 = { c.prepared sector with
      phase := .write sector 1 0 fun _ => 0, issued := c.issued + 1 } := ⟨_, rfl⟩
  rw [← hc1] at hissue
  have hrounds := @writeRounds c1 sector (by rw [hc1]) buf 127 (by decide)
  -- the controller when the last word has come
  obtain ⟨c2, hc2⟩ : ∃ c2 : Controller, c2 = { c1 with
      phase := .flush (sector + 1) 0, busy := c1.delays c1.issued + 1
      medium := Function.update c1.medium sector buf } := ⟨_, rfl⟩
  have hlast : outLong (longOf buf 127) { c1 with
      phase := .write sector 1 127 fun i => if i < 127 then longOf buf i else 0 } = some c2 := by
    have hwords : sectorOfWords (Function.update (fun i => if i < 127 then longOf buf i else 0) 127 (longOf buf 127)) =
        buf := by
      refine sectorOfWords_longOf fun i hi => ?_
      rw [Function.update_apply]
      by_cases heq : i = 127
      · rw [if_pos heq, heq]
      · rw [if_neg heq, if_pos (by omega)]
    unfold outLong
    dsimp only
    rw [if_neg (by decide), hwords, hc2]
  have hall : (List.range 128).foldlM (fun c i => outLong (longOf buf i) c) c1 = some c2 := by
    rw [List.range_succ, List.foldlM_append, hrounds]
    show (outLong (longOf buf 127) { c1 with
      phase := .write sector 1 127 fun i => if i < 127 then longOf buf i else 0 }).bind (fun c => some c) = _
    rw [hlast]
    rfl
  have hawait := @awaitReady_flush c2 (sector + 1) (by rw [hc2]) (by rw [hc2]; exact Nat.succ_ne_zero _)
    (by rw [hc2, hc1]; rfl) (by rw [hc2, hc1]; exact h.taken)
  have hmedium : c2.medium = Function.update c.medium sector buf := by rw [hc2, hc1]; rfl
  have hraised : c2.raised = c.raised := by rw [hc2, hc1]; rfl
  refine ⟨{ c2 with phase := .idle, busy := 0, raised := c2.raised + 1, taken := c2.raised + 1 }, ?_, ⟨rfl, rfl⟩,
    hmedium, congrArg (· + 1) hraised⟩
  unfold diskDoWrite
  rw [idePrepare_eq h.idle]
  show (issueWrite _).bind _ = _
  rw [hissue]
  show ((List.range 128).foldlM (fun c i => outLong (longOf buf i) c) c1).bind _ = _
  rw [hall]
  exact hawait

end Ide
end NanoOS
