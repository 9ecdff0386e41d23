/-
# The IDE driver

The loop of `ide_driver_thread` serves `DEV_READ` and `DEV_WRITE` byte by byte
through the sector cache, and writes the cache back when the timer asks for
it. To whoever sends the requests it is an array of bytes: this module
compares the two over every sequence of requests.

Key definitions: `serve`, `Request.Ok`, `Request.record`.
Key theorems: `Inv.readLoop`, `Inv.writeLoop`, `cache_invisible`.
-/
import NanoOS.Lib.Trans
import NanoOS.Drivers.Hal
import NanoOS.Drivers.Ide.Cache

namespace NanoOS

namespace Ide

open Trans

/-- `IDE_WRITEBACK`. -/
def ideWriteback : ℤ := 2

namespace Drive

/-- The loop of `DEV_READ`, from round `i` on with `n` rounds to go: the bytes
it copies to the buffer. -/
def readLoop (offset : ℤ) : ℕ → ℕ → Drive → List UInt8 × Drive
  | 0, _, d => ([], d)
  | n + 1, i, d =>
    let r := d.readByte (u32 (offset + i))
    let r' := readLoop offset n (i + 1) r.2
    (r.1 :: r'.1, r'.2)

/-- The loop of `DEV_WRITE`, with the bytes it copies from the buffer. -/
def writeLoop (offset : ℤ) (data : ℕ → UInt8) : ℕ → ℕ → Drive → Drive
  | 0, _, d => d
  | n + 1, i, d => writeLoop offset data n (i + 1) (d.writeByte (u32 (offset + i)) (data i))

end Drive

/-- A message to the driver, with the bytes `copy_to_kernel` finds in the
buffer of a `DEV_WRITE`. -/
structure Request where
  msg : MsgData
  data : ℕ → UInt8

/-- What the driver makes of a message: the bytes `copy_from_kernel` puts in
the buffer, one after the other, and the reply. -/
structure Outcome where
  drive : Drive
  out : List UInt8
  reply : Option MsgData

/-- The reply to a request: `m.ret = i; m.dest = m.src; m.src = IDE`, where
`i` has come to `m.len`. -/
def replyTo (ide : ℤ) (m : MsgData) : MsgData := { m with type := m.len, dest := m.src, src := ide }

/-- One round of `ide_driver_thread`, with `receive` done. A failed assertion
is `none`. -/
def serve (ide : ℤ) (r : Request) (d : Drive) : Option Outcome :=
  let m := r.msg
  if m.src = msgHardIntr then
    if m.type = ideWriteback then some ⟨d.cacheWriteback, [], none⟩
    else none -- panic("IDE interrupt is leaking")
  else if m.type = devRead then
    let o := d.readLoop m.offset (u32 m.len) 0
    some ⟨o.2, o.1, some (replyTo ide m)⟩
  else if m.type = devWrite then
    some ⟨d.writeLoop m.offset r.data (u32 m.len) 0, [], some (replyTo ide m)⟩
  else none -- assert(0)

/-! ### The array of bytes -/

/-- The array with `n` bytes from `offset` on overwritten. -/
def overlay (offset n : ℕ) (data : ℕ → UInt8) (F : ℕ → UInt8) : ℕ → UInt8 :=
  fun a => if offset ≤ a ∧ a < offset + n then data (a - offset) else F a

namespace Request

/-- A `DEV_READ` or `DEV_WRITE` inside the first 2^31 bytes. -/
def InRange (m : MsgData) : Prop := 0 ≤ m.offset ∧ 0 ≤ m.len ∧ m.offset + m.len ≤ 2147483648

/-- The messages the driver gets: from the timer, or device requests. -/
def Ok (r : Request) : Prop :=
  r.msg.src = msgHardIntr ∧ r.msg.type = ideWriteback ∨
  r.msg.src ≠ msgHardIntr ∧ (r.msg.type = devRead ∨ r.msg.type = devWrite) ∧ InRange r.msg

/-- What a message does to the array. -/
def record (r : Request) (F : ℕ → UInt8) : ℕ → UInt8 :=
  if r.msg.src ≠ msgHardIntr ∧ r.msg.type = devWrite then
    overlay r.msg.offset.toNat r.msg.len.toNat r.data F
  else F

end Request

/-- The driver and the array, as the messages come. -/
abbrev driverStep (ide : ℤ) : Drive × (ℕ → UInt8) → Request → Option (Drive × (ℕ → UInt8)) :=
  withHistory (fun d r => (serve ide r d).map Outcome.drive) fun _ r F => r.record F

namespace Drive

variable {d : Drive}

theorem u32_add {offset : ℤ} {i : ℕ} (h0 : 0 ≤ offset) (h : offset + i < 2147483648) :
    u32 (offset + i) = offset.toNat + i := by
  unfold u32
  omega

/-- The loop of `DEV_READ` copies the bytes of the array. -/
theorem Inv.readLoop {offset : ℤ} (h0 : 0 ≤ offset) : ∀ {n i : ℕ} {d : Drive}, Inv d →
    offset + i + n ≤ 2147483648 →
    (d.readLoop offset n i).1 = (List.range' (offset.toNat + i) n).map (flat d.view) ∧
      Inv (d.readLoop offset n i).2 ∧ (d.readLoop offset n i).2.view = d.view
  | 0, _, _, hI, _ => ⟨rfl, hI, rfl⟩
  | n + 1, i, d, hI, h => by
    obtain ⟨hbyte, h1, hview⟩ := hI.readByte (u32 (offset + i))
    obtain ⟨hrest, h2, hview'⟩ := h1.readLoop h0 (n := n) (i := i + 1) (by push_cast at h ⊢; omega)
    refine ⟨?_, h2, hview'.trans hview⟩
    simp only [Drive.readLoop]
    rw [hrest, hbyte, hview, u32_add h0 (by omega), List.range'_succ, List.map_cons, Nat.add_assoc]

/-- The loop of `DEV_WRITE` overwrites the bytes of the array. -/
theorem Inv.writeLoop {offset : ℤ} (data : ℕ → UInt8) (h0 : 0 ≤ offset) : ∀ {n i : ℕ} {d : Drive},
    Inv d → offset + i + n ≤ 2147483648 →
    Inv (d.writeLoop offset data n i) ∧ flat (d.writeLoop offset data n i).view =
      overlay (offset.toNat + i) n (fun k => data (i + k)) (flat d.view)
  | 0, i, d, hI, _ => by
    refine ⟨hI, ?_⟩
    funext a
    have hno : ¬ (offset.toNat + i ≤ a ∧ a < offset.toNat + i + 0) := by omega
    rw [overlay, if_neg hno]
    rfl
  | n + 1, i, d, hI, h => by
    obtain ⟨h1, hflat⟩ := hI.writeByte (u32 (offset + i)) (data i)
    obtain ⟨h2, hflat'⟩ := h1.writeLoop data h0 (n := n) (i := i + 1) (by push_cast at h ⊢; omega)
    unfold Drive.writeLoop
    refine ⟨h2, ?_⟩
    rw [hflat', hflat, u32_add h0 (by omega)]
    funext a
    unfold overlay
    by_cases ha : a = offset.toNat + i
    · subst ha
      rw [if_neg (by omega), if_pos (by omega), Function.update_self, Nat.sub_self]
      rfl
    · rw [Function.update_of_ne ha]
      by_cases hin : offset.toNat + (i + 1) ≤ a ∧ a < offset.toNat + (i + 1) + n
      · rw [if_pos hin, if_pos (by omega)]
        exact congrArg data (by omega)
      · rw [if_neg hin, if_neg (by omega)]

end Drive

/-! ### Every sequence of requests -/

open Drive

variable {ide : ℤ} {d : Drive} {r : Request}

theorem serve_writeback (ide : ℤ) (d : Drive) (h : r.msg.src = msgHardIntr) (ht : r.msg.type = ideWriteback) :
    ∃ o, serve ide r d = some o ∧ o.drive = d.cacheWriteback :=
  ⟨⟨d.cacheWriteback, [], none⟩, by simp [serve, h, ht], rfl⟩

theorem serve_read (ide : ℤ) (hI : Inv d) (hs : r.msg.src ≠ msgHardIntr) (ht : r.msg.type = devRead)
    (hr : Request.InRange r.msg) : ∃ d', serve ide r d =
      some ⟨d', (List.range' r.msg.offset.toNat r.msg.len.toNat).map (flat d.view),
        some (replyTo ide r.msg)⟩ ∧ Inv d' ∧ d'.view = d.view := by
  obtain ⟨h0, hlen, hle⟩ := hr
  have hn : u32 r.msg.len = r.msg.len.toNat := by
    unfold u32
    omega
  obtain ⟨hout, hI', hview⟩ := hI.readLoop h0 (n := r.msg.len.toNat) (i := 0) (by omega)
  refine ⟨_, ?_, hI', hview⟩
  rw [Nat.add_zero] at hout
  simp [serve, hs, ht, hn, hout]

theorem serve_write (ide : ℤ) (hI : Inv d) (hs : r.msg.src ≠ msgHardIntr) (ht : r.msg.type = devWrite)
    (hr : Request.InRange r.msg) : ∃ d', serve ide r d = some ⟨d', [], some (replyTo ide r.msg)⟩ ∧
      Inv d' ∧ flat d'.view = overlay r.msg.offset.toNat r.msg.len.toNat r.data (flat d.view) := by
  obtain ⟨h0, hlen, hle⟩ := hr
  have hn : u32 r.msg.len = r.msg.len.toNat := by
    unfold u32
    omega
  obtain ⟨hI', hflat⟩ := hI.writeLoop r.data h0 (n := r.msg.len.toNat) (i := 0) (by omega)
  refine ⟨_, ?_, hI', ?_⟩
  · have hne : devWrite ≠ devRead := by decide
    simp [serve, hs, ht, hn, hne]
  · simpa using hflat

theorem serve_flat (ide : ℤ) (hI : Inv d) (hok : r.Ok) : ∃ o, serve ide r d = some o ∧ Inv o.drive ∧
    flat o.drive.view = r.record (flat d.view) := by
  rcases hok with ⟨hs, ht⟩ | ⟨hs, ht | ht, hr⟩
  · obtain ⟨hI', hview, -⟩ := hI.cacheWriteback
    obtain ⟨o, hserve, ho⟩ := serve_writeback ide d hs ht
    refine ⟨o, hserve, ho ▸ hI', ?_⟩
    simp [Request.record, hs, ho, hview]
  · obtain ⟨d', hserve, hI', hview⟩ := serve_read ide hI hs ht hr
    have hne : devRead ≠ devWrite := by decide
    refine ⟨_, hserve, hI', ?_⟩
    simp [Request.record, ht, hne, hview]
  · obtain ⟨d', hserve, hI', hflat⟩ := serve_write ide hI hs ht hr
    refine ⟨_, hserve, hI', ?_⟩
    simp [Request.record, hs, ht, hflat]

theorem reach_flat {disk : ℕ → Sector} {p : Drive × (ℕ → UInt8)}
    (h : Reach (driverStep ide) (fun _ r => r.Ok) ((zero disk).cacheInit, flat disk) p) :
    Inv p.1 ∧ p.2 = flat p.1.view := by
  obtain ⟨h0, hview⟩ := inv_cacheInit disk
  refine h.invariant (I := fun p => Inv p.1 ∧ p.2 = flat p.1.view) ⟨h0, by rw [hview]⟩ ?_
  rintro p r p' ⟨hI, hF⟩ hok hs
  obtain ⟨hs, hF'⟩ := withHistory_eq_some.mp hs
  obtain ⟨o, ho, hI', hflat⟩ := serve_flat ide hI hok
  rw [ho, Option.map_some, Option.some.injEq] at hs
  rw [← hs]
  refine ⟨hI', ?_⟩
  rw [hF', hflat, hF]

/-- **The cache is invisible.** Start from any disk and `cache_init`, and let
any messages come: `IDE_WRITEBACK` of the timer, and `DEV_READ`s and
`DEV_WRITE`s inside the first 2^31 bytes. The driver answers every one of them;
a `DEV_READ` copies out the bytes of the array that the first contents of the
disk and the `DEV_WRITE`s so far make; and after a writeback the disk is that
array and no slot is dirty. -/
theorem cache_invisible {disk : ℕ → Sector} {p : Drive × (ℕ → UInt8)}
    (h : Reach (driverStep ide) (fun _ r => r.Ok) ((zero disk).cacheInit, flat disk) p) :
    ∀ r : Request, r.Ok → ∃ o, serve ide r p.1 = some o ∧
      (r.msg.src ≠ msgHardIntr ∧ r.msg.type = devRead →
        o.out = (List.range' r.msg.offset.toNat r.msg.len.toNat).map p.2) ∧
      (r.msg.src = msgHardIntr →
        flat o.drive.disk = p.2 ∧ ∀ i < nrSecCache, (o.drive.cache i).dirty = false) := by
  obtain ⟨hI, hF⟩ := reach_flat h
  intro r hok
  rcases hok with ⟨hs, ht⟩ | ⟨hs, ht | ht, hr⟩
  · obtain ⟨-, -, hdisk, hclean⟩ := hI.cacheWriteback
    obtain ⟨o, hserve, ho⟩ := serve_writeback ide p.1 hs ht
    refine ⟨o, hserve, fun h => absurd hs h.1, fun _ => ?_⟩
    rw [ho, hdisk, hF]
    exact ⟨rfl, hclean⟩
  · obtain ⟨d', hserve, -⟩ := serve_read ide hI hs ht hr
    refine ⟨_, hserve, fun _ => by rw [hF], fun h => absurd h hs⟩
  · obtain ⟨d', hserve, -⟩ := serve_write ide hI hs ht hr
    have hne : devWrite ≠ devRead := by decide
    exact ⟨_, hserve, fun h => absurd (ht.symm.trans h.2) hne, fun h => absurd h hs⟩

/-- A device request of thread 1. -/
def request (type offset len : ℤ) (x : UInt8) : Request :=
  ⟨⟨1, 0, type, #v[1, 0, 0, offset, len]⟩, fun _ => x⟩

theorem request_ok {type offset len : ℤ} {x : UInt8} (ht : type = devRead ∨ type = devWrite)
    (hr : 0 ≤ offset ∧ 0 ≤ len ∧ offset + len ≤ 2147483648) : (request type offset len x).Ok := by
  have hs : (1 : ℤ) ≠ msgHardIntr := by decide
  exact Or.inr ⟨hs, ht, hr⟩

theorem reach_serve {disk : ℕ → Sector} {p : Drive × (ℕ → UInt8)}
    (h : Reach (driverStep ide) (fun _ r => r.Ok) ((zero disk).cacheInit, flat disk) p) (hok : r.Ok) :
    ∃ d', Reach (driverStep ide) (fun _ r => r.Ok) ((zero disk).cacheInit, flat disk)
      (d', r.record p.2) := by
  obtain ⟨o, ho, -⟩ := serve_flat ide (reach_flat h).1 hok
  exact ⟨o.drive, .step h hok (withHistory_eq_some.mpr ⟨by rw [ho]; rfl, rfl⟩)⟩

/-- Two bytes written across the end of sector 0 come back after sector 128
has taken its slot. -/
theorem cache_invisible_evicted : ∃ p,
    Reach (driverStep 3) (fun _ r => r.Ok) ((zero fun _ _ => 0).cacheInit, flat fun _ _ => 0) p ∧
    ∃ o, serve 3 (request devRead 511 2 0) p.1 = some o ∧ o.out = [7, 7] := by
  obtain ⟨d1, h1⟩ := reach_serve (r := request devWrite 511 2 7) .init
    (request_ok (Or.inr rfl) (by decide))
  obtain ⟨d2, h2⟩ := reach_serve (r := request devRead 65536 1 0) h1
    (request_ok (Or.inl rfl) (by decide))
  have hok : (request devRead 511 2 0).Ok := request_ok (Or.inl rfl) (by decide)
  obtain ⟨o, ho, hread, -⟩ := cache_invisible h2 _ hok
  refine ⟨_, h2, o, ho, ?_⟩
  rw [hread ⟨by decide, rfl⟩]
  rfl

end Ide
end NanoOS
