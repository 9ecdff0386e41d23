/-
# The IDE driver on the ports of the controller

The tasks of the driver, with `disk_do_read` and `disk_do_write` done port by port. To
whoever sends the requests the cache, the driver and the controller are still an
array of bytes, for every delay of the controller; and no interrupt is left over when
a request is done, so none comes where the driver does not wait for it.

Key definitions: `Task.runOn`, `Task.Tracks`, `portServe`.
Key theorems: `Task.Tracks.runOn`, `start_tracks`, `driver_on_ports`.
-/
import NanoOS.Drivers.Ide.Port
import NanoOS.Drivers.Ide.Task

namespace NanoOS
namespace Ide

open Trans

/-- The call runs, with its commands on the controller. `disk_do_read` reads to
`ptr->content`. -/
def Task.runOn : Task → Controller → Option (Outcome × Controller)
  | .done o, c => some (o, c)
  | .issue (.read sector) d k, c =>
    match Ide.diskDoRead (d.cache (sector % nrSecCache)).content sector c with
    | some (buf, c) => runOn (k { d with disk := Function.update d.disk sector buf }) c
    | none => none
  | .issue (.write sector buf) d k, c =>
    match Ide.diskDoWrite buf sector c with
    | some c => runOn (k { d with disk := c.medium }) c
    | none => none

/-- The number of a sector that is in use has 28 bits. -/
def Drive.Numbered (d : Drive) : Prop := ∀ i, (d.cache i).sector < 268435456

/-- The call finds the disk as its commands have left it, and its commands are for
sectors that there can be. -/
def Task.Tracks : Task → (ℕ → Sector) → Prop
  | .done o, disk => o.drive.disk = disk ∧ o.drive.Numbered
  | .issue (.read sector) d k, disk => sector < 268435456 ∧ d.disk = disk ∧ (k d).Tracks disk
  | .issue (.write sector buf) d k, disk => sector < 268435456 ∧ d.disk = disk ∧
      (k (d.diskDoWrite buf sector)).Tracks (Function.update disk sector buf)

namespace Task

/-- **A call on the ports** does what it does on a disk that does its commands at once. -/
theorem Tracks.runOn {t : Task} {c : Controller} (h : t.Tracks c.medium) (hready : c.Ready) :
    ∃ c', t.runOn c = some (t.run, c') ∧ c'.Ready ∧ c'.medium = t.run.drive.disk ∧ t.run.drive.Numbered := by
  induction t generalizing c with
  | done o => exact ⟨c, rfl, hready, h.1.symm, h.2⟩
  | issue com d k ih =>
    cases com with
    | read sector =>
      obtain ⟨hsector, hdisk, hrest⟩ := h
      obtain ⟨c1, hread, hready1, hmedium, -⟩ :=
        diskDoRead_spec hready hsector (d.cache (sector % nrSecCache)).content
      have hsame : { d with disk := Function.update d.disk sector (c.medium sector) } = d := by
        rw [hdisk, Function.update_eq_self, ← hdisk]
      rw [← hmedium] at hrest
      obtain ⟨c2, hrun, hready2, hend⟩ := ih d hrest hready1
      refine ⟨c2, ?_, hready2, hend⟩
      unfold Task.runOn
      rw [hread]
      dsimp only
      rw [hsame]
      exact hrun
    | write sector buf =>
      obtain ⟨hsector, hdisk, hrest⟩ := h
      obtain ⟨c1, hwrite, hready1, hmedium, -⟩ := diskDoWrite_spec hready hsector buf
      have hsame : { d with disk := c1.medium } = d.diskDoWrite buf sector := by
        rw [hmedium, ← hdisk]
        rfl
      rw [← hmedium] at hrest
      obtain ⟨c2, hrun, hready2, hend⟩ := ih _ hrest hready1
      refine ⟨c2, ?_, hready2, hend⟩
      unfold Task.runOn
      rw [hwrite]
      dsimp only
      rw [hsame]
      exact hrun

/-! ### The calls of the driver -/

theorem numbered_setSlot {d : Drive} (hd : d.Numbered) {i : ℕ} {c : SectorCache} (hc : c.sector < 268435456) :
    (d.setSlot i c).Numbered := by
  intro j
  show (Function.update d.cache i c j).sector < 268435456
  rw [Function.update_apply]
  split_ifs
  · exact hc
  · exact hd j

theorem sectorOf_u32 (x : ℤ) : sectorOf (u32 x) < 268435456 := by
  rw [sectorOf_eq]
  unfold u32
  omega

section

variable {k : Drive → Task} {d : Drive}

theorem tracks_cacheFetch (hk : ∀ d, d.Numbered → (k d).Tracks d.disk) {sector : ℕ} (hsector : sector < 268435456)
    (hd : d.Numbered) : (cacheFetch sector k d).Tracks d.disk := by
  have hload : ∀ d : Drive, d.Numbered → (diskDoRead sector (fun content d =>
      k (d.setSlot (sector % nrSecCache) ⟨sector, true, false, content⟩)) d).Tracks d.disk :=
    fun d hd => ⟨hsector, rfl, hk _ (numbered_setSlot hd hsector)⟩
  unfold cacheFetch
  dsimp only
  split
  · exact hk d hd
  · split
    · exact ⟨hd _, rfl, hload (d.diskDoWrite _ _) hd⟩
    · exact hload d hd

theorem tracks_writebackSlots (hk : ∀ d, d.Numbered → (k d).Tracks d.disk) :
    ∀ (is : List ℕ) {d : Drive}, d.Numbered → (writebackSlots k is d).Tracks d.disk
  | [], d, hd => hk d hd
  | i :: is, d, hd => by
    unfold writebackSlots
    split
    · have hd' : (d.diskDoWrite (d.cache i).content (d.cache i).sector).Numbered := hd
      exact ⟨hd i, rfl, tracks_writebackSlots hk is (numbered_setSlot hd' (hd' i))⟩
    · exact tracks_writebackSlots hk is hd

theorem tracks_readLoop (offset : ℤ) : ∀ {n i : ℕ} {k : List UInt8 → Drive → Task} {d : Drive},
    (∀ xs d, d.Numbered → (k xs d).Tracks d.disk) → d.Numbered → (readLoop offset n i k d).Tracks d.disk
  | 0, _, _, d, hk, hd => hk [] d hd
  | n + 1, i, k, d, hk, hd => by
    unfold readLoop readByte
    refine tracks_cacheFetch (fun d hd => ?_) (sectorOf_u32 _) hd
    exact tracks_readLoop offset (fun xs d hd => hk _ d hd) hd

theorem tracks_writeLoop (offset : ℤ) (data : ℕ → UInt8) (hk : ∀ d, d.Numbered → (k d).Tracks d.disk) :
    ∀ (n i : ℕ) {d : Drive}, d.Numbered → (writeLoop offset data k n i d).Tracks d.disk
  | 0, _, d, hd => hk d hd
  | n + 1, i, d, hd => by
    unfold writeLoop writeByte
    refine tracks_cacheFetch (fun d hd => ?_) (sectorOf_u32 _) hd
    exact tracks_writeLoop offset data hk n (i + 1) (numbered_setSlot hd (hd _))

end

end Task

theorem Task.tracks_done {o : Outcome} (h : o.drive.Numbered) : (Task.done o).Tracks o.drive.disk := ⟨rfl, h⟩

/-- The body of the driver's loop, for any message. -/
theorem start_tracks {ide : ℤ} {r : Request} {d : Drive} {t : Task} (h : start ide r d = .ok t) (hd : d.Numbered) :
    t.Tracks d.disk := by
  unfold start at h
  dsimp only at h
  split at h
  · split at h
    · cases h
      exact Task.tracks_writebackSlots (fun d hd => @Task.tracks_done ⟨d, _, _⟩ hd) _ hd
    · cases h
  · split at h
    · cases h
      exact Task.tracks_readLoop _ (fun _ d hd => @Task.tracks_done ⟨d, _, _⟩ hd) hd
    · split at h
      · cases h
        exact Task.tracks_writeLoop _ _ (fun d hd => @Task.tracks_done ⟨d, _, _⟩ hd) _ _ hd
      · cases h

theorem Task.Replies.run {o : Option MsgData} {t : Task} (h : t.Replies o) : t.run.reply = o := by
  induction t with
  | done r => exact h
  | issue c d k ih => exact ih _ (h _)

theorem serve_reply {ide : ℤ} {r : Request} {d : Drive} {o : Outcome} (h : serve ide r d = some o) :
    o.reply = reply ide r.msg := by
  rw [start_run] at h
  cases hstart : start ide r d with
  | error e =>
    rw [hstart] at h
    cases h
  | ok t =>
    rw [hstart] at h
    obtain rfl : t.run = o := Option.some.inj h
    exact (start_replies hstart).run

/-! ### Every sequence of requests -/

/-- The memory of the driver, and the controller. -/
structure Driver where
  cache : ℕ → SectorCache
  ide : Controller

/-- The cache, and the disk behind the controller. -/
def Driver.drive (p : Driver) : Drive := ⟨p.cache, p.ide.medium⟩

/-- A round of `ide_driver_thread`: none if it panics, waits for ever, or does with
the controller what it should not do. -/
def portServe (ide : ℤ) (r : Request) (p : Driver) : Option (Outcome × Driver) :=
  match start ide r p.drive with
  | .ok t => (t.runOn p.ide).map fun o => (o.1, ⟨o.1.drive.cache, o.2⟩)
  | .error _ => none

/-- The driver and the array, as the messages come. -/
abbrev portStep (ide : ℤ) : Driver × (ℕ → UInt8) → Request → Option (Driver × (ℕ → UInt8)) :=
  withHistory (fun p r => (portServe ide r p).map Prod.snd) fun _ r F => r.record F

/-- What is kept: nothing is going on between two messages. -/
structure Driver.Inv (p : Driver) : Prop where
  drive : p.drive.Inv
  numbered : p.drive.Numbered
  ready : p.ide.Ready

/-- **A round on the ports** is a round on a disk that does its commands at once. -/
theorem Driver.Inv.serve {p : Driver} (hp : p.Inv) {ide : ℤ} {r : Request} {o : Outcome}
    (hserve : Ide.serve ide r p.drive = some o) (hinv : o.drive.Inv) :
    ∃ p', portServe ide r p = some (o, p') ∧ p'.Inv ∧ p'.drive = o.drive := by
  rw [start_run] at hserve
  cases hstart : start ide r p.drive with
  | error e =>
    rw [hstart] at hserve
    cases hserve
  | ok t =>
    rw [hstart] at hserve
    obtain rfl : t.run = o := Option.some.inj hserve
    obtain ⟨c, hrun, hready, hmedium, hnumbered⟩ := Task.Tracks.runOn (start_tracks hstart hp.numbered) hp.ready
    have hdrive : (⟨t.run.drive.cache, c⟩ : Driver).drive = t.run.drive := by
      unfold Driver.drive
      rw [hmedium]
    refine ⟨⟨t.run.drive.cache, c⟩, ?_, ⟨hdrive ▸ hinv, hdrive ▸ hnumbered, hready⟩, hdrive⟩
    unfold portServe
    rw [hstart]
    dsimp only
    rw [hrun]
    rfl

theorem Driver.Inv.init {c : Controller} (hready : c.Ready) :
    Driver.Inv ⟨(Drive.zero c.medium).cacheInit.cache, c⟩ ∧
      (Driver.drive ⟨(Drive.zero c.medium).cacheInit.cache, c⟩).view = c.medium := by
  obtain ⟨hinv, hview⟩ := Drive.inv_cacheInit c.medium
  have hdrive : Driver.drive ⟨(Drive.zero c.medium).cacheInit.cache, c⟩ = (Drive.zero c.medium).cacheInit := by
    rw [Drive.cacheInit_zero]
    rfl
  rw [← hdrive] at hinv hview
  refine ⟨⟨hinv, fun i => ?_, hready⟩, hview⟩
  rw [hdrive, Drive.cacheInit_zero]
  show 0 < 268435456
  decide

theorem reach_driver {ide : ℤ} {c : Controller} (hready : c.Ready) {p : Driver × (ℕ → UInt8)}
    (h : Reach (portStep ide) (fun _ r => r.Ok) (⟨(Drive.zero c.medium).cacheInit.cache, c⟩, flat c.medium) p) :
    p.1.Inv ∧ p.2 = flat p.1.drive.view := by
  obtain ⟨h0, hview⟩ := Driver.Inv.init hready
  refine h.invariant (I := fun p => p.1.Inv ∧ p.2 = flat p.1.drive.view) ⟨h0, by rw [hview]⟩ ?_
  rintro p r p' ⟨hI, hF⟩ hok hs
  obtain ⟨hs, hF'⟩ := withHistory_eq_some.mp hs
  obtain ⟨o, ho, hinv, hflat⟩ := serve_flat ide hI.drive hok
  obtain ⟨q, hserve, hq, hdrive⟩ := hI.serve ho hinv
  rw [hserve, Option.map_some, Option.some.injEq] at hs
  rw [← hs, hF', hdrive, hflat, hF]
  exact ⟨hq, rfl⟩

/-- **The driver on the ports is an array of bytes.** Start with any disk and any
delays of the controller, and let any messages come: `IDE_WRITEBACK` of the timer,
and `DEV_READ`s and `DEV_WRITE`s inside the first 2^31 bytes. The driver comes to
the end with every one of them, with all interrupts of the disk taken; a `DEV_READ`
gets the bytes of the array that the first contents of the disk and the `DEV_WRITE`s
so far make; and after a writeback the disk is that array. -/
theorem driver_on_ports {ide : ℤ} {c : Controller} (hready : c.Ready) {p : Driver × (ℕ → UInt8)}
    (h : Reach (portStep ide) (fun _ r => r.Ok) (⟨(Drive.zero c.medium).cacheInit.cache, c⟩, flat c.medium) p)
    {r : Request} (hok : r.Ok) :
    ∃ o p', portServe ide r p.1 = some (o, p') ∧ p'.ide.phase = .idle ∧ p'.ide.taken = p'.ide.raised ∧
      o.reply = reply ide r.msg ∧
      (r.msg.src ≠ msgHardIntr ∧ r.msg.type = devRead →
        o.out = (List.range' r.msg.offset.toNat r.msg.len.toNat).map p.2) ∧
      (r.msg.src = msgHardIntr → flat p'.ide.medium = p.2) := by
  obtain ⟨hI, hF⟩ := reach_driver hready h
  obtain ⟨o, ho, hinv, -⟩ := serve_flat ide hI.drive hok
  obtain ⟨p', hserve, hp', hdrive⟩ := hI.serve ho hinv
  refine ⟨o, p', hserve, hp'.ready.idle, hp'.ready.taken, serve_reply ho, ?_, ?_⟩
  · rintro ⟨hs, ht⟩
    obtain ⟨hs', -⟩ | ⟨-, -, hr⟩ := hok
    · exact absurd hs' hs
    · obtain ⟨d', hread, -⟩ := serve_read ide hI.drive hs ht hr
      obtain rfl := Option.some.inj (hread.symm.trans ho)
      rw [hF]
  · intro hs
    obtain ⟨-, ht⟩ | ⟨hs', -⟩ := hok
    · obtain ⟨-, -, hdisk, -⟩ := hI.drive.cacheWriteback
      obtain ⟨o', hwrite, ho'⟩ := serve_writeback ide p.1.drive hs ht
      obtain rfl := Option.some.inj (hwrite.symm.trans ho)
      have hmedium : p'.ide.medium = p.1.drive.view := by
        calc p'.ide.medium = p'.drive.disk := rfl
          _ = p.1.drive.cacheWriteback.disk := by rw [hdrive, ho']
          _ = p.1.drive.view := hdisk
      rw [hmedium, hF]
    · exact absurd hs hs'

theorem reach_portServe {ide : ℤ} {c : Controller} (hready : c.Ready) {p : Driver × (ℕ → UInt8)} {r : Request}
    (h : Reach (portStep ide) (fun _ r => r.Ok) (⟨(Drive.zero c.medium).cacheInit.cache, c⟩, flat c.medium) p)
    (hok : r.Ok) : ∃ q, Reach (portStep ide) (fun _ r => r.Ok)
      (⟨(Drive.zero c.medium).cacheInit.cache, c⟩, flat c.medium) (q, r.record p.2) := by
  obtain ⟨hI, -⟩ := reach_driver hready h
  obtain ⟨o, ho, hinv, -⟩ := serve_flat ide hI.drive hok
  obtain ⟨q, hserve, -⟩ := hI.serve ho hinv
  exact ⟨q, .step h hok (withHistory_eq_some.mpr ⟨by rw [hserve]; rfl, rfl⟩)⟩

/-- A controller that starts up, with a disk of zeros, and is slower with each
command. -/
def slowController : Controller := ⟨0, 0, 0, 0, 0, 0, .idle, 5, 0, 0, 0, fun n => 3 * n, fun _ _ => 0⟩

/-- Two bytes written across the end of sector 0 come back after sector 128 has taken
its slot. -/
theorem driver_on_ports_evicted : ∃ p,
    Reach (portStep 3) (fun _ r => r.Ok) (⟨(Drive.zero slowController.medium).cacheInit.cache, slowController⟩,
      flat slowController.medium) p ∧
    ∃ o p', portServe 3 (request devRead 511 2 0) p.1 = some (o, p') ∧ o.out = [7, 7] ∧
      p'.ide.taken = p'.ide.raised := by
  have hready : slowController.Ready := ⟨rfl, rfl⟩
  obtain ⟨d1, h1⟩ := @reach_portServe 3 _ hready _ (request devWrite 511 2 7) .init
    (request_ok (Or.inr rfl) (by decide))
  obtain ⟨d2, h2⟩ := reach_portServe (r := request devRead 65536 1 0) hready h1 (request_ok (Or.inl rfl) (by decide))
  obtain ⟨o, p', hserve, -, htaken, -, hread, -⟩ := driver_on_ports hready h2 (r := request devRead 511 2 0)
    (request_ok (Or.inl rfl) (by decide))
  refine ⟨_, h2, o, p', hserve, ?_, htaken⟩
  rw [hread ⟨by decide, rfl⟩]
  rfl

end Ide
end NanoOS
