/-
# Which writeback requests are lost

`time_intr` asks for a writeback by a message with the same `src` as those of
`ide_intr`, and the wait loops of `disk_do_read` and `disk_do_write` take
whatever has that `src`: a writeback request that one of them takes is gone.
When none of them does, every request of the timer is served like those of the
threads, and the cache is written back before anything that came after it.

Key definitions: `Undisturbed`, `Sound`.
Key theorems: `writebacks_done`.
-/
import NanoOS.Drivers.Ide.Progress

namespace NanoOS
namespace Ide

open Trans Queue

variable {ide : ℤ} {s s' : Machine} {g : History} {a : Machine.Action}

/-- A message the driver has to do something for: all but those of the disk. -/
def Request.job (r : Request) : Bool := r.client || r.writeback

theorem Request.job_of_ready {r : Request} (h : r.ready = true) : r.job = false := by
  rw [ready, Bool.and_eq_true, decide_eq_true_iff] at h
  have htype : ideReady ≠ ideWriteback := by decide
  unfold job client writeback
  rw [h.1, h.2, decide_eq_false htype]
  rfl

/-- No wait loop takes a request for a writeback. -/
def Undisturbed (x : Machine × History) (a : Machine.Action) : Prop :=
  x.1.Admitted a ∧ Spares Request.writeback x.1 a

theorem Undisturbed.spares {x : Machine × History} (h : Undisturbed x a) :
    x.1.Admitted a ∧ Spares Request.job x.1 a := by
  refine ⟨h.1, h.2.of_hardIntr fun r hr hw => ?_⟩
  unfold Request.job Request.client
  rw [hr, hw]
  rfl

/-! ### The cache is in order when a message is taken -/

namespace Drive

variable {d : Drive}

theorem Inv.readLoop_inv (offset : ℤ) : ∀ {n i : ℕ} {d : Drive}, Inv d → Inv (d.readLoop offset n i).2
  | 0, _, _, hI => hI
  | _ + 1, i, _, hI => (hI.readByte (u32 (offset + i))).2.1.readLoop_inv offset

theorem Inv.writeLoop_inv (offset : ℤ) (data : ℕ → UInt8) : ∀ {n i : ℕ} {d : Drive}, Inv d →
    Inv (d.writeLoop offset data n i)
  | 0, _, _, hI => hI
  | _ + 1, i, _, hI => (hI.writeByte (u32 (offset + i)) (data i)).1.writeLoop_inv offset data

/-- A slot that is dirty is on the disk after `cache_writeback`. -/
theorem Inv.cacheWriteback_dirty (hI : Inv d) {i : ℕ} (hi : (d.cache i).dirty = true) :
    d.cacheWriteback.disk (d.cache i).sector = (d.cache i).content := by
  have hused := hI.used i hi
  rw [hI.cacheWriteback.2.2.1, view_of_cached (hI.cached hused), hI.tag i hused]

end Drive

theorem serve_inv {r : Request} {d : Drive} {o : Outcome} (hI : d.Inv) (h : serve ide r d = some o) :
    o.drive.Inv := by
  unfold serve at h
  dsimp only at h
  split at h
  · split at h
    · cases h
      exact hI.cacheWriteback.1
    · cases h
  · split at h
    · cases h
      exact hI.readLoop_inv _
    · split at h
      · cases h
        exact hI.writeLoop_inv _ _
      · cases h

theorem serve_writeback_drive {r : Request} {d : Drive} {o : Outcome} (hr : r.writeback = true)
    (h : serve ide r d = some o) : o.drive = d.cacheWriteback := by
  rw [Request.writeback, Request.hardIntr, Bool.and_eq_true, decide_eq_true_iff, decide_eq_true_iff] at hr
  obtain ⟨o', ho', hdrive⟩ := serve_writeback ide d hr.1 hr.2
  rw [h, Option.some.injEq] at ho'
  rw [ho', hdrive]

/-- The cache is in order at the head of the loop and was so when messages were
taken. -/
structure Sound (s : Machine) (g : History) : Prop where
  loop : s.control = .loop → s.drive.Inv
  before : g.before.Inv
  log : ∀ e ∈ g.served, e.before.Inv

theorem sound_boot (disk : ℕ → Sector) : Sound (Machine.boot disk) (.init (Drive.zero disk).cacheInit) where
  loop := fun _ => (Drive.inv_cacheInit disk).1
  before := (Drive.inv_cacheInit disk).1
  log := fun _ he => absurd he List.not_mem_nil

theorem Sound.step (h : Sound s g) (hI : Inv ide s g) (hs : s.step ide a = some s') :
    Sound s' (record ide s a g) := by
  cases a with
  | request r =>
    unfold Machine.step at hs
    rw [Option.some.injEq] at hs
    rw [← hs]
    exact ⟨h.loop, h.before, h.log⟩
  | tick =>
    unfold Machine.step Machine.timeIntr at hs
    rw [Option.some.injEq] at hs
    rw [← hs]
    unfold record
    dsimp only
    split
    · exact ⟨h.loop, h.before, h.log⟩
    · exact ⟨h.loop, h.before, h.log⟩
  | irq =>
    obtain ⟨cs, hphase⟩ := hI.phase
    unfold Machine.step Machine.irq14 at hs
    dsimp only at hs
    rw [Option.map_eq_some_iff] at hs
    obtain ⟨c, hc, rfl⟩ := hs
    have hno : s.control ≠ .loop := fun hctl => absurd ((hphase.of_loop hctl).1.symm.trans hc) (by simp)
    unfold record
    rw [hc]
    exact ⟨fun hctl => absurd hctl hno, h.before, h.log⟩
  | driver =>
    obtain ⟨cs, hphase⟩ := hI.phase
    have hdrv := hI.driverStep hs
    generalize record ide s .driver g = g' at hdrv
    cases hdrv with
    | take r box t hc => exact ⟨fun hctl => absurd hctl (by simp), h.loop hc, h.log⟩
    | reply r o hc =>
      refine ⟨fun _ => serve_inv h.before (hphase.of_busy hc).2.2.2, h.before, fun e he => ?_⟩
      rcases List.mem_append.mp he with he | he
      · exact h.log e he
      · rw [List.mem_singleton.mp he]
        exact h.before
    | issue r c d k hc => exact ⟨fun hctl => absurd hctl (by simp), h.before, h.log⟩
    | finish r c k m box hc => exact ⟨fun hctl => absurd hctl (by simp), h.before, h.log⟩
    | drop r c k m box hc => exact ⟨fun hctl => absurd (hc.symm.trans hctl) (by simp), h.before, h.log⟩

theorem reach_sound {disk : ℕ → Sector} {ok : Machine × History → Machine.Action → Prop}
    (hok : ∀ x a, ok x a → x.1.Admitted a)
    (h : Reach (histStep ide) ok (Machine.boot disk, .init (Drive.zero disk).cacheInit) (s, g)) : Sound s g := by
  have hboth : Inv ide s g ∧ Sound s g := by
    refine h.invariant (I := fun x => Inv ide x.1 x.2 ∧ Sound x.1 x.2) ⟨inv_boot disk, sound_boot disk⟩ ?_
    intro x a x' hx ha hs
    rw [withHistory_eq_some] at hs
    rw [hs.2]
    exact ⟨hx.1.step (hok x a ha) hs.1, hx.2.step hx.1 hs.1⟩
  exact hboth.2

/-! ### Runs in which no request is lost -/

/-- **Every writeback is done.** As long as no wait loop takes a writeback
request: the requests of the threads and of the timer that have arrived were
served, are being served or are in the mailbox, in the order of arrival; one of
the timer that was served has put every slot that was dirty when it was taken
on the disk, and has left none dirty; and if the driver and the disk get their
turns, all that have arrived are served after a while. -/
theorem writebacks_done {disk : ℕ → Sector} (h : Reach (histStep ide) Undisturbed
      (Machine.boot disk, .init (Drive.zero disk).cacheInit) (s, g)) :
    Accounted Request.job s g ∧
      (∀ e ∈ g.served, e.request.writeback = true →
        (∀ i, (e.before.cache i).dirty = true →
          e.outcome.drive.disk (e.before.cache i).sector = (e.before.cache i).content) ∧
        ∀ i < nrSecCache, (e.outcome.drive.cache i).dirty = false) ∧
      ∀ ρ : FairRun (histStep ide) Undisturbed Fair (s, g), ∃ i,
        g.arrived.filter Request.job <+: ((ρ.state i).2.served.map Served.request).filter Request.job := by
  have hsound := reach_sound (fun _ _ ha => ha.1) h
  have hI := reach_inv (fun _ _ ha => ha.1) h
  refine ⟨reach_accounted (fun _ => Request.job_of_ready) (fun _ _ ha => ha.spares) h, fun e he hw => ?_,
    served_eventually (fun _ => Request.job_of_ready) (fun _ _ ha => ha.spares) h⟩
  have hbefore := hsound.log e he
  rw [serve_writeback_drive hw (hI.log e he)]
  exact ⟨fun i hi => hbefore.cacheWriteback_dirty hi, hbefore.cacheWriteback.2.2.2⟩

instance : ∀ (p : Request → Bool) (s : Machine) (a : Machine.Action), Decidable (Spares p s a)
  | _, _, .request _ => inferInstanceAs (Decidable True)
  | _, _, .tick => inferInstanceAs (Decidable True)
  | _, _, .irq => inferInstanceAs (Decidable True)
  | _, s, .driver => inferInstanceAs (Decidable (s.control.waits = true → _))

instance (x : Machine × History) (a : Machine.Action) : Decidable (Undisturbed x a) :=
  inferInstanceAs (Decidable (_ ∧ _))

/-- A byte is written, and after a second it is written back. -/
theorem writebacks_done_byte : ∃ x, Reach (histStep 3) Undisturbed
      (Machine.boot fun _ _ => 0, .init (Drive.zero fun _ _ => 0).cacheInit) x ∧
    (x.2.served.map Served.request).countP Request.writeback = 1 ∧
    ∀ e ∈ x.2.served, e.request.writeback = true → ∀ i < nrSecCache, (e.outcome.drive.cache i).dirty = false := by
  obtain ⟨⟨s, g⟩, hreach, hserved⟩ : ∃ x, Reach (histStep 3) Undisturbed
      (Machine.boot fun _ _ => 0, .init (Drive.zero fun _ _ => 0).cacheInit) x ∧
      (x.2.served.map Served.request).countP Request.writeback = 1 :=
    Reach.exists_of_exec ([Machine.Action.request (request devWrite 0 1 7), .driver, .driver, .irq, .driver, .driver] ++
      List.replicate 100 Machine.Action.tick ++ [Machine.Action.driver, .driver, .irq, .driver, .driver]) (by decide +kernel)
  obtain ⟨-, hdone, -⟩ := writebacks_done hreach
  exact ⟨(s, g), hreach, hserved, fun e he hw => (hdone e he hw).2⟩

/-- The timer's message comes while the driver waits for the disk: it is taken
and no writeback comes of it. -/
theorem writeback_lost : ¬ ∀ (ide : ℤ) (disk : ℕ → Sector) (s : Machine) (g : History),
    Reach (histStep ide) (fun x a => x.1.Admitted a)
      (Machine.boot disk, .init (Drive.zero disk).cacheInit) (s, g) →
    g.arrived.countP Request.writeback = (g.served.map Served.request).countP Request.writeback +
      s.service.countP Request.writeback + s.box.countP Request.writeback := by
  intro h
  obtain ⟨⟨s, g⟩, hreach, hne⟩ : ∃ x, Reach (histStep 3) (fun x a => x.1.Admitted a)
      (Machine.boot fun _ _ => 0, .init (Drive.zero fun _ _ => 0).cacheInit) x ∧
      x.2.arrived.countP Request.writeback ≠ (x.2.served.map Served.request).countP Request.writeback +
        x.1.service.countP Request.writeback + x.1.box.countP Request.writeback :=
    Reach.exists_of_exec ([Machine.Action.request (request devRead 0 1 0), .driver, .driver] ++ List.replicate 100 Machine.Action.tick ++ [Machine.Action.driver])
      (by decide +kernel)
  exact hne (h _ _ s g hreach)

end Ide
end NanoOS
