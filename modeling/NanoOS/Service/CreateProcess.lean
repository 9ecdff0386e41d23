/-
# What `create_process` runs

A request to make a process from a file goes through the process manager, the
file manager and the memory manager. The process manager does not look at the
name it is given: it makes a new entry for the name 1 and loads the file of
that name. So the requested file is run when it has the contents of the one
named 1, while there is room in the tables of the services, when its program
headers are in the part of the file that is read into `buf`, and when its
segments fit in the 4 MB of frames that a process has, outside the addresses
that lead to the kernel.

Key definitions: `ValidElf`, `Fitting`, `Runnable`, `RunsFiles`.
Key theorems: `ValidElf.placeable`, `Runnable.doNewProcLoad`,
`create_process_runs_file`.
-/
import NanoOS.Service.Load

namespace NanoOS
namespace Pm

open Memory Fm Mm Trans

/-- The bytes of the file `name`. -/
def fileBytes (disk : Disk) (s : Fm.State) (name : ℤ) : ℕ → BitVec 8 := fun a => disk (filePos name s + a)

/-- An ELF file: its segments have room for their bytes, which are inside the
file, and do not overlap. -/
structure ValidElf (file : ℕ → BitVec 8) : Prop where
  magic : magic file = elfMagic
  filesz : ∀ e < phnum file, (programHeader file e).filesz.toNat ≤ (programHeader file e).memsz.toNat
  inFile : ∀ e < phnum file, 0 < (programHeader file e).memsz.toNat →
    (programHeader file e).off.toNat + (programHeader file e).filesz.toNat ≤ nrFileSize
  disjoint : ∀ e e', e < e' → e' < phnum file → 0 < (programHeader file e).memsz.toNat →
    0 < (programHeader file e').memsz.toNat →
    (programHeader file e).vaddr.toNat + (programHeader file e).memsz.toNat ≤ (programHeader file e').vaddr.toNat ∨
    (programHeader file e').vaddr.toNat + (programHeader file e').memsz.toNat ≤ (programHeader file e).vaddr.toNat

/-- The fields of the program headers that are used are in the first 512 bytes;
the segments are outside the 64 MB from `KOFFSET` on, none of them crosses a
multiple of 4 MB, and none has memory where another one has it modulo 4 MB. -/
structure Fitting (file : ℕ → BitVec 8) : Prop where
  header : ∀ e < phnum file, phoff file + 32 * e + 24 ≤ 512
  user : ∀ e < phnum file, (programHeader file e).vaddr.toNat < 3221225472 ∨
    3288334336 ≤ (programHeader file e).vaddr.toNat
  region : ∀ e < phnum file,
    (programHeader file e).vaddr.toNat % 4194304 + (programHeader file e).memsz.toNat ≤ 4194304
  apart : ∀ e e', e < e' → e' < phnum file → 0 < (programHeader file e).memsz.toNat →
    0 < (programHeader file e').memsz.toNat →
    (programHeader file e).vaddr.toNat % 4194304 + (programHeader file e).memsz.toNat ≤
      (programHeader file e').vaddr.toNat % 4194304 ∨
    (programHeader file e').vaddr.toNat % 4194304 + (programHeader file e').memsz.toNat ≤
      (programHeader file e).vaddr.toNat % 4194304

theorem ValidElf.placeable {file : ℕ → BitVec 8} (hv : ValidElf file) (hf : Fitting file) : Placeable file :=
  ⟨hv.magic, hf.header, fun e he => ⟨hf.user e he, hf.region e he, hv.filesz e he, hv.inFile e he⟩, hf.apart⟩

theorem Loadable.valid {file : ℕ → BitVec 8} (h : Loadable file) : ValidElf file ∧ Fitting file := by
  have hp := h.placeable
  exact ⟨⟨h.magic, fun e he => (hp.fits e he).filesz, fun e he => (hp.fits e he).inFile, h.disjoint⟩, hp.header,
    fun e he => (hp.fits e he).user, fun e he => (hp.fits e he).region, hp.apart⟩

section

variable (disk : Disk)

/-- The requests are for ELF files, and `create_kthread` returns a new PCB. -/
def Valid (s : Loader Fm.State) : Req → Prop
  | .newFile _ => True
  | .createProcess filename pid _ _ _ => pid ∉ s.woken ∧ ValidElf (fileBytes disk s.fm filename)

/-- The file named 1 has the same contents, there is room for another file and
another process, and the program headers and the segments fit. -/
def Runnable (s : Loader Fm.State) : Req → Prop
  | .newFile _ => True
  | .createProcess filename _ _ _ _ =>
    (∀ a < nrFileSize, fileBytes disk s.fm 1 a = fileBytes disk s.fm filename a) ∧ s.fm.empty < nrMaxFile ∧
      s.mm.vmemFree < nKernelPte ∧ Fitting (fileBytes disk s.fm filename)

/-- The contents of the requested files, in the order of the requests. -/
def record (s : Loader Fm.State) (q : Req) (imgs : List (ℕ → BitVec 8)) : List (ℕ → BitVec 8) :=
  match q with
  | .newFile _ => imgs
  | .createProcess filename _ _ _ _ => imgs ++ [fileBytes disk s.fm filename]

end

variable {L : Layout} {ids : Pids} {disk : Disk} {s s' : Loader Fm.State}

variable (L) in
/-- The processes hold the requested files, in the order of the requests. -/
structure RunsFiles (s : Loader Fm.State) (imgs : List (ℕ → BitVec 8)) : Prop where
  files : Chained s.fm
  holds : ∃ g, Tables L g s.mm ∧ (∀ p, (g.slot p).isSome → p ∈ s.woken) ∧
    List.Forall₂ (fun pid file => Placeable file ∧ ∃ k, Holds g s file pid k) s.woken imgs

theorem runsFiles_init (m : PhysMem) (eip : ℕ → Word) : RunsFiles L (Loader.init L m Fm.State.init eip) [] :=
  ⟨chained_init, _, tables_init L m, fun p hp => absurd hp (by simp [Log.empty]), .nil⟩

theorem RunsFiles.ready {imgs : List (ℕ → BitVec 8)} (h : RunsFiles L s imgs) : Ready L s := by
  obtain ⟨-, g, hT, hslots, -⟩ := h
  exact ⟨g, hT, hslots⟩

theorem RunsFiles.runsElf {imgs : List (ℕ → BitVec 8)} (h : RunsFiles L s imgs) :
    List.Forall₂ (fun pid file => RunsElf file pid s) s.woken imgs := by
  obtain ⟨-, g, hT, -, hall⟩ := h
  refine hall.imp fun pid file hh => ?_
  obtain ⟨hfile, k, hk⟩ := hh
  exact hk.runsElf hT hfile

theorem Runnable.hasFile {filename : ℤ} {pid : ℕ} {m : MsgData} {buf : ℤ} {beyond : ℕ → BitVec 8}
    (hr : Runnable disk s (.createProcess filename pid m buf beyond)) (hs : Chained s.fm) :
    HasFile disk (fileBytes disk s.fm filename) s.fm := ⟨hs, hr.1⟩

theorem RunsFiles.createProcess {imgs : List (ℕ → BitVec 8)} (h : RunsFiles L s imgs) {filename : ℤ} {pid : ℕ}
    {m : MsgData} {buf : ℤ} {beyond : ℕ → BitVec 8} (hv : Valid disk s (.createProcess filename pid m buf beyond))
    (hr : Runnable disk s (.createProcess filename pid m buf beyond))
    (hs : doNewProcLoad L ids (fmServer ids.fm disk) pid m buf beyond s = some s') :
    s'.woken = s.woken ++ [pid] ∧ RunsFiles L s' (imgs ++ [fileBytes disk s.fm filename]) := by
  obtain ⟨hfiles, g, hT, hslots, hall⟩ := h
  have hfresh := slot_eq_none hslots hv.1
  have hfile := hv.2.placeable hr.2.2.2
  obtain ⟨hhas, g', hm⟩ := doNewProcLoad_makes (serves_fmThread ids.fm disk) hfile hT hfresh (hr.hasFile hfiles) hs
  refine ⟨hm.woken, hhas.1, g', hm.tables, hm.woken_of_slot hslots, ?_⟩
  rw [hm.woken]
  refine List.rel_append (hall.imp fun p file' hh => ?_) (.cons ⟨hfile, _, hm.holds⟩ .nil)
  -- an earlier process
  obtain ⟨hfile', k, hk⟩ := hh
  have hne : p ≠ pid := by
    rintro rfl
    exact absurd (hk.slot.symm.trans hfresh) (by simp)
  exact ⟨hfile', k, hm.keep hT hfile' hne hk⟩

theorem RunsFiles.step {imgs : List (ℕ → BitVec 8)} (h : RunsFiles L s imgs) {q : Req} (hv : Valid disk s q)
    (hr : Runnable disk s q) (hs : step L ids disk s q = some s') : RunsFiles L s' (record disk s q imgs) := by
  cases q with
  | newFile name =>
    obtain ⟨fm, hnew, rfl⟩ := Option.map_eq_some_iff.mp hs
    obtain ⟨hfiles, g, hT, hslots, hall⟩ := h
    exact ⟨hfiles.doNewFile hnew, g, hT, hslots, hall.imp fun p file hh =>
      ⟨hh.1, hh.2.imp fun k hk => ⟨hk.slot, hk.served, hk.eip, hk.bytes⟩⟩⟩
  | createProcess filename pid m buf beyond => exact (h.createProcess hv hr hs).2

/-- A request that can be served is served. -/
theorem Runnable.doNewProcLoad (hs : Chained s.fm) (hready : Ready L s) {filename : ℤ} {pid : ℕ} {m : MsgData}
    {buf : ℤ} {beyond : ℕ → BitVec 8} (hv : Valid disk s (.createProcess filename pid m buf beyond))
    (hr : Runnable disk s (.createProcess filename pid m buf beyond)) :
    ∃ s', doNewProcLoad L ids (fmServer ids.fm disk) pid m buf beyond s = some s' := by
  obtain ⟨fm, hnew⟩ : ∃ fm, Fm.doNewFile 1 s.fm = some fm := ⟨_, if_pos ⟨hr.2.1, by decide⟩⟩
  obtain ⟨n, hread, -⟩ := hs.doRead_doNewFile hnew
  refine doNewProcLoad_returns (serves_fmThread ids.fm disk) (answers_fmThread ids.fm disk)
    (hv.2.placeable hr.2.2.2) hready hv.1 (hr.hasFile hs) hr.2.2.1 ?_
  rw [fmServer_newFile (by simp), MsgData.i0_setHead, MsgData.i0_setI0, hnew]
  exact ⟨_, rfl, hread ▸ rfl⟩

/-- **The requested files are run**, in the order of the requests, while each
request is for a file with the contents of file 1, there is room for it, and
its program headers and segments fit: at any time all processes have the
segments of their files at their addresses, and such a request is served. -/
theorem create_process_runs_file (m : PhysMem) (eip : ℕ → Word) {imgs : List (ℕ → BitVec 8)}
    (h : Reach (withHistory (step L ids disk) (record disk)) (fun x q => Valid disk x.1 q ∧ Runnable disk x.1 q)
      (Loader.init L m Fm.State.init eip, []) (s, imgs)) :
    List.Forall₂ (fun pid file => RunsElf file pid s) s.woken imgs ∧ ∀ filename pid msg buf beyond,
      Valid disk s (.createProcess filename pid msg buf beyond) →
      Runnable disk s (.createProcess filename pid msg buf beyond) →
        ∃ s', step L ids disk s (.createProcess filename pid msg buf beyond) = some s' ∧
          s'.woken = s.woken ++ [pid] ∧ RunsElf (fileBytes disk s.fm filename) pid s' := by
  have hinv : RunsFiles L s imgs := h.invariant (I := fun x => RunsFiles L x.1 x.2) (runsFiles_init m eip) (by
    intro x q x' hx hok hst
    rw [withHistory_eq_some] at hst
    rw [hst.2]
    exact hx.step hok.1 hok.2 hst.1)
  refine ⟨hinv.runsElf, fun filename pid msg buf beyond hv hr => ?_⟩
  obtain ⟨s', hs⟩ := @Runnable.doNewProcLoad L ids disk s hinv.files hinv.ready filename pid msg buf beyond hv hr
  obtain ⟨-, hruns⟩ := doNewProcLoad_spec (serves_fmThread ids.fm disk) (hv.2.placeable hr.2.2.2) hinv.ready hv.1
    (hr.hasFile hinv.files) hs
  exact ⟨s', hs, (hinv.createProcess hv hr hs).1, hruns⟩

/-- The services at boot, with the small files. -/
def smallBoot : Loader Fm.State := Loader.init Layout.packed (fun _ _ => 0) Fm.State.init fun _ => 0

/-- A request for the file `filename`, and the PCB `pid`. -/
def smallRequest (filename : ℤ) (pid : ℕ) : Req :=
  .createProcess filename pid ⟨0, 0, 0, Vector.replicate 5 0⟩ 1048576 fun _ => 0

theorem tables_smallBoot : Tables Layout.packed Log.empty smallBoot.mm := tables_init Layout.packed fun _ _ => 0

theorem fileBytes_smallFiles {k : ℕ} {name : ℤ} {fm : Fm.State} (h : filePos name fm = 131072 * k) :
    fileBytes smallFiles fm name = smallFile k := by
  unfold fileBytes smallFile
  rw [h]

theorem doNewFile_init {name : ℤ} (h : 0 ≤ hashFileName name) : ∃ fm, Fm.doNewFile name Fm.State.init = some fm ∧
    fm = ⟨Function.update Fm.State.init.file 0 ⟨name, 0⟩,
      Function.update Fm.State.init.table (hashFileName name).toNat [0], 1⟩ :=
  ⟨_, if_pos ⟨by decide, h⟩, rfl⟩

/-- Two processes are made from file 1, and both run it in the end. -/
theorem create_process_runs_file_boot : ∃ s1 s2, step Layout.packed ⟨6, 5, 7⟩ smallFiles smallBoot (smallRequest 1 9) =
      some s1 ∧ step Layout.packed ⟨6, 5, 7⟩ smallFiles s1 (smallRequest 1 10) = some s2 ∧ s2.woken = [9, 10] ∧
      RunsElf (smallFile 0) 9 s2 ∧ RunsElf (smallFile 0) 10 s2 := by
  obtain ⟨helf, hfit⟩ := (loadable_smallFile Nat.zero_lt_two).valid
  have hok : ∀ (s : Loader Fm.State) (pid : ℕ), pid ∉ s.woken → filePos 1 s.fm = 0 → s.fm.empty < nrMaxFile →
      s.mm.vmemFree < nKernelPte → fileBytes smallFiles s.fm 1 = smallFile 0 ∧
        Valid smallFiles s (smallRequest 1 pid) ∧ Runnable smallFiles s (smallRequest 1 pid) := by
    intro s pid hpid hpos hempty hfree
    have hbytes : fileBytes smallFiles s.fm 1 = smallFile 0 := fileBytes_smallFiles hpos
    unfold smallRequest Valid Runnable
    dsimp only
    rw [hbytes]
    exact ⟨rfl, ⟨hpid, helf⟩, fun _ _ => rfl, hempty, hfree, hfit⟩
  have hinit := @Reach.init _ _ (withHistory (step Layout.packed ⟨6, 5, 7⟩ smallFiles) (record smallFiles))
    (fun x q => Valid smallFiles x.1 q ∧ Runnable smallFiles x.1 q) (smallBoot, [])
  obtain ⟨hbytes0, hv0, hr0⟩ := hok smallBoot 9 (by decide) (by decide) (by decide) (by decide)
  obtain ⟨s1, hs1, hwoken1, -⟩ := (create_process_runs_file _ _ hinit).2 1 9 _ _ _ hv0 hr0
  -- the entry for file 1 and the page directory of the first process
  obtain ⟨fm, hnew, hdef⟩ := @doNewFile_init 1 (by decide)
  have hfm : s1.fm = fm := Option.some.inj ((doNewProcLoad_fm hs1).symm.trans hnew)
  have hpos : filePos 1 fm = 0 := by
    rw [hdef]
    decide
  have hempty : fm.empty = 1 := by rw [hdef]
  obtain ⟨-, g, hmakes⟩ := doNewProcLoad_makes (serves_fmThread 5 smallFiles) (helf.placeable hfit) tables_smallBoot
    rfl hasFile_smallFile hs1
  have hfree : s1.mm.vmemFree = 1 := hmakes.free
  have hreach1 := hinit.stepHistory ⟨hv0, hr0⟩ hs1
  obtain ⟨hbytes1, hv1, hr1⟩ := hok s1 10 (by rw [hwoken1]; decide) (hfm ▸ hpos) (by rw [hfm, hempty]; decide)
    (by rw [hfree]; decide)
  obtain ⟨s2, hs2, hwoken2, hlast⟩ := (create_process_runs_file _ _ hreach1).2 1 10 _ _ _ hv1 hr1
  have hreach2 := hreach1.stepHistory ⟨hv1, hr1⟩ hs2
  have hall := (create_process_runs_file _ _ hreach2).1
  have hwoken : s2.woken = [9, 10] := by rw [hwoken2, hwoken1]; rfl
  unfold record smallRequest at hall
  dsimp only at hall
  rw [hwoken, hbytes0, hbytes1] at hall
  cases hall with
  | cons hfirst hrest => exact ⟨s1, s2, hs1, hs2, hwoken, hfirst, hbytes1 ▸ hlast⟩

/-- A process for file 2 that gets the program of the file behind it. -/
theorem create_process_ignores_name : ¬ ∀ (L : Layout) (ids : Pids) (m : PhysMem) (eip : ℕ → Word) (disk : Disk)
    (s : Loader Fm.State) (imgs : List (ℕ → BitVec 8)),
    Reach (withHistory (step L ids disk) (record disk)) (fun x q => Valid disk x.1 q)
      (Loader.init L m Fm.State.init eip, []) (s, imgs) →
    List.Forall₂ (fun pid file => RunsElf file pid s) s.woken imgs := by
  intro h
  obtain ⟨helf, -⟩ := (loadable_smallFile Nat.zero_lt_two).valid
  have hfile := (loadable_smallFile Nat.one_lt_two).placeable
  obtain ⟨fm, hnew, hdef⟩ := @doNewFile_init 2 (by decide)
  have hpos : filePos 1 fm = 131072 * 1 ∧ filePos 2 fm = 131072 * 0 := by
    rw [hdef]
    decide
  have hempty : fm.empty = 1 := by rw [hdef]
  have hchained : Chained fm := chained_init.doNewFile hnew
  have hhas : HasFile smallFiles (smallFile 1) fm := ⟨hchained, fun i _ => congrFun (fileBytes_smallFiles hpos.1) i⟩
  obtain ⟨s1, hs1⟩ : ∃ s1, s1 = { smallBoot with fm := fm } := ⟨_, rfl⟩
  have hT : Tables Layout.packed Log.empty s1.mm := hs1 ▸ tables_smallBoot
  have hwoken1 : s1.woken = [] := by rw [hs1]; rfl
  have hready : Ready Layout.packed s1 := ⟨_, hT, fun p hp => absurd hp (by simp [Log.empty])⟩
  have hfree : s1.mm.vmemFree < 16 := by
    rw [hs1]
    exact Nat.succ_pos 15
  have hfm1 : s1.fm = fm := by rw [hs1]
  -- the second slot is loaded
  obtain ⟨fm', hnew'⟩ : ∃ fm', Fm.doNewFile 1 fm = some fm' := ⟨_, if_pos ⟨by rw [hempty]; decide, by decide⟩⟩
  obtain ⟨n, hread, -⟩ := hchained.doRead_doNewFile hnew'
  obtain ⟨s2, hs2⟩ : ∃ s2, doNewProcLoad Layout.packed ⟨6, 5, 7⟩ (fmServer 5 smallFiles) 9
      ⟨0, 0, 0, Vector.replicate 5 0⟩ 1048576 (fun _ => 0) s1 = some s2 := by
    refine doNewProcLoad_returns (serves_fmThread 5 smallFiles) (answers_fmThread 5 smallFiles) hfile hready
      (by rw [hwoken1]; decide) (hfm1 ▸ hhas) hfree ?_
    rw [fmServer_newFile rfl, MsgData.i0_setHead, MsgData.i0_setI0, hfm1, hnew']
    exact ⟨_, rfl, hread ▸ rfl⟩
  obtain ⟨-, g, hmakes⟩ := doNewProcLoad_makes (serves_fmThread 5 smallFiles) hfile hT rfl (hfm1 ▸ hhas) hs2
  have hv : Valid smallFiles s1 (smallRequest 2 9) := by
    unfold smallRequest Valid
    dsimp only
    rw [hfm1, fileBytes_smallFiles hpos.2, hwoken1]
    exact ⟨by decide, helf⟩
  have hfirst : step Layout.packed ⟨6, 5, 7⟩ smallFiles smallBoot (.newFile 2) = some s1 := by
    unfold step
    rw [hs1]
    exact congrArg (Option.map _) hnew
  have hreach : Reach (withHistory (step Layout.packed ⟨6, 5, 7⟩ smallFiles) (record smallFiles))
      (fun x q => Valid smallFiles x.1 q) (smallBoot, []) (s2, record smallFiles s1 (smallRequest 2 9) []) :=
    (Reach.init.stepHistory (a := Req.newFile 2) trivial hfirst).stepHistory hv hs2
  have hall := h _ _ _ _ _ _ _ hreach
  unfold record smallRequest at hall
  dsimp only at hall
  rw [hmakes.woken, hwoken1, hfm1, fileBytes_smallFiles hpos.2] at hall
  cases hall with
  | cons hruns _ =>
    have heip := hruns.eip
    rw [hmakes.eip, Function.update_self] at heip
    exact absurd heip (by decide +kernel)

end Pm
end NanoOS
