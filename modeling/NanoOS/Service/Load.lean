/-
# Loading an ELF file

What `do_new_proc` has done when it comes to `wakeup`: the new process has the
next entry of `vmem_table` and the next 4 MB of frames, the segments of the file
are in these frames, where its page tables lead, and the earlier processes are
as they were.

What is assumed of the file manager is that it returns the bytes of file 1
(`Serves`), which the one of this kernel does (`serves_fmThread`).

Key definitions: `Serves`, `Placeable`, `Holds`, `Makes`, `Loadable`.
Key theorems: `loadEntry_spec`, `loadEntries_spec`, `doNewProcLoad_makes`,
`elf_loaded`.
-/
import Mathlib.Data.List.GetD
import NanoOS.Lib.Trans
import NanoOS.Service.Pm

namespace NanoOS
namespace Pm

open Memory Fm Mm Trans Image

/-! ### The file manager -/

/-- What is assumed of the file manager: in the states where file 1 holds
`file`, it still does after `FM_NEW_FILE` and `FM_READ`, and `FM_READ` returns
bytes of it, if they are in the file. -/
structure Serves {σ : Type} (ask : Server σ) (Has : (ℕ → BitVec 8) → σ → Prop) : Prop where
  newFile : ∀ {file s x r}, Has file s → x.type = fmNewFile → x.i0 = 1 → ask x s = some r → Has file r.1
  read : ∀ {file s x r}, Has file s → x.type = fmRead → x.i0 = 1 → ask x s = some r → Has file r.1 ∧
    (u32 x.len = 0 ∨ u32 x.offset + u32 x.len ≤ nrFileSize →
      r.2.1 = (List.range (u32 x.len)).map fun i => file (u32 x.offset + i))

/-- File 1 is, or will be made, where the disk holds `file`. -/
def HasFile (disk : Disk) (file : ℕ → BitVec 8) (s : Fm.State) : Prop :=
  Chained s ∧ ∀ i < nrFileSize, disk (filePos 1 s + i) = file i

theorem filePos_eq {s : Fm.State} {name : ℤ} {n : FileNode} (h : doRead name s = some n) :
    filePos name s = n.pos := by
  unfold filePos
  rw [h]
  rfl

theorem fmServer_newFile {fm : ℤ} {disk : Disk} {x : MsgData} {s : Fm.State} (htype : x.type = fmNewFile) :
    fmServer fm disk x s =
      (Fm.doNewFile x.i0 s).map fun s => (s, [], { x with type := 0, dest := x.src, src := fm }) := by
  unfold fmServer fmThread
  rw [if_pos htype, Option.map_map]
  rfl

theorem fmServer_read {fm : ℤ} {disk : Disk} {x : MsgData} {s : Fm.State} (htype : x.type = fmRead) :
    fmServer fm disk x s = (doRead x.i0 s).map fun n =>
      (s, devReadRam disk (n.pos + x.offset) (u32 x.len), { x with type := x.len, dest := x.src, src := fm }) := by
  unfold fmServer fmThread
  rw [if_neg (by rw [htype]; decide), if_pos htype, Option.map_map]
  rfl

/-- The file manager answers, in the states of `Live`. -/
def Answers {σ : Type} (ask : Server σ) (Live : σ → Prop) : Prop := ∀ x s, Live s → x.type = fmRead → x.i0 = 1 →
  ∃ r, ask x s = some r ∧ Live r.1

/-- The kernel's file manager returns the bytes of file 1. -/
theorem serves_fmThread (fm : ℤ) (disk : Disk) : Serves (fmServer fm disk) (HasFile disk) := by
  constructor
  · intro file s x r ⟨hs, hfile⟩ htype hname h
    rw [fmServer_newFile htype, hname, Option.map_eq_some_iff] at h
    obtain ⟨s', hnew, rfl⟩ := h
    obtain ⟨n, hread, hpos⟩ := hs.doRead_doNewFile hnew
    refine ⟨hs.doNewFile hnew, fun i hi => ?_⟩
    dsimp only
    rw [filePos_eq hread, hpos]
    exact hfile i hi
  · intro file s x r ⟨hs, hfile⟩ htype hname h
    rw [fmServer_read htype, hname, Option.map_eq_some_iff] at h
    obtain ⟨n, hread, rfl⟩ := h
    refine ⟨⟨hs, hfile⟩, fun hin => ?_⟩
    dsimp only
    unfold devReadRam
    apply List.map_congr_left
    intro i hi
    rw [List.mem_range] at hi
    have hlt := hs.doRead_pos hread
    have hsum : u32 (n.pos + x.offset) = n.pos + u32 x.offset := by
      unfold u32 at hin hi ⊢
      unfold nrFileSize at hin hlt
      omega
    rw [hsum, Nat.add_assoc, ← filePos_eq hread]
    exact hfile _ (by omega)

theorem answers_fmThread (fm : ℤ) (disk : Disk) : Answers (fmServer fm disk) fun s => (doRead 1 s).isSome := by
  intro x s hlive htype hname
  obtain ⟨n, hn⟩ := Option.isSome_iff_exists.mp hlive
  rw [fmServer_read htype, hname, hn]
  exact ⟨_, rfl, hlive⟩

/-! ### One segment -/

section

variable {σ : Type} {L : Layout} {ids : Pids} {ask : Server σ} {Has : (ℕ → BitVec 8) → σ → Prop}

/-- The frames of the kernel's page tables and of `vmem_table`. -/
def TableFrame (L : Layout) (f : ℕ) : Prop := KernelFrame L f ∨ L.vmemTable ≤ f ∧ f < L.vmemTable + 48

theorem TableFrame.lt {f : ℕ} (h : TableFrame L f) : f < 4096 := by
  have hkmem := L.kmem
  unfold TableFrame KernelFrame at h
  omega

/-- The directories depend on the frames of the tables, `vmem_free`, and the `cr3`
of the processes. -/
theorem directories_congr {g : Log} {s t : Mm.State} (h : Directories L g s) (hfree : t.vmemFree = s.vmemFree)
    (hcr3 : ∀ p, (g.slot p).isSome → t.cr3 p = s.cr3 p) (hm : ∀ f i, TableFrame L f → t.mem f i = s.mem f i) :
    Directories L g t := by
  have hbound := h.bound
  refine ⟨hfree ▸ hbound, h.kernel.congr fun f i hf => hm f i (.inl hf), fun p k hp => ?_, fun k hk i hi => ?_⟩
  · rw [hfree, hcr3 p (hp ▸ rfl)]
    exact h.cr3 p k hp
  · rw [hfree] at hk
    have hframe : TableFrame L (pdirOf L k) := by
      unfold TableFrame pdirOf vmemInfo
      omega
    rw [hm _ _ hframe]
    exact h.pdir k hk i hi

theorem tables_congr {g : Log} {s t : Mm.State} (h : Tables L g s) (hfree : t.vmemFree = s.vmemFree)
    (hcr3 : ∀ p, (g.slot p).isSome → t.cr3 p = s.cr3 p) (hm : ∀ f i, TableFrame L f → t.mem f i = s.mem f i) :
    Tables L g t := by
  have hbound := h.dirs.bound
  have htable : ∀ k < 16, TableFrame L (ptableOf L k) := by
    intro k hk
    unfold TableFrame ptableOf vmemInfo
    omega
  refine ⟨directories_congr h.dirs hfree hcr3 hm, h.inj, fun p k hp i hi => ?_, fun k hk hlt i hi => ?_,
    hfree ▸ h.epoch, h.known⟩
  · have hk := (h.dirs.cr3 p k hp).1
    rw [hm _ _ (htable k (by omega))]
    exact h.ptable p k hp i hi
  · rw [hfree] at hk
    rw [hm _ _ (htable k hlt)]
    exact h.fresh k hk hlt i hi

/-- The frames of the process that is made when `vmem_free` becomes `v` start
`frameBase v` bytes behind 32 MB. -/
def frameBase (v : ℕ) : ℕ := 4194304 * v

/-- Where the segment is in these frames. -/
def place (v : ℕ) (ph : ProgramHeader) : ℕ := frameBase v + ph.vaddr.toNat % 4194304

/-- The bytes of the processes' frames. -/
def frames (m : PhysMem) (a : ℕ) : BitVec 8 := m.loadByte (33554432 + a)

/-- What loading a segment may change. -/
def footprint (v : ℕ) (b : ℕ → BitVec 8) (e a : ℕ) : Prop :=
  place v (programHeader b e) ≤ a ∧ a < place v (programHeader b e) + (programHeader b e).memsz.toNat

/-- What a segment wants. -/
def wanted (v : ℕ) (file b : ℕ → BitVec 8) (e a : ℕ) : Option (BitVec 8) :=
  let ph := programHeader b e
  if place v ph ≤ a then content file ph.off.toNat ph.filesz.toNat ph.memsz.toNat (a - place v ph) else none

/-- A program header whose segment is inside the file, and inside 4 MB of the
addresses that do not lead to the kernel. -/
structure Fits (ph : ProgramHeader) : Prop where
  user : ph.vaddr.toNat < 3221225472 ∨ 3288334336 ≤ ph.vaddr.toNat
  region : ph.vaddr.toNat % 4194304 + ph.memsz.toNat ≤ 4194304
  filesz : ph.filesz.toNat ≤ ph.memsz.toNat
  inFile : 0 < ph.memsz.toNat → ph.off.toNat + ph.filesz.toNat ≤ nrFileSize

theorem copy_zero {m : PhysMem} (h : KernelTables L 32 m) {p filesz memsz : Word} {data : List (BitVec 8)}
    (hdata : data.length = filesz.toNat) (hle : filesz.toNat ≤ memsz.toNat) (hlo : 33554432 ≤ p.toNat)
    (hhi : p.toNat + memsz.toNat ≤ 134217728) : ∃ m1 m2 : PhysMem, copyTo (kcr3 L) p data m = some m1 ∧
      zeroTo (kcr3 L) (p + filesz) (p + memsz) m1 = some m2 ∧ (∀ f i, f < 4096 → m2 f i = m f i) ∧
      m2.loadByte = blit p.toNat memsz.toNat (fun j => if j < filesz.toNat then data.getD j 0 else 0) m.loadByte := by
  have hadd : ∀ w : Word, w.toNat ≤ memsz.toNat → (p + w).toNat = p.toNat + w.toNat := by
    intro w hw
    rw [BitVec.toNat_add]
    exact Nat.mod_eq_of_lt (by omega)
  have hcount : (p + memsz).toNat - (p + filesz).toNat = memsz.toNat - filesz.toNat := by
    rw [hadd _ (Nat.le_refl _), hadd _ hle]
    omega
  obtain ⟨m1, h1, hbytes1, hframe1⟩ := @KernelTables.copyTo L m p data h (by omega) (by omega)
  have hk1 : KernelTables L 32 m1 := by
    have hkmem := L.kmem
    refine h.congr fun f i hf => hframe1 f i ?_
    unfold KernelFrame at hf
    omega
  obtain ⟨m2, h2, hbytes2, hframe2⟩ := @KernelTables.copyTo L m1 (p + filesz)
    (List.replicate (memsz.toNat - filesz.toNat) 0) hk1 (by rw [hadd _ hle]; omega)
    (by rw [hadd _ hle, List.length_replicate]; omega)
  refine ⟨m1, m2, h1, ?_, fun f i hf => (hframe2 f i hf).trans (hframe1 f i hf), ?_⟩
  · unfold zeroTo
    rw [hcount]
    exact h2
  · -- the two blocks are one
    rw [hbytes2, hbytes1, hadd _ hle, List.length_replicate, hdata]
    have hsum : filesz.toNat + (memsz.toNat - filesz.toNat) = memsz.toNat := by omega
    have hjoin := blit_append p.toNat filesz.toNat (memsz.toNat - filesz.toNat)
      (fun j => if j < filesz.toNat then data.getD j 0 else 0) m.loadByte
    rw [hsum] at hjoin
    rw [← hjoin]
    have hfirst : blit p.toNat filesz.toNat (fun j => data.getD j 0) m.loadByte =
        blit p.toNat filesz.toNat (fun j => if j < filesz.toNat then data.getD j 0 else 0) m.loadByte :=
      blit_congr _ fun j hj => (if_pos hj).symm
    rw [hfirst]
    apply blit_congr _
    intro j hj
    rw [if_neg (by omega), List.getD_replicate _ hj]

theorem places_block {v e : ℕ} {file b : ℕ → BitVec 8} {m m' m'' : PhysMem} (hm : ∀ a, frames m' a = frames m a)
    {data : List (BitVec 8)} (hdata : data = (List.range (programHeader b e).filesz.toNat).map fun i =>
      file ((programHeader b e).off.toNat + i))
    (hle : (programHeader b e).filesz.toNat ≤ (programHeader b e).memsz.toNat)
    (h : m''.loadByte = blit (33554432 + place v (programHeader b e)) (programHeader b e).memsz.toNat
      (fun j => if j < (programHeader b e).filesz.toNat then data.getD j 0 else 0) m'.loadByte) :
    Places frames (footprint v b) (wanted v file b) e m m'' := by
  constructor
  · intro a y hy
    unfold wanted at hy
    dsimp only at hy
    split at hy
    · rename_i hpos
      obtain ⟨j, rfl⟩ := Nat.exists_eq_add_of_le hpos
      rw [Nat.add_sub_cancel_left] at hy
      have hj := content_lt hle hy
      unfold frames
      rw [h, ← Nat.add_assoc, blit_inside _ _ hj]
      unfold content at hy
      split at hy
      · rename_i hlt
        rw [if_pos hlt, hdata, List.getD_eq_getElem?_getD, List.getElem?_map, List.getElem?_range hlt]
        exact Option.some.inj hy
      · rename_i hge
        rw [if_neg hge]
        exact Option.some.inj hy
    · cases hy
  · intro a ha
    unfold footprint at ha
    rw [← hm]
    unfold frames
    rw [h]
    exact blit_outside _ _ (by omega)

/-- The round without the messages: the process gets pages, the file manager
is asked for the segment, and if it answers, the segment is copied to its place
in these pages, with no other byte of the processes' frames changed. -/
theorem loadEntry_run {file b : ℕ → BitVec 8} {g : Log} {pid k e : ℕ} {x : Loading σ} (hT : Tables L g x.mm)
    (hp : g.slot pid = some k) (hfit : Fits (programHeader b e)) : ∃ msg : MsgData, msg.type = fmRead ∧ msg.i0 = 1 ∧
    u32 msg.offset = (programHeader b e).off.toNat ∧ u32 msg.len = (programHeader b e).filesz.toNat ∧
    (ask msg x.fm = none → loadEntry L ids ask pid b x e = none) ∧
    ∀ fm data msg', ask msg x.fm = some (fm, data, msg') → (data = (List.range (programHeader b e).filesz.toNat).map
      fun i => file ((programHeader b e).off.toNat + i)) → ∃ m : PhysMem,
        loadEntry L ids ask pid b x e = some ⟨msg', fm, { x.mm with mem := m }⟩ ∧
        Tables L (g.record x.mm (.newPage pid (programHeader b e).vaddr (programHeader b e).memsz))
          { x.mm with mem := m } ∧
        Places frames (footprint x.mm.vmemFree b) (wanted x.mm.vmemFree file b) e x.mm.mem m := by
  have hbound := hT.dirs.bound
  have hregion := hfit.region
  obtain ⟨m, halloc, hm⟩ := hT.dirs.newPage hp (programHeader b e).vaddr
  obtain ⟨reply, hpage, hmm⟩ : ∃ reply : MsgData, BitVec.ofInt 32 reply.type =
      physAddr (8192 + 1024 * x.mm.vmemFree + (programHeader b e).vaddr.toNat / 4096 % 1024) (programHeader b e).vaddr ∧
      mmThread L ids.pm ids.mm (((x.msg.setI0 (programHeader b e).vaddr.toInt).setI1
        (programHeader b e).memsz.toInt).setHead pid ids.mm mmNewPage) x.mm = some (reply, { x.mm with mem := m }) := by
    refine ⟨_, ?_, (mmThread_page _ rfl rfl (by simp : _ = (programHeader b e).vaddr.toInt)).trans (by rw [halloc])⟩
    exact BitVec.ofInt_toInt
  refine ⟨((((reply.setI0 1).setBuf (BitVec.ofInt 32 reply.type).toInt).setOffset
    (programHeader b e).off.toInt).setLen (programHeader b e).filesz.toInt).setHead ids.pm ids.fm fmRead,
    rfl, by simp, ?_, ?_, fun hnone => ?_, fun fm data msg' hdata hbytes => ?_⟩
  · simp only [MsgData.offset_setHead, MsgData.offset_setLen, MsgData.offset_setOffset, u32_toInt]
  · simp only [MsgData.len_setHead, MsgData.len_setLen, u32_toInt]
  · unfold loadEntry
    simp only [Option.bind_eq_bind, hmm, Option.bind_some, hnone, Option.bind_none]
  · have hstep : Mm.step L ids.pm ids.mm x.mm (.newPage pid (programHeader b e).vaddr (programHeader b e).memsz) =
        some { x.mm with mem := m } := by
      rw [step_newPage, halloc]
    obtain ⟨hT', -, -⟩ := hT.newPage hp hfit.user hstep
    have hpa : (physAddr (8192 + 1024 * x.mm.vmemFree + (programHeader b e).vaddr.toNat / 4096 % 1024)
        (programHeader b e).vaddr).toNat = 33554432 + place x.mm.vmemFree (programHeader b e) := by
      rw [toNat_physAddr (by omega)]
      unfold place frameBase
      omega
    have hplace : place x.mm.vmemFree (programHeader b e) + (programHeader b e).memsz.toNat ≤ 71303168 := by
      unfold place frameBase
      omega
    have hlen : data.length = (programHeader b e).filesz.toNat := by
      rw [hbytes, List.length_map, List.length_range]
    obtain ⟨m1, m2, hcopy, hzero, hframe, hloaded⟩ := copy_zero hT'.dirs.kernel hlen hfit.filesz
      (by rw [hpa]; omega) (by rw [hpa]; omega)
    rw [hpa] at hloaded
    -- the page tables are not among the processes' frames
    have hpages : ∀ a, frames m a = frames x.mm.mem a := by
      intro a
      have hkmem := L.kmem
      have hk := (hT.dirs.cr3 pid k hp).1
      unfold frames PhysMem.loadByte PhysMem.load
      rw [hm, selected_user hfit.user, if_neg]
      unfold ptableOf vmemInfo
      omega
    refine ⟨m2, ?_, tables_congr hT' rfl (fun _ _ => rfl) fun f i hf => hframe f i hf.lt,
      places_block hpages hbytes hfit.filesz hloaded⟩
    rw [← hpage] at hcopy hzero
    unfold loadEntry
    simp only [Option.bind_eq_bind, hmm, Option.bind_some, hdata, hcopy, hzero, Option.pure_def]

theorem Fits.filesz_or {ph : ProgramHeader} (h : Fits ph) :
    ph.filesz.toNat = 0 ∨ ph.off.toNat + ph.filesz.toNat ≤ nrFileSize := by
  have hle := h.filesz
  rcases Nat.eq_zero_or_pos ph.memsz.toNat with hzero | hpos
  · exact .inl (by omega)
  · exact .inr (h.inFile hpos)

/-- **One segment.** -/
theorem loadEntry_spec (hask : Serves ask Has) {file b : ℕ → BitVec 8} {g : Log} {pid k e : ℕ} {x x' : Loading σ}
    (hT : Tables L g x.mm) (hp : g.slot pid = some k) (hfile : Has file x.fm) (hfit : Fits (programHeader b e))
    (h : loadEntry L ids ask pid b x e = some x') :
    Has file x'.fm ∧
    Tables L (g.record x.mm (.newPage pid (programHeader b e).vaddr (programHeader b e).memsz)) x'.mm ∧
    x'.mm.vmemFree = x.mm.vmemFree ∧ x'.mm.cr3 = x.mm.cr3 ∧
    Places (fun x : Loading σ => frames x.mm.mem) (footprint x.mm.vmemFree b) (wanted x.mm.vmemFree file b) e x x' := by
  obtain ⟨msg, htype, hname, hoff, hlen, hnone, hsome⟩ := @loadEntry_run σ L ids ask file b g pid k e x hT hp hfit
  cases hr : ask msg x.fm with
  | none => exact absurd ((hnone hr).symm.trans h) (by simp)
  | some r =>
    obtain ⟨hfile', hbytes⟩ := hask.read hfile htype hname hr
    rw [hoff, hlen] at hbytes
    obtain ⟨m, heq, hT', hplaces⟩ := hsome _ _ _ hr (hbytes hfit.filesz_or)
    obtain rfl := Option.some.inj (heq.symm.trans h)
    exact ⟨hfile', hT', rfl, rfl, hplaces.inside, hplaces.outside⟩

/-! ### All segments -/

/-- What `do_new_proc` loads as it should: an ELF file that has the fields of its
program headers in the first 512 bytes, and whose segments fit and do not meet
in the frames of the process, where addresses that are a multiple of 4 MB apart
are the same. -/
structure Placeable (file : ℕ → BitVec 8) : Prop where
  magic : magic file = elfMagic
  header : ∀ e < phnum file, phoff file + 32 * e + 24 ≤ 512
  fits : ∀ e < phnum file, Fits (programHeader file e)
  apart : ∀ e e', e < e' → e' < phnum file → 0 < (programHeader file e).memsz.toNat →
    0 < (programHeader file e').memsz.toNat →
    (programHeader file e).vaddr.toNat % 4194304 + (programHeader file e).memsz.toNat ≤
      (programHeader file e').vaddr.toNat % 4194304 ∨
    (programHeader file e').vaddr.toNat % 4194304 + (programHeader file e').memsz.toNat ≤
      (programHeader file e).vaddr.toNat % 4194304

theorem Placeable.footprints {file b : ℕ → BitVec 8} (h : Placeable file)
    (hb : ∀ e < phnum file, programHeader b e = programHeader file e) (v : ℕ) :
    (List.range (phnum file)).Pairwise fun e e' => ∀ a, footprint v b e a → ¬ footprint v b e' a := by
  refine List.Pairwise.imp_of_mem (fun {e e'} he he' hlt a ha ha' => ?_) List.pairwise_lt_range
  rw [List.mem_range] at he he'
  unfold footprint at ha ha'
  rw [hb e he] at ha
  rw [hb e' he'] at ha'
  have hapart := h.apart e e' hlt he' (by omega) (by omega)
  unfold place at ha ha'
  omega

theorem footprint_of_wanted {v e a : ℕ} {file b : ℕ → BitVec 8} {x : BitVec 8}
    (hle : (programHeader b e).filesz.toNat ≤ (programHeader b e).memsz.toNat) (h : wanted v file b e a = some x) :
    footprint v b e a := by
  unfold wanted at h
  dsimp only at h
  split at h
  · rename_i hpos
    have hlt := content_lt hle h
    unfold footprint
    omega
  · cases h

variable (L Has) in
/-- The state of the loop over the program headers, for process `pid`. -/
structure InLoop (file : ℕ → BitVec 8) (pid : ℕ) (g : Log) (start : Mm.State) (x : Loading σ) : Prop where
  has : Has file x.fm
  free : x.mm.vmemFree = start.vmemFree
  tables : ∃ g', Tables L g' x.mm ∧ g'.slot = g.slot ∧ ∀ q, q ≠ pid → g'.served q = g.served q

/-- **All segments.** After the loop every segment is at its place in the
frames of the process, which are mapped if there is a segment. The entries of
the other processes and the frames below are left alone. -/
theorem loadEntries_spec (hask : Serves ask Has) {file b : ℕ → BitVec 8} (hfile : Placeable file)
    (hb : ∀ e < phnum file, programHeader b e = programHeader file e) {g : Log} {pid k : ℕ} (hp : g.slot pid = some k)
    {x x' : Loading σ} (hhas : Has file x.fm) (hT : Tables L g x.mm)
    (h : (List.range (phnum file)).foldlM (loadEntry L ids ask pid b) x = some x') :
    Has file x'.fm ∧ x'.mm.vmemFree = x.mm.vmemFree ∧
    (∀ a < frameBase x.mm.vmemFree, frames x'.mm.mem a = frames x.mm.mem a) ∧
    (∀ e < phnum file, ∀ a y, wanted x.mm.vmemFree file file e a = some y → frames x'.mm.mem a = y) ∧
    ∃ g', Tables L g' x'.mm ∧ g'.slot = g.slot ∧ (∀ q, q ≠ pid → g'.served q = g.served q) ∧
      (0 < phnum file → g'.served pid = some x.mm.vmemFree) := by
  have hfit : ∀ e < phnum file, Fits (programHeader b e) := fun e he => hb e he ▸ hfile.fits e he
  have hstep : ∀ e ∈ List.range (phnum file), ∀ y y', InLoop L Has file pid g x.mm y →
      loadEntry L ids ask pid b y e = some y' → (InLoop L Has file pid g x.mm y' ∧
        ∃ g', Tables L g' y'.mm ∧ g'.slot = g.slot ∧ (∀ q, q ≠ pid → g'.served q = g.served q) ∧
          g'.served pid = some x.mm.vmemFree) ∧
      Places (fun x : Loading σ => frames x.mm.mem) (footprint x.mm.vmemFree b) (wanted x.mm.vmemFree file b) e y
        y' := by
    rintro e he y y' ⟨hhasy, hfree, gy, hTy, hslot, hserved⟩ hy
    rw [List.mem_range] at he
    obtain ⟨hhas', hT', hfree', -, hplaces⟩ := loadEntry_spec hask hTy (hslot ▸ hp) hhasy (hfit e he) hy
    rw [hfree] at hplaces
    have hserved' : ∀ q, q ≠ pid → (gy.record y.mm (.newPage pid (programHeader b e).vaddr
        (programHeader b e).memsz)).served q = g.served q := by
      intro q hq
      rw [Log.record_newPage, if_neg hq]
      exact hserved q hq
    refine ⟨⟨⟨hhas', hfree'.trans hfree, _, hT', hslot, hserved'⟩, _, hT', hslot, hserved', ?_⟩, hplaces⟩
    rw [Log.record_newPage, if_pos rfl, hfree]
  have hx : InLoop L Has file pid g x.mm x := ⟨hhas, rfl, g, hT, rfl, fun _ _ => rfl⟩
  obtain ⟨hloop, hwant, hrest⟩ := placed_all
    (fun e he a y hy => footprint_of_wanted (hfit e (List.mem_range.mp he)).filesz hy)
    (hfile.footprints hb x.mm.vmemFree)
    (fun e he y y' hy h => ⟨(hstep e he y y' hy h).1.1, (hstep e he y y' hy h).2⟩) hx h
  refine ⟨hloop.has, hloop.free, fun a ha => hrest a fun e _ hin => ?_,
    fun e he a y hy => hwant e (List.mem_range.mpr he) a y ?_, ?_⟩
  · unfold footprint place at hin
    omega
  · unfold wanted at hy ⊢
    rw [hb e he]
    exact hy
  · rcases Nat.eq_zero_or_pos (phnum file) with hzero | hpos
    · obtain ⟨g', hT', hslot, hserved⟩ := hloop.tables
      exact ⟨g', hT', hslot, hserved, fun hpos => absurd hpos (by omega)⟩
    · obtain ⟨g', hT', hslot, hserved, hself⟩ := foldlM_last (List.ne_nil_of_mem (List.mem_range.mpr hpos))
        (fun e he y y' hy h => (hstep e he y y' hy h).1) hx h
      exact ⟨g', hT', hslot, hserved, fun _ => hself⟩

/-! ### One process -/

/-- What is in `buf` when the first 512 bytes have been read. -/
theorem bufWith_eq {file beyond : ℕ → BitVec 8} {data : List (BitVec 8)}
    (hdata : data = (List.range (u32 512)).map fun i => file (u32 0 + i)) {a : ℕ} (ha : a < 512) :
    bufWith data beyond a = file a := by
  have hmod : a % 4294967296 = a := Nat.mod_eq_of_lt (by omega)
  have hlen : a < u32 512 := ha
  unfold bufWith
  rw [hmod, hdata, List.getElem?_map, List.getElem?_range hlen, Option.map_some, Option.getD_some]
  congr 1
  exact Nat.zero_add a

/-- What `do_new_proc` reads of the file is in `buf` when its first 512 bytes are. -/
theorem Placeable.buf {file b : ℕ → BitVec 8} (h : Placeable file) (hb : ∀ a < 512, b a = file a) :
    Pm.magic b = elfMagic ∧ entryPoint b = entryPoint file ∧ phnum b = phnum file ∧
      ∀ e < phnum file, programHeader b e = programHeader file e :=
  ⟨(u32At_congr hb (by omega)).trans h.magic, u32At_congr hb (by omega), u16At_congr hb (by omega),
    fun e he => programHeader_congr hb (h.header e he)⟩

/-- The process managers' processes have their tables. -/
def Ready (L : Layout) (s : Loader σ) : Prop := ∃ g, Tables L g s.mm ∧ ∀ p, (g.slot p).isSome → p ∈ s.woken

/-- The process `pid` is set up to run the ELF file: its `eip` is the entry
point, and through its CR3 the segments are at their addresses. -/
structure RunsElf (file : ℕ → BitVec 8) (pid : ℕ) (s : Loader σ) : Prop where
  eip : s.eip pid = entryPoint file
  bytes : ∀ e < phnum file, ∀ j < (programHeader file e).filesz.toNat,
    readVirt s.mm.mem (s.mm.cr3 pid) ((programHeader file e).vaddr + BitVec.ofNat 32 j) =
      some (file ((programHeader file e).off.toNat + j))
  zeros : ∀ e < phnum file, ∀ j, (programHeader file e).filesz.toNat ≤ j → j < (programHeader file e).memsz.toNat →
    readVirt s.mm.mem (s.mm.cr3 pid) ((programHeader file e).vaddr + BitVec.ofNat 32 j) = some 0

theorem readVirt_eq {g : Log} {t : Mm.State} {pid k v j : ℕ} {ph : ProgramHeader} (hT : Tables L g t)
    (hp : g.slot pid = some k) (hv : g.served pid = some v) (hfit : Fits ph) (hj : j < ph.memsz.toNat) :
    readVirt t.mem (t.cr3 pid) (ph.vaddr + BitVec.ofNat 32 j) = some (frames t.mem (place v ph + j)) := by
  have huser := hfit.user
  have hregion := hfit.region
  have hlt := ph.vaddr.isLt
  have hbound := hT.dirs.bound
  have hle := hT.epoch pid v hv
  have hva : (ph.vaddr + BitVec.ofNat 32 j).toNat = ph.vaddr.toNat + j := by
    rw [BitVec.toNat_add, BitVec.toNat_ofNat, Nat.mod_eq_of_lt (by omega : j < _)]
    exact Nat.mod_eq_of_lt (by omega)
  have hpa : (physAddr (8192 + 1024 * v + (ph.vaddr + BitVec.ofNat 32 j).toNat / 4096 % 1024)
      (ph.vaddr + BitVec.ofNat 32 j)).toNat = 33554432 + (place v ph + j) := by
    rw [toNat_physAddr (by omega), hva]
    unfold place frameBase
    omega
  unfold readVirt
  rw [hT.walk_user hp hv (by omega), Option.map_some, hpa]
  rfl

/-- Process `pid` has entry `k` of `vmem_table`, and the segments of `file` in its
frames. -/
structure Holds (g : Log) (s : Loader σ) (file : ℕ → BitVec 8) (pid k : ℕ) : Prop where
  slot : g.slot pid = some k
  served : 0 < phnum file → g.served pid = some (k + 1)
  eip : s.eip pid = entryPoint file
  bytes : ∀ e < phnum file, ∀ a y, wanted (k + 1) file file e a = some y → frames s.mm.mem a = y

theorem Holds.runsElf {g : Log} {s : Loader σ} {file : ℕ → BitVec 8} {pid k : ℕ} (h : Holds g s file pid k)
    (hT : Tables L g s.mm) (hfile : Placeable file) : RunsElf file pid s := by
  have hsegment : ∀ e < phnum file, ∀ j y, content file (programHeader file e).off.toNat
      (programHeader file e).filesz.toNat (programHeader file e).memsz.toNat j = some y →
      readVirt s.mm.mem (s.mm.cr3 pid) ((programHeader file e).vaddr + BitVec.ofNat 32 j) = some y := by
    intro e he j y hy
    have hfit := hfile.fits e he
    rw [readVirt_eq hT h.slot (h.served (Nat.zero_lt_of_lt he)) hfit (content_lt hfit.filesz hy), Option.some.injEq]
    apply h.bytes e he _ y
    unfold wanted
    dsimp only
    rw [if_pos (Nat.le_add_right _ _), Nat.add_sub_cancel_left]
    exact hy
  refine ⟨h.eip, fun e he j hj => hsegment e he j _ (if_pos hj), fun e he j hge hj => hsegment e he j 0 ?_⟩
  unfold content
  rw [if_neg (Nat.not_lt.mpr hge), if_pos hj]

variable (L) in
/-- What `do_new_proc` does: process `pid` gets the next entry of `vmem_table` and
the next 4 MB of frames, and holds the file; the others keep theirs. -/
structure Makes (g g' : Log) (file : ℕ → BitVec 8) (pid : ℕ) (s s' : Loader σ) : Prop where
  woken : s'.woken = s.woken ++ [pid]
  eip : s'.eip = Function.update s.eip pid (entryPoint file)
  free : s'.mm.vmemFree = s.mm.vmemFree + 1
  below : ∀ a < frameBase (s.mm.vmemFree + 1), frames s'.mm.mem a = frames s.mm.mem a
  tables : Tables L g' s'.mm
  slot : g'.slot = Function.update g.slot pid (some s.mm.vmemFree)
  served : ∀ q, q ≠ pid → g'.served q = g.served q
  holds : Holds g' s' file pid s.mm.vmemFree

theorem Makes.keep {g g' : Log} {file file' : ℕ → BitVec 8} {pid p k : ℕ} {s s' : Loader σ}
    (h : Makes L g g' file pid s s') (hT : Tables L g s.mm) (hfile' : Placeable file') (hne : p ≠ pid)
    (hh : Holds g s file' p k) : Holds g' s' file' p k := by
  have hk := (hT.dirs.cr3 p k hh.slot).1
  refine ⟨?_, fun hpos => (h.served p hne).trans (hh.served hpos), ?_, fun e he a y hy => ?_⟩
  · rw [h.slot, Function.update_of_ne hne]
    exact hh.slot
  · rw [h.eip, Function.update_of_ne hne]
    exact hh.eip
  · have hregion := (hfile'.fits e he).region
    have hin := footprint_of_wanted (hfile'.fits e he).filesz hy
    rw [h.below a ?_]
    · exact hh.bytes e he a y hy
    · unfold footprint place frameBase at hin
      unfold frameBase
      omega

theorem slot_eq_none {g : Log} {s : Loader σ} {pid : ℕ} (hslots : ∀ p, (g.slot p).isSome → p ∈ s.woken)
    (hpid : pid ∉ s.woken) : g.slot pid = none := by
  by_contra hne
  exact hpid (hslots pid (Option.isSome_iff_ne_none.mpr hne))

theorem step_newProc_frames {s t : Mm.State} {pid : ℕ} (h : Mm.step L ids.pm ids.mm s (.newProc pid) = some t) (a : ℕ) :
    frames t.mem a = frames s.mem a := by
  have hkmem := L.kmem
  have hlt := step_newProc_lt h
  obtain ⟨m, heq, hm⟩ := @step_newProc L s ids.pm ids.mm hlt pid
  have hmem : t.mem = m := congrArg Mm.State.mem (Option.some.inj (h.symm.trans heq))
  have hdir : (33554432 + a) / 4096 ≠ pdirOf L s.vmemFree ∧ (33554432 + a) / 4096 ≠ vmemInfo L s.vmemFree := by
    unfold pdirOf vmemInfo
    omega
  unfold frames PhysMem.loadByte PhysMem.load
  rw [hmem, hm, if_neg (fun h => hdir.1 h.1), if_neg (fun h => hdir.2 h.1)]

theorem Serves.buf (hask : Serves ask Has) {file : ℕ → BitVec 8} {fm : σ} {m : MsgData} {buf : ℤ}
    {r : σ × List (BitVec 8) × MsgData} (hhas : Has file fm) (h : ask (((((m.setI0 1).setBuf buf).setOffset 0).setLen
      512).setHead ids.pm ids.fm fmRead) fm = some r) (beyond : ℕ → BitVec 8) :
    Has file r.1 ∧ ∀ a < 512, bufWith r.2.1 beyond a = file a := by
  obtain ⟨hhas', hdata⟩ := hask.read hhas (by simp) (by simp) h
  simp only [MsgData.len_setHead, MsgData.len_setLen, MsgData.offset_setHead, MsgData.offset_setLen,
    MsgData.offset_setOffset] at hdata
  exact ⟨hhas', fun a ha => bufWith_eq (hdata (.inr (by decide))) ha⟩

/-- **One process.** -/
theorem doNewProcLoad_makes (hask : Serves ask Has) {file : ℕ → BitVec 8} (hfile : Placeable file) {g : Log}
    {s s' : Loader σ} {pid : ℕ} {m : MsgData} {buf : ℤ} {beyond : ℕ → BitVec 8} (hT : Tables L g s.mm)
    (hfresh : g.slot pid = none) (hhas : Has file s.fm)
    (h : doNewProcLoad L ids ask pid m buf beyond s = some s') :
    Has file s'.fm ∧ ∃ g', Makes L g g' file pid s s' := by
  obtain ⟨r1, r2, mm, msg, x, hnew, hread, -, hproc, hloop, rfl⟩ := doNewProcLoad_some h
  obtain ⟨hhas2, hb⟩ := hask.buf (hask.newFile hhas (by simp) (by simp) hnew) hread beyond
  generalize bufWith r2.2.1 beyond = b at hb hloop ⊢
  obtain ⟨-, hentry, hnum, hheader⟩ := hfile.buf hb
  obtain ⟨hT1, hfree1⟩ := hT.newProc hfresh hproc
  have hslot : (g.record s.mm (.newProc pid)).slot pid = some s.mm.vmemFree := by
    rw [Log.record_newProc, if_pos rfl]
  rw [hnum] at hloop
  obtain ⟨hhas', hfree, hbelow, hwant, g', hT', hslot', hserved, hself⟩ :=
    loadEntries_spec hask hfile hheader hslot hhas2 hT1 hloop
  dsimp only at hfree hbelow hwant hself
  rw [hfree1] at hfree hbelow hwant hself
  refine ⟨hhas', g', rfl, congrArg (Function.update s.eip pid) hentry, hfree,
    fun a ha => (hbelow a ha).trans (step_newProc_frames hproc a), hT', hslot', hserved, ⟨?_, hself, ?_, hwant⟩⟩
  · rw [hslot']
    exact hslot
  · rw [← hentry]
    exact Function.update_self ..

theorem Makes.woken_of_slot {g g' : Log} {file : ℕ → BitVec 8} {pid : ℕ} {s s' : Loader σ}
    (h : Makes L g g' file pid s s') (hslots : ∀ p, (g.slot p).isSome → p ∈ s.woken) :
    ∀ p, (g'.slot p).isSome → p ∈ s'.woken := by
  intro p hp
  rw [h.woken, List.mem_append, List.mem_singleton]
  rw [h.slot, Function.update_apply] at hp
  split at hp
  · exact .inr ‹_›
  · exact .inl (hslots p hp)

theorem doNewProcLoad_spec (hask : Serves ask Has) {file : ℕ → BitVec 8} (hfile : Placeable file) {s s' : Loader σ}
    {pid : ℕ} {m : MsgData} {buf : ℤ} {beyond : ℕ → BitVec 8} (hs : Ready L s) (hpid : pid ∉ s.woken)
    (hhas : Has file s.fm) (h : doNewProcLoad L ids ask pid m buf beyond s = some s') :
    Ready L s' ∧ RunsElf file pid s' := by
  obtain ⟨g, hT, hslots⟩ := hs
  obtain ⟨-, g', hmakes⟩ := doNewProcLoad_makes hask hfile hT (slot_eq_none hslots hpid) hhas h
  exact ⟨⟨g', hmakes.tables, hmakes.woken_of_slot hslots⟩, hmakes.holds.runsElf hmakes.tables hfile⟩

/-- The file manager of the kernel has made an entry for file 1. -/
theorem doNewProcLoad_fm {disk : Disk} {s s' : Loader Fm.State} {pid : ℕ} {m : MsgData} {buf : ℤ}
    {beyond : ℕ → BitVec 8} (h : doNewProcLoad L ids (fmServer ids.fm disk) pid m buf beyond s = some s') :
    Fm.doNewFile 1 s.fm = some s'.fm := by
  obtain ⟨r1, r2, mm, msg, x, hnew, hread, -, -, hloop, rfl⟩ := doNewProcLoad_some h
  rw [fmServer_newFile (by simp), Option.map_eq_some_iff] at hnew
  obtain ⟨fm, hfile, rfl⟩ := hnew
  rw [fmServer_read (by simp), Option.map_eq_some_iff] at hread
  obtain ⟨n, -, rfl⟩ := hread
  have hkeep : x.fm = fm := by
    refine foldlM_keeps (I := fun x : Loading Fm.State => x.fm = fm) (fun e _ y y' hy hround => ?_) rfl hloop
    obtain ⟨_, msg', _, _, -, htype, -, -, hask, -⟩ := loadEntry_some hround
    rw [fmServer_read htype, Option.map_eq_some_iff] at hask
    obtain ⟨_, -, heq⟩ := hask
    exact (congrArg Prod.fst heq).symm.trans hy
  rw [hkeep]
  simpa using hfile

/-- `do_new_proc` comes to `wakeup`, if the file manager answers and there is an
entry of `vmem_table` left. -/
theorem doNewProcLoad_returns (hask : Serves ask Has) {Live : σ → Prop} (hans : Answers ask Live)
    {file : ℕ → BitVec 8} (hfile : Placeable file) {s : Loader σ} {pid : ℕ} {m : MsgData} {buf : ℤ}
    {beyond : ℕ → BitVec 8} (hs : Ready L s) (hpid : pid ∉ s.woken) (hhas : Has file s.fm) (hfree : s.mm.vmemFree < 16)
    (hnew : ∃ r, ask ((m.setI0 1).setHead ids.pm ids.fm fmNewFile) s.fm = some r ∧ Live r.1) :
    ∃ s', doNewProcLoad L ids ask pid m buf beyond s = some s' := by
  obtain ⟨g, hT, hslots⟩ := hs
  have hfresh := slot_eq_none hslots hpid
  obtain ⟨⟨fm1, data1, m1⟩, hnew, hlive1⟩ := hnew
  obtain ⟨⟨fm2, data, m2⟩, hread, hlive2⟩ := hans (((((m1.setI0 1).setBuf buf).setOffset 0).setLen 512).setHead
    ids.pm ids.fm fmRead) fm1 hlive1 rfl (by simp)
  obtain ⟨hhas2, hb⟩ := hask.buf (hask.newFile hhas (by simp) (by simp) hnew) hread beyond
  dsimp only at hb hlive1 hlive2
  obtain ⟨hmagic, -, hnum, hheader⟩ := hfile.buf hb
  -- the memory manager has an entry left
  obtain ⟨mem, hstep, -⟩ := @step_newProc L s.mm ids.pm ids.mm hfree pid
  obtain ⟨hT2, -⟩ := hT.newProc hfresh hstep
  rw [← step_createKthread pid (entryPoint (bufWith data beyond)) s,
    ← @mmThread_proc L ids _ (m2.setHead ids.pm ids.mm mmNewProc) pid rfl, Option.map_eq_some_iff] at hstep
  obtain ⟨⟨m3, mm⟩, hmm, hmm'⟩ := hstep
  dsimp only at hmm'
  have hslot : (g.record s.mm (.newProc pid)).slot pid = some s.mm.vmemFree := by
    rw [Log.record_newProc, if_pos rfl]
  rw [← hmm'] at hT2
  obtain ⟨x, hloop⟩ : ∃ x, (List.range (phnum file)).foldlM (loadEntry L ids ask pid (bufWith data beyond))
      ⟨m3, fm2, { mm with cr3 := Function.update mm.cr3 pid (BitVec.ofInt 32 m3.type) }⟩ = some x := by
    refine foldlM_returns (I := fun x => Live x.fm ∧ Has file x.fm ∧ ∃ g', Tables L g' x.mm ∧
      g'.slot pid = some s.mm.vmemFree) ?_ ⟨hlive2, hhas2, _, hT2, hslot⟩
    rintro e he x ⟨hlive, hhas, g', hT', hp⟩
    rw [List.mem_range] at he
    have hfit : Fits (programHeader (bufWith data beyond) e) := hheader e he ▸ hfile.fits e he
    obtain ⟨msg, htype, hname, hoff, hlen, -, hsome⟩ := @loadEntry_run σ L ids ask file (bufWith data beyond) g' pid
      s.mm.vmemFree e x hT' hp hfit
    obtain ⟨r, hr, hlive'⟩ := hans msg x.fm hlive htype hname
    obtain ⟨hhas', hbytes⟩ := hask.read hhas htype hname hr
    rw [hoff, hlen] at hbytes
    obtain ⟨m', heq, hT'', -⟩ := hsome _ _ _ hr (hbytes hfit.filesz_or)
    exact ⟨_, heq, hlive', hhas', _, hT'', hp⟩
  rw [← Option.isSome_iff_exists]
  unfold doNewProcLoad
  simp only [Option.bind_eq_bind, hnew, hread, Option.bind_some, if_neg (not_not.mpr hmagic), hmm, hnum, hloop,
    Option.pure_def, Option.isSome_some]

/-! ### Runs -/

/-- The file is an ELF file with its program headers in the first 512 bytes;
its segments are in the file, disjoint, and together in 4 MB of the user
addresses. A header without memory has no bytes in the file either. -/
structure Loadable (file : ℕ → BitVec 8) : Prop where
  magic : magic file = elfMagic
  table : phoff file + 32 * phnum file ≤ 512
  segment : ∀ e < phnum file, 0 < (programHeader file e).memsz.toNat →
    (programHeader file e).filesz.toNat ≤ (programHeader file e).memsz.toNat ∧
    (programHeader file e).off.toNat + (programHeader file e).filesz.toNat ≤ nrFileSize
  region : ∃ r < 768, ∀ e < phnum file, 0 < (programHeader file e).memsz.toNat →
    4194304 * r ≤ (programHeader file e).vaddr.toNat ∧
    (programHeader file e).vaddr.toNat + (programHeader file e).memsz.toNat ≤ 4194304 * (r + 1)
  disjoint : ∀ e e', e < e' → e' < phnum file → 0 < (programHeader file e).memsz.toNat →
    0 < (programHeader file e').memsz.toNat →
    (programHeader file e).vaddr.toNat + (programHeader file e).memsz.toNat ≤ (programHeader file e').vaddr.toNat ∨
    (programHeader file e').vaddr.toNat + (programHeader file e').memsz.toNat ≤ (programHeader file e).vaddr.toNat
  empty : ∀ e < phnum file, (programHeader file e).memsz.toNat = 0 →
    (programHeader file e).filesz.toNat = 0 ∧ (programHeader file e).vaddr.toNat < 3221225472

/-- Within 4 MB, segments that do not overlap do not meet modulo 4 MB. -/
theorem Loadable.placeable {file : ℕ → BitVec 8} (h : Loadable file) : Placeable file := by
  obtain ⟨r, hr, hregion⟩ := h.region
  have htable := h.table
  refine ⟨h.magic, fun e he => by omega, fun e he => ?_, fun e e' hlt he' hpos hpos' => ?_⟩
  · rcases Nat.eq_zero_or_pos (programHeader file e).memsz.toNat with hzero | hpos
    · obtain ⟨hfilesz, huser⟩ := h.empty e he hzero
      exact ⟨.inl huser, by omega, by omega, fun hpos => absurd hpos (by omega)⟩
    · obtain ⟨hfilesz, hin⟩ := h.segment e he hpos
      have hat := hregion e he hpos
      exact ⟨.inl (by omega), by omega, hfilesz, fun _ => hin⟩
  · have hdis := h.disjoint e e' hlt he' hpos hpos'
    have hat := hregion e (by omega) hpos
    have hat' := hregion e' he' hpos'
    omega

/-- What happens: `do_new_proc`, and everything else. -/
inductive Demand (σ : Type)
  /-- `create_process`, as the process manager serves it -/
  | createProcess (pid : ℕ) (m : MsgData) (buf : ℤ) (beyond : ℕ → BitVec 8)
  /-- other threads run, until the state is `s` -/
  | other (s : Loader σ)

variable (L ids ask) in
/-- A step of the whole. -/
def loaderStep (s : Loader σ) : Demand σ → Option (Loader σ)
  | .createProcess pid m buf beyond => doNewProcLoad L ids ask pid m buf beyond s
  | .other t => some t

/-- Other threads make no process and write to no page table. -/
structure Untouched (L : Layout) (s t : Loader σ) : Prop where
  free : t.mm.vmemFree = s.mm.vmemFree
  woken : t.woken = s.woken
  cr3 : ∀ p ∈ s.woken, t.mm.cr3 p = s.mm.cr3 p
  tables : ∀ f i, TableFrame L f → t.mm.mem f i = s.mm.mem f i

variable (L Has) in
/-- `create_kthread` returns a new PCB, and file 1 can be loaded. -/
def LoadOk (s : Loader σ) : Demand σ → Prop
  | .createProcess pid _ _ _ => pid ∉ s.woken ∧ ∃ file, Has file s.fm ∧ Loadable file
  | .other t => Untouched L s t

theorem Ready.step (hask : Serves ask Has) {s s' : Loader σ} {q : Demand σ} (hs : Ready L s) (hok : LoadOk L Has s q)
    (h : loaderStep L ids ask s q = some s') : Ready L s' := by
  cases q with
  | createProcess pid m buf beyond =>
    obtain ⟨hpid, file, hhas, hfile⟩ := hok
    exact (doNewProcLoad_spec hask hfile.placeable hs hpid hhas h).1
  | other t =>
    obtain ⟨hfree, hwoken, hcr3, htables⟩ := hok
    obtain ⟨g, hT, hslots⟩ := hs
    cases h
    exact ⟨g, tables_congr hT hfree (fun p hp => hcr3 p (hslots p hp)) htables, hwoken ▸ hslots⟩

/-- **User programs are loaded faithfully.** Whenever `do_new_proc` comes to
`wakeup`, the new process has the segments of file 1 at their addresses, the
rest of their memory is zero, and it starts at the entry point. -/
theorem elf_loaded (hask : Serves ask Has) (m : PhysMem) (fm : σ) (eip : ℕ → Word) {s s' : Loader σ}
    (hr : Reach (loaderStep L ids ask) (LoadOk L Has) (Loader.init L m fm eip) s) {file : ℕ → BitVec 8}
    (hfile : Loadable file) (hhas : Has file s.fm) {pid : ℕ} (hpid : pid ∉ s.woken) {msg : MsgData} {buf : ℤ}
    {beyond : ℕ → BitVec 8} (h : doNewProcLoad L ids ask pid msg buf beyond s = some s') : RunsElf file pid s' := by
  have hready : Ready L s := hr.invariant (I := Ready L)
    ⟨_, tables_init L m, fun p hp => absurd hp (by simp [Log.empty])⟩ fun _ _ _ hx hok hst => hx.step hask hok hst
  exact (doNewProcLoad_spec hask hfile.placeable hready hpid hhas h).2

/-- A disk with small ELF files, whose entry points are 0x01000000, 0x02000000
and so on. They have one segment, a jump to itself and three bytes that the file
does not fill. -/
def smallFiles : Disk := fun a =>
  match a % 131072 with
  | 0 => 0x7f | 1 => 0x45 | 2 => 0x4c | 3 => 0x46
  | 27 => BitVec.ofNat 8 (a / 131072 + 1)
  | 28 => 52 | 44 => 1 | 56 => 84 | 63 => 8 | 68 => 2 | 72 => 5
  | 84 => 0xeb | 85 => 0xfe | 86 => 0x90
  | _ => 0

/-- The file in slot `k`. -/
def smallFile (k : ℕ) : ℕ → BitVec 8 := fun a => smallFiles (131072 * k + a)

theorem programHeader_smallFile : ∀ k < 2, phnum (smallFile k) = 1 ∧
    programHeader (smallFile k) 0 = ⟨84, 0x08000000, 2, 5⟩ := by
  decide +kernel

theorem loadable_smallFile {k : ℕ} (hk : k < 2) : Loadable (smallFile k) := by
  obtain ⟨hnum, hheader⟩ := programHeader_smallFile k hk
  have hstart : ∀ k < 2, magic (smallFile k) = elfMagic ∧ phoff (smallFile k) = 52 := by decide +kernel
  have hzero : ∀ e, e < phnum (smallFile k) → programHeader (smallFile k) e = ⟨84, 0x08000000, 2, 5⟩ := by
    intro e he
    rw [hnum, Nat.lt_one_iff] at he
    rw [he]
    exact hheader
  refine ⟨(hstart k hk).1, ?_, fun e he => ?_, ⟨32, by decide, fun e he => ?_⟩, fun e e' hlt he' => ?_, fun e he => ?_⟩
  · rw [(hstart k hk).2, hnum]
    decide
  · rw [hzero e he]
    decide
  · rw [hzero e he]
    decide
  · omega
  · rw [hzero e he]
    decide

theorem hasFile_smallFile : HasFile smallFiles (smallFile 0) Fm.State.init := by
  have hpos : filePos 1 Fm.State.init = 0 := by decide
  refine ⟨chained_init, fun i _ => ?_⟩
  rw [hpos]
  rfl

/-- The first process, from the files of the RAM disk: its second byte comes from
the file, its third one is zero. -/
theorem elf_loaded_boot : ∃ s', doNewProcLoad Layout.packed ⟨6, 5, 7⟩ (fmServer 5 smallFiles) 9
    ⟨0, 0, 0, Vector.replicate 5 0⟩ 1048576 (fun _ => 0)
    (Loader.init Layout.packed (fun _ _ => 0) Fm.State.init fun _ => 0) = some s' ∧ RunsElf (smallFile 0) 9 s' ∧
    readVirt s'.mm.mem (s'.mm.cr3 9) 0x08000001 = some 0xfe ∧ readVirt s'.mm.mem (s'.mm.cr3 9) 0x08000002 = some 0 := by
  have hfile := loadable_smallFile Nat.zero_lt_two
  have hready : Ready Layout.packed (Loader.init Layout.packed (fun _ _ => 0) Fm.State.init fun _ => 0) :=
    ⟨_, tables_init _ _, fun p hp => absurd hp (by simp [Log.empty])⟩
  obtain ⟨s', h⟩ : ∃ s', doNewProcLoad Layout.packed ⟨6, 5, 7⟩ (fmServer 5 smallFiles) 9 ⟨0, 0, 0, Vector.replicate 5 0⟩
      1048576 (fun _ => 0) (Loader.init Layout.packed (fun _ _ => 0) Fm.State.init fun _ => 0) = some s' :=
    doNewProcLoad_returns (serves_fmThread 5 smallFiles) (answers_fmThread 5 smallFiles) hfile.placeable hready
      (by decide) hasFile_smallFile (by decide) ⟨_, rfl, by decide⟩
  have hruns := elf_loaded (serves_fmThread 5 smallFiles) _ _ _ .init hfile hasFile_smallFile (by decide) h
  obtain ⟨hnum, hheader⟩ := programHeader_smallFile 0 Nat.zero_lt_two
  have hbyte := hruns.bytes 0 (hnum ▸ Nat.one_pos) 1 (by rw [hheader]; decide)
  have hzero := hruns.zeros 0 (hnum ▸ Nat.one_pos) 2 (by rw [hheader]; decide) (by rw [hheader]; decide)
  rw [hheader] at hbyte hzero
  exact ⟨s', h, hruns, hbyte, hzero⟩

end

end Pm
end NanoOS
