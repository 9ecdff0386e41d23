/-
# The process manager

`do_new_proc` makes a process from an ELF file: it reads the first 512 bytes of
the file, takes the entry point and the program headers from them, and asks the
memory manager for an address space. For each program header it asks the memory
manager for pages and the file manager for bytes in turn, in one message, where
the arguments of the two share their storage, and it fills the rest of the
segment with zeros. It writes through physical addresses, which are good as
pointers in the threads of the process manager and of the RAM disk. The file it
reads is always the one named 1, for which it makes a new entry each time.

The file manager is a parameter (`Server`); the one of the kernel is
`fmServer`.

Key definitions: `Server`, `Loader`, `loadEntry`, `doNewProcLoad`, `fmServer`,
`mmRequests`, `step`.
Key theorems: `programHeader_congr`, `loadEntry_some`, `doNewProcLoad_some`.
-/
import NanoOS.Memory.Bytes
import NanoOS.Service.Fm
import NanoOS.Service.Mm

namespace NanoOS
namespace Pm

open Memory Fm Mm

/-- `PM`, `FM` and `MM`. -/
structure Pids where
  pm : ℤ
  fm : ℤ
  mm : ℤ

/-! ### ELF files -/

/-- Two bytes, the low one first. -/
def u16At (b : ℕ → BitVec 8) (a : ℕ) : ℕ := (b a).toNat + 256 * (b (a + 1)).toNat

/-- Four bytes, the lowest one first. -/
def u32At (b : ℕ → BitVec 8) (a : ℕ) : Word := BitVec.ofNat 32 (u16At b a + 65536 * u16At b (a + 2))

/-- The fields of `struct ProgramHeader` that are used. -/
structure ProgramHeader where
  off : Word
  vaddr : Word
  filesz : Word
  memsz : Word
  deriving DecidableEq

/-- `elf->magic`. -/
def magic (b : ℕ → BitVec 8) : Word := u32At b 0

/-- `elf->entry`. -/
def entryPoint (b : ℕ → BitVec 8) : Word := u32At b 24

/-- `elf->phoff`. -/
def phoff (b : ℕ → BitVec 8) : ℕ := (u32At b 28).toNat

/-- `elf->phnum`. -/
def phnum (b : ℕ → BitVec 8) : ℕ := u16At b 44

/-- `ph[e]`. -/
def programHeader (b : ℕ → BitVec 8) (e : ℕ) : ProgramHeader :=
  let a := phoff b + 32 * e
  ⟨u32At b (a + 4), u32At b (a + 8), u32At b (a + 16), u32At b (a + 20)⟩

/-- The magic number of ELF files. -/
def elfMagic : Word := 0x464c457f#32

/-! ### Loading -/

/-- The memory from `buf` on when `data` has been read into it; `beyond` is what
follows. Pointers wrap at 2^32. -/
def bufWith (data : List (BitVec 8)) (beyond : ℕ → BitVec 8) : ℕ → BitVec 8 :=
  fun a => (data[a % 4294967296]?).getD (beyond (a % 4294967296))

/-- The file manager as its clients see it: what becomes of it, the bytes that
are copied to `m.buf`, and the reply. -/
abbrev Server (σ : Type) := MsgData → σ → Option (σ × List (BitVec 8) × MsgData)

/-- The file manager, the memory with the page tables, the saved `eip` of the
threads, and the processes that have been woken up. -/
structure Loader (σ : Type) where
  fm : σ
  mm : Mm.State
  eip : ℕ → Word
  woken : List ℕ

/-- What the loop over the program headers changes. -/
structure Loading (σ : Type) where
  msg : MsgData
  fm : σ
  mm : Mm.State

section

variable {σ : Type} (L : Layout) (ids : Pids) (ask : Server σ)

/-- One round of the loop over the program headers, with the ELF header at the
start of `b`. -/
def loadEntry (pid : ℕ) (b : ℕ → BitVec 8) (x : Loading σ) (e : ℕ) : Option (Loading σ) := do
  let ph := programHeader b e
  let m := ((x.msg.setI0 ph.vaddr.toInt).setI1 ph.memsz.toInt).setHead pid ids.mm mmNewPage
  let (m, mm) ← mmThread L ids.pm ids.mm m x.mm
  let pa := BitVec.ofInt 32 m.type
  let m := ((((m.setI0 1).setBuf pa.toInt).setOffset ph.off.toInt).setLen ph.filesz.toInt).setHead ids.pm ids.fm
    fmRead
  let (fm, data, m) ← ask m x.fm
  let mem ← copyTo (kcr3 L) pa data mm.mem
  let mem ← zeroTo (kcr3 L) (pa + ph.filesz) (pa + ph.memsz) mem
  return ⟨m, fm, { mm with mem := mem }⟩

/-- `create_kthread`, what it puts into the PCB `pid` that it takes: `cr3` and
the `eip` of its trap frame. -/
def createKthread (pid : ℕ) (fun_ : Word) (s : Loader σ) : Loader σ :=
  { s with
    mm := { s.mm with cr3 := Function.update s.mm.cr3 pid (kcr3 L) }
    eip := Function.update s.eip pid fun_ }

/-- `do_new_proc`, with the PCB `pid` that `create_kthread` returns, what is in
`m` before the first assignment, the address of `buf` and what lies behind it.
It is `none` if it panics or a service does not answer. Its parameter
`filename` is not read. -/
def doNewProcLoad (pid : ℕ) (m : MsgData) (buf : ℤ) (beyond : ℕ → BitVec 8) (s : Loader σ) : Option (Loader σ) := do
  let m := (m.setI0 1).setHead ids.pm ids.fm fmNewFile
  let (fm, _, m) ← ask m s.fm
  let m := ((((m.setI0 1).setBuf buf).setOffset 0).setLen 512).setHead ids.pm ids.fm fmRead
  let (fm, data, m) ← ask m fm
  let b := bufWith data beyond
  if magic b ≠ elfMagic then none
  else
    let s := createKthread L pid (entryPoint b) s
    let (m, mm) ← mmThread L ids.pm ids.mm (m.setHead ids.pm ids.mm mmNewProc) s.mm
    let mm := { mm with cr3 := Function.update mm.cr3 pid (BitVec.ofInt 32 m.type) }
    let x ← (List.range (phnum b)).foldlM (loadEntry L ids ask pid b) ⟨m, fm, mm⟩
    return { s with fm := x.fm, mm := x.mm, woken := s.woken ++ [pid] }

end

/-- The requests `do_new_proc` makes to the memory manager, where `buf` holds
`b`. -/
def mmRequests (pid : ℕ) (b : ℕ → BitVec 8) : List Request :=
  .newProc pid :: (List.range (phnum b)).map fun e =>
    .newPage pid (programHeader b e).vaddr (programHeader b e).memsz

/-! ### The services -/

/-- The file manager of the kernel. -/
def fmServer (fm : ℤ) (disk : Disk) : Server Fm.State := fun x s =>
  (fmThread fm disk x s).map fun o => (o.state, o.data, o.reply)

/-- What the process manager and the file manager are asked for. -/
inductive Req
  /-- `FM_NEW_FILE` from a client -/
  | newFile (name : ℤ)
  /-- `create_process`, with what `do_new_proc` finds on its stack, in `buf` and
  behind it -/
  | createProcess (filename : ℤ) (pid : ℕ) (m : MsgData) (buf : ℤ) (beyond : ℕ → BitVec 8)

/-- A request is handled. -/
def step (L : Layout) (ids : Pids) (disk : Disk) (s : Loader Fm.State) : Req → Option (Loader Fm.State)
  | .newFile name => (Fm.doNewFile name s.fm).map fun fm => { s with fm := fm }
  | .createProcess _ pid m buf beyond => doNewProcLoad L ids (fmServer ids.fm disk) pid m buf beyond s

/-- Before the first process. -/
def Loader.init {σ : Type} (L : Layout) (m : PhysMem) (fm : σ) (eip : ℕ → Word) : Loader σ := ⟨fm, Mm.init L m, eip, []⟩

/-! ### What is read -/

theorem u32_toInt (w : Word) : u32 w.toInt = w.toNat := by
  have hback := congrArg BitVec.toNat (BitVec.ofInt_toInt (x := w))
  rw [BitVec.toNat_ofInt] at hback
  exact hback

theorem u16At_congr {b b' : ℕ → BitVec 8} {a : ℕ} (h : ∀ i < 512, b i = b' i) (ha : a + 2 ≤ 512) :
    u16At b a = u16At b' a := by
  unfold u16At
  rw [h a (by omega), h (a + 1) (by omega)]

theorem u32At_congr {b b' : ℕ → BitVec 8} {a : ℕ} (h : ∀ i < 512, b i = b' i) (ha : a + 4 ≤ 512) :
    u32At b a = u32At b' a := by
  unfold u32At
  rw [u16At_congr h (by omega), u16At_congr h (by omega)]

theorem phoff_congr {b b' : ℕ → BitVec 8} (h : ∀ i < 512, b i = b' i) : phoff b = phoff b' := by
  unfold phoff
  rw [u32At_congr h (by omega)]

/-- Program headers in the first 512 bytes are read from there. -/
theorem programHeader_congr {b b' : ℕ → BitVec 8} {e : ℕ} (h : ∀ i < 512, b i = b' i)
    (he : phoff b' + 32 * e + 24 ≤ 512) : programHeader b e = programHeader b' e := by
  unfold programHeader
  rw [phoff_congr h]
  dsimp only
  rw [u32At_congr h (by omega), u32At_congr h (by omega), u32At_congr h (by omega),
    u32At_congr h (by omega)]

/-! ### What a round and the whole do -/

section

variable {σ : Type} {L : Layout} {ids : Pids} {ask : Server σ}

theorem mmThread_page {s : Mm.State} {x : MsgData} {pid : ℕ} (va : Word) (htype : x.type = mmNewPage)
    (hsrc : x.src = pid) (hva : x.i0 = va.toInt) : mmThread L ids.pm ids.mm x s =
      some ({ x with type := (doAllocateNewPages pid va s).1.toInt, dest := ids.pm, src := ids.mm },
        (doAllocateNewPages pid va s).2) := by
  unfold mmThread
  rw [if_neg (by rw [htype]; decide), if_pos htype, hsrc, hva, BitVec.ofInt_toInt, Int.toNat_natCast]

theorem mmThread_proc {s : Mm.State} {x : MsgData} (pid : ℕ) (htype : x.type = mmNewProc) :
    (mmThread L ids.pm ids.mm x s).map (fun r =>
      { r.2 with cr3 := Function.update r.2.cr3 pid (BitVec.ofInt 32 r.1.type) }) =
      Mm.step L ids.pm ids.mm s (.newProc pid) := by
  have hreq : (Request.msg ids.pm ids.mm (.newProc pid)).type = mmNewProc := rfl
  unfold Mm.step mmThread
  rw [if_pos htype, if_pos hreq, Option.map_map, Option.map_map]
  rfl

/-- `MM_NEW_PROC` replaces the CR3 that `create_kthread` has put into the PCB. -/
theorem step_createKthread (pid : ℕ) (fun_ : Word) (s : Loader σ) :
    Mm.step L ids.pm ids.mm (createKthread L pid fun_ s).mm (.newProc pid) =
      Mm.step L ids.pm ids.mm s.mm (.newProc pid) := by
  unfold Mm.step mmThread Request.msg doNewProcVmem createKthread
  dsimp only
  rw [if_pos rfl, if_pos rfl]
  split
  · simp only [Option.map_some, Function.update_idem]
  · rfl

/-- What a round has done when it is over. -/
theorem loadEntry_some {pid e : ℕ} {b : ℕ → BitVec 8} {x x' : Loading σ}
    (h : loadEntry L ids ask pid b x e = some x') : ∃ (mm : Mm.State) (msg : MsgData) (data : List (BitVec 8))
      (m1 : PhysMem),
      Mm.step L ids.pm ids.mm x.mm (.newPage pid (programHeader b e).vaddr (programHeader b e).memsz) = some mm ∧
      msg.type = fmRead ∧ msg.i0 = 1 ∧ u32 msg.len = (programHeader b e).filesz.toNat ∧
      ask msg x.fm = some (x'.fm, data, x'.msg) ∧
      copyTo (kcr3 L) (doAllocateNewPages pid (programHeader b e).vaddr x.mm).1 data mm.mem = some m1 ∧
      zeroTo (kcr3 L) ((doAllocateNewPages pid (programHeader b e).vaddr x.mm).1 + (programHeader b e).filesz)
        ((doAllocateNewPages pid (programHeader b e).vaddr x.mm).1 + (programHeader b e).memsz) m1 =
          some x'.mm.mem ∧
      x'.mm = { mm with mem := x'.mm.mem } := by
  unfold loadEntry at h
  dsimp only at h
  rw [mmThread_page (programHeader b e).vaddr rfl rfl (by simp), Option.bind_eq_bind, Option.bind_some] at h
  dsimp only at h
  rw [BitVec.ofInt_toInt] at h
  simp only [Option.bind_eq_bind, Option.bind_eq_some_iff, Option.pure_def, Option.some.injEq, Prod.exists] at h
  obtain ⟨fm, data, msg', hask, m1, hcopy, m2, hzero, rfl⟩ := h
  exact ⟨_, _, data, m1, step_newPage, rfl, by simp, by simp [u32_toInt], hask, hcopy, hzero, rfl⟩

/-- What `do_new_proc` has done when it is over. -/
theorem doNewProcLoad_some {pid : ℕ} {m : MsgData} {buf : ℤ} {beyond : ℕ → BitVec 8} {s s' : Loader σ}
    (h : doNewProcLoad L ids ask pid m buf beyond s = some s') :
    ∃ (r1 r2 : σ × List (BitVec 8) × MsgData) (mm : Mm.State) (msg : MsgData) (x : Loading σ),
      ask ((m.setI0 1).setHead ids.pm ids.fm fmNewFile) s.fm = some r1 ∧
      ask (((((r1.2.2.setI0 1).setBuf buf).setOffset 0).setLen 512).setHead ids.pm ids.fm fmRead) r1.1 = some r2 ∧
      magic (bufWith r2.2.1 beyond) = elfMagic ∧
      Mm.step L ids.pm ids.mm s.mm (.newProc pid) = some mm ∧
      (List.range (phnum (bufWith r2.2.1 beyond))).foldlM (loadEntry L ids ask pid (bufWith r2.2.1 beyond))
        ⟨msg, r2.1, mm⟩ = some x ∧
      s' = ⟨x.fm, x.mm, Function.update s.eip pid (entryPoint (bufWith r2.2.1 beyond)), s.woken ++ [pid]⟩ := by
  unfold doNewProcLoad at h
  simp only [Option.bind_eq_bind, Option.bind_eq_some_iff, Prod.exists] at h
  obtain ⟨fm1, data1, m1, hnew, fm2, data, m2, hread, h⟩ := h
  split at h
  · cases h
  · rename_i hmagic
    simp only [Option.bind_eq_some_iff, Option.pure_def, Option.some.injEq, Prod.exists] at h
    obtain ⟨m3, mm, hmm, x, hloop, rfl⟩ := h
    have hstep := @mmThread_proc L ids (createKthread L pid (entryPoint (bufWith data beyond)) s).mm
      (m2.setHead ids.pm ids.mm mmNewProc) pid rfl
    rw [hmm, Option.map_some, step_createKthread] at hstep
    exact ⟨(fm1, data1, m1), (fm2, data, m2), _, m3, x, hnew, hread, not_not.mp hmagic, hstep.symm, hloop, rfl⟩

end

end Pm
end NanoOS
