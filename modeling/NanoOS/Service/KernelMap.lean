/-
# Loading an executable and the kernel's mappings

Sixteen entries of the page directory of a process are copies of the kernel's
and lead to the kernel's own page tables. `MM_NEW_PAGE` fills the page table
that the address selects, so a program header with an address there overwrites
a page table of the kernel. The contents stay the same only if the frames it
puts there are those that were there. The segments themselves are copied to the
frames of the processes, or to memory behind them, and to no page table.

Key definitions: `KernelIntact`, `HarmlessAt`, `Harmless`, `Loaded`.
Key theorems: `Directories.newPage_harmless`, `Directories.newPage_harmful`,
`loadEntry_harmless`, `doNewProcLoad_harmless`, `kernel_mapping_kept`.
-/
import NanoOS.Memory.InitPage
import NanoOS.Service.Load

namespace NanoOS
namespace Mm

open Memory Trans

variable {L : Layout} {g : Log} {s s' : State} {pm mm : ℤ} {p k : ℕ} {va size : Word} {m : PhysMem}

variable (L m) in
/-- Every kernel address is translated as after `init_page`. -/
def KernelIntact (s : State) : Prop := ∀ va : Word, 3221225472 ≤ va.toNat → va.toNat < 3355443200 →
  walk s.mem (kcr3 L) va = walk (init L m).mem (kcr3 L) va

theorem Directories.kernelIntact (h : Directories L g s) : KernelIntact L m s := by
  intro va hlo hhi
  rw [h.kernel.walk_kernel hlo hhi, (tables_init L m).dirs.kernel.walk_kernel hlo hhi]

/-- With `vmem_free = v` the address selects no page table of the kernel, or
the one for the frames that `MM_NEW_PAGE` uses. -/
def HarmlessAt (v : ℕ) (va : Word) : Prop :=
  ¬ (3221225472 ≤ va.toNat ∧ va.toNat < 3288334336) ∨ (va.toNat - 3221225472) / 4194304 = 8 + v

instance (v : ℕ) (va : Word) : Decidable (HarmlessAt v va) := inferInstanceAs (Decidable (_ ∨ _))

/-- A harmless address leaves the directories as they are. -/
theorem Directories.newPage_harmless (h : Directories L g s) (hp : g.slot p = some k)
    (hva : HarmlessAt s.vmemFree va) (hs : step L pm mm s (.newPage p va size) = some s') :
    Directories L g s' ∧ s'.vmemFree = s.vmemFree := by
  obtain ⟨m, heq, hm⟩ := h.newPage hp va
  have hk : k < 16 := Nat.lt_of_lt_of_le (h.cr3 p k hp).1 h.bound
  rw [step_newPage, heq, Option.some.injEq] at hs
  subst hs
  refine ⟨?_, rfl⟩
  by_cases hker : 768 ≤ va.toNat / 4194304 ∧ va.toNat / 4194304 < 784
  · -- the entries are rewritten with what they hold
    have hsel : selected L k va = L.kptable + (8 + s.vmemFree) := by
      unfold selected
      unfold HarmlessAt at hva
      rw [if_pos hker]
      omega
    have hsame : m = s.mem := by
      funext f i
      rw [hm, hsel]
      by_cases hin : f = L.kptable + (8 + s.vmemFree) ∧ i < 1024
      · have hidx : 1024 * (8 + s.vmemFree) + i = 8192 + 1024 * s.vmemFree + i := by omega
        unfold HarmlessAt at hva
        rw [if_pos hin, hin.1, h.kernel.table _ (by omega) i hin.2, hidx]
      · rw [if_neg hin]
    rw [hsame]
    exact h
  · have hsel : selected L k va = ptableOf L k := if_neg hker
    rw [hsel] at hm
    exact h.fill hk hm

/-- Any other address changes where kernel addresses lead. -/
theorem Directories.newPage_harmful (h : Directories L g s) (hp : g.slot p = some k)
    (hva : ¬ HarmlessAt s.vmemFree va) (hs : step L pm mm s (.newPage p va size) = some s') :
    ¬ KernelIntact L m s' := by
  obtain ⟨m', heq, hm⟩ := h.newPage hp va
  have hkmem := L.kmem
  have hbound := h.bound
  rw [step_newPage, heq, Option.some.injEq] at hs
  subst hs
  unfold HarmlessAt at hva
  rw [not_or, not_not] at hva
  obtain ⟨⟨hlo, hhi⟩, hne⟩ := hva
  generalize hj : (va.toNat - 3221225472) / 4194304 = j at hne
  have hsel : selected L k va = L.kptable + j := by
    unfold selected
    rw [if_pos (by omega)]
    omega
  rw [hsel] at hm
  intro hint
  -- the first address of the region the page table is for
  have hva0 : (BitVec.ofNat 32 (3221225472 + 4194304 * j)).toNat = 3221225472 + 4194304 * j := by
    rw [BitVec.toNat_ofNat]
    exact Nat.mod_eq_of_lt (by omega)
  generalize hv0 : BitVec.ofNat 32 (3221225472 + 4194304 * j) = va0 at hva0
  have hsep := L.kpdir_kptable
  have hpde : m' L.kpdir (va0.toNat / 4194304) = entry (L.kptable + j) := by
    have hidx : va0.toNat / 4194304 = 768 + j := by omega
    rw [hm, if_neg (by omega), hidx]
    exact h.kernel.high j (by omega)
  have hpte : m' (L.kptable + j) (va0.toNat / 4096 % 1024) = entry (8192 + 1024 * s.vmemFree) := by
    have hidx : va0.toNat / 4096 % 1024 = 0 := by omega
    rw [hm, if_pos ⟨rfl, by omega⟩, hidx, Nat.add_zero]
  have hwalk := hint va0 (by omega) (by omega)
  rw [walk_eq_some (tableOf_kcr3 L) (by omega) (by omega) hpde hpte,
    (tables_init L m).dirs.kernel.walk_kernel (by omega) (by omega), Option.some.injEq] at hwalk
  have hnat := congrArg BitVec.toNat hwalk
  rw [toNat_physAddr (by omega), toNat_physAddr (by omega)] at hnat
  omega

theorem Directories.pages_iff : ∀ {l : List (Word × Word)} {s : State}, Directories L g s → g.slot p = some k →
    (Throughout (step L pm mm) (KernelIntact L m) s (l.map fun x => .newPage p x.1 x.2) ↔
      ∀ x ∈ l, HarmlessAt s.vmemFree x.1)
  | [], s, h, _ => ⟨fun _ x hx => absurd hx List.not_mem_nil, fun _ => h.kernelIntact⟩
  | x :: l, s, h, hp => by
    have hst : step L pm mm s (.newPage p x.1 x.2) = some (doAllocateNewPages p x.1 s).2 := step_newPage
    rw [List.map_cons, List.forall_mem_cons]
    unfold Throughout
    by_cases hx : HarmlessAt s.vmemFree x.1
    · obtain ⟨h', hfree⟩ := h.newPage_harmless hp hx hst
      have ih := Directories.pages_iff (l := l) h' hp
      rw [hfree] at ih
      constructor
      · intro hall
        exact ⟨hx, ih.mp (hall.2 _ hst)⟩
      · intro hall
        refine ⟨h.kernelIntact, fun t ht => ?_⟩
        rw [hst, Option.some.injEq] at ht
        rw [← ht]
        exact ih.mpr hall.2
    · constructor
      · intro hall
        have hnot := h.newPage_harmful (m := m) hp hx hst
        have hrest := hall.2 _ hst
        cases l with
        | nil => exact absurd hrest hnot
        | cons y l => exact absurd hrest.1 hnot
      · intro hall
        exact absurd hall.1 hx

end Mm

namespace Pm

open Memory Fm Mm Trans Image

variable {L : Layout} {ids : Pids} {m : PhysMem} {disk : Disk} {s s' : Loader Fm.State}

/-- No program header selects a page table of the kernel, except the one for
the frames that the process gets; `v` is `vmem_free` before. -/
def Harmless (v : ℕ) (b : ℕ → BitVec 8) : Prop :=
  ∀ e < phnum b, HarmlessAt (v + 1) (programHeader b e).vaddr

theorem mmRequests_eq (pid : ℕ) (b : ℕ → BitVec 8) : mmRequests pid b = .newProc pid ::
    ((List.range (phnum b)).map fun e => ((programHeader b e).vaddr, (programHeader b e).memsz)).map
      fun x => .newPage pid x.1 x.2 := by
  rw [List.map_map]
  rfl

theorem harmless_iff (v : ℕ) (b : ℕ → BitVec 8) : Harmless v b ↔ ∀ x ∈ (List.range (phnum b)).map fun e =>
    ((programHeader b e).vaddr, (programHeader b e).memsz), HarmlessAt (v + 1) x.1 := by
  simp only [Harmless, List.forall_mem_map, List.mem_range]

/-- **Which executables leave the kernel's mappings alone.** -/
theorem requests_iff {g : Log} {t : Mm.State} (h : Directories L g t) (hv : t.vmemFree < 16) (pid : ℕ)
    (b : ℕ → BitVec 8) :
    Throughout (Mm.step L ids.pm ids.mm) (KernelIntact L m) t (mmRequests pid b) ↔ Harmless t.vmemFree b := by
  obtain ⟨m', hst, hm⟩ := @step_newProc L t ids.pm ids.mm hv pid
  have h' := h.newProc (p := pid) hv hm
  have hslot : (g.record t (.newProc pid)).slot pid = some t.vmemFree := by
    rw [Log.record_newProc, if_pos rfl]
  rw [mmRequests_eq, harmless_iff]
  unfold Throughout
  constructor
  · intro hall
    exact (h'.pages_iff hslot).mp (hall.2 _ hst)
  · intro hall
    refine ⟨h.kernelIntact, fun t' ht => ?_⟩
    rw [hst, Option.some.injEq] at ht
    rw [← ht]
    exact (h'.pages_iff hslot).mpr hall

/-! ### Runs -/

/-- What `do_new_proc` finds in `buf`. -/
def bufFor (disk : Disk) (s : Fm.State) (beyond : ℕ → BitVec 8) : ℕ → BitVec 8 :=
  bufWith (devReadRam disk (filePos 1 s) 512) beyond

/-- The executables that are loaded are harmless. -/
def LoadsHarmless (disk : Disk) (s : Loader Fm.State) : Req → Prop
  | .newFile _ => True
  | .createProcess _ _ _ _ beyond => Harmless s.mm.vmemFree (bufFor disk s.fm beyond)

/-- The invariant of the memory: the directories are as they should be, and
nothing is mapped behind the physical memory. -/
structure Bounded (L : Layout) (g : Log) (t : Mm.State) : Prop where
  dirs : Directories L g t
  last : t.mem L.kpdir 32 = 0

theorem bounded_init (L : Layout) (m : PhysMem) : Bounded L Log.empty (Mm.init L m) := by
  have hunused : Unused 32 := .inl ⟨Nat.le_refl 32, by decide⟩
  refine ⟨(tables_init L m).dirs, ?_⟩
  unfold Mm.init
  dsimp only
  rw [initPage_unused L _ hunused]

theorem Bounded.newProc {g : Log} {t t' : Mm.State} (h : Bounded L g t) {pid : ℕ}
    (hs : Mm.step L ids.pm ids.mm t (.newProc pid) = some t') :
    Bounded L (g.record t (.newProc pid)) t' ∧ t'.vmemFree = t.vmemFree + 1 := by
  have hv := step_newProc_lt hs
  obtain ⟨m', hst, hm⟩ := @step_newProc L t ids.pm ids.mm hv pid
  obtain rfl := Option.some.inj (hst.symm.trans hs)
  refine ⟨⟨h.dirs.newProc hv hm, ?_⟩, rfl⟩
  have hk := not_kernelFrame (L := L) (k := t.vmemFree) hv
  have hne : L.kpdir ≠ pdirOf L t.vmemFree ∧ L.kpdir ≠ vmemInfo L t.vmemFree :=
    ⟨fun heq => hk.2.1 (.inl heq.symm), fun heq => hk.1 (.inl heq.symm)⟩
  dsimp only
  rw [hm, if_neg (fun hin => hne.1 hin.1), if_neg (fun hin => hne.2 hin.1)]
  exact h.last

theorem Bounded.newPage {g : Log} {t t' : Mm.State} {pid k : ℕ} {va size : Word} (h : Bounded L g t)
    (hp : g.slot pid = some k) (hva : HarmlessAt t.vmemFree va)
    (hs : Mm.step L ids.pm ids.mm t (.newPage pid va size) = some t') : Bounded L g t' ∧ t'.vmemFree = t.vmemFree := by
  obtain ⟨hdirs, hfree⟩ := h.dirs.newPage_harmless hp hva hs
  refine ⟨⟨hdirs, ?_⟩, hfree⟩
  obtain ⟨m', heq, hm⟩ := h.dirs.newPage hp va
  have hk : k < 16 := Nat.lt_of_lt_of_le (h.dirs.cr3 pid k hp).1 h.dirs.bound
  have hsep := L.kpdir_kptable
  have hne : L.kpdir ≠ selected L k va := by
    have hkernel := (not_kernelFrame (L := L) hk).2.2
    unfold selected
    split
    · omega
    · exact fun heq => hkernel (.inl heq.symm)
  rw [step_newPage, heq, Option.some.injEq] at hs
  subst hs
  dsimp only
  rw [hm, if_neg fun hin => hne hin.1]
  exact h.last

theorem Bounded.write {g : Log} {t : Mm.State} (h : Bounded L g t) {m' : PhysMem}
    (hm : ∀ f i, f < 4096 → m' f i = t.mem f i) : Bounded L g { t with mem := m' } := by
  have hkmem := L.kmem
  exact ⟨directories_congr h.dirs rfl (fun _ _ => rfl) fun f i hf => hm f i hf.lt, (hm _ _ (by omega)).trans h.last⟩

/-- A copy and the zeros behind it, of whatever length, if they do not fault. -/
theorem Bounded.copy {g : Log} {t : Mm.State} (h : Bounded L g t) {p filesz memsz : Word} {data : List (BitVec 8)}
    {m1 m2 : PhysMem} (hdata : data.length = filesz.toNat) (hlo : 16777216 ≤ p.toNat) (hhi : p.toNat ≤ 134217728)
    (hcopy : copyTo (kcr3 L) p data t.mem = some m1)
    (hzero : zeroTo (kcr3 L) (p + filesz) (p + memsz) m1 = some m2) : Bounded L g { t with mem := m2 } := by
  have hle := h.dirs.kernel.copyTo_le h.last hlo hhi hcopy
  obtain ⟨m1', hcopy', -, hframe1⟩ := h.dirs.kernel.copyTo hlo hle
  obtain rfl := Option.some.inj (hcopy'.symm.trans hcopy)
  have h1 := h.write hframe1
  have hsum : (p + filesz).toNat = p.toNat + filesz.toNat := by
    rw [BitVec.toNat_add]
    exact Nat.mod_eq_of_lt (by omega)
  unfold zeroTo at hzero
  have hle2 := h1.dirs.kernel.copyTo_le h1.last (by omega) (by omega) hzero
  obtain ⟨m2', hzero', -, hframe2⟩ := h1.dirs.kernel.copyTo (p := p + filesz) (by omega) hle2
  obtain rfl := Option.some.inj (hzero'.symm.trans hzero)
  exact h1.write hframe2

/-- **A harmless segment**, whatever its size. -/
theorem loadEntry_harmless {g : Log} {pid k e : ℕ} {b : ℕ → BitVec 8} {x x' : Loading Fm.State}
    (h : Bounded L g x.mm) (hp : g.slot pid = some k) (hva : HarmlessAt x.mm.vmemFree (programHeader b e).vaddr)
    (hs : loadEntry L ids (fmServer ids.fm disk) pid b x e = some x') :
    Bounded L g x'.mm ∧ x'.mm.vmemFree = x.mm.vmemFree := by
  obtain ⟨mm, msg, data, m1, hstep, htype, -, hlen, hask, hcopy, hzero, hmm⟩ := loadEntry_some hs
  obtain ⟨h1, hfree⟩ := h.newPage hp hva hstep
  rw [fmServer_read htype, Option.map_eq_some_iff] at hask
  obtain ⟨n, -, heq⟩ := hask
  have hdata : data.length = (programHeader b e).filesz.toNat := by
    rw [← (Prod.mk.inj (Prod.mk.inj heq).2).1, ← hlen]
    unfold devReadRam
    rw [List.length_map, List.length_range]
  obtain ⟨m', halloc, -⟩ := h.dirs.newPage hp (programHeader b e).vaddr
  have hbound := h.dirs.bound
  have hpa := @toNat_physAddr (programHeader b e).vaddr
    (8192 + 1024 * x.mm.vmemFree + (programHeader b e).vaddr.toNat / 4096 % 1024) (by omega)
  rw [halloc] at hcopy hzero
  dsimp only at hcopy hzero
  rw [hmm]
  exact ⟨h1.copy hdata (by omega) (by omega) hcopy hzero, hfree⟩

/-- **A harmless executable.** -/
theorem doNewProcLoad_harmless {g : Log} {pid : ℕ} {msg : MsgData} {buf : ℤ} {beyond : ℕ → BitVec 8}
    (h : Bounded L g s.mm) (hfm : Chained s.fm) (hb : Harmless s.mm.vmemFree (bufFor disk s.fm beyond))
    (hs : doNewProcLoad L ids (fmServer ids.fm disk) pid msg buf beyond s = some s') :
    Bounded L (g.record s.mm (.newProc pid)) s'.mm := by
  obtain ⟨r1, r2, mm, msg', x, hnew, hread, -, hproc, hloop, rfl⟩ := doNewProcLoad_some hs
  obtain ⟨h1, hfree⟩ := h.newProc hproc
  have hslot : (g.record s.mm (.newProc pid)).slot pid = some s.mm.vmemFree := by
    rw [Log.record_newProc, if_pos rfl]
  -- what is in `buf`
  have hbuf : bufWith r2.2.1 beyond = bufFor disk s.fm beyond := by
    rw [fmServer_newFile (by simp), Option.map_eq_some_iff] at hnew
    obtain ⟨fm, hfile, rfl⟩ := hnew
    rw [fmServer_read (by simp), Option.map_eq_some_iff] at hread
    obtain ⟨n, hn, rfl⟩ := hread
    simp only [MsgData.i0_setHead, MsgData.i0_setLen, MsgData.i0_setOffset, MsgData.i0_setBuf, MsgData.i0_setI0]
      at hfile hn
    obtain ⟨n', hn', hpos⟩ := hfm.doRead_doNewFile hfile
    obtain rfl := Option.some.inj (hn'.symm.trans hn)
    unfold bufFor
    simp only [MsgData.offset_setHead, MsgData.offset_setLen, MsgData.offset_setOffset, MsgData.len_setHead,
      MsgData.len_setLen, hpos, Int.add_zero]
    rfl
  rw [hbuf] at hloop
  have hkeep := foldlM_keeps (I := fun x : Loading Fm.State => Bounded L (g.record s.mm (.newProc pid)) x.mm ∧
    x.mm.vmemFree = s.mm.vmemFree + 1) (fun e he y y' hy hround => ?_) ⟨h1, hfree⟩ hloop
  · exact hkeep.1
  · obtain ⟨hy', hfree'⟩ := loadEntry_harmless hy.1 hslot (by rw [hy.2]; exact hb e (List.mem_range.mp he)) hround
    exact ⟨hy', hfree'.trans hy.2⟩

/-- The invariant of a run with harmless executables. -/
def Loaded (L : Layout) (s : Loader Fm.State) : Prop := Chained s.fm ∧ ∃ g, Bounded L g s.mm

theorem Loaded.step (h : Loaded L s) {q : Req} (hq : LoadsHarmless disk s q) (hs : step L ids disk s q = some s') :
    Loaded L s' := by
  obtain ⟨hfm, g, hmm⟩ := h
  cases q with
  | newFile name =>
    obtain ⟨fm, hnew, rfl⟩ := Option.map_eq_some_iff.mp hs
    exact ⟨hfm.doNewFile hnew, g, hmm⟩
  | createProcess filename pid msg buf beyond =>
    exact ⟨hfm.doNewFile (doNewProcLoad_fm hs), _, doNewProcLoad_harmless hmm hfm hq hs⟩

/-- **Loading harmless executables leaves the kernel's mappings alone**, with
all that `do_new_proc` writes; and when only such have been loaded, the requests
for the next one, whatever is in it, leave them alone exactly if it is
harmless. -/
theorem kernel_mapping_kept (m : PhysMem) (eip : ℕ → Word)
    (h : Reach (step L ids disk) (LoadsHarmless disk) (Loader.init L m Fm.State.init eip) s) :
    KernelIntact L m s.mm ∧ ∀ pid b, s.mm.vmemFree < 16 →
      (Throughout (Mm.step L ids.pm ids.mm) (KernelIntact L m) s.mm (mmRequests pid b) ↔ Harmless s.mm.vmemFree b) := by
  obtain ⟨-, g, hmm⟩ : Loaded L s := h.invariant ⟨chained_init, _, bounded_init L m⟩
    fun _ _ _ hx hok hs => hx.step hok hs
  exact ⟨hmm.dirs.kernelIntact, fun pid b hv => requests_iff hmm.dirs hv pid b⟩

/-- An ELF file with one program header, for the last byte of its address. -/
def oneSegment (x : BitVec 8) : ℕ → BitVec 8 := fun a =>
  if a = 0 then 0x7f else if a = 1 then 0x45 else if a = 2 then 0x4c else if a = 3 then 0x46
  else if a = 28 then 52 else if a = 44 then 1 else if a = 63 then x else 0

theorem harmless_oneSegment (v : ℕ) (x : BitVec 8) :
    Harmless v (oneSegment x) ↔ HarmlessAt (v + 1) (programHeader (oneSegment x) 0).vaddr := by
  have hnum : phnum (oneSegment x) = 1 := rfl
  unfold Harmless
  rw [hnum]
  constructor
  · intro h
    exact h 0 Nat.one_pos
  · intro h e he
    rw [Nat.lt_one_iff.mp he]
    exact h

/-- A segment at 0x08000000, loaded first. -/
theorem kernel_mapping_kept_user : Throughout (Mm.step Layout.packed 6 7) (KernelIntact Layout.packed fun _ _ => 0)
    (Loader.init Layout.packed (fun _ _ => 0) Fm.State.init fun _ => 0).mm (mmRequests 1 (oneSegment 8)) := by
  have hr : Reach (step Layout.packed ⟨6, 5, 7⟩ smallFiles) (LoadsHarmless smallFiles)
      (Loader.init Layout.packed (fun _ _ => 0) Fm.State.init fun _ => 0)
      (Loader.init Layout.packed (fun _ _ => 0) Fm.State.init fun _ => 0) := .init
  refine ((kernel_mapping_kept _ _ hr).2 1 (oneSegment 8) (by decide)).mpr ?_
  rw [harmless_oneSegment]
  decide

/-- A segment at 0xC0000000: the page table of the kernel for its first 4 MB is
overwritten. -/
theorem kernel_mapping_lost : ¬ ∀ (L : Layout) (ids : Pids) (m : PhysMem) (pid : ℕ) (b : ℕ → BitVec 8),
    magic b = elfMagic →
    Throughout (Mm.step L ids.pm ids.mm) (KernelIntact L m) (Mm.init L m) (mmRequests pid b) := by
  intro h
  have hall := h Layout.packed ⟨6, 5, 7⟩ (fun _ _ => 0) 1 (oneSegment 0xC0) (by decide)
  rw [requests_iff (tables_init _ _).dirs (by decide), harmless_oneSegment] at hall
  exact absurd hall (by decide)

end Pm
end NanoOS
