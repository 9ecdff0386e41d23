/-
# Switching between threads

An interrupt of a thread pushes its registers on the stack that it runs on, as a
`TrapFrame`. `irq_handle` leaves the address of the frame and `lock_count` in the
PCB of the thread, and `asm_do_irq` pops the frame of the thread that `schedule` has
chosen. A thread comes back when some later interrupt, of any thread, chooses it.

Thread 0 is `idle`: it runs on the stack that the boot loader has set up. Every
other thread runs on the stack in its PCB. Between two interrupts a thread computes
anything, and writes to other stacks too (a driver fills the buffer of its client);
it leaves alone the frames and the two fields that belong to threads that wait.
`schedule` may choose any thread that there is. Interrupts come with IF clear
inside `irq_handle`, so frames are not nested.

Key definitions: `deliver`, `stub`, `saveRegs`, `interrupt`, `Machine`, `After`.
Key theorems: `enter_frame`, `restore_saved`, `Inv.step`, `resumes_where_left`.
-/
import NanoOS.Lib.Resume
import NanoOS.Lib.Trans
import NanoOS.Process.Kthread

namespace NanoOS
namespace Kthread

open Resume Trans

/-! ### The way in -/

/-- `pushl`. -/
def push (x : Word) (p : Cpu × Mem) : Cpu × Mem :=
  ({ p.1 with esp := p.1.esp - 4 }, store (p.1.esp - 4) x p.2)

/-- `cli`. -/
def cli (c : Cpu) : Cpu := { c with eflags := c.eflags &&& 0xfffffdff }

/-- The processor takes an interrupt in ring 0, through an interrupt gate to the
kernel's code segment. A thread's own `int $0x80` comes through a trap gate, which
leaves IF as it is; as `asm_do_irq` starts with `cli`, what `saveRegs` makes of it
is the same. -/
def deliver (p : Cpu × Mem) : Cpu × Mem :=
  let p := push p.1.eflags p
  let p := push (p.1.cs.setWidth 32) p
  let p := push p.1.eip p
  (cli { p.1 with cs := 8 }, p.2)

/-- `pushl $0; pushl $id`, at `vecsys`, `irq0`, `irq1` and the others. -/
def stub (id : Word) (p : Cpu × Mem) : Cpu × Mem := push id (push 0 p)

/-- `pushal`. -/
def pushal (p : Cpu × Mem) : Cpu × Mem :=
  let esp := ptr p.1.esp
  let p := push p.1.eax p
  let p := push p.1.ecx p
  let p := push p.1.edx p
  let p := push p.1.ebx p
  let p := push esp p
  let p := push p.1.ebp p
  let p := push p.1.esi p
  push p.1.edi p

/-- `asm_do_irq`, up to the loads of `ds` and `es`. That they go through `%ax` is left
out, and so are `pushl %esp` and the return address of the call behind them: the
registers are in the frame by then, and below it `irq_handle` may write anything. -/
def saveRegs (p : Cpu × Mem) : Cpu × Mem :=
  let p := (cli p.1, p.2)
  let p := push (p.1.ds.setWidth 32) p
  let p := push (p.1.es.setWidth 32) p
  let p := push (p.1.fs.setWidth 32) p
  let p := push (p.1.gs.setWidth 32) p
  let p := pushal p
  ({ p.1 with ds := 16, es := 16 }, p.2)

/-- The registers in the `TrapFrame` at `t`. -/
def savedCpu (m : Mem) (t : ℕ) : Cpu where
  edi := m t
  esi := m (t + 4)
  ebp := m (t + 8)
  ebx := m (t + 16)
  edx := m (t + 20)
  ecx := m (t + 24)
  eax := m (t + 28)
  gs := (m (t + 32)).setWidth 16
  fs := (m (t + 36)).setWidth 16
  es := (m (t + 40)).setWidth 16
  ds := (m (t + 44)).setWidth 16
  cs := (m (t + 60)).setWidth 16
  eip := m (t + 56)
  eflags := m (t + 64)
  esp := t + 68

/-- The words of the frame, from the last one pushed to the first. -/
theorem frame_words {c : Cpu} {t : ℕ} (hesp : c.esp = t + 68) (id : Word) (m : Mem) :
    (saveRegs (stub id (deliver (c, m)))).2 =
      store t c.edi (store (t + 4) c.esi (store (t + 8) c.ebp (store (t + 12) (ptr (t + 32))
      (store (t + 16) c.ebx (store (t + 20) c.edx (store (t + 24) c.ecx (store (t + 28) c.eax
      (store (t + 32) (c.gs.setWidth 32) (store (t + 36) (c.fs.setWidth 32) (store (t + 40) (c.es.setWidth 32)
      (store (t + 44) (c.ds.setWidth 32) (store (t + 48) id (store (t + 52) 0 (store (t + 56) c.eip
      (store (t + 60) (c.cs.setWidth 32) (store (t + 64) c.eflags m)))))))))))))))) := by
  unfold saveRegs stub deliver pushal push cli
  rw [hesp]
  rfl

/-- **The frame has the registers** of the thread, and lies below its stack
pointer; `irq` is the number of the entry. -/
theorem enter_frame {c : Cpu} {t : ℕ} (hesp : c.esp = t + 68) (id : Word) (m : Mem) :
    let p := saveRegs (stub id (deliver (c, m)))
    p.1.esp = t ∧ p.1.cs = 8 ∧ savedCpu p.2 t = c ∧ p.2 (t + 48) = id ∧
      ∀ a, (a < t ∨ t + 68 ≤ a) → p.2 a = m a := by
  refine ⟨?_, rfl, ?_, ?_, fun a ha => ?_⟩
  · show c.esp - 4 - 4 - 4 - 4 - 4 - 4 - 4 - 4 - 4 - 4 - 4 - 4 - 4 - 4 - 4 - 4 - 4 = t
    omega
  · rw [frame_words hesp]
    unfold savedCpu
    simp [store_apply, ← hesp]
  · rw [frame_words hesp]
    simp [store_apply]
  · rw [frame_words hesp]
    simp only [store_apply]
    repeat rw [if_neg (by omega)]

theorem savedCpu_congr {m m' : Mem} {t : ℕ} (h : ∀ a, t ≤ a → a < t + 68 → m' a = m a) :
    savedCpu m' t = savedCpu m t := by
  have hword : ∀ k < 68, m' (t + k) = m (t + k) := fun k hk => h (t + k) (by omega) (by omega)
  unfold savedCpu
  rw [show m' t = m t from hword 0 (by decide), hword 4 (by decide), hword 8 (by decide), hword 16 (by decide),
    hword 20 (by decide), hword 24 (by decide), hword 28 (by decide), hword 32 (by decide), hword 36 (by decide),
    hword 40 (by decide), hword 44 (by decide), hword 56 (by decide), hword 60 (by decide), hword 64 (by decide)]

/-- **The way out** gives the registers in the frame back. -/
theorem restore_saved {m : Mem} {current t : ℕ} {c : Cpu} (htf : (m (current + 8)).toNat = t) (hcpl : c.cs &&& 3 = 0)
    (hring : (savedCpu m t).cs &&& 3 = 0) : restore m current c = savedCpu m t := by
  have hsame : ¬ c.cs &&& 3 < (savedCpu m t).cs &&& 3 := by
    rw [hcpl, hring]
    decide
  unfold restore popal popSegments iret savedCpu at *
  dsimp only at *
  rw [htf, if_neg hsame]

/-! ### Threads and their stacks -/

/-- Where the boot loader has put the stack, outside of the pool and the heads. -/
structure Layout extends Pool where
  bootLo : ℕ
  bootHi : ℕ
  boot_lt : bootHi < 4294967296
  boot_pool : bootHi ≤ pool ∨ pool + 33554432 ≤ bootLo
  boot_free : bootHi ≤ free ∨ free + 8 ≤ bootLo
  boot_block : bootHi ≤ block ∨ block + 8 ≤ bootLo

/-- The stack of thread `i` starts here. -/
def Layout.lo (L : Layout) (i : ℕ) : ℕ := if i = 0 then L.bootLo else L.pcb i + 48

/-- The stack of thread `i` ends here. -/
def Layout.hi (L : Layout) (i : ℕ) : ℕ := if i = 0 then L.bootHi else L.pcb i + 16384

/-- `tf` of thread `i`. -/
def Layout.tf (L : Layout) (m : Mem) (i : ℕ) : ℕ := (m (L.pcb i + 8)).toNat

/-- The words by which a thread that waits comes back: its frame, `tf` and
`locked`. -/
def Layout.Saved (L : Layout) (m : Mem) (i a : ℕ) : Prop :=
  (L.tf m i ≤ a ∧ a < L.tf m i + 68) ∨ a = L.pcb i + 8 ∨ a = L.pcb i + 12

/-- They stay as they are. -/
def Layout.Keeps (L : Layout) (i : ℕ) (m m' : Mem) : Prop := ∀ a, L.Saved m i a → m' a = m a

/-- The frame is on the stack of the thread, which goes on in ring 0. -/
structure Layout.Rests (L : Layout) (m : Mem) (i : ℕ) : Prop where
  lo : L.lo i ≤ L.tf m i
  hi : L.tf m i + 68 ≤ L.hi i
  ring0 : (savedCpu m (L.tf m i)).cs &&& 3 = 0

/-- What a thread can tell of an interrupt: its registers and the depth of its
locks. -/
structure Context where
  cpu : Cpu
  lockCount : Word

/-- What a thread that waits comes back to. -/
def Layout.waiting (L : Layout) (m : Mem) (i : ℕ) : Context := ⟨savedCpu m (L.tf m i), m (L.pcb i + 12)⟩

section layout

variable {L : Layout} {m m' : Mem} {i j : ℕ}

theorem Layout.Keeps.tf_eq (h : L.Keeps i m m') : L.tf m' i = L.tf m i :=
  congrArg BitVec.toNat (h _ (Or.inr (Or.inl rfl)))

theorem Layout.Keeps.savedCpu_eq (h : L.Keeps i m m') : savedCpu m' (L.tf m' i) = savedCpu m (L.tf m i) := by
  rw [h.tf_eq]
  exact savedCpu_congr fun a hlo hhi => h a (Or.inl ⟨hlo, hhi⟩)

theorem Layout.Keeps.waiting_eq (h : L.Keeps i m m') : L.waiting m' i = L.waiting m i := by
  unfold Layout.waiting
  rw [h.savedCpu_eq, h _ (Or.inr (Or.inr rfl))]

theorem Layout.Rests.keeps (h : L.Rests m i) (hk : L.Keeps i m m') : L.Rests m' i where
  lo := hk.tf_eq ▸ h.lo
  hi := hk.tf_eq ▸ h.hi
  ring0 := hk.savedCpu_eq ▸ h.ring0

/-- On the stack of a thread, or one of its two fields. -/
def Layout.Own (L : Layout) (i a : ℕ) : Prop := (L.lo i ≤ a ∧ a < L.hi i) ∨ a = L.pcb i + 8 ∨ a = L.pcb i + 12

theorem Layout.Rests.own (h : L.Rests m i) {a : ℕ} (ha : L.Saved m i a) : L.Own i a := by
  rcases ha with ⟨hlo, hhi⟩ | ha
  · exact Or.inl ⟨Nat.le_trans h.lo hlo, Nat.lt_of_lt_of_le hhi h.hi⟩
  · exact Or.inr ha

theorem Layout.own_disjoint (hi2048 : i < 2048) (hj2048 : j < 2048) (hij : i ≠ j) {a : ℕ} (ha : L.Own i a) :
    ¬ L.Own j a := by
  have hboot := L.boot_pool
  have hpcb : ∀ k, L.pcb k = L.pool + 16384 * k := fun _ => rfl
  intro hb
  unfold Own lo hi at ha hb
  rw [hpcb] at ha hb
  split_ifs at ha hb
  all_goals omega

theorem Layout.boot_not_link {a : ℕ} (hlo : L.bootLo ≤ a) (hhi : a < L.bootHi) : ¬ L.Link a := by
  have hpool := L.boot_pool
  have hfree := L.boot_free
  have hblock := L.boot_block
  rintro ⟨n, rfl | rfl | ⟨k, hk, rfl⟩, hn⟩
  · omega
  · omega
  · have hpcb : L.pcb k = L.pool + 16384 * k := rfl
    omega

/-- What a thread owns is no link, and not in the PCB of another thread. -/
theorem Layout.own_elsewhere (hi2048 : i < 2048) (hj2048 : j < 2048) (hij : i ≠ j) {a : ℕ} (ha : L.Own i a) :
    L.Elsewhere j a := by
  have hboot := L.boot_pool
  have hpcb : ∀ k, L.pcb k = L.pool + 16384 * k := fun _ => rfl
  have hpcbi := hpcb i
  have hpcbj := hpcb j
  by_cases hstack : i = 0 ∧ L.bootLo ≤ a ∧ a < L.bootHi
  · obtain ⟨-, hlo, hhi⟩ := hstack
    exact ⟨boot_not_link hlo hhi, by omega⟩
  · have hinside : L.pcb i + 8 ≤ a ∧ a < L.pcb i + 16384 := by
      unfold Own lo hi at ha
      split_ifs at ha
      all_goals omega
    exact ⟨Pool.not_link hi2048 hinside.1 hinside.2, by omega⟩

end layout

/-! ### The system -/

/-- The words of the memory, the registers, the index of `current`, and
`lock_count`. -/
structure Machine where
  mem : Mem
  cpu : Cpu
  current : ℕ
  lockCount : Word

/-- What happens next. -/
inductive Act
  /-- The thread computes, or the routine of an interrupt that comes back to it. -/
  | run (cpu : Cpu) (mem : Mem) (lockCount : Word)
  /-- It calls `create_kthread`, with `fun` at `sp`. -/
  | create (segs : Segments) (kcr3 : Word) (sp : ℕ)
  /-- It is interrupted, by a device or by its own `int $0x80`; the routines leave
  the memory `mem`, and `schedule` chooses `next`. -/
  | irq (id : Word) (mem : Mem) (next : ℕ)

/-- The end of `irq_handle`, from `current->tf = tf` on. -/
def proc (L : Layout) (current next tf : ℕ) (lockCount : Word) (m : Mem) : Mem × Word :=
  let m := store (L.pcb current + 8) (ptr tf) m
  let m := store (L.pcb current + 12) lockCount m
  (m, m (L.pcb next + 12))

/-- An interrupt, up to `iret`. -/
def interrupt (L : Layout) (id : Word) (mem : Mem) (next : ℕ) (s : Machine) : Machine :=
  let p := saveRegs (stub id (deliver (s.cpu, s.mem)))
  let r := proc L s.current next p.1.esp s.lockCount mem
  ⟨r.1, restore r.1 (L.pcb next) p.1, next, r.2⟩

def step (L : Layout) (s : Machine) : Act → Option Machine
  | .run cpu mem lockCount => some { s with cpu := cpu, mem := mem, lockCount := lockCount }
  | .create segs kcr3 sp => (createKthread L.toPool segs kcr3 sp s.mem).map fun r => { s with mem := r.2 }
  | .irq id mem next => some (interrupt L id mem next s)

/-- The threads that there are, and what has happened to them. A new thread waits
in the context that `create_kthread` has made. -/
structure History where
  threads : List ℕ
  log : List (Event ℕ Context)

def record (L : Layout) (s : Machine) (a : Act) (h : History) : History :=
  match a with
  | .run _ _ _ => h
  | .create segs kcr3 sp =>
    match createKthread L.toPool segs kcr3 sp s.mem with
    | some (p, m) =>
      let i := (p - L.pool) / 16384
      ⟨i :: h.threads, h.log ++ [.leave i (L.waiting m i)]⟩
    | none => h
  | .irq id mem next =>
    let s' := interrupt L id mem next s
    { h with log := h.log ++ [.leave s.current ⟨s.cpu, s.lockCount⟩, .enter next ⟨s'.cpu, s'.lockCount⟩] }

/-- What is relied on: a thread leaves the frames, `tf` and `locked` of the others
alone, and has room for a frame on its stack; the PCBs in `free` belong to no
thread; the routines of an interrupt leave the frame alone that is on the stack. -/
def Ok (L : Layout) (p : Machine × History) : Act → Prop
  | .run _ mem _ => ∀ i ∈ p.2.threads, i ≠ p.1.current → L.Keeps i p.1.mem mem
  | .create _ _ sp => ∃ live seq i rest, Lists L.toPool p.1.mem live seq ∧ seq L.free = L.pcb i :: rest ∧
      i ∉ p.2.threads ∧ ∀ k ≤ 16, L.Elsewhere i (sp + 4 * k)
  | .irq id mem next => next ∈ p.2.threads ∧ p.1.cpu.cs &&& 3 = 0 ∧ 4 ∣ p.1.cpu.esp ∧
      L.lo p.1.current + 68 ≤ p.1.cpu.esp ∧ p.1.cpu.esp ≤ L.hi p.1.current ∧
      (∀ i ∈ p.2.threads, i ≠ p.1.current → L.Keeps i p.1.mem mem) ∧
      ∀ a, p.1.cpu.esp - 68 ≤ a → a < p.1.cpu.esp →
        mem a = (saveRegs (stub id (deliver (p.1.cpu, p.1.mem)))).2 a

/-- `idle` runs, with memory `mem`; then this has happened. -/
def After (L : Layout) (mem : Mem) (cpu : Cpu) (lockCount : Word) : Machine × History → Prop :=
  Reach (withHistory (step L) (record L)) (Ok L) (⟨mem, cpu, 0, lockCount⟩, ⟨[0], []⟩)

/-- Who waits is known to the log, and has its context in the memory. -/
structure Inv (L : Layout) (p : Machine × History) : Prop where
  bound : ∀ i ∈ p.2.threads, i < 2048
  idle : 0 ∈ p.2.threads
  current : p.1.current ∈ p.2.threads
  inOrder : InOrder p.2.log
  running : pending p.1.current p.2.log = none
  waits : ∀ i ∈ p.2.threads, i ≠ p.1.current →
    pending i p.2.log = some (L.waiting p.1.mem i) ∧ L.Rests p.1.mem i
  fresh : ∀ i, i ∉ p.2.threads → pending i p.2.log = none

namespace Inv

variable {L : Layout} {s : Machine} {h : History}

theorem init (L : Layout) (mem : Mem) (cpu : Cpu) (lockCount : Word) :
    Inv L (⟨mem, cpu, 0, lockCount⟩, ⟨[0], []⟩) where
  bound := fun i hi => by
    obtain rfl := List.mem_singleton.mp hi
    decide
  idle := List.mem_singleton.mpr rfl
  current := List.mem_singleton.mpr rfl
  inOrder := .nil
  running := rfl
  waits := fun i hi hne => absurd (List.mem_singleton.mp hi) hne
  fresh := fun _ _ => rfl

/-- Whoever waits in the old memory waits in the new one. -/
theorem waits_keeps (hinv : Inv L (s, h)) {mem : Mem} {i : ℕ} (hi : i ∈ h.threads) (hne : i ≠ s.current)
    (hk : L.Keeps i s.mem mem) : pending i h.log = some (L.waiting mem i) ∧ L.Rests mem i := by
  obtain ⟨hp, hrests⟩ := hinv.waits i hi hne
  refine ⟨?_, hrests.keeps hk⟩
  rw [hk.waiting_eq]
  exact hp

theorem run (hinv : Inv L (s, h)) {cpu : Cpu} {mem : Mem} {lockCount : Word}
    (hok : Ok L (s, h) (.run cpu mem lockCount)) :
    Inv L ({ s with cpu := cpu, mem := mem, lockCount := lockCount }, h) where
  bound := hinv.bound
  idle := hinv.idle
  current := hinv.current
  inOrder := hinv.inOrder
  running := hinv.running
  waits := fun i hi hne => hinv.waits_keeps hi hne (hok i hi hne)
  fresh := hinv.fresh

theorem created {live : ℕ → Prop} {seq : ℕ → List ℕ} {i sp : ℕ} {rest : List ℕ} {m : Mem}
    (hl : Lists L.toPool m live seq) (hsel : seq L.free = L.pcb i :: rest)
    (hsp : ∀ k ≤ 16, L.Elsewhere i (sp + 4 * k)) (hi0 : i ≠ 0) (segs : Segments) (kcr3 : Word) :
    ∃ m', createKthread L.toPool segs kcr3 sp m = some (L.pcb i, m') ∧ L.Rests m' i ∧
      ∀ a, L.Elsewhere i a → m' a = m a := by
  obtain ⟨m', t, hcreate, ⟨hlo, hhi⟩, ⟨-, -, htf, -⟩, -, hkeep, hstart⟩ := kthread_starts hl hsel hsp segs kcr3
  have hinside := L.inside
  have hi := hl.selected_lt hsel
  have hpcb : L.pcb i = L.pool + 16384 * i := rfl
  have htop : L.tf m' i = t := by
    unfold Layout.tf
    rw [htf]
    exact toNat_ptr (by omega)
  refine ⟨m', hcreate, ⟨?_, ?_, ?_⟩, hkeep⟩
  · rw [htop]
    unfold Layout.lo
    rw [if_neg hi0]
    exact hlo
  · rw [htop]
    unfold Layout.hi
    rw [if_neg hi0]
    omega
  · -- the code segment that the first return pops is the creator's
    obtain ⟨-, -, hcs, -⟩ := hstart m' kernelCpu (fun _ _ _ => rfl) rfl (by decide)
    have hpop : (savedCpu m' (L.tf m' i)).cs = segs.cs := hcs
    rw [hpop]
    exact segs.ring0

theorem create (hinv : Inv L (s, h)) {segs : Segments} {kcr3 : Word} {sp : ℕ} {s' : Machine}
    (hok : Ok L (s, h) (.create segs kcr3 sp))
    (hstep : step L s (.create segs kcr3 sp) = some s') : Inv L (s', record L s (.create segs kcr3 sp) h) := by
  obtain ⟨live, seq, i, rest, hl, hsel, hnew, hsp⟩ := hok
  dsimp only at hl hnew
  have hi0 : i ≠ 0 := fun he => hnew (he ▸ hinv.idle)
  have hi := hl.selected_lt hsel
  obtain ⟨m', hcreate, hrests, hkeep⟩ := created hl hsel hsp hi0 segs kcr3
  have hs' : s' = { s with mem := m' } := by
    unfold step at hstep
    dsimp only at hstep
    rw [hcreate] at hstep
    exact (Option.some.inj hstep).symm
  have hrec : record L s (.create segs kcr3 sp) h = ⟨i :: h.threads, h.log ++ [.leave i (L.waiting m' i)]⟩ := by
    have hidx : (L.pcb i - L.pool) / 16384 = i := by
      have hpcb : L.pcb i = L.pool + 16384 * i := rfl
      omega
    unfold record
    dsimp only
    rw [hcreate]
    dsimp only
    rw [hidx]
  have hold : ∀ j ∈ h.threads, i ≠ j := fun j hj he => hnew (he ▸ hj)
  rw [hs', hrec]
  refine ⟨?_, List.mem_cons_of_mem _ hinv.idle, List.mem_cons_of_mem _ hinv.current,
    hinv.inOrder.leave _ (hinv.fresh i hnew), ?_, ?_, ?_⟩
  · intro j hj
    rcases List.mem_cons.mp hj with rfl | hj
    · exact hi
    · exact hinv.bound j hj
  · show pending s.current _ = none
    rw [pending_leave, if_neg (hold _ hinv.current)]
    exact hinv.running
  · intro j hj hne
    show pending j _ = some (L.waiting m' j) ∧ L.Rests m' j
    rw [pending_leave]
    rcases List.mem_cons.mp hj with rfl | hj
    · exact ⟨if_pos rfl, hrests⟩
    · rw [if_neg (hold j hj)]
      refine hinv.waits_keeps hj hne fun a ha => hkeep a ?_
      have hown := (hinv.waits j hj hne).2.own ha
      exact Layout.own_elsewhere (hinv.bound j hj) hi (hold j hj).symm hown
  · intro j hj
    show pending j _ = none
    have hne : i ≠ j := fun he => hj (he ▸ List.mem_cons_self)
    rw [pending_leave, if_neg hne]
    exact hinv.fresh j fun hmem => hj (List.mem_cons_of_mem _ hmem)

/-- The thread that is interrupted waits in the context that it had. -/
theorem proc_waits {L : Layout} {c : Cpu} {m mem : Mem} {i t next : ℕ} {id lockCount : Word} (hi2048 : i < 2048)
    (hesp : c.esp = t + 68) (hlo : L.lo i ≤ t) (hhi : t + 68 ≤ L.hi i) (hcpl : c.cs &&& 3 = 0)
    (hframe : ∀ a, t ≤ a → a < t + 68 → mem a = (saveRegs (stub id (deliver (c, m)))).2 a) :
    let m' := (proc L i next t lockCount mem).1
    L.waiting m' i = ⟨c, lockCount⟩ ∧ L.Rests m' i := by
  obtain ⟨-, -, hsaved, -, -⟩ := enter_frame hesp id m
  have hboot := L.boot_pool
  have hbootlt := L.boot_lt
  have hinside := L.inside
  have hpcb : L.pcb i = L.pool + 16384 * i := rfl
  have hstack : t + 68 < 4294967296 + 1 ∧ (t + 68 ≤ L.pcb i ∨ L.pcb i + 48 ≤ t) := by
    unfold Layout.lo at hlo
    unfold Layout.hi at hhi
    split_ifs at hlo hhi
    all_goals omega
  have htf : L.tf (proc L i next t lockCount mem).1 i = t := by
    unfold Layout.tf proc
    dsimp only
    rw [store_apply, if_neg (by omega), store_apply, if_pos rfl]
    exact toNat_ptr (by omega)
  have hcpu : savedCpu (proc L i next t lockCount mem).1 t = c := by
    rw [← hsaved]
    refine savedCpu_congr fun a halo hahi => ?_
    unfold proc
    dsimp only
    rw [store_apply, if_neg (by omega), store_apply, if_neg (by omega)]
    exact hframe a halo hahi
  have hlock : (proc L i next t lockCount mem).1 (L.pcb i + 12) = lockCount := by
    unfold proc
    exact Function.update_self ..
  refine ⟨?_, by rw [htf]; exact hlo, by rw [htf]; exact hhi, ?_⟩
  · unfold Layout.waiting
    rw [htf, hcpu, hlock]
  · rw [htf, hcpu]
    exact hcpl

theorem proc_keeps {L : Layout} {m mem : Mem} {i j next t : ℕ} {lockCount : Word} (hi : i < 2048) (hj : j < 2048)
    (hij : j ≠ i) (hrests : L.Rests m j) (hk : L.Keeps j m mem) : L.Keeps j m (proc L i next t lockCount mem).1 := by
  intro a ha
  have hnot := Layout.own_disjoint hj hi hij (hrests.own ha)
  have htf : a ≠ L.pcb i + 8 := fun he => hnot (Or.inr (Or.inl he))
  have hlocked : a ≠ L.pcb i + 12 := fun he => hnot (Or.inr (Or.inr he))
  unfold proc
  dsimp only
  rw [store_apply, if_neg hlocked, store_apply, if_neg htf]
  exact hk a ha

/-- **An interrupt** leaves the thread where it is, and enters the next one where it
waits. -/
theorem irq (hinv : Inv L (s, h)) {id : Word} {mem : Mem} {next : ℕ} (hok : Ok L (s, h) (.irq id mem next)) :
    Inv L (interrupt L id mem next s, record L s (.irq id mem next) h) := by
  obtain ⟨hnext, hcpl, -, hlo, hhi, hothers, hframe⟩ := hok
  dsimp only at hnext hcpl hlo hhi hothers hframe
  obtain ⟨t, hesp⟩ : ∃ t, s.cpu.esp = t + 68 := ⟨s.cpu.esp - 68, by omega⟩
  rw [hesp] at hlo hhi hframe
  obtain ⟨hp, hcs, -, -, -⟩ := enter_frame hesp id s.mem
  -- the memory when `schedule` has chosen
  obtain ⟨m', hm'⟩ : ∃ m', m' = (proc L s.current next t s.lockCount mem).1 := ⟨_, rfl⟩
  obtain ⟨hself, hrests⟩ := @proc_waits L s.cpu s.mem mem s.current t next id s.lockCount
    (hinv.bound _ hinv.current) hesp (Nat.le_of_add_le_add_right hlo) hhi hcpl hframe
  rw [← hm'] at hself hrests
  have hall : ∀ i ∈ h.threads, (if s.current = i then some ⟨s.cpu, s.lockCount⟩ else pending i h.log) =
      some (L.waiting m' i) ∧ L.Rests m' i := by
    intro i hi
    by_cases hcur : s.current = i
    · subst hcur
      rw [if_pos rfl, hself]
      exact ⟨rfl, hrests⟩
    · rw [if_neg hcur]
      have hne := Ne.symm hcur
      refine hinv.waits_keeps hi hne ?_
      rw [hm']
      exact proc_keeps (hinv.bound _ hinv.current) (hinv.bound i hi) hne (hinv.waits i hi hne).2 (hothers i hi hne)
  obtain ⟨hwait, hrest⟩ := hall next hnext
  have hirq : interrupt L id mem next s =
      ⟨m', savedCpu m' (L.tf m' next), next, m' (L.pcb next + 12)⟩ := by
    unfold interrupt
    dsimp only
    rw [hp, ← hm', restore_saved (t := L.tf m' next) rfl (by rw [hcs]; decide) hrest.ring0, hm']
    rfl
  have hrec : record L s (.irq id mem next) h =
      { h with log := h.log ++ [.leave s.current ⟨s.cpu, s.lockCount⟩, .enter next (L.waiting m' next)] } := by
    unfold record
    dsimp only
    rw [hirq]
    rfl
  rw [hirq, hrec]
  refine ⟨hinv.bound, hinv.idle, hnext, hinv.inOrder.switch hinv.running hwait, ?_, fun i hi hne => ?_,
    fun i hi => ?_⟩
  · exact pending_switch.trans (if_pos rfl)
  · dsimp only at hi hne ⊢
    rw [pending_switch, if_neg (Ne.symm hne)]
    exact hall i hi
  · dsimp only at hi ⊢
    have hnotcur : s.current ≠ i := fun he => hi (he ▸ hinv.current)
    have hnotnext : next ≠ i := fun he => hi (he ▸ hnext)
    rw [pending_switch, if_neg hnotnext, if_neg hnotcur]
    exact hinv.fresh i hi

theorem step {a : Act} {s' : Machine} (hinv : Inv L (s, h)) (hok : Ok L (s, h) a)
    (hstep : Kthread.step L s a = some s') : Inv L (s', record L s a h) := by
  cases a with
  | run cpu mem lockCount =>
    obtain rfl := Option.some.inj hstep
    exact hinv.run hok
  | create segs kcr3 sp => exact hinv.create hok hstep
  | irq id mem next =>
    obtain rfl := Option.some.inj hstep
    exact hinv.irq hok

end Inv

theorem After.inv {L : Layout} {mem : Mem} {cpu : Cpu} {lockCount : Word} {p : Machine × History}
    (h : After L mem cpu lockCount p) : Inv L p := by
  refine Reach.invariant h (.init L mem cpu lockCount) ?_
  rintro ⟨s, h⟩ a ⟨s', h'⟩ hinv hok hstep
  obtain ⟨hs, hrecord⟩ := withHistory_eq_some.mp hstep
  dsimp only at hs hrecord
  subst hrecord
  exact hinv.step hok hs

/-- **A thread comes back where it was interrupted.** In every run, whichever threads
`schedule` chooses, the contexts in which a thread has been entered are those in
which it was left, one after the other: the same registers, with the flags, the
segments, `eip` and `esp`, and the same `lock_count`. Only the last one is
outstanding while the thread waits, and it is what the frame of the thread, `tf` and
`locked` say. -/
theorem resumes_where_left {L : Layout} {mem : Mem} {cpu : Cpu} {lockCount : Word} {s : Machine} {h : History}
    (hr : After L mem cpu lockCount (s, h)) :
    (∀ i, left i h.log = entered i h.log ++ (pending i h.log).toList) ∧ s.current ∈ h.threads ∧
      ∀ i ∈ h.threads, pending i h.log = if i = s.current then none else some (L.waiting s.mem i) := by
  have hinv := hr.inv
  refine ⟨hinv.inOrder.left_eq, hinv.current, fun i hi => ?_⟩
  by_cases hcur : i = s.current
  · rw [if_pos hcur, hcur]
    exact hinv.running
  · rw [if_neg hcur]
    exact (hinv.waits i hi hcur).1

/-! ### One switch and back -/

theorem Inv.quiet {L : Layout} {s : Machine} {h : History} (hinv : Inv L (s, h)) {id : Word} {next : ℕ}
    (hnext : next ∈ h.threads) (hcpl : s.cpu.cs &&& 3 = 0) (haligned : 4 ∣ s.cpu.esp)
    (hlo : L.lo s.current + 68 ≤ s.cpu.esp) (hhi : s.cpu.esp ≤ L.hi s.current) :
    Ok L (s, h) (.irq id (saveRegs (stub id (deliver (s.cpu, s.mem)))).2 next) := by
  obtain ⟨t, hesp⟩ : ∃ t, s.cpu.esp = t + 68 := ⟨s.cpu.esp - 68, by omega⟩
  obtain ⟨-, -, -, -, hkeep⟩ := enter_frame hesp id s.mem
  refine ⟨hnext, hcpl, haligned, hlo, hhi, fun i hi hne a ha => hkeep a ?_, fun _ _ _ => rfl⟩
  have hown := (hinv.waits i hi hne).2.own ha
  have hnot := Layout.own_disjoint (hinv.bound i hi) (hinv.bound _ hinv.current) hne hown
  by_contra hin
  exact hnot (Or.inl ⟨by dsimp only; omega, by dsimp only; omega⟩)

/-- A boot stack below the heads. -/
def lowLayout : Layout := { lowPool with
  bootLo := 8192
  bootHi := 32768
  boot_lt := by decide
  boot_pool := by decide
  boot_free := by decide
  boot_block := by decide }

/-- `idle`, with room on its stack. -/
def idleCpu : Cpu := { kernelCpu with esp := 16384, eflags := 0x202 }

/-- `idle` at the start. -/
def idleOnly : Machine := ⟨oneFree, idleCpu, 0, 0⟩

/-- It creates a thread. -/
def oneThread : Machine × History :=
  let a := Act.create kernelSegments 4096 16384
  ((step lowLayout idleOnly a).getD idleOnly, record lowLayout idleOnly a ⟨[0], []⟩)

/-- `int $0x80`, with routines that change nothing. -/
def quietSwitch (next : ℕ) (p : Machine × History) : Machine × History :=
  let a := Act.irq 0x80 (saveRegs (stub 0x80 (deliver (p.1.cpu, p.1.mem)))).2 next
  ((step lowLayout p.1 a).getD p.1, record lowLayout p.1 a p.2)

theorem oneThread_after : After lowLayout oneFree idleCpu 0 oneThread := by
  refine .step (a := .create kernelSegments 4096 16384) .init ?_ rfl
  refine ⟨_, _, 1, [], oneFree_lists, rfl, by decide, fun k hk => ⟨?_, Or.inl ?_⟩⟩
  · apply Layout.boot_not_link (L := lowLayout)
    · change 8192 ≤ _
      omega
    · change _ < 32768
      omega
  · change _ < 1048576 + 16384 * 1
    omega

theorem quietSwitch_after {p : Machine × History} (h : After lowLayout oneFree idleCpu 0 p) {next : ℕ}
    (hnext : next ∈ p.2.threads) (hcpl : p.1.cpu.cs &&& 3 = 0) (haligned : 4 ∣ p.1.cpu.esp)
    (hlo : lowLayout.lo p.1.current + 68 ≤ p.1.cpu.esp) (hhi : p.1.cpu.esp ≤ lowLayout.hi p.1.current) :
    After lowLayout oneFree idleCpu 0 (quietSwitch next p) :=
  .step h (h.inv.quiet hnext hcpl haligned hlo hhi) rfl

/-- `idle` lets the new thread run, which lets `idle` run. -/
theorem resumes_where_left_low :
    ∃ s h, After lowLayout oneFree idleCpu 0 (s, h) ∧ h.threads = [1, 0] ∧ s.current = 0 ∧
      left 0 h.log = entered 0 h.log ∧ (left 0 h.log).map (fun x => x.cpu.esp) = [16384] ∧
      pending 1 h.log = some (lowLayout.waiting s.mem 1) := by
  have hone : After lowLayout oneFree idleCpu 0 (quietSwitch 1 oneThread) :=
    quietSwitch_after oneThread_after (by decide) (by decide) (by decide) (by decide) (by decide)
  have htwo : After lowLayout oneFree idleCpu 0 (quietSwitch 0 (quietSwitch 1 oneThread)) :=
    quietSwitch_after hone (by decide) (by decide) (by decide) (by decide) (by decide)
  obtain ⟨hleft, -, hwaits⟩ := resumes_where_left htwo
  have h0 := hwaits 0 (by decide)
  have h1 := hwaits 1 (by decide)
  refine ⟨_, _, htwo, by decide, rfl, ?_, by decide, h1⟩
  calc left 0 _ = entered 0 _ ++ (pending 0 _).toList := hleft 0
    _ = entered 0 _ ++ [] := by rw [h0]; rfl
    _ = entered 0 _ := List.append_nil _

end Kthread
end NanoOS
