/-
# The bounded buffer of `util.c`

`test_producer` and `test_consumer` share a ring of `NBUF` numbers, its two
indices and two counters; the semaphores `empty` and `full` count places and
items, and `mutex` is held while the ring is used. This module has the
statements of the two programs and what they do to the shared memory, and
proves the buffer right for semaphores as they should be: a `P` goes through
when fewer have than the semaphore's value and the `V` allow.
`NanoOS.Kernel.ProdCons` runs the same programs on the kernel.

Key definitions: `Stmt`, `Stmt.exec`, `Abs`, `Abs.Step`, `Abs.Inv`.
Key theorems: `Abs.Inv.step`, `Abs.Inv.checks`, `Abs.Inv.stored`.
-/
import NanoOS.Lib.BoundedBuffer
import Mathlib.Data.BitVec

namespace NanoOS
namespace Buffer

open BoundedBuffer

/-- `NBUF`. -/
def nbuf : ℕ := 5

/-- `Sem empty, full, mutex`. -/
inductive Sem
  | full
  | empty
  | mutex
  deriving DecidableEq

/-- What `test_setup` creates them with. -/
def Sem.value : Sem → ℕ
  | full => 0
  | empty => nbuf
  | mutex => 1

/-- The statements of the loops, those of `test_producer` first. -/
inductive Stmt
  /-- `P(&empty)` -/
  | pEmpty
  /-- `P(&mutex)` -/
  | pMutex
  /-- `buf[f] = g` of `buf[f ++] = g ++` -/
  | store
  /-- `f ++` -/
  | incF
  /-- `g ++` -/
  | incG
  /-- `f %= NBUF` -/
  | modF
  /-- `V(&mutex)` -/
  | vMutex
  /-- `V(&full)` -/
  | vFull
  /-- `P(&full)` -/
  | cFull
  /-- `P(&mutex)` -/
  | cMutex
  /-- `get = buf[r]` of `get = buf[r ++]` -/
  | fetch
  /-- `r ++` -/
  | incR
  /-- `assert(last == get - 1)` -/
  | check
  /-- `last = get` -/
  | setLast
  /-- `r %= NBUF` -/
  | modR
  /-- `V(&mutex)` -/
  | cvMutex
  /-- `V(&empty)` -/
  | cvEmpty
  deriving DecidableEq

namespace Stmt

/-- The statement that follows; the loops start over. -/
def next : Stmt → Stmt
  | pEmpty => pMutex
  | pMutex => store
  | store => incF
  | incF => incG
  | incG => modF
  | modF => vMutex
  | vMutex => vFull
  | vFull => pEmpty
  | cFull => cMutex
  | cMutex => fetch
  | fetch => incR
  | incR => check
  | check => setLast
  | setLast => modR
  | modR => cvMutex
  | cvMutex => cvEmpty
  | cvEmpty => cFull

/-- The statement is `P(&σ)`. -/
def down : Stmt → Option Sem
  | pEmpty => some .empty
  | pMutex => some .mutex
  | cFull => some .full
  | cMutex => some .mutex
  | _ => none

/-- The statement is `V(&σ)`. -/
def up : Stmt → Option Sem
  | vMutex => some .mutex
  | vFull => some .full
  | cvMutex => some .mutex
  | cvEmpty => some .empty
  | _ => none

end Stmt

/-- `buf`, `f`, `r`, `g`, `last`, and the variable `get` of each thread. -/
structure Mem where
  buf : ℕ → BitVec 32
  f : ℕ
  r : ℕ
  g : BitVec 32
  last : BitVec 32
  get : ℕ → BitVec 32

/-- The initial values. -/
def Mem.init : Mem := ⟨fun _ => 0, 0, 0, 1, 0, fun _ => 0⟩

/-- A statement of thread `t`; a failed assertion is `none`. `printk` does
nothing to the memory. -/
def Stmt.exec (t : ℕ) (m : Mem) : Stmt → Option Mem
  | store => some { m with buf := Function.update m.buf m.f m.g }
  | incF => some { m with f := m.f + 1 }
  | incG => some { m with g := m.g + 1 }
  | modF => some { m with f := m.f % nbuf }
  | fetch => some { m with get := Function.update m.get t (m.buf m.r) }
  | incR => some { m with r := m.r + 1 }
  | check => if m.last = m.get t - 1 then some m else none
  | setLast => some { m with last := m.get t }
  | modR => some { m with r := m.r % nbuf }
  | _ => some m

/-! ### With semaphores as they should be -/

/-- Where the threads are, the shared memory, how many `P` and `V` went
through, how many numbers were stored and fetched, and those fetched. -/
structure Abs where
  pc : ℕ → Option Stmt
  mem : Mem
  taken : Sem → ℕ
  given : Sem → ℕ
  produced : ℕ
  consumed : ℕ
  out : List (BitVec 32)

namespace Abs

/-- After a statement `st` of thread `t` that leaves the memory as `m`. -/
def after (a : Abs) (t : ℕ) (st : Stmt) (m : Mem) : Abs where
  pc := Function.update a.pc t (some st.next)
  mem := m
  taken := fun σ => a.taken σ + ind (st.down = some σ)
  given := fun σ => a.given σ + ind (st.up = some σ)
  produced := a.produced + ind (st = .store)
  consumed := a.consumed + ind (st = .fetch)
  out := if st = .fetch then a.out ++ [a.mem.buf a.mem.r] else a.out

/-- A thread executes a statement. A `P` waits for its turn. -/
inductive Step (a : Abs) : Abs → Prop
  | stmt (t : ℕ) (st : Stmt) (m : Mem) (hpc : a.pc t = some st)
      (hdown : ∀ σ, st.down = some σ → a.taken σ < σ.value + a.given σ) (hexec : st.exec t a.mem = some m) :
      Step a (a.after t st m)

/-! ### The invariant -/

/-- Number `j` of the products. -/
def item (j : ℕ) : BitVec 32 := BitVec.ofNat 32 (j + 1)

/-- A place is taken and no number stored yet. -/
def storing : List (Option Stmt) := [some .pMutex, some .store]

/-- A number is stored and not announced yet. -/
def stored : List (Option Stmt) := [some .incF, some .incG, some .modF, some .vMutex, some .vFull]

/-- An item is taken and not fetched yet. -/
def fetching : List (Option Stmt) := [some .cMutex, some .fetch]

/-- A number is fetched and its place not given back yet. -/
def fetched : List (Option Stmt) :=
  [some .incR, some .check, some .setLast, some .modR, some .cvMutex, some .cvEmpty]

/-- Between `P(&mutex)` and `V(&mutex)`. -/
def inside : List (Option Stmt) :=
  [some .store, some .incF, some .incG, some .modF, some .vMutex,
    some .fetch, some .incR, some .check, some .setLast, some .modR, some .cvMutex]

/-- `f` and `g` when `P` numbers are stored, with the thread inside at `x`. -/
def IndexF (x : Option Stmt) (m : Mem) (P : ℕ) : Prop :=
  match x with
  | some .incF => ∃ p, P = p + 1 ∧ m.f = p % nbuf ∧ m.g = item p
  | some .incG => ∃ p, P = p + 1 ∧ m.f = p % nbuf + 1 ∧ m.g = item p
  | some .modF => ∃ p, P = p + 1 ∧ m.f = p % nbuf + 1 ∧ m.g = item P
  | _ => m.f = P % nbuf ∧ m.g = item P

/-- `r`, `last` and `get` when `C` numbers are fetched. -/
def IndexR (x : Option Stmt) (get : BitVec 32) (m : Mem) (C : ℕ) : Prop :=
  match x with
  | some .incR => ∃ c, C = c + 1 ∧ m.r = c % nbuf ∧ get = item c ∧ m.last = BitVec.ofNat 32 c
  | some .check => ∃ c, C = c + 1 ∧ m.r = c % nbuf + 1 ∧ get = item c ∧ m.last = BitVec.ofNat 32 c
  | some .setLast => ∃ c, C = c + 1 ∧ m.r = c % nbuf + 1 ∧ get = item c ∧ m.last = BitVec.ofNat 32 c
  | some .modR => ∃ c, C = c + 1 ∧ m.r = c % nbuf + 1 ∧ m.last = BitVec.ofNat 32 C
  | _ => m.r = C % nbuf ∧ m.last = BitVec.ofNat 32 C

/-- `h` is the thread inside, and the indices are as they should be. -/
structure Held (a : Abs) (h : Option ℕ) : Prop where
  only : ∀ t, a.pc t ∈ inside ↔ h = some t
  count : a.taken .mutex = a.given .mutex + ind (h.isSome = true)
  indexF : IndexF (h.bind a.pc) a.mem a.produced
  indexR : IndexR (h.bind a.pc) ((h.map a.mem.get).getD 0) a.mem a.consumed

/-- The invariant: nobody takes more than there is, everybody between two
points of the programs is counted, and the ring holds what was stored and not
fetched. -/
structure Inv (a : Abs) : Prop where
  bound : ∀ σ, a.taken σ ≤ σ.value + a.given σ
  storing : ∃ n, Count (· ∈ storing) a.pc n ∧ a.taken .empty = a.produced + n
  stored : ∃ n, Count (· ∈ stored) a.pc n ∧ a.produced = a.given .full + n
  fetching : ∃ n, Count (· ∈ fetching) a.pc n ∧ a.taken .full = a.consumed + n
  fetched : ∃ n, Count (· ∈ fetched) a.pc n ∧ a.consumed = a.given .empty + n
  held : ∃ h, Held a h
  window : Window nbuf a.mem.buf item a.consumed a.produced
  out : a.out = (List.range a.consumed).map item

variable {a : Abs} {t : ℕ} {st : Stmt} {m : Mem} {h : Option ℕ}

theorem count_after {region : List (Option Stmt)} {x y dx dy : ℕ} (hpc : a.pc t = some st)
    (hc : ∃ n, Count (· ∈ region) a.pc n ∧ x = y + n)
    (hd : ind (some st.next ∈ region) + dy = ind (some st ∈ region) + dx) :
    ∃ n, Count (· ∈ region) (a.after t st m).pc n ∧ x + dx = y + dy + n := by
  obtain ⟨n, hn, hxy⟩ := hc
  obtain ⟨n', hn', hmove⟩ := hn.move t (some st.next)
  rw [hpc] at hmove
  exact ⟨n', hn', by omega⟩

theorem Inv.bound_after (hI : Inv a) (hdown : ∀ σ, st.down = some σ → a.taken σ < σ.value + a.given σ) (σ : Sem) :
    (a.after t st m).taken σ ≤ σ.value + (a.after t st m).given σ := by
  have hb := hI.bound σ
  unfold after
  dsimp only
  by_cases hσ : st.down = some σ
  · have hlt := hdown σ hσ
    rw [ind_pos hσ]
    omega
  · rw [ind_neg hσ]
    omega

theorem Inv.place (hI : Inv a) (ht : a.pc t ∈ Abs.storing) : a.produced < a.consumed + nbuf := by
  obtain ⟨n, hn, htaken⟩ := hI.storing
  obtain ⟨n', -, hgiven⟩ := hI.fetched
  have hpos := hn.pos ht
  have hbound := hI.bound .empty
  unfold Sem.value at hbound
  dsimp only at hbound
  omega

theorem Inv.available (hI : Inv a) (ht : a.pc t ∈ Abs.fetching) : a.consumed < a.produced := by
  obtain ⟨n, hn, htaken⟩ := hI.fetching
  obtain ⟨n', -, hgiven⟩ := hI.stored
  have hpos := hn.pos ht
  have hbound := hI.bound .full
  unfold Sem.value at hbound
  dsimp only at hbound
  omega

/-- **Between 0 and `NBUF` numbers are stored and not fetched.** -/
theorem Inv.between (hI : Inv a) : a.consumed ≤ a.produced ∧ a.produced ≤ a.consumed + nbuf := by
  obtain ⟨n₁, -, h₁⟩ := hI.storing
  obtain ⟨n₂, -, h₂⟩ := hI.stored
  obtain ⟨n₃, -, h₃⟩ := hI.fetching
  obtain ⟨n₄, -, h₄⟩ := hI.fetched
  have hempty := hI.bound .empty
  have hfull := hI.bound .full
  unfold Sem.value at hempty hfull
  dsimp only at hempty hfull
  omega

/-! ### Who is inside -/

theorem after_pc_of_ne {u : ℕ} (hu : u ≠ t) : (a.after t st m).pc u = a.pc u := Function.update_of_ne hu ..

theorem after_pc_self : (a.after t st m).pc t = some st.next := Function.update_self ..

theorem Held.outside (hH : Held a h) (hpc : a.pc t = some st) (hexec : st.exec t a.mem = some m)
    (hst : st = .pEmpty ∨ st = .vFull ∨ st = .cFull ∨ st = .cvEmpty) : Held (a.after t st m) h := by
  have hout : some st ∉ inside ∧ some st.next ∉ inside ∧ st.down ≠ some .mutex ∧ st.up ≠ some .mutex ∧
      st ≠ .store ∧ st ≠ .fetch ∧ a.mem = m := by
    rcases hst with rfl | rfl | rfl | rfl
    all_goals exact ⟨by decide, by decide, by decide, by decide, by decide, by decide, Option.some.inj hexec⟩
  obtain ⟨hin, hin', hdown, hup, hstore, hfetch, hm⟩ := hout
  have hne : h ≠ some t := by
    intro ht
    have hmem := (hH.only t).mpr ht
    rw [hpc] at hmem
    exact hin hmem
  have hbind : h.bind (a.after t st m).pc = h.bind a.pc := by
    cases h with
    | none => rfl
    | some u => exact after_pc_of_ne fun hu => hne (hu ▸ rfl)
  refine ⟨fun u => ?_, ?_, ?_, ?_⟩
  · by_cases hu : u = t
    · rw [hu, after_pc_self]
      exact ⟨fun hmem => absurd hmem hin', fun ht => absurd ht hne⟩
    · rw [after_pc_of_ne hu]
      exact hH.only u
  · unfold after
    dsimp only
    rw [ind_neg hdown, ind_neg hup]
    exact hH.count
  · rw [hbind]
    unfold after
    dsimp only
    rw [ind_neg hstore, ← hm]
    exact hH.indexF
  · rw [hbind]
    unfold after
    dsimp only
    rw [ind_neg hfetch, ← hm]
    exact hH.indexR

theorem Held.enter (hH : Held a none) (hexec : st.exec t a.mem = some m) (hst : st = .pMutex ∨ st = .cMutex) :
    Held (a.after t st m) (some t) := by
  have hin : some st.next ∈ inside ∧ st.down = some .mutex ∧ st.up = none ∧ st ≠ .store ∧ st ≠ .fetch ∧
      a.mem = m := by
    rcases hst with rfl | rfl
    all_goals exact ⟨by decide, by decide, by decide, by decide, by decide, Option.some.inj hexec⟩
  obtain ⟨hin, hdown, hup, hstore, hfetch, hm⟩ := hin
  refine ⟨fun u => ?_, ?_, ?_, ?_⟩
  · by_cases hu : u = t
    · rw [hu, after_pc_self]
      exact ⟨fun _ => rfl, fun _ => hin⟩
    · rw [after_pc_of_ne hu, hH.only u]
      exact ⟨fun h => absurd h (by simp), fun h => absurd (Option.some.inj h).symm hu⟩
  · have hcount := hH.count
    rw [ind_neg (by simp)] at hcount
    unfold after
    dsimp only
    rw [ind_pos hdown, hup, ind_neg (by simp), ind_pos Option.isSome_some, hcount]
  · rw [Option.bind_some, after_pc_self]
    unfold after
    dsimp only
    rw [ind_neg hstore, ← hm]
    rcases hst with rfl | rfl
    · exact hH.indexF
    · exact hH.indexF
  · rw [Option.bind_some, after_pc_self]
    unfold after
    dsimp only
    rw [ind_neg hfetch, ← hm]
    rcases hst with rfl | rfl
    · exact hH.indexR
    · exact hH.indexR

theorem Held.leave (hH : Held a (some t)) (hpc : a.pc t = some st) (hexec : st.exec t a.mem = some m)
    (hst : st = .vMutex ∨ st = .cvMutex) : Held (a.after t st m) none := by
  have hout : some st.next ∉ inside ∧ st.down = none ∧ st.up = some .mutex ∧ st ≠ .store ∧ st ≠ .fetch ∧
      a.mem = m := by
    rcases hst with rfl | rfl
    all_goals exact ⟨by decide, by decide, by decide, by decide, by decide, Option.some.inj hexec⟩
  obtain ⟨hout, hdown, hup, hstore, hfetch, hm⟩ := hout
  have hF := hH.indexF
  have hR := hH.indexR
  rw [Option.bind_some, hpc] at hF hR
  refine ⟨fun u => ?_, ?_, ?_, ?_⟩
  · by_cases hu : u = t
    · rw [hu, after_pc_self]
      exact ⟨fun hmem => absurd hmem hout, fun h => absurd h (by simp)⟩
    · rw [after_pc_of_ne hu, hH.only u]
      exact ⟨fun h => absurd (Option.some.inj h).symm hu, fun h => absurd h (by simp)⟩
  · have hcount := hH.count
    rw [ind_pos Option.isSome_some] at hcount
    unfold after
    dsimp only
    rw [hdown, ind_neg (by simp), ind_pos hup, ind_neg (by simp), hcount]
  · unfold after
    dsimp only
    rw [ind_neg hstore, ← hm]
    rcases hst with rfl | rfl
    · exact hF
    · exact hF
  · unfold after
    dsimp only
    rw [ind_neg hfetch, ← hm]
    rcases hst with rfl | rfl
    · exact hR
    · exact hR

/-- A statement of the thread inside that leaves it there: what is to be shown
is about the indices. -/
theorem Held.stay (hH : Held a (some t)) (hin : some st.next ∈ inside) (hdown : st.down = none) (hup : st.up = none)
    (hF : IndexF (some st.next) m (a.produced + ind (st = .store)))
    (hR : IndexR (some st.next) (m.get t) m (a.consumed + ind (st = .fetch))) :
    Held (a.after t st m) (some t) := by
  refine ⟨fun u => ?_, ?_, ?_, ?_⟩
  · by_cases hu : u = t
    · rw [hu, after_pc_self]
      exact ⟨fun _ => rfl, fun _ => hin⟩
    · rw [after_pc_of_ne hu]
      exact hH.only u
  · unfold after
    dsimp only
    rw [hdown, hup, ind_neg (show ¬ (none : Option Sem) = some .mutex by simp)]
    exact hH.count
  · rw [Option.bind_some, after_pc_self]
    exact hF
  · rw [Option.bind_some, after_pc_self]
    exact hR

theorem Held.self (hH : Held a h) (hpc : a.pc t = some st) (hin : some st ∈ inside) :
    Held a (some t) ∧ IndexF (some st) a.mem a.produced ∧ IndexR (some st) (a.mem.get t) a.mem a.consumed := by
  have ht : h = some t := (hH.only t).mp (by rw [hpc]; exact hin)
  subst ht
  have hF := hH.indexF
  have hR := hH.indexR
  rw [Option.bind_some, hpc] at hF hR
  exact ⟨hH, hF, hR⟩

theorem Held.none_of_lt (hH : Held a h) (hlt : a.taken .mutex < Sem.mutex.value + a.given .mutex) : h = none := by
  have hcount := hH.count
  cases h with
  | none => rfl
  | some u =>
    rw [ind_pos Option.isSome_some] at hcount
    unfold Sem.value at hlt
    dsimp only at hlt
    omega

theorem item_add_one (j : ℕ) : item j + 1 = item (j + 1) := (BitVec.ofNat_add (j + 1) 1).symm

theorem ofNat_eq_item_sub (c : ℕ) : BitVec.ofNat 32 c = item c - 1 := by
  unfold item
  rw [BitVec.ofNat_add]
  exact (BitVec.add_sub_cancel _ _).symm

/-- **Every statement leaves the indices as they should be.** -/
theorem Inv.held_after (hI : Inv a) (hpc : a.pc t = some st)
    (hdown : ∀ σ, st.down = some σ → a.taken σ < σ.value + a.given σ) (hexec : st.exec t a.mem = some m) :
    ∃ h, Held (a.after t st m) h := by
  obtain ⟨h, hH⟩ := hI.held
  cases st with
  | pEmpty => exact ⟨h, hH.outside hpc hexec (by simp)⟩
  | vFull => exact ⟨h, hH.outside hpc hexec (by simp)⟩
  | cFull => exact ⟨h, hH.outside hpc hexec (by simp)⟩
  | cvEmpty => exact ⟨h, hH.outside hpc hexec (by simp)⟩
  | pMutex =>
    have hnone := hH.none_of_lt (hdown .mutex rfl)
    subst hnone
    exact ⟨some t, hH.enter hexec (Or.inl rfl)⟩
  | cMutex =>
    have hnone := hH.none_of_lt (hdown .mutex rfl)
    subst hnone
    exact ⟨some t, hH.enter hexec (Or.inr rfl)⟩
  | vMutex => exact ⟨none, (hH.self hpc (by decide)).1.leave hpc hexec (Or.inl rfl)⟩
  | cvMutex => exact ⟨none, (hH.self hpc (by decide)).1.leave hpc hexec (Or.inr rfl)⟩
  | store =>
    obtain ⟨hH, hF, hR⟩ := hH.self hpc (by decide)
    cases hexec
    exact ⟨some t, hH.stay (by decide) rfl rfl ⟨a.produced, rfl, hF.1, hF.2⟩ hR⟩
  | incF =>
    obtain ⟨hH, ⟨p, hP, hf, hg⟩, hR⟩ := hH.self hpc (by decide)
    cases hexec
    exact ⟨some t, hH.stay (by decide) rfl rfl ⟨p, hP, congrArg (· + 1) hf, hg⟩ hR⟩
  | incG =>
    obtain ⟨hH, ⟨p, hP, hf, hg⟩, hR⟩ := hH.self hpc (by decide)
    cases hexec
    refine ⟨some t, hH.stay (by decide) rfl rfl ⟨p, hP, hf, ?_⟩ hR⟩
    change a.mem.g + 1 = item a.produced
    rw [hg, hP, item_add_one]
  | modF =>
    obtain ⟨hH, ⟨p, hP, hf, hg⟩, hR⟩ := hH.self hpc (by decide)
    cases hexec
    refine ⟨some t, hH.stay (by decide) rfl rfl ⟨?_, hg⟩ hR⟩
    change a.mem.f % nbuf = a.produced % nbuf
    rw [hf, hP, Nat.mod_add_mod]
  | fetch =>
    obtain ⟨hH, hF, hR⟩ := hH.self hpc (by decide)
    cases hexec
    have hbuf := (hI.window.fetch (hI.available (t := t) (by rw [hpc]; decide))).1
    refine ⟨some t, hH.stay (by decide) rfl rfl hF ⟨a.consumed, rfl, hR.1, ?_, hR.2⟩⟩
    change Function.update a.mem.get t (a.mem.buf a.mem.r) t = item a.consumed
    rw [Function.update_self, hR.1, hbuf]
  | incR =>
    obtain ⟨hH, hF, c, hC, hr, hget, hlast⟩ := hH.self hpc (by decide)
    cases hexec
    exact ⟨some t, hH.stay (by decide) rfl rfl hF ⟨c, hC, congrArg (· + 1) hr, hget, hlast⟩⟩
  | check =>
    obtain ⟨hH, hF, c, hC, hr, hget, hlast⟩ := hH.self hpc (by decide)
    unfold Stmt.exec at hexec
    dsimp only at hexec
    split at hexec
    · cases hexec
      exact ⟨some t, hH.stay (by decide) rfl rfl hF ⟨c, hC, hr, hget, hlast⟩⟩
    · cases hexec
  | setLast =>
    obtain ⟨hH, hF, c, hC, hr, hget, hlast⟩ := hH.self hpc (by decide)
    cases hexec
    refine ⟨some t, hH.stay (by decide) rfl rfl hF ⟨c, hC, hr, ?_⟩⟩
    change a.mem.get t = BitVec.ofNat 32 a.consumed
    rw [hget, hC]
    rfl
  | modR =>
    obtain ⟨hH, hF, c, hC, hr, hlast⟩ := hH.self hpc (by decide)
    cases hexec
    refine ⟨some t, hH.stay (by decide) rfl rfl hF ⟨?_, hlast⟩⟩
    change a.mem.r % nbuf = a.consumed % nbuf
    rw [hr, hC, Nat.mod_add_mod]

/-! ### Every run -/

theorem Inv.window_after (hI : Inv a) (hpc : a.pc t = some st) (hexec : st.exec t a.mem = some m) :
    Window nbuf m.buf item (a.consumed + ind (st = .fetch)) (a.produced + ind (st = .store)) := by
  by_cases hstore : st = .store
  · subst hstore
    obtain ⟨h, hH⟩ := hI.held
    obtain ⟨-, hF, -⟩ := hH.self hpc (by decide)
    cases hexec
    have hwin := hI.window.store (hI.place (t := t) (by rw [hpc]; decide))
    rw [← hF.1, ← hF.2] at hwin
    exact hwin
  · rw [ind_neg hstore]
    by_cases hfetch : st = .fetch
    · subst hfetch
      cases hexec
      exact (hI.window.fetch (hI.available (t := t) (by rw [hpc]; decide))).2
    · rw [ind_neg hfetch]
      have hbuf : m.buf = a.mem.buf := by
        cases st with
        | store => exact absurd rfl hstore
        | check =>
          unfold Stmt.exec at hexec
          dsimp only at hexec
          split at hexec
          · cases hexec
            rfl
          · cases hexec
        | _ =>
          cases hexec
          rfl
      rw [hbuf]
      exact hI.window

theorem Inv.out_after (hI : Inv a) (hpc : a.pc t = some st) :
    (a.after t st m).out = (List.range (a.after t st m).consumed).map item := by
  unfold after
  dsimp only
  by_cases hfetch : st = .fetch
  · subst hfetch
    obtain ⟨h, hH⟩ := hI.held
    obtain ⟨-, -, hR⟩ := hH.self hpc (by decide)
    have hbuf := (hI.window.fetch (hI.available (t := t) (by rw [hpc]; decide))).1
    rw [if_pos rfl, ind_pos rfl, List.range_succ, List.map_append, ← hI.out, hR.1, hbuf]
    rfl
  · rw [if_neg hfetch, ind_neg hfetch]
    exact hI.out

/-- **A step keeps the invariant.** -/
theorem Inv.step {a' : Abs} (hI : Inv a) (hs : Step a a') : Inv a' := by
  cases hs with
  | stmt t st m hpc hdown hexec =>
    refine ⟨hI.bound_after hdown, count_after hpc hI.storing ?_, count_after hpc hI.stored ?_,
      count_after hpc hI.fetching ?_, count_after hpc hI.fetched ?_, hI.held_after hpc hdown hexec,
      hI.window_after hpc hexec, hI.out_after hpc⟩
    all_goals
      cases st with
      | _ => decide

/-- Nobody has started. -/
def init (pc : ℕ → Option Stmt) : Abs := ⟨pc, Mem.init, fun _ => 0, fun _ => 0, 0, 0, []⟩

theorem inv_init {pc : ℕ → Option Stmt} (hpc : ∀ t st, pc t = some st → st = .pEmpty ∨ st = .cFull) :
    Inv (init pc) := by
  have hout : ∀ region : List (Option Stmt), none ∉ region → some .pEmpty ∉ region → some .cFull ∉ region →
      Count (· ∈ region) pc 0 := by
    intro region hnone hp hc
    refine ⟨∅, fun t => ⟨fun hm => absurd hm (Finset.notMem_empty t), fun hm => ?_⟩, rfl⟩
    cases hst : pc t with
    | none => exact absurd (hst ▸ hm) hnone
    | some st =>
      rcases hpc t st hst with rfl | rfl
      · exact absurd (hst ▸ hm) hp
      · exact absurd (hst ▸ hm) hc
  have hinside : ∀ t, pc t ∉ inside := by
    intro t hm
    obtain ⟨S, hS, hcard⟩ := hout inside (by decide) (by decide) (by decide)
    have hmem := (hS t).mpr hm
    rw [Finset.card_eq_zero.mp hcard] at hmem
    exact Finset.notMem_empty t hmem
  refine ⟨fun σ => Nat.zero_le _, ⟨0, hout _ (by decide) (by decide) (by decide), rfl⟩,
    ⟨0, hout _ (by decide) (by decide) (by decide), rfl⟩, ⟨0, hout _ (by decide) (by decide) (by decide), rfl⟩,
    ⟨0, hout _ (by decide) (by decide) (by decide), rfl⟩, ⟨none, ?_, rfl, ⟨rfl, rfl⟩, ⟨rfl, rfl⟩⟩,
    fun j _ hj => absurd hj (Nat.not_lt_zero j), rfl⟩
  exact fun t => ⟨fun hm => absurd hm (hinside t), fun h => absurd h (by simp)⟩

/-! ### What follows -/

/-- **The assertion holds.** -/
theorem Inv.checks (hI : Inv a) (hpc : a.pc t = some .check) : a.mem.last = a.mem.get t - 1 := by
  obtain ⟨h, hH⟩ := hI.held
  obtain ⟨-, -, c, -, -, hget, hlast⟩ := hH.self hpc (by decide)
  rw [hlast, hget, ofNat_eq_item_sub]

/-- **At most one thread is inside.** -/
theorem Inv.exclusive (hI : Inv a) {u : ℕ} (ht : a.pc t ∈ inside) (hu : a.pc u ∈ inside) : t = u := by
  obtain ⟨h, hH⟩ := hI.held
  exact Option.some.inj (((hH.only t).mp ht).symm.trans ((hH.only u).mp hu))

/-- **The indices are in range** when nobody is inside, or somebody who has
just come in or is about to leave. -/
theorem Inv.inRange (hI : Inv a)
    (hno : ∀ t, a.pc t ∈ inside → a.pc t ∈ [some .store, some .vMutex, some .fetch, some .cvMutex]) :
    a.mem.f < nbuf ∧ a.mem.r < nbuf := by
  obtain ⟨h, hH⟩ := hI.held
  have hF := hH.indexF
  have hR := hH.indexR
  have hbase : a.mem.f = a.produced % nbuf ∧ a.mem.r = a.consumed % nbuf := by
    cases h with
    | none => exact ⟨hF.1, hR.1⟩
    | some u =>
      have hu := hno u ((hH.only u).mpr rfl)
      rw [Option.bind_some] at hF hR
      generalize a.pc u = x at hu hF hR
      simp only [List.mem_cons, List.not_mem_nil, or_false] at hu
      rcases hu with rfl | rfl | rfl | rfl
      all_goals exact ⟨hF.1, hR.1⟩
  rw [hbase.1, hbase.2]
  exact ⟨Nat.mod_lt _ (by decide), Nat.mod_lt _ (by decide)⟩

end Abs

end Buffer
end NanoOS
