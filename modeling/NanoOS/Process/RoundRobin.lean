/-
# No ready thread is starved

`schedule` goes round the `ready` list, but starts over at its head whenever
the current thread has gone to sleep, and threads come back to the end of the
list at any time, the current one included. `rank` bounds how often a thread
that stays in `ready` can still be passed over: no operation but `schedule`
raises it, and every `schedule` that picks another thread lowers it.

`readyList` reads the list off the links, and `rank` is the rank of the
library's round robin at this list and `current`. The idle PCB and a thread
that has gone to sleep are both a cursor outside the list.

Key definitions: `readyList`, `rank`, `rankBound`.
Key theorems: `Inv.schedule_pick`, `Op.rank_le`, `Op.rank_schedule_lt`,
`no_starvation`.
-/
import Mathlib.Data.List.Perm.Subperm
import NanoOS.Lib.RoundRobin
import NanoOS.Process.SchedInv

namespace NanoOS
namespace Sched

open Ringlist Trans

/-- The PCBs met by following `next` from `p`, at most `n`. -/
def walk (m : Heap Node) : ℕ → Option Node → List ℕ
  | n + 1, some (.pcb i) => i :: walk m n (m (.pcb i)).next
  | _, _ => []

/-- What the list `ready` holds, from its head on. -/
def readyList (s : Sched) : List ℕ := walk s.links pcbPoolSize (s.links .ready).next

/-- How often `schedule` can still pass over `p`. -/
def rank (p : ℕ) (s : Sched) : ℕ := RoundRobin.rank pcbPoolSize s.readyList s.current p

/-- No rank is above this. -/
def rankBound : ℕ := pcbPoolSize * (2 * pcbPoolSize + 2) + (2 * pcbPoolSize + 1)

variable {s s' : Sched} {q q' : Node → List ℕ} {i p : ℕ}

/-! ### Reading the list -/

theorem length_walk_le (m : Heap Node) : ∀ (n : ℕ) (a : Option Node), (walk m n a).length ≤ n
  | 0, _ => by simp [walk]
  | n + 1, some (.pcb i) => by
    have := length_walk_le m n (m (.pcb i)).next
    simp only [walk, List.length_cons]
    omega
  | n + 1, none | n + 1, some .ready | n + 1, some .block | n + 1, some .free | n + 1, some (.sem _) => by
    simp [walk]

theorem walk_ring {m : Heap Node} : ∀ (n : ℕ) (a b : List ℕ),
    Ring m .ready ((a ++ b).map Node.pcb) → b.length < n →
    walk m n (some ((b.map Node.pcb).headD .ready)) = b
  | n + 1, a, [], _, _ => by simp [walk]
  | n + 1, a, i :: b, hr, hn => by
    have hnext : (m (.pcb i)).next = some ((b.map Node.pcb).headD .ready) := by
      rw [List.map_append, List.map_cons] at hr
      exact hr.around.2
    simp only [List.map_cons, List.headD_cons, walk]
    rw [hnext, walk_ring n (a ++ [i]) b (by simpa using hr) (by simpa using hn)]

theorem Inv.length_ready_lt (hI : Inv s q) : (q .ready).length < pcbPoolSize := by
  have hsub : q .ready ⊆ List.range' 1 (pcbPoolSize - 1) := by
    intro i hi
    obtain ⟨h1, h2⟩ := hI.bounds_of_mem hi
    rw [List.mem_range'_1]
    simp only [pcbPoolSize] at h2 ⊢
    omega
  have hle := (List.Nodup.subperm (hI.nodup .ready) hsub).length_le
  rw [List.length_range'] at hle
  simp only [pcbPoolSize] at hle ⊢
  omega

theorem Inv.readyList_eq (hI : Inv s q) : s.readyList = q .ready := by
  unfold readyList
  rw [hI.next_head (h := .ready) trivial]
  exact walk_ring _ [] _ (hI.rings.ring .ready trivial) hI.length_ready_lt

theorem Inv.rank_eq (hI : Inv s q) (p : ℕ) : rank p s = RoundRobin.rank pcbPoolSize (q .ready) s.current p := by
  rw [rank, hI.readyList_eq]

theorem rank_le (p : ℕ) (s : Sched) : rank p s ≤ rankBound := RoundRobin.rank_le (length_walk_le _ _ _)

/-! ### The operations -/

/-- The operation is a call of `schedule`. -/
def Op.isSchedule : Op → Bool
  | .schedule => true
  | _ => false

theorem Inv.current_mem_iff (hI : Inv s q) :
    s.current ∈ q .ready ↔ s.current ≠ 0 ∧ s.stat s.current ≠ .sleeping := by
  rw [hI.ready]
  constructor
  · rintro ⟨hc, hst⟩
    have h1 := (hI.bounds _ hc).1
    exact ⟨by omega, by simp [hst]⟩
  · rintro ⟨h0, hst⟩
    refine ⟨hI.current.resolve_left h0, ?_⟩
    cases h : s.stat s.current with
    | ready => rfl
    | sleeping => exact absurd h hst

/-- `schedule` picks the next of the round. -/
theorem Inv.schedule_pick (hI : Inv s q) (hq : q .ready ≠ []) :
    ∃ c, Sched.schedule s = some { s with current := c } ∧
      RoundRobin.pick (q .ready) s.current = some c := by
  have hl : s.Live .ready := trivial
  have hne : ¬ listEmpty .ready s.links = true := fun h => hq ((hI.listEmpty_iff hl).mp h)
  obtain ⟨i, r, hir⟩ := List.exists_cons_of_ne_nil hq
  have hfirst : setCurrent (s.links .ready).next s = some { s with current := i } := by
    rw [hI.next_head hl, hir]
    rfl
  have hhead : (q .ready).head? = some i := by rw [hir, List.head?_cons]
  unfold Sched.schedule
  rw [if_neg hne, hfirst]
  by_cases hm : s.current ∈ q .ready
  · obtain ⟨h0, hst⟩ := hI.current_mem_iff.mp hm
    rw [if_neg h0, if_neg hst]
    obtain ⟨a, b, hab⟩ := List.append_of_mem hm
    have hpick := RoundRobin.pick_split (hab ▸ hI.nodup .ready)
    rw [← hab, hhead] at hpick
    have hring := hI.rings.ring .ready hl
    rw [hab, List.map_append, List.map_cons] at hring
    rw [hring.around.2, hpick]
    cases b with
    | nil => exact ⟨i, rfl, rfl⟩
    | cons k b => exact ⟨k, rfl, rfl⟩
  · rw [RoundRobin.pick_of_notMem hm, hhead]
    refine ⟨i, ?_, rfl⟩
    by_cases h0 : s.current = 0
    · rw [if_pos h0]
    · rw [if_neg h0]
      by_cases hst : s.stat s.current = .sleeping
      · rw [if_pos hst]
      · exact absurd (hI.current_mem_iff.mpr ⟨h0, hst⟩) hm

theorem Inv.rank_makeReady_le (hI : Inv s q) (hst : s.stat i = .sleeping)
    (hI' : Inv (Sched.makeReady i s) (movedQ q i .ready)) (hp : p ∈ q .ready) :
    rank p (Sched.makeReady i s) ≤ rank p s := by
  have hi : i ∉ q .ready := by
    rw [hI.ready]
    rintro ⟨-, h⟩
    rw [hst] at h
    cases h
  rw [hI'.rank_eq, hI.rank_eq]
  simp only [movedQ, if_true, List.erase_of_not_mem hi]
  exact RoundRobin.rank_append_le hp

/-- A PCB goes to another list than `ready`; it is the current one if it was
in `ready`. -/
theorem Inv.rank_moved_le {h : Node} (hI : Inv s q) (hh : h ≠ .ready) (hcur : s'.current = s.current)
    (hi : i = s.current ∨ i ∉ q .ready) (hI' : Inv s' (movedQ q i h)) (hp : p ∈ q .ready)
    (hp' : p ∈ movedQ q i h .ready) : rank p s' ≤ rank p s := by
  rw [hI'.rank_eq, hI.rank_eq, hcur]
  simp only [movedQ, if_neg hh.symm] at hp' ⊢
  rcases hi with rfl | hi
  · have hne : s.current ≠ p := by
      rintro rfl
      exact (hI.nodup .ready).not_mem_erase hp'
    exact RoundRobin.rank_erase_le (hI.nodup .ready) hI.length_ready_lt.le hp hne
  · rw [List.erase_of_not_mem hi]

/-- No operation but `schedule` raises the rank of a thread that stays in
`ready`. -/
theorem Op.rank_le (hI : Inv s q) {o : Op} (hok : o.Ok s) (hs : o.step s = some s')
    (hne : o.isSchedule = false) (hp : p ∈ s.readyList) (hp' : p ∈ s'.readyList) :
    rank p s' ≤ rank p s := by
  rw [hI.readyList_eq] at hp
  cases o with
  | createKthread =>
    simp only [Op.step, Option.map_eq_some_iff] at hs
    obtain ⟨⟨i, t⟩, ht, rfl⟩ := hs
    obtain ⟨hI', hfree, hcur⟩ := hI.createKthread ht
    rw [hI'.readyList_eq] at hp'
    refine hI.rank_moved_le (by simp) hcur (Or.inr fun hm => ?_) hI' hp hp'
    exact absurd (hI.unique hfree hm) (by simp)
  | wakeup i =>
    obtain ⟨hst, rfl, hI'⟩ := hI.wakeup hok hs
    exact hI.rank_makeReady_le hst hI' hp
  | sleep =>
    simp only [Op.step, Option.some.injEq] at hs
    subst hs
    have hI' : Inv (Sched.sleep s) _ := hI.sleepOn (h := .block) hok trivial (Or.inl rfl)
    rw [hI'.readyList_eq] at hp'
    exact hI.rank_moved_le (by simp) rfl (Or.inl rfl) hI' hp hp'
  | P σ =>
    simp only [Op.step, Option.some.injEq] at hs
    subst hs
    rcases hI.P_cases hok.1 hok.2 with ⟨-, he, hI'⟩ | ⟨-, -, he, hI'⟩
    · rw [hI'.rank_eq, hI.rank_eq, he]
    · rw [hI'.readyList_eq] at hp'
      exact hI.rank_moved_le (by simp) (by rw [he]; rfl) (Or.inl rfl) hI' hp hp'
  | V σ =>
    rcases hI.V_cases hok hs with ⟨-, rfl, hI'⟩ | ⟨i, r, -, -, hst, rfl, hI'⟩
    · rw [hI'.rank_eq, hI.rank_eq]
    · exact hI.rank_makeReady_le hst hI' hp
  | createSem a v =>
    simp only [Op.step, Option.some.injEq] at hs
    subst hs
    have hd : ¬ s.Live (.sem (.user a)) := fun hl => by
      simp only [Live] at hl
      simp only [Op.Ok] at hok
      rw [hok] at hl
      cases hl
    have hI' : Inv (Sched.createSem (.user a) v s) q := hI.createSem (hI.dead _ hd) (by simp)
    rw [hI'.rank_eq, hI.rank_eq]
    rfl
  | schedule => cases hne

/-- A `schedule` that picks another thread lowers the rank. -/
theorem Op.rank_schedule_lt (hI : Inv s q) (hs : Op.step s .schedule = some s') (hp : p ∈ s.readyList)
    (hc : s'.current ≠ p) : rank p s' < rank p s := by
  rw [hI.readyList_eq] at hp
  obtain ⟨c, hsch, hpick⟩ := hI.schedule_pick (List.ne_nil_of_mem hp)
  simp only [Op.step, hsch, Option.some.injEq] at hs
  subst hs
  have hlist : ({ s with current := c } : Sched).readyList = q .ready := hI.readyList_eq
  rw [rank, hlist, hI.rank_eq]
  exact RoundRobin.rank_pick_lt (hI.nodup .ready) hI.length_ready_lt.le hp hpick hc

/-! ### Every run -/

/-- In this step, `p` stays in `ready` and is not picked. -/
def PassesOver (p : ℕ) (s : Sched) (o : Op) (s' : Sched) : Prop :=
  o.Ok s ∧ p ∈ s.readyList ∧ p ∈ s'.readyList ∧ (o.isSchedule = true → s'.current ≠ p)

/-- **No ready thread is starved.** The rank of a thread is bounded by a
constant of the pool's size; from every state reached, no operation but
`schedule` raises the rank of a thread that stays in `ready`, and a
`schedule` that picks another one lowers it; so in a run that leaves the
thread in `ready` and never picks it, there are at most `rankBound` calls of
`schedule`. -/
theorem no_starvation :
    (∀ p s, rank p s ≤ rankBound) ∧
    (∀ s, Reach Op.step Op.Ok (initProc zero) s → ∀ (p : ℕ) (o : Op) (s' : Sched), o.Ok s →
      o.step s = some s' → p ∈ s.readyList → p ∈ s'.readyList →
        (o.isSchedule = false → rank p s' ≤ rank p s) ∧
        (o.isSchedule = true → s'.current ≠ p → rank p s' < rank p s)) ∧
    (∀ s, Reach Op.step Op.Ok (initProc zero) s → ∀ (p : ℕ) (os : List Op),
      Along Op.step (PassesOver p) s os → os.countP Op.isSchedule ≤ rankBound) := by
  have hstep : ∀ s, (∃ q, Inv s q) → ∀ (p : ℕ) (o : Op) (s' : Sched), o.Ok s → o.step s = some s' →
      p ∈ s.readyList → p ∈ s'.readyList →
        (o.isSchedule = false → rank p s' ≤ rank p s) ∧
        (o.isSchedule = true → s'.current ≠ p → rank p s' < rank p s) := by
    rintro s ⟨q, hI⟩ p o s' hok hs hp hp'
    refine ⟨fun hne => Op.rank_le hI hok hs hne hp hp', fun he hc => ?_⟩
    cases o with
    | schedule => exact Op.rank_schedule_lt hI hs hp hc
    | _ => cases he
  refine ⟨rank_le, fun s hr => hstep s (reach_inv hr), fun s hr p os hal => ?_⟩
  refine le_trans ?_ (rank_le p s)
  apply Along.countP_le (I := fun s => ∃ q, Inv s q) ?_ ?_ (reach_inv hr) hal
  · rintro s o s' ⟨q, hI⟩ ⟨hok, -, -, -⟩ hs
    exact Op.step_inv hI hok hs
  · rintro s o s' hI ⟨hok, hp, hp', hc⟩ hs
    have h := hstep s hI p o s' hok hs hp hp'
    cases he : o.isSchedule with
    | false => simpa using h.1 he
    | true => simpa [Nat.succ_le_iff] using h.2 he (hc he)

/-- Two threads are ready and `schedule` picks the first: the second one's
rank goes down. -/
theorem no_starvation_two_threads : ∃ s s', Reach Op.step Op.Ok (initProc zero) s ∧
    Op.step s .schedule = some s' ∧ 2 ∈ s.readyList ∧ s'.current = 1 ∧ rank 2 s' < rank 2 s ∧
    [Op.schedule].countP Op.isSchedule ≤ rankBound := by
  have hrun : ∃ s, Reach Op.step Op.Ok (initProc zero) s ∧
      (Op.step s .schedule).any (fun s' => decide (2 ∈ s.readyList ∧ 2 ∈ s'.readyList ∧ s'.current = 1))
        = true := by
    rw [initProc_zero]
    exact Reach.exists_of_exec [.createKthread, .createKthread, .wakeup 1, .wakeup 2] (by decide +kernel)
  obtain ⟨s, hr, h⟩ := hrun
  rw [Option.any_eq_true] at h
  obtain ⟨s', hs, h⟩ := h
  obtain ⟨hp, hp', hc⟩ := of_decide_eq_true h
  have hne : s'.current ≠ 2 := by rw [hc]; decide
  refine ⟨s, s', hr, hs, hp, hc, ?_, ?_⟩
  · exact (no_starvation.2.1 s hr 2 .schedule s' trivial hs hp hp').2 rfl hne
  · exact no_starvation.2.2 s hr 2 [.schedule] ⟨s', hs, ⟨trivial, hp, hp', fun _ => hne⟩, trivial⟩

end Sched
end NanoOS
