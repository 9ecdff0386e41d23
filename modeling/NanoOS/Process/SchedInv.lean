/-
# Where the PCBs are

Every PCB but the idle one is at every moment in exactly one of the
scheduler's lists, and which one agrees with what `create_kthread` and `stat`
say of it. `Inv s q` states this for the heap of links: `q h` is what the
list of head `h` holds. On `q` the operations of `NanoOS.Process.Sched` are
moves of one PCB to the end of a list (`movedQ`), an empty list that comes up,
or nothing at all; a lemma for each says so, and the rest of the development
uses these and never unfolds the pointers again.

Key definitions: `Live`, `Inv`, `movedQ`, `Op`.
Key theorems: `Inv.move`, `Inv.V_cases`, `Inv.schedule`, `inv_initProc`,
`Op.step_inv`, `sched_lists`.
-/
import NanoOS.Lib.Trans
import NanoOS.Process.Sched

namespace NanoOS
namespace Sched

open Ringlist Trans

/-- The heads of the scheduler's lists: the wait list of a semaphore counts
once `create_sem` has set it up. -/
def Live (s : Sched) : Node → Prop
  | .ready | .block | .free => True
  | .sem σ => s.inited σ = true
  | .pcb _ => False

/-- `q` is what the lists hold, and the PCBs are where they should be. The
`msg_sem` of the idle PCB is never set up (`idleSem`). -/
structure Inv (s : Sched) (q : Node → List ℕ) : Prop where
  rings : Rings s.links s.Live fun h => (q h).map Node.pcb
  dead : ∀ h, ¬ s.Live h → q h = []
  free : ∀ i, i ∈ q .free ↔ (1 ≤ i ∧ i < pcbPoolSize) ∧ s.created i = false
  ready : ∀ i, i ∈ q .ready ↔ s.created i = true ∧ s.stat i = .ready
  asleep : ∀ i, (i ∈ q .block ∨ ∃ σ, i ∈ q (.sem σ)) ↔ s.stat i = .sleeping
  bounds : ∀ i, s.created i = true → 1 ≤ i ∧ i < pcbPoolSize
  sleeper : ∀ i, s.stat i = .sleeping → s.created i = true
  msgSem : ∀ i, s.inited (.msgSem i) = true → s.created i = true
  idleSem : s.links (.sem (.msgSem 0)) = ⟨none, none⟩
  current : s.current = 0 ∨ s.created s.current = true

/-- What the lists hold after `i` has gone to the end of the list of `h`. -/
def movedQ (q : Node → List ℕ) (i : ℕ) (h : Node) : Node → List ℕ :=
  fun a => if a = h then (q a).erase i ++ [i] else (q a).erase i

theorem pcb_injective : Function.Injective Node.pcb := fun _ _ h => Node.pcb.inj h

variable {s s' : Sched} {q : Node → List ℕ} {i j : ℕ} {h h' : Node} {σ : SemId}

/-! ### Reading the invariant -/

theorem Inv.live_of_mem (hI : Inv s q) (hi : i ∈ q h) : s.Live h := by
  by_contra hd
  rw [hI.dead h hd] at hi
  simp at hi

theorem Inv.nodup (hI : Inv s q) (h : Node) : (q h).Nodup := by
  by_cases hl : s.Live h
  · exact (List.nodup_cons.mp (hI.rings.ring h hl).nodup).2.of_map _
  · rw [hI.dead h hl]; exact List.nodup_nil

theorem Inv.unique (hI : Inv s q) (hi : i ∈ q h) (hi' : i ∈ q h') : h = h' := by
  by_contra hne
  refine hI.rings.disj h h' (hI.live_of_mem hi) (hI.live_of_mem hi') hne (a := Node.pcb i) ?_ ?_
  · exact List.mem_cons_of_mem _ (List.mem_map_of_mem hi)
  · exact List.mem_cons_of_mem _ (List.mem_map_of_mem hi')

theorem Inv.exists_mem (hI : Inv s q) (h1 : 1 ≤ i) (h2 : i < pcbPoolSize) : ∃ h, i ∈ q h := by
  by_cases hc : s.created i = true
  · cases hs : s.stat i with
    | ready => exact ⟨.ready, (hI.ready i).mpr ⟨hc, hs⟩⟩
    | sleeping =>
      rcases (hI.asleep i).mpr hs with hb | ⟨σ, hb⟩
      · exact ⟨.block, hb⟩
      · exact ⟨.sem σ, hb⟩
  · exact ⟨.free, (hI.free i).mpr ⟨⟨h1, h2⟩, by simpa using hc⟩⟩

theorem Inv.exists_mem_of_created (hI : Inv s q) (hc : s.created i = true) : ∃ h, i ∈ q h :=
  hI.exists_mem (hI.bounds i hc).1 (hI.bounds i hc).2

theorem Inv.bounds_of_mem (hI : Inv s q) (hi : i ∈ q h) : 1 ≤ i ∧ i < pcbPoolSize := by
  cases h with
  | ready => exact hI.bounds i ((hI.ready i).mp hi).1
  | free => exact ((hI.free i).mp hi).1
  | block => exact hI.bounds i (hI.sleeper i ((hI.asleep i).mp (Or.inl hi)))
  | sem σ => exact hI.bounds i (hI.sleeper i ((hI.asleep i).mp (Or.inr ⟨σ, hi⟩)))
  | pcb k => exact (hI.live_of_mem hi).elim

theorem Inv.not_thread_of_free (hI : Inv s q) (hi : i ∈ q .free) : ¬ (i = 0 ∨ s.created i = true) := by
  obtain ⟨⟨h1, -⟩, hc⟩ := (hI.free i).mp hi
  rintro (h0 | h0)
  · omega
  · rw [hc] at h0; cases h0

theorem Inv.next_head (hI : Inv s q) (hl : s.Live h) :
    (s.links h).next = some (((q h).map Node.pcb).headD h) :=
  (hI.rings.ring h hl).next_head

theorem Inv.listEmpty_iff (hI : Inv s q) (hl : s.Live h) : listEmpty h s.links = true ↔ q h = [] := by
  rw [Ring.listEmpty_iff (hI.rings.ring h hl), List.map_eq_nil_iff]

theorem mem_movedQ (hI : Inv s q) (i j : ℕ) (h a : Node) :
    j ∈ movedQ q i h a ↔ (j ≠ i ∧ j ∈ q a) ∨ (j = i ∧ a = h) := by
  unfold movedQ
  have he := (hI.nodup a).mem_erase_iff (a := j) (b := i)
  by_cases ha : a = h
  · rw [if_pos ha, List.mem_append, he, List.mem_singleton]
    simp [ha]
  · rw [if_neg ha, he]
    simp [ha]

/-! ### Moving a PCB -/

/-- `list_del` and `list_add_before` on the links: the family of the moved
lists. -/
theorem Inv.relink (hI : Inv s q) (hi : i ∈ q h') (hl : s.Live h) :
    Rings (listAddBefore h (.pcb i) (listDel (.pcb i) s.links)) s.Live
      fun a => (movedQ q i h a).map Node.pcb := by
  have hm := Rings.move hI.rings (hI.live_of_mem hi) (List.mem_map_of_mem hi) hl
  refine hm.congr_seq fun a _ => ?_
  unfold moved movedQ
  by_cases ha : a = h
  · simp only [if_pos ha, List.map_append, List.map_cons, List.map_nil]
    rw [List.map_erase pcb_injective]
  · simp only [if_neg ha]
    rw [List.map_erase pcb_injective]

theorem Inv.idleSem_out (hI : Inv s q) :
    ¬ InRings s.Live (fun h => (q h).map Node.pcb) (.sem (.msgSem 0)) := by
  rintro ⟨a, ha, hm⟩
  rcases List.mem_cons.mp hm with rfl | hm
  · have := (hI.bounds 0 (hI.msgSem 0 ha)).1
    omega
  · simp at hm

theorem Inv.relink_idleSem (hI : Inv s q) (hi : i ∈ q h') (hl : s.Live h) :
    listAddBefore h (.pcb i) (listDel (.pcb i) s.links) (.sem (.msgSem 0)) =
      s.links (.sem (.msgSem 0)) :=
  Rings.move_frame hI.rings (hI.live_of_mem hi) (List.mem_map_of_mem hi) hl (by simp) hI.idleSem_out

theorem Inv.makeReady (hI : Inv s q) (hc : s.created i = true) :
    Inv (makeReady i s) (movedQ q i .ready) := by
  obtain ⟨h0, hi⟩ := hI.exists_mem_of_created hc
  have hs : ∀ j, (Sched.makeReady i s).stat j = if j = i then .ready else s.stat j := fun j => by
    simp [Sched.makeReady, Function.update_apply]
  refine
    { rings := hI.relink hi trivial
      dead := fun a ha => ?_
      free := fun j => ?_
      ready := fun j => ?_
      asleep := fun j => ?_
      bounds := hI.bounds
      sleeper := fun j hj => ?_
      msgSem := hI.msgSem
      idleSem := (hI.relink_idleSem (h := .ready) hi trivial).trans hI.idleSem
      current := hI.current }
  · have hd := hI.dead a ha
    have hne : a ≠ .ready := fun e => ha (e ▸ trivial)
    simp [movedQ, hne, hd]
  · rw [mem_movedQ hI, hI.free j]
    by_cases hji : j = i
    · subst hji; simp [Sched.makeReady, hc]
    · simp [Sched.makeReady, hji]
  · rw [mem_movedQ hI, hI.ready j, hs]
    by_cases hji : j = i
    · subst hji; simp [Sched.makeReady, hc]
    · simp [Sched.makeReady, hji]
  · rw [mem_movedQ hI, hs]
    simp only [mem_movedQ hI]
    by_cases hji : j = i
    · subst hji; simp
    · simpa [hji] using hI.asleep j
  · rw [hs] at hj
    by_cases hji : j = i
    · subst hji; exact hc
    · rw [if_neg hji] at hj; exact hI.sleeper j hj

/-- A PCB goes to `block` or to a semaphore, and its `stat` says so. The
scheduler state may be any that agrees with the move. -/
theorem Inv.putToSleep (hI : Inv s q) (hi : i ∈ q h') (hb : 1 ≤ i ∧ i < pcbPoolSize)
    (hl : s.Live h) (hh : h = .block ∨ ∃ σ, h = .sem σ)
    (hlinks : s'.links = listAddBefore h (.pcb i) (listDel (.pcb i) s.links))
    (hstat : s'.stat = Function.update s.stat i .sleeping)
    (hcre : s'.created = Function.update s.created i true) (hini : s'.inited = s.inited)
    (hcur : s'.current = s.current) : Inv s' (movedQ q i h) := by
  have hlive : s'.Live = s.Live := by
    funext a
    cases a <;> simp [Live, hini]
  have hs : ∀ j, s'.stat j = if j = i then .sleeping else s.stat j := fun j => by
    simp [hstat, Function.update_apply]
  have hc : ∀ j, s'.created j = if j = i then true else s.created j := fun j => by
    simp [hcre, Function.update_apply]
  have hr : h ≠ .ready ∧ h ≠ .free := by rcases hh with rfl | ⟨σ, rfl⟩ <;> simp
  refine
    { rings := by rw [hlive, hlinks]; exact hI.relink hi hl
      dead := fun a ha => ?_
      free := fun j => ?_
      ready := fun j => ?_
      asleep := fun j => ?_
      bounds := fun j hj => ?_
      sleeper := fun j hj => ?_
      msgSem := fun j hj => ?_
      idleSem := by rw [hlinks]; exact (hI.relink_idleSem hi hl).trans hI.idleSem
      current := ?_ }
  · rw [hlive] at ha
    have hd := hI.dead a ha
    have hne : a ≠ h := fun e => ha (e ▸ hl)
    simp [movedQ, hne, hd]
  · rw [mem_movedQ hI, hI.free j, hc]
    by_cases hji : j = i
    · subst hji; simp [hr.2.symm]
    · simp [hji]
  · rw [mem_movedQ hI, hI.ready j, hs, hc]
    by_cases hji : j = i
    · subst hji; simp [hr.1.symm]
    · simp [hji]
  · simp only [mem_movedQ hI]
    rw [hs]
    by_cases hji : j = i
    · subst hji
      rcases hh with rfl | ⟨σ, rfl⟩ <;> simp
    · simpa [hji] using hI.asleep j
  · rw [hc] at hj
    by_cases hji : j = i
    · exact hji ▸ hb
    · rw [if_neg hji] at hj; exact hI.bounds j hj
  · rw [hc]
    by_cases hji : j = i
    · rw [if_pos hji]
    · rw [if_neg hji]; rw [hs, if_neg hji] at hj; exact hI.sleeper j hj
  · rw [hc]
    by_cases hji : j = i
    · rw [if_pos hji]
    · rw [if_neg hji]; rw [hini] at hj; exact hI.msgSem j hj
  · rw [hcur, hc]
    rcases hI.current with h0 | h0
    · exact Or.inl h0
    · right; rw [h0]; simp

theorem Inv.sleepOn (hI : Inv s q) (hc : s.current ≠ 0) (hl : s.Live h)
    (hh : h = .block ∨ ∃ σ, h = .sem σ) : Inv (sleepOn h s) (movedQ q s.current h) := by
  have hcr := hI.current.resolve_left hc
  obtain ⟨h0, hi⟩ := hI.exists_mem_of_created hcr
  refine hI.putToSleep hi (hI.bounds _ hcr) hl hh rfl rfl ?_ rfl rfl
  funext j
  by_cases hj : j = s.current
  · subst hj; simp [Sched.sleepOn, hcr]
  · simp [Sched.sleepOn, hj]

theorem Inv.set_token (hI : Inv s q) (t : SemId → ℤ) : Inv { s with token := t } q :=
  { rings := hI.rings, dead := hI.dead, free := hI.free, ready := hI.ready, asleep := hI.asleep,
    bounds := hI.bounds, sleeper := hI.sleeper, msgSem := hI.msgSem, idleSem := hI.idleSem,
    current := hI.current }

/-! ### The operations -/

theorem Inv.createSem (hI : Inv s q) {v : ℤ} (hq : q (.sem σ) = [])
    (hm : ∀ i, σ = .msgSem i → s.created i = true) : Inv (createSem σ v s) q := by
  have hlive : ∀ a, (Sched.createSem σ v s).Live a ↔ s.Live a ∨ a = .sem σ := by
    intro a
    cases a with
    | sem τ =>
      simp only [Live, Sched.createSem, Function.update_apply, Node.sem.injEq]
      by_cases hτ : τ = σ <;> simp [hτ]
    | _ => simp [Live]
  have hout : s.inited σ = false → ¬ InRings s.Live (fun h => (q h).map Node.pcb) (.sem σ) := by
    rintro h0 ⟨a, ha, hm⟩
    rcases List.mem_cons.mp hm with rfl | hm
    · simp [Live, h0] at ha
    · simp at hm
  refine
    { rings := ?_
      dead := fun a ha => hI.dead a fun hl => ha ((hlive a).mpr (Or.inl hl))
      free := hI.free
      ready := hI.ready
      asleep := hI.asleep
      bounds := hI.bounds
      sleeper := hI.sleeper
      msgSem := fun i hi => ?_
      idleSem := ?_
      current := hI.current }
  · by_cases h0 : s.inited σ = true
    · -- set up already, and empty: `list_init` writes what is there
      have hr := hI.rings.ring (.sem σ) h0
      have hsame : listInit (.sem σ) s.links = s.links := by
        funext a
        by_cases ha : a = .sem σ
        · subst ha
          rw [listInit_self]
          refine Links.ext ?_ ?_
          · rw [hr.prev_head]; simp [hq]
          · rw [hr.next_head]; simp [hq]
        · exact listInit_of_ne ha _
      have hl : (Sched.createSem σ v s).Live = s.Live := by
        funext a
        refine propext ((hlive a).trans ⟨fun ha => ?_, Or.inl⟩)
        rcases ha with ha | rfl
        · exact ha
        · exact h0
      rw [hl]
      show Rings (listInit (.sem σ) s.links) _ _
      rw [hsame]
      exact hI.rings
    · have h1 := Rings.listInit hI.rings (hout (by simpa using h0))
      have hl : (Sched.createSem σ v s).Live = fun a => s.Live a ∨ a = .sem σ :=
        funext fun a => propext (hlive a)
      rw [hl]
      refine h1.congr_seq fun a _ => ?_
      by_cases ha : a = .sem σ
      · subst ha; rw [Function.update_self, hq]; rfl
      · rw [Function.update_of_ne ha]
  · by_cases he : SemId.msgSem i = σ
    · exact hm i he.symm
    · simp only [Sched.createSem, Function.update_of_ne he] at hi
      exact hI.msgSem i hi
  · have hne : Node.sem (.msgSem 0) ≠ .sem σ := fun e => by
      have := (hI.bounds 0 (hm 0 (Node.sem.inj e).symm)).1
      omega
    exact (listInit_of_ne hne _).trans hI.idleSem

theorem Inv.createKthread (hI : Inv s q) (hs : createKthread s = some (i, s')) :
    Inv s' (movedQ q i .block) ∧ i ∈ q .free ∧ s'.current = s.current := by
  have hn := hI.next_head (h := .free) trivial
  unfold Sched.createKthread at hs
  rw [hn] at hs
  cases hq : q .free with
  | nil => rw [hq] at hs; simp at hs
  | cons k r =>
    rw [hq] at hs
    simp only [List.map_cons, List.headD_cons, Option.some.injEq, Prod.mk.injEq] at hs
    obtain ⟨rfl, rfl⟩ := hs
    have hk : k ∈ q .free := by rw [hq]; simp
    have hb := (hI.free k).mp hk
    have h1 : Inv { s with
        links := listAddBefore .block (.pcb k) (listDel (.pcb k) s.links)
        stat := Function.update s.stat k .sleeping
        created := Function.update s.created k true } (movedQ q k .block) :=
      hI.putToSleep hk hb.1 trivial (Or.inl rfl) rfl rfl rfl rfl rfl
    refine ⟨h1.createSem ?_ ?_, by simp, rfl⟩
    · -- the PCB was free, so its semaphore has never been set up
      have hd : ¬ s.Live (.sem (.msgSem k)) := fun hl => by
        have := hI.msgSem k hl
        rw [hb.2] at this
        cases this
      simp [movedQ, hI.dead _ hd]
    · intro j hj
      cases hj
      simp

theorem Inv.createKthread_first (hI : Inv s q) {r : List ℕ} (hq : q .free = i :: r) :
    ∃ s', Sched.createKthread s = some (i, s') := by
  unfold Sched.createKthread
  rw [hI.next_head (h := .free) trivial, hq]
  exact ⟨_, rfl⟩

theorem createKthread_fields (hs : createKthread s = some (i, s')) :
    s'.created = Function.update s.created i true ∧
    s'.inited = Function.update s.inited (.msgSem i) true ∧
    s'.token = Function.update s.token (.msgSem i) 0 := by
  unfold createKthread at hs
  split at hs
  · cases hs
    exact ⟨rfl, rfl, rfl⟩
  · cases hs

/-- `wakeup` of a created PCB: it sleeps and goes to `ready`, or the
assertion fails. -/
theorem Inv.wakeup (hI : Inv s q) (hc : s.created i = true) (hs : wakeup (some (.pcb i)) s = some s') :
    s.stat i = .sleeping ∧ s' = Sched.makeReady i s ∧ Inv s' (movedQ q i .ready) := by
  have hp : inPool (some (.pcb i)) = true := by
    have := (hI.bounds i hc).2
    simp only [inPool, decide_eq_true_eq]
    omega
  unfold Sched.wakeup at hs
  rw [if_pos hp] at hs
  by_cases hst : s.stat i = .sleeping
  · simp only [hst, if_true, Option.some.injEq] at hs
    subst hs
    exact ⟨hst, rfl, hI.makeReady hc⟩
  · simp [hst] at hs

/-- `V` on a semaphore that is set up: it raises the token of an empty wait
list, or takes its first thread to `ready`. -/
theorem Inv.V_cases (hI : Inv s q) (hσ : s.inited σ = true) (hs : V σ s = some s') :
    (q (.sem σ) = [] ∧ s' = { s with token := Function.update s.token σ (s.token σ + 1) } ∧ Inv s' q) ∨
    ∃ i r, q (.sem σ) = i :: r ∧ s.created i = true ∧ s.stat i = .sleeping ∧
      s' = Sched.makeReady i s ∧ Inv s' (movedQ q i .ready) := by
  have hl : s.Live (.sem σ) := hσ
  unfold Sched.V at hs
  cases hq : q (.sem σ) with
  | nil =>
    rw [if_pos ((hI.listEmpty_iff hl).mpr hq), Option.some.injEq] at hs
    subst hs
    exact Or.inl ⟨rfl, rfl, hI.set_token _⟩
  | cons i r =>
    have hne : listEmpty (.sem σ) s.links ≠ true := fun he => by
      rw [hI.listEmpty_iff hl, hq] at he
      cases he
    rw [if_neg hne, hI.next_head hl, hq] at hs
    have hst : s.stat i = .sleeping := (hI.asleep i).mp (Or.inr ⟨σ, by rw [hq]; simp⟩)
    have hc := hI.sleeper i hst
    obtain ⟨-, rfl, h2⟩ := hI.wakeup hc hs
    exact Or.inr ⟨i, r, rfl, hc, hst, rfl, h2⟩

/-- The head of the idle PCB's wait list is null, so that list is not empty
and its first element not in the pool: `V` does nothing. -/
theorem Inv.V_idle (hI : Inv s q) : V (.msgSem 0) s = some s := by
  simp [V, listEmpty, hI.idleSem, Sched.wakeup, inPool]

/-- `P` on a semaphore that is set up, by a thread other than the idle one
unless there is a token: it takes a token, or puts the thread at the end of
the wait list. -/
theorem Inv.P_cases (hI : Inv s q) (hσ : s.inited σ = true) (h0 : s.current = 0 → 0 < s.token σ) :
    (0 < s.token σ ∧ P σ s = { s with token := Function.update s.token σ (s.token σ - 1) } ∧
      Inv (P σ s) q) ∨
    (s.token σ ≤ 0 ∧ s.current ≠ 0 ∧ P σ s = sleepSem σ s ∧
      Inv (P σ s) (movedQ q s.current (.sem σ))) := by
  unfold Sched.P
  by_cases ht : 0 < s.token σ
  · rw [if_pos ht]
    exact Or.inl ⟨ht, rfl, hI.set_token _⟩
  · have hc : s.current ≠ 0 := fun e => ht (h0 e)
    rw [if_neg ht]
    exact Or.inr ⟨by omega, hc, rfl, hI.sleepOn hc hσ (Or.inr ⟨σ, rfl⟩)⟩

theorem Inv.set_current (hI : Inv s q) (hc : i = 0 ∨ s.created i = true) :
    Inv { s with current := i } q :=
  { rings := hI.rings, dead := hI.dead, free := hI.free, ready := hI.ready, asleep := hI.asleep,
    bounds := hI.bounds, sleeper := hI.sleeper, msgSem := hI.msgSem, idleSem := hI.idleSem,
    current := hc }

/-- `schedule` always finds a thread: the idle one when `ready` is empty,
else a member of `ready`. -/
theorem Inv.schedule (hI : Inv s q) : ∃ c, schedule s = some { s with current := c } ∧
    (c = 0 ∧ q .ready = [] ∨ c ∈ q .ready) := by
  have hl : s.Live .ready := trivial
  unfold Sched.schedule
  cases hq : q .ready with
  | nil =>
    rw [if_pos ((hI.listEmpty_iff hl).mpr hq)]
    exact ⟨0, rfl, Or.inl ⟨rfl, rfl⟩⟩
  | cons i r =>
    have hne : listEmpty .ready s.links ≠ true := fun he => by
      rw [hI.listEmpty_iff hl, hq] at he
      cases he
    have hfirst : setCurrent (s.links .ready).next s = some { s with current := i } := by
      rw [hI.next_head hl, hq]; rfl
    rw [if_neg hne, hfirst]
    by_cases h0 : s.current = 0
    · rw [if_pos h0]
      exact ⟨i, rfl, Or.inr List.mem_cons_self⟩
    rw [if_neg h0]
    by_cases hst : s.stat s.current = .sleeping
    · rw [if_pos hst]
      exact ⟨i, rfl, Or.inr List.mem_cons_self⟩
    rw [if_neg hst]
    -- the running thread is itself in `ready`: its successor there is next
    have hrd : s.stat s.current = .ready := by
      cases hs : s.stat s.current with
      | ready => rfl
      | sleeping => exact absurd hs hst
    have hmem : s.current ∈ q .ready := (hI.ready _).mpr ⟨hI.current.resolve_left h0, hrd⟩
    obtain ⟨a, b, hab⟩ := List.append_of_mem hmem
    have hring := hI.rings.ring .ready hl
    rw [hab, List.map_append, List.map_cons] at hring
    rw [hring.around.2]
    cases b with
    | nil =>
      simp only [List.map_nil, List.headD_nil, if_true]
      exact ⟨i, rfl, Or.inr List.mem_cons_self⟩
    | cons k b =>
      simp only [List.map_cons, List.headD_cons, Option.some.injEq, reduceCtorEq, if_false]
      refine ⟨k, rfl, Or.inr ?_⟩
      rw [← hq, hab]
      simp

/-! ### `init_proc` -/

theorem rings_addBefore {live : Node → Prop} (hl : live h) :
    ∀ (l : List ℕ) (m : Heap Node) (seq : Node → List Node), Rings m live seq → l.Nodup →
      (∀ i ∈ l, ¬ InRings live seq (.pcb i)) →
      Rings (l.foldl (fun m i => listAddBefore h (.pcb i) m) m) live
        (Function.update seq h (seq h ++ l.map Node.pcb))
  | [], m, seq, hr, _, _ => by
    simpa using hr
  | i :: l, m, seq, hr, hnd, hout => by
    have h1 := Rings.listAddBefore hr hl (hout i List.mem_cons_self)
    rw [List.nodup_cons] at hnd
    have hout' : ∀ j ∈ l, ¬ InRings live (Function.update seq h (seq h ++ [.pcb i])) (.pcb j) := by
      rintro j hj ⟨a, ha, hm⟩
      by_cases he : a = h
      · subst he
        rw [Function.update_self, List.mem_cons, List.mem_append, List.mem_singleton] at hm
        have hold : Node.pcb j ∈ a :: seq a → False := fun h0 =>
          hout j (List.mem_cons_of_mem _ hj) ⟨a, ha, h0⟩
        rcases hm with hm | hm | hm
        · exact hold (hm ▸ List.mem_cons_self)
        · exact hold (List.mem_cons_of_mem _ hm)
        · exact hnd.1 (Node.pcb.inj hm ▸ hj)
      · rw [Function.update_of_ne he] at hm
        exact hout j (List.mem_cons_of_mem _ hj) ⟨a, ha, hm⟩
    have ih := rings_addBefore hl l _ _ h1 hnd.2 hout'
    simpa using ih

theorem addBefore_frame {live : Node → Prop} (hl : live h) {a : Node} (hp : ∀ i, a ≠ .pcb i) :
    ∀ (l : List ℕ) (m : Heap Node) (seq : Node → List Node), Rings m live seq → l.Nodup →
      (∀ i ∈ l, ¬ InRings live seq (.pcb i)) → ¬ live a →
      (∀ b, live b → a ∉ seq b) → l.foldl (fun m i => listAddBefore h (.pcb i) m) m a = m a := by
  intro l
  induction l using List.reverseRecOn with
  | nil => intro m seq _ _ _ _ _; rfl
  | append_singleton l i ih =>
    intro m seq hr hnd hout hd hs
    have hnd' := (List.nodup_append.mp hnd).1
    have hout' : ∀ j ∈ l, ¬ InRings live seq (.pcb j) := fun j hj => hout j (List.mem_append_left _ hj)
    have h1 := rings_addBefore hl l m seq hr hnd' hout'
    rw [List.foldl_append, List.foldl_cons, List.foldl_nil, Rings.listAddBefore_frame h1 hl (hp i),
      ih m seq hr hnd' hout' hd hs]
    rintro ⟨b, hb, hm⟩
    rcases List.mem_cons.mp hm with rfl | hm
    · exact hd hb
    · by_cases he : b = h
      · subst he
        rw [Function.update_self, List.mem_append, List.mem_map] at hm
        rcases hm with hm | ⟨j, -, hm⟩
        · exact hs b hb hm
        · exact hp j hm.symm
      · rw [Function.update_of_ne he] at hm
        exact hs b hb hm

/-- What the lists hold after `init_proc`. -/
def initQ : Node → List ℕ := fun h => if h = .free then List.range' 1 (pcbPoolSize - 1) else []

theorem inv_initProc : Inv (initProc zero) initQ := by
  have h0 : Rings zero.links (fun _ => False) (fun _ => []) := ⟨fun _ h => h.elim, fun _ _ h => h.elim⟩
  have h1 := Rings.listInit (x := .ready) h0 (by rintro ⟨a, ha, -⟩; exact ha)
  have h2 := Rings.listInit (x := .block) h1 (by
    rintro ⟨a, ha, hm⟩
    rcases ha with ha | rfl
    · exact ha
    · simp at hm)
  have h3 := Rings.listInit (x := .free) h2 (by
    rintro ⟨a, ha, hm⟩
    rcases ha with (ha | rfl) | rfl
    · exact ha
    · simp at hm
    · simp at hm)
  have hlive : (fun a => ((False ∨ a = Node.ready) ∨ a = .block) ∨ a = .free) = (initProc zero).Live := by
    funext a
    cases a <;> simp [Live, initProc, zero]
  rw [hlive] at h3
  have hfree : (initProc zero).Live .free := trivial
  have hseq : ∀ a b : Node, b ∉ Function.update (Function.update (Function.update
      (fun _ => ([] : List Node)) .ready []) .block []) .free [] a := by
    intro a b hm
    rw [Function.update_apply, Function.update_apply, Function.update_apply] at hm
    split_ifs at hm <;> simp at hm
  have hout : ∀ i ∈ List.range' 1 (pcbPoolSize - 1), ¬ InRings (initProc zero).Live
      (Function.update (Function.update (Function.update (fun _ => []) .ready []) .block []) .free [])
      (.pcb i) := by
    rintro i - ⟨a, ha, hm⟩
    rcases List.mem_cons.mp hm with rfl | hm
    · exact ha
    · exact hseq _ _ hm
  have hlinks : (initProc zero).links = (List.range' 1 (pcbPoolSize - 1)).foldl
      (fun m i => listAddBefore .free (.pcb i) m)
      (listInit .free (listInit .block (listInit .ready zero.links))) := by simp only [initProc]
  have h4 := rings_addBefore hfree (List.range' 1 (pcbPoolSize - 1)) _ _ h3 (List.nodup_range' 1) hout
  have h5 : Rings (initProc zero).links (initProc zero).Live fun h => (initQ h).map Node.pcb := by
    rw [hlinks]
    refine h4.congr_seq fun a _ => ?_
    by_cases ha : a = .free
    · subst ha
      rw [Function.update_self, Function.update_self, List.nil_append, initQ, if_pos rfl]
    · rw [Function.update_of_ne ha, show initQ a = [] from if_neg ha, Function.update_of_ne ha,
        Function.update_apply, Function.update_apply]
      simp
  have hmem : ∀ i, i ∈ List.range' 1 (pcbPoolSize - 1) ↔ 1 ≤ i ∧ i < pcbPoolSize := by
    intro i
    rw [List.mem_range'_1]
    simp only [pcbPoolSize]
  refine
    { rings := h5
      dead := fun a ha => ?_
      free := fun i => ?_
      ready := fun i => ?_
      asleep := fun i => ?_
      bounds := fun i hi => ?_
      sleeper := fun i hi => ?_
      msgSem := fun i hi => ?_
      idleSem := ?_
      current := Or.inl rfl }
  · have hne : a ≠ .free := fun e => ha (e ▸ trivial)
    simp [initQ, hne]
  · rw [show initQ .free = List.range' 1 (pcbPoolSize - 1) from rfl, hmem]
    simp [initProc, zero]
  · simp [initQ, initProc, zero]
  · simp [initQ, initProc, zero]
  · simp [initProc, zero] at hi
  · simp [initProc, zero] at hi
  · simp [initProc, zero] at hi
  · rw [hlinks, addBefore_frame hfree (a := .sem (.msgSem 0)) (by simp) _ _ _ h3 (List.nodup_range' 1)
      hout (by simp [Live, initProc, zero]) (fun b _ => hseq b _)]
    simp [listInit, zero]

/-- The links after the loop of `init_proc` has put the PCBs up to `n` into
`free`. -/
def initLinks (n : ℕ) : Heap Node
  | .ready => ⟨some .ready, some .ready⟩
  | .block => ⟨some .block, some .block⟩
  | .free => ⟨some (if n = 0 then .free else .pcb n), some (if n = 0 then .free else .pcb 1)⟩
  | .pcb i =>
    if 1 ≤ i ∧ i ≤ n then
      ⟨some (if i = 1 then .free else .pcb (i - 1)), some (if i = n then .free else .pcb (i + 1))⟩
    else ⟨none, none⟩
  | .sem _ => ⟨none, none⟩

theorem addBefore_initLinks (n : ℕ) :
    listAddBefore .free (.pcb (n + 1)) (initLinks n) = initLinks (n + 1) := by
  funext a
  unfold listAddBefore listAdd
  by_cases hn : n = 0
  · subst hn
    cases a with
    | pcb i =>
      by_cases hi : i = 1
      · subst hi; simp [initLinks]
      · have : ¬ (1 ≤ i ∧ i ≤ 1) := by omega
        have h' : ¬ (1 ≤ i ∧ i = 0) := by omega
        simp [initLinks, hi, this, h']
    | _ => simp [initLinks]
  · cases a with
    | pcb i =>
      simp only [initLinks, hn, if_false, Function.update_apply]
      by_cases h1 : i = n + 1
      · subst h1
        simp [hn]
      · by_cases h2 : i = n
        · subst h2
          simp [hn, Nat.one_le_iff_ne_zero]
        · have : (i ≤ n + 1) ↔ i ≤ n := by omega
          simp [h1, h2, this]
    | _ => simp [initLinks, hn]

theorem initProc_zero : initProc zero = { zero with links := initLinks (pcbPoolSize - 1) } := by
  have h : ∀ n, (List.range' 1 n).foldl (fun m i => listAddBefore .free (.pcb i) m)
      (listInit .free (listInit .block (listInit .ready zero.links))) = initLinks n := by
    intro n
    induction n with
    | zero =>
      funext a
      cases a <;> simp [listInit, initLinks, zero]
      omega
    | succ n ih =>
      rw [List.range'_concat, List.foldl_append, ih]
      simpa [Nat.add_comm] using addBefore_initLinks n
  simp only [initProc, h]

/-! ### Every order of operations -/

/-- The operations on the scheduler's data. `sleep` and a `P` that blocks end
in a trap into `schedule`, which comes as an operation of its own: others may
come in between. -/
inductive Op
  | createKthread
  | wakeup (i : ℕ)
  | sleep
  | P (σ : SemId)
  | V (σ : SemId)
  | createSem (a : ℕ) (v : ℤ)
  | schedule

/-- What an operation of the current thread does. -/
def Op.step (s : Sched) : Op → Option Sched
  | .createKthread => (Sched.createKthread s).map Prod.snd
  | .wakeup i => Sched.wakeup (some (.pcb i)) s
  | .sleep => some (Sched.sleep s)
  | .P σ => some (Sched.P σ s)
  | .V σ => Sched.V σ s
  | .createSem a v => some (Sched.createSem (.user a) v s)
  | .schedule => Sched.schedule s

/-- What callers keep to: they wake created threads, use semaphores that are
set up, set none up twice, and the idle thread does not block. -/
def Op.Ok (s : Sched) : Op → Prop
  | .wakeup i => s.created i = true
  | .sleep => s.current ≠ 0
  | .P σ => s.inited σ = true ∧ (s.current = 0 → 0 < s.token σ)
  | .V σ => s.inited σ = true
  | .createSem a _ => s.inited (.user a) = false
  | .createKthread | .schedule => True

instance : ∀ (s : Sched) (o : Op), Decidable (o.Ok s)
  | _, .createKthread => inferInstanceAs (Decidable True)
  | s, .wakeup i => inferInstanceAs (Decidable (s.created i = true))
  | s, .sleep => inferInstanceAs (Decidable (s.current ≠ 0))
  | s, .P σ => inferInstanceAs (Decidable (s.inited σ = true ∧ (s.current = 0 → 0 < s.token σ)))
  | s, .V σ => inferInstanceAs (Decidable (s.inited σ = true))
  | s, .createSem a _ => inferInstanceAs (Decidable (s.inited (.user a) = false))
  | _, .schedule => inferInstanceAs (Decidable True)

/-- Every operation keeps the PCBs where they should be. -/
theorem Op.step_inv (hI : Inv s q) {o : Op} (hok : o.Ok s) (hs : o.step s = some s') :
    ∃ q', Inv s' q' := by
  cases o with
  | createKthread =>
    simp only [Op.step, Option.map_eq_some_iff] at hs
    obtain ⟨⟨i, t⟩, ht, rfl⟩ := hs
    exact ⟨_, (hI.createKthread ht).1⟩
  | wakeup i => exact ⟨_, (hI.wakeup hok hs).2.2⟩
  | sleep =>
    simp only [Op.step, Option.some.injEq] at hs
    subst hs
    exact ⟨_, hI.sleepOn (h := .block) hok trivial (Or.inl rfl)⟩
  | P σ =>
    simp only [Op.step, Option.some.injEq] at hs
    subst hs
    rcases hI.P_cases hok.1 hok.2 with ⟨-, -, h⟩ | ⟨-, -, -, h⟩
    · exact ⟨_, h⟩
    · exact ⟨_, h⟩
  | V σ =>
    rcases hI.V_cases hok hs with ⟨-, -, h⟩ | ⟨i, r, -, -, -, -, h⟩
    · exact ⟨_, h⟩
    · exact ⟨_, h⟩
  | createSem a v =>
    simp only [Op.step, Option.some.injEq] at hs
    subst hs
    have hd : ¬ s.Live (.sem (.user a)) := fun hl => by
      simp only [Live] at hl
      simp only [Op.Ok] at hok
      rw [hok] at hl
      cases hl
    exact ⟨q, hI.createSem (hI.dead _ hd) (by simp)⟩
  | schedule =>
    obtain ⟨c, hc, hcur⟩ := hI.schedule
    simp only [Op.step, hc, Option.some.injEq] at hs
    subst hs
    refine ⟨q, hI.set_current ?_⟩
    rcases hcur with ⟨h0, -⟩ | hm
    · exact Or.inl h0
    · exact Or.inr ((hI.ready c).mp hm).1

theorem reach_inv (h : Reach Op.step Op.Ok (initProc zero) s) : ∃ q, Inv s q := by
  refine h.invariant (I := fun s => ∃ q, Inv s q) ⟨_, inv_initProc⟩ ?_
  rintro s o s' ⟨q, hI⟩ hok hs
  exact Op.step_inv hI hok hs

/-- **Every PCB is in its list.** After `init_proc` and any operations, the
lists are well-formed rings of PCBs; every PCB of the pool but the idle one
is in exactly one of them, once; it is in `ready` iff it has been created and
its `stat` is `STAT_READY`, in `block` or in the list of a semaphore iff its
`stat` is `STAT_SLEEPING`; and `schedule` picks the idle PCB when `ready` is
empty and a member of `ready` otherwise. -/
theorem sched_lists (h : Reach Op.step Op.Ok (initProc zero) s) : ∃ q : Node → List ℕ,
    (∀ a, s.Live a → Ring s.links a ((q a).map Node.pcb)) ∧
    (∀ i, 1 ≤ i → i < pcbPoolSize → ∃! a, s.Live a ∧ i ∈ q a) ∧
    (∀ a i, s.Live a → i ∈ q a → (1 ≤ i ∧ i < pcbPoolSize) ∧ (q a).count i = 1) ∧
    (∀ i, i ∈ q .ready ↔ s.created i = true ∧ s.stat i = .ready) ∧
    (∀ i, (i ∈ q .block ∨ ∃ σ, s.inited σ = true ∧ i ∈ q (.sem σ)) ↔ s.stat i = .sleeping) ∧
    ∃ s', Sched.schedule s = some s' ∧ s'.links = s.links ∧
      (s'.current = 0 ∧ q .ready = [] ∨ s'.current ∈ q .ready) := by
  obtain ⟨q, hI⟩ := reach_inv h
  refine ⟨q, hI.rings.ring, fun i h1 h2 => ?_, fun a i _ hi => ?_, hI.ready, fun i => ?_, ?_⟩
  · obtain ⟨a, ha⟩ := hI.exists_mem h1 h2
    exact ⟨a, ⟨hI.live_of_mem ha, ha⟩, fun b hb => hI.unique hb.2 ha⟩
  · exact ⟨hI.bounds_of_mem hi, List.count_eq_one_of_mem (hI.nodup a) hi⟩
  · rw [← hI.asleep i]
    refine or_congr_right ⟨fun ⟨σ, _, hm⟩ => ⟨σ, hm⟩, fun ⟨σ, hm⟩ => ⟨σ, hI.live_of_mem hm, hm⟩⟩
  · obtain ⟨c, hc, hcur⟩ := hI.schedule
    exact ⟨_, hc, rfl, hcur⟩

/-- Threads 1 and 2 block in `P` and thread 3 in `sleep`; `V` from the idle thread wakes the
first one, and it is scheduled. -/
theorem sched_lists_first_thread : ∃ s, Reach Op.step Op.Ok (initProc zero) s ∧ s.current = 1 ∧
    ∃ q : Node → List ℕ, (∀ a, s.Live a → Ring s.links a ((q a).map Node.pcb)) ∧
      1 ∈ q .ready ∧ 2 ∉ q .ready ∧ 3 ∉ q .ready ∧ 2 ∈ q (.sem (.user 5)) ∧ 3 ∈ q .block := by
  obtain ⟨s, hr, hcur, hone, htwo, hthree, hsem, hblock⟩ : ∃ s, Reach Op.step Op.Ok (initProc zero) s ∧
      s.current = 1 ∧ (s.created 1 = true ∧ s.stat 1 = .ready) ∧ s.stat 2 = .sleeping ∧ s.stat 3 = .sleeping ∧
      (s.inited (.user 5) = true ∧ (s.links (.sem (.user 5))).next = some (.pcb 2)) ∧
      (s.links .block).next = some (.pcb 3) := by
    rw [initProc_zero]
    exact Reach.exists_of_exec [.createKthread, .createKthread, .createKthread, .wakeup 1, .wakeup 2, .wakeup 3,
      .createSem 5 0, .schedule, .P (.user 5), .schedule, .P (.user 5), .schedule, .sleep, .schedule, .V (.user 5),
      .schedule] (by decide +kernel)
  obtain ⟨q, hring, -, -, hready, -⟩ := sched_lists hr
  have hfirst : ∀ a i, s.Live a → (∀ j, a ≠ .pcb j) → (s.links a).next = some (.pcb i) → i ∈ q a := by
    intro a i hlive ha hnext
    rw [(hring a hlive).next_head] at hnext
    cases hq : q a with
    | nil =>
      rw [hq] at hnext
      exact absurd (Option.some.inj hnext) (ha i)
    | cons j l =>
      rw [hq] at hnext
      exact Node.pcb.inj (Option.some.inj hnext) ▸ List.mem_cons_self
  have hasleep : ∀ i, s.stat i = .sleeping → i ∉ q .ready := fun i hi hin =>
    absurd (hi.symm.trans ((hready i).mp hin).2) (by decide)
  exact ⟨s, hr, hcur, q, hring, (hready 1).mpr hone, hasleep 2 htwo, hasleep 3 hthree,
    hfirst _ 2 hsem.1 (fun _ => Node.noConfusion) hsem.2, hfirst _ 3 trivial (fun _ => Node.noConfusion) hblock⟩

end Sched
end NanoOS
