/-
# Address spaces

`MM_NEW_PAGE` chooses frames by `vmem_free`, so what a process gets depends on
how many processes there are when it is served. In the order of the process
manager, which serves a process before it makes the next one, every process
has 4 MB of its own. In another order two processes may get the same frames,
or a process may have its frames changed; `Ordered` says exactly when not.

Key definitions: `Isolated`, `Keeps`, `Ordered`, `PmOrder`.
Key theorems: `isolated_iff`, `address_spaces_isolated`, `pm_address_spaces`.
-/
import NanoOS.Lib.Trans
import NanoOS.Service.Mm

namespace NanoOS
namespace Mm

open Memory Trans

variable {L : Layout} {g : Log} {s s' : State} {pm mm : ℤ}

/-- No frame is mapped at user addresses of two processes. -/
def Isolated (g : Log) (s : State) : Prop := ∀ p q, p ≠ q → (g.slot p).isSome → (g.slot q).isSome →
  ∀ va va' pa pa' : Word, va.toNat < 3221225472 → va'.toNat < 3221225472 →
    walk s.mem (s.cr3 p) va = some pa → walk s.mem (s.cr3 q) va' = some pa' →
    pa.toNat / 4096 ≠ pa'.toNat / 4096

/-- The user addresses of `p` that were mapped are mapped as before. -/
def Keeps (p : ℕ) (s s' : State) : Prop := ∀ va pa : Word, va.toNat < 3221225472 →
  walk s.mem (s.cr3 p) va = some pa → walk s'.mem (s'.cr3 p) va = some pa

/-- Pages are made for a process only while `vmem_free` is what it was when
they were first made for it, and for no other process at that value. -/
def Ordered (s : State) (g : Log) : Request → Prop
  | .newProc _ => True
  | .newPage p _ _ => (g.served p = none ∨ g.served p = some s.vmemFree) ∧
      ∀ q, q ≠ p → g.served q ≠ some s.vmemFree

/-- No two processes were served at the same value of `vmem_free`. -/
def Apart (g : Log) : Prop := ∀ p q u, p ≠ q → g.served p = some u → g.served q ≠ some u

theorem Tables.isolated (h : Tables L g s) (hg : Apart g) : Isolated g s := by
  intro p q hpq hp hq va va' pa pa' hva hva' hw hw'
  obtain ⟨j, hj⟩ := Option.isSome_iff_exists.mp hp
  obtain ⟨k, hk⟩ := Option.isSome_iff_exists.mp hq
  have hbound := h.dirs.bound
  cases hu : g.served p with
  | none => exact absurd (hw.symm.trans (h.walk_fault hj hu hva)) (by simp)
  | some u =>
    cases hv : g.served q with
    | none => exact absurd (hw'.symm.trans (h.walk_fault hk hv hva')) (by simp)
    | some v =>
      have huv : u ≠ v := by
        rintro rfl
        exact hg p q u hpq hu hv
      have hle := h.epoch p u hu
      have hle' := h.epoch q v hv
      rw [h.walk_user hj hu (.inl hva), Option.some.injEq] at hw
      rw [h.walk_user hk hv (.inl hva'), Option.some.injEq] at hw'
      rw [← hw, ← hw', toNat_physAddr (by omega), toNat_physAddr (by omega)]
      omega

theorem Apart.newPage (hg : Apart g) {p : ℕ} {va size : Word} (ho : Ordered s g (.newPage p va size)) :
    Apart (g.record s (.newPage p va size)) := by
  intro q r u hqr hq hr
  rw [Log.record_newPage] at hq hr
  split at hq <;> split at hr
  · omega
  · rename_i hqp hrp
    exact ho.2 r hrp (hr.trans hq.symm)
  · rename_i hqp hrp
    exact ho.2 q hqp (hq.trans hr.symm)
  · exact hg q r u hqr hq hr

/-- **When `MM_NEW_PAGE` keeps processes apart**: it maps no frame of another
process and changes nothing that was mapped, if and only if it comes in
order. -/
theorem Tables.isolated_iff (h : Tables L g s) (hg : Apart g) {p : ℕ} {va size : Word}
    (hok : Request.Ok g (.newPage p va size)) (hs : step L pm mm s (.newPage p va size) = some s') :
    (Isolated (g.record s (.newPage p va size)) s' ∧ Keeps p s s') ↔ Ordered s g (.newPage p va size) := by
  obtain ⟨hp, hva⟩ := hok
  obtain ⟨k, hk⟩ := Option.isSome_iff_exists.mp hp
  obtain ⟨h', hfree, hcr3⟩ := h.newPage hk (.inl hva) hs
  have hbound := h.dirs.bound
  have hself : (g.record s (.newPage p va size)).served p = some s.vmemFree := by rw [Log.record_newPage, if_pos rfl]
  have hzero : (0 : Word).toNat < 3221225472 := by decide
  constructor
  · rintro ⟨hiso, hkeep⟩
    refine ⟨?_, fun q hqp hq => ?_⟩
    · cases hu : g.served p with
      | none => exact .inl rfl
      | some u =>
        -- the frame of address 0 has not changed
        have hle := h.epoch p u hu
        have hold := h.walk_user hk hu (.inl hzero)
        have hnew := h'.walk_user (k := k) hk hself (.inl hzero)
        have heq := (hkeep 0 _ hzero hold).symm.trans hnew
        have hnat := congrArg BitVec.toNat (Option.some.inj heq)
        rw [toNat_physAddr (by omega), toNat_physAddr (by omega)] at hnat
        right
        congr 1
        omega
    · have hq' : (g.record s (.newPage p va size)).served q = some s.vmemFree := by
        rw [Log.record_newPage, if_neg hqp]
        exact hq
      have hqs : (g.slot q).isSome := by
        by_contra hnone
        rw [Option.not_isSome_iff_eq_none] at hnone
        exact absurd ((h.known q hnone).symm.trans hq) (by simp)
      obtain ⟨j, hj⟩ := Option.isSome_iff_exists.mp hqs
      have hwp := h'.walk_user (k := k) hk hself (.inl hzero)
      have hwq := h'.walk_user (k := j) hj hq' (.inl hzero)
      exact hiso q p hqp hqs hp 0 0 _ _ hzero hzero hwq hwp rfl
  · intro ho
    refine ⟨h'.isolated (hg.newPage ho), fun va' pa hva' hw => ?_⟩
    rcases ho.1 with hnone | hu
    · exact absurd (hw.symm.trans (h.walk_fault hk hnone hva')) (by simp)
    · rw [h'.walk_user (k := k) hk hself (.inl hva'), ← h.walk_user hk hu (.inl hva')]
      exact hw

/-! ### Runs -/

variable (L pm mm) in
/-- The memory manager with the record of what was requested. -/
abbrev run : State × Log → Request → Option (State × Log) :=
  withHistory (step L pm mm) Log.record

theorem Tables.run {x x' : State × Log} {q : Request} (h : Tables L x.2 x.1) (hok : q.Ok x.2)
    (hs : run L pm mm x q = some x') : Tables L x'.2 x'.1 := by
  obtain ⟨hst, hg⟩ := withHistory_eq_some.mp hs
  rw [hg]
  cases q with
  | newProc p => exact (h.newProc hok hst).1
  | newPage p va size =>
    obtain ⟨k, hk⟩ := Option.isSome_iff_exists.mp hok.1
    exact (h.newPage hk (.inl hok.2) hst).1

theorem Apart.run {x x' : State × Log} {q : Request} (h : Apart x.2) (ho : Ordered x.1 x.2 q)
    (hs : run L pm mm x q = some x') : Apart x'.2 := by
  obtain ⟨-, hg⟩ := withHistory_eq_some.mp hs
  rw [hg]
  cases q with
  | newProc p => exact h
  | newPage p va size => exact h.newPage ho

/-- **Address spaces are isolated as long as requests come in order.** In every
state of such a run no two processes share a frame, and the next `MM_NEW_PAGE`
keeps it so, and keeps what it mapped for its process before, exactly if it
comes in order too. -/
theorem address_spaces_isolated (m : PhysMem)
    (h : Reach (run L pm mm) (fun x q => q.Ok x.2 ∧ Ordered x.1 x.2 q) (init L m, Log.empty) (s, g)) :
    Isolated g s ∧ ∀ p va size s', Request.Ok g (.newPage p va size) →
      step L pm mm s (.newPage p va size) = some s' →
      ((Isolated (g.record s (.newPage p va size)) s' ∧ Keeps p s s') ↔ Ordered s g (.newPage p va size)) := by
  have hinv : Tables L g s ∧ Apart g := h.invariant (I := fun x => Tables L x.2 x.1 ∧ Apart x.2)
    ⟨tables_init L m, fun p q u _ hp => absurd hp (by simp [Log.empty])⟩
    fun _ _ _ hx hok hs => ⟨hx.1.run hok.1 hs, hx.2.run hok.2 hs⟩
  exact ⟨hinv.1.isolated hinv.2, fun p va size s' hok hs => hinv.1.isolated_iff hinv.2 hok hs⟩

theorem reach_serve {ok : State × Log → Request → Prop} {x : State × Log} (hr : Reach (run L pm mm) ok x (s, g))
    (hfree : s.vmemFree < 16) {p : ℕ} (hproc : ok (s, g) (.newProc p))
    (hpage : ∀ t : State, t.vmemFree = s.vmemFree + 1 → ok (t, g.record s (.newProc p)) (.newPage p 0 0)) :
    ∃ t, Reach (run L pm mm) ok x (t, ⟨Function.update g.slot p (some s.vmemFree),
      Function.update g.served p (some (s.vmemFree + 1))⟩) ∧ t.vmemFree = s.vmemFree + 1 := by
  obtain ⟨m1, h1, -⟩ := @step_newProc L s pm mm hfree p
  exact ⟨_, (hr.stepHistory hproc h1).stepHistory (hpage _ rfl) step_newPage, rfl⟩

/-- The record of two processes that were made and served, each before the next one was made. -/
def twoServed : Log := ⟨Function.update (Function.update (fun _ => none) 1 (some 0)) 2 (some 1),
  Function.update (Function.update (fun _ => none) 1 (some 1)) 2 (some 2)⟩

theorem exists_run (L : Layout) (pm mm : ℤ) (m : PhysMem) (ok : State × Log → Request → Prop)
    (hproc : ∀ s g p, g.slot p = none → (∀ q, (g.slot q).isSome → (g.served q).isSome) → ok (s, g) (.newProc p))
    (hpage : ∀ s g p k, g.slot p = some k → k + 1 = s.vmemFree → g.served p = none →
      (∀ q, g.served q ≠ some s.vmemFree) → ok (s, g) (.newPage p 0 0)) :
    ∃ s, Reach (run L pm mm) ok (init L m, Log.empty) (s, twoServed) ∧ s.vmemFree = 2 := by
  have hr : Reach (run L pm mm) ok (init L m, Log.empty) (init L m, Log.empty) := .init
  obtain ⟨s1, hr1, (hfree1 : s1.vmemFree = 1)⟩ := reach_serve hr (Nat.succ_pos 15)
    (hproc _ _ 1 rfl fun _ hq => absurd hq (by simp [Log.empty]))
    fun t ht => hpage t _ 1 0 rfl ht.symm rfl fun _ hq => absurd hq (by simp [Log.record, Log.empty])
  obtain ⟨s2, hr2, hfree2⟩ := reach_serve hr1 (by rw [hfree1]; decide)
    (hproc _ _ 2 rfl fun q hq => by
      dsimp only [Log.empty] at hq ⊢
      rw [Function.update_apply] at hq ⊢
      split_ifs at hq ⊢ with hone
      · rfl
      · exact absurd hq (by simp))
    fun t ht => hpage t _ 2 1 (congrArg some hfree1) (by rw [ht, hfree1]) rfl fun q hq => by
      dsimp only [Log.record, Log.empty] at hq
      rw [Function.update_apply, ht, hfree1] at hq
      split_ifs at hq
      exact absurd (Option.some.inj hq : 1 = 2) (by decide)
  rw [hfree1] at hr2 hfree2
  exact ⟨s2, hr2, hfree2⟩

/-- Two processes, from zero memory: the second one may be served again, the first one may not. -/
theorem address_spaces_isolated_one : ∃ s : State, s.vmemFree = 2 ∧ Isolated twoServed s ∧
    (∀ s', step Layout.packed 6 7 s (.newPage 2 4096 0) = some s' →
      Isolated (twoServed.record s (.newPage 2 4096 0)) s' ∧ Keeps 2 s s') ∧
    ∀ s', step Layout.packed 6 7 s (.newPage 1 4096 0) = some s' →
      ¬ (Isolated (twoServed.record s (.newPage 1 4096 0)) s' ∧ Keeps 1 s s') := by
  obtain ⟨s, hr, hfree⟩ := exists_run Layout.packed 6 7 (fun _ _ => 0) (fun x q => q.Ok x.2 ∧ Ordered x.1 x.2 q)
    (fun _ _ _ hp _ => ⟨hp, trivial⟩) fun _ _ _ _ hk _ hnone hq => ⟨⟨hk ▸ rfl, by decide⟩, .inl hnone, fun q _ => hq q⟩
  obtain ⟨hiso, hnext⟩ := address_spaces_isolated _ hr
  refine ⟨s, hfree, hiso, fun s' hs => ?_, fun s' hs hboth => ?_⟩
  · refine (hnext 2 4096 0 s' ⟨rfl, by decide⟩ hs).mpr ⟨.inr (by rw [hfree]; rfl), fun q hne hq => ?_⟩
    unfold twoServed at hq
    dsimp only at hq
    rw [Function.update_of_ne hne, Function.update_apply, hfree] at hq
    split_ifs at hq
    exact absurd (Option.some.inj hq) (by decide)
  · have hordered := (hnext 1 4096 0 s' ⟨rfl, by decide⟩ hs).mp hboth
    exact hordered.2 2 (by decide) (by rw [hfree]; rfl)

/-- Two processes are made and served, and the first is served again: it gets
the frames of the second. -/
theorem address_spaces_overlap : ¬ ∀ (L : Layout) (pm mm : ℤ) (m : PhysMem) (s : State) (g : Log),
    Reach (run L pm mm) (fun x q => q.Ok x.2) (init L m, Log.empty) (s, g) → Isolated g s := by
  intro h
  obtain ⟨⟨s, g⟩, hr, h1, h2, hs1, hs2⟩ : ∃ x, Reach (run Layout.packed 6 7) (fun x q => q.Ok x.2)
      (init Layout.packed fun _ _ => 0, Log.empty) x ∧ x.2.slot 1 = some 0 ∧ x.2.slot 2 = some 1 ∧
      x.2.served 1 = some 2 ∧ x.2.served 2 = some 2 :=
    Reach.exists_of_exec [.newProc 1, .newPage 1 0 0, .newProc 2, .newPage 2 0 0, .newPage 1 0 0]
      (by decide +kernel)
  have hT : Tables Layout.packed g s := hr.invariant (I := fun x => Tables Layout.packed x.2 x.1)
    (tables_init _ _) fun _ _ _ hx hok hs => hx.run hok hs
  have hzero : (0 : Word).toNat < 3221225472 := by decide
  exact h _ 6 7 _ s g hr 1 2 (by decide) (h1 ▸ rfl) (h2 ▸ rfl) 0 0 _ _ hzero hzero (hT.walk_user h1 hs1 (.inl hzero))
    (hT.walk_user h2 hs2 (.inl hzero)) rfl

/-! ### The order of the process manager -/

/-- A process is served, one or more times, before the next one is made. -/
def PmOrder (s : State) (g : Log) : Request → Prop
  | .newProc p => g.slot p = none ∧ ∀ q, (g.slot q).isSome → (g.served q).isSome
  | .newPage p va _ => (∃ k, g.slot p = some k ∧ k + 1 = s.vmemFree) ∧ va.toNat < 3221225472

/-- A process is served while it is the last one. -/
def ServedLast (g : Log) : Prop := ∀ p k u, g.slot p = some k → g.served p = some u → u = k + 1

theorem PmOrder.ok {q : Request} (h : PmOrder s g q) : q.Ok g := by
  cases q with
  | newProc p => exact h.1
  | newPage p va size =>
    obtain ⟨⟨k, hk, -⟩, hva⟩ := h
    exact ⟨hk ▸ rfl, hva⟩

theorem ServedLast.run {x x' : State × Log} {q : Request} (h : Tables L x.2 x.1) (hg : ServedLast x.2)
    (hok : PmOrder x.1 x.2 q) (hs : run L pm mm x q = some x') : ServedLast x'.2 := by
  obtain ⟨hst, hg'⟩ := withHistory_eq_some.mp hs
  rw [hg']
  cases q with
  | newProc p =>
    intro q k u hk hu
    by_cases hqp : q = p
    · rw [hqp] at hu
      exact absurd ((h.known p hok.1).symm.trans hu) (by simp)
    · rw [Log.record_newProc, if_neg hqp] at hk
      exact hg q k u hk hu
  | newPage p va size =>
    obtain ⟨⟨k, hk, hlast⟩, hva⟩ := hok
    intro q j u hj hu
    by_cases hqp : q = p
    · rw [hqp] at hj hu
      have hjk : j = k := Option.some.inj (hj.symm.trans hk)
      rw [Log.record_newPage, if_pos rfl, Option.some.injEq] at hu
      omega
    · rw [Log.record_newPage, if_neg hqp] at hu
      exact hg q j u hj hu

theorem ServedLast.apart (h : Tables L g s) (hg : ServedLast g) : Apart g := by
  intro p q u hpq hp hq
  have hknown : ∀ t, g.served t = some u → ∃ k, g.slot t = some k := by
    intro t ht
    cases hk : g.slot t with
    | none => exact absurd ((h.known t hk).symm.trans ht) (by simp)
    | some k => exact ⟨k, rfl⟩
  obtain ⟨j, hj⟩ := hknown p hp
  obtain ⟨k, hk⟩ := hknown q hq
  have hju := hg p j u hj hp
  have hku := hg q k u hk hq
  have hjk : j = k := by omega
  exact hpq (h.inj p q k (hjk ▸ hj) hk)

/-- **Address translation of user processes, as the process manager builds
them.** The process in entry `k` of `vmem_table` has its user addresses mapped
to the 4 MB from `(32 + 4 * (k + 1)) MB` on, once it has been served; the first
64 MB of the kernel are mapped as `init_page` did; processes share no frame,
and all frames are in the physical memory; and what `MM_NEW_PAGE` returns is
the translation of its address. -/
theorem pm_address_spaces (m : PhysMem)
    (h : Reach (run L pm mm) (fun x q => PmOrder x.1 x.2 q) (init L m, Log.empty) (s, g)) :
    (∀ p k, g.slot p = some k → (g.served p).isSome → ∀ va : Word, va.toNat < 3221225472 →
      walk s.mem (s.cr3 p) va =
        some (BitVec.ofNat 32 ((32 + 4 * (k + 1)) * 1048576 + va.toNat % 4194304))) ∧
    (∀ p k, g.slot p = some k → ∀ va : Word, 3221225472 ≤ va.toNat → va.toNat < 3288334336 →
      walk s.mem (s.cr3 p) va = walk (init L m).mem (kcr3 L) va) ∧
    Isolated g s ∧
    (∀ p k, g.slot p = some k → ∀ va pa : Word, va.toNat < 3221225472 →
      walk s.mem (s.cr3 p) va = some pa → pa.toNat < 134217728) ∧
    (∀ p va size, PmOrder s g (.newPage p va size) → ∃ r s',
      mmThread L pm mm ((Request.newPage p va size).msg pm mm) s = some (r, s') ∧
      walk s'.mem (s'.cr3 p) va = some (BitVec.ofInt 32 r.type)) := by
  have hinv : Tables L g s ∧ ServedLast g := h.invariant (I := fun x => Tables L x.2 x.1 ∧ ServedLast x.2)
    ⟨tables_init L m, fun p k u hk => absurd hk (by simp [Log.empty])⟩
    fun _ _ _ hx hok hs => ⟨hx.1.run (PmOrder.ok hok) hs, hx.2.run hx.1 hok hs⟩
  obtain ⟨hT, hlast⟩ := hinv
  have hbound := hT.dirs.bound
  have huser : ∀ p k, g.slot p = some k → (g.served p).isSome → ∀ va : Word, va.toNat < 3221225472 →
      walk s.mem (s.cr3 p) va =
        some (BitVec.ofNat 32 ((32 + 4 * (k + 1)) * 1048576 + va.toNat % 4194304)) := by
    intro p k hk hp va hva
    obtain ⟨u, hu⟩ := Option.isSome_iff_exists.mp hp
    have huk := hlast p k u hk hu
    rw [hT.walk_user hk hu (.inl hva), huk]
    unfold physAddr
    have hsum : 4096 * (8192 + 1024 * (k + 1) + va.toNat / 4096 % 1024) + va.toNat % 4096 =
        (32 + 4 * (k + 1)) * 1048576 + va.toNat % 4194304 := by omega
    rw [hsum]
  refine ⟨huser, fun p k hk va hlo hhi => ?_, hT.isolated (hlast.apart hT), fun p k hk va pa hva hw => ?_,
    fun p va size hok => ?_⟩
  · rw [hT.dirs.walk_kernel hk hlo hhi, hT.dirs.kernel.walk_kernel hlo (by omega),
      (tables_init L m).dirs.kernel.walk_kernel hlo (by omega)]
  · cases hu : g.served p with
    | none => exact absurd (hw.symm.trans (hT.walk_fault hk hu hva)) (by simp)
    | some u =>
      have hle := hT.epoch p u hu
      rw [hT.walk_user hk hu (.inl hva), Option.some.injEq] at hw
      rw [← hw, toNat_physAddr (by omega)]
      omega
  · obtain ⟨⟨k, hk, -⟩, hva⟩ := hok
    have hst : step L pm mm s (.newPage p va size) = some (doAllocateNewPages p va s).2 := step_newPage
    have hself : (g.record s (.newPage p va size)).served p = some s.vmemFree := by
      rw [Log.record_newPage, if_pos rfl]
    obtain ⟨h', -, -⟩ := hT.newPage hk (.inl hva) hst
    obtain ⟨m', heq, -⟩ := hT.dirs.newPage hk va
    refine ⟨_, _, mmThread_newPage p va size, ?_⟩
    rw [h'.walk_user (k := k) hk hself (.inl hva), heq, BitVec.ofInt_toInt]

/-- Two processes, made and served, from zero memory: the same address is in different frames, and
the kernel is where it was. -/
theorem pm_address_spaces_one : ∃ s : State, Isolated twoServed s ∧
    walk s.mem (s.cr3 1) 0x00401234#32 = some 0x02401234#32 ∧
    walk s.mem (s.cr3 2) 0x00401234#32 = some 0x02801234#32 ∧
    walk s.mem (s.cr3 2) 0xC0001234#32 = some 0x00001234#32 := by
  obtain ⟨s, hr, -⟩ := exists_run Layout.packed 6 7 (fun _ _ => 0) (fun x q => PmOrder x.1 x.2 q)
    (fun _ _ _ hp hall => ⟨hp, hall⟩) fun _ _ _ k hk hfree _ _ => ⟨⟨k, hk, hfree⟩, by decide⟩
  obtain ⟨huser, hkernel, hiso, -⟩ := pm_address_spaces _ hr
  refine ⟨s, hiso, huser 1 0 rfl rfl 0x00401234#32 (by decide), huser 2 1 rfl rfl 0x00401234#32 (by decide), ?_⟩
  rw [hkernel 2 1 rfl 0xC0001234#32 (by decide) (by decide),
    (tables_init _ _).dirs.kernel.walk_kernel (by decide) (by decide)]
  rfl

end Mm
end NanoOS
