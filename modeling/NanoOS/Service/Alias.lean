/-
# Aliases in an address space

All entries of a process's page directory that are not the kernel's lead to one
page table, and `do_allocate_new_pages` fills all of it whatever the size it is
asked for. So a user address is mapped by its lower 22 bits: two addresses have
the same translation exactly if they are a multiple of 4 MB apart.

Key definitions: `Requested`.
Key theorems: `Tables.walk_eq_iff`, `user_addresses_alias`.
-/
import NanoOS.Service.AddressSpace

namespace NanoOS
namespace Mm

open Memory Trans

variable {L : Layout} {s s' : State} {g : Log} {pm mm : ℤ}

/-- The run of the memory manager with its log and all requests. -/
abbrev requestRun (L : Layout) (pm mm : ℤ) :
    State × (Log × List Request) → Request → Option (State × (Log × List Request)) :=
  withHistory (step L pm mm) fun s q h => (h.1.record s q, h.2 ++ [q])

/-- `v` is a user address in a range `[va, va + size)` that pages were requested
for. -/
def Requested (qs : List Request) (p : ℕ) (v : Word) : Prop :=
  v.toNat < 3221225472 ∧ ∃ va size : Word, Request.newPage p va size ∈ qs ∧ va.toNat ≤ v.toNat ∧
    v.toNat < va.toNat + size.toNat

/-- The processes in the requests for pages are in the log. -/
def Served (g : Log) (qs : List Request) : Prop := ∀ p va size, Request.newPage p va size ∈ qs →
  (g.slot p).isSome ∧ (g.served p).isSome

theorem Served.record {qs : List Request} {q : Request} (h : Served g qs) (hok : q.Ok g) :
    Served (g.record s q) (qs ++ [q]) := by
  intro p va size hmem
  rw [List.mem_append, List.mem_singleton] at hmem
  cases q with
  | newProc r =>
    obtain ⟨hslot, hserved⟩ := h p va size (hmem.resolve_right (by simp))
    refine ⟨?_, hserved⟩
    rw [Log.record_newProc]
    split
    · rfl
    · exact hslot
  | newPage r va' size' =>
    have hold : Request.newPage p va size ∈ qs → (g.served p).isSome := fun hin => (h p va size hin).2
    rw [Log.record_newPage]
    by_cases hpr : p = r
    · rw [if_pos hpr]
      exact ⟨hpr ▸ hok.1, rfl⟩
    · have hin : Request.newPage p va size ∈ qs := by
        refine hmem.resolve_right fun heq => hpr ?_
        cases heq
        rfl
      rw [if_neg hpr]
      exact h p va size hin

/-- **Aliases.** User addresses of a process that has been served have the same
translation if and only if they are a multiple of 4 MB apart; all are in its
4 MB of frames. -/
theorem Tables.walk_eq_iff (h : Tables L g s) {p k u : ℕ} (hp : g.slot p = some k) (hu : g.served p = some u)
    {v v' : Word} (hv : v.toNat < 3221225472) (hv' : v'.toNat < 3221225472) :
    (walk s.mem (s.cr3 p) v = walk s.mem (s.cr3 p) v' ↔ v.toNat % 4194304 = v'.toNat % 4194304) ∧
    ∃ pa, walk s.mem (s.cr3 p) v = some pa ∧ (32 + 4 * u) * 1048576 ≤ pa.toNat ∧
      pa.toNat < (32 + 4 * u) * 1048576 + 4194304 := by
  have hbound := h.dirs.bound
  have hle := h.epoch p u hu
  have hnat : ∀ w : Word, w.toNat < 3221225472 → (physAddr (8192 + 1024 * u + w.toNat / 4096 % 1024) w).toNat =
      (32 + 4 * u) * 1048576 + w.toNat % 4194304 := by
    intro w hw
    rw [toNat_physAddr (by omega)]
    omega
  refine ⟨?_, _, h.walk_user hp hu (.inl hv), ?_, ?_⟩
  · rw [h.walk_user hp hu (.inl hv), h.walk_user hp hu (.inl hv'), Option.some.injEq]
    constructor
    · intro heq
      have hsum := congrArg BitVec.toNat heq
      rw [hnat v hv, hnat v' hv'] at hsum
      exact Nat.add_left_cancel hsum
    · intro heq
      apply BitVec.eq_of_toNat_eq
      rw [hnat v hv, hnat v' hv', heq]
  · rw [hnat v hv]
    exact Nat.le_add_right _ _
  · rw [hnat v hv]
    exact Nat.add_lt_add_left (Nat.mod_lt _ (by decide)) _

theorem requestRun_inv (m : PhysMem) {qs : List Request}
    (h : Reach (requestRun L pm mm) (fun x q => q.Ok x.2.1) (init L m, (Log.empty, [])) (s, (g, qs))) :
    Tables L g s ∧ Served g qs := by
  refine h.invariant (I := fun x => Tables L x.2.1 x.1 ∧ Served x.2.1 x.2.2)
    ⟨tables_init L m, fun p va size hin => absurd hin List.not_mem_nil⟩ fun x q x' hx hok hs => ?_
  obtain ⟨hst, hg⟩ := withHistory_eq_some.mp hs
  rw [hg]
  have hrun : run L pm mm (x.1, x.2.1) q = some (x'.1, x.2.1.record x.1 q) := withHistory_eq_some.mpr ⟨hst, rfl⟩
  exact ⟨hx.1.run hok hrun, hx.2.record hok⟩

/-- A requested address is one of a process that has been served. -/
theorem Served.of_requested {qs : List Request} (h : Served g qs) {p : ℕ} {v : Word} (hv : Requested qs p v) :
    ∃ k u, g.slot p = some k ∧ g.served p = some u := by
  obtain ⟨va, size, hin, -⟩ := hv.2
  obtain ⟨hslot, hserved⟩ := h p va size hin
  obtain ⟨k, hk⟩ := Option.isSome_iff_exists.mp hslot
  obtain ⟨u, hu⟩ := Option.isSome_iff_exists.mp hserved
  exact ⟨k, u, hk, hu⟩

/-- **When requested addresses alias**: two addresses in the ranges requested for
a process have the same translation if and only if they are a multiple of 4 MB
apart, and all of them are in the 4 MB of frames that the process was given
when it was last served. -/
theorem user_addresses_alias (m : PhysMem) {qs : List Request}
    (h : Reach (requestRun L pm mm) (fun x q => q.Ok x.2.1) (init L m, (Log.empty, [])) (s, (g, qs))) (p : ℕ)
    (v v' : Word) (hv : Requested qs p v) (hv' : Requested qs p v') :
    (walk s.mem (s.cr3 p) v = walk s.mem (s.cr3 p) v' ↔ v.toNat % 4194304 = v'.toNat % 4194304) ∧
    ∃ u, g.served p = some u ∧ ∃ pa, walk s.mem (s.cr3 p) v = some pa ∧
      (32 + 4 * u) * 1048576 ≤ pa.toNat ∧ pa.toNat < (32 + 4 * u) * 1048576 + 4194304 := by
  obtain ⟨hT, hserved⟩ := requestRun_inv m h
  obtain ⟨k, u, hk, hu⟩ := hserved.of_requested hv
  obtain ⟨hiff, hframe⟩ := hT.walk_eq_iff hk hu hv.1 hv'.1
  exact ⟨hiff, u, hu, hframe⟩

theorem exists_large : ∃ s g, Reach (requestRun Layout.packed 6 7) (fun x q => q.Ok x.2.1)
    (init Layout.packed fun _ _ => 0, (Log.empty, [])) (s, (g, [.newProc 1, .newPage 1 0x08000000 0x00800000])) := by
  obtain ⟨m, hproc, -⟩ := @step_newProc Layout.packed (init Layout.packed fun _ _ => 0) 6 7 (by decide) 1
  have hok : Request.Ok Log.empty (.newProc 1) := rfl
  have hok' : (Request.newPage 1 0x08000000 0x00800000).Ok
      (Log.empty.record (init Layout.packed fun _ _ => 0) (.newProc 1)) := ⟨rfl, by decide⟩
  have hfirst : requestRun Layout.packed 6 7 (init Layout.packed fun _ _ => 0, (Log.empty, [])) (.newProc 1) =
      some (_, (Log.empty.record (init Layout.packed fun _ _ => 0) (.newProc 1), [.newProc 1])) :=
    withHistory_eq_some.mpr ⟨hproc, rfl⟩
  exact ⟨_, _, .step (.step .init hok hfirst) hok' (withHistory_eq_some.mpr ⟨step_newPage, rfl⟩)⟩

theorem requested_large {v : Word} (hlo : 0x08000000 ≤ v.toNat) (hhi : v.toNat < 0x08800000) :
    Requested [.newProc 1, .newPage 1 0x08000000 0x00800000] 1 v :=
  ⟨by omega, 0x08000000, 0x00800000, by simp, hlo, hhi⟩

/-- Its two ends have different translations. -/
theorem user_addresses_alias_ends : ∃ s : State, ∃ pa pa' : Word, pa ≠ pa' ∧
    walk s.mem (s.cr3 1) 0x08000000 = some pa ∧ walk s.mem (s.cr3 1) 0x087fffff = some pa' := by
  obtain ⟨s, g, h⟩ := exists_large
  obtain ⟨hiff, u, hu, pa, hpa, -⟩ := user_addresses_alias _ h 1 0x08000000 0x087fffff
    (requested_large (by decide) (by decide)) (requested_large (by decide) (by decide))
  obtain ⟨-, u', hu', pa', hpa', -⟩ := user_addresses_alias _ h 1 0x087fffff 0x087fffff
    (requested_large (by decide) (by decide)) (requested_large (by decide) (by decide))
  refine ⟨s, pa, pa', fun heq => ?_, hpa, hpa'⟩
  rw [hpa, hpa', heq] at hiff
  exact absurd (hiff.mp rfl) (by decide)

/-- The addresses 0x08000000 and 0x08400000 of it are the same memory. -/
theorem user_addresses_shared : ¬ ∀ (L : Layout) (pm mm : ℤ) (m : PhysMem) (s : State) (g : Log) (qs : List Request),
    Reach (requestRun L pm mm) (fun x q => q.Ok x.2.1) (init L m, (Log.empty, [])) (s, (g, qs)) →
    ∀ (p : ℕ) (v v' : Word), Requested qs p v → Requested qs p v' → v ≠ v' →
      walk s.mem (s.cr3 p) v ≠ walk s.mem (s.cr3 p) v' := by
  intro hall
  obtain ⟨s, g, h⟩ := exists_large
  have hv : Requested [.newProc 1, .newPage 1 0x08000000 0x00800000] 1 0x08000000 :=
    requested_large (by decide) (by decide)
  have hv' : Requested [.newProc 1, .newPage 1 0x08000000 0x00800000] 1 0x08400000 :=
    requested_large (by decide) (by decide)
  obtain ⟨hT, hserved⟩ := requestRun_inv _ h
  obtain ⟨k, u, hk, hu⟩ := hserved.of_requested hv
  apply hall _ _ _ _ s g _ h 1 _ _ hv hv' (by decide)
  exact (hT.walk_eq_iff hk hu hv.1 hv'.1).1.mpr (by decide)

end Mm
end NanoOS
